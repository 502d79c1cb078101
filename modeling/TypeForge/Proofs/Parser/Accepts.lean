import TypeForge.Parser.Program
import TypeForge.Proofs.Token.Words

/-!
# Parsers that accept given words

A parser accepts some words in front of others if, on every stream that shows them, it
succeeds and leaves exactly the others.  What it may leave matters, since a parser looks at
the words behind those it takes.  A recursive call of a parser has to have less to read
than its caller, so acceptance is bounded by the size of the stream: a rule for a
production may use its subparsers on all smaller streams.
-/

namespace TypeForge

namespace Cursor

/-- A token and what is left behind it are no longer than the text. -/
theorem length_next_token {cur cur' : Cursor} {t : Token} (h : cur.next = (some (.ok t), cur')) :
    t.text ≠ "" ∧ t.text.length + cur'.rest.length ≤ cur.rest.length := by
  have hsource := congrArg List.length (source_gap cur.rest)
  obtain ⟨skipped, c, cs, kind, hgap, -, rfl, rfl⟩ := lexeme_of_next h
  have happend := congrArg List.length (lexeme_append c cs)
  have hne := lexeme_text_ne_nil c cs
  refine ⟨by simpa using hne, ?_⟩
  simp only [hgap, Gap.source, List.length_append, past, String.length_ofList] at *
  omega

theorem rest_of_next_none {cur cur' : Cursor} (h : cur.next = (none, cur')) : cur'.rest = [] := by
  unfold next at h
  split at h
  · cases h
  · cases h
    rfl
  · cases h

end Cursor

namespace Stream

/-- The words from the current token to the end of the text. -/
def Shows (s : Stream) : List Word → Prop
  | [] => s.current = none
  | w :: ws => ∃ t, s.current = some t ∧ t.word = w ∧ t.text ≠ "" ∧ s.cursor.Shows ws

theorem shows_ofCursor {cur : Cursor} {ws : List Word} (h : cur.Shows ws) :
    ∃ s, ofCursor cur = .ok s ∧ s.Shows ws ∧ s.size ≤ cur.rest.length := by
  obtain ⟨ts, hts, rfl⟩ := h
  unfold ofCursor
  rcases hnext : cur.next with ⟨_ | item, cur'⟩
  · rw [Cursor.items_of_next_none hnext] at hts
    cases ts with
    | nil => exact ⟨_, rfl, rfl, by simp [size, Cursor.rest_of_next_none hnext]⟩
    | cons t ts => cases hts
  · rw [Cursor.items_of_next hnext] at hts
    cases ts with
    | nil => cases hts
    | cons t ts =>
      rw [List.map_cons] at hts
      obtain ⟨rfl, hrest⟩ := List.cons.inj hts
      obtain ⟨hne, hlength⟩ := Cursor.length_next_token hnext
      exact ⟨_, rfl, ⟨t, rfl, rfl, hne, ts, hrest, rfl⟩, hlength⟩

theorem window_of_shows {s : Stream} {w : Word} {ws : List Word} (h : s.Shows (w :: ws)) (n : Nat) :
    s.window n = ((w :: ws).take (n + 1)).map Word.kind := by
  obtain ⟨t, hcurrent, rfl, -, hshows⟩ := h
  have hpeek := congrArg (List.map Word.kind) (Cursor.map_word_peek hshows n)
  rw [List.map_map] at hpeek
  rw [List.take_succ_cons, List.map_cons, ← hpeek]
  simp [window, kind?, hcurrent, Token.word, Function.comp_def]

theorem any_peek_of_shows {s : Stream} {w : Word} {ws : List Word} (h : s.Shows (w :: ws)) (n : Nat)
    (kind : Kind) :
    (s.cursor.peek n).any (fun t => t.kind == kind) = (ws.take n).any fun w => w.kind == kind := by
  obtain ⟨t, -, -, -, hshows⟩ := h
  rw [← Cursor.map_word_peek hshows n, List.any_map]
  rfl

end Stream

namespace Parser

variable {α β : Type} {s s' : Stream}

/-! ## Running parsers -/

theorem run_bind {p : Parser α} {a : α} (h : p s = .ok (a, s')) (f : α → Parser β) :
    (p >>= f) s = f a s' := by
  change (p s >>= fun r => f r.1 r.2) = _
  rw [h]
  rfl

theorem run_get (f : Stream → Parser β) (s : Stream) : (get >>= f) s = f s s := rfl

/-- Parsing a whole text is a run on its first stream. -/
theorem parse_of_ofString (p : Parser α) {source : String} (h : Stream.ofString source = .ok s) :
    (do let (a, _) ← p (← Stream.ofString source); return a) = (p s).map Prod.fst := by
  rw [h]
  change (p s >>= fun r => pure r.1) = _
  cases p s with
  | ok r => rfl
  | error e => rfl

theorem run_of_parse {p : Parser α} {source : String} {a : α}
    (h : (do let (a, _) ← p (← Stream.ofString source); return a) = .ok a) :
    ∃ s s', Stream.ofString source = .ok s ∧ p s = .ok (a, s') := by
  cases hstream : Stream.ofString source with
  | error e =>
    rw [hstream] at h
    cases h
  | ok s =>
    rw [parse_of_ofString p hstream] at h
    cases hrun : p s with
    | error e =>
      rw [hrun] at h
      cases h
    | ok r =>
      rw [hrun] at h
      cases h
      exact ⟨s, r.2, rfl, hrun⟩

/-- A stream that shows a word gives it away. -/
theorem run_advance {w : Word} {ws : List Word} (h : s.Shows (w :: ws)) :
    ∃ t s', advance s = .ok (t, s') ∧ s.current = some t ∧ t.word = w ∧ s'.Shows ws ∧
      s'.size + 1 ≤ s.size := by
  obtain ⟨t, hcurrent, hword, hne, hshows⟩ := h
  obtain ⟨s', hs', hshows', hsize⟩ := Stream.shows_ofCursor hshows
  refine ⟨t, s', ?_, hcurrent, hword, hshows', ?_⟩
  · unfold advance
    rw [hs', hcurrent]
    rfl
  · have hlength : t.text.length ≠ 0 := fun h => hne (String.length_eq_zero_iff.1 h)
    have hs : s.size = t.text.length + s.cursor.rest.length := by simp [Stream.size, hcurrent]
    omega

/-! ## Acceptance -/

/-- On streams of size at most `n` that show `ws` in front of `rest`, the parser `p` takes `ws`
and gives a result that satisfies `good`. -/
def Accepts (n : Nat) (p : Parser α) (ws rest : List Word) (good : α → Prop) : Prop :=
  ∀ ⦃s : Stream⦄, s.size ≤ n → s.Shows (ws ++ rest) →
    ∃ a s', p s = .ok (a, s') ∧ s'.Shows rest ∧ s'.size + ws.length ≤ s.size ∧ good a

variable {n : Nat} {ws vs rest : List Word} {p : Parser α} {f : α → Parser β}
  {good : α → Prop} {fine : β → Prop}

theorem accepts_pure {a : α} (h : good a) : Accepts n (pure a) [] rest good :=
  fun s _ hshows => ⟨a, s, rfl, hshows, Nat.le_refl _, h⟩

theorem accepts_return (a : α) : Accepts n (pure a) [] rest fun b => b = a :=
  accepts_pure rfl

theorem Accepts.mono {k : Nat} (hp : Accepts n p ws rest good) (h : k ≤ n) :
    Accepts k p ws rest good :=
  fun _ hsize => hp (Nat.le_trans hsize h)

/-- One parser behind another; the second has as much less to read as the first took. -/
theorem Accepts.bind (hp : Accepts n p ws (vs ++ rest) good)
    (hf : ∀ a, good a → ∀ k, k + ws.length ≤ n → Accepts k (f a) vs rest fine) :
    Accepts n (p >>= f) (ws ++ vs) rest fine := by
  intro s hsize hshows
  rw [List.append_assoc] at hshows
  obtain ⟨a, s', hrun, hshows', hsize', ha⟩ := hp hsize hshows
  obtain ⟨b, s'', hrun', hshows'', hsize'', hb⟩ :=
    hf a ha s'.size (by omega) (Nat.le_refl _) hshows'
  refine ⟨b, s'', (run_bind hrun f).trans hrun', hshows'', ?_, hb⟩
  rw [List.length_append]
  omega

theorem Accepts.cons {w : Word} (hp : Accepts n p [w] (vs ++ rest) good)
    (hf : ∀ a, good a → ∀ k, k < n → Accepts k (f a) vs rest fine) :
    Accepts n (p >>= f) (w :: vs) rest fine :=
  Accepts.bind hp hf

/-- A parser in front that takes nothing. -/
theorem Accepts.silent (hp : Accepts n p [] (ws ++ rest) good)
    (hf : ∀ a, good a → Accepts n (f a) ws rest fine) : Accepts n (p >>= f) ws rest fine :=
  Accepts.bind hp fun a ha _ hk => (hf a ha).mono hk

theorem Accepts.map {g : α → β} (hp : Accepts n p ws rest good) (hg : ∀ a, good a → fine (g a)) :
    Accepts n (do return g (← p)) ws rest fine := by
  intro s hsize hshows
  obtain ⟨a, s', hrun, hshows', hsize', ha⟩ := hp hsize hshows
  exact ⟨g a, s', run_bind hrun _, hshows', hsize', hg a ha⟩

theorem Accepts.imp {good' : α → Prop} (hp : Accepts n p ws rest good)
    (h : ∀ a, good a → good' a) : Accepts n p ws rest good' := by
  intro s hsize hshows
  obtain ⟨a, s', hrun, hshows', hsize', ha⟩ := hp hsize hshows
  exact ⟨a, s', hrun, hshows', hsize', h a ha⟩

/-- A production that looks at the stream first. -/
theorem accepts_get {f : Stream → Parser β}
    (hf : ∀ s : Stream, s.Shows (ws ++ rest) → Accepts n (f s) ws rest fine) :
    Accepts n (get >>= f) ws rest fine :=
  fun s hsize hshows => hf s hshows hsize hshows

/-! ## Tokens -/

theorem at?_of_shows {w : Word} (h : s.Shows (w :: ws)) (kind : Kind) :
    s.at? kind = (w.kind == kind) := by
  obtain ⟨t, hcurrent, rfl, -, -⟩ := h
  simp [Stream.at?, Stream.kind?, hcurrent, Token.word]

theorem at?_of_shows_nil (h : s.Shows []) (kind : Kind) : s.at? kind = false := by
  have hcurrent : s.current = none := h
  simp [Stream.at?, Stream.kind?, hcurrent]

/-- Whether the first of some words is of the given kind. -/
def startsWith (kind : Kind) : List Word → Bool
  | [] => false
  | w :: _ => w.kind == kind

theorem at?_eq_startsWith (h : s.Shows ws) (kind : Kind) : s.at? kind = startsWith kind ws := by
  cases ws with
  | nil => exact at?_of_shows_nil h kind
  | cons w ws => exact at?_of_shows h kind

theorem accepts_advance (w : Word) : Accepts n advance [w] rest fun t => t.word = w := by
  intro s _ hshows
  obtain ⟨t, s', hrun, -, hword, hshows', hsize⟩ := run_advance hshows
  exact ⟨t, s', hrun, hshows', hsize, hword⟩

theorem accepts_consume {kind : Kind} {text : String} :
    Accepts n (consume kind) [⟨kind, text⟩] rest fun t => t.word = ⟨kind, text⟩ := by
  intro s _ hshows
  obtain ⟨t, s', hrun, hcurrent, hword, hshows', hsize⟩ := run_advance hshows
  refine ⟨t, s', ?_, hshows', hsize, hword⟩
  have hkind : t.kind = kind := congrArg Word.kind hword
  have hexpect : expectKind kind s = .ok ((), s) := by
    rw [expectKind, run_get, hcurrent]
    simp only [hkind, if_true]
    rfl
  rw [consume, run_bind hexpect, hrun]

theorem accepts_take {kind : Kind} {text : String} :
    Accepts n (take kind) [⟨kind, text⟩] rest fun found => found = true := by
  intro s _ hshows
  obtain ⟨t, s', hrun, -, -, hshows', hsize⟩ := run_advance hshows
  refine ⟨true, s', ?_, hshows', hsize, rfl⟩
  have hat : s.at? kind = true := by rw [at?_of_shows hshows, beq_self_eq_true]
  rw [take, run_get, if_pos hat, run_bind hrun]
  rfl

theorem accepts_take_none {kind : Kind} (h : startsWith kind rest = false) :
    Accepts n (take kind) [] rest fun found => found = false := by
  intro s _ hshows
  refine ⟨false, s, ?_, hshows, Nat.le_refl _, rfl⟩
  have hat : s.at? kind = false := by rw [at?_eq_startsWith hshows]; exact h
  rw [take, run_get, if_neg (by rw [hat]; exact Bool.false_ne_true)]
  rfl

theorem accepts_name (text : String) :
    Accepts n name [⟨.identifier, text⟩] rest fun found => found = text :=
  accepts_consume.map fun _ ht => congrArg Word.text ht

/-- An optional part that is there. -/
theorem accepts_takeThen {kind : Kind} {text : String}
    (hp : ∀ k, k < n → Accepts k p ws rest good) :
    Accepts n (takeThen kind p) (⟨kind, text⟩ :: ws) rest
      fun found => ∃ a, found = some a ∧ good a := by
  refine accepts_take.cons fun found hfound k hk => ?_
  subst hfound
  exact (hp k hk).map fun a ha => ⟨a, rfl, ha⟩

/-- An optional part that is not there. -/
theorem accepts_takeThen_none {kind : Kind} (h : startsWith kind rest = false) :
    Accepts n (takeThen kind p) [] rest fun found => found = none := by
  refine (accepts_take_none h).silent fun found hfound => ?_
  subst hfound
  exact accepts_pure rfl

/-! ## Recursion -/

/-- A parser that refuses streams of size `n` and more. -/
def below (n : Nat) (p : Parser α) : Parser α :=
  fun s => if s.size < n then p s else .error ⟨s.pos, .noProgress⟩

theorem Accepts.below {k : Nat} (hp : Accepts k p ws rest good) (hk : k < n) :
    Accepts k (below n p) ws rest good := by
  intro s hsize hshows
  rw [Parser.below, if_pos (Nat.lt_of_le_of_lt hsize hk)]
  exact hp hsize hshows

theorem run_fix (step : (α → Parser β) → α → Parser β) (a : α) (s : Stream) :
    fix step a s = step (fun b => below s.size (fix step b)) a s := by
  rw [fix]
  rfl

/-- A recursive parser accepts what its step accepts, given itself on smaller streams. -/
theorem accepts_fix {step : (α → Parser β) → α → Parser β} {a : α}
    (h : ∀ m, m ≤ n → Accepts m (step (fun b => below m (fix step b)) a) ws rest fine) :
    Accepts n (fix step a) ws rest fine := by
  intro s hsize hshows
  rw [run_fix]
  exact h s.size hsize (Nat.le_refl _) hshows

/-! ## Lists -/

section

variable {item : Parser α} {words : α → List Word} {view : α → β} (follow : List Word → Prop)

theorem follow_moreWords {w : Word} {cs : List α} (hrest : follow rest)
    (h : ∀ c ∈ cs, ∀ vs, follow vs → follow (w :: (words c ++ vs))) :
    follow (moreWords w (cs.map words) ++ rest) := by
  induction cs with
  | nil => exact hrest
  | cons c cs ih =>
    rw [List.map_cons, moreWords_cons, separatedWords, List.cons_append, List.append_assoc]
    exact h c (List.mem_cons_self ..) _ (ih fun d hd => h d (List.mem_cons_of_mem _ hd))

/-- Items behind another one are parsed one by one, up to a word that is no separator. -/
theorem accepts_moreSeparated {kind : Kind}
    (hend : startsWith kind rest = false) (hrest : follow rest) {cs : List α}
    (hitem : ∀ c ∈ cs, ∀ k, k < n → ∀ vs, follow vs →
      Accepts k item (words c) vs fun a => view a = view c)
    (hfollow : ∀ c ∈ cs, ∀ vs, follow vs → follow (kind.word :: (words c ++ vs))) :
    Accepts n (moreSeparated kind item) (moreWords kind.word (cs.map words)) rest
      fun as => as.map view = cs.map view := by
  induction cs generalizing n with
  | nil =>
    refine accepts_fix fun m _ => (accepts_take_none hend).silent fun found hfound => ?_
    subst hfound
    exact accepts_pure rfl
  | cons c cs ih =>
    have hmore := follow_moreWords follow hrest fun d hd => hfollow d (List.mem_cons_of_mem _ hd)
    refine accepts_fix fun m hm => accepts_take.cons fun found hfound k hk => ?_
    subst hfound
    refine (hitem c (List.mem_cons_self ..) k (by omega) _ hmore).bind fun a ha k' hk' => ?_
    refine Accepts.map (Accepts.below (ih ?_ ?_) (by omega)) fun as has => by simp [ha, has]
    · exact fun d hd k'' hk'' => hitem d (List.mem_cons_of_mem _ hd) k'' (by omega)
    · exact fun d hd => hfollow d (List.mem_cons_of_mem _ hd)

theorem accepts_separated {kind : Kind}
    (hend : startsWith kind rest = false) (hrest : follow rest) {cs : List α} (hne : cs ≠ [])
    (hitem : ∀ c ∈ cs, ∀ k, k ≤ n → ∀ vs, follow vs →
      Accepts k item (words c) vs fun a => view a = view c)
    (hfollow : ∀ c ∈ cs, ∀ vs, follow vs → follow (kind.word :: (words c ++ vs))) :
    Accepts n (separated kind item) (separatedWords kind.word (cs.map words)) rest
      fun as => as.map view = cs.map view := by
  cases cs with
  | nil => exact absurd rfl hne
  | cons c cs =>
    have hmore := follow_moreWords follow hrest fun d hd => hfollow d (List.mem_cons_of_mem _ hd)
    refine (hitem c (List.mem_cons_self ..) n (Nat.le_refl _) _ hmore).bind fun a ha k hk => ?_
    have hitems : ∀ d ∈ cs, ∀ k', k' < k → ∀ vs, follow vs →
        Accepts k' item (words d) vs fun b => view b = view d :=
      fun d hd k' hk' => hitem d (List.mem_cons_of_mem _ hd) k' (by omega)
    refine (accepts_moreSeparated follow hend hrest hitems ?_).map fun as has => by simp [ha, has]
    exact fun d hd => hfollow d (List.mem_cons_of_mem _ hd)

theorem follow_flatten {cs : List α} (hrest : follow rest)
    (h : ∀ c ∈ cs, ∀ vs, follow vs → follow (words c ++ vs)) :
    follow ((cs.map words).flatten ++ rest) := by
  induction cs with
  | nil => exact hrest
  | cons c cs ih =>
    rw [List.map_cons, List.flatten_cons, List.append_assoc]
    exact h c (List.mem_cons_self ..) _ (ih fun d hd => h d (List.mem_cons_of_mem _ hd))

theorem inBraces_of_shows (h : s.Shows ws) (hne : ws ≠ []) :
    s.inBraces = !startsWith .rbrace ws := by
  cases ws with
  | nil => exact absurd rfl hne
  | cons w ws =>
    obtain ⟨t, hcurrent, rfl, -, -⟩ := h
    simp [Stream.inBraces, Stream.kind?, hcurrent, startsWith, Token.word, bne]

/-- Items up to a closing brace. -/
theorem accepts_whileInBraces (hend : startsWith .rbrace rest = true) (hrest : follow rest)
    {cs : List α}
    (hitem : ∀ c ∈ cs, ∀ k, k ≤ n → ∀ vs, follow vs →
      Accepts k item (words c) vs fun a => view a = view c)
    (hfollow : ∀ c ∈ cs, ∀ vs, follow vs → follow (words c ++ vs))
    (hwords : ∀ c ∈ cs, words c ≠ [] ∧ startsWith .rbrace (words c) = false) :
    Accepts n (whileInBraces item) (cs.map words).flatten rest
      fun as => as.map view = cs.map view := by
  induction cs generalizing n with
  | nil =>
    refine accepts_fix fun m _ => accepts_get fun s hshows => ?_
    have hne : rest ≠ [] := by
      rintro rfl
      cases hend
    have hbraces : s.inBraces = false := by
      have hshows' : s.Shows rest := hshows
      rw [inBraces_of_shows hshows' hne, hend]
      rfl
    rw [if_neg (by rw [hbraces]; exact Bool.false_ne_true)]
    exact accepts_pure rfl
  | cons c cs ih =>
    have hmore := follow_flatten follow hrest fun d hd => hfollow d (List.mem_cons_of_mem _ hd)
    obtain ⟨hne, hstart⟩ := hwords c (List.mem_cons_self ..)
    refine accepts_fix fun m hm => accepts_get fun s hshows => ?_
    have hbraces : s.inBraces = true := by
      cases hc : words c with
      | nil => exact absurd hc hne
      | cons w ws =>
        rw [hc] at hstart
        rw [inBraces_of_shows hshows (by simp [hc])]
        simpa [hc, startsWith] using hstart
    have hlength : 0 < (words c).length := List.length_pos_iff.2 hne
    rw [if_pos hbraces]
    refine (hitem c (List.mem_cons_self ..) m hm _ hmore).bind fun a ha k hk => ?_
    refine Accepts.map (Accepts.below (ih ?_ ?_ ?_) (by omega)) fun as has => by simp [ha, has]
    · exact fun d hd k' hk' => hitem d (List.mem_cons_of_mem _ hd) k' (by omega)
    · exact fun d hd => hfollow d (List.mem_cons_of_mem _ hd)
    · exact fun d hd => hwords d (List.mem_cons_of_mem _ hd)

end

end Parser

end TypeForge
