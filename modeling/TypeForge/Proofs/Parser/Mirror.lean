import TypeForge.Proofs.Parser.Consumes
import TypeForge.Proofs.Parser.Lockstep
import TypeForge.Proofs.Relocation

/-!
# Parsing a text inside another one

One stream mirrors another if it shows the same tokens, at other positions, and possibly more
behind them: where the first stream ends, the second one may go on with a top-level item.  A
parser that succeeds on the first stream then succeeds on the second one, with the same result
elsewhere, since no production goes on with a token that starts an item.

A production may end in front of such a token only because its text ends there.  Loops that
run up to a closing brace do, and whoever calls them fails next; for them the second parser is
asked to follow only where the first one has a token left.
-/

namespace TypeForge

/-- Whether a token of this kind starts a top-level item. -/
def Kind.startsItem : Kind → Bool
  | .typeKw | .exportKw | .hash | .importKw => true
  | _ => false

theorem infixPower_of_startsItem {kind : Kind} (h : kind.startsItem = true) :
    infixPower kind = none := by
  cases kind <;> first | rfl | cases h

/-- What can be seen of a text with which a program goes on: it starts with an item, in whose
first three tokens there is no `in`. -/
structure ItemAhead (kinds : List Kind) : Prop where
  starts : ∀ kind ∈ kinds.head?, kind.startsItem = true
  notIn : .inKw ∉ kinds.take 3

theorem itemAhead_nil : ItemAhead [] := ⟨by simp, by simp⟩

/-- The kinds of tokens that tell a lambda. -/
def lambdaHeads : List (List Kind) :=
  [[.identifier, .fatArrow], [.lparen, .rparen, .fatArrow],
    [.lparen, .identifier, .rparen, .fatArrow], [.lparen, .identifier, .colon],
    [.lparen, .identifier, .comma]]

theorem startsLambda_iff {s : Stream} :
    startsLambda s = true ↔ ∃ head ∈ lambdaHeads, head <+: s.window 3 := by
  unfold startsLambda
  constructor
  · intro h
    split at h
    case h_6 => cases h
    all_goals
      next heq => simp [heq, lambdaHeads, List.cons_prefix_cons]
  · rintro ⟨head, hmem, rest, hrest⟩
    rw [← hrest]
    simp only [lambdaHeads, List.mem_cons, List.not_mem_nil, or_false] at hmem
    rcases hmem with rfl | rfl | rfl | rfl | rfl <;> rfl

theorem noItem_of_mem_lambdaHeads : ∀ head ∈ lambdaHeads, ∀ kind ∈ head, kind.startsItem = false := by
  decide

/-- What holds no token that starts an item lies in front of one. -/
theorem prefix_of_prefix_append {head kinds more : List Kind} (hmore : ItemAhead more)
    (hhead : ∀ kind ∈ head, kind.startsItem = false) (h : head <+: kinds ++ more) :
    head <+: kinds := by
  rcases List.prefix_or_prefix_of_prefix h (List.prefix_append kinds more) with hshort | hlong
  · exact hshort
  · obtain ⟨rest, rfl⟩ := hlong
    have hrest : rest <+: more := (List.prefix_append_right_inj kinds).1 h
    cases rest with
    | nil => simp
    | cons kind rest =>
      obtain ⟨behind, rfl⟩ := hrest
      have hstarts := hmore.starts kind rfl
      rw [hhead kind (by simp)] at hstarts
      cases hstarts

/-- Streams of which the second one shows the tokens of the first, at the positions that `f`
gives, and may go on with an item behind them. -/
structure Mirroring (f : Position → Position) (rel : Stream → Stream → Prop) : Prop where
  current {s t : Stream} {token : Token} : rel s t → s.current = some token →
    t.current = some (token.relocated f)
  ended {s t : Stream} : rel s t → s.current = none → ∀ kind ∈ t.kind?, kind.startsItem = true
  next {s t s' : Stream} {token : Token} : rel s t → s.current = some token →
    Stream.ofCursor s.cursor = .ok s' → ∃ t', Stream.ofCursor t.cursor = .ok t' ∧ rel s' t'
  peek {s t : Stream} {token : Token} (n : Nat) : rel s t → s.current = some token → ∃ more,
    (t.cursor.peek n).map Token.kind = (s.cursor.peek n).map Token.kind ++ more ∧ ItemAhead more
  size {s t s' t' : Stream} : rel s t → rel s' t' → s'.size < s.size → t'.size < t.size

theorem Cursor.length_peek_le (cur : Cursor) (n : Nat) : (cur.peek n).length ≤ n := by
  induction n generalizing cur with
  | zero => exact Nat.le_refl 0
  | succ n ih =>
    rw [peek]
    split
    · exact Nat.succ_le_succ (ih _)
    · exact Nat.zero_le _

theorem any_peek_one_iff {cur : Cursor} {kind : Kind} :
    ((cur.peek 1).any fun token => token.kind == kind) = true ↔
      [kind] <+: (cur.peek 1).map Token.kind := by
  rw [Cursor.peek]
  split
  · simp only [Cursor.peek, List.any_cons, List.any_nil, Bool.or_false, beq_iff_eq, List.map_cons,
      List.map_nil, List.cons_prefix_cons, List.prefix_rfl, and_true]
    exact eq_comm
  · simp

namespace Mirroring

variable {f : Position → Position} {rel : Stream → Stream → Prop} {s t : Stream} {token : Token}

theorem pos_eq (h : Mirroring f rel) (hrel : rel s t) (hs : s.current = some token) :
    t.pos = f s.pos := by
  simp [Stream.pos, hs, h.current hrel hs]

theorem kind?_eq (h : Mirroring f rel) (hrel : rel s t) (hs : s.current = some token) :
    t.kind? = s.kind? := by
  simp [Stream.kind?, hs, h.current hrel hs]

theorem inBraces_eq (h : Mirroring f rel) (hrel : rel s t) (hs : s.current = some token) :
    t.inBraces = s.inBraces := by
  rw [Stream.inBraces, Stream.inBraces, h.kind?_eq hrel hs]

/-- A token that starts no item is there on both sides or on none. -/
theorem at?_eq (h : Mirroring f rel) (hrel : rel s t) {kind : Kind}
    (hkind : kind.startsItem = false) : t.at? kind = s.at? kind := by
  cases hs : s.current with
  | some token => rw [Stream.at?, Stream.at?, h.kind?_eq hrel hs]
  | none =>
    have hne : t.kind? ≠ some kind := fun ht => by
      rw [h.ended hrel hs kind ht] at hkind
      cases hkind
    have hnone : s.kind? = none := by rw [Stream.kind?, hs, Option.map_none]
    simp [Stream.at?, hnone, hne]

/-- No operator starts an item. -/
theorem infixPower_eq (h : Mirroring f rel) (hrel : rel s t) :
    t.kind?.bind infixPower = s.kind?.bind infixPower := by
  cases hs : s.current with
  | some token => rw [h.kind?_eq hrel hs]
  | none =>
    have hnone : s.kind? = none := by rw [Stream.kind?, hs, Option.map_none]
    rw [hnone, Option.bind_none, Option.bind_eq_none_iff]
    exact fun kind hkind => infixPower_of_startsItem (h.ended hrel hs kind hkind)

theorem startsAssertion_eq (h : Mirroring f rel) (hrel : rel s t) (hs : s.current = some token) :
    Parser.startsAssertion t = Parser.startsAssertion s := by
  simp [Parser.startsAssertion, hs, h.current hrel hs]

/-- The tokens that tell a lambda are not completed by the start of an item. -/
theorem startsLambda_eq (h : Mirroring f rel) (hrel : rel s t) (hs : s.current = some token) :
    startsLambda t = startsLambda s := by
  obtain ⟨more, hpeek, hmore⟩ := h.peek 3 hrel hs
  have hwindow : t.window 3 = s.window 3 ++ more := by
    rw [Stream.window, Stream.window, h.kind?_eq hrel hs, hpeek, List.append_assoc]
  rw [Bool.eq_iff_iff, startsLambda_iff, startsLambda_iff, hwindow]
  constructor
  · rintro ⟨head, hmem, hprefix⟩
    exact ⟨head, hmem, prefix_of_prefix_append hmore (noItem_of_mem_lambdaHeads head hmem) hprefix⟩
  · rintro ⟨head, hmem, hprefix⟩
    exact ⟨head, hmem, hprefix.trans (List.prefix_append _ _)⟩

/-- A mapped type is told by the tokens behind its brace, unless there are none at all. -/
theorem startsMapped_eq (h : Mirroring f rel) (hrel : rel s t) (hs : s.current = some token)
    (hpeek : s.cursor.peek 4 ≠ []) : startsMapped t = startsMapped s := by
  obtain ⟨more, hkinds, hmore⟩ := h.peek 4 hrel hs
  have hshort : more.length ≤ 3 := by
    have hlength := congrArg List.length hkinds
    have hle := t.cursor.length_peek_le 4
    have hpos := List.length_pos_iff.2 hpeek
    simp only [List.length_map, List.length_append] at hlength
    omega
  have hnotIn : .inKw ∉ more := by
    rw [← List.take_of_length_le hshort]
    exact hmore.notIn
  have hany (cur : Cursor) : ((cur.peek 4).any fun token => token.kind == .inKw) =
      decide (.inKw ∈ (cur.peek 4).map Token.kind) := by
    rw [Bool.eq_iff_iff]
    simp
  rw [startsMapped, startsMapped, hany, hany, hkinds]
  simp [hnotIn]

/-- An empty list of parameters is told by the token behind its parenthesis. -/
theorem any_peek_rparen_eq (h : Mirroring f rel) (hrel : rel s t) (hs : s.current = some token) :
    ((t.cursor.peek 1).any fun token => token.kind == .rparen) =
      (s.cursor.peek 1).any fun token => token.kind == .rparen := by
  obtain ⟨more, hkinds, hmore⟩ := h.peek 1 hrel hs
  rw [Bool.eq_iff_iff, any_peek_one_iff, any_peek_one_iff, hkinds]
  constructor
  · exact prefix_of_prefix_append hmore (by decide)
  · intro hprefix
    exact hprefix.trans (List.prefix_append _ _)

end Mirroring

namespace Parser

variable {α β γ δ : Type}

/-! ## Parsers that need a token -/

/-- The parser fails at the end of the text. -/
def Needy (p : Parser α) : Prop := ∀ s : Stream, s.current = none → ∀ r, p s ≠ .ok r

theorem Needy.bind {p : Parser α} (hp : Needy p) (k : α → Parser γ) : Needy (p >>= k) := by
  intro s hs r hrun
  obtain ⟨a, s₁, hrun₁, -⟩ := run_bind_eq_ok hrun
  exact hp s hs _ hrun₁

theorem needy_get {k : Stream → Parser γ} (hk : ∀ s, Needy (k s)) : Needy (get >>= k) :=
  fun s hs r => hk s s hs r

theorem needy_expectKind (kind : Kind) : Needy (expectKind kind) := by
  intro s hs r hrun
  rw [expectKind, run_get, hs] at hrun
  cases hrun

theorem needy_consume (kind : Kind) : Needy (consume kind) := (needy_expectKind kind).bind _

theorem needy_advance : Needy advance := by
  intro s hs r hrun
  unfold advance at hrun
  cases hcursor : Stream.ofCursor s.cursor <;> rw [hcursor] at hrun
  · cases hrun
  · rw [hs] at hrun
    cases hrun

theorem needy_name : Needy name := (needy_consume .identifier).bind _

/-- At the end of the text there is nothing to take, and the parser goes on there. -/
theorem needy_take_bind {kind : Kind} {k : Bool → Parser γ} (hk : Needy (k false)) :
    Needy (take kind >>= k) := by
  intro s hs r hrun
  obtain ⟨found, s₁, hrun₁, hrun₂⟩ := run_bind_eq_ok hrun
  have hat : s.at? kind = false := by simp [Stream.at?, Stream.kind?, hs]
  rw [take, run_get, hat] at hrun₁
  cases hrun₁
  exact hk s hs r hrun₂

theorem run_below {n : Nat} {p : Parser α} {s : Stream} (h : s.size < n) : below n p s = p s :=
  if_pos h

theorem Needy.below {n : Nat} {p : Parser α} (hp : Needy p) : Needy (below n p) := by
  intro s hs r hrun
  exact hp s hs r (run_below_eq_ok hrun).2

/-! ## Parsers that follow others -/

/-- Where `p` gets from `s` to a stream that is `fine`, there `q` gets from `t` to a related
stream, with the result that `g` makes of the one of `p`. -/
def MimicsAt (rel : Stream → Stream → Prop) (fine : Stream → Prop) (g : α → β) (s t : Stream)
    (p : Parser α) (q : Parser β) : Prop :=
  ∀ a s', p s = .ok (a, s') → fine s' → ∃ t', q t = .ok (g a, t') ∧ rel s' t'

/-- On related streams `q` does what `p` does, if `p` gets to a stream that is `fine`. -/
def MimicsTo (rel : Stream → Stream → Prop) (fine : Stream → Prop) (g : α → β) (p : Parser α)
    (q : Parser β) : Prop :=
  ∀ ⦃s t : Stream⦄, rel s t → MimicsAt rel fine g s t p q

/-- Every stream is fine. -/
abbrev Anywhere : Stream → Prop := fun _ => True

/-- The text has not ended yet. -/
abbrev HasToken : Stream → Prop := fun s => s.current ≠ none

/-- On related streams `q` does what `p` does. -/
abbrev Mimics (rel : Stream → Stream → Prop) (g : α → β) (p : Parser α) (q : Parser β) : Prop :=
  MimicsTo rel Anywhere g p q

section

variable {f : Position → Position} {rel : Stream → Stream → Prop} {fine : Stream → Prop}
  {g : α → β} {h : γ → δ} {s t : Stream} {p : Parser α} {q : Parser β} {k : α → Parser γ}
  {l : β → Parser δ}

theorem mimicsTo_pure {a : α} {b : β} (hab : b = g a) : MimicsTo rel fine g (pure a) (pure b) := by
  intro s t hrel a' s' hrun _
  cases hrun
  exact ⟨t, hab ▸ rfl, hrel⟩

/-- Nothing is to be followed where the first parser fails. -/
theorem mimicsTo_fail {pos : Position} {error : SyntaxError} :
    MimicsTo rel fine g (fail pos error) q := by
  intro s t _ a s' hrun
  cases hrun

theorem Needy.mimicsAt (hp : Needy p) (hs : s.current = none) : MimicsAt rel fine g s t p q := by
  intro a s' hrun
  exact absurd hrun (hp s hs _)

theorem MimicsAt.bind (hp : MimicsAt rel Anywhere g s t p q)
    (hk : ∀ a, MimicsTo rel fine h (k a) (l (g a))) :
    MimicsAt rel fine h s t (p >>= k) (q >>= l) := by
  intro c s' hrun hfine
  obtain ⟨a, s₁, hrun₁, hrun₂⟩ := run_bind_eq_ok hrun
  obtain ⟨t₁, hq, hrel₁⟩ := hp a s₁ hrun₁ trivial
  obtain ⟨t', hl, hrel'⟩ := hk a hrel₁ c s' hrun₂ hfine
  exact ⟨t', (run_bind hq l).trans hl, hrel'⟩

theorem MimicsTo.bind (hp : Mimics rel g p q) (hk : ∀ a, MimicsTo rel fine h (k a) (l (g a))) :
    MimicsTo rel fine h (p >>= k) (q >>= l) :=
  fun _ _ hrel => (hp hrel).bind hk

theorem MimicsTo.map {F : α → γ} {G : β → δ} (hp : MimicsTo rel fine g p q)
    (hFG : ∀ a, G (g a) = h (F a)) :
    MimicsTo rel fine h (do return F (← p)) (do return G (← q)) := by
  intro s t hrel c s' hrun hfine
  obtain ⟨a, s₁, hrun₁, hrun₂⟩ := run_bind_eq_ok hrun
  cases hrun₂
  obtain ⟨t', hq, hrel'⟩ := hp hrel a s' hrun₁ hfine
  exact ⟨t', (run_bind hq _).trans (by rw [hFG]; rfl), hrel'⟩

/-- What needs a token comes after something that may have run out of them. -/
theorem MimicsTo.bind_needy (hp : MimicsTo rel HasToken g p q)
    (hk : ∀ a, MimicsTo rel fine h (k a) (l (g a))) (hneedy : ∀ a, Needy (k a)) :
    MimicsTo rel fine h (p >>= k) (q >>= l) := by
  intro s t hrel c s' hrun hfine
  obtain ⟨a, s₁, hrun₁, hrun₂⟩ := run_bind_eq_ok hrun
  have htoken : s₁.current ≠ none := fun hnone => hneedy a s₁ hnone _ hrun₂
  obtain ⟨t₁, hq, hrel₁⟩ := hp hrel a s₁ hrun₁ htoken
  obtain ⟨t', hl, hrel'⟩ := hk a hrel₁ c s' hrun₂ hfine
  exact ⟨t', (run_bind hq l).trans hl, hrel'⟩

/-- A production that looks at the stream first. -/
theorem mimicsTo_get {k : Stream → Parser γ} {l : Stream → Parser δ}
    (hk : ∀ s t, rel s t → MimicsAt rel fine h s t (k s) (l t)) :
    MimicsTo rel fine h (get >>= k) (get >>= l) :=
  fun s t hrel => hk s t hrel

/-- A production that looks at the stream first, and that needs a token. -/
theorem mimicsTo_get_needy {k : Stream → Parser γ} {l : Stream → Parser δ}
    (hk : ∀ s t token, rel s t → s.current = some token → MimicsAt rel fine h s t (k s) (l t))
    (hneedy : Needy (get >>= k)) : MimicsTo rel fine h (get >>= k) (get >>= l) := by
  intro s t hrel
  cases hs : s.current with
  | none => exact hneedy.mimicsAt hs
  | some token => exact hk s t token hrel hs

/-- **A recursion follows another one if its step does, given calls that follow.**  The calls
need a token if the recursion does. -/
theorem mimicsTo_fix (hmirror : Mirroring f rel) {step : (α → Parser γ) → α → Parser γ}
    {step' : (β → Parser δ) → β → Parser δ}
    (hstep : ∀ again again', (∀ a, MimicsTo rel fine h (again a) (again' (g a))) →
      (∀ a, Needy (fix step a) → Needy (again a)) →
      ∀ a, MimicsTo rel fine h (step again a) (step' again' (g a))) (a : α) :
    MimicsTo rel fine h (fix step a) (fix step' (g a)) := by
  intro s
  induction hn : s.size using Nat.strongRecOn generalizing s a with
  | ind n ih =>
    intro t hrel c s' hrun hfine
    rw [run_fix] at hrun ⊢
    refine hstep _ _ (fun b s₁ t₁ hrel₁ => ?_) (fun b hb => hb.below) a hrel c s' hrun hfine
    intro d s₂ hrun₁ hfine₁
    -- the call has less to read on the first side, and so it has on the second
    obtain ⟨hlt, hrun₂⟩ := run_below_eq_ok hrun₁
    obtain ⟨t₂, hq, hrel₂⟩ := ih s₁.size (hn ▸ hlt) b rfl hrel₁ d s₂ hrun₂ hfine₁
    exact ⟨t₂, (run_below (hmirror.size hrel hrel₁ hlt)).trans hq, hrel₂⟩

/-- A recursion that is always called in the same way. -/
theorem mimicsTo_loop (hmirror : Mirroring f rel) {step : (Unit → Parser γ) → Unit → Parser γ}
    {step' : (Unit → Parser δ) → Unit → Parser δ}
    (hstep : ∀ again again', MimicsTo rel fine h (again ()) (again' ()) →
      MimicsTo rel fine h (step again ()) (step' again' ())) :
    MimicsTo rel fine h (fix step ()) (fix step' ()) :=
  mimicsTo_fix hmirror (g := id)
    (fun again again' hagain _ _ => hstep again again' (hagain ())) ()

end

/-! ## Tokens -/

section

variable {f : Position → Position} {rel : Stream → Stream → Prop} {s t : Stream} {p : Parser α}
  {q : Parser β} {g : α → β}

theorem current_of_advance {token : Token} {s' : Stream} (h : advance s = .ok (token, s')) :
    s.current = some token := by
  unfold advance at h
  cases hcursor : Stream.ofCursor s.cursor <;> rw [hcursor] at h
  · cases h
  · cases hcurrent : s.current <;> rw [hcurrent] at h <;> cases h
    rfl

theorem current_of_at? {kind : Kind} (h : s.at? kind = true) :
    ∃ token, s.current = some token ∧ token.kind = kind := by
  simpa [Stream.at?, Stream.kind?] using h

theorem run_consume_eq_ok {kind : Kind} {token : Token} {s' : Stream}
    (h : consume kind s = .ok (token, s')) : s.kind? = some kind ∧ advance s = .ok (token, s') := by
  obtain ⟨_, s₁, hexpect, hadvance⟩ := run_bind_eq_ok h
  rw [expectKind, run_get] at hexpect
  cases hcurrent : s.current with
  | none =>
    rw [hcurrent] at hexpect
    cases hexpect
  | some current =>
    rw [hcurrent] at hexpect
    by_cases hkind : current.kind = kind
    · simp only [hkind, if_true] at hexpect
      cases hexpect
      exact ⟨by rw [Stream.kind?, hcurrent, Option.map_some, hkind], hadvance⟩
    · simp only [hkind, if_false] at hexpect
      cases hexpect

theorem mimics_advance (hmirror : Mirroring f rel) :
    Mimics rel (Token.relocated f) advance advance := by
  intro s t hrel token s' hrun _
  have hcurrent := current_of_advance hrun
  obtain ⟨t', ht', hrel'⟩ := hmirror.next hrel hcurrent (ofCursor_of_advance hrun)
  refine ⟨t', ?_, hrel'⟩
  unfold advance
  rw [ht', hmirror.current hrel hcurrent]
  rfl

theorem mimics_expectKind (hmirror : Mirroring f rel) (kind : Kind) :
    Mimics rel id (expectKind kind) (expectKind kind) := by
  refine mimicsTo_get_needy (fun s t token hrel hs => ?_) (needy_expectKind kind)
  rw [hs, hmirror.current hrel hs]
  by_cases hkind : token.kind = kind
  · simp only [Token.kind_relocated, hkind, if_true]
    exact mimicsTo_pure rfl hrel
  · simp only [hkind, if_false]
    exact mimicsTo_fail hrel

theorem mimics_consume (hmirror : Mirroring f rel) (kind : Kind) :
    Mimics rel (Token.relocated f) (consume kind) (consume kind) :=
  (mimics_expectKind hmirror kind).bind fun _ => mimics_advance hmirror

theorem mimics_name (hmirror : Mirroring f rel) : Mimics rel id name name :=
  (mimics_consume hmirror .identifier).map fun _ => rfl

theorem mimics_stringLiteral (hmirror : Mirroring f rel) :
    Mimics rel id stringLiteral stringLiteral :=
  (mimics_consume hmirror .string).map fun _ => rfl

/-- A token is taken on both sides or on none, since none that starts an item is asked for or
the first side has not ended. -/
theorem mimicsAt_take (hmirror : Mirroring f rel) {kind : Kind} (hrel : rel s t)
    (hat : t.at? kind = s.at? kind) : MimicsAt rel Anywhere id s t (take kind) (take kind) := by
  have hmimics : Mimics rel id
      (if s.at? kind then (do let _ ← advance; return true) else pure false)
      (if t.at? kind then (do let _ ← advance; return true) else pure false) := by
    rw [hat]
    by_cases htaken : s.at? kind = true
    · simp only [htaken, if_true]
      exact (mimics_advance hmirror).map fun _ => rfl
    · simp only [htaken]
      exact mimicsTo_pure rfl
  exact hmimics hrel

theorem mimics_take (hmirror : Mirroring f rel) {kind : Kind} (hkind : kind.startsItem = false) :
    Mimics rel id (take kind) (take kind) :=
  fun _ _ hrel => mimicsAt_take hmirror hrel (hmirror.at?_eq hrel hkind)

/-- Optional parts that are there on both sides or on none. -/
theorem mimics_takeThen (hmirror : Mirroring f rel) {kind : Kind}
    (hkind : kind.startsItem = false) (hp : Mimics rel g p q) :
    Mimics rel (Option.map g) (takeThen kind p) (takeThen kind q) := by
  refine (mimics_take hmirror hkind).bind fun found => ?_
  cases found with
  | true => exact hp.map fun _ => rfl
  | false => exact mimicsTo_pure rfl

/-! ## Lists -/

theorem mimics_moreSeparated (hmirror : Mirroring f rel) {separator : Kind}
    (hkind : separator.startsItem = false) (hp : Mimics rel g p q) :
    Mimics rel (List.map g) (moreSeparated separator p) (moreSeparated separator q) := by
  refine mimicsTo_loop hmirror fun again again' hagain => ?_
  refine (mimics_take hmirror hkind).bind fun found => ?_
  cases found with
  | true => exact hp.bind fun _ => hagain.map fun _ => rfl
  | false => exact mimicsTo_pure rfl

theorem mimics_separated (hmirror : Mirroring f rel) {separator : Kind}
    (hkind : separator.startsItem = false) (hp : Mimics rel g p q) :
    Mimics rel (List.map g) (separated separator p) (separated separator q) :=
  hp.bind fun _ => (mimics_moreSeparated hmirror hkind hp).map fun _ => rfl

/-- What is done up to a closing brace is followed if there is one. -/
theorem mimicsTo_inBraces (hmirror : Mirroring f rel) {p : Parser (List α)} {q : Parser (List β)}
    (hp : MimicsTo rel HasToken (List.map g) p q) :
    MimicsTo rel HasToken (List.map g) (do if (← get).inBraces then p else return [])
      (do if (← get).inBraces then q else return []) := by
  refine mimicsTo_get fun s t hrel => ?_
  cases hs : s.current with
  | none =>
    -- on the first side nothing is done, and no token is left
    have hout : s.inBraces = false := by simp [Stream.inBraces, Stream.kind?, hs]
    rw [hout]
    intro as s' hrun hfine
    cases hrun
    exact absurd hs hfine
  | some token =>
    rw [hmirror.inBraces_eq hrel hs]
    cases s.inBraces with
    | true => exact hp hrel
    | false => exact mimicsTo_pure rfl hrel

theorem mimicsTo_whileInBraces (hmirror : Mirroring f rel) (hp : Mimics rel g p q) :
    MimicsTo rel HasToken (List.map g) (whileInBraces p) (whileInBraces q) :=
  mimicsTo_loop hmirror fun _ _ hagain =>
    mimicsTo_inBraces hmirror (hp.bind fun _ => hagain.map fun _ => rfl)

end

end Parser

end TypeForge
