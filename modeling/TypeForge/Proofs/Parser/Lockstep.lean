import TypeForge.Proofs.Parser.Consumes

/-!
# Parsing two texts in lockstep

Two streams are alike if they show the same words up to the end, whatever the gaps between
them.  A parser behaves alike on such streams: it fails on both for the same reason, or it
gives related results and leaves streams that are alike again.

A recursive call has to have less to read than its caller, and how much there is to read does
depend on the gaps.  It does not depend on them whether something was read at all: since a
pair of calls, either nothing was read on both sides, or both have less to read.
-/

namespace TypeForge

namespace Stream

/-- The words from the current token to the end of the text, behind which there is nothing. -/
structure Tells (s : Stream) (ws : List Word) : Prop where
  shows : s.Shows ws
  ended : s.current = none → s.cursor.Shows []

/-- The two streams show the same words, and no template string is among them. -/
def Alike (s t : Stream) : Prop :=
  ∃ ws, s.Tells ws ∧ t.Tells ws ∧ ∀ w ∈ ws, w.kind ≠ .backtick

/-- Since the streams `s` and `t`, either nothing was read or something was read of both. -/
def Onward (s t u v : Stream) : Prop :=
  u = s ∧ v = t ∨ u.size < s.size ∧ v.size < t.size

theorem Onward.refl (s t : Stream) : Onward s t s t := .inl ⟨rfl, rfl⟩

theorem Onward.trans {s t u v u' v' : Stream} (h : Onward s t u v) (h' : Onward u v u' v') :
    Onward s t u' v' := by
  rcases h with ⟨rfl, rfl⟩ | ⟨hu, hv⟩
  · exact h'
  · rcases h' with ⟨rfl, rfl⟩ | ⟨hu', hv'⟩
    · exact .inr ⟨hu, hv⟩
    · exact .inr ⟨Nat.lt_trans hu' hu, Nat.lt_trans hv' hv⟩

/-- The next stream of a cursor tells what the cursor shows. -/
theorem tells_ofCursor {cur : Cursor} {ws : List Word} (h : cur.Shows ws) :
    ∃ s, ofCursor cur = .ok s ∧ s.Tells ws ∧ s.size ≤ cur.rest.length := by
  obtain ⟨s, hs, hshows, hsize⟩ := shows_ofCursor h
  refine ⟨s, hs, ⟨hshows, fun hcurrent => ⟨[], ?_, rfl⟩⟩, hsize⟩
  have hitems := (items_ofCursor hs).2 hcurrent
  simpa [items, hcurrent] using hitems

namespace Alike

variable {s t : Stream}

/-- Streams that are alike have current tokens with the same word, or none. -/
theorem current (h : Alike s t) :
    s.current = none ∧ t.current = none ∨
      ∃ a b, s.current = some a ∧ t.current = some b ∧ a.word = b.word ∧ a.kind ≠ .backtick := by
  obtain ⟨ws, hs, ht, hplain⟩ := h
  cases ws with
  | nil => exact .inl ⟨hs.shows, ht.shows⟩
  | cons w ws =>
    obtain ⟨a, ha, hword, -, -⟩ := hs.shows
    obtain ⟨b, hb, hword', -, -⟩ := ht.shows
    subst hword
    exact .inr ⟨a, b, ha, hb, hword'.symm, hplain _ List.mem_cons_self⟩

theorem kind?_eq (h : Alike s t) : s.kind? = t.kind? := by
  rcases h.current with ⟨hs, ht⟩ | ⟨a, b, hs, ht, hword, -⟩
  · simp [kind?, hs, ht]
  · have hkind : a.kind = b.kind := congrArg Word.kind hword
    simp [kind?, hs, ht, hkind]

theorem at?_eq (h : Alike s t) (kind : Kind) : s.at? kind = t.at? kind := by
  rw [at?, at?, h.kind?_eq]

theorem inBraces_eq (h : Alike s t) : s.inBraces = t.inBraces := by
  rw [inBraces, inBraces, h.kind?_eq]

/-- Looking ahead of streams that are alike shows the same words. -/
theorem map_word_peek_eq (h : Alike s t) (n : Nat) :
    (s.cursor.peek n).map Token.word = (t.cursor.peek n).map Token.word := by
  obtain ⟨ws, hs, ht, -⟩ := h
  cases ws with
  | nil =>
    rw [Cursor.map_word_peek (hs.ended hs.shows), Cursor.map_word_peek (ht.ended ht.shows)]
  | cons w ws =>
    obtain ⟨a, -, -, -, hcursor⟩ := hs.shows
    obtain ⟨b, -, -, -, hcursor'⟩ := ht.shows
    rw [Cursor.map_word_peek hcursor, Cursor.map_word_peek hcursor']

theorem map_kind_peek_eq (h : Alike s t) (n : Nat) :
    (s.cursor.peek n).map Token.kind = (t.cursor.peek n).map Token.kind := by
  have hwords := congrArg (List.map Word.kind) (h.map_word_peek_eq n)
  rw [List.map_map, List.map_map] at hwords
  exact hwords

theorem any_peek_eq (h : Alike s t) (n : Nat) (kind : Kind) :
    ((s.cursor.peek n).any fun token => token.kind == kind) =
      (t.cursor.peek n).any fun token => token.kind == kind := by
  have hkinds := congrArg (List.any · (· == kind)) (h.map_kind_peek_eq n)
  simpa only [List.any_map, Function.comp_def] using hkinds

theorem startsLambda_eq (h : Alike s t) : startsLambda s = startsLambda t := by
  unfold startsLambda window
  rw [h.kind?_eq, h.map_kind_peek_eq]

theorem startsMapped_eq (h : Alike s t) : startsMapped s = startsMapped t :=
  h.any_peek_eq 4 .inKw

theorem startsAssertion_eq (h : Alike s t) :
    Parser.startsAssertion s = Parser.startsAssertion t := by
  unfold Parser.startsAssertion
  rcases h.current with ⟨hs, ht⟩ | ⟨a, b, hs, ht, hword, -⟩
  · rw [hs, ht]
  · obtain ⟨hkind, htext⟩ := Word.mk.inj hword
    simp [hs, ht, hkind, htext]

end Alike

end Stream

namespace Parser

variable {α β γ δ : Type}

/-- The results look the same. -/
abbrev Same (view : α → γ) (a b : α) : Prop := view a = view b

/-- The results of two runs that started at `s` and `t`: both failed for the same reason, or
both succeeded with results related by `R`, and what they left is alike. -/
inductive Matched (s t : Stream) (R : α → β → Prop) :
    Except (Located SyntaxError) (α × Stream) → Except (Located SyntaxError) (β × Stream) → Prop
  | ok {a : α} {b : β} {s' t' : Stream} (related : R a b) (alike : s'.Alike t')
      (onward : Stream.Onward s t s' t') : Matched s t R (.ok (a, s')) (.ok (b, t'))
  | error {e e' : Located SyntaxError} (value_eq : e.value = e'.value) :
      Matched s t R (.error e) (.error e')

/-- On streams that are alike and have come onward from `s` and `t`, the parsers `p` and `q`
behave alike. -/
def Lockstep (s t : Stream) (R : α → β → Prop) (p : Parser α) (q : Parser β) : Prop :=
  ∀ ⦃u v : Stream⦄, u.Alike v → Stream.Onward s t u v → Matched u v R (p u) (q v)

variable {s t : Stream} {R : α → β → Prop} {S : γ → δ → Prop} {p : Parser α} {q : Parser β}
  {f : α → Parser γ} {g : β → Parser δ}

theorem Lockstep.mono {u v : Stream} (h : Lockstep s t R p q) (hs : Stream.Onward s t u v) :
    Lockstep u v R p q :=
  fun _ _ halike honward => h halike (hs.trans honward)

theorem lockstep_pure {a : α} {b : β} (h : R a b) : Lockstep s t R (pure a) (pure b) :=
  fun u v halike _ => .ok h halike (.refl u v)

theorem lockstep_fail {pos pos' : Position} (error : SyntaxError) :
    Lockstep s t R (fail pos error) (fail pos' error) :=
  fun _ _ _ _ => .error rfl

theorem Lockstep.bind (hp : Lockstep s t R p q)
    (hf : ∀ a b, R a b → Lockstep s t S (f a) (g b)) : Lockstep s t S (p >>= f) (q >>= g) := by
  intro u v halike honward
  have hmatched := hp halike honward
  change Matched u v S (p u >>= fun r => f r.1 r.2) (q v >>= fun r => g r.1 r.2)
  revert hmatched
  generalize p u = x
  generalize q v = y
  rintro (⟨related, alike, onward⟩ | ⟨value_eq⟩)
  · rename_i a b u' v'
    have hrest := hf a b related alike (honward.trans onward)
    change Matched u v S (f a u') (g b v')
    revert hrest
    generalize f a u' = x
    generalize g b v' = y
    rintro (⟨related', alike', onward'⟩ | ⟨value_eq⟩)
    · exact .ok related' alike' (onward.trans onward')
    · exact .error value_eq
  · exact .error value_eq

theorem Lockstep.map {F : α → γ} {G : β → δ} (hp : Lockstep s t R p q)
    (h : ∀ a b, R a b → S (F a) (G b)) :
    Lockstep s t S (do return F (← p)) (do return G (← q)) :=
  hp.bind fun a b hab => lockstep_pure (h a b hab)

/-- A production that looks at the stream first. -/
theorem lockstep_get {f : Stream → Parser γ} {g : Stream → Parser δ}
    (hf : ∀ u v, u.Alike v → Lockstep s t S (f u) (g v)) :
    Lockstep s t S (get >>= f) (get >>= g) :=
  fun u v halike honward => hf u v halike halike honward

/-- **A recursion behaves alike if its step does, given calls that behave alike.** -/
theorem lockstep_fix {step : (α → Parser γ) → α → Parser γ} {step' : (β → Parser δ) → β → Parser δ}
    (h : ∀ u v, Stream.Onward s t u v → ∀ again again',
      (∀ a b, R a b → Lockstep u v S (again a) (again' b)) →
      ∀ a b, R a b → Lockstep u v S (step again a) (step' again' b)) {a : α} {b : β} (hab : R a b) :
    Lockstep s t S (fix step a) (fix step' b) := by
  intro u v
  induction hn : u.size using Nat.strongRecOn generalizing u v a b with
  | ind n ih =>
    intro halike honward
    rw [run_fix, run_fix]
    refine h u v honward _ _ (fun c d hcd u' v' halike' honward' => ?_) a b hab halike (.refl u v)
    unfold below
    rcases honward' with ⟨rfl, rfl⟩ | ⟨hu, hv⟩
    · -- A call that has read nothing fails on both sides.
      rw [if_neg (Nat.lt_irrefl _), if_neg (Nat.lt_irrefl _)]
      exact .error rfl
    · rw [if_pos hu, if_pos hv]
      exact ih u'.size (hn ▸ hu) hcd rfl halike' (honward.trans (.inr ⟨hu, hv⟩))

/-- A recursion that is always called in the same way. -/
theorem lockstep_loop {step step' : (Unit → Parser γ) → Unit → Parser γ} {S : γ → γ → Prop}
    (h : ∀ u v, Stream.Onward s t u v → ∀ again again', Lockstep u v S (again ()) (again' ()) →
      Lockstep u v S (step again ()) (step' again' ())) :
    Lockstep s t S (fix step ()) (fix step' ()) :=
  lockstep_fix (R := fun _ _ => True)
    (fun u v huv again again' hagain _ _ _ => h u v huv again again' (hagain () () trivial)) trivial

/-! ## Tokens -/

/-- At the end of the text there is no token to take. -/
theorem advance_of_tells_nil (h : s.Tells []) : ∃ pos, advance s = .error ⟨pos, .noToken⟩ := by
  obtain ⟨s', hs', -, -⟩ := Stream.tells_ofCursor (h.ended h.shows)
  have hcurrent : s.current = none := h.shows
  refine ⟨s'.cursor.pos, ?_⟩
  unfold advance
  rw [hs', hcurrent]
  rfl

theorem ofCursor_of_advance {token : Token} {s' : Stream} (h : advance s = .ok (token, s')) :
    Stream.ofCursor s.cursor = .ok s' := by
  unfold advance at h
  cases hcursor : Stream.ofCursor s.cursor with
  | error e =>
    rw [hcursor] at h
    cases h
  | ok u =>
    rw [hcursor] at h
    cases hcurrent : s.current <;> rw [hcurrent] at h <;> cases h
    rfl

/-- A token is taken, and less is left. -/
theorem advance_of_tells_cons {w : Word} {ws : List Word} (h : s.Tells (w :: ws)) :
    ∃ token s', advance s = .ok (token, s') ∧ token.word = w ∧ s'.Tells ws ∧ s'.size < s.size := by
  obtain ⟨token, s', hrun, hcurrent, hword, hshows, hsize⟩ := run_advance h.shows
  refine ⟨token, s', hrun, hword, ⟨hshows, fun hnone => ⟨[], ?_, rfl⟩⟩, hsize⟩
  have hitems := (Stream.items_ofCursor (ofCursor_of_advance hrun)).2 hnone
  simpa [Stream.items, hnone] using hitems

theorem lockstep_advance : Lockstep s t (Same Token.word) advance advance := by
  rintro u v ⟨ws, hu, hv, hplain⟩ -
  cases ws with
  | nil =>
    obtain ⟨pos, hpos⟩ := advance_of_tells_nil hu
    obtain ⟨pos', hpos'⟩ := advance_of_tells_nil hv
    rw [hpos, hpos']
    exact .error rfl
  | cons w ws =>
    obtain ⟨a, u', ha, hword, hu', hsize⟩ := advance_of_tells_cons hu
    obtain ⟨b, v', hb, hword', hv', hsize'⟩ := advance_of_tells_cons hv
    rw [ha, hb]
    exact .ok (hword.trans hword'.symm)
      ⟨ws, hu', hv', fun w hw => hplain w (List.mem_cons_of_mem _ hw)⟩ (.inr ⟨hsize, hsize'⟩)

theorem lockstep_expectKind (kind : Kind) :
    Lockstep s t (fun _ _ => True) (expectKind kind) (expectKind kind) := by
  refine lockstep_get fun u v halike => ?_
  rcases halike.current with ⟨hu, hv⟩ | ⟨a, b, hu, hv, hword, -⟩
  · rw [hu, hv]
    exact lockstep_fail _
  · rw [hu, hv]
    have hkind : a.kind = b.kind := congrArg Word.kind hword
    by_cases h : b.kind = kind
    · simp only [hkind, h, if_true]
      exact lockstep_pure trivial
    · simp only [hkind, h, if_false]
      exact lockstep_fail _

theorem lockstep_consume (kind : Kind) : Lockstep s t (Same Token.word) (consume kind) (consume kind) :=
  (lockstep_expectKind kind).bind fun _ _ _ => lockstep_advance

theorem lockstep_name : Lockstep s t Eq name name :=
  (lockstep_consume .identifier).map fun _ _ h => congrArg Word.text h

theorem lockstep_stringLiteral : Lockstep s t Eq stringLiteral stringLiteral := by
  refine (lockstep_consume .string).map fun a b h => ?_
  have htext : a.text = b.text := congrArg Word.text h
  rw [htext]

theorem lockstep_take (kind : Kind) : Lockstep s t Eq (take kind) (take kind) := by
  refine lockstep_get fun u v halike => ?_
  rw [halike.at?_eq]
  cases v.at? kind with
  | true => exact lockstep_advance.map fun _ _ _ => rfl
  | false => exact lockstep_pure rfl

/-- Optional parts that are there on both sides or on none. -/
theorem lockstep_takeThen {kind : Kind} {p q : Parser α} {view : α → γ}
    (hp : Lockstep s t (Same view) p q) :
    Lockstep s t (Same (Option.map view)) (takeThen kind p) (takeThen kind q) := by
  refine (lockstep_take kind).bind ?_
  rintro found _ rfl
  cases found with
  | true => exact hp.map fun a b hab => congrArg some hab
  | false => exact lockstep_pure rfl

/-! ## Lists -/

section

variable {p q : Parser α} {view : α → γ}

theorem Same.cons {a b : α} {as bs : List α} (h : Same view a b)
    (hs : Same (List.map view) as bs) : Same (List.map view) (a :: as) (b :: bs) := by
  rw [Same, List.map_cons, List.map_cons, h, hs]

theorem lockstep_moreSeparated {separator : Kind}
    (hp : Lockstep s t (Same view) p q) :
    Lockstep s t (Same (List.map view)) (moreSeparated separator p) (moreSeparated separator q) := by
  refine lockstep_loop fun u v huv again again' hagain => (lockstep_take separator).bind ?_
  rintro found _ rfl
  cases found with
  | true =>
    exact (hp.mono huv).bind fun a b hab => hagain.map fun as bs h => .cons hab h
  | false => exact lockstep_pure rfl

theorem lockstep_separated {separator : Kind}
    (hp : Lockstep s t (Same view) p q) :
    Lockstep s t (Same (List.map view)) (separated separator p) (separated separator q) :=
  hp.bind fun _ _ hab => (lockstep_moreSeparated hp).map fun _ _ h => .cons hab h

theorem lockstep_whileInBraces (hp : Lockstep s t (Same view) p q) :
    Lockstep s t (Same (List.map view)) (whileInBraces p) (whileInBraces q) := by
  refine lockstep_loop fun u v huv again again' hagain => lockstep_get fun u' v' halike => ?_
  rw [halike.inBraces_eq]
  cases v'.inBraces with
  | true => exact (hp.mono huv).bind fun a b hab => hagain.map fun as bs h => .cons hab h
  | false => exact lockstep_pure rfl

end

end Parser

end TypeForge
