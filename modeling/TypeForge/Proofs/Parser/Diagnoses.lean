import TypeForge.Proofs.Parser.Inherits
import TypeForge.Proofs.Parser.Mirror
import TypeForge.Proofs.Token.Driving

/-!
# Where parsers report errors

A parser of a text reads from streams that lie within it: the cursor stands in front of a suffix
of the text, the current token can be read where it says it stands, and there is none at the end
of the text only.  On such a stream a parser leaves another one, or reports an error that fits: a
token it did not expect is one that stands in the text, the end of the text is the end of the text,
and anything else is reported somewhere in it.

What a parser leaves is not longer than what it was given, and shorter if it takes a token.  A
recursive call is therefore never refused.  So all this is said of two parsers that do the same on
such streams, even if only one of them refuses calls.
-/

namespace TypeForge

/-- The token is what can be read at its position in the text. -/
def Token.StandsIn (source : List Char) (token : Token) : Prop :=
  ∃ before behind, source = before ++ (token.text.toList ++ behind) ∧
    token.pos = Position.start.advanceOver before ∧
    Cursor.next ⟨token.text.toList ++ behind, token.pos⟩ =
      (some (.ok token), ⟨behind, token.pos.advanceOver token.text.toList⟩)

theorem Token.StandsIn.inText {source : List Char} {token : Token} (h : token.StandsIn source) :
    token.pos.InText source := by
  obtain ⟨before, behind, rfl, hpos, -⟩ := h
  exact ⟨before, List.prefix_append .., hpos⟩

theorem Token.StandsIn.spelled {source : List Char} {token : Token} (h : token.StandsIn source) :
    token.Spelled := by
  obtain ⟨before, behind, -, -, hnext⟩ := h
  exact Cursor.spelled_of_next hnext

theorem Token.StandsIn.text_ne_empty {source : List Char} {token : Token} (h : token.StandsIn source) :
    token.text ≠ "" := by
  obtain ⟨before, behind, -, -, hnext⟩ := h
  exact (Cursor.length_next_token hnext).1

/-! ## Cursors and streams in a text -/

/-- No gap is left behind a gap. -/
theorem gap_of_gap_closed {cs skipped rest : List Char} (h : gap cs = .closed skipped rest) :
    gap rest = .closed [] rest := by
  have after_closed {more skipped : List Char} {g : Gap} (h : g.after more = .closed skipped rest) :
      ∃ s, g = .closed s rest := by
    cases g with
    | closed s r =>
      cases h
      exact ⟨s, rfl⟩
    | unclosed s c => cases h
  fun_induction gap cs generalizing skipped with
  | case1 =>
    cases h
    rw [gap]
  | case2 cs ih => exact (after_closed h).elim fun _ h => ih h
  | case3 cs body behind hcomment ih => exact (after_closed h).elim fun _ h => ih h
  | case4 cs hcomment => cases h
  | case5 c cs hline hblock hwhite ih => exact (after_closed h).elim fun _ h => ih h
  | case6 c cs hline hblock hwhite =>
    cases h
    rw [gap, if_neg hwhite]
    · exact hline
    · exact hblock

namespace Cursor

variable {source : List Char} {cur cur' : Cursor}

/-- A token that is read from a text stands in it. -/
theorem Within.standsIn (h : cur.Within source) {token : Token}
    (hnext : cur.next = (some (.ok token), cur')) : token.StandsIn source := by
  have hgapsource := source_gap cur.rest
  obtain ⟨skipped, c, cs, kind, hgap, hkind, rfl, rfl⟩ := lexeme_of_next hnext
  rw [hgap, Gap.source] at hgapsource
  obtain ⟨before, hsource, hpos⟩ := h.past hgapsource.symm
  refine ⟨before, (lexeme c cs).rest, ?_, hpos, ?_⟩
  · rw [String.toList_ofList, lexeme_append]
    exact hsource
  · rw [String.toList_ofList, lexeme_append, Cursor.next, gap_of_gap_closed hgap]
    simp only [itemAt, hkind]
    rfl

end Cursor

/-- The stream lies in the text. -/
structure Stream.Within (source : List Char) (s : Stream) : Prop where
  cursor : s.cursor.Within source
  current : ∀ token, s.current = some token → token.StandsIn source
  ended : s.current = none → s.cursor.rest = []

namespace Stream

variable {source : List Char} {s s' : Stream} {cur : Cursor}

/-- The current token, or the end of the text, is in the text. -/
theorem Within.pos (h : s.Within source) : s.pos.InText source := by
  unfold Stream.pos
  cases hcurrent : s.current with
  | none => exact h.cursor.inText
  | some token => exact (h.current token hcurrent).inText

theorem Within.cursor_pos (h : s.Within source) (hcurrent : s.current = none) :
    s.cursor.pos = Position.start.advanceOver source := by
  obtain ⟨before, rfl, hpos⟩ := h.cursor
  rw [h.ended hcurrent, List.append_nil, hpos]

/-- Scanning a token from a text leaves a stream in it, or finds what is wrong in it. -/
theorem ofCursor_cases (h : cur.Within source) :
    (∃ s, ofCursor cur = .ok s ∧ s.Within source ∧ s.size ≤ cur.rest.length) ∨
      ∃ pos error, ofCursor cur = .error ⟨pos, .lexical error⟩ ∧ pos.InText source := by
  unfold ofCursor
  rcases hnext : cur.next with ⟨_ | ⟨e | token⟩, cur'⟩
  · have hrest := Cursor.rest_of_next_none hnext
    refine .inl ⟨_, rfl, ⟨h.next_none hnext, ?_, fun _ => hrest⟩, by simp [size, hrest]⟩
    intro token htoken
    cases htoken
  · exact .inr ⟨e.pos, e.value, rfl, (h.next hnext).1⟩
  · refine .inl ⟨_, rfl, ⟨(h.next hnext).2, ?_, ?_⟩, ?_⟩
    · intro token' htoken'
      cases htoken'
      exact h.standsIn hnext
    · intro hnone
      cases hnone
    · exact (Cursor.length_next_token hnext).2

theorem size_of_current {token : Token} (h : s.current = some token) :
    s.size = token.text.length + s.cursor.rest.length := by
  rw [size, h]
  rfl

theorem rest_length_le_size (s : Stream) : s.cursor.rest.length ≤ s.size := Nat.le_add_left ..

end Stream

/-! ## Errors that fit -/

/-- Where an error of the given kind can be reported for a text, if it can be at all. -/
def SyntaxError.Fits (source : List Char) (pos : Position) : SyntaxError → Prop
  | unexpected actual _ | unexpectedTopLevel actual | unexpectedInExpr actual =>
    ∃ token : Token, token.StandsIn source ∧ token.kind = actual ∧ token.pos = pos
  | unexpectedEnd _ | endInExpr => pos = Position.start.advanceOver source
  | invalidTarget | unterminatedTemplate | emptyProgram | lexical _ => pos.InText source
  | noToken | unexpectedOperator _ | trailingInput _ | noProgress => False

theorem SyntaxError.Fits.inText {source : List Char} {pos : Position} {error : SyntaxError}
    (h : error.Fits source pos) : pos.InText source := by
  cases error with
  | unexpected | unexpectedTopLevel | unexpectedInExpr =>
    obtain ⟨token, hstands, -, rfl⟩ := h
    exact hstands.inText
  | unexpectedEnd | endInExpr => exact ⟨source, List.prefix_refl _, h⟩
  | invalidTarget | unterminatedTemplate | emptyProgram | lexical => exact h
  | noToken | unexpectedOperator | trailingInput | noProgress => exact h.elim

namespace Parser

variable {α β : Type} {source : List Char} {n m k k₁ : Nat} {s : Stream} {p q : Parser α} {f g : α → Parser β}
  {P P' : α → Prop} {Q : β → Prop}

/-- What a run on a stream of the given size comes to: at least `k` characters are taken and the
result satisfies `P`, or an error is reported that fits. -/
def RunFits (source : List Char) (size k : Nat) (P : α → Prop) :
    Except (Located SyntaxError) (α × Stream) → Prop
  | .ok (a, s') => s'.Within source ∧ s'.size + k ≤ size ∧ P a
  | .error e => e.value.Fits source e.pos

/-- The run on the stream `s` comes to that, if `s` lies in the text and has less than `n`
characters left, and `q` does the same there. -/
def DiagnosesAt (source : List Char) (n : Nat) (s : Stream) (k : Nat) (p q : Parser α) (P : α → Prop) : Prop :=
  s.Within source → s.size < n → RunFits source s.size k P (p s) ∧ q s = p s

/-- The runs on all streams do so. -/
def Diagnoses (source : List Char) (n k : Nat) (p q : Parser α) (P : α → Prop) : Prop :=
  ∀ s, DiagnosesAt source n s k p q P

theorem RunFits.mono {size size' : Nat} {r : Except (Located SyntaxError) (α × Stream)}
    (h : RunFits source size k P r) (hsize : size + k₁ ≤ size' + k) (hP : ∀ a, P a → P' a) :
    RunFits source size' k₁ P' r := by
  cases r with
  | error e => exact h
  | ok r =>
    obtain ⟨hs', hk, ha⟩ := h
    exact ⟨hs', by omega, hP _ ha⟩

theorem DiagnosesAt.mono (h : DiagnosesAt source n s k p q P) (hm : m ≤ n) (hk : k₁ ≤ k)
    (hP : ∀ a, P a → P' a) : DiagnosesAt source m s k₁ p q P' := by
  intro hs hm'
  obtain ⟨hrun, hsame⟩ := h hs (Nat.lt_of_lt_of_le hm' hm)
  exact ⟨hrun.mono (by omega) hP, hsame⟩

theorem Diagnoses.mono (h : Diagnoses source n k p q P) (hm : m ≤ n) (hk : k₁ ≤ k) :
    Diagnoses source m k₁ p q P := fun s => (h s).mono hm hk fun _ ha => ha

/-- A parser behind another has less to read by what that took. -/
theorem DiagnosesAt.seq {k₂ : Nat} (hp : DiagnosesAt source n s k₁ p q P) (hm : n ≤ m + k₁)
    (hf : ∀ a, P a → Diagnoses source m k₂ (f a) (g a) Q) (hk : k ≤ k₁ + k₂) :
    DiagnosesAt source n s k (p >>= f) (q >>= g) Q := by
  intro hs hn
  obtain ⟨hrun, hsame⟩ := hp hs hn
  change RunFits source s.size k Q (p s >>= fun r => f r.1 r.2) ∧
    (q s >>= fun r => g r.1 r.2) = (p s >>= fun r => f r.1 r.2)
  rw [hsame]
  cases hps : p s with
  | error e =>
    rw [hps] at hrun
    exact ⟨hrun, rfl⟩
  | ok r =>
    obtain ⟨a, t⟩ := r
    rw [hps] at hrun
    obtain ⟨ht, hsize, ha⟩ := hrun
    obtain ⟨hrest, hsame'⟩ := hf a ha t ht (by omega)
    exact ⟨hrest.mono (by omega) fun _ hb => hb, hsame'⟩

/-- The first parser of a sequence takes a token, so that less is left for the others. -/
theorem DiagnosesAt.first (hp : DiagnosesAt source (n + 1) s 1 p q P)
    (hf : ∀ a, P a → Diagnoses source n 0 (f a) (g a) Q) :
    DiagnosesAt source (n + 1) s 1 (p >>= f) (q >>= g) Q :=
  hp.seq (Nat.le_refl _) hf (Nat.le_refl _)

theorem Diagnoses.first (hp : Diagnoses source (n + 1) 1 p q P)
    (hf : ∀ a, P a → Diagnoses source n 0 (f a) (g a) Q) :
    Diagnoses source (n + 1) 1 (p >>= f) (q >>= g) Q :=
  fun s => (hp s).first hf

/-- A sequence takes what its first parser takes. -/
theorem DiagnosesAt.lead (hp : DiagnosesAt source n s k p q P)
    (hf : ∀ a, P a → Diagnoses source n 0 (f a) (g a) Q) : DiagnosesAt source n s k (p >>= f) (q >>= g) Q :=
  hp.seq (Nat.le_add_right ..) hf (Nat.le_refl _)

theorem Diagnoses.lead (hp : Diagnoses source n k p q P)
    (hf : ∀ a, P a → Diagnoses source n 0 (f a) (g a) Q) : Diagnoses source n k (p >>= f) (q >>= g) Q :=
  fun s => (hp s).lead hf

/-- A sequence in a place where it does not matter whether a token is taken. -/
theorem DiagnosesAt.bind (hp : DiagnosesAt source n s k p q P)
    (hf : ∀ a, P a → Diagnoses source n 0 (f a) (g a) Q) : DiagnosesAt source n s 0 (p >>= f) (q >>= g) Q :=
  hp.seq (Nat.le_add_right ..) hf (Nat.zero_le _)

theorem Diagnoses.bind (hp : Diagnoses source n k p q P)
    (hf : ∀ a, P a → Diagnoses source n 0 (f a) (g a) Q) : Diagnoses source n 0 (p >>= f) (q >>= g) Q :=
  fun s => (hp s).bind hf

/-- A parser that may take nothing in front of another. -/
theorem Diagnoses.skip (hp : Diagnoses source n k₁ p q P)
    (hf : ∀ a, P a → Diagnoses source n k (f a) (g a) Q) : Diagnoses source n k (p >>= f) (q >>= g) Q :=
  fun s => (hp s).seq (Nat.le_add_right ..) hf (Nat.le_add_left ..)

theorem diagnosesAt_pure {a : α} (h : P a) : DiagnosesAt source n s 0 (pure a) (pure a) P := by
  intro hs _
  exact ⟨⟨hs, Nat.le_refl _, h⟩, rfl⟩

theorem diagnoses_pure {a : α} (h : P a) : Diagnoses source n 0 (pure a) (pure a) P :=
  fun _ => diagnosesAt_pure h

theorem diagnosesAt_fail {pos : Position} {error : SyntaxError} (h : s.Within source → error.Fits source pos) :
    DiagnosesAt source n s k (fail pos error : Parser α) (fail pos error) P :=
  fun hs _ => ⟨h hs, rfl⟩

/-- A production that looks at the stream first. -/
theorem diagnoses_get {f g : Stream → Parser β}
    (h : ∀ s, s.Within source → DiagnosesAt source n s k (f s) (g s) Q) :
    Diagnoses source n k (get >>= f) (get >>= g) Q := by
  intro s hs
  exact h s hs hs

/-! ## Recursion -/

/-- **What every step of a recursion satisfies, given itself on shorter streams, the recursion
satisfies**: calls that have less to read are not refused.  The other recursion may refuse calls or
not. -/
theorem diagnoses_fix_of {step step' : (α → Parser β) → α → Parser β} {loop : α → Parser β}
    (hloop : ∀ a s, s.Within source → ∃ again, loop a s = step' again a s ∧
      ∀ b t, t.size < s.size → again b t = loop b t)
    (h : ∀ m, m < n → ∀ again again', (∀ a, P a → Diagnoses source m k (again a) (again' a) Q) →
      ∀ a, P a → Diagnoses source (m + 1) k (step again a) (step' again' a) Q) {a : α} (ha : P a) :
    Diagnoses source n k (fix step a) (loop a) Q := by
  intro s
  induction hm : s.size using Nat.strongRecOn generalizing s a with
  | ind m ih =>
    intro hs hn
    obtain ⟨again, hrun, hagain⟩ := hloop a s hs
    rw [run_fix, hrun]
    refine h s.size hn _ _ (fun b hb t ht hlt => ?_) a ha s hs (Nat.lt_succ_self _)
    rw [below, if_pos hlt, hagain b t hlt]
    exact ih t.size (hm ▸ hlt) hb t rfl ht (Nat.lt_trans hlt hn)

theorem diagnoses_fix {step step' : (α → Parser β) → α → Parser β}
    (h : ∀ m, m < n → ∀ again again', (∀ a, P a → Diagnoses source m k (again a) (again' a) Q) →
      ∀ a, P a → Diagnoses source (m + 1) k (step again a) (step' again' a) Q) {a : α} (ha : P a) :
    Diagnoses source n k (fix step a) (fix step' a) Q :=
  diagnoses_fix_of (fun a s _ => ⟨_, run_fix step' a s, fun _ _ hlt => run_below hlt⟩) h ha

/-- A recursion that is always called in the same way. -/
theorem diagnoses_loop {step step' : (Unit → Parser β) → Unit → Parser β}
    (h : ∀ m, m < n → ∀ again again', Diagnoses source m k (again ()) (again' ()) Q →
      Diagnoses source (m + 1) k (step again ()) (step' again' ()) Q) :
    Diagnoses source n k (fix step ()) (fix step' ()) Q :=
  diagnoses_fix (P := fun _ => True)
    (fun m hm again again' hagain _ _ => h m hm again again' (hagain () trivial)) trivial

/-! ## Tokens -/

/-- The current token is taken, if there is one. -/
theorem diagnosesAt_advance {token : Token} (h : s.current = some token) :
    DiagnosesAt source n s 1 advance advance fun t => t = token ∧ t.Spelled := by
  intro hs _
  have hsize := Stream.size_of_current h
  have hstands := hs.current token h
  have hne : 0 < token.text.length := by
    rw [Nat.pos_iff_ne_zero, ne_eq, String.length_eq_zero_iff]
    exact hstands.text_ne_empty
  refine ⟨?_, rfl⟩
  unfold advance
  obtain ⟨s', hok, hs', hsize'⟩ | ⟨pos, error, herror, hpos⟩ := Stream.ofCursor_cases hs.cursor
  · rw [hok, h]
    exact ⟨hs', by omega, rfl, hstands.spelled⟩
  · rw [herror]
    exact hpos

theorem diagnoses_rescan : Diagnoses source n 0 rescan rescan fun _ => True := by
  intro s hs _
  have hsize := s.rest_length_le_size
  refine ⟨?_, rfl⟩
  unfold rescan
  obtain ⟨s', hok, hs', hsize'⟩ | ⟨pos, error, herror, hpos⟩ := Stream.ofCursor_cases hs.cursor
  · rw [hok]
    exact ⟨hs', by omega, trivial⟩
  · rw [herror]
    exact hpos

theorem diagnoses_expectKind (kind : Kind) :
    Diagnoses source n 0 (expectKind kind) (expectKind kind) fun _ => True := by
  refine diagnoses_get fun s hs => ?_
  cases hcurrent : s.current with
  | none => exact diagnosesAt_fail fun _ => hs.cursor_pos hcurrent
  | some token =>
    simp only
    split
    · exact diagnosesAt_pure trivial
    · exact diagnosesAt_fail fun _ => ⟨token, hs.current token hcurrent, rfl, rfl⟩

theorem diagnoses_consume (kind : Kind) :
    Diagnoses source n 1 (consume kind) (consume kind) fun t => t.kind = kind ∧ t.Spelled := by
  intro s hs hn
  have hexpect := (diagnoses_expectKind kind s hs hn).1
  refine ⟨?_, rfl⟩
  change RunFits source s.size 1 _ (expectKind kind s >>= fun r => advance r.2)
  rw [expectKind, run_get] at hexpect ⊢
  cases hcurrent : s.current with
  | none =>
    rw [hcurrent] at hexpect
    exact hexpect
  | some token =>
    simp only [hcurrent] at hexpect ⊢
    by_cases hkind : token.kind = kind
    · rw [if_pos hkind]
      refine (diagnosesAt_advance hcurrent hs hn).1.mono (Nat.le_refl _) ?_
      rintro _ ⟨rfl, hspelled⟩
      exact ⟨hkind, hspelled⟩
    · rw [if_neg hkind] at hexpect ⊢
      exact hexpect

theorem diagnoses_name : Diagnoses source n 1 name name fun text => isIdentifier text = true :=
  (diagnoses_consume .identifier).lead fun _ ht => diagnoses_pure (ht.2.name ht.1)

theorem diagnoses_stringLiteral : Diagnoses source n 1 stringLiteral stringLiteral fun _ => True :=
  (diagnoses_consume .string).lead fun _ _ => diagnoses_pure trivial

/-- A closing token behind a result. -/
theorem diagnoses_closed {close : Kind} {a : α} (ha : P a) :
    Diagnoses source n 0 (do let _ ← consume close; return a) (do let _ ← consume close; return a) P :=
  (diagnoses_consume close).bind fun _ _ => diagnoses_pure ha

theorem run_take_bind (kind : Kind) (f : Bool → Parser β) (s : Stream) :
    (take kind >>= f) s = if s.at? kind then (advance >>= fun _ => f true) s else f false s := by
  change (take kind s >>= fun r => f r.1 r.2) = _
  rw [take, run_get]
  cases s.at? kind with
  | false => rfl
  | true =>
    change ((advance s >>= fun r => pure (true, r.2)) >>= fun r => f r.1 r.2) =
      (advance s >>= fun r => f true r.2)
    cases advance s <;> rfl

/-- Behind a token that is taken, less is left. -/
theorem diagnoses_take_bind {kind : Kind} {f g : Bool → Parser β}
    (htaken : Diagnoses source n (k - 1) (f true) (g true) Q)
    (hnot : Diagnoses source (n + 1) k (f false) (g false) Q) :
    Diagnoses source (n + 1) k (take kind >>= f) (take kind >>= g) Q := by
  intro s hs hn
  rw [run_take_bind, run_take_bind]
  split
  · next hat =>
    obtain ⟨token, hcurrent, -⟩ := current_of_at? hat
    exact (diagnosesAt_advance hcurrent).seq (Nat.le_refl _) (fun _ _ => htaken) (by omega) hs hn
  · exact hnot s hs hn

theorem diagnoses_take (kind : Kind) : Diagnoses source n 0 (take kind) (take kind) fun _ => True := by
  cases n with
  | zero => exact fun s _ hn => absurd hn (Nat.not_lt_zero _)
  | succ n =>
    have hbind : Diagnoses source (n + 1) 0 (take kind >>= pure) (take kind >>= pure) fun _ => True :=
      diagnoses_take_bind (diagnoses_pure trivial) (diagnoses_pure trivial)
    rwa [bind_pure] at hbind

end Parser

end TypeForge
