import TypeForge.Parser.Program
import TypeForge.Proofs.Parser.Accepts
import TypeForge.Proofs.Printing

/-!
# What a parser takes from its stream

A run of a parser takes some tokens off the front of its stream and leaves the rest.  A
parser is described by a relation between the words of the tokens it takes and its result;
such relations compose along sequencing and recursion, where a parser that fails satisfies
all of them.

Streams are clean: a token has the spelling of its kind, no template string opens, and a
stream without a current token is at the end of its text.  Parsing a text without backticks
never meets any other.
-/

namespace TypeForge

/-- The text of a token whose kind has only one spelling is that spelling. -/
def Token.Genuine (t : Token) : Prop := ∀ text, t.kind.spelling? = some text → t.text = text

theorem Token.Genuine.word_eq {t : Token} (h : t.Genuine) {kind : Kind} (hkind : t.kind = kind)
    (hspelling : kind.spelling?.isSome = true) : t.word = kind.word := by
  obtain ⟨text, htext⟩ := Option.isSome_iff_exists.1 hspelling
  subst hkind
  rw [Kind.word_eq htext, Token.word, h text htext]

namespace Cursor

theorem genuine_of_next {cur cur' : Cursor} {t : Token} (h : cur.next = (some (.ok t), cur')) :
    t.Genuine := by
  obtain ⟨_, c, cs, kind, -, hkind, rfl, -⟩ := lexeme_of_next h
  exact fun text htext => spelling?_lexeme hkind htext

/-- Reading gives genuine tokens only. -/
theorem genuine_of_mem_items {cur : Cursor} {t : Token} (h : .ok t ∈ cur.items.1) : t.Genuine := by
  fun_induction items cur with
  | case1 cur cur' hnext => cases h
  | case2 cur item cur' hnext ih =>
    rcases List.mem_cons.1 h with heq | hmem
    · exact genuine_of_next (heq ▸ hnext)
    · exact ih hmem

theorem items_of_rest_nil {cur : Cursor} (h : cur.rest = []) : cur.items.1 = [] := by
  have hnext : cur.next = (none, cur.past [] []) := by simp [next, h, gap]
  exact items_of_next_none hnext

end Cursor

namespace Stream

/-- The items from the current token to the end of the text. -/
def items (s : Stream) : List Item := s.current.toList.map .ok ++ s.cursor.items.1

/-- All tokens that are still to be taken are spelled as their kinds ask for, and no template
string is among them. -/
structure Clean (s : Stream) : Prop where
  ended : s.current = none → s.items = []
  genuine : ∀ t, .ok t ∈ s.items → t.Genuine
  plain : ∀ t, .ok t ∈ s.items → t.kind ≠ .backtick

theorem items_ofCursor {cur : Cursor} {s : Stream} (h : ofCursor cur = .ok s) :
    s.items = cur.items.1 ∧ (s.current = none → s.items = []) := by
  unfold ofCursor at h
  rcases hnext : cur.next with ⟨_ | ⟨_ | t⟩, cur'⟩ <;> rw [hnext] at h <;> cases h
  · have hend := Cursor.items_of_rest_nil (Cursor.rest_of_next_none hnext)
    refine ⟨?_, fun _ => ?_⟩ <;> simp [items, hend, Cursor.items_of_next_none hnext]
  · refine ⟨?_, fun hcurrent => nomatch hcurrent⟩
    rw [Cursor.items_of_next hnext]
    rfl

end Stream

namespace Parser

variable {α β : Type} {s : Stream} {p : Parser α} {f : α → Parser β}
  {P : List Word → α → Prop} {R : List Word → β → Prop}

/-! ## Runs -/

/-- If `p` succeeds on the clean stream `s`, then the words it takes are related to its result,
and what it leaves is clean. -/
def From (s : Stream) (p : Parser α) (P : List Word → α → Prop) : Prop :=
  s.Clean → ∀ a s', p s = .ok (a, s') →
    s'.Clean ∧ ∃ ts : List Token, s.items = ts.map .ok ++ s'.items ∧ P (ts.map Token.word) a

/-- The words that `p` takes are related to its result on every stream. -/
def Consumes (p : Parser α) (P : List Word → α → Prop) : Prop := ∀ s, From s p P

theorem run_bind_eq_ok {b : β} {s' : Stream} (h : (p >>= f) s = .ok (b, s')) :
    ∃ a t, p s = .ok (a, t) ∧ f a t = .ok (b, s') := by
  change (p s >>= fun r => f r.1 r.2) = _ at h
  cases hp : p s with
  | error e => rw [hp] at h; cases h
  | ok r => rw [hp] at h; exact ⟨r.1, r.2, rfl, h⟩

theorem From.bind (hp : From s p P)
    (hf : ∀ a us, P us a → Consumes (f a) fun vs b => R (us ++ vs) b) : From s (p >>= f) R := by
  intro hclean b s' hrun
  obtain ⟨a, t, hrun₁, hrun₂⟩ := run_bind_eq_ok hrun
  obtain ⟨hclean₁, ts₁, hitems₁, hP⟩ := hp hclean a t hrun₁
  obtain ⟨hclean₂, ts₂, hitems₂, hR⟩ := hf a _ hP t hclean₁ b s' hrun₂
  refine ⟨hclean₂, ts₁ ++ ts₂, ?_, ?_⟩
  · rw [hitems₁, hitems₂, List.map_append, List.append_assoc]
  · rw [List.map_append]
    exact hR

theorem Consumes.bind (hp : Consumes p P)
    (hf : ∀ a us, P us a → Consumes (f a) fun vs b => R (us ++ vs) b) : Consumes (p >>= f) R :=
  fun s => (hp s).bind hf

theorem from_pure {a : α} (h : P [] a) : From s (pure a) P := by
  intro hclean b s' hrun
  cases hrun
  exact ⟨hclean, [], rfl, h⟩

theorem consumes_pure {a : α} (h : P [] a) : Consumes (pure a) P := fun _ => from_pure h

theorem consumes_return (a : α) : Consumes (pure a) fun us b => us = [] ∧ b = a :=
  consumes_pure ⟨rfl, rfl⟩

theorem consumes_fail {pos : Position} {error : SyntaxError} : Consumes (fail pos error : Parser α) P := by
  intro s _ a s' hrun
  cases hrun

theorem Consumes.imp {Q : List Word → α → Prop} (hp : Consumes p P) (h : ∀ us a, P us a → Q us a) :
    Consumes p Q := by
  intro s hclean a s' hrun
  obtain ⟨hclean', ts, hitems, hP⟩ := hp s hclean a s' hrun
  exact ⟨hclean', ts, hitems, h _ _ hP⟩

/-- A production that looks at the stream first. -/
theorem consumes_get {g : Stream → Parser β} (h : ∀ s, From s (g s) R) : Consumes (get >>= g) R := h

theorem run_below_eq_ok {n : Nat} {r : α × Stream} (h : below n p s = .ok r) :
    s.size < n ∧ p s = .ok r := by
  unfold below at h
  split at h
  · next hlt => exact ⟨hlt, h⟩
  · cases h

/-- **What every step of a recursion satisfies, given itself, the recursion satisfies.** -/
theorem consumes_fix {step : (α → Parser β) → α → Parser β} {S : α → List Word → β → Prop}
    (h : ∀ again, (∀ a, Consumes (again a) (S a)) → ∀ a, Consumes (step again a) (S a)) (a : α) :
    Consumes (fix step a) (S a) := by
  intro s
  induction hn : s.size using Nat.strongRecOn generalizing s a with
  | ind n ih =>
    intro hclean b s' hrun
    rw [run_fix] at hrun
    refine h _ (fun c t => ?_) a s hclean b s' hrun
    intro hclean' d t' hrun'
    -- a call that has not less to read fails
    obtain ⟨hlt, hrun''⟩ := run_below_eq_ok hrun'
    exact ih t.size (hn ▸ hlt) c t rfl hclean' d t' hrun''

/-- A recursion that is always called in the same way. -/
theorem consumes_loop {step : (Unit → Parser β) → Unit → Parser β}
    (h : ∀ again, Consumes (again ()) R → Consumes (step again ()) R) : Consumes (fix step ()) R :=
  consumes_fix (S := fun _ => R) (fun again hagain _ => h again (hagain ())) ()

/-! ## Tokens -/

theorem from_advance :
    From s advance fun us t => s.current = some t ∧ t.Genuine ∧ us = [t.word] := by
  intro hclean t s' hrun
  unfold advance at hrun
  cases hcursor : Stream.ofCursor s.cursor with
  | error e => rw [hcursor] at hrun; cases hrun
  | ok s₁ =>
    rw [hcursor] at hrun
    cases hcurrent : s.current with
    | none => rw [hcurrent] at hrun; cases hrun
    | some token =>
      rw [hcurrent] at hrun
      cases hrun
      obtain ⟨hitems, hended⟩ := Stream.items_ofCursor hcursor
      have hs : s.items = .ok t :: s'.items := by
        rw [hitems]
        simp [Stream.items, hcurrent]
      have hsub : ∀ u : Token, .ok u ∈ s'.items → .ok u ∈ s.items :=
        fun u hu => hs ▸ List.mem_cons_of_mem _ hu
      refine ⟨⟨hended, fun u hu => hclean.genuine u (hsub u hu),
        fun u hu => hclean.plain u (hsub u hu)⟩, [t], hs, rfl, ?_, rfl⟩
      exact hclean.genuine t (hs ▸ List.mem_cons_self ..)

/-- The current token of a known kind is taken as the word of that kind. -/
theorem from_advance_kind {kind : Kind} (h : s.kind? = some kind)
    (hspelling : kind.spelling?.isSome = true) :
    From s advance fun us _ => us = [kind.word] := by
  intro hclean t s' hrun
  obtain ⟨hclean', ts, hitems, hcurrent, hgenuine, hwords⟩ := from_advance hclean t s' hrun
  have hkind : t.kind = kind := by
    rw [Stream.kind?, hcurrent] at h
    exact Option.some.inj h
  exact ⟨hclean', ts, hitems, hwords.trans (by rw [hgenuine.word_eq hkind hspelling])⟩

theorem consumes_consume_any (kind : Kind) :
    Consumes (consume kind) fun us t => t.kind = kind ∧ t.Genuine ∧ us = [t.word] := by
  intro s hclean t s' hrun
  obtain ⟨_, s₁, hexpect, hadvance⟩ := run_bind_eq_ok hrun
  rw [expectKind, run_get] at hexpect
  cases hcurrent : s.current with
  | none => rw [hcurrent] at hexpect; cases hexpect
  | some token =>
    rw [hcurrent] at hexpect
    by_cases hkind : token.kind = kind
    · simp only [hkind, if_true] at hexpect
      cases hexpect
      obtain ⟨hclean', ts, hitems, hcurrent', hgenuine, hwords⟩ := from_advance hclean t s' hadvance
      rw [hcurrent] at hcurrent'
      exact ⟨hclean', ts, hitems, Option.some.inj hcurrent' ▸ hkind, hgenuine, hwords⟩
    · simp only [hkind, if_false] at hexpect
      cases hexpect

theorem consumes_consume {kind : Kind} (hspelling : kind.spelling?.isSome = true) :
    Consumes (consume kind) fun us _ => us = [kind.word] :=
  (consumes_consume_any kind).imp fun us t h => by rw [h.2.2, h.2.1.word_eq h.1 hspelling]

theorem consumes_name : Consumes name fun us text => us = [nameWord text] :=
  (consumes_consume_any .identifier).bind fun t us h =>
    consumes_pure (by rw [List.append_nil, h.2.2, Token.word, h.1, nameWord])

theorem consumes_take {kind : Kind} (hspelling : kind.spelling?.isSome = true) :
    Consumes (take kind) fun us found => us = if found then [kind.word] else [] := by
  refine consumes_get fun s => ?_
  cases hat : s.at? kind with
  | false =>
    rw [if_neg Bool.false_ne_true]
    exact from_pure rfl
  | true =>
    rw [if_pos rfl]
    have hkind : s.kind? = some kind := by simpa [Stream.at?] using hat
    exact (from_advance_kind hkind hspelling).bind fun _ us hus => consumes_pure (by simp [hus])

/-- An optional part behind a token. -/
theorem consumes_takeThen {kind : Kind} {Q : List Word → α → Prop} (hp : Consumes p Q)
    (hspelling : kind.spelling?.isSome = true) :
    Consumes (takeThen kind p) fun us found =>
      (us = [] ∧ found = none) ∨ ∃ vs a, us = kind.word :: vs ∧ found = some a ∧ Q vs a := by
  refine (consumes_take hspelling).bind fun found us hus => ?_
  cases found with
  | false => exact consumes_pure (.inl ⟨by simpa using hus, rfl⟩)
  | true =>
    refine hp.bind fun a vs hvs => consumes_pure (.inr ⟨vs, a, ?_, rfl, hvs⟩)
    simp [hus]

end Parser

end TypeForge
