import TypeForge.Proofs.Parser.Concatenation
import TypeForge.Proofs.Parser.Diagnostics

/-!
# Parsers that differ in how they look ahead

A brace opens an object or a mapped type.  By the grammar it opens a mapped type if a bracket,
an identifier and `in` are behind it.  The parser looks for `in` anywhere among the next four
tokens, and reads them as tokens even where they are the text of a template string or lie behind
the closing brace.  So it may be misled.

The two ways to look ahead are two instances of one parser.  A run of the one that decides by the
grammar tells what the other one does on the same stream: it comes to the same result if no brace
of an object in the result misleads, and it fails if one does.  The run also tells where `in` can
be ahead: not among the first three tokens of an expression, unless a template string opens in
front of it or the expression ends in front of it.
-/

namespace TypeForge

/-! ## Positions determine places -/

theorem Position.column_advanceOver {cs : List Char} (p : Position) (h : '\n' ∉ cs) :
    (p.advanceOver cs).column = p.column + cs.length := by
  induction cs generalizing p with
  | nil => rfl
  | cons c cs ih =>
    rw [List.mem_cons, not_or] at h
    rw [advanceOver_cons, ih _ h.2, advance, if_neg (Ne.symm h.1), List.length_cons]
    exact Nat.add_right_comm ..

theorem Position.eq_nil_of_advanceOver_eq {p : Position} {cs : List Char} (h : p.advanceOver cs = p) :
    cs = [] := by
  have hline := p.line_advanceOver cs
  have hcount : cs.count '\n' = 0 := by
    rw [h] at hline
    omega
  have hcolumn := p.column_advanceOver (List.count_eq_zero.1 hcount)
  have hlength : cs.length = 0 := by
    rw [h] at hcolumn
    omega
  exact List.eq_nil_of_length_eq_zero hlength

/-- **No two places of a text have the same position.** -/
theorem Position.eq_of_advanceOver_eq {source before before' : List Char} {p : Position}
    (hbefore : before <+: source) (hbefore' : before' <+: source)
    (h : p.advanceOver before = p.advanceOver before') : before = before' := by
  have longer {one other : List Char} (hle : one <+: other)
      (h : p.advanceOver one = p.advanceOver other) : one = other := by
    obtain ⟨more, rfl⟩ := hle
    rw [Position.advanceOver_append] at h
    rw [Position.eq_nil_of_advanceOver_eq h.symm, List.append_nil]
  rcases List.prefix_or_prefix_of_prefix hbefore hbefore' with hle | hle
  · exact longer hle h
  · exact (longer hle h.symm).symm

/-! ## Braces that mislead -/

/-- Whether the brace at the current token opens a mapped type: it does if a bracket, an
identifier and `in` are behind it. -/
def opensMapped (s : Stream) : Bool :=
  (s.cursor.peek 3).map Token.kind == [.lbracket, .identifier, .inKw]

/-- The stream at a brace between two parts of a text. -/
def braceAt (before rest : List Char) : Stream :=
  let pos := Position.start.advanceOver before
  ⟨some ⟨.lbrace, "\x7b", pos⟩, ⟨rest, pos.advance '\x7b'⟩⟩

/-- At the given position stands a brace that is taken for that of a mapped type, and it is
not. -/
def Misleads (source : List Char) (pos : Position) : Prop :=
  ∃ before rest, source = before ++ '\x7b' :: rest ∧ pos = Position.start.advanceOver before ∧
    startsMapped (braceAt before rest) = true ∧ opensMapped (braceAt before rest) = false

theorem misleads_iff {before rest : List Char} :
    Misleads (before ++ '\x7b' :: rest) (braceAt before rest).pos ↔
      startsMapped (braceAt before rest) = true ∧ opensMapped (braceAt before rest) = false := by
  constructor
  · rintro ⟨before', rest', hsource, hpos, hmisleads⟩
    have hbefore : before = before' := by
      refine Position.eq_of_advanceOver_eq (List.prefix_append before ('\x7b' :: rest)) ?_ hpos
      rw [hsource]
      exact List.prefix_append ..
    subst hbefore
    obtain rfl : rest = rest' := (List.cons.inj (List.append_cancel_left hsource)).2
    exact hmisleads
  · exact fun h => ⟨before, rest, rfl, rfl, h⟩

/-- No brace of an object among the nodes misleads. -/
def Upright (source : List Char) (nodes : List Node) : Prop :=
  ∀ node ∈ nodes, node.value = .object → ¬ Misleads source node.pos

section

variable {source : List Char} {nodes : List Node}

@[simp] theorem upright_nil : Upright source [] := fun _ h => absurd h List.not_mem_nil

@[simp] theorem upright_cons {pos : Position} {kind : NodeKind} :
    Upright source (⟨pos, kind⟩ :: nodes) ↔
      (kind = .object → ¬ Misleads source pos) ∧ Upright source nodes :=
  List.forall_mem_cons

@[simp] theorem upright_append {nodes' : List Node} :
    Upright source (nodes ++ nodes') ↔ Upright source nodes ∧ Upright source nodes' :=
  List.forall_mem_append

end

/-! ## Tokens ahead -/

theorem startsMapped_iff {s : Stream} : startsMapped s = true ↔ .inKw ∈ (s.cursor.peek 4).map Token.kind := by
  simp [startsMapped, List.mem_map]

/-- What the grammar asks for is found by looking for `in`. -/
theorem startsMapped_of_opensMapped {s : Stream} (h : opensMapped s = true) : startsMapped s = true := by
  rw [opensMapped, beq_iff_eq, ← s.cursor.take_peek (show 3 ≤ 4 by omega), List.map_take] at h
  rw [startsMapped_iff]
  refine List.mem_of_mem_take (i := 3) ?_
  rw [h]
  decide

namespace Stream

/-- The kinds of the first `n` tokens from the current one on. -/
def ahead (s : Stream) (n : Nat) : List Kind := (s.window n).take n

/-- None of the first `n` tokens is `in`, unless a template string opens in front of it. -/
def NoPlainIn (s : Stream) (n : Nat) : Prop :=
  ∀ front rest, s.ahead n = front ++ .inKw :: rest → .backtick ∈ front

theorem ahead_eq_of_kind? {s : Stream} {kind : Kind} (h : s.kind? = some kind) (n : Nat) :
    s.ahead (n + 1) = kind :: (s.cursor.peek n).map Token.kind := by
  rw [ahead, window, h, Option.toList_some, List.singleton_append, List.take_succ_cons,
    ← List.map_take, Cursor.take_peek _ (Nat.le_succ n)]

/-- Behind a token are the tokens of the stream that is scanned there. -/
theorem map_kind_peek_of_ofCursor {cur : Cursor} {s : Stream} (h : ofCursor cur = .ok s) (n : Nat) :
    (cur.peek n).map Token.kind = s.ahead n := by
  rw [ahead, ← window_ofCursor h, ← List.map_take, cur.take_peek (Nat.le_succ n)]

theorem ahead_of_advance {s s' : Stream} {token : Token} (h : Parser.advance s = .ok (token, s')) (n : Nat) :
    s.ahead (n + 1) = token.kind :: s'.ahead n := by
  rw [ahead, window_of_advance h, List.take_succ_cons, ahead]

theorem ahead_prefix (s : Stream) {n m : Nat} (h : m ≤ n) : s.ahead m <+: s.ahead n := by
  cases hkind : s.kind? with
  | none =>
    have hahead : ∀ k, s.ahead k = (s.cursor.peek k).map Token.kind := by
      intro k
      rw [ahead, window, hkind, Option.toList_none, List.nil_append, ← List.map_take,
        Cursor.take_peek _ (Nat.le_refl k)]
    rw [hahead, hahead, ← s.cursor.take_peek h, List.map_take]
    exact List.take_prefix ..
  | some kind =>
    cases m with
    | zero => simp [ahead]
    | succ m =>
      obtain ⟨n, rfl⟩ : ∃ k, n = k + 1 := ⟨n - 1, by omega⟩
      rw [ahead_eq_of_kind? hkind, ahead_eq_of_kind? hkind, List.cons_prefix_cons,
        ← s.cursor.take_peek (show m ≤ n by omega), List.map_take]
      exact ⟨rfl, List.take_prefix ..⟩

theorem NoPlainIn.mono {s : Stream} {n m : Nat} (h : s.NoPlainIn n) (hle : m ≤ n) : s.NoPlainIn m := by
  intro front rest heq
  obtain ⟨more, hmore⟩ := s.ahead_prefix hle
  refine h front (rest ++ more) ?_
  rw [← hmore, heq, List.append_assoc, List.cons_append]

theorem noPlainIn_zero (s : Stream) : s.NoPlainIn 0 := by
  intro front rest heq
  simp [ahead] at heq

/-- A token that is not `in` may stand in front. -/
theorem NoPlainIn.of_advance {s s' : Stream} {token : Token} {n : Nat} (h : s'.NoPlainIn n)
    (hrun : Parser.advance s = .ok (token, s')) (hkind : token.kind ≠ .inKw) : s.NoPlainIn (n + 1) := by
  intro front rest heq
  rw [ahead_of_advance hrun] at heq
  cases front with
  | nil => exact absurd (List.cons.inj heq).1 hkind
  | cons kind front => exact List.mem_cons_of_mem _ (h front rest (List.cons.inj heq).2)

theorem noPlainIn_of_kind? {s : Stream} {kind : Kind} (h : s.kind? = some kind) (hne : kind ≠ .inKw) :
    s.NoPlainIn 1 := by
  intro front rest heq
  rw [ahead_eq_of_kind? h] at heq
  cases front with
  | nil => exact absurd (List.cons.inj heq).1 hne
  | cons kind front => simp [Cursor.peek] at heq

/-- What a template string hides is not looked at. -/
theorem noPlainIn_of_backtick {s : Stream} (h : s.kind? = some .backtick) (n : Nat) : s.NoPlainIn n := by
  intro front rest heq
  cases n with
  | zero => simp [ahead] at heq
  | succ n =>
    rw [ahead_eq_of_kind? h] at heq
    cases front with
    | nil => cases (List.cons.inj heq).1
    | cons kind front => exact (List.cons.inj heq).1 ▸ List.mem_cons_self ..

/-! ## Scanned streams -/

/-- The current token has been scanned from the text, and the cursor is right behind it. -/
def Scanned (source : List Char) (s : Stream) : Prop :=
  ∃ cur : Cursor, cur.Within source ∧ ofCursor cur = .ok s

variable {source : List Char} {s : Stream}

theorem Scanned.within (h : s.Scanned source) : s.Within source := by
  obtain ⟨cur, hcur, hs⟩ := h
  rcases ofCursor_cases hcur with ⟨t, ht, hwithin, -⟩ | ⟨pos, error, herror, -⟩
  · cases ht.symm.trans hs
    exact hwithin
  · cases herror.symm.trans hs

/-- The text in front of the current token, and from there on. -/
theorem Scanned.split (h : s.Scanned source) {token : Token} (hcurrent : s.current = some token) :
    ∃ before, source = before ++ (token.text.toList ++ s.cursor.rest) ∧
      token.pos = Position.start.advanceOver before ∧
      s.cursor.pos = token.pos.advanceOver token.text.toList ∧ token.text.toList ≠ [] ∧ token.Genuine := by
  obtain ⟨cur, ⟨before, hsource, hpos⟩, hs⟩ := h
  unfold ofCursor at hs
  rcases hnext : cur.next with ⟨_ | ⟨e | token'⟩, cur'⟩ <;> rw [hnext] at hs <;> cases hs <;> cases hcurrent
  obtain ⟨gap, text, hstep⟩ := Cursor.step_of_next hnext
  have hcovers := hstep.covers
  cases hcovers
  have hstart : token.pos = cur.pos.advanceOver gap := hstep.item_pos
  refine ⟨before ++ gap, ?_, ?_, ?_, hstep.text_ne_nil, Cursor.genuine_of_next hnext⟩
  · rw [hsource, hstep.rest_eq, List.append_assoc]
  · rw [hstart, Position.advanceOver_append, ← hpos]
  · rw [hstep.pos_eq, Position.advanceOver_append, hstart]

/-- A scanned stream that is at a brace is the stream at a brace of the text. -/
theorem Scanned.eq_braceAt (h : s.Scanned source) (hat : s.at? .lbrace = true) :
    ∃ before rest, source = before ++ '\x7b' :: rest ∧ s = braceAt before rest := by
  obtain ⟨token, hcurrent, hkind⟩ := Parser.current_of_at? hat
  obtain ⟨before, hsource, hstart, hcursor, -, hgenuine⟩ := h.split hcurrent
  have htext : token.text = "\x7b" := hgenuine _ (by rw [hkind]; rfl)
  have hbrace : token.text.toList = ['\x7b'] := by rw [htext]; rfl
  rw [hbrace] at hsource hcursor
  refine ⟨before, s.cursor.rest, hsource, ?_⟩
  obtain ⟨current, rest, pos⟩ := s
  cases hcurrent
  cases hcursor
  rw [braceAt, ← hstart, ← hkind, ← htext]
  rfl

end Stream

namespace Parser

/-! ## Two ways to look ahead -/

/-- An object or a mapped type, told apart by the given test. -/
def bracedBy (isMapped : Stream → Bool) (pos : Position) (expr : Parser Expr) : Parser Expr := do
  let mapped := isMapped (← get)
  let _ ← consume .lbrace
  let e ← if mapped then mappedBody pos expr else objectBody pos expr
  let _ ← consume .rbrace
  return e

/-- An expression without infix operators of its own. -/
def primaryBy (isMapped : Stream → Bool) (expr : Nat → Parser Expr) : Parser Expr := do
  let s ← get
  if s.at? .lbrace then bracedBy isMapped s.pos (expr 0) else primary windowTest expr

/-- An expression whose operators have at least the given left power. -/
def exprBy (isMapped : Stream → Bool) : Nat → Parser Expr :=
  fix fun expr least => do
    let lhs ← primaryBy isMapped expr
    operatorTail expr least lhs

theorem primary_eq_primaryBy (expr : Nat → Parser Expr) :
    primary windowTest expr = primaryBy startsMapped expr := by
  funext s
  rw [primaryBy, run_get]
  cases hat : s.at? .lbrace with
  | false => rfl
  | true =>
    obtain ⟨token, hcurrent, hkind⟩ := current_of_at? hat
    have hlambda : startsLambda s = false := by
      rw [startsLambda, Stream.window, Stream.kind?, hcurrent, Option.map_some, hkind]
      rfl
    rw [primary, run_get, hcurrent]
    simp only [hkind, windowTest, hlambda, reduceCtorEq, if_false, if_true, Bool.false_eq_true, unaryOp?, atom,
      Stream.pos, hcurrent]
    rfl

/-- Looking for `in` gives the parser for expressions. -/
theorem exprWith_eq_exprBy : exprWith windowTest = exprBy startsMapped := by
  rw [exprWith, exprBy]
  simp only [primary_eq_primaryBy]

/-! ## Following a run -/

section

variable {α β : Type} {source : List Char} {N M k k₁ k₂ : Nat} {s : Stream}

/-- The run of `p` on the scanned stream `s` takes at least `k` tokens and leaves a scanned stream.
A plain `in` among the next `N` tokens of `s` stands behind what has been taken. -/
def StepsAt (source : List Char) (N k : Nat) (s : Stream) (p : Parser α) : Prop :=
  s.Scanned source → ∀ ⦃a : α⦄ ⦃s' : Stream⦄, p s = .ok (a, s') →
    s'.Scanned source ∧ s'.size + k ≤ s.size ∧
      ∀ n m, s'.NoPlainIn n → m ≤ n + k → m ≤ N → s.NoPlainIn m

/-- The run of `p` on `s` tells what `q` does there: there is a verdict on which the result of `p`
throws light, and `q` comes to the same result or fails, as it says. -/
def TracksAt (source : List Char) (N k : Nat) (s : Stream) (p q : Parser α)
    (P : Prop → α → Prop) : Prop :=
  StepsAt source N k s p ∧ (s.Scanned source → ∀ ⦃a : α⦄ ⦃s' : Stream⦄, p s = .ok (a, s') →
    ∃ verdict, P verdict a ∧ (verdict → q s = .ok (a, s')) ∧ (¬ verdict → ∀ r, q s ≠ .ok r))

/-- The runs on all streams tell that. -/
def Tracks (source : List Char) (N k : Nat) (p q : Parser α) (P : Prop → α → Prop) : Prop :=
  ∀ s, TracksAt source N k s p q P

variable {p q : Parser α} {f g : α → Parser β} {P P' : Prop → α → Prop} {R : Prop → β → Prop}

theorem StepsAt.mono (h : StepsAt source N k s p) (hM : M ≤ N) (hk : k₁ ≤ k) : StepsAt source M k₁ s p := by
  intro hs a s' hrun
  obtain ⟨hs', hsize, hclear⟩ := h hs hrun
  exact ⟨hs', by omega, fun n m hn hm hM' => hclear n m hn (by omega) (by omega)⟩

theorem TracksAt.mono (h : TracksAt source N k s p q P) (hM : M ≤ N) (hk : k₁ ≤ k) :
    TracksAt source M k₁ s p q P :=
  ⟨h.1.mono hM hk, h.2⟩

theorem Tracks.mono (h : Tracks source N k p q P) (hM : M ≤ N) (hk : k₁ ≤ k) :
    Tracks source M k₁ p q P :=
  fun s => (h s).mono hM hk

/-- If nothing at all is ahead, it does not matter what has been taken. -/
theorem TracksAt.of_noPlainIn (h : TracksAt source 0 k s p q P) (hclear : ∀ n, s.NoPlainIn n) :
    TracksAt source N k s p q P := by
  refine ⟨fun hs _ _ hrun => ?_, h.2⟩
  obtain ⟨hs', hsize, -⟩ := h.1 hs hrun
  exact ⟨hs', hsize, fun _ m _ _ _ => hclear m⟩

/-- One parser behind another: `q` comes to the same result if both verdicts are favourable. -/
theorem TracksAt.seq (hp : TracksAt source N k₁ s p q P) (hN : N ≤ M + k₁)
    (hf : ∀ a v, P v a → Tracks source M k₂ (f a) (g a) fun w b => R (v ∧ w) b) (hk : k ≤ k₁ + k₂) :
    TracksAt source N k s (p >>= f) (q >>= g) R := by
  refine ⟨fun hs b s'' hrun => ?_, fun hs b s'' hrun => ?_⟩ <;>
    obtain ⟨a, s', ha, hb⟩ := run_bind_eq_ok hrun <;>
    obtain ⟨hs', hsize, hclear⟩ := hp.1 hs ha <;>
    obtain ⟨v, hv, hsame, hfails⟩ := hp.2 hs ha
  · obtain ⟨hs'', hsize', hclear'⟩ := (hf a v hv s').1 hs' hb
    refine ⟨hs'', by omega, fun n m hn hm hmN => ?_⟩
    have hmid := hclear' n (min (n + k₂) M) hn (by omega) (by omega)
    exact hclear _ m hmid (by omega) hmN
  · obtain ⟨w, hw, hsame', hfails'⟩ := (hf a v hv s').2 hs' hb
    refine ⟨v ∧ w, hw, fun h => ?_, fun h r hr => ?_⟩
    · rw [run_bind (hsame h.1)]
      exact hsame' h.2
    · obtain ⟨a', t, ha', hb'⟩ := run_bind_eq_ok hr
      by_cases hverdict : v
      · cases ha'.symm.trans (hsame hverdict)
        exact hfails' (fun hw' => h ⟨hverdict, hw'⟩) _ hb'
      · exact hfails hverdict _ ha'

theorem Tracks.seq (hp : Tracks source N k₁ p q P) (hN : N ≤ M + k₁)
    (hf : ∀ a v, P v a → Tracks source M k₂ (f a) (g a) fun w b => R (v ∧ w) b) (hk : k ≤ k₁ + k₂) :
    Tracks source N k (p >>= f) (q >>= g) R :=
  fun s => (hp s).seq hN hf hk

/-- A sequence takes what its first parser takes. -/
theorem TracksAt.lead (hp : TracksAt source N k s p q P)
    (hf : ∀ a v, P v a → Tracks source N 0 (f a) (g a) fun w b => R (v ∧ w) b) :
    TracksAt source N k s (p >>= f) (q >>= g) R :=
  hp.seq (Nat.le_add_right ..) hf (Nat.le_refl _)

theorem Tracks.lead (hp : Tracks source N k p q P)
    (hf : ∀ a v, P v a → Tracks source N 0 (f a) (g a) fun w b => R (v ∧ w) b) :
    Tracks source N k (p >>= f) (q >>= g) R :=
  fun s => (hp s).lead hf

/-- A sequence in a place where it does not matter whether a token is taken. -/
theorem Tracks.bind (hp : Tracks source N k p q P)
    (hf : ∀ a v, P v a → Tracks source N 0 (f a) (g a) fun w b => R (v ∧ w) b) :
    Tracks source N 0 (p >>= f) (q >>= g) R :=
  hp.seq (Nat.le_add_right ..) hf (Nat.zero_le _)

/-- A parser that both have in common tells that it does the same. -/
theorem tracksAt_self (h : StepsAt source N k s p) : TracksAt source N k s p p fun v _ => v :=
  ⟨h, fun _ _ _ hrun => ⟨True, trivial, fun _ => hrun, fun h => absurd trivial h⟩⟩

theorem StepsAt.seq (hp : StepsAt source N k₁ s p) (hN : N ≤ M + k₁)
    (hf : ∀ a, Tracks source M k₂ (f a) (g a) R) (hk : k ≤ k₁ + k₂) :
    TracksAt source N k s (p >>= f) (p >>= g) R := by
  refine (tracksAt_self hp).seq hN (fun a v hv => ?_) hk
  simpa only [hv, true_and] using hf a

theorem StepsAt.lead (hp : StepsAt source N k s p) (hf : ∀ a, Tracks source N 0 (f a) (g a) R) :
    TracksAt source N k s (p >>= f) (p >>= g) R :=
  hp.seq (Nat.le_add_right ..) hf (Nat.le_refl _)

theorem StepsAt.bind (hp : StepsAt source N k s p) (hf : ∀ a, Tracks source N 0 (f a) (g a) R) :
    TracksAt source N 0 s (p >>= f) (p >>= g) R :=
  hp.seq (Nat.le_add_right ..) hf (Nat.zero_le _)

theorem tracksAt_pure {a : α} (h : P True a) : TracksAt source N 0 s (pure a) (pure a) P := by
  refine ⟨fun hs b s' hrun => ?_, fun hs b s' hrun => ?_⟩ <;> cases hrun
  · exact ⟨hs, Nat.le_refl _, fun n m hn hm _ => hn.mono hm⟩
  · exact ⟨True, h, fun _ => rfl, fun h => absurd trivial h⟩

theorem tracks_pure {a : α} (h : P True a) : Tracks source N 0 (pure a) (pure a) P :=
  fun _ => tracksAt_pure h

theorem TracksAt.imp (h : TracksAt source N k s p q P) (hP : ∀ v a, P v a → P' v a) :
    TracksAt source N k s p q P' := by
  refine ⟨h.1, fun hs a s' hrun => ?_⟩
  obtain ⟨v, hv, hsame, hfails⟩ := h.2 hs hrun
  exact ⟨v, hP v a hv, hsame, hfails⟩

theorem tracksAt_get {f g : Stream → Parser β} (h : TracksAt source N k s (f s) (g s) R) :
    TracksAt source N k s (get >>= f) (get >>= g) R := h

theorem tracksAt_of_scanned (h : s.Scanned source → TracksAt source N k s p q P) :
    TracksAt source N k s p q P :=
  ⟨fun hs => (h hs).1 hs, fun hs => (h hs).2 hs⟩

theorem tracks_get {f g : Stream → Parser β} (h : ∀ s, s.Scanned source → TracksAt source N k s (f s) (g s) R) :
    Tracks source N k (get >>= f) (get >>= g) R :=
  fun s => tracksAt_of_scanned fun hs => tracksAt_get (h s hs)

theorem tracksAt_error {error : Located SyntaxError} (h : p s = .error error) : TracksAt source N k s p q P := by
  refine ⟨fun _ _ _ hrun => ?_, fun _ _ _ hrun => ?_⟩ <;> rw [h] at hrun <;> cases hrun

theorem tracksAt_fail {pos : Position} {error : SyntaxError} :
    TracksAt source N k s (fail pos error : Parser α) q P :=
  tracksAt_error rfl

/-! ## Recursion -/

theorem tracks_fix {step step' : (α → Parser β) → α → Parser β} {S : α → Prop → β → Prop}
    (h : ∀ again again', (∀ a, Tracks source N k (again a) (again' a) (S a)) →
      ∀ a, Tracks source N k (step again a) (step' again' a) (S a)) (a : α) :
    Tracks source N k (fix step a) (fix step' a) (S a) := by
  intro s
  induction hm : s.size using Nat.strongRecOn generalizing s a with
  | ind m ih =>
    have hagain : ∀ b, Tracks source N k (below s.size (fix step b)) (below s.size (fix step' b)) (S b) := by
      intro b t
      by_cases hlt : t.size < s.size
      · have hsmaller := ih t.size (hm ▸ hlt) b t rfl
        unfold TracksAt StepsAt at hsmaller ⊢
        rwa [run_below hlt, run_below hlt]
      · exact tracksAt_error (if_neg hlt)
    have hstep := h _ _ hagain a s
    unfold TracksAt StepsAt at hstep ⊢
    rwa [run_fix, run_fix]

/-- A recursion that is always called in the same way. -/
theorem tracks_loop {step step' : (Unit → Parser β) → Unit → Parser β}
    (h : ∀ again again', Tracks source N k (again ()) (again' ()) R →
      Tracks source N k (step again ()) (step' again' ()) R) :
    Tracks source N k (fix step ()) (fix step' ()) R :=
  tracks_fix (S := fun _ => R) (fun again again' hagain _ => h again again' (hagain ())) ()

/-! ## Tokens -/

/-- Taking a token leaves a scanned stream and less to read. -/
theorem scanned_of_advance {s' : Stream} {token : Token} (hs : s.Scanned source)
    (hrun : advance s = .ok (token, s')) : s'.Scanned source ∧ s'.size + 1 ≤ s.size := by
  have hcurrent := current_of_advance hrun
  have hs' := ofCursor_of_advance hrun
  have hsize := Stream.size_of_current hcurrent
  have hsize' := Stream.size_ofCursor_le hs'
  have hne : 0 < token.text.length := by
    rw [Nat.pos_iff_ne_zero, ne_eq, String.length_eq_zero_iff]
    exact (hs.within.current token hcurrent).text_ne_empty
  exact ⟨⟨s.cursor, hs.within.cursor, hs'⟩, by omega⟩

theorem stepsAt_advance {kind : Kind} (h : s.kind? = some kind) (hne : kind ≠ .inKw) :
    StepsAt source N 1 s advance := by
  intro hs token s' hrun
  have hkind : token.kind ≠ .inKw := by
    rw [Stream.kind?, current_of_advance hrun, Option.map_some] at h
    exact Option.some.inj h ▸ hne
  obtain ⟨hs', hsize⟩ := scanned_of_advance hs hrun
  exact ⟨hs', hsize, fun n m hn hm _ => (hn.of_advance hrun hkind).mono hm⟩

theorem stepsAt_consume {kind : Kind} (hne : kind ≠ .inKw) (s : Stream) :
    StepsAt source N 1 s (consume kind) := by
  intro hs token s' hrun
  obtain ⟨hkind, hadvance⟩ := run_consume_eq_ok hrun
  exact stepsAt_advance hkind hne hs hadvance

/-- A token of any kind, where it does not matter what is ahead. -/
theorem stepsAt_consume_any (kind : Kind) (s : Stream) : StepsAt source 0 0 s (consume kind) := by
  intro hs token s' hrun
  obtain ⟨-, hadvance⟩ := run_consume_eq_ok hrun
  obtain ⟨hs', hsize⟩ := scanned_of_advance hs hadvance
  exact ⟨hs', by omega, fun n m _ _ hm => s.noPlainIn_zero.mono hm⟩

theorem stepsAt_map {p : Parser α} {F : α → β} (hp : StepsAt source N k s p) :
    StepsAt source N k s (do return F (← p)) := by
  intro hs b s' hrun
  obtain ⟨a, t, ha, hb⟩ := run_bind_eq_ok hrun
  cases hb
  exact hp hs ha

theorem stepsAt_name (s : Stream) : StepsAt source N 1 s name :=
  stepsAt_map (stepsAt_consume (by decide) s)

theorem stepsAt_stringLiteral (s : Stream) : StepsAt source N 1 s stringLiteral :=
  stepsAt_map (stepsAt_consume (by decide) s)

theorem run_expectKind_eq_ok {kind : Kind} {u : Unit} {s' : Stream} (h : expectKind kind s = .ok (u, s')) :
    s.kind? = some kind ∧ s' = s := by
  rw [expectKind, run_get] at h
  cases hcurrent : s.current with
  | none =>
    rw [hcurrent] at h
    cases h
  | some token =>
    rw [hcurrent] at h
    by_cases hkind : token.kind = kind
    · simp only [hkind, if_true] at h
      cases h
      exact ⟨by rw [Stream.kind?, hcurrent, Option.map_some, hkind], rfl⟩
    · simp only [hkind, if_false] at h
      cases h

theorem stepsAt_expectKind (kind : Kind) (s : Stream) : StepsAt source N 0 s (expectKind kind) := by
  intro hs u s' hrun
  obtain ⟨-, rfl⟩ := run_expectKind_eq_ok hrun
  exact ⟨hs, Nat.le_refl _, fun n m hn hm _ => hn.mono hm⟩

/-- A token that is taken counts; one that is not there does not. -/
theorem tracks_take_bind {kind : Kind} (hne : kind ≠ .inKw) {f g : Bool → Parser β} (hN : N ≤ M + 1)
    (htaken : Tracks source M k₁ (f true) (g true) R) (hnot : Tracks source N k (f false) (g false) R)
    (hk : k ≤ k₁ + 1) : Tracks source N k (take kind >>= f) (take kind >>= g) R := by
  intro s
  unfold TracksAt StepsAt
  rw [run_take_bind, run_take_bind]
  split
  · next hat =>
    obtain ⟨token, hcurrent, hkind⟩ := current_of_at? hat
    have hkind? : s.kind? = some kind := by rw [Stream.kind?, hcurrent, Option.map_some, hkind]
    exact (stepsAt_advance hkind? hne).seq hN (fun _ => htaken) (k := k) (by omega)
  · exact hnot s

/-- A token that may be there or not. -/
theorem stepsAt_take {kind : Kind} (hne : kind ≠ .inKw) (s : Stream) : StepsAt source N 0 s (take kind) := by
  have hbind : Tracks source N 0 (take kind >>= pure) (take kind >>= pure) fun v _ => v :=
    tracks_take_bind hne (Nat.le_succ N) (tracks_pure trivial) (tracks_pure trivial) (Nat.zero_le 1)
  rw [bind_pure] at hbind
  exact (hbind s).1

end

end Parser

end TypeForge
