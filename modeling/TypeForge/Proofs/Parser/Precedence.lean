import TypeForge.Proofs.Parser.Productions

/-!
# Operators are parsed as they were printed

An expression is parsed as a primary expression and a loop over the operators behind it.  The
loop does not see the tree that was printed: it builds the left operands from the inside out.
What holds at every left operand is that, behind its words, the parser is exactly in the loop
with this operand in its hands.  An operator moves this state from its left operand to the
whole, if it binds at least as tightly as the loop asks for, and its right operand is read by
a loop of its own, which stops in time because it asks for more.
-/

namespace TypeForge

/-- An operator behind an expression is taken to belong to its last operand unless it binds
looser than this. -/
def Expr.reach : Expr → Nat
  | .lambda .. | .conditional .. | .infer .. => 0
  | .assignment .. => 1
  | .logical _ op .. => op.power + 1
  | .binary _ op .. => op.power + 1
  | .unary .. => 15
  | _ => 19

theorem Expr.power_le_reach (e : Expr) : e.power ≤ e.reach := by
  cases e <;> simp [power, reach]

/-- The left powers of infix operators lie apart from those of prefix operators. -/
theorem infixPower_left {kind : Kind} {left right : Nat} (h : infixPower kind = some (left, right)) :
    2 ≤ left ∧ left ≠ 15 ∧ left ≤ 17 := by
  unfold infixPower at h
  split at h <;> cases h <;> decide

/-- An operator that may have the expression as its left operand does not continue it. -/
theorem Expr.lt_reach {e : Expr} {kind : Kind} {left right : Nat}
    (h : infixPower kind = some (left, right)) (hle : left ≤ e.power) : left < e.reach := by
  obtain ⟨hlow, hprefix, hhigh⟩ := infixPower_left h
  cases e <;> simp only [power, reach] at * <;> omega

namespace Parser

variable {n m least : Nat} {rest : List Word} {e : Expr}

/-! ## The loop -/

section

variable {expr : Nat → Parser Expr} {s s₁ s₂ : Stream} {lhs : Expr}

/-- The loop stops in front of an operator that binds too loosely. -/
theorem operatorTail_stop (h : (s.kind?.bind infixPower).all (fun power => power.1 < least) = true) :
    operatorTail expr least lhs s = .ok (lhs, s) := by
  rw [operatorTail, run_fix, run_get]
  cases hpower : s.kind?.bind infixPower with
  | none => rfl
  | some power =>
    obtain ⟨left, right⟩ := power
    rw [hpower] at h
    have hleft : left < least := by simpa using h
    simp only [hleft, if_true]
    rfl

/-- The loop takes an operator that binds tightly enough, with its right operand. -/
theorem operatorTail_step {left right : Nat} {op : Token} {result : Expr}
    (hpower : s.kind?.bind infixPower = some (left, right)) (hleft : least ≤ left)
    (hop : advance s = .ok (op, s₁)) (hrun : operation expr op lhs right s₁ = .ok (result, s₂))
    (hsize : s₂.size < s.size) :
    operatorTail expr least lhs s = operatorTail expr least result s₂ := by
  rw [operatorTail, run_fix, run_get]
  rw [hpower]
  simp only [Nat.not_lt.2 hleft, if_false]
  rw [run_bind hop, run_bind hrun, below, if_pos hsize]

end

/-! ## Operands -/

/-- The parser for expressions that is called while a stream of size `m` is read. -/
def inner (m least : Nat) : Parser Expr := below m (exprWith windowTest least)

/-- Behind the words `ws`, the parser is in the loop over operators with the left operand `e`. -/
def Operand (m least : Nat) (ws rest : List Word) (e : Expr) : Prop :=
  ∀ ⦃s : Stream⦄, s.size ≤ m → s.Shows (ws ++ rest) →
    ∃ a s', (primary windowTest (inner m) >>= operatorTail (inner m) least) s =
        operatorTail (inner m) least a s' ∧
      s'.Shows rest ∧ s'.size + ws.length ≤ s.size ∧ a.unlocated = e.unlocated

theorem operand_of_primary {ws : List Word}
    (h : Accepts m (primary windowTest (inner m)) ws rest fun a => a.unlocated = e.unlocated) :
    Operand m least ws rest e := by
  intro s hsize hshows
  obtain ⟨a, s', hrun, hshows', hsize', ha⟩ := h hsize hshows
  exact ⟨a, s', run_bind hrun _, hshows', hsize', ha⟩

theorem kind?_of_shows {s : Stream} {w : Word} {ws : List Word} (h : s.Shows (w :: ws)) :
    s.kind? = some w.kind := by
  obtain ⟨t, hcurrent, rfl, -, -⟩ := h
  simp [Stream.kind?, hcurrent, Token.word]

/-- An operator makes an operand of its left operand and what it takes behind itself. -/
theorem Operand.operator {us : List Word} (vs : List Word) {w : Word} {lhs : Expr} {left right : Nat}
    (hlhs : Operand m least us (w :: (vs ++ rest)) lhs)
    (hpower : infixPower w.kind = some (left, right)) (hleft : least ≤ left)
    (hop : ∀ t a, t.kind = w.kind → a.unlocated = lhs.unlocated → ∀ k, k < m →
      Accepts k (operation (inner m) t a right) vs rest fun b => b.unlocated = e.unlocated) :
    Operand m least (us ++ w :: vs) rest e := by
  intro s hsize hshows
  rw [List.append_assoc, List.cons_append] at hshows
  obtain ⟨a, s₁, hrun, hshows₁, hsize₁, ha⟩ := hlhs hsize hshows
  obtain ⟨t, s₂, hadvance, -, hword, hshows₂, hsize₂⟩ := run_advance hshows₁
  obtain ⟨b, s₃, hoperation, hshows₃, hsize₃, hb⟩ :=
    hop t a (congrArg Word.kind hword) ha s₂.size (by omega) (Nat.le_refl _) hshows₂
  have hkind : s₁.kind?.bind infixPower = some (left, right) := by
    rw [kind?_of_shows hshows₁]
    exact hpower
  refine ⟨b, s₃, hrun.trans ?_, hshows₃, ?_, hb⟩
  · exact operatorTail_step hkind hleft hadvance hoperation (by omega)
  · rw [List.length_append, List.length_cons]
    omega

theorem accepts_of_operand {ws : List Word} (h : Operand m least ws rest e)
    (hrest : closes least rest = true) :
    Accepts m (primary windowTest (inner m) >>= operatorTail (inner m) least) ws rest
      fun a => a.unlocated = e.unlocated := by
  intro s hsize hshows
  obtain ⟨a, s', hrun, hshows', hsize', ha⟩ := h hsize hshows
  refine ⟨a, s', hrun.trans (operatorTail_stop ?_), hshows', hsize', ha⟩
  cases rest with
  | nil =>
    have hcurrent : s'.current = none := hshows'
    simp [Stream.kind?, hcurrent]
  | cons w rest =>
    rw [kind?_of_shows hshows']
    simp only [closes, Bool.and_eq_true] at hrest
    exact hrest.2

/-- What is an operand on every stream is read back as an expression. -/
theorem accepts_exprWith {ws : List Word} (h : ∀ m, Operand m least ws rest e)
    (hrest : closes least rest = true) :
    Accepts n (exprWith windowTest least) ws rest fun a => a.unlocated = e.unlocated :=
  accepts_fix fun m _ => accepts_of_operand (h m) hrest

/-! ## Primary expressions -/

/-- Whether tokens of these kinds look like the start of a lambda. -/
def looksLambda : List Kind → Bool
  | .identifier :: .fatArrow :: _ => true
  | .lparen :: .rparen :: .fatArrow :: _ => true
  | .lparen :: .identifier :: .rparen :: .fatArrow :: _ => true
  | .lparen :: .identifier :: .colon :: _ => true
  | .lparen :: .identifier :: .comma :: _ => true
  | _ => false

/-- Whether words look like the start of a lambda. -/
def lambdaAhead (ws : List Word) : Bool := looksLambda ((ws.take 4).map Word.kind)

theorem startsLambda_of_shows {s : Stream} {w : Word} {ws : List Word} (h : s.Shows (w :: ws)) :
    startsLambda s = lambdaAhead (w :: ws) :=
  congrArg looksLambda (Stream.window_of_shows h 3)

theorem lambdaAhead_eq_false {w : Word} (ws : List Word) (hname : w.kind ≠ .identifier)
    (hlparen : w.kind ≠ .lparen) : lambdaAhead (w :: ws) = false := by
  simp only [lambdaAhead, looksLambda, List.take_succ_cons, List.map_cons]
  split <;> simp_all

theorem lambdaAhead_name {name : String} {ws : List Word} (h : startsWith .fatArrow ws = false) :
    lambdaAhead (nameWord name :: ws) = false := by
  cases ws with
  | nil => rfl
  | cons w ws =>
    rw [startsWith, beq_eq_false_iff_ne] at h
    simp only [lambdaAhead, looksLambda, nameWord, List.take_succ_cons, List.map_cons]
    split <;> simp_all

theorem lambdaAhead_lparen {ws : List Word} (h : startsParams ws = false) :
    lambdaAhead (Kind.lparen.word :: ws) = false := by
  rcases ws with _ | ⟨w, _ | ⟨v, ws⟩⟩
  · rfl
  · simp only [lambdaAhead, looksLambda, Kind.word, List.take_succ_cons, List.map_cons]
    split <;> simp_all
  · simp only [lambdaAhead, looksLambda, Kind.word, List.take_succ_cons, List.map_cons]
    split <;> simp_all [startsParams, continuesParams]

/-- An expression that starts with a word of its own kind. -/
theorem accepts_primary_atom {w : Word} {ws : List Word} {good : Expr → Prop}
    (hbacktick : w.kind ≠ .backtick) (hunary : unaryOp? w.kind = none)
    (hlambda : lambdaAhead (w :: (ws ++ rest)) = false)
    (h : ∀ t, t.word = w → Accepts m (atom t (inner m 0)) (w :: ws) rest good) :
    Accepts m (primary windowTest (inner m)) (w :: ws) rest good := by
  refine accepts_get fun s hshows => ?_
  have hlambda' : startsLambda s = false := (startsLambda_of_shows hshows).trans hlambda
  obtain ⟨t, hcurrent, hword, -, -⟩ := hshows
  have hkind : t.kind = w.kind := congrArg Word.kind hword
  simp only [hcurrent, hkind, hbacktick, if_false, windowTest, hlambda', Bool.false_eq_true, hunary]
  exact h t hword

theorem accepts_primary_unary {w : Word} {ws : List Word} {op : UnaryOp} {operand : Expr} {p : Position}
    (hop : unaryOp? w.kind = some op)
    (h : ∀ k, k < m → Accepts k (inner m prefixPower) ws rest fun a => a.unlocated = operand.unlocated) :
    Accepts m (primary windowTest (inner m)) (w :: ws) rest
      fun a => a.unlocated = (Expr.unary p op operand).unlocated := by
  refine accepts_get fun s hshows => ?_
  have hbacktick : w.kind ≠ .backtick := fun hw => by rw [hw] at hop; cases hop
  have hlambda : startsLambda s = false := by
    rw [startsLambda_of_shows hshows]
    refine lambdaAhead_eq_false _ ?_ ?_ <;> intro hw <;> rw [hw] at hop <;> cases hop
  obtain ⟨t, hcurrent, hword, -, -⟩ := hshows
  have hkind : t.kind = w.kind := congrArg Word.kind hword
  simp only [hcurrent, hkind, hbacktick, if_false, windowTest, hlambda, Bool.false_eq_true, hop]
  refine (accepts_advance w).cons fun _ _ k hk => ?_
  exact (h k hk).map fun a ha => by simp [ha]

theorem accepts_primary_lambda {w : Word} {ws : List Word} {good : Expr → Prop}
    (hbacktick : w.kind ≠ .backtick) (hlambda : lambdaAhead (w :: (ws ++ rest)) = true)
    (h : ∀ pos, Accepts m (lambda pos (inner m 0)) (w :: ws) rest good) :
    Accepts m (primary windowTest (inner m)) (w :: ws) rest good := by
  refine accepts_get fun s hshows => ?_
  have hlambda' : startsLambda s = true := (startsLambda_of_shows hshows).trans hlambda
  obtain ⟨t, hcurrent, hword, -, -⟩ := hshows
  have hkind : t.kind = w.kind := congrArg Word.kind hword
  simp only [hcurrent, hkind, hbacktick, if_false, windowTest, hlambda', if_true]
  exact h t.pos

/-! ## Expressions in their places -/

/-- An expression is read back from its words: as a left operand wherever it needs no
parentheses, if what follows does not continue it. -/
structure Parses (e : Expr) : Prop where
  printable : e.isPrintable = true
  operand {m least : Nat} {rest : List Word} : least ≤ e.power → closes e.reach rest = true →
    isClear rest = true → Operand m least e.words rest e

theorem closes_mono {k : Nat} (h : closes least rest = true) (hk : least ≤ k) :
    closes k rest = true := by
  cases rest with
  | nil => rfl
  | cons w rest =>
    simp only [closes, Bool.and_eq_true] at h ⊢
    refine ⟨h.1, ?_⟩
    cases hpower : infixPower w.kind with
    | none => rfl
    | some power =>
      have hleft := h.2
      rw [hpower] at hleft
      simp only [Option.all_some, decide_eq_true_eq] at hleft ⊢
      omega

namespace Parses

variable (h : Parses e)

include h

theorem clear {vs : List Word} (hvs : isClear vs = true) : isClear (e.words ++ vs) = true :=
  inherited_isClear.words e h.printable vs hvs

theorem clear_enclose (power : Nat) {vs : List Word} (hvs : isClear vs = true) :
    isClear (enclose least power e.words ++ vs) = true :=
  inherited_isClear.enclose least power (inherited_isClear.words e h.printable) vs hvs

theorem accepts_bare (hleast : least ≤ e.power) (hrest : Follows least rest) :
    Accepts n (exprWith windowTest least) e.words rest fun a => a.unlocated = e.unlocated :=
  accepts_exprWith (fun _ => h.operand hleast
    (closes_mono hrest.closes (Nat.le_trans hleast e.power_le_reach)) hrest.clear) hrest.closes

theorem takes : TakesExpr n (exprWith windowTest 0) e where
  opens := opens_words e h.printable
  clear _ := h.clear
  accepts _ _ _ hrest := h.accepts_bare (Nat.zero_le _) hrest

/-- The words of an expression are taken inside another one. -/
theorem takes_inner : TakesExpr m (inner m 0) e where
  opens := opens_words e h.printable
  clear _ := h.clear
  accepts _ hlt _ hrest := (h.accepts_bare (Nat.zero_le _) hrest).below hlt

/-- Parentheses make an operand of everything that needs them. -/
theorem operand_paren (hpower : e.power < 17) (hrest : isClear rest = true) :
    Operand m least (Kind.lparen.word :: (e.words ++ [Kind.rparen.word])) rest e := by
  refine operand_of_primary (accepts_primary_atom (by decide) rfl ?_ fun t ht => ?_)
  · rw [List.append_assoc]
    exact lambdaAhead_lparen (startsParams_words e (.inl hpower))
  · have hkind : t.kind = .lparen := congrArg Word.kind ht
    simp only [atom, hkind]
    have hclose : Follows 0 (Kind.rparen.word :: rest) := follows_cons rfl (by decide) hrest
    refine (accepts_advance _).cons fun _ _ k hk => ?_
    refine (h.takes_inner.accepts k hk _ hclose).bind fun a ha k' _ => ?_
    exact accepts_consume.map fun _ _ => ha

/-- An expression in a place that asks for the power `place`, with parentheses if needed. -/
theorem operand_enclose {place : Nat} (hplace : place ≤ 17) (hleast : least ≤ place)
    (hcloses : place ≤ e.power → closes e.reach rest = true) (hrest : isClear rest = true) :
    Operand m least (enclose place e.power e.words) rest e := by
  unfold enclose
  split
  · exact h.operand_paren (by omega) hrest
  · exact h.operand (by omega) (hcloses (by omega)) hrest

theorem accepts_enclose (hleast : least ≤ 17) (hrest : Follows least rest) :
    Accepts n (exprWith windowTest least) (enclose least e.power e.words) rest
      fun a => a.unlocated = e.unlocated := by
  unfold enclose
  split
  · exact accepts_exprWith (fun m => h.operand_paren (by omega) hrest.clear) hrest.closes
  · exact h.accepts_bare (by omega) hrest

theorem accepts_inner {k : Nat} (hk : k < m) (hleast : least ≤ 17) (hrest : Follows least rest) :
    Accepts k (inner m least) (enclose least e.power e.words) rest
      fun a => a.unlocated = e.unlocated :=
  (h.accepts_enclose hleast hrest).below hk

/-- An operator in front of which the expression stands as its left operand. -/
theorem operand_left {w : Word} {vs : List Word} {left right : Nat}
    (hpower : infixPower w.kind = some (left, right)) (hleast : least ≤ left)
    (hvs : isClear vs = true) : Operand m least (enclose left e.power e.words) (w :: vs) e := by
  refine h.operand_enclose (infixPower_left hpower).2.2 hleast (fun hle => ?_) (isClear_cons ?_ hvs)
  · have hlt := Expr.lt_reach hpower hle
    simp only [closes, hpower, Option.all_some, hlt, decide_true, Bool.and_true, Bool.and_eq_true,
      bne_iff_ne]
    refine ⟨⟨?_, ?_⟩, ?_⟩ <;> intro hw <;> rw [hw] at hpower <;> cases hpower
  · intro hw
    rw [hw] at hpower
    cases hpower

end Parses

/-! ## Operators -/

variable {p : Position} {lhs rhs : Expr}

theorem operation_binary {expr : Nat → Parser Expr} {t : Token} {op : BinaryOp} (h : t.kind = op.kind)
    (a : Expr) (right : Nat) :
    operation expr t a right = (do return .binary a.pos op a (← expr right)) := by
  cases op <;> (unfold operation; rw [h]; rfl)

theorem operation_logical {expr : Nat → Parser Expr} {t : Token} {op : LogicalOp} (h : t.kind = op.kind)
    (a : Expr) (right : Nat) :
    operation expr t a right = (do return .logical a.pos op a (← expr right)) := by
  cases op <;> (unfold operation; rw [h]; rfl)

theorem parses_binary {op : BinaryOp} (hlhs : Parses lhs) (hrhs : Parses rhs) :
    Parses (.binary p op lhs rhs) where
  printable := by simp [hlhs.printable, hrhs.printable]
  operand hleast hcloses hclear := by
    have hpower : infixPower op.kind.word.kind = some (op.power, op.power + 1) := by
      cases op <;> rfl
    have hlow : op.power + 1 ≤ 17 := by cases op <;> decide
    refine (hlhs.operand_left hpower hleast (hrhs.clear_enclose _ hclear)).operator _ hpower hleast ?_
    intro t a ht ha k hk
    rw [operation_binary ht]
    exact (hrhs.accepts_inner hk hlow ⟨hcloses, hclear⟩).map fun b hb => by simp [ha, hb]

theorem parses_logical {op : LogicalOp} (hlhs : Parses lhs) (hrhs : Parses rhs) :
    Parses (.logical p op lhs rhs) where
  printable := by simp [hlhs.printable, hrhs.printable]
  operand hleast hcloses hclear := by
    have hpower : infixPower op.kind.word.kind = some (op.power, op.power + 1) := by
      cases op <;> rfl
    have hlow : op.power + 1 ≤ 17 := by cases op <;> decide
    refine (hlhs.operand_left hpower hleast (hrhs.clear_enclose _ hclear)).operator _ hpower hleast ?_
    intro t a ht ha k hk
    rw [operation_logical ht]
    exact (hrhs.accepts_inner hk hlow ⟨hcloses, hclear⟩).map fun b hb => by simp [ha, hb]

theorem parses_assignment (htarget : lhs.isTarget = true) (hlhs : Parses lhs) (hrhs : Parses rhs) :
    Parses (.assignment p lhs rhs) where
  printable := by simp [htarget, hlhs.printable, hrhs.printable]
  operand {m least rest} hleast hcloses hclear := by
    have hpower : infixPower Kind.assign.word.kind = some (2, 1) := rfl
    have hleft : least ≤ 2 := Nat.le_succ_of_le hleast
    refine (hlhs.operand_left hpower hleft (hrhs.clear_enclose _ hclear)).operator _ hpower hleft ?_
    intro t a ht ha k hk
    have hkind : t.kind = .assign := ht
    have htarget' : a.isTarget = true := by
      rw [← a.isTarget_unlocated, ha, lhs.isTarget_unlocated, htarget]
    have hrest : Follows 1 rest := ⟨hcloses, hclear⟩
    simp only [operation, hkind, htarget', if_true]
    exact (hrhs.accepts_inner hk (by decide) hrest).map fun b hb => by simp [ha, hb]

theorem parses_field {name : String} (hname : isName name = true) (hlhs : Parses lhs) :
    Parses (.field p lhs name) where
  printable := by simp [hlhs.printable, hname]
  operand {m least rest} hleast hcloses hclear := by
    have hpower : infixPower Kind.dot.word.kind = some (17, 18) := rfl
    have hvs : isClear (nameWord name :: rest) = true := isClear_cons (by simp [nameWord]) hclear
    refine (hlhs.operand_left hpower hleast hvs).operator [nameWord name] hpower hleast ?_
    intro t a ht ha k hk
    have hkind : t.kind = .dot := ht
    simp only [operation, hkind]
    exact (accepts_name name).map fun found hfound => by simp [ha, hfound]

theorem parses_index (hlhs : Parses lhs) (hrhs : Parses rhs) : Parses (.index p lhs rhs) where
  printable := by simp [hlhs.printable, hrhs.printable]
  operand {m least rest} hleast hcloses hclear := by
    have hpower : infixPower Kind.lbracket.word.kind = some (17, 18) := rfl
    have hclose : Follows 0 (Kind.rbracket.word :: rest) := follows_cons rfl (by decide) hclear
    refine (hlhs.operand_left hpower hleast ?_).operator
      (rhs.words ++ [Kind.rbracket.word]) hpower hleast ?_
    · rw [List.append_assoc]
      exact hrhs.clear hclose.clear
    · intro t a ht ha k hk
      have hkind : t.kind = .lbracket := ht
      simp only [operation, hkind]
      refine (hrhs.takes_inner.accepts k hk _ hclose).bind fun b hb k' _ => ?_
      exact accepts_consume.map fun _ _ => by simp [ha, hb]

theorem printableExprs_of_forall {es : List Expr} (h : ∀ a ∈ es, Parses a) : printableExprs es = true := by
  induction es with
  | nil => rfl
  | cons a es ih =>
    rw [printableExprs, (h a (List.mem_cons_self ..)).printable,
      ih fun b hb => h b (List.mem_cons_of_mem _ hb)]
    rfl

theorem clear_exprList {es : List Expr} (h : ∀ a ∈ es, Parses a) {vs : List Word}
    (hvs : isClear vs = true) : isClear (commaWords (exprWords es) ++ vs) = true :=
  inherited_isClear.commaWords (inherited_isClear.words_exprs es (printableExprs_of_forall h)) vs hvs

theorem parses_call {args : List Expr} (hlhs : Parses lhs) (hargs : ∀ a ∈ args, Parses a) :
    Parses (.call p lhs args) where
  printable := by simp [hlhs.printable, printableExprs_of_forall hargs]
  operand {m least rest} hleast hcloses hclear := by
    have hpower : infixPower Kind.lparen.word.kind = some (17, 18) := rfl
    have hclose : isClear (Kind.rparen.word :: rest) = true := isClear_cons (by decide) hclear
    refine (hlhs.operand_left hpower hleast ?_).operator
      (commaWords (exprWords args) ++ [Kind.rparen.word]) hpower hleast ?_
    · rw [List.append_assoc]
      exact clear_exprList hargs hclose
    · intro t a ht ha k hk
      have hkind : t.kind = .lparen := ht
      simp only [operation, hkind]
      have hlist := accepts_exprList (.inl rfl) (fun b hb => (hargs b hb).takes_inner) hk hclear
      exact hlist.map fun bs hbs => by simp [ha, hbs]

theorem parses_unary {op : UnaryOp} {operand : Expr} (h : Parses operand) :
    Parses (.unary p op operand) where
  printable := h.printable
  operand {m least rest} hleast hcloses hclear := by
    have hop : unaryOp? op.kind.word.kind = some op := by cases op <;> rfl
    have hrest : Follows prefixPower rest := ⟨hcloses, hclear⟩
    exact operand_of_primary
      (accepts_primary_unary hop fun k hk => h.accepts_inner hk (by decide) hrest)

/-! ## Atoms -/

/-- An expression that starts with a word that starts nothing else. -/
theorem parses_of_atom {kind : Kind} {text : String} {ws : List Word} (hprintable : e.isPrintable = true)
    (hwords : e.words = ⟨kind, text⟩ :: ws)
    (hkind : kind ≠ .backtick ∧ unaryOp? kind = none ∧ kind ≠ .identifier ∧ kind ≠ .lparen)
    (hatom : ∀ m rest (t : Token), t.kind = kind → closes e.reach rest = true → isClear rest = true →
      Accepts m (atom t (inner m 0)) (⟨kind, text⟩ :: ws) rest fun a => a.unlocated = e.unlocated) :
    Parses e where
  printable := hprintable
  operand _ hcloses hclear := by
    obtain ⟨hbacktick, hunary, hname, hlparen⟩ := hkind
    rw [hwords]
    refine operand_of_primary (accepts_primary_atom hbacktick hunary ?_ fun t ht => ?_)
    · exact lambdaAhead_eq_false _ hname hlparen
    · exact hatom _ _ t (congrArg Word.kind ht) hcloses hclear

theorem parses_ident {name : String} (h : isName name = true) : Parses (.ident p name) where
  printable := h
  operand {m least rest} _ hcloses _ := by
    have harrow : startsWith .fatArrow rest = false := startsWith_of_closes hcloses (.inl rfl)
    refine operand_of_primary (accepts_primary_atom (by simp [nameWord]) rfl ?_ fun t ht => ?_)
    · exact lambdaAhead_name harrow
    · have hkind : t.kind = .identifier := congrArg Word.kind ht
      simp only [atom, hkind]
      refine (accepts_advance _).map fun u hu => ?_
      rw [show u.text = name from congrArg Word.text hu]
      rfl

theorem parses_number {digits : String} (h : isNumber digits = true) : Parses (.number p digits) := by
  refine parses_of_atom h rfl (by decide) fun m rest t hkind _ _ => ?_
  simp only [atom, hkind]
  refine (accepts_advance _).map fun u hu => ?_
  rw [show u.text = digits from congrArg Word.text hu]
  rfl

theorem accepts_unquoted (source : String) :
    Accepts n stringLiteral [⟨.string, source⟩] rest fun found => found = unquoted source := by
  refine accepts_consume.map fun t ht => ?_
  rw [show t.text = source from congrArg Word.text ht]

theorem accepts_stringLiteral (text : String) :
    Accepts n stringLiteral [stringWord text] rest fun found => found = text :=
  (accepts_unquoted _).imp fun _ h => h.trans (unquoted_stringWord text)

theorem parses_string {text : String} (h : isQuotable text = true) : Parses (.string p text) := by
  refine parses_of_atom h rfl (by decide) fun m rest t hkind _ _ => ?_
  simp only [atom, hkind]
  exact (accepts_stringLiteral text).map fun found hfound => by simp [hfound]

theorem parses_numberType : Parses (.numberType p) := by
  refine parses_of_atom rfl rfl (by decide) fun m rest t hkind _ _ => ?_
  simp only [atom, hkind]
  exact (accepts_advance _).map fun _ _ => rfl

theorem parses_stringType : Parses (.stringType p) := by
  refine parses_of_atom rfl rfl (by decide) fun m rest t hkind _ _ => ?_
  simp only [atom, hkind]
  exact (accepts_advance _).map fun _ _ => rfl

theorem parses_tuple {es : List Expr} (h : ∀ a ∈ es, Parses a) : Parses (.tuple p es) := by
  refine parses_of_atom (printableExprs_of_forall h) rfl (by decide) fun m rest t hkind _ hclear => ?_
  simp only [atom, hkind]
  refine (accepts_advance _).cons fun _ _ k hk => ?_
  have hlist := accepts_exprList (.inr rfl) (fun a ha => (h a ha).takes_inner) hk hclear
  exact hlist.map fun as has => by simp [has]

theorem parses_infer {name : String} {bound : Option Expr} (hname : isName name = true)
    (hbound : ∀ b, bound = some b → Parses b) : Parses (.infer p name bound) := by
  have hprintable : printableOption bound = true := by
    cases bound with
    | none => rfl
    | some b => exact (hbound b rfl).printable
  refine parses_of_atom (by simp [hname, hprintable]) rfl (by decide) fun m rest t hkind hcloses hclear => ?_
  simp only [atom, hkind]
  refine (accepts_advance _).cons fun _ _ k₁ hk₁ => ?_
  refine (accepts_name name).cons fun found hfound k₂ hk₂ => ?_
  subst hfound
  have hbound' : ∀ b, bound = some b → TakesExpr k₂ (inner m 0) b :=
    fun b hb => (hbound b hb).takes_inner.mono (by omega)
  have hextends := startsWith_of_closes hcloses (.inr (.inl rfl))
  exact (accepts_behind hbound' ⟨hcloses, hclear⟩ hextends).map fun b hb => by simp [hb]

theorem parses_conditional {test consequent alternate : Expr} (htest : Parses test)
    (hconsequent : Parses consequent) (halternate : Parses alternate) :
    Parses (.conditional p test consequent alternate) := by
  refine parses_of_atom (by simp [htest.printable, hconsequent.printable, halternate.printable]) rfl
    (by decide) fun m rest t hkind hcloses hclear => ?_
  simp only [atom, hkind]
  exact accepts_conditional htest.takes_inner hconsequent.takes_inner halternate.takes_inner
    ⟨hcloses, hclear⟩

/-! ## Parts of expressions -/

/-- The bound of a parameter is read back. -/
def ParsesParam : Param → Prop
  | .mk _ name bound => isName name = true ∧ ∀ e, bound = some e → Parses e

/-- The expressions in a statement are read back. -/
def ParsesStmt : Stmt → Prop
  | .letDecl _ _ value => Parses value
  | .assertEqual _ left right => Parses left ∧ Parses right
  | .expr _ value => Parses value

/-- The expressions in a match arm are read back. -/
def ParsesArm : Arm → Prop
  | .mk _ pattern result => Parses pattern ∧ Parses result

/-- The expressions in a property are read back. -/
def ParsesProperty : Property → Prop
  | .named _ name _ value => isName name = true ∧ Parses value
  | .computed _ key _ value => Parses key ∧ Parses value

section

-- The parts are read back by every parser that reads expressions back, inside an expression
-- and at the top level alike.
variable {expr : Parser Expr} (hexpr : ∀ {e}, Parses e → TakesExpr n expr e)

include hexpr

theorem ParsesParam.takes {q : Param} (h : ParsesParam q) :
    Takes n (param expr) q.words fun a => a.unlocated = q.unlocated := by
  cases q with
  | mk _ name bound => exact takes_param h.1 fun e he => hexpr (h.2 e he)

theorem ParsesStmt.takes {s : Stmt} (h : ParsesStmt s) : TakesStmt n expr s := by
  cases s with
  | letDecl _ name value => exact takesStmt_letDecl (hexpr h)
  | assertEqual _ left right => exact takesStmt_assertEqual (hexpr h.1) (hexpr h.2)
  | expr _ value => exact takesStmt_expr (hexpr h)

theorem ParsesArm.takes {b : Arm} (h : ParsesArm b) :
    Takes n (arm expr) b.words fun a => a.unlocated = b.unlocated := by
  cases b with
  | mk _ pattern result => exact takes_arm (hexpr h.1) (hexpr h.2)

theorem ParsesProperty.takes {q : Property} (h : ParsesProperty q) :
    Takes n (property expr) q.words fun a => a.unlocated = q.unlocated := by
  cases q with
  | named _ name _ value => exact takes_property_named h.1 (hexpr h.2)
  | computed _ key _ value => exact takes_property_computed (hexpr h.1) (hexpr h.2)

end

theorem parses_lambda {params : List Param} {body : Expr} (hprintable : printableParams params = true)
    (hparams : ∀ q ∈ params, ParsesParam q) (hbody : Parses body) : Parses (.lambda p params body) where
  printable := by simp [hprintable, hbody.printable]
  operand {m least rest} _ hcloses hclear := by
    have hlambda : ∀ pos, Accepts m (lambda pos (inner m 0)) (Expr.lambda p params body).words rest
        fun a => a.unlocated = (Expr.lambda p params body).unlocated :=
      fun pos => accepts_lambda (fun q hq => (hparams q hq).takes Parses.takes_inner) hbody.takes_inner
        ⟨hcloses, hclear⟩
    refine operand_of_primary ?_
    rw [Expr.words] at hlambda ⊢
    match params with
    | [] => exact accepts_primary_lambda (by decide) rfl hlambda
    | [.mk _ name none] => exact accepts_primary_lambda (by simp [nameWord]) rfl hlambda
    | [.mk _ name (some bound)] => exact accepts_primary_lambda (by decide) rfl hlambda
    | .mk _ name none :: q :: qs => exact accepts_primary_lambda (by decide) rfl hlambda
    | .mk _ name (some bound) :: q :: qs => exact accepts_primary_lambda (by decide) rfl hlambda

theorem parses_block {body : List Stmt} (hprintable : printableStmts body = true) (hne : body ≠ [])
    (hbody : ∀ s ∈ body, ParsesStmt s) : Parses (.block p body) := by
  have hempty : body.isEmpty = false := List.isEmpty_eq_false_iff.2 hne
  refine parses_of_atom (by simp [hempty, hprintable]) rfl (by decide) fun m rest t hkind _ hclear => ?_
  simp only [atom, hkind]
  have hstmts : ∀ s ∈ body, TakesStmt m (inner m 0) s :=
    fun s hs => (hbody s hs).takes Parses.takes_inner
  exact (accepts_stmtBlock hne hstmts hclear).map fun ss hss => by simp [hss]

theorem parses_matching {scrutinee : Expr} {arms : List Arm} (hprintable : printableArms arms = true)
    (hne : arms ≠ []) (hscrutinee : Parses scrutinee) (harms : ∀ b ∈ arms, ParsesArm b) :
    Parses (.matching p scrutinee arms) := by
  have hempty : arms.isEmpty = false := List.isEmpty_eq_false_iff.2 hne
  refine parses_of_atom (by simp [hscrutinee.printable, hempty, hprintable]) rfl (by decide)
    fun m rest t hkind _ hclear => ?_
  simp only [atom, hkind]
  exact accepts_matching hscrutinee.takes_inner hne
    (fun b hb => (harms b hb).takes Parses.takes_inner) hclear

theorem parses_object {properties : List Property} (hprintable : printableProperties properties = true)
    (hproperties : ∀ q ∈ properties, ParsesProperty q) : Parses (.object p properties) := by
  refine parses_of_atom hprintable rfl (by decide) fun m rest t hkind _ hclear => ?_
  simp only [atom, hkind]
  exact accepts_object hprintable (fun q hq => (hproperties q hq).takes Parses.takes_inner) hclear

theorem parses_mapped {key : String} {union : Expr} {renamed : Option Expr} {optional : Bool}
    {value : Expr} (hprintable : (Expr.mapped p key union renamed optional value).isPrintable = true)
    (hunion : Parses union) (hrenamed : ∀ e, renamed = some e → Parses e) (hvalue : Parses value) :
    Parses (.mapped p key union renamed optional value) := by
  refine parses_of_atom hprintable rfl (by decide) fun m rest t hkind _ hclear => ?_
  simp only [atom, hkind]
  exact accepts_mapped hunion.takes_inner (fun e he => (hrenamed e he).takes_inner)
    hvalue.takes_inner hclear

/-! ## All expressions -/

mutual

/-- **Every printable expression is read back from its words.** -/
theorem parses : (e : Expr) → e.isPrintable = true → Parses e
  | .assignment _ target value, h => by
    simp only [Expr.isPrintable, Bool.and_eq_true] at h
    exact parses_assignment h.1.1 (parses target h.1.2) (parses value h.2)
  | .binary _ _ lhs rhs, h => by
    simp only [Expr.isPrintable, Bool.and_eq_true] at h
    exact parses_binary (parses lhs h.1) (parses rhs h.2)
  | .logical _ _ lhs rhs, h => by
    simp only [Expr.isPrintable, Bool.and_eq_true] at h
    exact parses_logical (parses lhs h.1) (parses rhs h.2)
  | .unary _ _ operand, h => parses_unary (parses operand h)
  | .conditional _ test consequent alternate, h => by
    simp only [Expr.isPrintable, Bool.and_eq_true] at h
    exact parses_conditional (parses test h.1.1) (parses consequent h.1.2) (parses alternate h.2)
  | .call _ callee args, h => by
    simp only [Expr.isPrintable, Bool.and_eq_true] at h
    exact parses_call (parses callee h.1) (parses_exprs args h.2)
  | .field _ object _, h => by
    simp only [Expr.isPrintable, Bool.and_eq_true] at h
    exact parses_field h.2 (parses object h.1)
  | .index _ object key, h => by
    simp only [Expr.isPrintable, Bool.and_eq_true] at h
    exact parses_index (parses object h.1) (parses key h.2)
  | .lambda _ params body, h => by
    simp only [Expr.isPrintable, Bool.and_eq_true] at h
    exact parses_lambda h.1 (parses_params params h.1) (parses body h.2)
  | .block _ body, h => by
    simp only [Expr.isPrintable, Bool.and_eq_true, Bool.not_eq_true', List.isEmpty_eq_false_iff] at h
    exact parses_block h.2 h.1 (parses_stmts body h.2)
  | .matching _ scrutinee arms, h => by
    simp only [Expr.isPrintable, Bool.and_eq_true, Bool.not_eq_true', List.isEmpty_eq_false_iff] at h
    exact parses_matching h.2 h.1.2 (parses scrutinee h.1.1) (parses_arms arms h.2)
  | .object _ properties, h => parses_object h (parses_properties properties h)
  | .mapped _ _ union renamed _ value, h => by
    have hparts := h
    simp only [Expr.isPrintable, Bool.and_eq_true] at hparts
    exact parses_mapped h (parses union hparts.1.1.2) (parses_option renamed hparts.1.2)
      (parses value hparts.2)
  | .tuple _ elements, h => parses_tuple (parses_exprs elements h)
  | .infer _ _ bound, h => by
    simp only [Expr.isPrintable, Bool.and_eq_true] at h
    exact parses_infer h.1 (parses_option bound h.2)
  | .ident _ _, h => parses_ident h
  | .number _ _, h => parses_number h
  | .string _ _, h => parses_string h
  | .numberType _, _ => parses_numberType
  | .stringType _, _ => parses_stringType

theorem parses_option : (e : Option Expr) → printableOption e = true → ∀ a, e = some a → Parses a
  | none, _, _, heq => by cases heq
  | some e, h, _, heq => Option.some.inj heq ▸ parses e h

theorem parses_exprs : (es : List Expr) → printableExprs es = true → ∀ a ∈ es, Parses a
  | [], _ => by simp
  | e :: es, h => by
    simp only [printableExprs, Bool.and_eq_true] at h
    rw [List.forall_mem_cons]
    exact ⟨parses e h.1, parses_exprs es h.2⟩

theorem parses_params : (ps : List Param) → printableParams ps = true → ∀ q ∈ ps, ParsesParam q
  | [], _ => by simp
  | .mk _ name bound :: ps, h => by
    simp only [printableParams, Param.isPrintable, Bool.and_eq_true] at h
    rw [List.forall_mem_cons]
    exact ⟨⟨h.1.1, parses_option bound h.1.2⟩, parses_params ps h.2⟩

theorem parses_stmts : (ss : List Stmt) → printableStmts ss = true → ∀ s ∈ ss, ParsesStmt s
  | [], _ => by simp
  | .letDecl _ _ value :: ss, h => by
    simp only [printableStmts, Stmt.isPrintable, Bool.and_eq_true] at h
    rw [List.forall_mem_cons]
    exact ⟨parses value h.1.2, parses_stmts ss h.2⟩
  | .assertEqual _ left right :: ss, h => by
    simp only [printableStmts, Stmt.isPrintable, Bool.and_eq_true] at h
    rw [List.forall_mem_cons]
    exact ⟨⟨parses left h.1.1, parses right h.1.2⟩, parses_stmts ss h.2⟩
  | .expr _ value :: ss, h => by
    simp only [printableStmts, Stmt.isPrintable, Bool.and_eq_true] at h
    rw [List.forall_mem_cons]
    exact ⟨parses value h.1, parses_stmts ss h.2⟩

theorem parses_arms : (as : List Arm) → printableArms as = true → ∀ b ∈ as, ParsesArm b
  | [], _ => by simp
  | .mk _ pattern result :: as, h => by
    simp only [printableArms, Arm.isPrintable, Bool.and_eq_true] at h
    rw [List.forall_mem_cons]
    exact ⟨⟨parses pattern h.1.1, parses result h.1.2⟩, parses_arms as h.2⟩

theorem parses_properties :
    (ps : List Property) → printableProperties ps = true → ∀ q ∈ ps, ParsesProperty q
  | [], _ => by simp
  | .named _ name _ value :: ps, h => by
    simp only [printableProperties, Property.isPrintable, Bool.and_eq_true] at h
    rw [List.forall_mem_cons]
    exact ⟨⟨h.1.1, parses value h.1.2⟩, parses_properties ps h.2⟩
  | .computed _ key _ value :: ps, h => by
    simp only [printableProperties, Property.isPrintable, Bool.and_eq_true] at h
    rw [List.forall_mem_cons]
    exact ⟨⟨parses key h.1.1, parses value h.1.2⟩, parses_properties ps h.2⟩

end

end Parser

end TypeForge
