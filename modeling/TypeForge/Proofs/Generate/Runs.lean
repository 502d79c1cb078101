import TypeForge.Generate.Program

/-!
# Successful runs of code generation

A computation of the generator is a function of the state that may fail.  What it does
when it succeeds is a relation between two states and a result, and that relation is
compositional: a sequence succeeds exactly if its parts do, one behind the other.  The
equivalences below take a run of a construct apart into runs of its parts, so that no
proof about generated code has to open the monad.

What an operator, a call or a method adds to the code of its parts is made without looking
at the lifted functions or the pattern variables, and leaves both alone.  Such computations
are called quiet.
-/

namespace TypeForge

open TypeScript

/-- What a computation leaves of the state that only hands out ids and notes symbols. -/
structure GenState.Undisturbed (s s' : GenState) : Prop where
  nextId_le : s.nextId ≤ s'.nextId
  imports_grows : s.imports <+: s'.imports
  lifted_eq : s'.lifted = s.lifted
  patternVars_eq : s'.patternVars = s.patternVars

theorem GenState.Undisturbed.trans {s s' s'' : GenState} (h : s.Undisturbed s')
    (h' : s'.Undisturbed s'') : s.Undisturbed s'' :=
  ⟨Nat.le_trans h.nextId_le h'.nextId_le, h.imports_grows.trans h'.imports_grows,
    h'.lifted_eq.trans h.lifted_eq, h'.patternVars_eq.trans h.patternVars_eq⟩

namespace Gen

variable {α β : Type}

/-- Started in the state `s`, the computation `m` succeeds with `a` and leaves `s'`. -/
def Yields (m : Gen α) (s : GenState) (a : α) (s' : GenState) : Prop :=
  m.run.run s = (.ok a, s')

variable {s s' : GenState}

@[simp] theorem yields_pure {a b : α} : Yields (pure a) s b s' ↔ b = a ∧ s' = s := by
  change ((Except.ok a, s) : Except _ α × GenState) = (.ok b, s') ↔ _
  simp [eq_comm]

@[simp] theorem yields_bind {m : Gen α} {f : α → Gen β} {b : β} :
    Yields (m >>= f) s b s' ↔ ∃ a t, m.Yields s a t ∧ (f a).Yields t b s' := by
  unfold Yields
  rw [ExceptT.run_bind, StateT.run_bind]
  rcases m.run.run s with ⟨_ | a, t⟩
  · constructor
    · intro h; cases h
    · rintro ⟨_, _, h, _⟩; cases h
  · constructor
    · intro h; exact ⟨a, t, rfl, h⟩
    · rintro ⟨_, _, h, h'⟩; cases h; exact h'

/-! ## The steps on the state -/

@[simp] theorem yields_fail {pos : Position} {error : GenError} {a : α} :
    ¬ Yields (fail pos error) s a s' := by
  intro h
  cases h

@[simp] theorem yields_freshId {id : Nat} :
    freshId.Yields s id s' ↔ id = s.nextId ∧ s' = { s with nextId := s.nextId + 1 } := by
  change ((Except.ok s.nextId, _) : Except _ Nat × GenState) = (.ok id, s') ↔ _
  simp [eq_comm]

@[simp] theorem yields_modify {f : GenState → GenState} {u : Unit} :
    Yields (modify f) s u s' ↔ s' = f s := by
  change ((Except.ok (), f s) : Except _ Unit × GenState) = (.ok u, s') ↔ _
  simp [eq_comm]

@[simp] theorem yields_patternVars {vars : List String} :
    patternVars.Yields s vars s' ↔ vars = s.patternVars ∧ s' = s := by
  change ((Except.ok s.patternVars, s) : Except _ (List String) × GenState) = (.ok vars, s') ↔ _
  simp [eq_comm]

/-- Pattern variables of its own do not leave a computation. -/
@[simp] theorem yields_withPatternVars {vars : List String} {m : Gen α} {a : α} :
    Yields (withPatternVars vars m) s a s' ↔
      ∃ t, m.Yields { s with patternVars := vars } a t ∧
        s' = { t with patternVars := s.patternVars } := by
  change ((fun p => (p.1, { p.2 with patternVars := s.patternVars }))
    (m.run.run { s with patternVars := vars }) : Except (Located GenError) α × GenState) = _ ↔ _
  unfold Yields
  rcases m.run.run { s with patternVars := vars } with ⟨r, t⟩
  constructor
  · intro h; cases h; exact ⟨t, rfl, rfl⟩
  · rintro ⟨t', h, rfl⟩; cases h; rfl

@[simp] theorem yields_readingAt {ctx : Context} {pos : Position} {mode : PatternMode} :
    (readingAt ctx pos).Yields s mode s' ↔ ctx.mode = some mode ∧ s' = s := by
  unfold readingAt
  cases ctx.mode with
  | none => simp
  | some mode' => simp [eq_comm]

/-- In the binding reading, a pattern variable is noted if there is room. -/
theorem yields_patternVar_binding {pos : Position} {name : String} {limit : Option Ty} {t : Ty} :
    (patternVar .binding pos name limit).Yields s t s' ↔
      s.patternVars.length < maxPatternVars ∧ t = .infer (.user name) limit ∧
        s' = { s with patternVars := s.patternVars ++ [name] } := by
  have hstep : (patternVar .binding pos name limit).Yields s t s' ↔
      (if maxPatternVars ≤ s.patternVars.length then fail pos .tooManyPatternVars
        else do
          modify fun s => { s with patternVars := s.patternVars ++ [name] }
          return .infer (.user name) limit : Gen Ty).Yields s t s' := Iff.rfl
  rw [hstep]
  by_cases h : maxPatternVars ≤ s.patternVars.length
  · simp [h, Nat.not_lt_of_le h]
  · simp only [h, if_false, yields_bind, yields_modify, yields_pure]
    simp [Nat.lt_of_not_le h]

/-- A call of anything but a method. -/
theorem exprTy_call (ctx : Context) (pos : Position) {callee : Expr} (args : List Expr)
    (h : ¬ ∃ p object method, callee = .field p object method) :
    exprTy ctx (.call pos callee args) = (do
      let args ← argTys ctx args
      let arity := knownArity ctx (← patternVars) callee
      let callee ← exprTy ctx callee
      applyCall arity callee args) := by
  rw [exprTy]
  intro p object method heq
  exact h ⟨p, object, method, heq⟩

/-! ## Quiet computations -/

/-- A computation that only hands out ids and notes symbols. -/
def Quiet (m : Gen α) : Prop :=
  ∀ ⦃s : GenState⦄ ⦃a : α⦄ ⦃s' : GenState⦄, m.Yields s a s' → s.Undisturbed s'

theorem quiet_pure (a : α) : Quiet (pure a : Gen α) := by
  intro s b s' h
  rw [(yields_pure.1 h).2]
  exact ⟨Nat.le_refl _, List.prefix_rfl, rfl, rfl⟩

theorem quiet_fail (pos : Position) (error : GenError) : Quiet (fail pos error : Gen α) :=
  fun _ _ _ h => absurd h yields_fail

theorem Quiet.bind {m : Gen α} {f : α → Gen β} (hm : Quiet m) (hf : ∀ a, Quiet (f a)) :
    Quiet (m >>= f) := by
  intro s b s' h
  obtain ⟨a, t, ha, hb⟩ := yields_bind.1 h
  exact (hm ha).trans (hf a hb)

theorem Quiet.map {m : Gen α} (hm : Quiet m) (g : α → β) : Quiet (do return g (← m)) :=
  hm.bind fun _ => quiet_pure _

theorem quiet_freshId : Quiet freshId := by
  intro s id s' h
  rw [(yields_freshId.1 h).2]
  exact ⟨Nat.le_succ _, List.prefix_rfl, rfl, rfl⟩

theorem quiet_require (symbol : Symbol) : Quiet (require symbol) := by
  intro s u s' h
  rw [yields_modify.1 h]
  refine ⟨Nat.le_refl _, ?_, rfl, rfl⟩
  by_cases hnoted : symbol ∈ s.imports
  · simp only [if_pos hnoted]
    exact List.prefix_rfl
  · simp only [if_neg hnoted]
    exact List.prefix_append _ _

theorem quiet_patternVars : Quiet patternVars := by
  intro s vars s' h
  rw [(yields_patternVars.1 h).2]
  exact ⟨Nat.le_refl _, List.prefix_rfl, rfl, rfl⟩

theorem quiet_readingAt (ctx : Context) (pos : Position) : Quiet (readingAt ctx pos) := by
  intro s mode s' h
  rw [(yields_readingAt.1 h).2]
  exact ⟨Nat.le_refl _, List.prefix_rfl, rfl, rfl⟩

/-- A computation that is put together from handing out ids and noting symbols; it does not fail. -/
inductive Plain : {α : Type} → Gen α → Prop where
  | pure {α : Type} (a : α) : Plain (Pure.pure a : Gen α)
  | bind {α β : Type} {m : Gen α} {f : α → Gen β} (hm : Plain m) (hf : ∀ a, Plain (f a)) :
      Plain (m >>= f)
  | freshId : Plain freshId
  | require (symbol : Symbol) : Plain (require symbol)

theorem Plain.quiet {m : Gen α} (hm : Plain m) : Quiet m := by
  induction hm with
  | pure a => exact quiet_pure a
  | bind _ _ hm hf => exact hm.bind hf
  | freshId => exact quiet_freshId
  | require symbol => exact quiet_require symbol

theorem Plain.map {m : Gen α} (hm : Plain m) (g : α → β) : Plain (do return g (← m)) :=
  hm.bind fun a => .pure (g a)

theorem plain_freshIds (bs : List β) : Plain (freshIds bs) := by
  induction bs with
  | nil => exact .pure _
  | cons b bs ih => exact Plain.freshId.bind fun _ => ih.map _

theorem plain_combine (c : Combinator) (operands : List Ty) : Plain (combine c operands) := by
  refine (Plain.require _).bind fun _ => (plain_freshIds _).bind fun _ => ?_
  by_cases h : c.application = .direct
  · simp only [h, ne_eq, not_true, if_false]
    exact .pure _
  · simp only [h, ne_eq, not_false_eq_true, if_true]
    exact (Plain.require _).bind fun _ => .pure _

theorem plain_binary (op : BinaryOp) (lhs rhs : Ty) : Plain (binary op lhs rhs) := by
  unfold binary
  split
  · exact .pure _
  · exact plain_combine _ _

theorem plain_unary (op : UnaryOp) (operand : Ty) : Plain (unary op operand) := by
  unfold unary
  split
  · exact Plain.freshId.map _
  · exact plain_combine _ _

theorem plain_application (arity : Option Nat) (callee : Ty) (args : List Ty) :
    Plain (application arity callee args) := by
  unfold application
  split
  · split
    · exact (Plain.require _).bind fun _ => .pure _
    · exact (Plain.require _).bind fun _ => .pure _
  · exact (Plain.require _).bind fun _ => (Plain.require _).bind fun _ => .pure _

theorem plain_applyCall (arity : Option Nat) (callee : Ty) (args : List (Nat × Ty)) :
    Plain (applyCall arity callee args) := by
  unfold applyCall
  split
  · exact .pure _
  · exact (plain_application _ _ _).map _

theorem quiet_combine (c : Combinator) (operands : List Ty) : Quiet (combine c operands) :=
  (plain_combine c operands).quiet

theorem quiet_binary (op : BinaryOp) (lhs rhs : Ty) : Quiet (binary op lhs rhs) :=
  (plain_binary op lhs rhs).quiet

theorem quiet_unary (op : UnaryOp) (operand : Ty) : Quiet (unary op operand) :=
  (plain_unary op operand).quiet

theorem quiet_applyCall (arity : Option Nat) (callee : Ty) (args : List (Nat × Ty)) :
    Quiet (applyCall arity callee args) :=
  (plain_applyCall arity callee args).quiet

theorem quiet_methodSymbol (pos : Position) (name : String) : Quiet (methodSymbol pos name) := by
  unfold methodSymbol
  split
  · exact quiet_fail _ _
  · exact (quiet_require _).bind fun _ => quiet_pure _

/-! ## Results -/

/-- Every result of `m` satisfies `P`. -/
def Returns (P : α → Prop) (m : Gen α) : Prop :=
  ∀ ⦃s : GenState⦄ ⦃a : α⦄ ⦃s' : GenState⦄, m.Yields s a s' → P a

theorem returns_pure {P : α → Prop} {a : α} (h : P a) : Returns P (pure a : Gen α) := by
  intro s b s' hb
  rw [(yields_pure.1 hb).1]
  exact h

theorem returns_fail {P : α → Prop} (pos : Position) (error : GenError) :
    Returns P (fail pos error : Gen α) :=
  fun _ _ _ h => absurd h yields_fail

theorem Returns.bind {P : α → Prop} {Q : β → Prop} {m : Gen α} {f : α → Gen β}
    (hm : Returns P m) (hf : ∀ a, P a → Returns Q (f a)) : Returns Q (m >>= f) := by
  intro s b s' h
  obtain ⟨a, t, ha, hb⟩ := yields_bind.1 h
  exact hf a (hm ha) hb

/-- A computation whose result does not matter in front of another. -/
theorem returns_skip {Q : β → Prop} {m : Gen α} {f : α → Gen β} (hf : ∀ a, Returns Q (f a)) :
    Returns Q (m >>= f) := by
  intro s b s' h
  obtain ⟨a, t, -, hb⟩ := yields_bind.1 h
  exact hf a hb

theorem Returns.imp {P Q : α → Prop} {m : Gen α} (hm : Returns P m) (h : ∀ a, P a → Q a) :
    Returns Q m :=
  fun _ a _ ha => h a (hm ha)

theorem Returns.of_map {Q : β → Prop} {m : Gen α} {g : α → β}
    (h : Returns Q (do return g (← m))) : Returns (fun a => Q (g a)) m :=
  fun _ a _ ha => h (yields_bind.2 ⟨a, _, ha, yields_pure.2 ⟨rfl, rfl⟩⟩)

theorem returns_freshIds (bs : List β) : Returns (fun ids => ids.length = bs.length) (freshIds bs) := by
  induction bs with
  | nil => exact returns_pure rfl
  | cons b bs ih =>
    refine returns_skip fun id => ih.bind fun ids hids => returns_pure ?_
    simp [hids]

/-- What a combinator makes of operands that are bound to the given ids. -/
def combinatorResult (c : Combinator) (ids : List Nat) : Ty :=
  if c.yieldsBit then truthOfBit (combinatorCall c (ids.map fun id => .name (.temp id)))
  else combinatorCall c (ids.map fun id => .name (.temp id))

theorem returns_combine (c : Combinator) (operands : List Ty) :
    Returns (fun t => ∃ ids : List Nat, ids.length = operands.length ∧
      t = .paren (bindOperands (operandBound c.isNumeric) (ids.zip operands)
        (combinatorResult c ids))) (combine c operands) := by
  refine returns_skip fun _ => (returns_freshIds operands).bind fun ids hids => ?_
  by_cases h : c.application = .direct
  · simp only [h, ne_eq, not_true, if_false]
    exact returns_pure ⟨ids, hids, rfl⟩
  · simp only [h, ne_eq, not_false_eq_true, if_true]
    exact returns_skip fun _ => returns_pure ⟨ids, hids, rfl⟩

/-- The callee of a call is applied to all arguments, to some of them, or to whichever is
possible. -/
theorem returns_application (arity : Option Nat) (callee : Ty) (args : List Ty) :
    Returns (fun t => t = .applied .applyAll [callee, .tuple args] ∨
        t = .applied .applyPart [callee, .tuple args] ∨
        t = .conditional (.paren (.applied .applyAll [callee, .tuple args])) .never
          (.paren (.applied .applyPart [callee, .tuple args]))
          (.paren (.applied .applyAll [callee, .tuple args])))
      (application arity callee args) := by
  unfold application
  split
  · split
    · exact returns_skip fun _ => returns_pure (.inl rfl)
    · exact returns_skip fun _ => returns_pure (.inr (.inl rfl))
  · exact returns_skip fun _ => returns_skip fun _ => returns_pure (.inr (.inr rfl))

/-! ## Lifted functions -/

/-- A lambda is lifted behind its body, and its closure takes along what is bound around
it. -/
theorem Yields.of_liftLambda {ctx : Context} {params : List Param}
    {bounds : Context → Gen (List Ty)} {body : Context → Gen Ty} {t : Ty}
    (h : (liftLambda ctx params bounds body).Yields s t s') :
    let own := params.map Param.name
    let captures := ctx.scope.captures s.patternVars own
    let inner := ctx.inside captures own none
    ∃ s₀ code s₁, s.Undisturbed s₀ ∧
      (guarded params (bounds inner) (body inner)).Yields { s₀ with patternVars := [] } code s₁ ∧
      t = .closure (.lambda s₁.nextId) (captures.map (reference s.patternVars ctx.scope)) ∧
      s' = { s₁ with
        nextId := s₁.nextId + 1
        lifted := s₁.lifted ++ [⟨.lambda s₁.nextId, code⟩]
        patternVars := s.patternVars } := by
  obtain ⟨_, s₁, h₁, h⟩ := yields_bind.1 h
  obtain ⟨_, s₀, h₂, h⟩ := yields_bind.1 h
  have hs₀ := (quiet_require _ h₁).trans (quiet_require _ h₂)
  obtain ⟨_, _, hvars, h⟩ := yields_bind.1 h
  obtain ⟨rfl, rfl⟩ := yields_patternVars.1 hvars
  rw [hs₀.patternVars_eq] at h
  obtain ⟨code, _, hcode, h⟩ := yields_bind.1 h
  obtain ⟨s₂, hcode', rfl⟩ := yields_withPatternVars.1 hcode
  simp only [addLifted, yields_bind, yields_freshId, yields_modify, yields_pure] at h
  obtain ⟨_, _, ⟨rfl, rfl⟩, _, _, rfl, rfl, rfl⟩ := h
  exact ⟨_, code, s₂, hs₀, hcode', rfl, by rw [hs₀.patternVars_eq]⟩

/-- The pattern of an arm is read twice, and the arm is lifted behind its result. -/
theorem Yields.of_liftArm {ctx : Context} {pattern result : Context → Gen Ty} {t : Ty}
    (h : (liftArm ctx pattern result).Yields s t s') :
    let captures := ctx.scope.captures s.patternVars []
    ∃ s₀ site s₁ binder s₂ code s₃, s.Undisturbed s₀ ∧
      (pattern (ctx.reading .shape)).Yields s₀ site s₁ ∧
      (pattern (ctx.inside captures [] (some .binding))).Yields { s₁ with patternVars := [] }
        binder s₂ ∧
      (result (ctx.inside captures [] none)).Yields s₂ code s₃ ∧
      t = .apply (.symbol .matching (some "With"))
        [site, .closure (.arm s₃.nextId) (captures.map (reference s.patternVars ctx.scope))] ∧
      s' = { s₃ with
        nextId := s₃.nextId + 1
        lifted := s₃.lifted ++ [⟨.arm s₃.nextId, .conditional (.arg 1) binder code .never⟩]
        patternVars := s.patternVars } := by
  obtain ⟨_, s₁, h₁, h⟩ := yields_bind.1 h
  obtain ⟨_, s₀, h₂, h⟩ := yields_bind.1 h
  have hs₀ := (quiet_require _ h₁).trans (quiet_require _ h₂)
  obtain ⟨_, _, hvars, h⟩ := yields_bind.1 h
  obtain ⟨rfl, rfl⟩ := yields_patternVars.1 hvars
  obtain ⟨site, _, hsite, h⟩ := yields_bind.1 h
  obtain ⟨s₂, hsite', rfl⟩ := yields_withPatternVars.1 hsite
  obtain ⟨⟨binder, code⟩, _, hpair, h⟩ := yields_bind.1 h
  obtain ⟨s₃, hpair', rfl⟩ := yields_withPatternVars.1 hpair
  simp only [yields_bind, yields_pure] at hpair'
  obtain ⟨_, s₄, hbinder, _, _, hcode, hpair'', rfl⟩ := hpair'
  cases hpair''
  simp only [addLifted, yields_bind, yields_freshId, yields_modify, yields_pure] at h
  obtain ⟨_, _, ⟨rfl, rfl⟩, _, _, rfl, rfl, rfl⟩ := h
  rw [hs₀.patternVars_eq] at hbinder hcode ⊢
  exact ⟨_, site, s₂, binder, s₄, code, s₃, hs₀, hsite', hbinder, hcode, rfl, rfl⟩

end Gen

end TypeForge
