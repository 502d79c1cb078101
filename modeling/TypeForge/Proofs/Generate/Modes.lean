import TypeForge.Proofs.Generate.Frame

/-!
# Readings of patterns as part of the state

The generator is told which reading of a pattern it is in, and tells its parts.  It could as well
keep the reading in its state, set another one for the pattern of an arm or the body of a lambda, and
set it back behind them.  Such a generator has to take care that nobody finds a reading that someone
else has left there.

Here is that generator.  Whatever runs in isolation, the reading and the pattern variables behind it
are those in front of it, also if it fails.  So every expression finds the reading of the place it
stands at, and the two generators do the same.
-/

namespace TypeForge

open TypeScript

/-- The state of a generator together with the reading of the pattern it is in. -/
structure ModalState extends GenState where
  mode : Option PatternMode

/-- Computations that generate code and may fail, with the reading of the enclosing pattern in
their state. -/
abbrev ModalGen := ExceptT (Located GenError) (StateM ModalState)

namespace ModalGen

variable {α β : Type}

/-! ## The generator -/

/-- A computation that neither asks for the reading nor sets it. -/
def ofGen (m : Gen α) : ModalGen α := ExceptT.mk fun s =>
  let after := m.run.run s.toGenState
  (after.1, ⟨after.2, s.mode⟩)

/-- Sets the reading. -/
def setMode (mode : Option PatternMode) : ModalGen Unit := modify fun s => { s with mode := mode }

/-- The reading of the pattern around a pattern variable. -/
def readingAt (pos : Position) : ModalGen PatternMode := do
  match (← get).mode with
  | none => ofGen (Gen.fail pos .inferOutsidePattern)
  | some mode => return mode

/-- Runs `m` with the given pattern variables and reading, and restores the current ones behind it,
also when it fails. -/
def isolated (vars : List String) (mode : Option PatternMode) (m : ModalGen α) : ModalGen α := ExceptT.mk do
  let saved ← get
  set { saved with patternVars := vars, mode := mode }
  let result ← m.run
  modify fun s => { s with patternVars := saved.patternVars, mode := saved.mode }
  return result

/-- The code of a function body behind its guard. -/
def guarded (params : List Param) (bounds : ModalGen (List Ty)) (body : ModalGen Ty) : ModalGen Ty := do
  if params.all (·.bound.isNone) then
    body
  else
    let bounds ← bounds
    let body ← body
    let args := (List.range params.length).map fun i => Ty.arg (i + 1)
    return .conditional (.tuple args) (.tuple bounds) body .never

/-- Lifts a lambda and creates its closure. -/
def liftLambda (scope : Scope) (params : List Param) (bounds : Scope → ModalGen (List Ty))
    (body : Scope → ModalGen Ty) : ModalGen Ty := do
  ofGen (Gen.require .fn)
  ofGen (Gen.require .applyPart)
  let vars ← ofGen Gen.patternVars
  let own := params.map Param.name
  let captures := scope.captures vars own
  let inner := Scope.closure captures own
  let code ← isolated [] none (guarded params (bounds inner) (body inner))
  let name := Name.lambda (← ofGen Gen.freshId)
  ofGen (Gen.addLifted name code)
  return .closure name (captures.map (Gen.reference vars scope))

/-- Lifts a match arm.  The reading is set in the middle of it: the pattern binds names, and the
result is no part of the pattern. -/
def liftArm (scope : Scope) (pattern result : Scope → ModalGen Ty) : ModalGen Ty := do
  ofGen (Gen.require .fn)
  ofGen (Gen.require .applyPart)
  let vars ← ofGen Gen.patternVars
  let site ← isolated vars (some .shape) (pattern scope)
  let captures := scope.captures vars []
  let inner := Scope.closure captures []
  let (binder, body) ← isolated [] (some .binding) do
    let binder ← pattern inner
    setMode none
    let body ← result inner
    return (binder, body)
  let name := Name.arm (← ofGen Gen.freshId)
  ofGen (Gen.addLifted name (.conditional (.arg 1) binder body .never))
  return .apply (.symbol .matching (some "With"))
    [site, .closure name (captures.map (Gen.reference vars scope))]

mutual

/-- The code of an expression. -/
def exprTy (arity : String → Option Nat) (scope : Scope) : Expr → ModalGen Ty
  | .assignment pos _ _ => ofGen (Gen.fail pos .assignmentUnsupported)
  | .binary _ op lhs rhs => do
    let lhs ← exprTy arity scope lhs
    let rhs ← exprTy arity scope rhs
    ofGen (Gen.binary op lhs rhs)
  | .logical _ op lhs rhs => do
    let lhs ← exprTy arity scope lhs
    let rhs ← exprTy arity scope rhs
    ofGen (Gen.combine op.lowering [lhs, rhs])
  | .unary _ op operand => do
    let operand ← exprTy arity scope operand
    ofGen (Gen.unary op operand)
  | .conditional _ test consequent alternate => do
    let test ← exprTy arity scope test
    let consequent ← exprTy arity scope consequent
    let alternate ← exprTy arity scope alternate
    return Gen.conditional test consequent alternate
  | .call pos (.field _ object method) args => do
    let symbol ← ofGen (Gen.methodSymbol pos method)
    let object ← exprTy arity scope object
    let args ← exprTys arity scope args
    return .paren (.applied symbol (object :: args))
  | .call _ callee args => do
    let args ← argTys arity scope args
    let known := Gen.knownArity ⟨scope, none, arity⟩ (← ofGen Gen.patternVars) callee
    let callee ← exprTy arity scope callee
    ofGen (Gen.applyCall known callee args)
  | .field _ object name => do
    let object ← exprTy arity scope object
    return .index (.paren object) (.string name)
  | .index _ object key => do
    let object ← exprTy arity scope object
    let key ← exprTy arity scope key
    return .index (.paren object) key
  | .lambda _ params body =>
    liftLambda scope params (fun inner => boundTys arity inner params) (fun inner => exprTy arity inner body)
  | .block pos body => blockTy arity scope pos body
  | .matching _ scrutinee arms => do
    ofGen (Gen.require .matching)
    ofGen (Gen.require .call)
    let scrutinee ← exprTy arity scope scrutinee
    let arms ← armTys arity scope arms
    return .applied .call [.applied .matching [.tuple arms], scrutinee]
  | .template _ parts => return .template (← partTys arity scope parts)
  | .object _ properties => return .object (← propertyTys arity scope properties)
  | .mapped _ key union none optional value => do
    let union ← exprTy arity scope union
    let value ← exprTy arity (scope.bind key) value
    return .mapped key union none optional value
  | .mapped _ key union (some renamed) optional value => do
    let union ← exprTy arity scope union
    let renamed ← exprTy arity (scope.bind key) renamed
    let value ← exprTy arity (scope.bind key) value
    return .mapped key union (some renamed) optional value
  | .tuple _ elements => return .tuple (← exprTys arity scope elements)
  | .infer pos name none => do
    let mode ← readingAt pos
    ofGen (Gen.patternVar mode pos name none)
  | .infer pos name (some bound) => do
    let mode ← readingAt pos
    let bound ← exprTy arity scope bound
    ofGen (Gen.patternVar mode pos name (some bound))
  | .ident _ name => return Gen.reference (← ofGen Gen.patternVars) scope name
  | .number _ digits => return .number digits
  | .string _ text => return .string text
  | .numberType _ => return .keyword .number
  | .stringType _ => return .keyword .string

/-- The code of a list of expressions. -/
def exprTys (arity : String → Option Nat) (scope : Scope) : List Expr → ModalGen (List Ty)
  | [] => return []
  | e :: es => do
    let t ← exprTy arity scope e
    let ts ← exprTys arity scope es
    return t :: ts

/-- The code of the arguments of a call. -/
def argTys (arity : String → Option Nat) (scope : Scope) : List Expr → ModalGen (List (Nat × Ty))
  | [] => return []
  | e :: es => do
    let id ← ofGen Gen.freshId
    let t ← exprTy arity scope e
    let ts ← argTys arity scope es
    return (id, t) :: ts

/-- The code of the bounds of parameters. -/
def boundTys (arity : String → Option Nat) (scope : Scope) : List Param → ModalGen (List Ty)
  | [] => return []
  | .mk _ _ none :: ps => do
    let ts ← boundTys arity scope ps
    return .keyword .unknown :: ts
  | .mk _ _ (some bound) :: ps => do
    let t ← exprTy arity scope bound
    let ts ← boundTys arity scope ps
    return t :: ts

/-- The code of a block that starts at `pos`. -/
def blockTy (arity : String → Option Nat) (scope : Scope) (pos : Position) : List Stmt → ModalGen Ty
  | [] => ofGen (Gen.fail pos .blockWithoutResult)
  | [.expr _ value] => exprTy arity scope value
  | .expr p _ :: _ => ofGen (Gen.fail p .statementBeforeBlockEnd)
  | .assertEqual p _ _ :: _ => ofGen (Gen.fail p .assertionOutsideSection)
  | [.letDecl p _ _] => ofGen (Gen.fail p .blockWithoutResult)
  | .letDecl _ name value :: rest => do
    let value ← exprTy arity scope value
    let body ← blockTy arity (scope.bind name) pos rest
    return .paren (.bindExactly (.user name) value body)

/-- The code of the arms of a match. -/
def armTys (arity : String → Option Nat) (scope : Scope) : List Arm → ModalGen (List Ty)
  | [] => return []
  | .mk _ pattern result :: as => do
    let t ← liftArm scope (fun inner => exprTy arity inner pattern) (fun inner => exprTy arity inner result)
    let ts ← armTys arity scope as
    return t :: ts

/-- The code of the parts of a template string. -/
def partTys (arity : String → Option Nat) (scope : Scope) : List Part → ModalGen (List Piece)
  | [] => return []
  | .text text :: ps => do
    let ts ← partTys arity scope ps
    return .text text :: ts
  | .expr value :: ps => do
    let t ← exprTy arity scope value
    let ts ← partTys arity scope ps
    return .ty t :: ts

/-- The code of the properties of an object. -/
def propertyTys (arity : String → Option Nat) (scope : Scope) : List Property → ModalGen (List Field)
  | [] => return []
  | .named _ name optional value :: ps => do
    let t ← exprTy arity scope value
    let ts ← propertyTys arity scope ps
    return .named name optional t :: ts
  | .computed _ key optional value :: ps => do
    let k ← exprTy arity scope key
    let t ← exprTy arity scope value
    let ts ← propertyTys arity scope ps
    return .computed k optional t :: ts

end

/-! ## What is left behind -/

/-- Behind `m` the pattern variables and the reading are those in front of it, whatever comes of
`m`. -/
def Keeps (m : ModalGen α) : Prop :=
  ∀ s, (m.run.run s).2.patternVars = s.patternVars ∧ (m.run.run s).2.mode = s.mode

theorem Keeps.bind {m : ModalGen α} {f : α → ModalGen β} (hm : Keeps m) (hf : ∀ a, Keeps (f a)) :
    Keeps (m >>= f) := by
  intro s
  have hfront := hm s
  rw [ExceptT.run_bind, StateT.run_bind]
  rcases hrun : m.run.run s with ⟨e | a, s₁⟩
  · rw [hrun] at hfront
    exact hfront
  · rw [hrun] at hfront
    obtain ⟨hvars, hmode⟩ := hf a s₁
    exact ⟨hvars.trans hfront.1, hmode.trans hfront.2⟩

/-- In each reading, `m` does what `f` does in that reading, and leaves the reading as it is. -/
def Simulates (m : ModalGen α) (f : Option PatternMode → Gen α) : Prop :=
  ∀ s : ModalState, m.run.run s = (ofGen (f s.mode)).run.run s

section

variable {m : ModalGen α} {f : Option PatternMode → Gen α}

theorem simulates_ofGen (m : Gen α) : Simulates (ofGen m) fun _ => m := fun _ => rfl

theorem simulates_pure (a : α) : Simulates (pure a) fun _ => pure a := fun _ => rfl

theorem Simulates.bind {k : α → ModalGen β} {g : α → Option PatternMode → Gen β} (hm : Simulates m f)
    (hk : ∀ a, Simulates (k a) (g a)) : Simulates (m >>= k) fun mode => f mode >>= fun a => g a mode := by
  intro s
  have hfront : m.run.run s =
      (((f s.mode).run.run s.toGenState).1, ⟨((f s.mode).run.run s.toGenState).2, s.mode⟩) := hm s
  rw [ExceptT.run_bind, StateT.run_bind, hfront]
  unfold ofGen
  change _ = (((f s.mode >>= fun a => g a s.mode).run.run s.toGenState).1,
    (⟨((f s.mode >>= fun a => g a s.mode).run.run s.toGenState).2, s.mode⟩ : ModalState))
  rw [ExceptT.run_bind, StateT.run_bind]
  rcases (f s.mode).run.run s.toGenState with ⟨e | a, t⟩
  · rfl
  · exact hk a ⟨t, s.mode⟩

theorem Simulates.map (hm : Simulates m f) (g : α → β) :
    Simulates (do return g (← m)) fun mode => do return g (← f mode) :=
  hm.bind fun a => simulates_pure (g a)

theorem simulates_readingAt (arity : String → Option Nat) (scope : Scope) (pos : Position) :
    Simulates (readingAt pos) fun mode => Gen.readingAt ⟨scope, mode, arity⟩ pos := by
  rintro ⟨s, _ | mode⟩ <;> rfl

/-- Inside of isolation a reading is set, and what it is in the end does not matter. -/
theorem simulates_isolated {m : ModalGen α} {m' : Gen α} {vars : List String} {mode : Option PatternMode}
    (h : ∀ s : GenState, ∃ left, m.run.run ⟨s, mode⟩ = ((m'.run.run s).1, ⟨(m'.run.run s).2, left⟩)) :
    Simulates (isolated vars mode m) fun _ => Gen.withPatternVars vars m' := by
  intro s
  obtain ⟨left, hrun⟩ := h { s.toGenState with patternVars := vars }
  have hisolated : (isolated vars mode m).run.run s =
      ((m.run.run ⟨{ s.toGenState with patternVars := vars }, mode⟩).1,
        { (m.run.run ⟨{ s.toGenState with patternVars := vars }, mode⟩).2 with
          patternVars := s.patternVars, mode := s.mode }) := rfl
  rw [hisolated, hrun]
  rfl

theorem Simulates.run (h : Simulates m f) (s : GenState) (mode : Option PatternMode) :
    ∃ left, m.run.run ⟨s, mode⟩ = (((f mode).run.run s).1, ⟨((f mode).run.run s).2, left⟩) :=
  ⟨mode, h ⟨s, mode⟩⟩

theorem simulates_guarded {params : List Param} {bounds : ModalGen (List Ty)} {body : ModalGen Ty}
    {bounds' : Option PatternMode → Gen (List Ty)} {body' : Option PatternMode → Gen Ty}
    (hbounds : Simulates bounds bounds') (hbody : Simulates body body') :
    Simulates (guarded params bounds body) fun mode => Gen.guarded params (bounds' mode) (body' mode) := by
  unfold guarded Gen.guarded
  split
  · exact hbody
  · exact hbounds.bind fun _ => hbody.map _

theorem simulates_liftLambda {arity : String → Option Nat} {scope : Scope} {params : List Param}
    {bounds : Scope → ModalGen (List Ty)} {body : Scope → ModalGen Ty} {bounds' : Context → Gen (List Ty)}
    {body' : Context → Gen Ty}
    (hbounds : ∀ inner, Simulates (bounds inner) fun mode => bounds' ⟨inner, mode, arity⟩)
    (hbody : ∀ inner, Simulates (body inner) fun mode => body' ⟨inner, mode, arity⟩) :
    Simulates (liftLambda scope params bounds body)
      fun mode => Gen.liftLambda ⟨scope, mode, arity⟩ params bounds' body' := by
  have hcode (inner : Scope) : Simulates (isolated [] none (guarded params (bounds inner) (body inner)))
      fun _ => Gen.withPatternVars [] (Gen.guarded params (bounds' ⟨inner, none, arity⟩) (body' ⟨inner, none, arity⟩)) :=
    simulates_isolated fun s => (simulates_guarded (hbounds inner) (hbody inner)).run s none
  refine (simulates_ofGen _).bind fun _ => (simulates_ofGen _).bind fun _ => ?_
  refine (simulates_ofGen _).bind fun vars => (hcode _).bind fun code => ?_
  exact (simulates_ofGen _).bind fun id => (simulates_ofGen _).bind fun _ => simulates_pure _

theorem simulates_liftArm {arity : String → Option Nat} {scope : Scope} {pattern result : Scope → ModalGen Ty}
    {pattern' result' : Context → Gen Ty}
    (hpattern : ∀ inner, Simulates (pattern inner) fun mode => pattern' ⟨inner, mode, arity⟩)
    (hresult : ∀ inner, Simulates (result inner) fun mode => result' ⟨inner, mode, arity⟩) :
    Simulates (liftArm scope pattern result)
      fun mode => Gen.liftArm ⟨scope, mode, arity⟩ pattern' result' := by
  have hsite (vars : List String) : Simulates (isolated vars (some .shape) (pattern scope))
      fun _ => Gen.withPatternVars vars (pattern' ⟨scope, some .shape, arity⟩) :=
    simulates_isolated fun s => (hpattern scope).run s (some .shape)
  have hbody (inner : Scope) : Simulates
      (isolated [] (some .binding) do
        let binder ← pattern inner
        setMode none
        let body ← result inner
        return (binder, body))
      fun _ => Gen.withPatternVars [] do
        let binder ← pattern' ⟨inner, some .binding, arity⟩
        let body ← result' ⟨inner, none, arity⟩
        return (binder, body) := by
    refine simulates_isolated fun s => ?_
    have hfront : (pattern inner).run.run ⟨s, some .binding⟩ =
        (((pattern' ⟨inner, some .binding, arity⟩).run.run s).1,
          ⟨((pattern' ⟨inner, some .binding, arity⟩).run.run s).2, some .binding⟩) :=
      hpattern inner ⟨s, some .binding⟩
    rw [ExceptT.run_bind, StateT.run_bind, hfront, ExceptT.run_bind, StateT.run_bind]
    rcases (pattern' ⟨inner, some .binding, arity⟩).run.run s with ⟨e | binder, t⟩
    · exact ⟨some .binding, rfl⟩
    · exact ((hresult inner).map fun body => (binder, body)).run t none
  refine (simulates_ofGen _).bind fun _ => (simulates_ofGen _).bind fun _ => ?_
  refine (simulates_ofGen _).bind fun vars => (hsite vars).bind fun site => (hbody _).bind fun code => ?_
  exact (simulates_ofGen _).bind fun id => (simulates_ofGen _).bind fun _ => simulates_pure _

end

/-! ## Expressions -/

section

variable (arity : String → Option Nat)

mutual

/-- **A generator with the reading in its state does what one does that is told the reading**, and
leaves the reading as it is. -/
theorem simulates_exprTy (scope : Scope) : ∀ e : Expr,
    Simulates (exprTy arity scope e) fun mode => Gen.exprTy ⟨scope, mode, arity⟩ e
  | .assignment .. => simulates_ofGen _
  | .binary _ op lhs rhs =>
    (simulates_exprTy scope lhs).bind fun _ => (simulates_exprTy scope rhs).bind fun _ => simulates_ofGen _
  | .logical _ op lhs rhs =>
    (simulates_exprTy scope lhs).bind fun _ => (simulates_exprTy scope rhs).bind fun _ => simulates_ofGen _
  | .unary _ op operand => (simulates_exprTy scope operand).bind fun _ => simulates_ofGen _
  | .conditional _ test consequent alternate =>
    (simulates_exprTy scope test).bind fun _ => (simulates_exprTy scope consequent).bind fun _ =>
      (simulates_exprTy scope alternate).map _
  | .call pos callee args => by
    have hcallee := simulates_exprTy scope callee
    cases callee with
    | field p object method =>
      exact (simulates_ofGen _).bind fun _ => (simulates_exprTy scope object).bind fun _ =>
        (simulates_exprTys scope args).map _
    | _ =>
      exact (simulates_argTys scope args).bind fun _ => (simulates_ofGen _).bind fun _ =>
        hcallee.bind fun _ => simulates_ofGen _
  | .field _ object name => (simulates_exprTy scope object).map _
  | .index _ object key => (simulates_exprTy scope object).bind fun _ => (simulates_exprTy scope key).map _
  | .lambda _ params body =>
    simulates_liftLambda (fun inner => simulates_boundTys inner params) fun inner => simulates_exprTy inner body
  | .block pos body => simulates_blockTy scope pos body
  | .matching _ scrutinee arms =>
    (simulates_ofGen _).bind fun _ => (simulates_ofGen _).bind fun _ =>
      (simulates_exprTy scope scrutinee).bind fun _ => (simulates_armTys scope arms).map _
  | .template _ parts => (simulates_partTys scope parts).map _
  | .object _ properties => (simulates_propertyTys scope properties).map _
  | .mapped _ key union none optional value =>
    (simulates_exprTy scope union).bind fun _ => (simulates_exprTy (scope.bind key) value).map _
  | .mapped _ key union (some renamed) optional value =>
    (simulates_exprTy scope union).bind fun _ => (simulates_exprTy (scope.bind key) renamed).bind fun _ =>
      (simulates_exprTy (scope.bind key) value).map _
  | .tuple _ elements => (simulates_exprTys scope elements).map _
  | .infer pos name none => (simulates_readingAt arity scope pos).bind fun _ => simulates_ofGen _
  | .infer pos name (some bound) =>
    (simulates_readingAt arity scope pos).bind fun _ => (simulates_exprTy scope bound).bind fun _ =>
      simulates_ofGen _
  | .ident _ name => (simulates_ofGen _).map _
  | .number .. | .string .. | .numberType _ | .stringType _ => simulates_pure _

theorem simulates_exprTys (scope : Scope) : ∀ es : List Expr,
    Simulates (exprTys arity scope es) fun mode => Gen.exprTys ⟨scope, mode, arity⟩ es
  | [] => simulates_pure _
  | e :: es => (simulates_exprTy scope e).bind fun _ => (simulates_exprTys scope es).map _

theorem simulates_argTys (scope : Scope) : ∀ es : List Expr,
    Simulates (argTys arity scope es) fun mode => Gen.argTys ⟨scope, mode, arity⟩ es
  | [] => simulates_pure _
  | e :: es =>
    (simulates_ofGen _).bind fun _ => (simulates_exprTy scope e).bind fun _ => (simulates_argTys scope es).map _

theorem simulates_boundTys (scope : Scope) : ∀ params : List Param,
    Simulates (boundTys arity scope params) fun mode => Gen.boundTys ⟨scope, mode, arity⟩ params
  | [] => simulates_pure _
  | .mk _ _ none :: ps => (simulates_boundTys scope ps).map _
  | .mk _ _ (some bound) :: ps => (simulates_exprTy scope bound).bind fun _ => (simulates_boundTys scope ps).map _

theorem simulates_blockTy (scope : Scope) (pos : Position) : ∀ body : List Stmt,
    Simulates (blockTy arity scope pos body) fun mode => Gen.blockTy ⟨scope, mode, arity⟩ pos body
  | [] => simulates_ofGen _
  | [.expr _ value] => simulates_exprTy scope value
  | .expr _ _ :: _ :: _ => simulates_ofGen _
  | .assertEqual .. :: _ => simulates_ofGen _
  | [.letDecl ..] => simulates_ofGen _
  | .letDecl _ name value :: s :: rest =>
    (simulates_exprTy scope value).bind fun _ => (simulates_blockTy (scope.bind name) pos (s :: rest)).map _

theorem simulates_armTys (scope : Scope) : ∀ arms : List Arm,
    Simulates (armTys arity scope arms) fun mode => Gen.armTys ⟨scope, mode, arity⟩ arms
  | [] => simulates_pure _
  | .mk _ pattern result :: as =>
    (simulates_liftArm (fun inner => simulates_exprTy inner pattern) fun inner => simulates_exprTy inner result).bind
      fun _ => (simulates_armTys scope as).map _

theorem simulates_partTys (scope : Scope) : ∀ parts : List Part,
    Simulates (partTys arity scope parts) fun mode => Gen.partTys ⟨scope, mode, arity⟩ parts
  | [] => simulates_pure _
  | .text _ :: ps => (simulates_partTys scope ps).map _
  | .expr value :: ps => (simulates_exprTy scope value).bind fun _ => (simulates_partTys scope ps).map _

theorem simulates_propertyTys (scope : Scope) : ∀ properties : List Property,
    Simulates (propertyTys arity scope properties) fun mode => Gen.propertyTys ⟨scope, mode, arity⟩ properties
  | [] => simulates_pure _
  | .named _ _ _ value :: ps => (simulates_exprTy scope value).bind fun _ => (simulates_propertyTys scope ps).map _
  | .computed _ key _ value :: ps =>
    (simulates_exprTy scope key).bind fun _ => (simulates_exprTy scope value).bind fun _ =>
      (simulates_propertyTys scope ps).map _

end

end

end ModalGen

/-! ## The state behind an expression -/

end TypeForge
