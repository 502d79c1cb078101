import TypeForge.Ast.Nodes
import TypeForge.Proofs.Generate.Runs
import TypeForge.Proofs.Printing.Laws
import TypeForge.Proofs.WellFormed

/-!
# The steps of code generation

Code generation is put together from a few steps on the state.  So what holds of the steps, and of
a sequence if it holds of its parts, holds of the code of every program.  The syntax tree is gone
through here once, for all such properties: for a tree and the same tree without positions at the
same time, with the nodes where a computation may fail, the pattern variables that it adds, and the
condition under which it succeeds if there is room for them.
-/

namespace TypeForge

open TypeScript

namespace Context

/-- The variables of a pattern that generating it here binds: all of them in the binding
reading, none elsewhere. -/
def bound (ctx : Context) (vars : List String) : List String :=
  if ctx.mode = some .binding then vars else []

@[simp] theorem bound_nil (ctx : Context) : ctx.bound [] = [] := by simp [bound]

@[simp] theorem bound_append (ctx : Context) (vars more : List String) :
    ctx.bound (vars ++ more) = ctx.bound vars ++ ctx.bound more := by
  unfold bound
  split <;> rfl

@[simp] theorem bound_bind (ctx : Context) (name : String) (vars : List String) :
    (ctx.bind name).bound vars = ctx.bound vars := rfl

theorem bind_mode (ctx : Context) (name : String) {mode : Option PatternMode}
    (h : ctx.mode = mode) : (ctx.bind name).mode = mode := h

theorem bound_of_mode_eq_none {ctx : Context} (h : ctx.mode = none) (vars : List String) :
    ctx.bound vars = [] := by simp [bound, h]

end Context

namespace Gen

/-- The variables `bound` have room behind `vars`. -/
def HasRoom (vars bound : List String) : Prop :=
  bound = [] ∨ vars.length + bound.length ≤ maxPatternVars

/-- The computations `m` and `m'` are put together from the same steps, except that they may fail
at different positions.  Where `m` fails there is one of the nodes, `m` adds the pattern variables
`bound`, and under the condition `P` it fails only for want of room. -/
inductive Steps (nodes : List Node) :
    {α : Type} → (bound : List String) → (P : Prop) → (m m' : Gen α) → Prop where
  | pure {α : Type} (a : α) : Steps nodes [] True (Pure.pure a) (Pure.pure a)
  | fail {α : Type} {bound : List String} {pos : Position} {kind : NodeKind}
      (h : ⟨pos, kind⟩ ∈ nodes) (pos' : Position) (error : GenError) :
      Steps nodes bound False (Gen.fail pos error : Gen α) (Gen.fail pos' error)
  | bind {α β : Type} {bound more : List String} {P Q : Prop} {m m' : Gen α} {f f' : α → Gen β}
      (hm : Steps nodes bound P m m') (hf : ∀ a, Steps nodes more Q (f a) (f' a)) :
      Steps nodes (bound ++ more) (P ∧ Q) (m >>= f) (m' >>= f')
  | freshId : Steps nodes [] True freshId freshId
  | require (symbol : Symbol) : Steps nodes [] True (require symbol) (require symbol)
  | patternVars : Steps nodes [] True patternVars patternVars
  /-- A pattern variable is noted. -/
  | patternVar {pos : Position} {kind : NodeKind} (h : ⟨pos, kind⟩ ∈ nodes) (pos' : Position)
      (name : String) (limit : Option Ty) :
      Steps nodes [name] True (patternVar .binding pos name limit) (patternVar .binding pos' name limit)
  | withPatternVars {α : Type} {bound : List String} {P : Prop} {m m' : Gen α} (vars : List String)
      (hm : Steps nodes bound P m m') :
      Steps nodes [] (P ∧ HasRoom vars bound) (withPatternVars vars m) (withPatternVars vars m')
  /-- A function is lifted under a fresh name. -/
  | lift {α : Type} {bound : List String} {P : Prop} {make : Nat → Name}
      (hmake : ∀ id, make id = .lambda id ∨ make id = .arm id) (body : Ty) {f f' : Nat → Gen α}
      (hf : ∀ id, Steps nodes bound P (f id) (f' id)) :
      Steps nodes bound P (freshId >>= fun id => addLifted (make id) body >>= fun _ => f id)
        (freshId >>= fun id => addLifted (make id) body >>= fun _ => f' id)

variable {α β : Type} {nodes : List Node} {bound : List String} {P Q : Prop} {m m' : Gen α}
  {f f' : α → Gen β}

theorem Steps.congr (hm : Steps nodes bound P m m') (h : P ↔ Q) : Steps nodes bound Q m m' :=
  propext h ▸ hm

/-- A computation in front that adds nothing and cannot fail. -/
theorem Steps.before (hm : Steps nodes [] True m m') (hf : ∀ a, Steps nodes bound P (f a) (f' a)) :
    Steps nodes bound P (m >>= f) (m' >>= f') :=
  (hm.bind hf).congr (and_iff_right trivial)

/-- A computation behind that adds nothing. -/
theorem Steps.bind_silent (hm : Steps nodes bound P m m') (hf : ∀ a, Steps nodes [] Q (f a) (f' a)) :
    Steps nodes bound (P ∧ Q) (m >>= f) (m' >>= f') := by
  have h := hm.bind hf
  rwa [List.append_nil] at h

/-- A computation behind that adds nothing and cannot fail. -/
theorem Steps.andThen (hm : Steps nodes bound P m m') (hf : ∀ a, Steps nodes [] True (f a) (f' a)) :
    Steps nodes bound P (m >>= f) (m' >>= f') :=
  (hm.bind_silent hf).congr (and_iff_left trivial)

theorem Steps.map (hm : Steps nodes bound P m m') (g : α → β) :
    Steps nodes bound P (do return g (← m)) (do return g (← m')) :=
  hm.andThen fun a => .pure (g a)

theorem Plain.steps {m : Gen α} (hm : Plain m) : Steps nodes [] True m m := by
  induction hm with
  | pure a => exact .pure a
  | bind _ _ hm hf => exact hm.before hf
  | freshId => exact .freshId
  | require symbol => exact .require symbol

/-! ## The constructs -/

theorem steps_methodSymbol {pos : Position} {kind : NodeKind} (h : ⟨pos, kind⟩ ∈ nodes)
    (pos' : Position) (name : String) :
    Steps nodes [] ((method? name).isSome = true) (methodSymbol pos name)
      (methodSymbol pos' name) := by
  unfold methodSymbol
  cases method? name with
  | none => exact (Steps.fail h _ _).congr (by simp)
  | some symbol => exact ((Steps.require symbol).map _).congr (by simp)

theorem knownArity_unlocated (ctx : Context) (vars : List String) (callee : Expr) :
    knownArity ctx vars callee.unlocated = knownArity ctx vars callee := by
  cases callee <;> simp [knownArity, unlocatedParams_eq_map]

theorem map_name_unlocatedParams (params : List Param) :
    (unlocatedParams params).map Param.name = params.map Param.name := by
  rw [unlocatedParams_eq_map, List.map_map]
  exact List.map_congr_left fun p _ => by cases p; rfl

theorem all_isNone_unlocatedParams (params : List Param) :
    (unlocatedParams params).all (·.bound.isNone) = params.all (·.bound.isNone) := by
  rw [unlocatedParams_eq_map, List.all_map]
  congr 1
  funext p
  obtain ⟨pos, name, bound⟩ := p
  cases bound <;> rfl

/-- Bounds that are not generated ask for nothing. -/
theorem steps_guarded {params : List Param} {bounds bounds' : Gen (List Ty)} {body body' : Gen Ty}
    (hbounds : Steps nodes [] P bounds bounds') (hbody : Steps nodes [] Q body body')
    (hnone : params.all (·.bound.isNone) = true → P) :
    Steps nodes [] (P ∧ Q) (guarded params bounds body)
      (guarded (unlocatedParams params) bounds' body') := by
  unfold guarded
  rw [all_isNone_unlocatedParams, unlocatedParams_eq_map, List.length_map]
  split
  · next h => exact hbody.congr (and_iff_right (hnone h)).symm
  · exact hbounds.bind fun _ => hbody.map _

theorem steps_liftLambda (ctx : Context) {params : List Param}
    {bounds bounds' : Context → Gen (List Ty)} {body body' : Context → Gen Ty}
    (hbounds : ∀ inner : Context, inner.mode = none → Steps nodes [] P (bounds inner) (bounds' inner))
    (hbody : ∀ inner : Context, inner.mode = none → Steps nodes [] Q (body inner) (body' inner))
    (hnone : params.all (·.bound.isNone) = true → P) :
    Steps nodes [] (P ∧ Q) (liftLambda ctx params bounds body)
      (liftLambda ctx (unlocatedParams params) bounds' body') := by
  unfold liftLambda
  rw [map_name_unlocatedParams]
  refine (Steps.require _).before fun _ => (Steps.require _).before fun _ =>
    Steps.patternVars.before fun vars => ?_
  let inner := ctx.inside (ctx.scope.captures vars (params.map Param.name)) (params.map Param.name)
    none
  have hcode := (steps_guarded (hbounds inner rfl) (hbody inner rfl) hnone).withPatternVars []
  refine (hcode.congr (and_iff_left (.inl rfl))).andThen fun _ => ?_
  exact .lift (fun _ => .inl rfl) _ fun _ => .pure _

/-- The pattern of an arm is read twice, and its variables have to fit into an arm of their
own. -/
theorem steps_liftArm (ctx : Context) {pattern pattern' result result' : Context → Gen Ty}
    {vars : List String}
    (hpattern : ∀ inner : Context, inner.mode.isSome = true →
      Steps nodes (inner.bound vars) P (pattern inner) (pattern' inner))
    (hresult : ∀ inner : Context, inner.mode = none →
      Steps nodes [] Q (result inner) (result' inner)) :
    Steps nodes [] ((vars.length ≤ maxPatternVars ∧ P) ∧ Q) (liftArm ctx pattern result)
      (liftArm ctx pattern' result') := by
  have hshape : (ctx.reading .shape).bound vars = [] := by simp [Context.bound, Context.reading]
  have hbinding (captures : List String) :
      (ctx.inside captures [] (some .binding)).bound vars = vars := by
    simp [Context.bound, Context.inside]
  refine (Steps.require _).before fun _ => (Steps.require _).before fun _ =>
    Steps.patternVars.before fun outer => ?_
  have hsite := (hpattern (ctx.reading .shape) rfl).withPatternVars outer
  have hpair := ((hpattern (ctx.inside (ctx.scope.captures outer []) [] (some .binding)) rfl).bind_silent
    fun binder => (hresult (ctx.inside (ctx.scope.captures outer []) [] none) rfl).map
      (binder, ·)).withPatternVars []
  refine (hsite.bind fun site => hpair.andThen fun pair => ?_).congr ?_
  · exact .lift (fun _ => .inr rfl) _ fun _ => .pure _
  · simp only [hshape, hbinding, HasRoom, List.length_nil, Nat.zero_add]
    have hnil : vars = [] → vars.length ≤ maxPatternVars := by rintro rfl; exact Nat.zero_le _
    grind

theorem steps_patternVar {ctx : Context} {mode : PatternMode} (h : ctx.mode = some mode)
    {pos : Position} {kind : NodeKind} (hpos : ⟨pos, kind⟩ ∈ nodes) (pos' : Position) (name : String)
    (limit : Option Ty) :
    Steps nodes (ctx.bound [name]) True (patternVar mode pos name limit)
      (patternVar mode pos' name limit) := by
  unfold Context.bound
  cases mode with
  | shape =>
    rw [if_neg (by simp [h])]
    exact .pure _
  | binding =>
    rw [if_pos h]
    exact .patternVar hpos _ _ _

/-- Behind the question for the reading of a pattern there is one. -/
theorem steps_readingAt_bind {ctx : Context} {pos : Position} {kind : NodeKind}
    (hpos : ⟨pos, kind⟩ ∈ nodes) (pos' : Position) {f f' : PatternMode → Gen α}
    (hf : ∀ mode, ctx.mode = some mode → Steps nodes bound P (f mode) (f' mode)) :
    Steps nodes bound (ctx.mode.isSome = true ∧ P) (readingAt ctx pos >>= f)
      (readingAt ctx pos' >>= f') := by
  unfold readingAt
  cases hmode : ctx.mode with
  | none => exact (Steps.fail hpos pos' _).congr (by simp)
  | some mode => exact (hf mode hmode).congr (by simp)

/-! ## Expressions -/

mutual

/-- **The code of an expression is put together from steps**, and so is the code of the expression
without positions.  It fails for want of room, or if an expression in it is not what it has to be. -/
theorem steps_exprTy (ctx : Context) : ∀ e : Expr, e.nodes ⊆ nodes →
    Steps nodes (ctx.bound e.patternVars) (AllSound (e.places ctx.mode.isSome)) (exprTy ctx e)
      (exprTy ctx e.unlocated)
  | .assignment .., h => by
    rw [Expr.nodes, List.cons_subset] at h
    rw [Expr.unlocated, exprTy, exprTy]
    exact (Steps.fail h.1 _ _).congr (by simp [Expr.places, Place.Sound])
  | .binary _ op lhs rhs, h => by
    rw [Expr.nodes, List.cons_subset, List.append_subset] at h
    rw [Expr.unlocated, exprTy, exprTy, Expr.patternVars, ctx.bound_append]
    refine ((steps_exprTy ctx lhs h.2.1).bind fun _ => (steps_exprTy ctx rhs h.2.2).andThen fun _ =>
      (plain_binary _ _ _).steps).congr ?_
    simp [Expr.places, Place.Sound]
  | .logical _ op lhs rhs, h => by
    rw [Expr.nodes, List.cons_subset, List.append_subset] at h
    rw [Expr.unlocated, exprTy, exprTy, Expr.patternVars, ctx.bound_append]
    refine ((steps_exprTy ctx lhs h.2.1).bind fun _ => (steps_exprTy ctx rhs h.2.2).andThen fun _ =>
      (plain_combine _ _).steps).congr ?_
    simp [Expr.places, Place.Sound]
  | .unary _ op operand, h => by
    rw [Expr.nodes, List.cons_subset] at h
    rw [Expr.unlocated, exprTy, exprTy, Expr.patternVars]
    refine ((steps_exprTy ctx operand h.2).andThen fun _ => (plain_unary _ _).steps).congr ?_
    simp [Expr.places, Place.Sound]
  | .conditional _ test consequent alternate, h => by
    rw [Expr.nodes, List.cons_subset, List.append_subset, List.append_subset] at h
    rw [Expr.unlocated, exprTy, exprTy, Expr.patternVars, ctx.bound_append, ctx.bound_append]
    refine ((steps_exprTy ctx test h.2.1.1).bind fun _ => (steps_exprTy ctx consequent h.2.1.2).bind
      fun _ => (steps_exprTy ctx alternate h.2.2).map _).congr ?_
    simp [Expr.places, Place.Sound]
  | .call pos callee args, h => by
    rw [Expr.nodes, List.cons_subset, List.append_subset] at h
    have hcallee := steps_exprTy ctx callee h.2.1
    have hargs := steps_argTys ctx args h.2.2
    have harity := fun vars => knownArity_unlocated ctx vars callee
    cases callee with
    | field p object method =>
      rw [Expr.nodes, List.cons_subset] at h
      rw [Expr.unlocated, Expr.unlocated, exprTy, exprTy, Expr.patternVars, ctx.bound_append]
      refine ((steps_methodSymbol h.1 _ _).bind fun _ => (steps_exprTy ctx object h.2.1.2).bind
        fun _ => (steps_exprTys ctx args h.2.2).map _).congr ?_
      simp [Expr.places, Place.Sound]
    | _ =>
      rw [Expr.patternVars_call _ _ (by simp), ctx.bound_append]
      refine (hargs.bind fun _ => Steps.patternVars.before fun vars => ?_).congr
        (by rw [Expr.places, allSound_cons, allSound_append, and_iff_right (Place.sound_call (by simp)),
          and_comm])
      rw [← harity]
      exact hcallee.andThen fun _ => (plain_applyCall _ _ _).steps
  | .field _ object name, h => by
    rw [Expr.nodes, List.cons_subset] at h
    rw [Expr.unlocated, exprTy, exprTy, Expr.patternVars]
    exact ((steps_exprTy ctx object h.2).map _).congr (by simp [Expr.places, Place.Sound])
  | .index _ object key, h => by
    rw [Expr.nodes, List.cons_subset, List.append_subset] at h
    rw [Expr.unlocated, exprTy, exprTy, Expr.patternVars, ctx.bound_append]
    refine ((steps_exprTy ctx object h.2.1).bind fun _ => (steps_exprTy ctx key h.2.2).map _).congr ?_
    simp [Expr.places, Place.Sound]
  | .lambda _ params body, h => by
    rw [Expr.nodes, List.cons_subset, List.append_subset] at h
    rw [Expr.unlocated, exprTy, exprTy, Expr.patternVars, ctx.bound_nil]
    have hbody (inner : Context) (hinner : inner.mode = none) :
        Steps nodes [] (AllSound (body.places false)) (exprTy inner body)
          (exprTy inner body.unlocated) := by
      have hbody := steps_exprTy inner body h.2.2
      rwa [Context.bound_of_mode_eq_none hinner, hinner] at hbody
    refine (steps_liftLambda ctx (fun inner hinner => steps_boundTys hinner params h.2.1) hbody
      fun hnone => by simp [placesOfBounds_eq_nil hnone]).congr ?_
    simp [Expr.places, Place.Sound]
  | .block pos body, h => by
    rw [Expr.nodes, List.cons_subset] at h
    rw [Expr.unlocated, exprTy, exprTy, Expr.patternVars]
    exact (steps_blockTy ctx h.1 body h.2).congr (by simp [Expr.places, Place.Sound])
  | .matching _ scrutinee arms, h => by
    rw [Expr.nodes, List.cons_subset, List.append_subset] at h
    rw [Expr.unlocated, exprTy, exprTy, Expr.patternVars]
    refine ((Steps.require _).before fun _ => (Steps.require _).before fun _ =>
      (steps_exprTy ctx scrutinee h.2.1).bind_silent fun _ =>
        (steps_armTys ctx arms h.2.2).map _).congr ?_
    rw [Expr.places, allSound_cons, allSound_append]
    exact and_left_comm
  | .template _ parts, h => by
    rw [Expr.nodes, List.cons_subset] at h
    rw [Expr.unlocated, exprTy, exprTy, Expr.patternVars]
    exact ((steps_partTys ctx parts h.2).map _).congr (by simp [Expr.places, Place.Sound])
  | .object _ properties, h => by
    rw [Expr.nodes, List.cons_subset] at h
    rw [Expr.unlocated, exprTy, exprTy, Expr.patternVars]
    exact ((steps_propertyTys ctx properties h.2).map _).congr (by simp [Expr.places, Place.Sound])
  | .mapped _ key union none optional value, h => by
    rw [Expr.nodes, List.cons_subset, List.append_subset] at h
    rw [Expr.unlocated, unlocatedOption, exprTy, exprTy, Expr.patternVars, ctx.bound_append]
    refine ((steps_exprTy ctx union h.2.1).bind fun _ =>
      (steps_exprTy (ctx.bind key) value h.2.2).map _).congr ?_
    simp [Expr.places, Place.Sound, Context.bind]
  | .mapped _ key union (some renamed) optional value, h => by
    rw [Expr.nodes, List.cons_subset, List.append_subset, List.append_subset] at h
    rw [Expr.unlocated, unlocatedOption, exprTy, exprTy, Expr.patternVars, ctx.bound_append,
      ctx.bound_append]
    refine ((steps_exprTy ctx union h.2.1.1).bind fun _ =>
      (steps_exprTy (ctx.bind key) renamed h.2.1.2).bind fun _ =>
        (steps_exprTy (ctx.bind key) value h.2.2).map _).congr ?_
    simp [Expr.places, Place.Sound, Context.bind]
  | .tuple _ elements, h => by
    rw [Expr.nodes, List.cons_subset] at h
    rw [Expr.unlocated, exprTy, exprTy, Expr.patternVars]
    exact ((steps_exprTys ctx elements h.2).map _).congr (by simp [Expr.places, Place.Sound])
  | .infer pos name none, h => by
    rw [Expr.nodes, List.cons_subset] at h
    rw [Expr.unlocated, unlocatedOption, exprTy, exprTy, Expr.patternVars]
    refine (steps_readingAt_bind h.1 _ fun _ hmode => steps_patternVar hmode h.1 _ _ _).congr ?_
    simp [Expr.places, Place.Sound]
  | .infer pos name (some bound), h => by
    rw [Expr.nodes, List.cons_subset] at h
    rw [Expr.unlocated, unlocatedOption, exprTy, exprTy, Expr.patternVars, ctx.bound_append]
    refine (steps_readingAt_bind h.1 _ fun _ hmode => (steps_exprTy ctx bound h.2).bind fun _ =>
      steps_patternVar hmode h.1 _ _ _).congr ?_
    simp [Expr.places, Place.Sound]
  | .ident _ name, _ => by
    rw [Expr.unlocated, exprTy, exprTy, Expr.patternVars, ctx.bound_nil]
    exact (Steps.patternVars.map _).congr (by simp [Expr.places, Place.Sound])
  | .number .., _ | .string .., _ | .numberType _, _ | .stringType _, _ => by
    rw [Expr.unlocated, exprTy, exprTy, Expr.patternVars, ctx.bound_nil]
    exact (Steps.pure _).congr (by simp [Expr.places, Place.Sound])

theorem steps_exprTys (ctx : Context) : ∀ es : List Expr, exprNodes es ⊆ nodes →
    Steps nodes (ctx.bound (patternVarsOfExprs es)) (AllSound (placesOfExprs ctx.mode.isSome es))
      (exprTys ctx es) (exprTys ctx (unlocatedExprs es))
  | [], _ => by
    rw [unlocatedExprs, exprTys, patternVarsOfExprs, ctx.bound_nil]
    exact (Steps.pure _).congr (by simp [placesOfExprs])
  | e :: es, h => by
    rw [exprNodes, List.append_subset] at h
    rw [unlocatedExprs, exprTys, exprTys, patternVarsOfExprs, ctx.bound_append]
    refine ((steps_exprTy ctx e h.1).bind fun _ => (steps_exprTys ctx es h.2).map _).congr ?_
    simp [placesOfExprs]

theorem steps_argTys (ctx : Context) : ∀ es : List Expr, exprNodes es ⊆ nodes →
    Steps nodes (ctx.bound (patternVarsOfExprs es)) (AllSound (placesOfExprs ctx.mode.isSome es))
      (argTys ctx es) (argTys ctx (unlocatedExprs es))
  | [], _ => by
    rw [unlocatedExprs, argTys, patternVarsOfExprs, ctx.bound_nil]
    exact (Steps.pure _).congr (by simp [placesOfExprs])
  | e :: es, h => by
    rw [exprNodes, List.append_subset] at h
    rw [unlocatedExprs, argTys, argTys, patternVarsOfExprs, ctx.bound_append]
    refine (Steps.freshId.before fun _ => (steps_exprTy ctx e h.1).bind fun _ =>
      (steps_argTys ctx es h.2).map _).congr ?_
    simp [placesOfExprs]

theorem steps_boundTys {ctx : Context} (hmode : ctx.mode = none) : ∀ params : List Param,
    paramNodes params ⊆ nodes →
    Steps nodes [] (AllSound (placesOfBounds params)) (boundTys ctx params)
      (boundTys ctx (unlocatedParams params))
  | [], _ => by
    rw [unlocatedParams, boundTys]
    exact (Steps.pure _).congr (by simp [placesOfBounds])
  | .mk _ _ none :: ps, h => by
    rw [paramNodes, List.cons_subset] at h
    rw [unlocatedParams, Param.unlocated, unlocatedOption, boundTys, boundTys, placesOfBounds]
    exact (steps_boundTys hmode ps h.2).map _
  | .mk _ _ (some bound) :: ps, h => by
    rw [paramNodes, List.cons_subset, List.append_subset] at h
    rw [unlocatedParams, Param.unlocated, unlocatedOption, boundTys, boundTys]
    have hbound := steps_exprTy ctx bound h.2.1
    rw [Context.bound_of_mode_eq_none hmode, hmode] at hbound
    refine (hbound.bind fun _ => (steps_boundTys hmode ps h.2.2).map _).congr ?_
    simp [placesOfBounds]

theorem steps_blockTy (ctx : Context) {pos : Position} {kind : NodeKind}
    (hpos : ⟨pos, kind⟩ ∈ nodes) : ∀ body : List Stmt, stmtNodes body ⊆ nodes →
    Steps nodes (ctx.bound (patternVarsOfStmts body))
      (EndsInResult body ∧ AllSound (placesOfStmts ctx.mode.isSome body)) (blockTy ctx pos body)
      (blockTy ctx .start (unlocatedStmts body))
  | [], _ => by
    rw [unlocatedStmts, blockTy, blockTy]
    exact (Steps.fail hpos _ _).congr (by simp [EndsInResult])
  | [.expr _ value], h => by
    rw [stmtNodes, List.cons_subset, List.append_subset] at h
    rw [unlocatedStmts, unlocatedStmts, Stmt.unlocated, blockTy, blockTy, patternVarsOfStmts,
      patternVarsOfStmts, List.append_nil]
    refine (steps_exprTy ctx value h.2.1).congr ?_
    simp [EndsInResult, Stmt.isExpr, placesOfStmts]
  | .expr p _ :: s :: rest, h => by
    rw [stmtNodes, List.cons_subset] at h
    rw [unlocatedStmts, unlocatedStmts, Stmt.unlocated, blockTy, blockTy]
    · exact (Steps.fail h.1 _ _).congr (by simp [EndsInResult, Stmt.isLet])
    · simp
    · simp
  | .assertEqual p _ _ :: rest, h => by
    rw [stmtNodes, List.cons_subset] at h
    rw [unlocatedStmts, Stmt.unlocated, blockTy, blockTy]
    refine (Steps.fail h.1 _ _).congr ?_
    cases rest <;> simp [EndsInResult, Stmt.isLet, Stmt.isExpr]
  | [.letDecl p _ _], h => by
    rw [stmtNodes, List.cons_subset] at h
    rw [unlocatedStmts, unlocatedStmts, Stmt.unlocated, blockTy, blockTy]
    exact (Steps.fail h.1 _ _).congr (by simp [EndsInResult, Stmt.isExpr])
  | .letDecl _ name value :: s :: rest, h => by
    rw [stmtNodes, List.cons_subset, List.append_subset] at h
    have hrest := steps_blockTy (ctx.bind name) hpos (s :: rest) h.2.2
    rw [unlocatedStmts, Stmt.unlocated, blockTy, blockTy, patternVarsOfStmts, ctx.bound_append]
    · refine ((steps_exprTy ctx value h.2.1).bind fun _ => hrest.map _).congr ?_
      rw [placesOfStmts, allSound_append, endsInResult_letDecl]
      exact and_left_comm
    · simp
    · simp

theorem steps_armTys (ctx : Context) : ∀ arms : List Arm, armNodes arms ⊆ nodes →
    Steps nodes [] ((∀ arm ∈ arms, arm.pattern.patternVars.length ≤ maxPatternVars) ∧
      AllSound (placesOfArms arms)) (armTys ctx arms) (armTys ctx (unlocatedArms arms))
  | [], _ => by
    rw [unlocatedArms, armTys]
    exact (Steps.pure _).congr (by simp [placesOfArms])
  | .mk _ pattern result :: as, h => by
    rw [armNodes, List.cons_subset, List.append_subset, List.append_subset] at h
    rw [unlocatedArms, Arm.unlocated, armTys, armTys]
    have harm : Steps nodes [] ((pattern.patternVars.length ≤ maxPatternVars ∧
        AllSound (pattern.places true)) ∧ AllSound (result.places false))
        (liftArm ctx (exprTy · pattern) (exprTy · result))
        (liftArm ctx (exprTy · pattern.unlocated) (exprTy · result.unlocated)) := by
      refine steps_liftArm ctx (fun inner hinner => ?_) fun inner hinner => ?_
      · have hpattern := steps_exprTy inner pattern h.2.1.1
        rwa [hinner] at hpattern
      · have hresult := steps_exprTy inner result h.2.1.2
        rwa [Context.bound_of_mode_eq_none hinner, hinner] at hresult
    refine (harm.bind fun _ => (steps_armTys ctx as h.2.2).map _).congr ?_
    simp only [placesOfArms, allSound_append, List.forall_mem_cons, Arm.pattern]
    grind

theorem steps_partTys (ctx : Context) : ∀ parts : List Part, partNodes parts ⊆ nodes →
    Steps nodes (ctx.bound (patternVarsOfParts parts))
      (AllSound (placesOfParts ctx.mode.isSome parts)) (partTys ctx parts)
      (partTys ctx (unlocatedParts parts))
  | [], _ => by
    rw [unlocatedParts, partTys, patternVarsOfParts, ctx.bound_nil]
    exact (Steps.pure _).congr (by simp [placesOfParts])
  | .text _ :: ps, h => by
    rw [partNodes] at h
    rw [unlocatedParts, partTys, partTys, patternVarsOfParts, placesOfParts]
    exact (steps_partTys ctx ps h).map _
  | .expr value :: ps, h => by
    rw [partNodes, List.append_subset] at h
    rw [unlocatedParts, partTys, partTys, patternVarsOfParts, ctx.bound_append]
    refine ((steps_exprTy ctx value h.1).bind fun _ => (steps_partTys ctx ps h.2).map _).congr ?_
    simp [placesOfParts]

theorem steps_propertyTys (ctx : Context) : ∀ properties : List Property,
    propertyNodes properties ⊆ nodes →
    Steps nodes (ctx.bound (patternVarsOfProperties properties))
      (AllSound (placesOfProperties ctx.mode.isSome properties)) (propertyTys ctx properties)
      (propertyTys ctx (unlocatedProperties properties))
  | [], _ => by
    rw [unlocatedProperties, propertyTys, patternVarsOfProperties, ctx.bound_nil]
    exact (Steps.pure _).congr (by simp [placesOfProperties])
  | .named _ _ _ value :: ps, h => by
    rw [propertyNodes, List.cons_subset, List.append_subset] at h
    rw [unlocatedProperties, Property.unlocated, propertyTys, propertyTys, patternVarsOfProperties,
      ctx.bound_append]
    refine ((steps_exprTy ctx value h.2.1).bind fun _ => (steps_propertyTys ctx ps h.2.2).map _).congr ?_
    simp [placesOfProperties]
  | .computed _ key _ value :: ps, h => by
    rw [propertyNodes, List.cons_subset, List.append_subset, List.append_subset] at h
    rw [unlocatedProperties, Property.unlocated, propertyTys, propertyTys, patternVarsOfProperties,
      ctx.bound_append, ctx.bound_append]
    refine ((steps_exprTy ctx key h.2.1.1).bind fun _ => (steps_exprTy ctx value h.2.1.2).bind fun _ =>
      (steps_propertyTys ctx ps h.2.2).map _).congr ?_
    simp [placesOfProperties]

end

/-! ## Programs -/

variable {ctx : Context}

/-- Outside of patterns, expressions add no pattern variables. -/
theorem steps_exprTy_of_mode_eq_none (hmode : ctx.mode = none) (e : Expr) (h : e.nodes ⊆ nodes) :
    Steps nodes [] (AllSound (e.places false)) (exprTy ctx e) (exprTy ctx e.unlocated) := by
  have he := steps_exprTy ctx e h
  rwa [Context.bound_of_mode_eq_none hmode, hmode] at he

theorem steps_exprTy_of_mode_isSome (hmode : ctx.mode.isSome = true) (e : Expr) (h : e.nodes ⊆ nodes) :
    Steps nodes (ctx.bound e.patternVars) (AllSound (e.places true)) (exprTy ctx e)
      (exprTy ctx e.unlocated) := by
  have he := steps_exprTy ctx e h
  rwa [hmode] at he

theorem steps_definitionTy (hmode : ctx.mode = none) (d : Definition) (pos : Position)
    (hparams : paramNodes d.params ⊆ nodes) (hbody : d.body.nodes ⊆ nodes) :
    Steps nodes [] (AllSound (placesOfBounds d.params ++ d.body.places false)) (definitionTy ctx d)
      (definitionTy ctx ⟨pos, d.isExported, d.name, unlocatedParams d.params, d.body.unlocated⟩) := by
  have hempty : (unlocatedParams d.params).isEmpty = d.params.isEmpty := by
    rw [unlocatedParams_eq_map, List.isEmpty_map]
  unfold definitionTy
  rw [hempty]
  split
  · next h =>
    rw [List.isEmpty_iff.1 h]
    exact steps_exprTy_of_mode_eq_none hmode d.body hbody
  · refine (steps_liftLambda ctx (fun inner hinner => steps_boundTys hinner d.params hparams)
      (fun inner hinner => steps_exprTy_of_mode_eq_none hinner d.body hbody)
      fun hnone => by simp [placesOfBounds_eq_nil hnone]).congr ?_
    rw [allSound_append]

theorem steps_sectionStmt (hmode : ctx.mode = none) (stmt : Stmt) (h : stmtNodes [stmt] ⊆ nodes) :
    Steps nodes [] (AllSound (placesOfStmts false [stmt])) (sectionStmt ctx stmt)
      (sectionStmt ctx stmt.unlocated) := by
  cases stmt with
  | letDecl _ name value =>
    rw [stmtNodes, List.cons_subset, List.append_subset] at h
    refine ((steps_exprTy_of_mode_eq_none hmode value h.2.1).map _).congr ?_
    simp [placesOfStmts]
  | assertEqual _ left right =>
    rw [stmtNodes, List.cons_subset, List.append_subset, List.append_subset] at h
    refine Steps.congr ((Steps.require _).before fun _ => (Steps.require _).before fun _ =>
      (Steps.require _).before fun _ => (steps_exprTy_of_mode_eq_none hmode left h.2.1.1).bind fun _ =>
        (steps_exprTy_of_mode_eq_none hmode right h.2.1.2).andThen fun _ => Steps.freshId.map _) ?_
    simp [placesOfStmts]
  | expr _ value =>
    rw [stmtNodes, List.cons_subset, List.append_subset] at h
    refine ((steps_exprTy_of_mode_eq_none hmode value h.2.1).andThen fun _ =>
      Steps.freshId.map _).congr ?_
    simp [placesOfStmts]

theorem steps_sectionStmts (hmode : ctx.mode = none) (body : List Stmt) (h : stmtNodes body ⊆ nodes) :
    Steps nodes [] (AllSound (placesOfStmts false body)) (sectionStmts ctx body)
      (sectionStmts ctx (unlocatedStmts body)) := by
  induction body with
  | nil => exact (Steps.pure _).congr (by simp [placesOfStmts])
  | cons stmt stmts ih =>
    have hnodes : stmtNodes (stmt :: stmts) = stmtNodes [stmt] ++ stmtNodes stmts := by
      cases stmt <;> simp [stmtNodes]
    have hplaces : placesOfStmts false (stmt :: stmts) =
        placesOfStmts false [stmt] ++ placesOfStmts false stmts := by
      cases stmt <;> simp [placesOfStmts]
    rw [hnodes, List.append_subset] at h
    rw [hplaces]
    exact ((steps_sectionStmt hmode stmt h.1).bind fun _ => (ih h.2).map _).congr allSound_append.symm

theorem steps_topLevel (hmode : ctx.mode = none) (item : TopLevel) (h : item.nodes ⊆ nodes) :
    Steps nodes [] (AllSound item.places) (topLevel ctx item) (topLevel ctx item.unlocated) := by
  cases item with
  | definition d =>
    rw [TopLevel.nodes, List.cons_subset, List.append_subset] at h
    exact (steps_definitionTy hmode d .start h.2.1 h.2.2).map _
  | sectionOf s =>
    rw [TopLevel.nodes, List.cons_subset] at h
    exact (steps_sectionStmts hmode s.body h.2).map _
  | importOf i => exact (Steps.pure _).congr (by simp [TopLevel.places])

/-- **The code of a program is put together from steps.** -/
theorem steps_topLevels (hmode : ctx.mode = none) (items : List TopLevel)
    (h : items.flatMap TopLevel.nodes ⊆ nodes) :
    Steps nodes [] (AllSound (items.flatMap TopLevel.places)) (topLevels ctx items)
      (topLevels ctx (items.map TopLevel.unlocated)) := by
  induction items with
  | nil => exact (Steps.pure _).congr (by simp)
  | cons item items ih =>
    rw [List.flatMap_cons, List.append_subset] at h
    rw [List.flatMap_cons]
    exact ((steps_topLevel hmode item h.1).bind fun _ => (ih h.2).map _).congr allSound_append.symm

end Gen

end TypeForge
