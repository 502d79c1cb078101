import TypeForge.Proofs.Generate.Frame
import TypeForge.Proofs.Scoping.Target

/-!
# The names that generated patterns bind

The binding reading of a pattern becomes the pattern of a conditional type, and the names
that it binds there are the variables of the pattern.  Names made up on the way are bound
by conditional types of their own and do not get out.  Outside of the binding reading,
generated code binds no names around itself.
-/

namespace TypeForge.Gen

open TypeScript

/-- The names `names` are the variables `vars`. -/
def Infers (names : List Name) (vars : List String) : Prop :=
  ∀ name, name ∈ names ↔ name ∈ vars.map Name.user

theorem infers_nil : Infers [] [] := fun _ => Iff.rfl

theorem Infers.append {names more : List Name} {vars others : List String}
    (h : Infers names vars) (h' : Infers more others) :
    Infers (names ++ more) (vars ++ others) := by
  intro name
  rw [List.mem_append, h name, h' name, List.map_append, List.mem_append]

theorem Infers.congr {names more : List Name} {vars : List String} (h : Infers names vars)
    (hmem : ∀ name, name ∈ more ↔ name ∈ names) : Infers more vars :=
  fun name => (hmem name).trans (h name)

theorem Infers.eq_nil {names : List Name} (h : Infers names []) : names = [] :=
  List.eq_nil_iff_forall_not_mem.2 fun name hname => List.not_mem_nil ((h name).1 hname)

/-! ## The constructs -/

variable {name : Name}

theorem inferredOfTys_map_eq_nil {α : Type} {f : α → Ty} (h : ∀ a, (f a).inferred = [])
    (as : List α) : inferredOfTys (as.map f) = [] := by
  induction as with
  | nil => rfl
  | cons a as ih => rw [List.map_cons, inferredOfTys, h, ih, List.append_nil]

theorem inferredOfTys_temps (ids : List Nat) :
    inferredOfTys (ids.map fun id => .name (.temp id)) = [] :=
  inferredOfTys_map_eq_nil (fun _ => by rw [Ty.inferred]) ids

theorem inferred_reference (vars : List String) (scope : Scope) (name : String) :
    (reference vars scope name).inferred = [] := by
  unfold reference
  split
  · rw [Ty.inferred]
  · split <;> rw [Ty.inferred]

theorem inferred_closure (name : Name) (vars : List String) (scope : Scope) (names : List String) :
    (Ty.closure name (names.map (reference vars scope))).inferred = [] := by
  simp [Ty.closure, Ty.applied, Ty.ofSymbol, Ty.inferred, inferredOfTys,
    inferredOfTys_map_eq_nil (inferred_reference vars scope)]

theorem inferred_combinatorResult (c : Combinator) (ids : List Nat) :
    (combinatorResult c ids).inferred = [] := by
  have hcall : (combinatorCall c (ids.map fun id => .name (.temp id))).inferred = [] := by
    unfold combinatorCall
    split <;> simp [Ty.inferred, inferredOfTys, Ty.applied, Ty.ofSymbol, inferredOfTys_temps]
  unfold combinatorResult
  split
  · simp [truthOfBit, Ty.inferred, hcall]
  · exact hcall

theorem inferred_bindOperands (bound : Option Ty) (body : Ty) (operands : List (Nat × Ty)) :
    (bindOperands bound operands body).inferred =
      inferredOfTys (operands.map Prod.snd) ++ body.inferred := by
  induction operands with
  | nil => simp [bindOperands, Ty.inferred, inferredOfTys]
  | cons operand operands ih =>
    obtain ⟨id, operand⟩ := operand
    simp [bindOperands, Ty.bind, Ty.inferred, Ty.never, inferredOfTys, ih]

theorem inferred_bindArgs (body : Ty) (args : List (Nat × Ty)) :
    (bindArgs args body).inferred = inferredOfTys (args.map Prod.snd) ++ body.inferred := by
  induction args with
  | nil => simp [bindArgs, inferredOfTys]
  | cons arg args ih =>
    obtain ⟨id, arg⟩ := arg
    simp [bindArgs, Ty.bindExactly, Ty.bind, Ty.inferred, Ty.never, inferredOfTys, ih]

/-- A combinator binds what its operands bind. -/
theorem inferred_combine (c : Combinator) (operands : List Ty) :
    Returns (fun t => t.inferred = inferredOfTys operands) (combine c operands) := by
  refine (returns_combine c operands).imp ?_
  rintro _ ⟨ids, hids, rfl⟩
  rw [Ty.inferred, inferred_bindOperands, inferred_combinatorResult, List.map_snd_zip (by omega),
    List.append_nil]

theorem inferred_binary (op : BinaryOp) (lhs rhs : Ty) :
    Returns (fun t => t.inferred = lhs.inferred ++ rhs.inferred) (binary op lhs rhs) := by
  unfold binary
  split
  · exact returns_pure rfl
  · refine (inferred_combine _ _).imp fun t ht => ?_
    simpa [inferredOfTys] using ht

theorem inferred_unary (op : UnaryOp) (operand : Ty) :
    Returns (fun t => t.inferred = operand.inferred) (unary op operand) := by
  unfold unary
  split
  · refine returns_skip fun id => returns_pure ?_
    simp [Ty.inferred, inferredOfTys, inferred_bindOperands]
  · refine (inferred_combine _ _).imp fun t ht => ?_
    simpa [inferredOfTys] using ht

/-- A call binds what its arguments and its callee bind. -/
theorem mem_inferred_applyCall (arity : Option Nat) (callee : Ty) (args : List (Nat × Ty)) :
    Returns (fun t => ∀ name, name ∈ t.inferred ↔
        name ∈ inferredOfTys (args.map Prod.snd) ++ callee.inferred)
      (applyCall arity callee args) := by
  have htemps := inferredOfTys_temps (args.map Prod.fst)
  rw [List.map_map, Function.comp_def] at htemps
  unfold applyCall
  split
  · refine returns_pure fun name => ?_
    rw [Ty.inferred, inferred_bindArgs]
  · refine (returns_application _ _ _).bind fun body hbody => returns_pure fun name => ?_
    rw [Ty.inferred, inferred_bindArgs]
    rcases hbody with rfl | rfl | rfl <;>
      simp [Ty.inferred, Ty.applied, Ty.ofSymbol, inferredOfTys, htemps]

theorem inferred_liftLambda (ctx : Context) (params : List Param)
    (bounds : Context → Gen (List Ty)) (body : Context → Gen Ty) :
    Returns (fun t => t.inferred = []) (liftLambda ctx params bounds body) := by
  intro s t s' h
  obtain ⟨s₀, code, s₁, -, -, rfl, -⟩ := h.of_liftLambda
  exact inferred_closure _ _ _ _

/-- Where the match stands, an arm binds nothing. -/
theorem inferred_liftArm {ctx : Context} {pattern : Context → Gen Ty} (result : Context → Gen Ty)
    (h : Returns (fun t => t.inferred = []) (pattern (ctx.reading .shape))) :
    Returns (fun t => t.inferred = []) (liftArm ctx pattern result) := by
  intro s t s' ht
  obtain ⟨s₀, site, s₁, binder, s₂, code, s₃, -, hsite, -, -, rfl, -⟩ := ht.of_liftArm
  rw [Ty.inferred, Ty.inferred, inferredOfTys, h hsite, inferredOfTys, inferred_closure,
    inferredOfTys]
  rfl

theorem infers_patternVar {ctx : Context} {mode : PatternMode} (hmode : ctx.mode = some mode)
    (pos : Position) (name : String) (bound : Option Ty) (vars : List String)
    (h : Infers (bound.elim [] Ty.inferred) (ctx.bound vars)) :
    Returns (fun t => Infers t.inferred (ctx.bound (vars ++ [name])))
      (patternVar mode pos name bound) := by
  unfold patternVar
  cases mode with
  | shape =>
    have hbound : ∀ vars, ctx.bound vars = [] := fun vars => by simp [Context.bound, hmode]
    rw [hbound] at h ⊢
    refine returns_pure ?_
    cases bound with
    | none => exact h
    | some bound => exact h
  | binding =>
    have hbound : ∀ vars, ctx.bound vars = vars := fun vars => by simp [Context.bound, hmode]
    rw [hbound] at h ⊢
    refine returns_skip fun seen => ?_
    split
    · exact returns_fail _ _
    · refine returns_skip fun _ => returns_pure ?_
      have hname : Infers [.user name] [name] := fun _ => Iff.rfl
      cases bound with
      | none => exact h.append hname
      | some bound => exact h.append hname

theorem returns_readingAt (ctx : Context) (pos : Position) :
    Returns (fun mode => ctx.mode = some mode) (readingAt ctx pos) :=
  fun _ _ _ h => (yields_readingAt.1 h).1

/-! ## Expressions -/

mutual

/-- **The names that the code of an expression binds are the variables of a pattern**, in its
binding reading, and there are none elsewhere. -/
theorem infers_exprTy (ctx : Context) : ∀ e : Expr,
    Returns (fun t => Infers t.inferred (ctx.bound e.patternVars)) (exprTy ctx e)
  | .assignment .. => by
    rw [exprTy]
    exact returns_fail _ _
  | .binary _ op lhs rhs => by
    rw [exprTy, Expr.patternVars, ctx.bound_append]
    refine (infers_exprTy ctx lhs).bind fun l hl => (infers_exprTy ctx rhs).bind fun r hr => ?_
    refine (inferred_binary op l r).imp fun t ht => ?_
    rw [ht]
    exact hl.append hr
  | .logical _ op lhs rhs => by
    rw [exprTy, Expr.patternVars, ctx.bound_append]
    refine (infers_exprTy ctx lhs).bind fun l hl => (infers_exprTy ctx rhs).bind fun r hr => ?_
    refine (inferred_combine _ _).imp fun t ht => ?_
    rw [ht, inferredOfTys, inferredOfTys, inferredOfTys, List.append_nil]
    exact hl.append hr
  | .unary _ op operand => by
    rw [exprTy, Expr.patternVars]
    refine (infers_exprTy ctx operand).bind fun t ht => (inferred_unary op t).imp fun u hu => ?_
    rw [hu]
    exact ht
  | .conditional _ test consequent alternate => by
    rw [exprTy, Expr.patternVars, ctx.bound_append, ctx.bound_append]
    refine (infers_exprTy ctx test).bind fun t ht => (infers_exprTy ctx consequent).bind
      fun c hc => (infers_exprTy ctx alternate).bind fun a ha => returns_pure ?_
    exact ht.append (hc.append ha)
  | .call pos callee args => by
    have hcallee := infers_exprTy ctx callee
    by_cases h : ∃ p object method, callee = .field p object method
    · obtain ⟨p, object, method, rfl⟩ := h
      rw [exprTy] at hcallee
      rw [exprTy, Expr.patternVars, ctx.bound_append]
      refine returns_skip fun _ => hcallee.of_map.bind fun t ht => (infers_exprTys ctx args).bind
        fun as has => returns_pure ?_
      rw [Expr.patternVars, Ty.inferred, Ty.inferred, Ty.inferred, List.append_nil] at ht
      exact ht.append has
    · rw [exprTy_call _ _ _ h, Expr.patternVars_call _ _ h, ctx.bound_append]
      refine (infers_argTys ctx args).bind fun as has => returns_skip fun _ =>
        hcallee.bind fun t ht => (mem_inferred_applyCall _ t as).imp fun u hu => ?_
      exact (has.append ht).congr hu
  | .field _ object name => by
    rw [exprTy, Expr.patternVars]
    refine (infers_exprTy ctx object).bind fun t ht => returns_pure ?_
    simpa [Ty.inferred] using ht
  | .index _ object key => by
    rw [exprTy, Expr.patternVars, ctx.bound_append]
    refine (infers_exprTy ctx object).bind fun t ht => (infers_exprTy ctx key).bind fun k hk =>
      returns_pure ?_
    exact ht.append hk
  | .lambda _ params body => by
    rw [exprTy, Expr.patternVars, ctx.bound_nil]
    refine (inferred_liftLambda ctx params _ _).imp fun t ht => ?_
    rw [ht]
    exact infers_nil
  | .block pos body => by
    rw [exprTy, Expr.patternVars]
    exact infers_blockTy ctx pos body
  | .matching _ scrutinee arms => by
    rw [exprTy, Expr.patternVars]
    refine returns_skip fun _ => returns_skip fun _ => (infers_exprTy ctx scrutinee).bind
      fun t ht => (inferred_armTys ctx arms).bind fun as has => returns_pure ?_
    simpa [Ty.applied, Ty.ofSymbol, Ty.inferred, inferredOfTys, has] using ht
  | .template _ parts => by
    rw [exprTy, Expr.patternVars]
    exact (infers_partTys ctx parts).bind fun _ hps => returns_pure hps
  | .object _ properties => by
    rw [exprTy, Expr.patternVars]
    exact (infers_propertyTys ctx properties).bind fun _ hps => returns_pure hps
  | .mapped _ key union none optional value => by
    rw [exprTy, Expr.patternVars, ctx.bound_append]
    exact (infers_exprTy ctx union).bind fun _ hu => (infers_exprTy (ctx.bind key) value).bind
      fun _ hv => returns_pure (hu.append hv)
  | .mapped _ key union (some renamed) optional value => by
    rw [exprTy, Expr.patternVars, ctx.bound_append, ctx.bound_append]
    exact (infers_exprTy ctx union).bind fun _ hu => (infers_exprTy (ctx.bind key) renamed).bind
      fun _ hr => (infers_exprTy (ctx.bind key) value).bind fun _ hv =>
        returns_pure (hu.append (hr.append hv))
  | .tuple _ elements => by
    rw [exprTy, Expr.patternVars]
    exact (infers_exprTys ctx elements).bind fun _ hts => returns_pure hts
  | .infer pos name none => by
    rw [exprTy, Expr.patternVars]
    refine (returns_readingAt ctx pos).bind fun mode hmode => ?_
    refine infers_patternVar hmode pos name none [] ?_
    rw [ctx.bound_nil]
    exact infers_nil
  | .infer pos name (some bound) => by
    rw [exprTy, Expr.patternVars]
    exact (returns_readingAt ctx pos).bind fun mode hmode => (infers_exprTy ctx bound).bind
      fun t ht => infers_patternVar hmode pos name (some t) _ ht
  | .ident _ name => by
    rw [exprTy, Expr.patternVars, ctx.bound_nil]
    refine returns_skip fun vars => returns_pure ?_
    rw [inferred_reference]
    exact infers_nil
  | .number .. | .string .. | .numberType _ | .stringType _ => by
    rw [exprTy, Expr.patternVars, ctx.bound_nil]
    exact returns_pure infers_nil

theorem infers_exprTys (ctx : Context) : ∀ es : List Expr,
    Returns (fun ts => Infers (inferredOfTys ts) (ctx.bound (patternVarsOfExprs es))) (exprTys ctx es)
  | [] => by
    rw [exprTys, patternVarsOfExprs, ctx.bound_nil]
    exact returns_pure infers_nil
  | e :: es => by
    rw [exprTys, patternVarsOfExprs, ctx.bound_append]
    exact (infers_exprTy ctx e).bind fun _ ht => (infers_exprTys ctx es).bind fun _ hts =>
      returns_pure (ht.append hts)

theorem infers_argTys (ctx : Context) : ∀ es : List Expr,
    Returns (fun args => Infers (inferredOfTys (args.map Prod.snd))
      (ctx.bound (patternVarsOfExprs es))) (argTys ctx es)
  | [] => by
    rw [argTys, patternVarsOfExprs, ctx.bound_nil]
    exact returns_pure infers_nil
  | e :: es => by
    rw [argTys, patternVarsOfExprs, ctx.bound_append]
    exact returns_skip fun _ => (infers_exprTy ctx e).bind fun _ ht => (infers_argTys ctx es).bind
      fun _ hts => returns_pure (ht.append hts)

theorem infers_blockTy (ctx : Context) (pos : Position) : ∀ body : List Stmt,
    Returns (fun t => Infers t.inferred (ctx.bound (patternVarsOfStmts body))) (blockTy ctx pos body)
  | [] => by
    rw [blockTy]
    exact returns_fail _ _
  | [.expr _ value] => by
    rw [blockTy, patternVarsOfStmts, patternVarsOfStmts, List.append_nil]
    exact infers_exprTy ctx value
  | .expr p _ :: _ :: _ => by
    rw [blockTy]
    · exact returns_fail _ _
    · simp
  | .assertEqual p _ _ :: _ => by
    rw [blockTy]
    exact returns_fail _ _
  | [.letDecl p _ _] => by
    rw [blockTy]
    exact returns_fail _ _
  | .letDecl _ name value :: s :: rest => by
    rw [blockTy, patternVarsOfStmts, ctx.bound_append]
    · refine (infers_exprTy ctx value).bind fun v hv =>
        (infers_blockTy (ctx.bind name) pos (s :: rest)).bind fun b hb => returns_pure ?_
      simpa [Ty.bindExactly, Ty.bind, Ty.never, Ty.inferred] using hv.append hb
    · simp

theorem inferred_armTys (ctx : Context) :
    ∀ arms : List Arm, Returns (fun ts => inferredOfTys ts = []) (armTys ctx arms)
  | [] => by
    rw [armTys]
    exact returns_pure rfl
  | .mk _ pattern result :: as => by
    rw [armTys]
    refine Returns.bind (inferred_liftArm _ ?_) fun t ht => (inferred_armTys ctx as).bind
      fun ts hts => returns_pure ?_
    · exact (infers_exprTy (ctx.reading .shape) pattern).imp fun _ h => h.eq_nil
    · rw [inferredOfTys, ht, hts, List.append_nil]

theorem infers_partTys (ctx : Context) : ∀ parts : List Part,
    Returns (fun ps => Infers (inferredOfPieces ps) (ctx.bound (patternVarsOfParts parts)))
      (partTys ctx parts)
  | [] => by
    rw [partTys, patternVarsOfParts, ctx.bound_nil]
    exact returns_pure infers_nil
  | .text _ :: ps => by
    rw [partTys, patternVarsOfParts]
    exact (infers_partTys ctx ps).bind fun _ hps => returns_pure hps
  | .expr value :: ps => by
    rw [partTys, patternVarsOfParts, ctx.bound_append]
    exact (infers_exprTy ctx value).bind fun _ ht => (infers_partTys ctx ps).bind fun _ hps =>
      returns_pure (ht.append hps)

theorem infers_propertyTys (ctx : Context) : ∀ properties : List Property,
    Returns (fun fs => Infers (inferredOfFields fs) (ctx.bound (patternVarsOfProperties properties)))
      (propertyTys ctx properties)
  | [] => by
    rw [propertyTys, patternVarsOfProperties, ctx.bound_nil]
    exact returns_pure infers_nil
  | .named _ _ _ value :: ps => by
    rw [propertyTys, patternVarsOfProperties, ctx.bound_append]
    exact (infers_exprTy ctx value).bind fun _ ht => (infers_propertyTys ctx ps).bind fun _ hps =>
      returns_pure (ht.append hps)
  | .computed _ key _ value :: ps => by
    rw [propertyTys, patternVarsOfProperties, ctx.bound_append, ctx.bound_append]
    exact (infers_exprTy ctx key).bind fun _ hk => (infers_exprTy ctx value).bind fun _ ht =>
      (infers_propertyTys ctx ps).bind fun _ hps => returns_pure (hk.append (ht.append hps))

end

end TypeForge.Gen
