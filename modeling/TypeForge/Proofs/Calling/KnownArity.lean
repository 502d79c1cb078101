import TypeForge.Proofs.Calling.Codes
import TypeForge.Proofs.Scoping.Conversion

/-!
# Calls of functions with a known number of parameters

A callee is applied to all or to some of its parameters right away if their number is known, and
otherwise the code finds it out.  The number is known of a lambda, and of a name that stands for a
definition.  Each call becomes one piece of code; it may be written several times, but the ids in
it belong to that call only.

Two kinds of names are judged wrongly.  The lets of a section are not known to be bound, so that
a call of one is made like a call of the definition of the same name.  And a variable of a pattern
is known to be bound in what is left of the pattern, although it scopes over the result of the arm
only.
-/

namespace TypeForge.Calling

open TypeScript Gen

variable {program : Program}

/-! ## Expressions -/

mutual

/-- **Generating an expression makes the code of its calls.** -/
theorem codes_exprTy {around : Surroundings} {ctx : Context} {vars : List String}
    (h : Describes program around ctx vars) : ∀ e : Expr,
    Codes program vars [] (e.calls around) (exprTy ctx e) fun t => [t]
  | .assignment .. => by
    rw [exprTy]
    exact codes_fail _ _
  | .binary _ op lhs rhs => by
    rw [exprTy, Expr.calls]
    refine (codes_exprTy h lhs).next (binds_exprTy ctx lhs) fun l =>
      (codes_exprTy (h.behind _) rhs).andThen (quiet_binary op l) fun r =>
        (sameCalls_binary op l r).imp fun t ht x => ?_
    simpa [or_comm] using ht x
  | .logical _ op lhs rhs => by
    rw [exprTy, Expr.calls]
    refine (codes_exprTy h lhs).next (binds_exprTy ctx lhs) fun l =>
      (codes_exprTy (h.behind _) rhs).andThen (fun r => quiet_combine _ _) fun r =>
        (sameCalls_combine _ _).imp fun t ht x => ?_
    simpa [or_comm] using ht x
  | .unary _ op operand => by
    rw [exprTy, Expr.calls]
    refine (codes_exprTy h operand).andThen (quiet_unary op) fun t =>
      (sameCalls_unary op t).imp fun u hu x => ?_
    simpa using hu x
  | .conditional _ test consequent alternate => by
    rw [exprTy, Expr.calls]
    refine (codes_exprTy h test).next (binds_exprTy ctx test) fun t =>
      (codes_exprTy (h.behind _) consequent).next (binds_exprTy ctx consequent) fun c =>
        (codes_exprTy ((h.behind _).behind _) alternate).map _ fun a x => ?_
    have hne (check yes no : Ty) : x.ty ≠ .conditional check (.keyword .true) yes no :=
      CallCode.ty_ne_of_pattern (by simp)
    simp [conditional, hne, or_comm, or_assoc]
  -- A call without arguments is its callee; one with arguments begins with the id of the first.
  | .call pos callee [] => by
    have hcallee := codes_exprTy h callee
    by_cases hfield : ∃ p object method, callee = .field p object method
    · obtain ⟨p, object, method, rfl⟩ := hfield
      rw [exprTy, Expr.calls] at hcallee
      rw [exprTy, Expr.calls]
      exact codes_methodCall pos method (hcallee.of_map.congr fun t x => by simp)
        (binds_exprTy ctx object) (codes_exprTys (h.behind _) [])
    · rw [exprTy_call _ _ _ hfield, Expr.calls_call _ _ _ hfield, argTys, callsOfExprs,
        patternVarsOfExprs, Surroundings.behind_nil, pure_bind]
      refine codes_skip quiet_patternVars fun seen =>
        hcallee.andThen (fun c => quiet_applyCall _ c []) fun c =>
          (returns_applyCall_nil _ c).imp fun t ht x => ?_
      simp [ht]
  | .call pos callee (e :: es) => by
    have hcallee {around : Surroundings} {vars : List String}
        (h : Describes program around ctx vars) := codes_exprTy h callee
    have hargs (id : Nat) : Codes program vars [] (callsOfExprs around (e :: es))
        (do let t ← exprTy ctx e; let ts ← argTys ctx es; return (id, t) :: ts)
        fun args => args.map Prod.snd := by
      rw [callsOfExprs]
      refine (codes_exprTy h e).next (binds_exprTy ctx e) fun t =>
        (codes_argTys (h.behind _) es).map _ fun ts x => ?_
      simp [or_comm]
    by_cases hfield : ∃ p object method, callee = .field p object method
    · obtain ⟨p, object, method, rfl⟩ := hfield
      have hobject := hcallee h
      rw [exprTy, Expr.calls] at hobject
      rw [exprTy, Expr.calls]
      exact codes_methodCall pos method (hobject.of_map.congr fun t x => by simp)
        (binds_exprTy ctx object) (codes_exprTys (h.behind _) (e :: es))
    · rw [exprTy_call _ _ _ hfield, Expr.calls_call _ _ _ hfield, List.isEmpty_cons,
        if_neg Bool.false_ne_true, List.singleton_append]
      exact codes_call h hargs (hcallee (h.behind _))
  | .field _ object name => by
    rw [exprTy, Expr.calls]
    refine (codes_exprTy h object).map _ fun t x => ?_
    simp
  | .index _ object key => by
    rw [exprTy, Expr.calls]
    refine (codes_exprTy h object).next (binds_exprTy ctx object) fun t =>
      (codes_exprTy (h.behind _) key).map _ fun k x => ?_
    simp [or_comm]
  | .lambda _ params body => by
    rw [exprTy, Expr.calls]
    have hinner := h.lambda (params.map Param.name)
    exact codes_liftLambda (codes_guarded (codes_boundTys hinner params)
      (binds_boundTys rfl params) (codes_exprTy hinner body))
  | .block pos body => by
    rw [exprTy, Expr.calls]
    exact codes_blockTy h pos body
  | .matching _ scrutinee arms => by
    rw [exprTy, Expr.calls]
    refine codes_skip (quiet_require _) fun _ => codes_skip (quiet_require _) fun _ =>
      (codes_exprTy h scrutinee).next (binds_exprTy ctx scrutinee) fun t =>
        (codes_armTys (h.behind _) arms).map _ fun as x => ?_
    simp [Ty.applied, Ty.ofSymbol]
  | .template _ parts => by
    rw [exprTy, Expr.calls]
    refine (codes_partTys h parts).map _ fun ps x => ?_
    simp
  | .object _ properties => by
    rw [exprTy, Expr.calls]
    refine (codes_propertyTys h properties).map _ fun fs x => ?_
    simp
  | .mapped _ key union none optional value => by
    rw [exprTy, Expr.calls]
    refine (codes_exprTy h union).next (binds_exprTy ctx union) fun u =>
      (codes_exprTy ((h.behind _).bind key) value).map _ fun v x => ?_
    simp [or_comm]
  | .mapped _ key union (some renamed) optional value => by
    rw [exprTy, Expr.calls]
    refine (codes_exprTy h union).next (binds_exprTy ctx union) fun u =>
      (codes_exprTy ((h.behind _).bind key) renamed).next (binds_exprTy (ctx.bind key) renamed)
        fun n => (codes_exprTy (((h.behind _).bind key).behind _) value).map _ fun v x => ?_
    simp [or_comm, or_assoc]
  | .tuple _ elements => by
    rw [exprTy, Expr.calls]
    refine (codes_exprTys h elements).map _ fun ts x => ?_
    simp
  | .infer pos name none => by
    rw [exprTy, Expr.calls]
    exact codes_skip (quiet_readingAt ctx pos) fun mode => codes_patternVar mode pos name none
  | .infer pos name (some bound) => by
    rw [exprTy, Expr.calls, ← List.append_nil (bound.calls around)]
    exact codes_skip (quiet_readingAt ctx pos) fun mode =>
      (codes_exprTy h bound).next (binds_exprTy ctx bound) fun b =>
        codes_patternVar mode pos name (some b)
  | .ident _ name => by
    rw [exprTy, Expr.calls]
    refine codes_skip quiet_patternVars fun seen =>
      codes_of_quiet (quiet_pure _) (returns_pure fun x => ?_)
    simp [conditionals_reference]
  | .number .. | .string .. | .numberType _ | .stringType _ => by
    rw [exprTy, Expr.calls]
    exact codes_of_quiet (quiet_pure _) (returns_pure fun x => by simp)

theorem codes_exprTys {around : Surroundings} {ctx : Context} {vars : List String}
    (h : Describes program around ctx vars) : ∀ es : List Expr,
    Codes program vars [] (callsOfExprs around es) (exprTys ctx es) fun ts => ts
  | [] => by
    rw [exprTys, callsOfExprs]
    exact codes_of_quiet (quiet_pure _) (returns_pure fun x => by simp)
  | e :: es => by
    rw [exprTys, callsOfExprs]
    refine (codes_exprTy h e).next (binds_exprTy ctx e) fun t =>
      (codes_exprTys (h.behind _) es).map _ fun ts x => ?_
    simp [or_comm]

theorem codes_argTys {around : Surroundings} {ctx : Context} {vars : List String}
    (h : Describes program around ctx vars) : ∀ es : List Expr,
    Codes program vars [] (callsOfExprs around es) (argTys ctx es) fun args => args.map Prod.snd
  | [] => by
    rw [argTys, callsOfExprs]
    exact codes_of_quiet (quiet_pure _) (returns_pure fun x => by simp)
  | e :: es => by
    rw [argTys, callsOfExprs]
    refine codes_skip quiet_freshId fun id =>
      (codes_exprTy h e).next (binds_exprTy ctx e) fun t =>
        (codes_argTys (h.behind _) es).map _ fun ts x => ?_
    simp [or_comm]

theorem codes_boundTys {around : Surroundings} {ctx : Context} {vars : List String}
    (h : Describes program around ctx vars) : ∀ params : List Param,
    Codes program vars [] (callsOfBounds around params) (boundTys ctx params) fun ts => ts
  | [] => by
    rw [boundTys, callsOfBounds]
    exact codes_of_quiet (quiet_pure _) (returns_pure fun x => by simp)
  | .mk _ _ none :: ps => by
    rw [boundTys, callsOfBounds]
    refine (codes_boundTys h ps).map _ fun ts x => ?_
    simp
  | .mk _ _ (some bound) :: ps => by
    rw [boundTys, callsOfBounds]
    refine (codes_exprTy h bound).next (binds_exprTy ctx bound) fun t =>
      (codes_boundTys (h.behind _) ps).map _ fun ts x => ?_
    simp [or_comm]

theorem codes_blockTy {around : Surroundings} {ctx : Context} {vars : List String}
    (h : Describes program around ctx vars) (pos : Position) :
    ∀ body : List Stmt,
    Codes program vars [] (callsOfStmts around body) (blockTy ctx pos body) fun t => [t]
  | [] => by
    rw [blockTy]
    exact codes_fail _ _
  | [.expr _ value] => by
    rw [blockTy, callsOfStmts, callsOfStmts, List.append_nil]
    exact codes_exprTy h value
  | .expr p _ :: _ :: _ => by
    rw [blockTy]
    · exact codes_fail _ _
    · simp
  | .assertEqual p _ _ :: _ => by
    rw [blockTy]
    exact codes_fail _ _
  | [.letDecl p _ _] => by
    rw [blockTy]
    exact codes_fail _ _
  | .letDecl _ name value :: s :: rest => by
    rw [blockTy, callsOfStmts]
    · refine (codes_exprTy h value).next (binds_exprTy ctx value) fun v =>
        (codes_blockTy ((h.behind _).bind name) pos (s :: rest)).map _ fun b x => ?_
      simp [mem_conditionals_bindExactly_user, or_comm]
    · simp

theorem codes_armTys {around : Surroundings} {ctx : Context} {vars : List String}
    (h : Describes program around ctx vars) : ∀ arms : List Arm,
    Codes program vars [] (callsOfArms around arms) (armTys ctx arms) fun ts => ts
  | [] => by
    rw [armTys, callsOfArms]
    exact codes_of_quiet (quiet_pure _) (returns_pure fun x => by simp)
  | .mk _ pattern result :: as => by
    rw [armTys, callsOfArms]
    have hbinds := binds_exprTy (ctx.inside (ctx.scope.captures vars []) [] (some .binding)) pattern
    have harm : Codes program vars [] _ (liftArm ctx (exprTy · pattern) (exprTy · result)) _ :=
      codes_liftArm (codes_exprTy h.shape pattern) (codes_exprTy h.binder pattern) hbinds
        (codes_exprTy (h.result pattern.patternVars) result)
    have hsilent := binds_liftArm ctx pattern result
    refine harm.next_silent hsilent fun t => (codes_armTys h as).map _ fun ts x => ?_
    simp [or_comm]

theorem codes_partTys {around : Surroundings} {ctx : Context} {vars : List String}
    (h : Describes program around ctx vars) : ∀ parts : List Part,
    Codes program vars [] (callsOfParts around parts) (partTys ctx parts) fun ps => [.template ps]
  | [] => by
    rw [partTys, callsOfParts]
    exact codes_of_quiet (quiet_pure _) (returns_pure fun x => by simp)
  | .text _ :: ps => by
    rw [partTys, callsOfParts]
    refine (codes_partTys h ps).map _ fun ts x => ?_
    simp
  | .expr value :: ps => by
    rw [partTys, callsOfParts]
    refine (codes_exprTy h value).next (binds_exprTy ctx value) fun t =>
      (codes_partTys (h.behind _) ps).map _ fun ts x => ?_
    simp [or_comm]

theorem codes_propertyTys {around : Surroundings} {ctx : Context} {vars : List String}
    (h : Describes program around ctx vars) :
    ∀ properties : List Property,
    Codes program vars [] (callsOfProperties around properties) (propertyTys ctx properties)
      fun fs => [.object fs]
  | [] => by
    rw [propertyTys, callsOfProperties]
    exact codes_of_quiet (quiet_pure _) (returns_pure fun x => by simp)
  | .named _ _ _ value :: ps => by
    rw [propertyTys, callsOfProperties]
    refine (codes_exprTy h value).next (binds_exprTy ctx value) fun t =>
      (codes_propertyTys (h.behind _) ps).map _ fun fs x => ?_
    simp [or_comm]
  | .computed _ key _ value :: ps => by
    rw [propertyTys, callsOfProperties]
    refine (codes_exprTy h key).next (binds_exprTy ctx key) fun k =>
      (codes_exprTy (h.behind _) value).next (binds_exprTy ctx value) fun t =>
        (codes_propertyTys ((h.behind _).behind _) ps).map _ fun fs x => ?_
    simp [or_comm, or_left_comm]

end

/-! ## Programs -/

/-- The calls of a definition are in the bounds of its parameters and in its body. -/
theorem codes_definition (h : program.arity = program.arityOf) (d : Definition) :
    Codes program [] [] d.calls (definition program.context d) Declaration.codes := by
  have hvalue : Codes program [] [] d.calls (definitionTy program.context d) fun t => [t] := by
    unfold definitionTy Definition.calls
    have houter := Describes.outermost [] h
    by_cases hparams : d.params.isEmpty = true
    · rw [if_pos hparams]
      simp only [List.isEmpty_iff.1 hparams, callsOfBounds, List.map_nil, List.nil_append]
      exact codes_exprTy houter d.body
    · rw [if_neg hparams]
      have hinner := houter.lambda (d.params.map Param.name)
      exact codes_liftLambda (codes_guarded (codes_boundTys hinner d.params)
        (binds_boundTys rfl d.params) (codes_exprTy hinner d.body))
  exact hvalue.map _ fun t x => by simp [Declaration.codes]

theorem codes_sectionStmt {around : Surroundings} (h : Describes program around program.context [])
    (stmt : Stmt) :
    Codes program [] [] (stmt.calls around) (sectionStmt program.context stmt)
      fun a => [a.value] := by
  have hsilent (e : Expr) : Binds [] (exprTy program.context e) :=
    binds_exprTy_of_mode_eq_none rfl e
  cases stmt with
  | letDecl pos name value =>
    exact (codes_exprTy h value).map _ fun t x => by simp
  | assertEqual pos left right =>
    refine codes_skip (quiet_require _) fun _ => codes_skip (quiet_require _) fun _ =>
      codes_skip (quiet_require _) fun _ => (codes_exprTy h left).next_silent (hsilent left)
        fun l => (codes_exprTy h right).andThen (fun r => quiet_freshId.map _) fun r =>
          returns_skip fun id => returns_pure fun x => ?_
    simp [Ty.applied, Ty.ofSymbol, or_comm]
  | expr pos value =>
    refine (codes_exprTy h value).andThen (fun t => quiet_freshId.map _) fun t =>
      returns_skip fun id => returns_pure fun x => ?_
    simp

theorem codes_sectionStmts {around : Surroundings} (h : Describes program around program.context [])
    (stmts : List Stmt) :
    Codes program [] [] (stmts.flatMap (Stmt.calls around)) (sectionStmts program.context stmts)
      fun as => as.map Alias.value := by
  induction stmts with
  | nil => exact codes_of_quiet (quiet_pure _) (returns_pure fun x => by simp)
  | cons stmt stmts ih =>
    rw [List.flatMap_cons]
    refine (codes_sectionStmt h stmt).next_silent (binds_sectionStmt rfl stmt) fun a =>
      ih.map _ fun as x => ?_
    simp [or_comm]

/-- The items of a program are made one after the other, each without knowing of the others but
their numbers of parameters. -/
theorem codes_topLevels (h : program.arity = program.arityOf) (items : List TopLevel) :
    Codes program [] [] (items.flatMap TopLevel.calls) (topLevels program.context items)
      fun ds => ds.flatMap Declaration.codes := by
  induction items with
  | nil => exact codes_of_quiet (quiet_pure _) (returns_pure fun x => by simp)
  | cons item items ih =>
    have hitem : Codes program [] [] item.calls (topLevel program.context item)
        Declaration.codes := by
      cases item with
      | definition d => exact codes_definition h d
      | sectionOf s =>
        exact (codes_sectionStmts (.outermost _ h) s.body).map _ fun as x => by
          simp [Declaration.codes]
      | importOf i =>
        exact codes_of_quiet (quiet_pure _) (returns_pure fun x => by simp [Declaration.codes])
    rw [List.flatMap_cons]
    refine hitem.next_silent (binds_topLevel rfl item) fun d => ih.map _ fun ds x => ?_
    simp [or_comm]

theorem map_manner_eq {calls : List Call} {xs : List CallCode}
    (h : List.Forall₂ (AppliedAs program) calls xs) :
    xs.map CallCode.manner = calls.map fun call =>
      .of (program.declared call.around.known call.callee) call.args.length := by
  induction h with
  | nil => rfl
  | cons hx _ ih => rw [List.map_cons, List.map_cons, hx.manner_eq, ih]

/-- **Calls are made as is declared for their callees.**  In the code of a program that compiles
and whose definitions have different names, each call with arguments that is not a call of a method
has its own code, with an id of its own, and there is no other code of calls.  If the callee is a
lambda or the name of a definition that declares parameters, and nothing around the call binds this
name, then it is applied to all of its parameters exactly if there are at least as many arguments,
and to some of them otherwise; in all other cases the code tries both.  The names that are bound are
taken to be those known so far, which do not include the lets of a section, but include the
variables met before in a pattern. -/
theorem calls_applied_as_declared {m : Module} (h : program.generate = .ok m)
    (hdistinct : (program.definitions.map Definition.name).Nodup) :
    ∃ xs : List CallCode, List.Forall₂ (AppliedAs program) program.calls xs ∧
      xs.Pairwise (fun x y => x.id < y.id) ∧ ∀ x : CallCode, x.ty ∈ m.conditionals ↔ x ∈ xs := by
  obtain ⟨s, hrun, hlifted⟩ := Scoping.yields_of_generate h
  obtain ⟨xs, new, hxs, hnew, hmem⟩ :=
    codes_topLevels (Program.arity_eq_arityOf hdistinct) program.body hrun rfl
  refine ⟨xs, hxs.applied, hxs.inOrder, fun x => ?_⟩
  have hnew : m.lifted = new := by rw [hlifted, hnew]; rfl
  rw [Module.conditionals, hnew, hmem x]
  simp

/-- Calls of definitions, of a parameter and of a pattern variable.  There are `type f(x) = x`,
`type g = (a, b) => f(a)`, `type h(f) = f(1)` and `type k(y) = match y { infer f -> f(g(2)) }`, and
a section with `let z = f(2); g(1, 2)`. -/
def waysToCall : Program where
  body :=
    [.definition ⟨⟨1, 1⟩, false, "f", [.mk ⟨1, 8⟩ "x" none], .ident ⟨1, 13⟩ "x"⟩,
     .definition ⟨⟨2, 1⟩, false, "g", [], .lambda ⟨2, 10⟩
       [.mk ⟨2, 11⟩ "a" none, .mk ⟨2, 14⟩ "b" none]
       (.call ⟨2, 20⟩ (.ident ⟨2, 20⟩ "f") [.ident ⟨2, 22⟩ "a"])⟩,
     .definition ⟨⟨3, 1⟩, false, "h", [.mk ⟨3, 8⟩ "f" none],
       .call ⟨3, 13⟩ (.ident ⟨3, 13⟩ "f") [.number ⟨3, 15⟩ "1"]⟩,
     .definition ⟨⟨4, 1⟩, false, "k", [.mk ⟨4, 8⟩ "y" none],
       .matching ⟨4, 13⟩ (.ident ⟨4, 19⟩ "y")
         [.mk ⟨4, 23⟩ (.infer ⟨4, 23⟩ "f" none) (.call ⟨4, 34⟩ (.ident ⟨4, 34⟩ "f")
           [.call ⟨4, 36⟩ (.ident ⟨4, 36⟩ "g") [.number ⟨4, 38⟩ "2"]])]⟩,
     .sectionOf ⟨⟨5, 1⟩, "s",
       [.letDecl ⟨5, 9⟩ "z" (.call ⟨5, 17⟩ (.ident ⟨5, 17⟩ "f") [.number ⟨5, 19⟩ "2"]),
        .expr ⟨5, 23⟩ (.call ⟨5, 23⟩ (.ident ⟨5, 23⟩ "g")
          [.number ⟨5, 25⟩ "1", .number ⟨5, 28⟩ "2"])]⟩]

/-- The definitions are applied to all or to some of their parameters.  The parameter and the
pattern variable are called `f`, too, and the code tries both. -/
theorem waysToCall_applied :
    ∃ (m : Module) (xs : List CallCode), waysToCall.generate = .ok m ∧
      (waysToCall.definitions.map Definition.name).Nodup ∧
      xs.map CallCode.manner = [.full, .either, .either, .part, .full, .full] ∧
      xs.Pairwise (fun x y => x.id < y.id) ∧ ∀ x : CallCode, x.ty ∈ m.conditionals ↔ x ∈ xs := by
  have hrun : waysToCall.generate.isOk = true := by decide +kernel
  have hdistinct : (waysToCall.definitions.map Definition.name).Nodup := by decide
  cases hm : waysToCall.generate with
  | error e =>
    rw [hm] at hrun
    cases hrun
  | ok m =>
    obtain ⟨xs, happlied, hordered, hmem⟩ := calls_applied_as_declared hm hdistinct
    refine ⟨m, xs, rfl, hdistinct, ?_, hordered, hmem⟩
    rw [map_manner_eq happlied]
    decide +kernel

/-- A definition `type f(x) = x`, and a section with `let f = 1; f(2)`. -/
def sectionLetCall : Program where
  body :=
    [.definition ⟨⟨1, 1⟩, false, "f", [.mk ⟨1, 8⟩ "x" none], .ident ⟨1, 13⟩ "x"⟩,
     .sectionOf ⟨⟨2, 1⟩, "s",
       [.letDecl ⟨2, 9⟩ "f" (.number ⟨2, 17⟩ "1"),
        .expr ⟨2, 20⟩ (.call ⟨2, 20⟩ (.ident ⟨2, 20⟩ "f") [.number ⟨2, 22⟩ "2"])]⟩]

/-- The let is applied to all of its parameters, as the definition would be, although nothing is
declared for it. -/
theorem sectionLetCall_applied_like_definition :
    ∃ (m : Module) (call : Call) (x : CallCode), sectionLetCall.generate = .ok m ∧
      (sectionLetCall.definitions.map Definition.name).Nodup ∧ sectionLetCall.calls = [call] ∧
      Manner.of (sectionLetCall.declared call.around.bound call.callee) call.args.length = .either ∧
      x.manner = .full ∧ ∀ y : CallCode, y.ty ∈ m.conditionals ↔ y = x := by
  let x : CallCode := ⟨.full, .name (.user "f"), 2, .number "2", []⟩
  let m : Module := ⟨[.fn, .applyPart, .applyAll], [⟨.lambda 1, .param 1 "x"⟩],
    [.named false ⟨.user "f", .closure (.lambda 1) []⟩,
     .group "s" [⟨.user "f", .number "1"⟩, ⟨.temp 3, .paren x.ty⟩]]⟩
  refine ⟨m, _, x, rfl, by decide, rfl, by decide, rfl, fun y => ?_⟩
  have hcalls : m.conditionals = [x.ty] := rfl
  rw [hcalls, List.mem_singleton, CallCode.ty_injective.eq_iff]

end TypeForge.Calling
