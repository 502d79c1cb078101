import TypeForge.Proofs.Hygiene.Ledger

/-!
# Ids in the code of expressions

Ids are handed out while code is generated, some before the code they are for and some behind it,
and code may then be repeated: an argument stands in the pattern that binds it, a callee in both
ways of applying it, and the value of a let twice.  Each construct keeps the ledger of ids: what it
takes for itself it binds around its parts, or uses as the number of a lifted function.
-/

namespace TypeForge.Gen

open TypeScript

/-! ## Code made of parts -/

/-- Code in which the same names occur as in its parts. -/
structure MadeOf (parts : List Ty) (t : Ty) : Prop where
  temps : ∀ x, x ∈ t.temps [] ↔ ∃ p ∈ parts, x ∈ p.temps []
  hidden : t.Hidden

variable {parts : List Ty} {t : Ty}

theorem accounts_make (h : (∀ p ∈ parts, p.Hidden) → MadeOf parts t) :
    Accounts [] parts (pure t) (fun _ => []) (fun t => [t]) := by
  refine (accounts_pure rfl rfl).of_temps (.refl _) (fun hparts x => ?_) fun hparts => ?_
  · simpa using (h hparts).temps x
  · simpa using (h hparts).hidden

theorem madeOf_reference (vars : List String) (scope : Scope) (name : String) :
    MadeOf [] (reference vars scope name) where
  temps := by
    intro x
    unfold reference
    split
    · simp [Name.tempId?]
    · split <;> simp [Name.tempId?]
  hidden := by rw [Ty.Hidden, inferred_reference, tempIds_nil]

theorem madeOf_closure {name : Name} (hname : name.tempId? = none) (vars : List String)
    (scope : Scope) (names : List String) :
    MadeOf [] (.closure name (names.map (reference vars scope))) where
  temps := by
    intro x
    simp [Ty.closure, Ty.applied, Ty.ofSymbol, hname, mem_tempsOfTys,
      (madeOf_reference vars scope _).temps]
  hidden := by rw [Ty.Hidden, inferred_closure, tempIds_nil]

/-! ## Operators and calls -/

/-- Ids that are held are bound around the code that is pending. -/
theorem accounts_wrap {check : Ty → Ty} {pattern : Nat → Ty → Ty} {layers : List (Nat × Ty)}
    (hwraps : (layers.map Prod.fst).Nodup → (∀ p ∈ parts, p.Hidden) →
      Wraps check pattern layers parts t)
    (hhidden : (∀ p ∈ parts, p.Hidden) → t.Hidden) :
    Accounts (layers.map Prod.fst) parts (pure t) (fun _ => []) (fun t => [t]) := by
  intro s u s' h
  obtain ⟨rfl, rfl⟩ := yields_pure.1 h
  refine ⟨⟨[], .pure u s'⟩, fun held codes hs => ?_⟩
  have hnodup : (layers.map Prod.fst).Nodup :=
    (List.nodup_append.1 (List.nodup_append.1 hs.distinct).1).1
  have hparts := (List.forall_mem_append.1 hs.hidden).1
  exact hs.wrap (hwraps hnodup hparts) (hhidden hparts)

/-- A combinator is applied to the names of its operands. -/
theorem use_of_mem_temps_combinatorResult {c : Combinator} {ids : List Nat} {x : Temp}
    (hx : x ∈ (combinatorResult c ids).temps []) : ∃ id ∈ ids, x = .use id [] := by
  have hargs : x ∈ tempsOfTys [] (ids.map fun id => .name (.temp id)) := by
    have hcall : (combinatorCall c (ids.map fun id => .name (.temp id))).temps [] =
        tempsOfTys [] (ids.map fun id => .name (.temp id)) := by
      unfold combinatorCall
      split <;> simp [Ty.applied, Ty.ofSymbol]
    rw [← hcall]
    unfold combinatorResult at hx
    split at hx
    · simpa [truthOfBit] using hx
    · exact hx
  obtain ⟨t, ht, hx⟩ := mem_tempsOfTys.1 hargs
  obtain ⟨id, hid, rfl⟩ := List.mem_map.1 ht
  exact ⟨id, hid, by simpa [Name.tempId?] using hx⟩

theorem accounts_bindOperands (isNumeric : Bool) {body : Ty} {ids : List Nat} {operands : List Ty}
    (hlength : ids.length = operands.length) (hbody : body.inferred = [])
    (huses : ∀ x ∈ body.temps [], ∃ id ∈ ids, x = .use id []) :
    Accounts ids operands
      (pure (.paren (bindOperands (operandBound isNumeric) (ids.zip operands) body)))
      (fun _ => []) (fun t => [t]) := by
  have hfst : (ids.zip operands).map Prod.fst = ids := List.map_fst_zip (by omega)
  have hsnd : (ids.zip operands).map Prod.snd = operands := List.map_snd_zip (by omega)
  have hwraps (hnodup : ids.Nodup) : Wraps (fun value => value)
      (fun id _ => .infer (.temp id) (operandBound isNumeric)) (ids.zip operands) operands
      (.paren (bindOperands (operandBound isNumeric) (ids.zip operands) body)) := by
    rw [← hfst] at hnodup huses
    have hlayers := wraps_of_layers hnodup (fun x hx => .inl (huses x hx))
      (fun p hp => absurd hp List.not_mem_nil)
      (mem_temps_bindOperands isNumeric body (ids.zip operands) [])
    rw [List.nil_append, hsnd] at hlayers
    exact hlayers.paren
  have hhidden (hparts : ∀ p ∈ operands, p.Hidden) :
      Ty.Hidden (.paren (bindOperands (operandBound isNumeric) (ids.zip operands) body)) := by
    rw [Ty.Hidden, Ty.inferred, inferred_bindOperands, hsnd, hbody, List.append_nil]
    exact tempIds_inferredOfTys hparts
  have hwrap := accounts_wrap (fun hnodup _ => hwraps (hfst ▸ hnodup)) hhidden
  rwa [hfst] at hwrap

/-- A combinator binds its operands once each. -/
theorem accounts_combine (c : Combinator) (operands : List Ty) :
    Accounts [] operands (combine c operands) (fun _ => []) (fun t => [t]) := by
  refine (emits_require _).bind fun _ => ?_
  refine (accounts_freshIds operands).bind_of (returns_freshIds operands) fun ids hids => ?_
  rw [List.append_nil]
  have hresult := accounts_bindOperands c.isNumeric hids (inferred_combinatorResult c ids)
    fun _ => use_of_mem_temps_combinatorResult
  by_cases h : c.application = .direct
  · simp only [h, ne_eq, not_true, if_false]
    exact hresult
  · simp only [h, ne_eq, not_false_eq_true, if_true]
    exact (emits_require _).bind fun _ => hresult

theorem accounts_binary (op : BinaryOp) (lhs rhs : Ty) :
    Accounts [] [lhs, rhs] (binary op lhs rhs) (fun _ => []) (fun t => [t]) := by
  unfold binary
  split
  · refine accounts_make fun h => ⟨by simp, ?_⟩
    simpa [Ty.Hidden, Ty.inferred] using h
  · exact accounts_combine _ _

theorem accounts_unary (op : UnaryOp) (operand : Ty) :
    Accounts [] [operand] (unary op operand) (fun _ => []) (fun t => [t]) := by
  unfold unary
  split
  · refine accounts_freshId.bind fun id => ?_
    have huses : ∀ x ∈ (Ty.name (.temp id)).temps [], ∃ id' ∈ [id], x = .use id' [] := by
      simp [Name.tempId?]
    exact accounts_bindOperands true rfl (by simp) huses
  · exact accounts_combine _ _

/-- Code that applies a callee to arguments that are bound to ids. -/
structure OfCall (ids : List Nat) (callee body : Ty) : Prop where
  only : ∀ x ∈ body.temps [], (∃ id ∈ ids, x = .use id []) ∨ x ∈ callee.temps []
  keeps : ∀ x ∈ callee.temps [], x ∈ body.temps []
  hidden : callee.Hidden → body.Hidden

theorem ofCall_self (ids : List Nat) (callee : Ty) : OfCall ids callee callee :=
  ⟨fun _ => .inr, fun _ hx => hx, fun h => h⟩

/-- Whichever way a callee is applied, only it and the names of the arguments occur. -/
theorem ofCall_application (arity : Option Nat) (callee : Ty) (args : List (Nat × Ty)) :
    Returns (OfCall (args.map Prod.fst) callee)
      (application arity callee (args.map fun arg => .name (.temp arg.1))) := by
  have huses {x : Temp} : x ∈ tempsOfTys [] (args.map fun arg => .name (.temp arg.1)) ↔
      ∃ id ∈ args.map Prod.fst, x = .use id [] := by
    simp [mem_tempsOfTys, Name.tempId?]
  have htemps := inferredOfTys_temps (args.map Prod.fst)
  rw [List.map_map, Function.comp_def] at htemps
  refine (returns_application _ _ _).imp ?_
  rintro body (rfl | rfl | rfl)
  all_goals
    constructor
    · simp only [Ty.applied, Ty.ofSymbol, Ty.temps, tempsOfTys, Ty.never, Ty.inferred, tempIds_nil,
        List.map_nil, List.nil_append, List.append_nil, List.mem_append, or_self, huses]
      exact fun _ => Or.symm
    · intro x hx
      simp [Ty.applied, Ty.never, hx]
    · intro h
      rw [Ty.Hidden] at h
      simp [Ty.Hidden, Ty.applied, Ty.ofSymbol, inferredOfTys, htemps, h]

theorem emits_application (arity : Option Nat) (callee : Ty) (args : List Ty) :
    Emits (fun _ => []) (application arity callee args) := by
  unfold application
  split
  · split
    · exact (emits_require _).bind fun _ => accounts_pure rfl rfl
    · exact (emits_require _).bind fun _ => accounts_pure rfl rfl
  · exact (emits_require _).bind fun _ => (emits_require _).bind fun _ => accounts_pure rfl rfl

/-- A call binds its arguments around its callee, which may be repeated there. -/
theorem accounts_applyCall (arity : Option Nat) (callee : Ty) (args : List (Nat × Ty)) :
    Accounts (args.map Prod.fst) (callee :: args.map Prod.snd) (applyCall arity callee args)
      (fun _ => []) (fun t => [t]) := by
  have hbind {body : Ty} (hbody : OfCall (args.map Prod.fst) callee body) :
      Accounts (args.map Prod.fst) (callee :: args.map Prod.snd)
        (pure (.paren (bindArgs args body))) (fun _ => []) (fun t => [t]) := by
    have hwraps (hnodup : (args.map Prod.fst).Nodup)
        (hparts : ∀ p ∈ callee :: args.map Prod.snd, p.Hidden) :
        Wraps Ty.paren (fun id value => .infer (.temp id) (some (.paren value))) args
          (callee :: args.map Prod.snd) (.paren (bindArgs args body)) := by
      have hargs : ∀ arg ∈ args, arg.2.Hidden := fun arg harg =>
        hparts arg.2 (List.mem_cons_of_mem _ (List.mem_map_of_mem harg))
      have hinner : ∀ x ∈ body.temps [],
          (∃ id ∈ args.map Prod.fst, x = .use id []) ∨ ∃ p ∈ [callee], x ∈ p.temps [] := by
        simpa using hbody.only
      exact (wraps_of_layers hnodup hinner (by simpa using hbody.keeps)
        (mem_temps_bindArgs body args hargs [])).paren
    refine accounts_wrap hwraps fun hparts => ?_
    obtain ⟨hcallee, hvalues⟩ := List.forall_mem_cons.1 hparts
    rw [Ty.Hidden, Ty.inferred, inferred_bindArgs, tempIds_append, tempIds_inferredOfTys hvalues]
    exact hbody.hidden hcallee
  unfold applyCall
  split
  · exact hbind (ofCall_self _ callee)
  · exact (emits_application _ _ _).bind_of (ofCall_application _ _ _) fun _ => hbind

theorem emits_methodSymbol (pos : Position) (name : String) :
    Emits (fun _ => []) (methodSymbol pos name) := by
  unfold methodSymbol
  split
  · exact accounts_fail _ _
  · exact (emits_require _).bind fun _ => accounts_pure rfl rfl

/-! ## Lifted functions and patterns -/

theorem emits_guarded {params : List Param} {bounds : Gen (List Ty)} {body : Gen Ty}
    (hbounds : Emits (fun ts => ts) bounds) (hbody : Emits (fun t => [t]) body) :
    Emits (fun t => [t]) (guarded params bounds body) := by
  unfold guarded
  split
  · exact hbody
  · refine hbounds.bind fun ts => hbody.bind fun t => accounts_make fun hparts => ?_
    simp only [List.singleton_append, List.append_nil, List.forall_mem_cons] at hparts
    obtain ⟨ht, hts⟩ := hparts
    rw [Ty.Hidden] at ht
    constructor
    · intro x
      simp [mem_tempsOfTys, tempIds_inferredOfTys hts, Ty.never, or_comm]
    · have hargs := inferredOfTys_map_eq_nil (f := fun i => Ty.arg (i + 1)) (fun _ => by simp)
        (List.range params.length)
      simp [Ty.Hidden, Ty.never, hargs, ht]

/-- A lambda takes the id of its function behind its body. -/
theorem emits_liftLambda (ctx : Context) (params : List Param) {bounds : Context → Gen (List Ty)}
    {body : Context → Gen Ty} (hbounds : ∀ inner, Emits (fun ts => ts) (bounds inner))
    (hbody : ∀ inner, Emits (fun t => [t]) (body inner)) :
    Emits (fun t => [t]) (liftLambda ctx params bounds body) := by
  refine (emits_require _).bind fun _ => (emits_require _).bind fun _ => ?_
  refine emits_patternVars.bind fun vars => ?_
  refine ((emits_guarded (hbounds _) (hbody _)).withPatternVars []).bind fun code => ?_
  refine accounts_freshId.bind fun id => (accounts_addLifted rfl code).bind fun _ => ?_
  exact accounts_make fun _ => madeOf_closure rfl vars ctx.scope _

/-- The arm of a match has its pattern in two readings, and takes the id of its function behind
its result. -/
theorem emits_liftArm (ctx : Context) {pattern result : Context → Gen Ty}
    (hpattern : ∀ inner, Emits (fun t => [t]) (pattern inner))
    (hresult : ∀ inner, Emits (fun t => [t]) (result inner)) :
    Emits (fun t => [t]) (liftArm ctx pattern result) := by
  refine (emits_require _).bind fun _ => (emits_require _).bind fun _ => ?_
  refine emits_patternVars.bind fun vars => ?_
  refine Emits.bind ((hpattern _).withPatternVars vars) fun site => ?_
  have harm (captures : List String) : Emits (fun arm => [arm.1, arm.2]) (withPatternVars [] (do
      let binder ← pattern (ctx.inside captures [] (some .binding))
      let body ← result (ctx.inside captures [] none)
      return (binder, body))) := by
    apply Accounts.withPatternVars
    exact (hpattern _).pair (hresult _) (fun _ _ => rfl) fun _ _ => rfl
  refine (harm _).bind fun arm => accounts_freshId.bind fun id => ?_
  -- The binding reading and the result become one body before they leave the pending code.
  have hlift : Accounts [id] [.conditional (.arg 1) arm.1 arm.2 .never]
      (addLifted (.arm id) (.conditional (.arg 1) arm.1 arm.2 .never))
      (fun _ => []) (fun _ => []) :=
    accounts_addLifted rfl _
  refine Accounts.bind (Accounts.of_temps (hlift.frame [] [site]) (.refl _) (fun hparts x => ?_)
    fun hparts => ?_) fun _ => ?_
  · simp only [List.cons_append, List.nil_append, List.forall_mem_cons] at hparts
    have hbinder : tempIds arm.1.inferred = [] := hparts.1
    simp [hbinder, Ty.never, or_assoc]
  · simp only [List.cons_append, List.nil_append, List.forall_mem_cons] at hparts
    have hbody : tempIds arm.2.inferred = [] := hparts.2.1
    simpa [Ty.Hidden, Ty.never, hbody] using hparts.2.2.1
  · refine accounts_make fun hparts => ?_
    have hclosure := madeOf_closure (show (Name.arm id).tempId? = none from rfl) vars ctx.scope
      (ctx.scope.captures vars [])
    have hhidden := hclosure.hidden
    rw [Ty.Hidden] at hhidden
    constructor
    · intro x
      simp [hclosure.temps]
    · simpa [Ty.Hidden, hhidden, inferredOfTys] using hparts

theorem accounts_patternVar (mode : PatternMode) (pos : Position) (name : String)
    (bound : Option Ty) :
    Accounts [] bound.toList (patternVar mode pos name bound) (fun _ => []) (fun t => [t]) := by
  unfold patternVar
  cases mode with
  | shape =>
    cases bound with
    | none => exact accounts_make fun _ => ⟨by simp, rfl⟩
    | some bound => exact accounts_pure rfl rfl
  | binding =>
    refine emits_patternVars.bind fun vars => ?_
    split
    · exact accounts_fail _ _
    · refine Emits.bind (emits_modify (fun _ => rfl) fun _ => rfl) fun _ => ?_
      refine accounts_make fun hparts => ?_
      cases bound with
      | none => exact ⟨by simp, rfl⟩
      | some bound =>
        refine ⟨by simp, ?_⟩
        simpa [Ty.Hidden] using hparts

theorem emits_readingAt (ctx : Context) (pos : Position) :
    Emits (fun _ => []) (readingAt ctx pos) := by
  unfold readingAt
  split
  · exact accounts_fail _ _
  · exact accounts_pure rfl rfl

/-! ## Expressions -/

/-- A let binds a name of the source; what is generated for its value stays in its own scope. -/
theorem madeOf_let (name : String) {value body : Ty} (hvalue : value.Hidden) (hbody : body.Hidden) :
    MadeOf [body, value] (.paren (.bindExactly (.user name) value body)) := by
  rw [Ty.Hidden] at hvalue hbody
  constructor
  · intro x
    simp [Ty.bindExactly, Ty.bind, Ty.never, hvalue, or_comm]
  · simp [Ty.Hidden, Ty.bindExactly, Ty.bind, Ty.never, hvalue, hbody]

mutual

/-- **The code of an expression keeps the ledger**, whatever was handed out before it. -/
theorem emits_exprTy (ctx : Context) : ∀ e : Expr, Emits (fun t => [t]) (exprTy ctx e)
  | .assignment .. => by
    rw [exprTy]
    exact accounts_fail _ _
  | .binary _ op lhs rhs => by
    rw [exprTy]
    refine (emits_exprTy ctx lhs).bind fun l => (emits_exprTy ctx rhs).bind fun r => ?_
    exact (accounts_binary op l r).of_perm (.swap _ _ _)
  | .logical _ op lhs rhs => by
    rw [exprTy]
    refine (emits_exprTy ctx lhs).bind fun l => (emits_exprTy ctx rhs).bind fun r => ?_
    exact (accounts_combine _ [l, r]).of_perm (.swap _ _ _)
  | .unary _ op operand => by
    rw [exprTy]
    exact (emits_exprTy ctx operand).bind fun t => accounts_unary op t
  | .conditional _ test consequent alternate => by
    rw [exprTy]
    refine (emits_exprTy ctx test).bind fun t => (emits_exprTy ctx consequent).bind fun c =>
      (emits_exprTy ctx alternate).bind fun a => accounts_make fun hparts => ⟨fun x => ?_, ?_⟩
    · simp [conditional, or_comm, or_left_comm]
    · simp only [List.cons_append, List.nil_append, List.forall_mem_cons, Ty.Hidden] at hparts
      simp [conditional, Ty.Hidden, hparts]
  | .call pos callee args => by
    -- The object of a method is two steps down in the tree, out of reach once `callee` is replaced.
    have hobject {p : Position} {object : Expr} {method : String}
        (h : callee = .field p object method) : Emits (fun t => [t]) (exprTy ctx object) :=
      match callee, h with
      | .field _ object _, rfl => emits_exprTy ctx object
    by_cases h : ∃ p object method, callee = .field p object method
    · obtain ⟨p, object, method, rfl⟩ := h
      rw [exprTy]
      refine (emits_methodSymbol _ _).bind fun symbol => (hobject rfl).bind fun t =>
        (emits_exprTys ctx args).bind fun ts => accounts_make fun hparts => ⟨fun x => ?_, ?_⟩
      · simp [Ty.applied, Ty.ofSymbol, mem_tempsOfTys, or_and_right, exists_or, or_comm]
      · have hall : ∀ p ∈ t :: ts, p.Hidden := fun p hp => hparts p (by simpa [or_comm] using hp)
        simpa [Ty.applied, Ty.ofSymbol, Ty.Hidden] using tempIds_inferredOfTys hall
    · rw [exprTy_call _ _ _ h]
      refine (accounts_argTys ctx args).bind fun as => emits_patternVars.bind fun vars => ?_
      exact (emits_exprTy ctx callee).bind fun t => accounts_applyCall _ t as
  | .field _ object name => by
    rw [exprTy]
    refine (emits_exprTy ctx object).bind fun t => accounts_make fun hparts => ⟨by simp, ?_⟩
    simpa [Ty.Hidden] using hparts
  | .index _ object key => by
    rw [exprTy]
    refine (emits_exprTy ctx object).bind fun t => (emits_exprTy ctx key).bind fun k =>
      accounts_make fun hparts => ⟨fun x => by simp [or_comm], ?_⟩
    simpa [Ty.Hidden, and_comm] using hparts
  | .lambda _ params body => by
    rw [exprTy]
    exact emits_liftLambda ctx params (fun inner => emits_boundTys inner params)
      fun inner => emits_exprTy inner body
  | .block pos body => by
    rw [exprTy]
    exact emits_blockTy ctx pos body
  | .matching _ scrutinee arms => by
    rw [exprTy]
    refine (emits_require _).bind fun _ => (emits_require _).bind fun _ =>
      (emits_exprTy ctx scrutinee).bind fun t => (emits_armTys ctx arms).bind fun ts =>
        accounts_make fun hparts => ⟨fun x => ?_, ?_⟩
    · simp [Ty.applied, Ty.ofSymbol, mem_tempsOfTys, or_and_right, exists_or]
    · have ht : tempIds t.inferred = [] := hparts t (by simp)
      have hts : ∀ p ∈ ts, p.Hidden := fun p hp => hparts p (by simp [hp])
      simp [Ty.applied, Ty.ofSymbol, Ty.Hidden, inferredOfTys, ht, tempIds_inferredOfTys hts]
  | .template _ parts => by
    rw [exprTy]
    refine (emits_partTys ctx parts).bind fun ps => accounts_make fun hparts => ?_
    rw [List.append_nil] at hparts ⊢
    exact ⟨fun x => by simp [mem_tempsOfPieces], tempIds_inferredOfPieces hparts⟩
  | .object _ properties => by
    rw [exprTy]
    refine (emits_propertyTys ctx properties).bind fun fs => accounts_make fun hparts => ?_
    rw [List.append_nil] at hparts ⊢
    exact ⟨fun x => by simp [mem_tempsOfFields], tempIds_inferredOfFields hparts⟩
  | .mapped _ key union none optional value => by
    rw [exprTy]
    refine (emits_exprTy ctx union).bind fun u => (emits_exprTy (ctx.bind key) value).bind fun v =>
      accounts_make fun hparts => ⟨fun x => by simp [or_comm], ?_⟩
    simpa [Ty.Hidden, and_comm] using hparts
  | .mapped _ key union (some renamed) optional value => by
    rw [exprTy]
    refine (emits_exprTy ctx union).bind fun u =>
      (emits_exprTy (ctx.bind key) renamed).bind fun r =>
      (emits_exprTy (ctx.bind key) value).bind fun v =>
        accounts_make fun hparts => ⟨fun x => by simp [or_comm, or_left_comm], ?_⟩
    simpa [Ty.Hidden, and_comm, and_assoc] using hparts
  | .tuple _ elements => by
    rw [exprTy]
    refine (emits_exprTys ctx elements).bind fun ts => accounts_make fun hparts => ?_
    rw [List.append_nil] at hparts ⊢
    exact ⟨fun x => by simp [mem_tempsOfTys], tempIds_inferredOfTys hparts⟩
  | .infer pos name none => by
    rw [exprTy]
    exact (emits_readingAt ctx pos).bind fun mode => accounts_patternVar mode pos name none
  | .infer pos name (some bound) => by
    rw [exprTy]
    exact (emits_readingAt ctx pos).bind fun mode => (emits_exprTy ctx bound).bind fun t =>
      accounts_patternVar mode pos name (some t)
  | .ident _ name => by
    rw [exprTy]
    refine emits_patternVars.bind fun vars => ?_
    exact accounts_make fun _ => madeOf_reference vars ctx.scope name
  | .number .. | .string .. | .numberType _ | .stringType _ => by
    rw [exprTy]
    exact accounts_make fun _ => ⟨by simp, rfl⟩

theorem emits_exprTys (ctx : Context) : ∀ es : List Expr, Emits (fun ts => ts) (exprTys ctx es)
  | [] => by
    rw [exprTys]
    exact accounts_pure rfl rfl
  | e :: es => by
    rw [exprTys]
    exact (emits_exprTy ctx e).pair (emits_exprTys ctx es) (fun _ _ => rfl) fun _ _ => rfl

/-- Each argument has its id before its own code is made. -/
theorem accounts_argTys (ctx : Context) : ∀ es : List Expr,
    Accounts [] [] (argTys ctx es) (fun args => args.map Prod.fst) (fun args => args.map Prod.snd)
  | [] => by
    rw [argTys]
    exact accounts_pure rfl rfl
  | e :: es => by
    rw [argTys]
    refine accounts_freshId.bind fun id => (emits_exprTy ctx e).bind fun t => ?_
    refine Accounts.bind ((accounts_argTys ctx es).frame [id] [t]) fun args => ?_
    have hperm := (List.perm_append_singleton t (args.map Prod.snd)).symm
    exact Accounts.of_temps (Accounts.of_perm (accounts_pure rfl rfl) hperm)
      (List.perm_append_singleton id (args.map Prod.fst)).symm (fun _ _ => Iff.rfl) fun h => h

theorem emits_boundTys (ctx : Context) : ∀ ps : List Param, Emits (fun ts => ts) (boundTys ctx ps)
  | [] => by
    rw [boundTys]
    exact accounts_pure rfl rfl
  | .mk _ _ none :: ps => by
    rw [boundTys]
    refine (emits_boundTys ctx ps).bind fun ts => ?_
    refine Accounts.of_temps (accounts_pure rfl rfl) (.refl _) (fun _ x => by simp) fun hparts => ?_
    rw [List.append_nil] at hparts
    exact List.forall_mem_cons.2 ⟨rfl, hparts⟩
  | .mk _ _ (some bound) :: ps => by
    rw [boundTys]
    exact (emits_exprTy ctx bound).pair (emits_boundTys ctx ps) (fun _ _ => rfl) fun _ _ => rfl

theorem emits_blockTy (ctx : Context) (pos : Position) :
    ∀ body : List Stmt, Emits (fun t => [t]) (blockTy ctx pos body)
  | [] => by
    rw [blockTy]
    exact accounts_fail _ _
  | [.expr _ value] => by
    rw [blockTy]
    exact emits_exprTy ctx value
  | .expr p _ :: _ :: _ => by
    rw [blockTy]
    · exact accounts_fail _ _
    · simp
  | .assertEqual p _ _ :: _ => by
    rw [blockTy]
    exact accounts_fail _ _
  | [.letDecl p _ _] => by
    rw [blockTy]
    exact accounts_fail _ _
  | .letDecl _ name value :: s :: rest => by
    rw [blockTy]
    · refine (emits_exprTy ctx value).bind fun v =>
        (emits_blockTy (ctx.bind name) pos (s :: rest)).bind fun b => accounts_make fun hparts => ?_
      exact madeOf_let name (hparts v (by simp)) (hparts b (by simp))
    · simp

theorem emits_armTys (ctx : Context) : ∀ arms : List Arm, Emits (fun ts => ts) (armTys ctx arms)
  | [] => by
    rw [armTys]
    exact accounts_pure rfl rfl
  | .mk _ pattern result :: as => by
    rw [armTys]
    have harm := emits_liftArm ctx (fun inner => emits_exprTy inner pattern)
      fun inner => emits_exprTy inner result
    exact harm.pair (emits_armTys ctx as) (fun _ _ => rfl) fun _ _ => rfl

theorem emits_partTys (ctx : Context) :
    ∀ parts : List Part, Emits (fun ps => ps.flatMap Piece.tys) (partTys ctx parts)
  | [] => by
    rw [partTys]
    exact accounts_pure rfl rfl
  | .text _ :: ps => by
    rw [partTys]
    exact (emits_partTys ctx ps).bind fun ts => accounts_pure rfl (List.append_nil _).symm
  | .expr value :: ps => by
    rw [partTys]
    exact (emits_exprTy ctx value).pair (emits_partTys ctx ps) (fun _ _ => rfl) fun _ _ => rfl

theorem emits_propertyTys (ctx : Context) : ∀ properties : List Property,
    Emits (fun fs => fs.flatMap Field.tys) (propertyTys ctx properties)
  | [] => by
    rw [propertyTys]
    exact accounts_pure rfl rfl
  | .named _ _ _ value :: ps => by
    rw [propertyTys]
    exact (emits_exprTy ctx value).pair (emits_propertyTys ctx ps) (fun _ _ => rfl) fun _ _ => rfl
  | .computed _ key _ value :: ps => by
    rw [propertyTys]
    refine (emits_exprTy ctx key).bind fun k => (emits_exprTy ctx value).bind fun t =>
      (emits_propertyTys ctx ps).bind fun fs => Accounts.of_perm (accounts_pure rfl rfl) ?_
    exact (List.Perm.swap t k _).trans (@List.perm_append_comm _ [t, k] _)

end

end TypeForge.Gen
