import TypeForge.Proofs.Hygiene.Known
import TypeForge.Proofs.Scoping.Conversion

/-!
# Capture of names

Operands are pasted behind generated binders, and generated words behind binders that the
source has chosen.  Nothing renames either, so a word is captured as soon as the source
spells a name like one that is generated.  That is the only way, since every construct makes
known code from known code, and so all words and binders of a program's code are known.
-/

namespace TypeForge

open TypeScript Scoping

/-! ## Computations that keep to known code -/

variable {program : Program}

/-- A state in which only known code was lifted, behind known pattern variables. -/
structure GenState.Known (program : Program) (s : GenState) : Prop where
  patternVars : ∀ x ∈ s.patternVars, x ∈ program.locals
  lifted : ∀ f ∈ s.lifted, f.body.Known program

theorem GenState.Known.lift {s : GenState} (hs : s.Known program)
    {vars : List String} (hvars : ∀ x ∈ vars, x ∈ program.locals) {f : Interface}
    (hf : f.body.Known program) (id : Nat) :
    GenState.Known program { s with
      nextId := id, lifted := s.lifted ++ [f], patternVars := vars } where
  patternVars := hvars
  lifted := List.forall_mem_append.2 ⟨hs.lifted, List.forall_mem_singleton.2 hf⟩

theorem GenState.Known.of_undisturbed {s s' : GenState} (hs : s.Known program)
    (h : s.Undisturbed s') : s'.Known program where
  patternVars := h.patternVars_eq ▸ hs.patternVars
  lifted := h.lifted_eq ▸ hs.lifted

/-- A place behind known local binders. -/
def Context.Known (program : Program) (ctx : Context) : Prop :=
  ∀ x ∈ ctx.scope.locals, x ∈ program.locals

theorem Context.Known.bind {ctx : Context} (h : ctx.Known program) {name : String}
    (hname : name ∈ program.locals) : (ctx.bind name).Known program := by
  intro x hx
  rcases List.mem_append.1 hx with hx | hx
  · exact h x hx
  · rwa [List.mem_singleton.1 hx]

/-- A lifted body is behind no binders yet. -/
theorem Context.known_inside (ctx : Context) (captures own : List String)
    (mode : Option PatternMode) : (ctx.inside captures own mode).Known program :=
  fun _ hx => absurd hx List.not_mem_nil

namespace Gen

variable {α β : Type} {m : Gen α} {f : α → Gen β} {P P' : α → Prop} {Q : β → Prop}

/-- From a known state, a successful run of `m` leads to a known state, with a result that
satisfies `post`. -/
def Upholds (program : Program) (m : Gen α) (post : α → Prop) : Prop :=
  ∀ ⦃s : GenState⦄ ⦃a : α⦄ ⦃s' : GenState⦄, m.Yields s a s' → s.Known program →
    s'.Known program ∧ post a

theorem upholds_of_quiet (hm : Quiet m) (hP : Returns P m) : Upholds program m P := by
  intro s a s' h hs
  have hquiet := hm h
  refine ⟨⟨?_, ?_⟩, hP h⟩
  · rw [hquiet.patternVars_eq]
    exact hs.patternVars
  · rw [hquiet.lifted_eq]
    exact hs.lifted

theorem upholds_pure {a : α} (h : P a) : Upholds program (pure a) P :=
  upholds_of_quiet (quiet_pure a) (returns_pure h)

theorem upholds_fail (pos : Position) (error : GenError) : Upholds program (fail pos error) P :=
  fun _ _ _ h => absurd h yields_fail

theorem Upholds.bind (hm : Upholds program m P) (hf : ∀ a, P a → Upholds program (f a) Q) :
    Upholds program (m >>= f) Q := by
  intro s b s' h hs
  obtain ⟨a, t, ha, hb⟩ := yields_bind.1 h
  obtain ⟨ht, hPa⟩ := hm ha hs
  exact hf a hPa hb ht

theorem Upholds.of_map {g : α → β} (h : Upholds program (do return g (← m)) Q) :
    Upholds program m fun a => Q (g a) :=
  fun _ a _ ha => h (yields_bind.2 ⟨a, _, ha, yields_pure.2 ⟨rfl, rfl⟩⟩)

/-- A quiet computation whose result does not matter in front of another. -/
theorem upholds_skip (hm : Quiet m) (hf : ∀ a, Upholds program (f a) Q) :
    Upholds program (m >>= f) Q :=
  (upholds_of_quiet (P := fun _ => True) hm fun _ _ _ _ => trivial).bind fun a _ => hf a

/-! ## The constructs -/

theorem knownTys_iff {ts : List Ty} : KnownTys program ts ↔ ∀ t ∈ ts, t.Known program := by
  induction ts with
  | nil => simp
  | cons t ts ih => simp [ih]

theorem knownTys_map {γ : Type} {g : γ → Ty} {cs : List γ} (h : ∀ c ∈ cs, (g c).Known program) :
    KnownTys program (cs.map g) := by
  rw [knownTys_iff, List.forall_mem_map]
  exact h

theorem known_bindOperands {isNumeric : Bool} {operands : List (Nat × Ty)} {body : Ty}
    (hoperands : ∀ operand ∈ operands, operand.2.Known program) (hbody : body.Known program) :
    (bindOperands (operandBound isNumeric) operands body).Known program := by
  have hbound : ∀ id, (Ty.infer (.temp id) (operandBound isNumeric)).Known program := by
    intro id
    cases isNumeric <;> simp [operandBound, Name.Known]
  induction operands with
  | nil => exact hbody
  | cons operand operands ih =>
    obtain ⟨hoperand, hrest⟩ := List.forall_mem_cons.1 hoperands
    exact ⟨hoperand, hbound _, ih hrest, trivial⟩

theorem known_combinatorResult {c : Combinator} (hc : c ∈ Lowering.operators) (ids : List Nat) :
    (combinatorResult c ids).Known program := by
  have hsymbol := Symbol.mem_emitted_of_operator hc
  have hcall : Symbol.call ∈ Symbol.emitted := by decide
  have htemps : KnownTys program (ids.map fun id => .name (.temp id)) :=
    knownTys_map fun _ _ => trivial
  have hresult : (combinatorCall c (ids.map fun id => .name (.temp id))).Known program := by
    unfold combinatorCall
    cases c.application <;> simp [Ty.applied, Ty.ofSymbol, hsymbol, hcall, htemps]
  unfold combinatorResult
  split
  · exact ⟨hresult, trivial, trivial, trivial⟩
  · exact hresult

theorem known_combine {c : Combinator} (hc : c ∈ Lowering.operators) {operands : List Ty}
    (h : KnownTys program operands) : Returns (Ty.Known program) (combine c operands) := by
  refine (returns_combine c operands).imp ?_
  rintro _ ⟨ids, -, rfl⟩
  refine known_bindOperands (fun operand hoperand => ?_) (known_combinatorResult hc ids)
  exact knownTys_iff.1 h _ (List.of_mem_zip hoperand).2

theorem known_binary (op : BinaryOp) {lhs rhs : Ty} (hl : lhs.Known program)
    (hr : rhs.Known program) : Returns (Ty.Known program) (binary op lhs rhs) := by
  unfold binary
  split
  · exact returns_pure ⟨hl, hr⟩
  · next c hc => exact known_combine (Lowering.combinator_mem_operators hc) ⟨hl, hr, trivial⟩

theorem known_unary (op : UnaryOp) {operand : Ty} (h : operand.Known program) :
    Returns (Ty.Known program) (unary op operand) := by
  unfold unary
  split
  · refine returns_skip fun id => returns_pure (known_bindOperands ?_ trivial)
    exact List.forall_mem_singleton.2 h
  · next c hc => exact known_combine (Lowering.unary_mem_operators hc) ⟨h, trivial⟩

theorem known_bindArgs {args : List (Nat × Ty)} {body : Ty}
    (hargs : KnownTys program (args.map Prod.snd)) (hbody : body.Known program) :
    (bindArgs args body).Known program := by
  induction args with
  | nil => exact hbody
  | cons arg args ih =>
    exact ⟨hargs.1, ⟨trivial, hargs.1⟩, ih hargs.2, trivial⟩

theorem known_applyCall (arity : Option Nat) {callee : Ty} {args : List (Nat × Ty)}
    (hcallee : callee.Known program) (hargs : KnownTys program (args.map Prod.snd)) :
    Returns (Ty.Known program) (applyCall arity callee args) := by
  unfold applyCall
  split
  · exact returns_pure (known_bindArgs hargs hcallee)
  · have htemps : KnownTys program (args.map fun arg => .name (.temp arg.1)) :=
      knownTys_map fun _ _ => trivial
    have hfull : Symbol.applyAll ∈ Symbol.emitted := by decide
    have hpart : Symbol.applyPart ∈ Symbol.emitted := by decide
    refine (returns_application _ _ _).bind fun body hbody =>
      returns_pure (known_bindArgs hargs ?_)
    rcases hbody with rfl | rfl | rfl <;>
      simp [Ty.applied, Ty.ofSymbol, Ty.never, hcallee, htemps, hfull, hpart]

theorem known_methodSymbol (pos : Position) (name : String) :
    Returns (fun s => s ∈ Symbol.emitted) (methodSymbol pos name) := by
  unfold methodSymbol
  split
  · exact returns_fail _ _
  · next s hs => exact returns_skip fun _ => returns_pure (Symbol.mem_emitted_of_method hs)

/-! ## Lifted functions -/

variable {ctx : Context} {vars own : List String} {name : String}

theorem mem_locals_of_resolve {scope : Scope} (h : scope.resolve name = .bound) :
    name ∈ scope.locals := by
  unfold Scope.resolve at h
  split at h
  · cases h
  · split at h
    · cases h
    · split at h
      · assumption
      · cases h

theorem known_reference {scope : Scope} (h : name ∈ program.identifiers) :
    (reference vars scope name).Known program := by
  unfold reference
  split
  · exact .inl h
  · split
    · trivial
    · trivial
    · exact .inl h
    · exact .inl h

/-- What a closure takes along by its name is a local name. -/
theorem known_capture (hctx : ctx.Known program) (hvars : ∀ x ∈ vars, x ∈ program.locals)
    (h : name ∈ ctx.scope.captures vars own) :
    (reference vars ctx.scope name).Known program := by
  obtain ⟨-, hbound⟩ := Scope.mem_captures_iff.1 h
  by_cases hname : name ∈ vars
  · rw [reference_of_mem hname]
    exact .inr (hvars name hname)
  · rw [reference_of_resolve hname]
    cases hresolve : ctx.scope.resolve name with
    | captured slot => trivial
    | param slot => trivial
    | bound => exact .inr (hctx name (mem_locals_of_resolve hresolve))
    | unbound => exact absurd hresolve (hbound.resolve_left hname)

theorem known_closure (hctx : ctx.Known program) (hvars : ∀ x ∈ vars, x ∈ program.locals)
    {lifted : Name} (hlifted : lifted.isLifted = true) :
    (Ty.closure lifted ((ctx.scope.captures vars own).map (reference vars ctx.scope))).Known
      program := by
  have hname : (BareWord.name lifted).Known program := by
    cases lifted with
    | user text => cases hlifted
    | _ => trivial
  have hpart : Symbol.applyPart ∈ Symbol.emitted := by decide
  have hcaptured : KnownTys program
      ((ctx.scope.captures vars own).map (reference vars ctx.scope)) :=
    knownTys_map fun name hname => known_capture hctx hvars hname
  simp [Ty.closure, Ty.applied, Ty.ofSymbol, hname, hpart, hcaptured]

theorem upholds_guarded {params : List Param} {bounds : Gen (List Ty)} {body : Gen Ty}
    (hbounds : Upholds program bounds (KnownTys program))
    (hbody : Upholds program body (Ty.Known program)) :
    Upholds program (guarded params bounds body) (Ty.Known program) := by
  unfold guarded
  split
  · exact hbody
  · refine hbounds.bind fun ts hts => hbody.bind fun t ht => upholds_pure ?_
    have hargs : KnownTys program ((List.range params.length).map fun i => .arg (i + 1)) :=
      knownTys_map fun _ _ => trivial
    exact ⟨hargs, hts, ht, trivial⟩

theorem upholds_liftLambda {params : List Param} {bounds : Context → Gen (List Ty)}
    {body : Context → Gen Ty} (hctx : ctx.Known program)
    (h : ∀ inner : Context, inner.Known program → inner.mode = none →
      Upholds program (guarded params (bounds inner) (body inner)) (Ty.Known program)) :
    Upholds program (liftLambda ctx params bounds body) (Ty.Known program) := by
  intro s t s' ht hs
  obtain ⟨s₀, code, s₁, hs₀, hcode, rfl, rfl⟩ := ht.of_liftLambda
  have hstart : GenState.Known program { s₀ with patternVars := [] } :=
    ⟨fun _ hx => absurd hx List.not_mem_nil, (hs.of_undisturbed hs₀).lifted⟩
  obtain ⟨hs₁, hbody⟩ := h _ (ctx.known_inside _ _ _) rfl hcode hstart
  exact ⟨hs₁.lift hs.patternVars hbody _, known_closure hctx hs.patternVars rfl⟩

theorem upholds_liftArm {pattern result : Context → Gen Ty} (hctx : ctx.Known program)
    (hpattern : ∀ inner : Context, inner.Known program → inner.mode.isSome = true →
      Upholds program (pattern inner) (Ty.Known program))
    (hresult : ∀ inner : Context, inner.Known program → inner.mode = none →
      Upholds program (result inner) (Ty.Known program)) :
    Upholds program (liftArm ctx pattern result) (Ty.Known program) := by
  intro s t s' ht hs
  obtain ⟨s₀, site, s₁, binder, s₂, code, s₃, hs₀, hsite, hbinder, hcode, rfl, rfl⟩ := ht.of_liftArm
  obtain ⟨hs₁, hsiteKnown⟩ := hpattern (ctx.reading .shape) hctx rfl hsite (hs.of_undisturbed hs₀)
  have hstart : GenState.Known program { s₁ with patternVars := [] } :=
    ⟨fun _ hx => absurd hx List.not_mem_nil, hs₁.lifted⟩
  obtain ⟨hs₂, hbinderKnown⟩ := hpattern _ (ctx.known_inside _ _ _) rfl hbinder hstart
  obtain ⟨hs₃, hcodeKnown⟩ := hresult _ (ctx.known_inside _ _ _) rfl hcode hs₂
  have hmatching : Symbol.matching ∈ Symbol.emitted := by decide
  have hbody : (Ty.conditional (.arg 1) binder code .never).Known program :=
    ⟨trivial, hbinderKnown, hcodeKnown, trivial⟩
  refine ⟨hs₃.lift hs.patternVars (f := ⟨_, _⟩) hbody _, ?_⟩
  exact ⟨hmatching, hsiteKnown, known_closure hctx hs.patternVars rfl, trivial⟩

theorem upholds_patternVar {mode : PatternMode} (pos : Position) {bound : Option Ty}
    (hname : name ∈ program.locals) (hbound : ∀ t ∈ bound, t.Known program) :
    Upholds program (patternVar mode pos name bound) (Ty.Known program) := by
  cases mode with
  | shape =>
    refine upholds_pure ?_
    cases bound with
    | none => trivial
    | some t => exact hbound t rfl
  | binding =>
    intro s t s' ht hs
    obtain ⟨-, rfl, rfl⟩ := yields_patternVar_binding.1 ht
    refine ⟨⟨?_, hs.lifted⟩, ?_⟩
    · exact List.forall_mem_append.2 ⟨hs.patternVars, List.forall_mem_singleton.2 hname⟩
    · cases bound with
      | none => exact hname
      | some t => exact ⟨hname, hbound t rfl⟩

/-! ## Expressions -/

mutual

/-- **The code of an expression of the program is known.** -/
theorem upholds_exprTy {ctx : Context} (hctx : ctx.Known program) : ∀ e : Expr,
    e.places ctx.mode.isSome ⊆ program.places → Upholds program (exprTy ctx e) (Ty.Known program)
  | .assignment .., _ => by
    rw [exprTy]
    exact upholds_fail _ _
  | .binary _ op lhs rhs, h => by
    simp only [Expr.places, List.cons_subset, List.append_subset] at h
    rw [exprTy]
    exact (upholds_exprTy hctx lhs h.2.1).bind fun _ hl => (upholds_exprTy hctx rhs h.2.2).bind
      fun _ hr => upholds_of_quiet (quiet_binary _ _ _) (known_binary op hl hr)
  | .logical _ op lhs rhs, h => by
    simp only [Expr.places, List.cons_subset, List.append_subset] at h
    rw [exprTy]
    exact (upholds_exprTy hctx lhs h.2.1).bind fun _ hl => (upholds_exprTy hctx rhs h.2.2).bind
      fun _ hr => upholds_of_quiet (quiet_combine _ _)
        (known_combine (Lowering.logical_mem_operators op) ⟨hl, hr, trivial⟩)
  | .unary _ op operand, h => by
    simp only [Expr.places, List.cons_subset] at h
    rw [exprTy]
    exact (upholds_exprTy hctx operand h.2).bind fun _ ht =>
      upholds_of_quiet (quiet_unary _ _) (known_unary op ht)
  | .conditional _ test consequent alternate, h => by
    simp only [Expr.places, List.cons_subset, List.append_subset] at h
    rw [exprTy]
    exact (upholds_exprTy hctx test h.2.1).bind fun _ ht =>
      (upholds_exprTy hctx consequent h.2.2.1).bind fun _ hc =>
        (upholds_exprTy hctx alternate h.2.2.2).bind fun _ ha =>
          upholds_pure ⟨ht, trivial, hc, ha⟩
  | .call pos callee args, h => by
    simp only [Expr.places, List.cons_subset, List.append_subset] at h
    have hcallee := upholds_exprTy hctx callee h.2.1
    by_cases hfield : ∃ p object method, callee = .field p object method
    · obtain ⟨p, object, method, rfl⟩ := hfield
      rw [exprTy] at hcallee
      rw [exprTy]
      exact (upholds_of_quiet (quiet_methodSymbol _ _) (known_methodSymbol pos method)).bind
        fun _ hs => hcallee.of_map.bind fun _ ht => (upholds_exprTys hctx args h.2.2).bind
          fun _ hts => upholds_pure ⟨hs, ht.1, hts⟩
    · rw [exprTy_call _ _ _ hfield]
      exact (upholds_argTys hctx args h.2.2).bind fun _ has => upholds_skip quiet_patternVars
        fun _ => hcallee.bind fun _ ht =>
          upholds_of_quiet (quiet_applyCall _ _ _) (known_applyCall _ ht has)
  | .field _ object name, h => by
    simp only [Expr.places, List.cons_subset] at h
    rw [exprTy]
    exact (upholds_exprTy hctx object h.2).bind fun _ ht => upholds_pure ⟨ht, trivial⟩
  | .index _ object key, h => by
    simp only [Expr.places, List.cons_subset, List.append_subset] at h
    rw [exprTy]
    exact (upholds_exprTy hctx object h.2.1).bind fun _ ht => (upholds_exprTy hctx key h.2.2).bind
      fun _ hk => upholds_pure ⟨ht, hk⟩
  | .lambda _ params body, h => by
    simp only [Expr.places, List.cons_subset, List.append_subset] at h
    rw [exprTy]
    refine upholds_liftLambda hctx fun inner hinner hmode => ?_
    refine upholds_guarded (upholds_boundTys hinner hmode params h.2.1) ?_
    exact upholds_exprTy hinner body (by rw [hmode]; exact h.2.2)
  | .block pos body, h => by
    simp only [Expr.places, List.cons_subset] at h
    rw [exprTy]
    exact upholds_blockTy hctx pos body (fun _ hx => Program.mem_locals h.1 hx) h.2
  | .matching _ scrutinee arms, h => by
    simp only [Expr.places, List.cons_subset, List.append_subset] at h
    have hmatching : Symbol.matching ∈ Symbol.emitted := by decide
    have hcall : Symbol.call ∈ Symbol.emitted := by decide
    rw [exprTy]
    exact upholds_skip (quiet_require _) fun _ => upholds_skip (quiet_require _) fun _ =>
      (upholds_exprTy hctx scrutinee h.2.1).bind fun _ ht => (upholds_armTys hctx arms h.2.2).bind
        fun _ has => upholds_pure ⟨hcall, ⟨hmatching, has, trivial⟩, ht, trivial⟩
  | .template _ parts, h => by
    simp only [Expr.places, List.cons_subset] at h
    rw [exprTy]
    exact (upholds_partTys hctx parts h.2).bind fun _ hps => upholds_pure hps
  | .object _ properties, h => by
    simp only [Expr.places, List.cons_subset] at h
    rw [exprTy]
    exact (upholds_propertyTys hctx properties h.2).bind fun _ hps => upholds_pure hps
  | .mapped _ key union none optional value, h => by
    simp only [Expr.places, List.cons_subset, List.append_subset] at h
    have hkey : key ∈ program.locals := Program.mem_locals h.1 (List.mem_singleton_self key)
    rw [exprTy]
    exact (upholds_exprTy hctx union h.2.1).bind fun _ hu =>
      (upholds_exprTy (hctx.bind hkey) value h.2.2).bind fun _ hv => upholds_pure ⟨hkey, hu, hv⟩
  | .mapped _ key union (some renamed) optional value, h => by
    simp only [Expr.places, List.cons_subset, List.append_subset] at h
    have hkey : key ∈ program.locals := Program.mem_locals h.1 (List.mem_singleton_self key)
    rw [exprTy]
    exact (upholds_exprTy hctx union h.2.1).bind fun _ hu =>
      (upholds_exprTy (hctx.bind hkey) renamed h.2.2.1).bind fun _ hr =>
        (upholds_exprTy (hctx.bind hkey) value h.2.2.2).bind fun _ hv =>
          upholds_pure ⟨hkey, hu, hr, hv⟩
  | .tuple _ elements, h => by
    simp only [Expr.places, List.cons_subset] at h
    rw [exprTy]
    exact (upholds_exprTys hctx elements h.2).bind fun _ hts => upholds_pure hts
  | .infer pos name none, h => by
    simp only [Expr.places, List.cons_subset] at h
    have hname : name ∈ program.locals := Program.mem_locals h.1 (List.mem_singleton_self name)
    rw [exprTy]
    exact upholds_skip (quiet_readingAt _ _) fun _ =>
      upholds_patternVar pos hname fun _ ht => nomatch ht
  | .infer pos name (some bound), h => by
    simp only [Expr.places, List.cons_subset] at h
    have hname : name ∈ program.locals := Program.mem_locals h.1 (List.mem_singleton_self name)
    rw [exprTy]
    refine upholds_skip (quiet_readingAt _ _) fun _ => (upholds_exprTy hctx bound h.2).bind
      fun t ht => upholds_patternVar pos hname fun t' ht' => ?_
    cases ht'
    exact ht
  | .ident _ name, h => by
    simp only [Expr.places, List.cons_subset] at h
    rw [exprTy]
    refine upholds_skip quiet_patternVars fun vars => upholds_pure ?_
    exact known_reference (Program.mem_identifiers h.1 (List.mem_singleton_self name))
  | .number .., _ | .string .., _ | .numberType _, _ | .stringType _, _ => by
    rw [exprTy]
    exact upholds_pure trivial

theorem upholds_exprTys {ctx : Context} (hctx : ctx.Known program) : ∀ es : List Expr,
    placesOfExprs ctx.mode.isSome es ⊆ program.places →
      Upholds program (exprTys ctx es) (KnownTys program)
  | [], _ => by
    rw [exprTys]
    exact upholds_pure trivial
  | e :: es, h => by
    simp only [placesOfExprs, List.append_subset] at h
    rw [exprTys]
    exact (upholds_exprTy hctx e h.1).bind fun _ ht => (upholds_exprTys hctx es h.2).bind
      fun _ hts => upholds_pure ⟨ht, hts⟩

theorem upholds_argTys {ctx : Context} (hctx : ctx.Known program) : ∀ es : List Expr,
    placesOfExprs ctx.mode.isSome es ⊆ program.places →
      Upholds program (argTys ctx es) fun args => KnownTys program (args.map Prod.snd)
  | [], _ => by
    rw [argTys]
    exact upholds_pure trivial
  | e :: es, h => by
    simp only [placesOfExprs, List.append_subset] at h
    rw [argTys]
    exact upholds_skip quiet_freshId fun _ => (upholds_exprTy hctx e h.1).bind fun _ ht =>
      (upholds_argTys hctx es h.2).bind fun _ hts => upholds_pure ⟨ht, hts⟩

theorem upholds_boundTys {ctx : Context} (hctx : ctx.Known program) (hmode : ctx.mode = none) :
    ∀ params : List Param, placesOfBounds params ⊆ program.places →
      Upholds program (boundTys ctx params) (KnownTys program)
  | [], _ => by
    rw [boundTys]
    exact upholds_pure trivial
  | .mk _ _ none :: ps, h => by
    rw [placesOfBounds] at h
    rw [boundTys]
    exact (upholds_boundTys hctx hmode ps h).bind fun _ hts => upholds_pure ⟨trivial, hts⟩
  | .mk _ _ (some bound) :: ps, h => by
    simp only [placesOfBounds, List.append_subset] at h
    rw [boundTys]
    exact (upholds_exprTy hctx bound (by rw [hmode]; exact h.1)).bind fun _ ht =>
      (upholds_boundTys hctx hmode ps h.2).bind fun _ hts => upholds_pure ⟨ht, hts⟩

theorem upholds_blockTy {ctx : Context} (hctx : ctx.Known program) (pos : Position) :
    ∀ body : List Stmt, body.filterMap Stmt.letName? ⊆ program.locals →
      placesOfStmts ctx.mode.isSome body ⊆ program.places →
        Upholds program (blockTy ctx pos body) (Ty.Known program)
  | [], _, _ => by
    rw [blockTy]
    exact upholds_fail _ _
  | [.expr _ value], _, h => by
    simp only [placesOfStmts, List.append_subset] at h
    rw [blockTy]
    exact upholds_exprTy hctx value h.1
  | .expr p _ :: _ :: _, _, _ => by
    rw [blockTy]
    · exact upholds_fail _ _
    · simp
  | .assertEqual p _ _ :: _, _, _ => by
    rw [blockTy]
    exact upholds_fail _ _
  | [.letDecl p _ _], _, _ => by
    rw [blockTy]
    exact upholds_fail _ _
  | .letDecl _ name value :: s :: rest, hlets, h => by
    rw [placesOfStmts, List.append_subset] at h
    simp only [List.filterMap_cons, Stmt.letName?, List.cons_subset] at hlets
    rw [blockTy]
    · exact (upholds_exprTy hctx value h.1).bind fun _ hv =>
        (upholds_blockTy (hctx.bind hlets.1) pos (s :: rest) hlets.2 h.2).bind fun _ hb =>
          upholds_pure ⟨hv, ⟨hlets.1, hv⟩, hb, trivial⟩
    · simp

theorem upholds_armTys {ctx : Context} (hctx : ctx.Known program) : ∀ arms : List Arm,
    placesOfArms arms ⊆ program.places → Upholds program (armTys ctx arms) (KnownTys program)
  | [], _ => by
    rw [armTys]
    exact upholds_pure trivial
  | .mk _ pattern result :: as, h => by
    simp only [placesOfArms, List.append_subset] at h
    rw [armTys]
    refine (upholds_liftArm hctx (fun inner hinner hmode => ?_)
      fun inner hinner hmode => ?_).bind fun _ ht => (upholds_armTys hctx as h.2.2).bind
        fun _ hts => upholds_pure ⟨ht, hts⟩
    · exact upholds_exprTy hinner pattern (by rw [hmode]; exact h.1)
    · exact upholds_exprTy hinner result (by rw [hmode]; exact h.2.1)

theorem upholds_partTys {ctx : Context} (hctx : ctx.Known program) : ∀ parts : List Part,
    placesOfParts ctx.mode.isSome parts ⊆ program.places →
      Upholds program (partTys ctx parts) (KnownPieces program)
  | [], _ => by
    rw [partTys]
    exact upholds_pure trivial
  | .text _ :: ps, h => by
    rw [placesOfParts] at h
    rw [partTys]
    exact (upholds_partTys hctx ps h).bind fun _ hps => upholds_pure hps
  | .expr value :: ps, h => by
    simp only [placesOfParts, List.append_subset] at h
    rw [partTys]
    exact (upholds_exprTy hctx value h.1).bind fun _ ht => (upholds_partTys hctx ps h.2).bind
      fun _ hps => upholds_pure ⟨ht, hps⟩

theorem upholds_propertyTys {ctx : Context} (hctx : ctx.Known program) :
    ∀ properties : List Property, placesOfProperties ctx.mode.isSome properties ⊆ program.places →
      Upholds program (propertyTys ctx properties) (KnownFields program)
  | [], _ => by
    rw [propertyTys]
    exact upholds_pure trivial
  | .named _ _ _ value :: ps, h => by
    simp only [placesOfProperties, List.append_subset] at h
    rw [propertyTys]
    exact (upholds_exprTy hctx value h.1).bind fun _ ht => (upholds_propertyTys hctx ps h.2).bind
      fun _ hps => upholds_pure ⟨ht, hps⟩
  | .computed _ key _ value :: ps, h => by
    simp only [placesOfProperties, List.append_subset] at h
    rw [propertyTys]
    exact (upholds_exprTy hctx key h.1).bind fun _ hk => (upholds_exprTy hctx value h.2.1).bind
      fun _ ht => (upholds_propertyTys hctx ps h.2.2).bind fun _ hps =>
        upholds_pure ⟨hk, ht, hps⟩

end

/-! ## Programs -/

/-- A declaration of known code under a known name. -/
structure Alias.Known (program : Program) (a : Alias) : Prop where
  name : a.name.Known program
  value : a.value.Known program

/-- A declaration of known code; the names of a section have to be known too. -/
def Declaration.Known (program : Program) : Declaration → Prop
  | .named _ type => type.value.Known program
  | .group _ body => ∀ a ∈ body, Alias.Known program a
  | .importOf .. => True

theorem Declaration.Known.occurrences {d : Declaration} (h : Declaration.Known program d) :
    ∀ o ∈ d.occurrences, o.Known program := by
  cases d with
  | named isExported type => exact Ty.Known.occurrences h fun _ hb => nomatch hb
  | group name body =>
    have hnames : ∀ b ∈ body.map Alias.name, b.Known program :=
      List.forall_mem_map.2 fun a ha => (h a ha).name
    intro o ho
    obtain ⟨a, ha, ho⟩ := List.mem_flatMap.1 ho
    exact (h a ha).value.occurrences hnames o ho
  | importOf symbols source => exact fun _ ho => nomatch ho

end Gen

/-! ## Hygiene -/

namespace TypeScript.Module

end TypeScript.Module

end TypeForge
