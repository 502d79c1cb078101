import TypeForge.Proofs.Scoping.Conversion
import TypeForge.Proofs.Scoping.Namesakes

/-!
# Names in the patterns of arms

The pattern of an arm is generated twice: where the match stands, as the shape of the values that
the arm accepts, and in the function that is lifted for the arm, where its variables bind names.
The identifiers of the pattern stand for what they stand for around the match, in both places;
except for those that are met behind a variable of the same name in the second reading, since that
variable is known by then.

The proof is an induction on the syntax tree that keeps track of what was met so far (`Walks`).
-/

namespace TypeForge.Scoping

open TypeScript Gen

variable {α β : Type} {mode : Option PatternMode} {vars : List String}
  {before met more : List Meeting}

/-- The pattern variables are `vars` and those bound by what was met. -/
def Knows (mode : Option PatternMode) (vars : List String) (ms : List Meeting) (s : GenState) :
    Prop :=
  ∀ x, x ∈ s.patternVars ↔ x ∈ vars ∨ HasBound mode x ms

theorem Knows.append {s s' : GenState} (h : Knows mode vars before s)
    (hnew : ∀ x, x ∈ s'.patternVars ↔ x ∈ s.patternVars ∨ HasBound mode x met) :
    Knows mode vars (before ++ met) s' := by
  intro x
  rw [hnew, h x, hasBound_append, or_assoc]

/-- What is met without being lost is no variable of the pattern around it. -/
theorem Knows.mem_iff {s : GenState} (h : Knows mode vars before s) {x : String}
    (hclear : Clear mode x (before ++ met)) (hmeets : Meets x met) :
    x ∈ s.patternVars ↔ x ∈ vars := by
  rw [h x, or_iff_left (hclear.not_hasBound hmeets)]

/-- A successful run of `m` behind `before` gets to know the variables that are met, and if `x` is
not lost its result satisfies `post` for every table that holds the functions lifted so far. -/
def Walks (mode : Option PatternMode) (vars : List String) (before met : List Meeting) (m : Gen α)
    (post : List Lifted → String → α → Prop) : Prop :=
  ∀ ⦃s : GenState⦄ ⦃a : α⦄ ⦃s' : GenState⦄, m.Yields s a s' → Knows mode vars before s →
    Knows mode vars (before ++ met) s' ∧
      ∀ table : List Lifted, table.map Lifted.toInterface = s.lifted →
        ∃ table' : List Lifted, table ⊆ table' ∧ table'.map Lifted.toInterface = s'.lifted ∧
          ∀ final, table' ⊆ final → Distinct final → ∀ x, ¬ IsGenerated x →
            Clear mode x (before ++ met) → post final x a

section

variable {m : Gen α} {f : α → Gen β} {P : List Lifted → String → α → Prop}
  {Q : List Lifted → String → β → Prop}

theorem walks_of_binds {bound : List String} (hm : Binds bound m)
    (hmet : ∀ x, x ∈ bound ↔ HasBound mode x met)
    (hP : ∀ final x, Returns (P final x) m) : Walks mode vars before met m P := by
  intro s a s' h hknows
  have hs := hm h
  refine ⟨hknows.append fun x => ?_, fun table htable => ?_⟩
  · rw [hs.patternVars_eq, List.mem_append, hmet]
  · obtain ⟨table', hsub, htable'⟩ := exists_table_extending htable hs.lifted_grows
    exact ⟨table', hsub, htable', fun final _ _ x _ _ => hP final x h⟩

theorem walks_pure {a : α} (h : ∀ final x, P final x a) : Walks mode vars before [] (pure a) P :=
  walks_of_binds (binds_pure a) (by simp [HasBound]) fun final x => returns_pure (h final x)

theorem walks_fail (pos : Position) (error : GenError) :
    Walks mode vars before met (fail pos error) P :=
  fun _ _ _ h => absurd h yields_fail

theorem Walks.bind (hm : Walks mode vars before met m P)
    (hf : ∀ a, Walks mode vars (before ++ met) more (f a) fun final x b =>
      P final x a → Q final x b) :
    Walks mode vars before (met ++ more) (m >>= f) Q := by
  intro s b s' h hknows
  obtain ⟨a, t, ha, hb⟩ := yields_bind.1 h
  obtain ⟨hknows', hm⟩ := hm ha hknows
  obtain ⟨hknows'', hf⟩ := hf a hb hknows'
  rw [← List.append_assoc]
  refine ⟨hknows'', fun table htable => ?_⟩
  obtain ⟨table', hsub, htable', hP⟩ := hm table htable
  obtain ⟨table'', hsub', htable'', hQ⟩ := hf table' htable'
  refine ⟨table'', List.Subset.trans hsub hsub', htable'',
    fun final hfinal hdistinct x hx hclear => ?_⟩
  exact hQ final hfinal hdistinct x hx hclear
    (hP final (List.Subset.trans hsub' hfinal) hdistinct x hx hclear.left)

/-- A quiet computation at the end. -/
theorem Walks.andThen (hm : Walks mode vars before met m P) (hf : ∀ a, Quiet (f a))
    (h : ∀ final x a, ¬ IsGenerated x → Clear mode x (before ++ met) → P final x a →
      Returns (Q final x) (f a)) : Walks mode vars before met (m >>= f) Q := by
  intro s b s' hb hknows
  obtain ⟨a, t, ha, hb⟩ := yields_bind.1 hb
  obtain ⟨hknows', hm⟩ := hm ha hknows
  have ht := hf a hb
  refine ⟨fun x => ht.patternVars_eq ▸ hknows' x, fun table htable => ?_⟩
  obtain ⟨table', hsub, htable', hP⟩ := hm table htable
  refine ⟨table', hsub, htable'.trans ht.lifted_eq.symm,
    fun final hfinal hdistinct x hx hclear => ?_⟩
  exact h final x a hx hclear (hP final hfinal hdistinct x hx hclear) hb

theorem Walks.map (hm : Walks mode vars before met m P) (g : α → β)
    (h : ∀ final x a, Clear mode x (before ++ met) → P final x a → Q final x (g a)) :
    Walks mode vars before met (do return g (← m)) Q :=
  hm.andThen (fun a => quiet_pure (g a)) fun final x a _ hclear ha =>
    returns_pure (h final x a hclear ha)

theorem Walks.of_map {g : α → β} (h : Walks mode vars before met (do return g (← m)) Q) :
    Walks mode vars before met m fun final x a => Q final x (g a) :=
  fun _ a _ ha => h (yields_bind.2 ⟨a, _, ha, yields_pure.2 ⟨rfl, rfl⟩⟩)

theorem Walks.imp {P' : List Lifted → String → α → Prop} (hm : Walks mode vars before met m P)
    (h : ∀ final x a, P final x a → P' final x a) : Walks mode vars before met m P' := by
  simpa using hm.map id fun final x a _ => h final x a

theorem Walks.and (hm : Walks mode vars before met m P) {R : α → Prop} (h : Returns R m) :
    Walks mode vars before met m fun final x a => P final x a ∧ R a := by
  intro s a s' ha hknows
  obtain ⟨hknows', hm⟩ := hm ha hknows
  refine ⟨hknows', fun table htable => ?_⟩
  obtain ⟨table', hsub, htable', hP⟩ := hm table htable
  exact ⟨table', hsub, htable', fun final hfinal hdistinct x hx hclear =>
    ⟨hP final hfinal hdistinct x hx hclear, h ha⟩⟩

/-- A quiet computation in front. -/
theorem walks_bind_returns {R : α → Prop} (hm : Quiet m) (hR : Returns R m)
    (hf : ∀ a, R a → Walks mode vars before met (f a) Q) :
    Walks mode vars before met (m >>= f) Q := by
  intro s b s' h hknows
  obtain ⟨a, t, ha, hb⟩ := yields_bind.1 h
  have ht := hm ha
  obtain ⟨hknows', hf⟩ := hf a (hR ha) hb fun x => ht.patternVars_eq ▸ hknows x
  exact ⟨hknows', fun table htable => hf table (htable.trans ht.lifted_eq.symm)⟩

theorem walks_skip (hm : Quiet m) (hf : ∀ a, Walks mode vars before met (f a) Q) :
    Walks mode vars before met (m >>= f) Q :=
  walks_bind_returns (R := fun _ => True) hm (fun _ _ _ _ => trivial) fun a _ => hf a

/-- Behind a binder, its name does not count. -/
theorem Walks.without (hm : Walks mode vars before met m P) (bound : List String) :
    Walks mode vars before (without bound met) m fun final x a => x ∉ bound → P final x a := by
  intro s a s' ha hknows
  obtain ⟨hknows', hm⟩ := hm ha hknows
  refine ⟨fun x => (hknows' x).trans (by simp [HasBound]), fun table htable => ?_⟩
  obtain ⟨table', hsub, htable', hP⟩ := hm table htable
  exact ⟨table', hsub, htable', fun final hfinal hdistinct x hx hclear hbound =>
    hP final hfinal hdistinct x hx (hclear.of_without hbound)⟩

end

/-! ## Lifted functions -/

/-- What the code of an expression binds are the variables that are met in it. -/
theorem covers_exprTy (ctx : Context) (e : Expr) :
    Returns (fun t => ∀ x, x ∈ t.inferred.map Name.render ↔ HasBound ctx.mode x e.meets)
      (exprTy ctx e) := by
  refine (infers_exprTy ctx e).imp fun t ht x => ?_
  have hvars : x ∈ t.inferred.map Name.render ↔ x ∈ ctx.bound e.patternVars := by
    constructor
    · intro hmem
      obtain ⟨name, hname, rfl⟩ := List.mem_map.1 hmem
      obtain ⟨text, htext, rfl⟩ := List.mem_map.1 ((ht name).1 hname)
      exact htext
    · intro hmem
      exact List.mem_map.2 ⟨.user x, (ht _).2 (List.mem_map_of_mem hmem), rfl⟩
  rw [hvars, HasBound, infer_mem_meets, Context.bound]
  split
  · simp_all
  · simp_all

theorem walks_guarded {scope : Scope} {params : List Param} {bounds : Gen (List Ty)} {body : Gen Ty}
    (hbounds : Walks mode vars before (meetsOfBounds params) bounds fun final x ts =>
      Resolves final x vars scope (meetsOfBounds params) (fun r => spotsOfTys x r ts) ∧
        inferredOfTys ts = [])
    (hbody : ∀ before, Walks mode vars before met body fun final x t =>
      Resolves final x vars scope met (t.spots x)) :
    Walks mode vars before (meetsOfBounds params ++ met) (guarded params bounds body)
      fun final x t => Resolves final x vars scope (meetsOfBounds params ++ met) (t.spots x) := by
  unfold guarded
  split
  · next h =>
    rw [meetsOfBounds_eq_nil h, List.nil_append]
    exact hbody before
  · refine hbounds.bind fun ts => (hbody _).map _ fun final x t _ ht hts => ?_
    refine (hts.1.append ht).congr fun r spot => ?_
    have hargs : spotsOfTys x r ((List.range params.length).map fun i => Ty.arg (i + 1)) = [] :=
      spotsOfTys_map_eq_nil (fun i => by rw [Ty.spots]) _
    simp [Ty.never, uncovered, hargs, hts.2, binding_nil]

/-- A lambda becomes a closure of a function that is lifted for it. -/
theorem walks_liftLambda {ctx : Context} {params : List Param} {bounds : Context → Gen (List Ty)}
    {body : Context → Gen Ty}
    (h : ∀ inner : Context, inner.mode = none →
      Walks none [] [] met (guarded params (bounds inner) (body inner)) fun final x t =>
        Resolves final x [] inner.scope met (t.spots x)) :
    Walks ctx.mode vars before (without (params.map Param.name) (settled [] met))
      (liftLambda ctx params bounds body) fun final x t =>
        Resolves final x vars ctx.scope (without (params.map Param.name) (settled [] met))
          (t.spots x) := by
  intro s t s' ht hknows
  obtain ⟨s₀, code, s₁, hs₀, hcode, rfl, rfl⟩ := ht.of_liftLambda
  obtain ⟨-, hmake⟩ := h _ rfl hcode (by simp [Knows, HasBound])
  refine ⟨hknows.append (by simp [HasBound]), fun table htable => ?_⟩
  obtain ⟨table', hsub, htable', hfinal⟩ := hmake table (htable.trans hs₀.lifted_eq.symm)
  let f : Lifted := ⟨⟨.lambda s₁.nextId, code⟩, params.map Param.name⟩
  refine ⟨table' ++ [f], List.subset_append_of_subset_left _ hsub, ?_,
    fun final hsubset hdistinct x hx hclear => ?_⟩
  · rw [List.map_append, htable']
    rfl
  · have hmem : f ∈ final := hsubset (List.mem_append_right _ (List.mem_singleton_self f))
    have hbody : x ∉ f.binds → Resolves final x []
        (.closure (ctx.scope.captures s.patternVars f.binds) f.binds) met (f.body.spots x) := by
      intro hown
      have hsubset' := List.Subset.trans (List.subset_append_left _ _) hsubset
      refine hfinal final hsubset' hdistinct x hx ?_
      have hlost := hclear.not_lost
      rw [name_mem_without, and_iff_right hown] at hlost
      exact (clear_of_ne (by simp)).2 (mt lost_mem_settled_of_mem hlost)
    refine ((resolves_lambda hdistinct hmem rfl hbody).congr_met (by simp [f])).congr_vars
      (hknows.mem_iff hclear) |>.congr fun r spot => ?_
    rw [spots_closure rfl]

/-- In whatever reading of a pattern it stands, the code of the expression `e` resolves its names. -/
def IsResolved (e : Expr) : Prop :=
  ∀ (ctx : Context) (vars : List String) (before : List Meeting),
    Walks ctx.mode vars before e.meets (exprTy ctx e) fun final x t =>
      Resolves final x vars ctx.scope e.meets (t.spots x)

/-- The parts of the code of an arm resolve the names of its pattern and its result. -/
structure ArmResolves (table : List Lifted) (x : String) (vars : List String) (scope : Scope)
    (pattern result : Expr) (site binder code : Ty) : Prop where
  resolves_site : .name x true ∉ pattern.meets →
    Resolves table x vars scope pattern.meets (site.spots x)
  resolves_binder : .name x true ∉ settled [] pattern.meets →
    Resolves table x [] (.closure (scope.captures vars []) []) pattern.meets (binder.spots x)
  resolves_code : .name x true ∉ result.meets →
    Resolves table x pattern.patternVars (.closure (scope.captures vars []) []) result.meets
      (code.spots x)
  covers_iff : x ∈ binder.inferred.map Name.render ↔ x ∈ pattern.patternVars

/-- **The parts of an arm.** -/
theorem exists_armResolves_of_liftArm {ctx : Context} {pattern result : Expr} {s s' : GenState}
    {t : Ty}
    (h : (liftArm ctx (exprTy · pattern) (exprTy · result)).Yields s t s')
    (hpattern : IsResolved pattern) (hresult : IsResolved result)
    {table : List Lifted} (htable : table.map Lifted.toInterface = s.lifted) :
    ∃ (table' : List Lifted) (f : Lifted) (id : Nat) (site binder code : Ty),
      table ⊆ table' ∧ table'.map Lifted.toInterface = s'.lifted ∧ f ∈ table' ∧
      f.toInterface = ⟨.arm id, .conditional (.arg 1) binder code .never⟩ ∧
      t = .apply (.symbol .matching (some "With")) [site, .closure (.arm id)
        ((ctx.scope.captures s.patternVars []).map (reference s.patternVars ctx.scope))] ∧
      ∀ final, table' ⊆ final → Distinct final → ∀ x, ¬ IsGenerated x →
        ArmResolves final x s.patternVars ctx.scope pattern result site binder code := by
  obtain ⟨s₀, site, s₁, binder, s₂, code, s₃, hs₀, hsite, hbinder, hcode, rfl, rfl⟩ := h.of_liftArm
  have hvars₁ := hs₀.patternVars_eq
  have hvars₂ : s₂.patternVars = pattern.patternVars :=
    (binds_exprTy _ pattern hbinder).patternVars_eq
  obtain ⟨-, hmake₁⟩ := hpattern _ s.patternVars [] hsite (by simp [Knows, HasBound, hvars₁])
  obtain ⟨-, hmake₂⟩ := hpattern _ [] [] hbinder (by simp [Knows, HasBound])
  obtain ⟨-, hmake₃⟩ := hresult _ pattern.patternVars [] hcode (by simp [Knows, HasBound, hvars₂])
  obtain ⟨table₁, hsub₁, htable₁, hfinal₁⟩ := hmake₁ table (htable.trans hs₀.lifted_eq.symm)
  obtain ⟨table₂, hsub₂, htable₂, hfinal₂⟩ := hmake₂ table₁ htable₁
  obtain ⟨table₃, hsub₃, htable₃, hfinal₃⟩ := hmake₃ table₂ htable₂
  let f : Lifted :=
    ⟨⟨.arm s₃.nextId, .conditional (.arg 1) binder code .never⟩, pattern.patternVars⟩
  have hgrown := List.Subset.trans hsub₂ hsub₃
  refine ⟨table₃ ++ [f], f, s₃.nextId, site, binder, code,
    List.subset_append_of_subset_left _ (List.Subset.trans hsub₁ hgrown), ?_,
    List.mem_append_right _ (List.mem_singleton_self f), rfl, rfl,
    fun final hfinal hdistinct x hx => ?_⟩
  · rw [List.map_append, htable₃]
    rfl
  · have hfinal' := List.Subset.trans (List.subset_append_left _ _) hfinal
    refine ⟨fun hlost => ?_, fun hlost => ?_, fun hlost => ?_, ?_⟩
    · exact hfinal₁ final (List.Subset.trans hgrown hfinal') hdistinct x hx
        ((clear_of_ne (by simp [Context.reading])).2 hlost)
    · exact hfinal₂ final (List.Subset.trans hsub₃ hfinal') hdistinct x hx (clear_binding.2 hlost)
    · exact hfinal₃ final hfinal' hdistinct x hx ((clear_of_ne (by simp [Context.inside])).2 hlost)
    · rw [covers_exprTy _ pattern hbinder x, HasBound, infer_mem_meets]
      exact and_iff_right rfl

/-- What is met in an arm. -/
def meetsOfArm (pattern result : Expr) : List Meeting :=
  settled [] pattern.meets ++ without pattern.patternVars (settled [] result.meets)

/-- An arm refers to the names of its pattern and its result. -/
theorem ArmResolves.resolves {table : List Lifted} {x : String} {scope : Scope}
    {pattern result : Expr}
    {site binder code : Ty} (h : ArmResolves table x vars scope pattern result site binder code)
    (htable : Distinct table) {f : Lifted} (hf : f ∈ table) {id : Nat}
    (hbody : f.toInterface = ⟨.arm id, .conditional (.arg 1) binder code .never⟩)
    (hlost : .name x true ∉ meetsOfArm pattern result) :
    Resolves table x vars scope (meetsOfArm pattern result)
      ((Ty.apply (.symbol .matching (some "With"))
        [site, .closure (.arm id) ((scope.captures vars []).map (reference vars scope))]).spots x) := by
  obtain ⟨⟨name, body⟩, binds⟩ := f
  cases hbody
  rw [meetsOfArm, List.mem_append, name_mem_without, not_or] at hlost
  have hsite := h.resolves_site (mt lost_mem_settled_of_mem hlost.1)
  have hcode : x ∉ pattern.patternVars →
      Resolves table x [] (.closure (scope.captures vars []) []) result.meets (code.spots x) := by
    intro hx
    have hresult : .name x true ∉ result.meets :=
      fun hmem => hlost.2 ⟨hx, lost_mem_settled_of_mem hmem⟩
    exact (h.resolves_code hresult).congr_vars fun _ => iff_of_false hx List.not_mem_nil
  have hbehind := Resolves.covered hcode h.covers_iff.2
    fun hx hmem => absurd (h.covers_iff.1 hmem) hx
  have hbody := (h.resolves_binder hlost.1).append hbehind
  have harm := resolves_arm htable hf rfl (hbody.congr fun r spot => by simp [Ty.never])
  refine ((hsite.append harm).congr_met ?_).congr fun r spot => ?_
  · simp [meetsOfArm]
  · rw [spots_arm, spots_closure rfl]

theorem walks_liftArm {ctx : Context} {pattern result : Expr}
    (hpattern : IsResolved pattern) (hresult : IsResolved result) :
    Walks ctx.mode vars before (meetsOfArm pattern result)
      (liftArm ctx (exprTy · pattern) (exprTy · result)) fun final x t =>
        Resolves final x vars ctx.scope (meetsOfArm pattern result) (t.spots x) := by
  intro s t s' ht hknows
  have hvars : s'.patternVars = s.patternVars := by
    obtain ⟨_, _, _, _, _, _, _, _, _, _, _, _, rfl⟩ := ht.of_liftArm
    rfl
  refine ⟨hknows.append (by simp [hvars, HasBound, meetsOfArm]), fun table htable => ?_⟩
  obtain ⟨table', f, id, site, binder, code, hsub, htable', hf, hbody, rfl, hparts⟩ :=
    exists_armResolves_of_liftArm ht hpattern hresult htable
  refine ⟨table', hsub, htable', fun final hfinal hdistinct x hx hclear => ?_⟩
  exact ((hparts final hfinal hdistinct x hx).resolves hdistinct (hfinal hf) hbody
    hclear.not_lost).congr_vars (hknows.mem_iff hclear)

/-! ## Expressions -/

/-- The code of a pattern variable refers to what its bound refers to. -/
theorem spots_patternVar (reading : PatternMode) (pos : Position) (name : String)
    (bound : Option Ty)
    (x : String) :
    Returns (fun t => ∀ r, t.spots x r = bound.elim [] (·.spots x r))
      (patternVar reading pos name bound) := by
  unfold patternVar
  cases reading with
  | shape =>
    refine returns_pure fun r => ?_
    cases bound <;> simp
  | binding =>
    refine returns_skip fun seen => ?_
    split
    · exact returns_fail _ _
    · refine returns_skip fun _ => returns_pure fun r => ?_
      cases bound <;> simp

theorem walks_patternVar {ctx : Context} {reading : PatternMode} (h : ctx.mode = some reading)
    (pos : Position) (name : String) (bound : Option Ty) :
    Walks ctx.mode vars before [.infer name] (patternVar reading pos name bound) fun _ x t =>
      ∀ r, t.spots x r = bound.elim [] (·.spots x r) := by
  refine walks_of_binds (binds_patternVar h pos name bound) (fun x => ?_) fun _ =>
    spots_patternVar reading pos name bound
  unfold Context.bound HasBound
  split <;> simp_all

/-- What binds a variable in front hides nothing that is met behind it. -/
theorem Clear.not_meets {x : String} (h : Clear mode x ((before ++ met) ++ more))
    (hbound : HasBound mode x met) : ¬ Meets x more :=
  fun hmeets => h.not_hasBound hmeets (hasBound_append.2 (.inr hbound))

mutual

/-- **The code of an expression resolves the names that are met in it.** -/
theorem walks_exprTy (ctx : Context) (vars : List String) (before : List Meeting) : ∀ e : Expr,
    Walks ctx.mode vars before e.meets (exprTy ctx e) fun final x t =>
      Resolves final x vars ctx.scope e.meets (t.spots x)
  | .assignment .. => by
    rw [exprTy]
    exact walks_fail _ _
  | .binary _ op lhs rhs => by
    rw [exprTy, Expr.meets]
    exact (walks_exprTy ctx vars before lhs).bind fun l => (walks_exprTy ctx vars _ rhs).andThen
      (quiet_binary op l) fun final x r hx _ hr _ _ _ ht hl => resolves_binary hx op hl hr ht
  | .logical _ op lhs rhs => by
    rw [exprTy, Expr.meets]
    exact (walks_exprTy ctx vars before lhs).bind fun l => (walks_exprTy ctx vars _ rhs).andThen
      (fun r => quiet_combine _ _) fun final x r hx _ hr _ _ _ ht hl =>
        resolves_combine_pair hx _ hl hr ht
  | .unary _ op operand => by
    rw [exprTy, Expr.meets]
    exact (walks_exprTy ctx vars before operand).andThen (quiet_unary op)
      fun final x t hx _ ht => resolves_unary hx op ht
  | .conditional _ test consequent alternate => by
    rw [exprTy, Expr.meets]
    refine (walks_exprTy ctx vars before test).bind fun t =>
      (walks_exprTy ctx vars _ consequent).bind fun c =>
        (walks_exprTy ctx vars _ alternate).map _ fun final x a _ ha hc ht => ?_
    refine (ht.append (hc.append ha)).congr fun r spot => ?_
    simp [conditional, uncovered, binding_nil]
  | .call pos callee args => by
    have hcallee := fun before => walks_exprTy ctx vars before callee
    by_cases hfield : ∃ p object method, callee = .field p object method
    · obtain ⟨p, object, method, rfl⟩ := hfield
      simp only [exprTy, Expr.meets] at hcallee
      rw [exprTy, Expr.meets]
      refine walks_bind_returns (quiet_methodSymbol pos method) (returns_methodSymbol pos method)
        fun symbol hsymbol => (hcallee before).of_map.bind fun t =>
          (walks_exprTys ctx vars _ args).map _ fun final x ts _ hts ht => ?_
      refine (ht.append hts).congr fun r spot => ?_
      rw [Ty.spots, spots_applied hsymbol, spotsOfTys]
      simp
    · rw [exprTy_call _ _ _ hfield, Expr.meets_call _ _ hfield]
      refine (walks_argTys ctx vars before args).bind fun as =>
        walks_skip quiet_patternVars fun _ => (hcallee _).andThen
          (fun t => quiet_applyCall _ t as) fun final x t hx hclear ht _ _ _ hu has => ?_
      exact resolves_applyCall _ ht (fun body => has _ body hclear.not_meets) hu
  | .field _ object name => by
    rw [exprTy, Expr.meets]
    refine (walks_exprTy ctx vars before object).map _ fun final x t _ ht =>
      ht.congr fun r spot => ?_
    simp
  | .index _ object key => by
    rw [exprTy, Expr.meets]
    refine (walks_exprTy ctx vars before object).bind fun t => (walks_exprTy ctx vars _ key).map _
      fun final x k _ hk ht => (ht.append hk).congr fun r spot => ?_
    simp
  | .lambda _ params body => by
    rw [exprTy, Expr.meets]
    refine walks_liftLambda fun inner hinner => hinner ▸ walks_guarded ?_ fun before => ?_
    · exact walks_boundTys hinner [] [] params
    · exact walks_exprTy inner [] before body
  | .block pos body => by
    rw [exprTy, Expr.meets]
    exact walks_blockTy ctx vars before pos body
  | .matching _ scrutinee arms => by
    rw [exprTy, Expr.meets]
    refine walks_skip (quiet_require _) fun _ => walks_skip (quiet_require _) fun _ =>
      (walks_exprTy ctx vars before scrutinee).bind fun t => (walks_armTys ctx vars _ arms).map _
        fun final x as _ has ht => (ht.append has).congr fun r spot => ?_
    rw [spots_applied (by decide), spotsOfTys, spots_applied (by decide)]
    simp [or_comm]
  | .template _ parts => by
    rw [exprTy, Expr.meets]
    exact (walks_partTys ctx vars before parts).map _ fun final x ps _ hps => hps
  | .object _ properties => by
    rw [exprTy, Expr.meets]
    exact (walks_propertyTys ctx vars before properties).map _ fun final x fs _ hfs => hfs
  | .mapped _ key union none optional value => by
    rw [exprTy, Expr.meets]
    exact (walks_exprTy ctx vars before union).bind fun u =>
      ((walks_exprTy (ctx.bind key) vars _ value).without [key]).map _
        fun final x v _ hv hu => hu.append (.local hv)
  | .mapped _ key union (some renamed) optional value => by
    rw [exprTy, Expr.meets]
    exact (walks_exprTy ctx vars before union).bind fun u =>
      ((walks_exprTy (ctx.bind key) vars _ renamed).without [key]).bind fun n =>
        ((walks_exprTy (ctx.bind key) vars _ value).without [key]).map _
          fun final x v _ hv hn hu => hu.append (.append (.local hn) (.local hv))
  | .tuple _ elements => by
    rw [exprTy, Expr.meets]
    exact (walks_exprTys ctx vars before elements).map _ fun final x ts _ hts => hts
  | .infer pos name none => by
    rw [exprTy, Expr.meets]
    refine walks_bind_returns (quiet_readingAt ctx pos) (returns_readingAt ctx pos)
      fun reading hmode => (walks_patternVar hmode pos name none).imp fun final x t ht => ?_
    refine (resolves_nil.congr_met (by simp [Meets])).congr fun r spot => ?_
    rw [ht r, Option.elim_none]
  | .infer pos name (some bound) => by
    rw [exprTy, Expr.meets]
    refine walks_bind_returns (quiet_readingAt ctx pos) (returns_readingAt ctx pos)
      fun reading hmode => (walks_exprTy ctx vars before bound).bind fun b =>
        (walks_patternVar hmode pos name (some b)).imp fun final x t ht hb => ?_
    refine (hb.congr_met (by simp [Meets])).congr fun r spot => ?_
    rw [ht r, Option.elim_some]
  | .ident _ name => by
    rw [exprTy, Expr.meets]
    intro s t s' h hknows
    simp only [yields_bind, yields_patternVars, yields_pure] at h
    obtain ⟨found, _, ⟨rfl, rfl⟩, rfl, rfl⟩ := h
    refine ⟨hknows.append (by simp [HasBound]), fun table htable =>
      ⟨table, List.Subset.refl _, htable, fun final _ _ x _ hclear => ?_⟩⟩
    exact (resolves_reference name).congr_vars (hknows.mem_iff hclear)
  | .number .. | .string .. | .numberType _ | .stringType _ => by
    rw [exprTy, Expr.meets]
    exact walks_pure fun final x => resolves_nil

theorem walks_exprTys (ctx : Context) (vars : List String) (before : List Meeting) :
    ∀ es : List Expr,
    Walks ctx.mode vars before (meetsOfExprs es) (exprTys ctx es) fun final x ts =>
      Resolves final x vars ctx.scope (meetsOfExprs es) fun r => spotsOfTys x r ts
  | [] => by
    rw [exprTys, meetsOfExprs]
    exact walks_pure fun _ _ => resolves_nil
  | e :: es => by
    rw [exprTys, meetsOfExprs]
    exact (walks_exprTy ctx vars before e).bind fun t => (walks_exprTys ctx vars _ es).map _
      fun final x ts _ hts ht => ht.append hts

/-- The arguments of a call are bound around a body, and what they bind covers it. -/
theorem walks_argTys (ctx : Context) (vars : List String) (before : List Meeting) :
    ∀ es : List Expr,
    Walks ctx.mode vars before (meetsOfExprs es) (argTys ctx es) fun final x args =>
      ∀ (more : List Meeting) (body : Ty),
        (HasBound ctx.mode x (meetsOfExprs es) → ¬ Meets x more) →
        Resolves final x vars ctx.scope more (body.spots x) →
          Resolves final x vars ctx.scope (meetsOfExprs es ++ more) ((bindArgs args body).spots x)
  | [] => by
    rw [argTys, meetsOfExprs]
    exact walks_pure fun _ _ _ _ _ hbody => hbody
  | e :: es => by
    rw [argTys, meetsOfExprs]
    refine walks_skip quiet_freshId fun id =>
      ((walks_exprTy ctx vars before e).and (covers_exprTy ctx e)).bind fun t =>
        (walks_argTys ctx vars _ es).andThen (fun ts => quiet_pure _)
          fun final x ts hx hclear hts => returns_pure fun ht more body hmore hbody => ?_
    rw [hasBound_append] at hmore
    rw [List.append_assoc]
    refine ht.1.bindExactly hx id (hts more body (fun h => hmore (.inr h)) hbody) fun hmem => ?_
    have hbound := (ht.2 x).1 hmem
    rw [meets_append, not_or]
    exact ⟨hclear.not_meets hbound, hmore (.inl hbound)⟩

theorem walks_boundTys {ctx : Context} (h : ctx.mode = none) (vars : List String)
    (before : List Meeting) : ∀ params : List Param,
    Walks ctx.mode vars before (meetsOfBounds params) (boundTys ctx params) fun final x ts =>
      Resolves final x vars ctx.scope (meetsOfBounds params) (fun r => spotsOfTys x r ts) ∧
        inferredOfTys ts = []
  | [] => by
    rw [boundTys, meetsOfBounds]
    exact walks_pure fun _ _ => ⟨resolves_nil, rfl⟩
  | .mk _ _ none :: ps => by
    rw [boundTys, meetsOfBounds]
    refine (walks_boundTys h vars before ps).map _ fun final x ts _ hts => ⟨hts.1, ?_⟩
    rw [inferredOfTys, hts.2, Ty.inferred, List.append_nil]
  | .mk _ _ (some bound) :: ps => by
    rw [boundTys, meetsOfBounds]
    refine ((walks_exprTy ctx vars before bound).and (infers_exprTy ctx bound)).bind fun t =>
      (walks_boundTys h vars _ ps).map _ fun final x ts _ hts ht => ⟨ht.1.append hts.1, ?_⟩
    have hinfers := ht.2
    rw [Context.bound_of_mode_eq_none h] at hinfers
    rw [inferredOfTys, hinfers.eq_nil, hts.2, List.append_nil]

theorem walks_blockTy (ctx : Context) (vars : List String) (before : List Meeting)
    (pos : Position) :
    ∀ body : List Stmt, Walks ctx.mode vars before (meetsOfStmts body) (blockTy ctx pos body)
      fun final x t => Resolves final x vars ctx.scope (meetsOfStmts body) (t.spots x)
  | [] => by
    rw [blockTy]
    exact walks_fail _ _
  | [.expr _ value] => by
    rw [blockTy, meetsOfStmts, meetsOfStmts, List.append_nil]
    exact walks_exprTy ctx vars before value
  | .expr p _ :: _ :: _ => by
    rw [blockTy]
    · exact walks_fail _ _
    · simp
  | .assertEqual p _ _ :: _ => by
    rw [blockTy]
    exact walks_fail _ _
  | [.letDecl p _ _] => by
    rw [blockTy]
    exact walks_fail _ _
  | .letDecl _ name value :: s :: rest => by
    rw [blockTy, meetsOfStmts]
    · refine ((walks_exprTy ctx vars before value).and (covers_exprTy ctx value)).bind fun v =>
        ((walks_blockTy (ctx.bind name) vars _ pos (s :: rest)).without [name]).map _
          fun final x b hclear hb hv => ?_
      refine (hv.1.letIn hb fun hmem => hclear.not_meets ((hv.2 x).1 hmem)).congr fun r spot => ?_
      rw [Ty.spots]
    · simp

theorem walks_armTys (ctx : Context) (vars : List String) (before : List Meeting) :
    ∀ arms : List Arm,
    Walks ctx.mode vars before (meetsOfArms arms) (armTys ctx arms) fun final x ts =>
      Resolves final x vars ctx.scope (meetsOfArms arms) fun r => spotsOfTys x r ts
  | [] => by
    rw [armTys, meetsOfArms]
    exact walks_pure fun _ _ => resolves_nil
  | .mk _ pattern result :: as => by
    rw [armTys, meetsOfArms, ← meetsOfArm]
    have hpattern : IsResolved pattern := fun ctx vars before => walks_exprTy ctx vars before pattern
    have hresult : IsResolved result := fun ctx vars before => walks_exprTy ctx vars before result
    exact (walks_liftArm hpattern hresult).bind fun t => (walks_armTys ctx vars _ as).map _
      fun final x ts _ hts ht => ht.append hts

theorem walks_partTys (ctx : Context) (vars : List String) (before : List Meeting) :
    ∀ parts : List Part, Walks ctx.mode vars before (meetsOfParts parts) (partTys ctx parts)
      fun final x ps =>
        Resolves final x vars ctx.scope (meetsOfParts parts) fun r => spotsOfPieces x r ps
  | [] => by
    rw [partTys, meetsOfParts]
    exact walks_pure fun _ _ => resolves_nil
  | .text _ :: ps => by
    rw [partTys, meetsOfParts]
    exact (walks_partTys ctx vars before ps).map _ fun final x ps _ hps => hps
  | .expr value :: ps => by
    rw [partTys, meetsOfParts]
    exact (walks_exprTy ctx vars before value).bind fun t => (walks_partTys ctx vars _ ps).map _
      fun final x ps _ hps ht => ht.append hps

theorem walks_propertyTys (ctx : Context) (vars : List String) (before : List Meeting) :
    ∀ properties : List Property, Walks ctx.mode vars before (meetsOfProperties properties)
      (propertyTys ctx properties) fun final x fs =>
        Resolves final x vars ctx.scope (meetsOfProperties properties) fun r => spotsOfFields x r fs
  | [] => by
    rw [propertyTys, meetsOfProperties]
    exact walks_pure fun _ _ => resolves_nil
  | .named _ _ _ value :: ps => by
    rw [propertyTys, meetsOfProperties]
    exact (walks_exprTy ctx vars before value).bind fun t => (walks_propertyTys ctx vars _ ps).map _
      fun final x fs _ hfs ht => ht.append hfs
  | .computed _ key _ value :: ps => by
    rw [propertyTys, meetsOfProperties]
    exact (walks_exprTy ctx vars before key).bind fun k =>
      (walks_exprTy ctx vars _ value).bind fun t => (walks_propertyTys ctx vars _ ps).map _
        fun final x fs _ hfs ht hk => hk.append (ht.append hfs)

end

/-! ## Arms -/

/-- A name that is bound around an arm is read from the capture tuple in its declaration. -/
theorem exists_reference_eq_captured {scope : Scope} {x : String}
    (h : x ∈ vars ∨ scope.resolve x ≠ .unbound) :
    ∃ slot, (scope.captures vars [])[slot]? = some x ∧
      reference [] (.closure (scope.captures vars []) []) x = .captured slot x := by
  have hmem : x ∈ scope.captures vars [] := Scope.mem_captures_iff.2 ⟨List.not_mem_nil, h⟩
  obtain ⟨slot, hresolve, hslot⟩ := Scope.resolve_closure_of_mem hmem
  refine ⟨slot, hslot, ?_⟩
  rw [reference_of_resolve List.not_mem_nil, hresolve]

/-- **The names of a pattern stand for the binders around the match.**  An arm, wherever it stands,
becomes the shape of its pattern at the site of the match and a closure of a declaration with the
binder of the pattern.  The references to a name `x` in the two, followed through the functions that
are lifted from the pattern, stand for what `x` stands for at the match, and there are such references
if `x` is met in the pattern.  In the binder, a name that is bound around the match is the entry of
the capture tuple that holds it.  At the site this is so unless `x` is met behind a variable `x` in
the pattern of an arm inside; in the binder, unless `x` is met behind a variable `x` of any pattern. -/
theorem pattern_names_stand_for_outer_binders {ctx : Context} {pattern result : Expr}
    {s s' : GenState} {t : Ty}
    (h : (liftArm ctx (exprTy · pattern) (exprTy · result)).Yields s t s') (hs : s.Unambiguous) :
    ∃ (table : List Lifted) (id : Nat) (site binder code : Ty),
      let captures := ctx.scope.captures s.patternVars []
      let captured := captures.map (reference s.patternVars ctx.scope)
      table.map Lifted.toInterface = s'.lifted ∧
      t = .apply (.symbol .matching (some "With")) [site, .closure (.arm id) captured] ∧
      ⟨.arm id, .conditional (.arg 1) binder code .never⟩ ∈ s'.lifted ∧
      ∀ (r : Reading) (x : String) (ρ : Referent), ¬ IsGenerated x →
        Sees r s.patternVars ctx.scope x ρ →
        (.name x true ∉ pattern.meets →
          ∀ o, Denote table x (site.spots x r) o ↔ Meets x pattern.meets ∧ o = some ρ) ∧
        (.name x true ∉ settled [] pattern.meets →
          (∀ o, Denote table x (binder.spots x (r.enterPattern captured)) o ↔
            Meets x pattern.meets ∧ o = some ρ) ∧
          (x ∈ s.patternVars ∨ ctx.scope.resolve x ≠ .unbound →
            ∃ slot, captures[slot]? = some x ∧
              ∀ place own, .reference place own ∈ binder.spots x (r.enterPattern captured) →
                own = .captured slot x ∧
                own.render = argText 0 ++ "[" ++ toString slot ++ "]" ++ originText x)) := by
  have hpattern : IsResolved pattern := fun ctx vars before => walks_exprTy ctx vars before pattern
  have hresult : IsResolved result := fun ctx vars before => walks_exprTy ctx vars before result
  have hempty : ([] : List Lifted).map Lifted.toInterface = [] := rfl
  obtain ⟨table₀, -, htable₀⟩ := exists_table_extending hempty (List.nil_prefix : [] <+: s.lifted)
  obtain ⟨table, f, id, site, binder, code, -, htable, hf, hbody, rfl, hparts⟩ :=
    exists_armResolves_of_liftArm h hpattern hresult htable₀
  have hunambiguous : s'.Unambiguous :=
    (binds_liftArm ctx pattern result h).unambiguous hs
  refine ⟨table, id, site, binder, code, htable, rfl, ?_, fun r x ρ hx hsees => ?_⟩
  · rw [← htable, ← hbody]
    exact List.mem_map_of_mem hf
  have harm := hparts table (List.Subset.refl _) (distinct_of_unambiguous hunambiguous htable) x hx
  refine ⟨fun hlost => (harm.resolves_site hlost).denotes fun _ => hsees, fun hlost => ⟨?_, ?_⟩⟩
  · exact (harm.resolves_binder hlost).denotes fun _ => hsees.enter List.not_mem_nil rfl rfl
  · intro hbound
    obtain ⟨slot, hslot, hreference⟩ := exists_reference_eq_captured hbound
    refine ⟨slot, hslot, fun place own hown => ?_⟩
    have hcaptured := ((harm.resolves_binder hlost).written _ place own hown).trans hreference
    exact ⟨hcaptured, by rw [hcaptured]; rfl⟩

/-- A pattern `[w, infer w, (y) => x]`. -/
def aheadOfVariable : Expr :=
  .tuple ⟨1, 1⟩ [.ident ⟨1, 2⟩ "w", .infer ⟨1, 5⟩ "w" none,
    .lambda ⟨1, 14⟩ [.mk ⟨1, 15⟩ "y" none] (.ident ⟨1, 21⟩ "x")]

/-- The place of a match in the result of an arm that binds `w`, in a lambda with the parameter
`x`. -/
def insideArm : Reading :=
  (Reading.outermost.enterLambda [] ["x"]).enterArm [.param 1 "x"] ["w"] [.user "w"]

/-- The place of the pattern in the declaration of an arm of that match. -/
def insideBinder : Reading := insideArm.enterPattern [.name (.user "w"), .captured 0 "x"]

theorem agrees_insideArm : Agrees insideArm ["w"] (.closure ["x"] []) :=
  (agrees_outermost.enterLambda ["x"]).enterArm fun _ => Iff.rfl

/-- In an arm with that pattern, `w` is the variable of the arm around the match, at the site and in
the binder, where it is taken from the capture tuple.  In the binder `x` is the parameter of the
lambda, taken from the tuple of a function that is lifted from the pattern. -/
theorem aheadOfVariable_names :
    ∃ (t : Ty) (s' : GenState) (table : List Lifted) (id : Nat) (site binder code : Ty),
      (liftArm ⟨.closure ["x"] [], none, fun _ => none⟩ (exprTy · aheadOfVariable)
        (exprTy · (.ident ⟨1, 27⟩ "w"))).Yields { GenState.initial with patternVars := ["w"] } t s' ∧
      table.map Lifted.toInterface = s'.lifted ∧
      t = .apply (.symbol .matching (some "With"))
        [site, .closure (.arm id) [.name (.user "w"), .captured 0 "x"]] ∧
      ⟨.arm id, .conditional (.arg 1) binder code .never⟩ ∈ s'.lifted ∧
      (∀ o, Denote table "w" (site.spots "w" insideArm) o ↔ o = some (.binder 1 (.local "w"))) ∧
      (∀ o, Denote table "w" (binder.spots "w" insideBinder) o ↔ o = some (.binder 1 (.local "w"))) ∧
      (∀ place own, .reference place own ∈ binder.spots "w" insideBinder → own = .captured 0 "w") ∧
      ∀ o, Denote table "x" (binder.spots "x" insideBinder) o ↔ o = some (.binder 0 (.param 0)) := by
  obtain ⟨t, s', hrun⟩ : ∃ t s', (liftArm ⟨.closure ["x"] [], none, fun _ => none⟩
      (exprTy · aheadOfVariable) (exprTy · (.ident ⟨1, 27⟩ "w"))).Yields
        { GenState.initial with patternVars := ["w"] } t s' := ⟨_, _, rfl⟩
  obtain ⟨table, id, site, binder, code, htable, ht, hlifted, hnames⟩ :=
    pattern_names_stand_for_outer_binders hrun ⟨List.nodup_nil, by simp [GenState.initial]⟩
  have hplain (x : String) (hx : '_' ∉ x.toList) : ¬ IsGenerated x := fun h => hx h.underscore_mem
  have hw := hplain "w" (by decide)
  have hx := hplain "x" (by decide)
  obtain ⟨hsite, hbinder⟩ := hnames insideArm "w" _ hw (agrees_insideArm.sees hw)
  obtain ⟨hdenote, hown⟩ := hbinder (by decide)
  obtain ⟨hdenote', -⟩ := (hnames insideArm "x" _ hx (agrees_insideArm.sees hx)).2 (by decide)
  obtain ⟨slot, hslot, hcaptured⟩ := hown (.inl (by decide))
  have hzero : slot = 0 := by
    have hslot : ["w", "x"][slot]? = some "w" := hslot
    rcases slot with _ | _ | slot
    · rfl
    · simp at hslot
    · simp at hslot
  refine ⟨t, s', table, id, site, binder, code, hrun, htable, ht, hlifted, fun o => ?_, fun o => ?_,
    fun place own hmem => hzero ▸ (hcaptured place own hmem).1, fun o => ?_⟩
  · exact (hsite (by decide) o).trans (and_iff_right ⟨false, by decide⟩)
  · exact (hdenote o).trans (and_iff_right ⟨false, by decide⟩)
  · exact (hdenote' o).trans (and_iff_right ⟨false, by decide⟩)

/-- A pattern `[infer x, x]`. -/
def behindVariable : Expr := .tuple ⟨1, 1⟩ [.infer ⟨1, 2⟩ "x" none, .ident ⟨1, 11⟩ "x"]

/-- The place of a match in a lambda with the parameter `x`. -/
def insideLambda : Reading := Reading.outermost.enterLambda [] ["x"]

/-- In the binder of an arm with that pattern, the name `x` does not stand for the parameter, though
it does so at the match. -/
theorem behindVariable_name_lost :
    ∃ (t : Ty) (s' : GenState) (binder code : Ty),
      (liftArm ⟨.closure [] ["x"], none, fun _ => none⟩ (exprTy · behindVariable)
        (exprTy · (.ident ⟨1, 17⟩ "x"))).Yields GenState.initial t s' ∧
      s'.lifted = [⟨.arm 1, .conditional (.arg 1) binder code .never⟩] ∧
      Meets "x" behindVariable.meets ∧
      Sees insideLambda [] (.closure [] ["x"]) "x" (.binder 0 (.param 0)) ∧
      ∀ table o, Denote table "x" (binder.spots "x" (insideLambda.enterPattern [.param 1 "x"])) o ↔
        o = some (.global "x") := by
  refine ⟨_, _, .tuple [.infer (.user "x") none, .name (.user "x")], .name (.user "x"), rfl, rfl,
    ⟨false, by decide⟩, ?_, fun table o => ?_⟩
  · have hx : ¬ IsGenerated "x" := fun h => absurd h.underscore_mem (by decide)
    exact (agrees_outermost.enterLambda ["x"]).sees hx
  · have hspots (r : Reading) :
        (Ty.tuple [.infer (.user "x") none, .name (.user "x")]).spots "x" r =
          [.reference r (.name (.user "x"))] := by simp
    rw [hspots, denote_reference]
    rfl

end TypeForge.Scoping
