import TypeForge.Generate.Program
import TypeForge.Proofs.Scoping.Exposed
import Mathlib.Data.List.Nodup

/-!
# Closure conversion preserves lexical scoping

Lambdas and arms of matches are lifted out of their surroundings.  Every identifier outside
of a pattern nevertheless becomes a reference that stands for its innermost binder, however
deep it is nested, and one that nothing binds stays a bare name.

The proof is an induction on the syntax tree.  A declaration is lifted before the code that
leads to it is complete, so the induction speaks about every table of declarations that
holds those lifted so far (`Makes`).
-/

namespace TypeForge.Scoping

open TypeScript Gen

variable {α β : Type} {vars : List String}

/-! ## Code of the source -/

/-- Code that conveys identifiers of the source and exposes the free names. -/
structure Renders (table : List Lifted) (vars : List String) (scope : Scope) (uses : List Frame → List Use)
    (free : Bool → List String) (sites : Reading → List Site) (os : List Occurrence) : Prop where
  conveys : Conveys table vars scope uses sites
  exposes : Exposing table vars scope free os

/-- The code `t` conveys the identifiers of the expression `e`, exposes its free names and binds
nothing around itself. -/
structure Expresses (table : List Lifted) (vars : List String) (scope : Scope) (e : Expr) (t : Ty) : Prop
    extends Translates table vars scope e t where
  exposes : Exposing table vars scope (fun lifted => e.free lifted) (t.occurrences [])

section

variable {table : List Lifted} {scope : Scope} {uses more : List Frame → List Use}
  {free others : Bool → List String} {sites sites' : Reading → List Site} {os os' : List Occurrence}

theorem Expresses.renders {e : Expr} {t : Ty} (h : Expresses table vars scope e t) :
    Renders table vars scope (fun frames => e.uses frames) (fun lifted => e.free lifted)
      (fun r => t.sites r) (t.occurrences []) :=
  ⟨h.conveys, h.exposes⟩

theorem renders_nil : Renders table vars scope (fun _ => []) (fun _ => []) (fun _ => []) os :=
  ⟨conveys_nil, exposing_nil⟩

theorem Renders.append (h : Renders table vars scope uses free sites os)
    (h' : Renders table vars scope more others sites' os') :
    Renders table vars scope (fun frames => uses frames ++ more frames)
      (fun lifted => free lifted ++ others lifted) (fun r => sites r ++ sites' r) (os ++ os') :=
  ⟨h.conveys.append h'.conveys, h.exposes.append h'.exposes⟩

theorem Renders.congr (h : Renders table vars scope uses free sites os)
    (hsites : ∀ r m, Reached table (sites' r) m ↔ Reached table (sites r) m)
    (hos : ∀ {x lifted}, Exposes table x lifted os → Exposes table x lifted os') :
    Renders table vars scope uses free sites' os' :=
  ⟨h.conveys.congr_sites hsites, h.exposes.imp hos⟩

theorem Renders.local {name : String} {t : Ty}
    (h : Renders table vars (scope.bind name) uses free sites (t.occurrences [])) :
    Renders table vars scope (fun frames => uses (.locals [name] :: frames))
      (fun lifted => (free lifted).filter (· ≠ name)) (fun r => sites (r.binding [.user name]))
      (t.occurrences [.user name]) :=
  ⟨h.conveys.local, h.exposes.local⟩

theorem renders_tys {es : List Expr} {ts : List Ty} (h : List.Forall₂ (Expresses table vars scope) es ts) :
    Renders table vars scope (fun frames => usesOfExprs frames es) (fun lifted => freeOfExprs lifted es)
      (fun r => sitesOfTys r ts) (occurrencesOfTys [] ts) := by
  induction h with
  | nil => exact renders_nil
  | cons he hes ih => exact he.renders.append ih

theorem inferredOfTys_eq_nil {es : List Expr} {ts : List Ty}
    (h : List.Forall₂ (Expresses table vars scope) es ts) : inferredOfTys ts = [] := by
  induction h with
  | nil => rfl
  | cons he _ ih => rw [inferredOfTys, he.inferred_eq, ih, List.append_nil]

end

/-! ## Computations -/

/-- A successful run of `m` leaves the pattern variables as they are, and its result satisfies
`post` for every table that holds the functions lifted so far. -/
def Makes (vars : List String) (m : Gen α) (post : List Lifted → α → Prop) : Prop :=
  ∀ ⦃s : GenState⦄ ⦃a : α⦄ ⦃s' : GenState⦄, m.Yields s a s' → s.patternVars = vars →
    s'.patternVars = vars ∧ ∀ table : List Lifted, table.map Lifted.toInterface = s.lifted →
      ∃ table' : List Lifted, table ⊆ table' ∧ table'.map Lifted.toInterface = s'.lifted ∧
        ∀ final, table' ⊆ final → post final a

section

variable {m : Gen α} {f : α → Gen β} {P : List Lifted → α → Prop} {Q : List Lifted → β → Prop}

theorem makes_of_quiet (hm : Quiet m) (hP : ∀ final, Returns (P final) m) : Makes vars m P := by
  intro s a s' h hvars
  have hs := hm h
  refine ⟨hs.patternVars_eq.trans hvars, fun table htable => ⟨table, List.Subset.refl _, ?_, ?_⟩⟩
  · rw [hs.lifted_eq, htable]
  · intro final _
    exact hP final h

theorem makes_pure {a : α} (h : ∀ final, P final a) : Makes vars (pure a) P :=
  makes_of_quiet (quiet_pure a) fun final => returns_pure (h final)

theorem makes_fail (pos : Position) (error : GenError) : Makes vars (fail pos error) P :=
  fun _ _ _ h => absurd h yields_fail

theorem Makes.bind (hm : Makes vars m P)
    (hf : ∀ a, Makes vars (f a) fun final b => P final a → Q final b) :
    Makes vars (m >>= f) Q := by
  intro s b s' h hvars
  obtain ⟨a, t, ha, hb⟩ := yields_bind.1 h
  obtain ⟨hvars', hm⟩ := hm ha hvars
  obtain ⟨hvars'', hf⟩ := hf a hb hvars'
  refine ⟨hvars'', fun table htable => ?_⟩
  obtain ⟨table', hsub, htable', hP⟩ := hm table htable
  obtain ⟨table'', hsub', htable'', hQ⟩ := hf table' htable'
  refine ⟨table'', List.Subset.trans hsub hsub', htable'', fun final hfinal => ?_⟩
  exact hQ final hfinal (hP final (List.Subset.trans hsub' hfinal))

theorem Makes.imp {P' : List Lifted → α → Prop} (hm : Makes vars m P)
    (h : ∀ final a, P final a → P' final a) : Makes vars m P' := by
  intro s a s' ha hvars
  obtain ⟨hvars', hm⟩ := hm ha hvars
  refine ⟨hvars', fun table htable => ?_⟩
  obtain ⟨table', hsub, htable', hP⟩ := hm table htable
  exact ⟨table', hsub, htable', fun final hfinal => h final a (hP final hfinal)⟩

theorem Makes.and (hm : Makes vars m P) {R : α → Prop} (h : Returns R m) :
    Makes vars m fun final a => P final a ∧ R a := by
  intro s a s' ha hvars
  obtain ⟨hvars', hm⟩ := hm ha hvars
  refine ⟨hvars', fun table htable => ?_⟩
  obtain ⟨table', hsub, htable', hP⟩ := hm table htable
  exact ⟨table', hsub, htable', fun final hfinal => ⟨hP final hfinal, h ha⟩⟩

theorem Makes.of_map {g : α → β} (h : Makes vars (do return g (← m)) Q) :
    Makes vars m fun final a => Q final (g a) :=
  fun _ a _ ha => h (yields_bind.2 ⟨a, _, ha, yields_pure.2 ⟨rfl, rfl⟩⟩)

/-- A quiet computation in front. -/
theorem makes_bind_returns {R : α → Prop} (hm : Quiet m) (hR : Returns R m)
    (hf : ∀ a, R a → Makes vars (f a) Q) : Makes vars (m >>= f) Q := by
  intro s b s' h hvars
  obtain ⟨a, t, ha, hb⟩ := yields_bind.1 h
  have ht := hm ha
  obtain ⟨hvars', hf⟩ := hf a (hR ha) hb (ht.patternVars_eq.trans hvars)
  exact ⟨hvars', fun table htable => hf table (htable.trans ht.lifted_eq.symm)⟩

theorem makes_skip (hm : Quiet m) (hf : ∀ a, Makes vars (f a) Q) : Makes vars (m >>= f) Q :=
  makes_bind_returns (R := fun _ => True) hm (fun _ _ _ _ => trivial) fun a _ => hf a

theorem makes_patternVars : Makes vars patternVars fun _ found => found = vars := by
  intro s found s' h hvars
  obtain ⟨rfl, rfl⟩ := yields_patternVars.1 h
  exact ⟨hvars, fun table htable => ⟨table, List.Subset.refl _, htable, fun _ _ => hvars⟩⟩

end

/-! ## Lifted functions -/

/-- Functions that were lifted in any way can be added to a table. -/
theorem exists_table_extending {table : List Lifted} {fs gs : List Interface}
    (htable : table.map Lifted.toInterface = fs) (h : fs <+: gs) :
    ∃ table' : List Lifted, table ⊆ table' ∧ table'.map Lifted.toInterface = gs := by
  obtain ⟨new, rfl⟩ := h
  refine ⟨table ++ new.map (⟨·, []⟩), List.subset_append_left _ _, ?_⟩
  rw [List.map_append, htable, List.map_map, Function.comp_def, List.map_id']

/-- The bounds and the body of a function stand inside of its parameters. -/
theorem makes_guarded {inner : Context} {params : List Param} {bounds : Gen (List Ty)}
    {body : Gen Ty} {e : Expr}
    (hbounds : Makes vars bounds fun final ts =>
      Renders final vars inner.scope (fun frames => usesOfBounds frames params)
        (fun lifted => freeOfBounds lifted params) (fun r => sitesOfTys r ts) (occurrencesOfTys [] ts) ∧
        inferredOfTys ts = [])
    (hbody : Makes vars body fun final t => Expresses final vars inner.scope e t) :
    Makes vars (guarded params bounds body) fun final t =>
      Renders final vars inner.scope (fun frames => usesOfBounds frames params ++ e.uses frames)
        (fun lifted => freeOfBounds lifted params ++ e.free lifted) (fun r => t.sites r)
        (t.occurrences []) := by
  unfold guarded
  split
  · next h =>
    refine hbody.imp fun final t ht => ?_
    simpa only [usesOfBounds_eq_nil h, freeOfBounds_eq_nil h, List.nil_append] using ht.renders
  · refine hbounds.bind fun ts => hbody.bind fun t => makes_pure fun final ht hts => ?_
    refine (hts.1.append ht.renders).congr (fun r m => ?_) fun hx => ?_
    · have hargs : sitesOfTys r ((List.range params.length).map fun i => Ty.arg (i + 1)) = [] :=
        sitesOfTys_map_eq_nil (fun i => by rw [Ty.sites]) _
      simp [Ty.sites, Ty.inferred, Ty.never, hargs, hts.2, binding_nil]
    · simp only [Ty.occurrences, Ty.inferred, hts.2, List.nil_append, exposes_append] at hx ⊢
      exact .inr (hx.imp_right .inl)

/-- A lambda becomes a closure of a function that is lifted for it. -/
theorem makes_closure_of_liftLambda {ctx : Context} {params : List Param}
    {bounds : Context → Gen (List Ty)} {body : Context → Gen Ty} {P : List Lifted → Ty → Prop}
    (h : ∀ inner : Context, inner.mode = none →
      inner.scope = .closure (ctx.scope.captures vars (params.map Param.name))
        (params.map Param.name) → Makes [] (guarded params (bounds inner) (body inner)) P) :
    Makes vars (liftLambda ctx params bounds body) fun final t =>
      ∃ f ∈ final, f.binds = params.map Param.name ∧ P final f.body ∧ (∃ id, f.name = .lambda id) ∧
        t = .closure f.name ((ctx.scope.captures vars f.binds).map (reference vars ctx.scope)) := by
  intro s t s' ht hvars
  subst hvars
  obtain ⟨s₀, code, s₁, hs₀, hcode, rfl, rfl⟩ := ht.of_liftLambda
  obtain ⟨-, hmake⟩ := h _ rfl rfl hcode rfl
  refine ⟨rfl, fun table htable => ?_⟩
  obtain ⟨table', hsub, htable', hfinal⟩ := hmake table (htable.trans hs₀.lifted_eq.symm)
  let f : Lifted := ⟨⟨.lambda s₁.nextId, code⟩, params.map Param.name⟩
  refine ⟨table' ++ [f], List.subset_append_of_subset_left _ hsub, ?_, fun final hf => ?_⟩
  · rw [List.map_append, htable']
    rfl
  · have hmem : f ∈ final := hf (List.mem_append_right _ (List.mem_singleton_self f))
    have hbody := hfinal final (List.Subset.trans (List.subset_append_left _ _) hf)
    exact ⟨f, hmem, rfl, hbody, ⟨_, rfl⟩, rfl⟩

theorem makes_liftLambda {ctx : Context} {params : List Param} {bounds : Context → Gen (List Ty)}
    {body : Context → Gen Ty} {uses : List Frame → List Use} {free : Bool → List String}
    (h : ∀ inner : Context, inner.mode = none →
      Makes [] (guarded params (bounds inner) (body inner)) fun final t =>
        Renders final [] inner.scope uses free (fun r => t.sites r) (t.occurrences [])) :
    Makes vars (liftLambda ctx params bounds body) fun final t =>
      Renders final vars ctx.scope (fun frames => uses (.params (params.map Param.name) :: frames))
        (freeOfLifted (params.map Param.name) free) (fun r => t.sites r) (t.occurrences []) := by
  refine (makes_closure_of_liftLambda fun inner hmode hscope => hscope ▸ h inner hmode).imp ?_
  rintro final t ⟨f, hf, hbinds, hbody, ⟨id, hname⟩, rfl⟩
  rw [← hbinds] at hbody ⊢
  refine ⟨(conveys_lambda hf hname hbody.conveys).congr_sites fun r m => ?_,
    exposing_lifted fun x hvars hx hown lifted hfree => ?_⟩
  · rw [hname, sites_closure rfl]
  · have hinner := resolve_inside_unbound hx hvars hown
    exact exposes_closure hf (hbody.exposes x List.not_mem_nil hinner lifted hfree) _

/-- An arm becomes its pattern and a closure of a function that is lifted for it. -/
theorem makes_closure_of_liftArm {ctx : Context} {pattern result : Context → Gen Ty}
    {bound : List String} {P : List Lifted → Ty → Prop}
    (hpattern : ∀ inner : Context, Binds (inner.bound bound) (pattern inner))
    (hinfers : ∀ inner : Context,
      Returns (fun t => Infers t.inferred (inner.bound bound)) (pattern inner))
    (hresult : ∀ inner : Context, inner.mode = none →
      inner.scope = .closure (ctx.scope.captures vars []) [] → Makes bound (result inner) P) :
    Makes vars (liftArm ctx pattern result) fun final t =>
      ∃ f ∈ final, f.binds = bound ∧
        (∃ check binder code no, f.body = .conditional check binder code no ∧
          Infers binder.inferred bound ∧ P final code) ∧
        (∃ id, f.name = .arm id) ∧ ∃ site, t = .apply (.symbol .matching (some "With")) [site,
          .closure f.name ((ctx.scope.captures vars []).map (reference vars ctx.scope))] := by
  intro s t s' ht hvars
  subst hvars
  obtain ⟨s₀, site, s₁, binder, s₂, code, s₃, hs₀, hsite, hbinder, hcode, rfl, rfl⟩ := ht.of_liftArm
  -- The binding reading of the pattern leaves its variables behind, and the result sees them.
  have hbound : s₂.patternVars = bound := (hpattern _ hbinder).patternVars_eq
  obtain ⟨-, hmake⟩ := hresult _ rfl rfl hcode hbound
  refine ⟨rfl, fun table htable => ?_⟩
  have hgrown : s.lifted <+: s₂.lifted :=
    (hs₀.lifted_eq ▸ (hpattern _ hsite).lifted_grows).trans (hpattern _ hbinder).lifted_grows
  obtain ⟨table₂, hsub₂, htable₂⟩ := exists_table_extending htable hgrown
  obtain ⟨table₃, hsub₃, htable₃, hfinal⟩ := hmake table₂ htable₂
  let f : Lifted := ⟨⟨.arm s₃.nextId, .conditional (.arg 1) binder code .never⟩, bound⟩
  refine ⟨table₃ ++ [f], List.subset_append_of_subset_left _ (List.Subset.trans hsub₂ hsub₃), ?_,
    fun final hf => ?_⟩
  · rw [List.map_append, htable₃]
    rfl
  · have hmem : f ∈ final := hf (List.mem_append_right _ (List.mem_singleton_self f))
    have hcode := hfinal final (List.Subset.trans (List.subset_append_left _ _) hf)
    exact ⟨f, hmem, rfl, ⟨_, binder, code, _, rfl, hinfers _ hbinder, hcode⟩, ⟨_, rfl⟩, site, rfl⟩

theorem makes_liftArm {ctx : Context} {pattern result : Context → Gen Ty} {bound : List String}
    {uses : List Frame → List Use} {free : Bool → List String}
    (hpattern : ∀ inner : Context, Binds (inner.bound bound) (pattern inner))
    (hinfers : ∀ inner : Context,
      Returns (fun t => Infers t.inferred (inner.bound bound)) (pattern inner))
    (hresult : ∀ inner : Context, inner.mode = none → Makes bound (result inner) fun final t =>
      Renders final bound inner.scope uses free (fun r => t.sites r) (t.occurrences [])) :
    Makes vars (liftArm ctx pattern result) fun final t =>
      Renders final vars ctx.scope (fun frames => uses (.locals bound :: frames)) (freeOfLifted bound free)
        (fun r => t.sites r) (t.occurrences []) := by
  refine (makes_closure_of_liftArm hpattern hinfers fun inner hmode hscope =>
    hscope ▸ hresult inner hmode).imp ?_
  rintro final t
    ⟨f, hf, rfl, ⟨check, binder, code, no, hbody, hnames, hcode⟩, ⟨id, hname⟩, site, rfl⟩
  refine ⟨(conveys_arm hf hname hbody hnames hcode.conveys).congr_sites fun r m => ?_,
    exposing_lifted fun x hvars hx hown lifted hfree => ?_⟩
  · rw [hname, sites_arm, sites_closure rfl]
  · have hinner := resolve_inside_unbound hx hvars List.not_mem_nil
    have hexposes : Exposes final x lifted (f.body.occurrences []) :=
      hbody ▸ exposes_arm hnames hown (hcode.exposes x hown hinner lifted hfree)
    simp only [Ty.occurrences, occurrencesOfTys, exposes_append]
    exact .inr (.inr (.inl (exposes_closure hf hexposes _)))

/-! ## Expressions -/

theorem returns_methodSymbol (pos : Position) (name : String) :
    Returns (fun symbol => symbol ≠ .applyPart) (methodSymbol pos name) := by
  unfold methodSymbol
  split
  · exact returns_fail _ _
  · next symbol hsymbol =>
    refine returns_skip fun _ => returns_pure ?_
    obtain ⟨text, -, rfl⟩ := Option.map_eq_some_iff.1 hsymbol
    intro heq
    cases congrArg Symbol.library heq

theorem makes_expresses {ctx : Context} (h : ctx.mode = none) {e : Expr}
    (he : Makes vars (exprTy ctx e) fun final t =>
      Renders final vars ctx.scope (fun frames => e.uses frames) (fun lifted => e.free lifted)
        (fun r => t.sites r) (t.occurrences [])) :
    Makes vars (exprTy ctx e) fun final t => Expresses final vars ctx.scope e t := by
  refine (he.and (infers_exprTy ctx e)).imp fun final t ht => ⟨⟨ht.1.conveys, ?_⟩, ht.1.exposes⟩
  have hinfers := ht.2
  rw [Context.bound_of_mode_eq_none h] at hinfers
  exact hinfers.eq_nil

mutual

/-- **The code of an expression conveys its identifiers**, and exposes those that nothing binds: those
outside of lambdas and arms by itself, and those inside by the functions that it leads to. -/
theorem makes_exprTy {ctx : Context} (h : ctx.mode = none) (vars : List String) : ∀ e : Expr,
    Makes vars (exprTy ctx e) fun final t => Expresses final vars ctx.scope e t
  | .assignment .. => by
    rw [exprTy]
    exact makes_fail _ _
  | .binary _ op lhs rhs => by
    refine makes_expresses h ?_
    rw [exprTy]
    exact (makes_exprTy h vars lhs).bind fun l => (makes_exprTy h vars rhs).bind fun r =>
      makes_of_quiet (quiet_binary op l r) fun final _ _ _ ht hr hl =>
        ⟨conveys_binary op hl.toTranslates hr.toTranslates ht,
          (hl.exposes.append hr.exposes).imp (exposes_binary op l r ht)⟩
  | .logical _ op lhs rhs => by
    refine makes_expresses h ?_
    rw [exprTy]
    refine (makes_exprTy h vars lhs).bind fun l => (makes_exprTy h vars rhs).bind fun r =>
      makes_of_quiet (quiet_combine _ _) fun final _ _ _ ht hr hl => ⟨?_, ?_⟩
    · simpa [usesOfExprs, Expr.uses] using
        conveys_combine _ (.cons hl.toTranslates (.cons hr.toTranslates .nil)) ht
    · exact (hl.exposes.append hr.exposes).imp fun hx => exposes_combine _ _ ht (by simpa using hx)
  | .unary _ op operand => by
    refine makes_expresses h ?_
    rw [exprTy]
    exact (makes_exprTy h vars operand).bind fun t => makes_of_quiet (quiet_unary op t)
      fun final _ _ _ hu ht =>
        ⟨conveys_unary op ht.toTranslates hu, ht.exposes.imp (exposes_unary op t hu)⟩
  | .conditional _ test consequent alternate => by
    refine makes_expresses h ?_
    rw [exprTy]
    refine (makes_exprTy h vars test).bind fun t => (makes_exprTy h vars consequent).bind fun c =>
      (makes_exprTy h vars alternate).bind fun a => makes_pure fun final ha hc ht => ?_
    refine (ht.renders.append (hc.renders.append ha.renders)).congr (fun r m => ?_) fun hx => ?_
    · simp [conditional, Ty.sites, Ty.inferred, binding_nil]
    · simpa [conditional] using hx
  | .call pos callee args => by
    refine makes_expresses h ?_
    have hcallee := makes_exprTy h vars callee
    by_cases hfield : ∃ p object method, callee = .field p object method
    · obtain ⟨p, object, method, rfl⟩ := hfield
      rw [exprTy] at hcallee
      rw [exprTy]
      refine makes_bind_returns (quiet_methodSymbol pos method) (returns_methodSymbol pos method)
        fun symbol hsymbol => hcallee.of_map.bind fun t => (makes_exprTys h vars args).bind
          fun ts => makes_pure fun final hts ht => ?_
      refine (ht.renders.append (renders_tys hts)).congr (fun r m => ?_) fun hx => ?_
      · rw [Ty.sites, sites_applied hsymbol, sitesOfTys]
        simp [Ty.sites]
      · simp only [Ty.applied, Ty.ofSymbol, Ty.occurrences, occurrencesOfTys, exposes_append]
        exact .inr (by simpa using hx)
    · rw [exprTy_call _ _ _ hfield]
      refine (makes_argTys h vars args).bind fun as => makes_skip quiet_patternVars fun _ =>
        hcallee.bind fun t => makes_of_quiet (quiet_applyCall _ _ _) fun final _ _ _ hu ht has => ⟨?_, ?_⟩
      · exact conveys_applyCall _ ht.toTranslates (has.imp fun _ _ => Expresses.toTranslates) hu
      · have hts := List.forall₂_map_right_iff.2 has
        exact (ht.exposes.append (renders_tys hts).exposes).imp
          (exposes_applyCall _ (inferredOfTys_eq_nil hts) hu)
  | .field _ object name => by
    refine makes_expresses h ?_
    rw [exprTy]
    refine (makes_exprTy h vars object).bind fun t => makes_pure fun final ht => ?_
    exact ht.renders.congr (fun r m => by simp [Ty.sites]) fun hx => by simpa using hx
  | .index _ object key => by
    refine makes_expresses h ?_
    rw [exprTy]
    refine (makes_exprTy h vars object).bind fun t => (makes_exprTy h vars key).bind fun k =>
      makes_pure fun final hk ht => ?_
    exact (ht.renders.append hk.renders).congr (fun r m => by simp [Ty.sites]) fun hx => by simpa using hx
  | .lambda _ params body => by
    refine makes_expresses h ?_
    rw [exprTy]
    exact makes_liftLambda fun inner hinner =>
      makes_guarded (makes_boundTys hinner [] params) (makes_exprTy hinner [] body)
  | .block pos body => by
    refine makes_expresses h ?_
    rw [exprTy]
    exact makes_blockTy h vars pos body
  | .matching _ scrutinee arms => by
    refine makes_expresses h ?_
    rw [exprTy]
    refine makes_skip (quiet_require _) fun _ => makes_skip (quiet_require _) fun _ =>
      (makes_exprTy h vars scrutinee).bind fun t => (makes_armTys h vars arms).bind fun as =>
        makes_pure fun final has ht => ?_
    refine (ht.renders.append has).congr (fun r m => ?_) fun hx => ?_
    · rw [sites_applied (by decide), sitesOfTys, sites_applied (by decide)]
      simp [sitesOfTys, Ty.sites, or_comm]
    · simp only [Ty.applied, Ty.ofSymbol, Ty.occurrences, occurrencesOfTys, exposes_append] at hx ⊢
      exact .inr (hx.symm.imp (fun hx => .inr (.inl hx)) .inl)
  | .template _ parts => by
    refine makes_expresses h ?_
    rw [exprTy]
    exact (makes_partTys h vars parts).bind fun _ => makes_pure fun _ hps => hps
  | .object _ properties => by
    refine makes_expresses h ?_
    rw [exprTy]
    exact (makes_propertyTys h vars properties).bind fun _ => makes_pure fun _ hps => hps
  | .mapped _ key union none optional value => by
    refine makes_expresses h ?_
    rw [exprTy]
    exact (makes_exprTy h vars union).bind fun u => (makes_exprTy (ctx.bind_mode key h) vars value).bind
      fun v => makes_pure fun final hv hu => hu.renders.append hv.renders.local
  | .mapped _ key union (some renamed) optional value => by
    refine makes_expresses h ?_
    rw [exprTy]
    refine (makes_exprTy h vars union).bind fun u => (makes_exprTy (ctx.bind_mode key h) vars renamed).bind
      fun n => (makes_exprTy (ctx.bind_mode key h) vars value).bind fun v =>
        makes_pure fun final hv hn hu => ?_
    have hparts := hu.renders.append (hn.renders.local.append hv.renders.local)
    simpa [Expr.uses, Expr.free] using hparts
  | .tuple _ elements => by
    refine makes_expresses h ?_
    rw [exprTy]
    exact (makes_exprTys h vars elements).bind fun ts => makes_pure fun final hts => renders_tys hts
  | .infer pos name none => by
    rw [exprTy]
    intro s t s' ht
    simp [h] at ht
  | .infer pos name (some bound) => by
    rw [exprTy]
    intro s t s' ht
    simp [h] at ht
  | .ident _ name => by
    refine makes_expresses h ?_
    rw [exprTy]
    refine makes_patternVars.bind fun found => makes_pure fun final hfound => ?_
    rw [hfound]
    refine ⟨conveys_reference name, fun x hvars hx lifted hmem => ?_⟩
    cases lifted with
    | true => cases hmem
    | false =>
      cases List.mem_singleton.1 hmem
      rw [reference_of_resolve hvars, hx]
      simpa using Carries.bare
  | .number .. | .string .. | .numberType _ | .stringType _ => by
    refine makes_expresses h ?_
    rw [exprTy]
    exact makes_pure fun final => renders_nil

theorem makes_exprTys {ctx : Context} (h : ctx.mode = none) (vars : List String) :
    ∀ es : List Expr, Makes vars (exprTys ctx es) fun final ts =>
      List.Forall₂ (Expresses final vars ctx.scope) es ts
  | [] => by
    rw [exprTys]
    exact makes_pure fun _ => .nil
  | e :: es => by
    rw [exprTys]
    exact (makes_exprTy h vars e).bind fun _ => (makes_exprTys h vars es).bind fun _ =>
      makes_pure fun _ hts ht => .cons ht hts

theorem makes_argTys {ctx : Context} (h : ctx.mode = none) (vars : List String) :
    ∀ es : List Expr, Makes vars (argTys ctx es) fun final args =>
      List.Forall₂ (fun e arg => Expresses final vars ctx.scope e arg.2) es args
  | [] => by
    rw [argTys]
    exact makes_pure fun _ => .nil
  | e :: es => by
    rw [argTys]
    exact makes_skip quiet_freshId fun _ => (makes_exprTy h vars e).bind fun _ =>
      (makes_argTys h vars es).bind fun _ => makes_pure fun _ hts ht => .cons ht hts

theorem makes_boundTys {ctx : Context} (h : ctx.mode = none) (vars : List String) :
    ∀ params : List Param, Makes vars (boundTys ctx params) fun final ts =>
      Renders final vars ctx.scope (fun frames => usesOfBounds frames params)
        (fun lifted => freeOfBounds lifted params) (fun r => sitesOfTys r ts) (occurrencesOfTys [] ts) ∧
        inferredOfTys ts = []
  | [] => by
    rw [boundTys]
    exact makes_pure fun _ => ⟨renders_nil, rfl⟩
  | .mk _ _ none :: ps => by
    rw [boundTys]
    exact (makes_boundTys h vars ps).bind fun _ => makes_pure fun _ hts => hts
  | .mk _ _ (some bound) :: ps => by
    rw [boundTys]
    refine (makes_exprTy h vars bound).bind fun t => (makes_boundTys h vars ps).bind fun ts =>
      makes_pure fun _ hts ht => ⟨ht.renders.append hts.1, ?_⟩
    rw [inferredOfTys, ht.inferred_eq, hts.2, List.append_nil]

theorem makes_blockTy {ctx : Context} (h : ctx.mode = none) (vars : List String) (pos : Position) :
    ∀ body : List Stmt, Makes vars (blockTy ctx pos body) fun final t =>
      Renders final vars ctx.scope (fun frames => usesOfStmts frames body)
        (fun lifted => freeOfStmts lifted body) (fun r => t.sites r) (t.occurrences [])
  | [] => by
    rw [blockTy]
    exact makes_fail _ _
  | [.expr _ value] => by
    rw [blockTy]
    refine (makes_exprTy h vars value).imp fun final t ht => ?_
    simpa [usesOfStmts, freeOfStmts] using ht.renders
  | .expr p _ :: _ :: _ => by
    rw [blockTy]
    · exact makes_fail _ _
    · simp
  | .assertEqual p _ _ :: _ => by
    rw [blockTy]
    exact makes_fail _ _
  | [.letDecl p _ _] => by
    rw [blockTy]
    exact makes_fail _ _
  | .letDecl _ name value :: s :: rest => by
    rw [blockTy]
    · refine (makes_exprTy h vars value).bind fun v =>
        (makes_blockTy (ctx.bind_mode name h) vars pos (s :: rest)).bind fun b =>
          makes_pure fun final hb hv => ?_
      refine (hv.renders.append hb.local).congr (fun r m => ?_) (exposes_bindExactly hv.inferred_eq)
      rw [Ty.sites, reached_bindExactly hv.inferred_eq, reached_append]
    · simp

theorem makes_armTys {ctx : Context} (h : ctx.mode = none) (vars : List String) :
    ∀ arms : List Arm, Makes vars (armTys ctx arms) fun final ts =>
      Renders final vars ctx.scope (fun frames => usesOfArms frames arms)
        (fun lifted => if lifted then freeOfArms arms else []) (fun r => sitesOfTys r ts)
        (occurrencesOfTys [] ts)
  | [] => by
    rw [armTys]
    exact makes_pure fun _ => ⟨conveys_nil, fun _ _ _ lifted hmem => by cases lifted <;> cases hmem⟩
  | .mk _ pattern result :: as => by
    rw [armTys]
    refine (makes_liftArm (fun inner => binds_exprTy inner pattern)
      (fun inner => infers_exprTy inner pattern) fun inner hinner =>
        (makes_exprTy hinner pattern.patternVars result).imp fun _ _ ht => ht.renders).bind fun t =>
          (makes_armTys h vars as).bind fun ts => makes_pure fun final hts ht => ?_
    refine ⟨ht.conveys.append hts.conveys, fun x hvars hx lifted hmem => ?_⟩
    refine (ht.exposes.append hts.exposes) x hvars hx lifted ?_
    cases lifted <;> exact hmem

theorem makes_partTys {ctx : Context} (h : ctx.mode = none) (vars : List String) :
    ∀ parts : List Part, Makes vars (partTys ctx parts) fun final ps =>
      Renders final vars ctx.scope (fun frames => usesOfParts frames parts)
        (fun lifted => freeOfParts lifted parts) (fun r => sitesOfPieces r ps) (occurrencesOfPieces [] ps)
  | [] => by
    rw [partTys]
    exact makes_pure fun _ => renders_nil
  | .text _ :: ps => by
    rw [partTys]
    exact (makes_partTys h vars ps).bind fun _ => makes_pure fun _ hps => hps
  | .expr value :: ps => by
    rw [partTys]
    exact (makes_exprTy h vars value).bind fun _ => (makes_partTys h vars ps).bind fun _ =>
      makes_pure fun _ hps ht => ht.renders.append hps

theorem makes_propertyTys {ctx : Context} (h : ctx.mode = none) (vars : List String) :
    ∀ properties : List Property, Makes vars (propertyTys ctx properties) fun final fs =>
      Renders final vars ctx.scope (fun frames => usesOfProperties frames properties)
        (fun lifted => freeOfProperties lifted properties) (fun r => sitesOfFields r fs)
        (occurrencesOfFields [] fs)
  | [] => by
    rw [propertyTys]
    exact makes_pure fun _ => renders_nil
  | .named _ _ _ value :: ps => by
    rw [propertyTys]
    exact (makes_exprTy h vars value).bind fun _ => (makes_propertyTys h vars ps).bind fun _ =>
      makes_pure fun _ hps ht => ht.renders.append hps
  | .computed _ key _ value :: ps => by
    rw [propertyTys]
    exact (makes_exprTy h vars key).bind fun _ => (makes_exprTy h vars value).bind fun _ =>
      (makes_propertyTys h vars ps).bind fun _ =>
        makes_pure fun _ hps ht hk => hk.renders.append (ht.renders.append hps)

end

/-! ## Programs -/

/-- The references of the code of a definition are its identifiers, each of them standing for
its innermost binder. -/
def Preserves (table : List Lifted) (d : Definition) (code : Ty) : Prop :=
  ∀ m, Mentions table .outermost code m ↔ ∃ u ∈ d.uses, m = u.mention

/-- The declaration of a definition holds code that preserves its scoping. -/
def Declares (table : List Lifted) (d : Definition) (declaration : Declaration) : Prop :=
  ∃ code, declaration = .named d.isExported ⟨.user d.name, code⟩ ∧
    (Distinct table → (∀ u ∈ d.uses, ¬ IsGenerated u.name) → Preserves table d code)

variable {ctx : Context}

theorem makes_definition (hmode : ctx.mode = none) (hscope : ctx.scope = Scope.empty)
    (d : Definition) :
    Makes [] (definition ctx d) fun final declaration => Declares final d declaration := by
  have hvalue : Makes [] (definitionTy ctx d) fun final t =>
      Distinct final → (∀ u ∈ d.uses, ¬ IsGenerated u.name) → Preserves final d t := by
    unfold definitionTy Preserves Definition.uses
    split
    · refine (makes_exprTy hmode [] d.body).imp fun final t ht htable hplain => ?_
      exact ht.conveys htable (hscope ▸ agrees_outermost) hplain
    · refine (makes_liftLambda fun inner hinner => makes_guarded (makes_boundTys hinner [] d.params)
        (makes_exprTy hinner [] d.body)).imp fun final t ht htable hplain => ?_
      exact ht.conveys htable (hscope ▸ agrees_outermost) hplain
  exact hvalue.bind fun code => makes_pure fun final hcode => ⟨code, rfl, hcode⟩

theorem makes_sectionStmts (hmode : ctx.mode = none) (stmts : List Stmt) :
    Makes [] (sectionStmts ctx stmts) fun _ _ => True := by
  intro s as s' h hvars
  have hs := binds_sectionStmts hmode stmts h
  refine ⟨by simpa [hvars] using hs.patternVars_eq, fun table htable => ?_⟩
  obtain ⟨table', hsub, htable'⟩ := exists_table_extending htable hs.lifted_grows
  exact ⟨table', hsub, htable', fun _ _ => trivial⟩

theorem makes_topLevels (hmode : ctx.mode = none) (hscope : ctx.scope = Scope.empty)
    (items : List TopLevel) :
    Makes [] (topLevels ctx items) fun final declarations =>
      List.Forall₂ (fun item declaration => ∀ d, item = .definition d → Declares final d declaration)
        items declarations := by
  induction items with
  | nil => exact makes_pure fun _ => .nil
  | cons item items ih =>
    have hitem : Makes [] (topLevel ctx item) fun final declaration =>
        ∀ d, item = .definition d → Declares final d declaration := by
      cases item with
      | definition d =>
        refine (makes_definition hmode hscope d).imp fun final declaration hd d' heq => ?_
        cases heq
        exact hd
      | sectionOf s =>
        exact (makes_sectionStmts hmode s.body).bind fun _ => makes_pure fun _ _ d heq => nomatch heq
      | importOf i => exact makes_pure fun _ d heq => nomatch heq
    exact hitem.bind fun _ => ih.bind fun _ => makes_pure fun _ hrest hfirst => .cons hfirst hrest

theorem distinct_of_unambiguous {s : GenState} (hs : s.Unambiguous) {table : List Lifted}
    (htable : table.map Lifted.toInterface = s.lifted) : Distinct table := by
  intro f hf g hg hname
  have hnodup : (table.map fun f => f.name).Nodup := by
    have hnames := hs.1
    rwa [← htable, List.map_map] at hnames
  exact List.inj_on_of_nodup_map hnodup hf hg hname

/-- A program that compiles is a successful run. -/
theorem yields_of_generate {program : Program} {m : Module} (h : program.generate = .ok m) :
    ∃ s, (topLevels program.context program.body).Yields GenState.initial m.items s ∧
      m.lifted = s.lifted := by
  unfold Program.generate at h
  split at h
  · next items s hrun =>
    cases h
    exact ⟨s, hrun, rfl⟩
  · cases h

/-- **Closure conversion preserves lexical scoping.**  In the code of a program that compiles,
the references of each definition, followed through the declarations it leads to, are its
identifiers outside of patterns, and each stands for the innermost enclosing binder of its
name, or for the global name if there is none.  In particular no reference goes beyond the
end of a capture tuple, since it would stand for nothing. -/
theorem reference_denotes_innermost_binder {program : Program} {m : Module}
    (h : program.generate = .ok m) :
    ∃ table : List Lifted, table.map Lifted.toInterface = m.lifted ∧
      ∀ (i : Nat) (d : Definition), program.body[i]? = some (.definition d) →
        (∀ u ∈ d.uses, ¬ IsGenerated u.name) → ∃ code, m.items[i]? = some (.named d.isExported ⟨.user d.name, code⟩) ∧
          ∀ mention : Mention, Mentions table .outermost code mention ↔
            ∃ u ∈ d.uses, mention = ⟨u.frames, u.name, some (referent u.frames u.name)⟩ := by
  obtain ⟨s, hrun, hlifted⟩ := yields_of_generate h
  obtain ⟨-, hmake⟩ := makes_topLevels rfl rfl program.body hrun rfl
  obtain ⟨table, -, htable, hfinal⟩ := hmake [] rfl
  have hunambiguous : s.Unambiguous :=
    (binds_topLevels rfl program.body hrun).unambiguous ⟨List.nodup_nil, by simp [GenState.initial]⟩
  refine ⟨table, htable.trans hlifted.symm, fun i d hi hplain => ?_⟩
  have hitems := hfinal table (List.Subset.refl _)
  obtain ⟨hlt, hbody⟩ := List.getElem?_eq_some_iff.1 hi
  have hlt' : i < m.items.length := hitems.length_eq ▸ hlt
  obtain ⟨code, hdeclaration, hcode⟩ := hitems.get hlt hlt' d hbody
  refine ⟨code, ?_, hcode (distinct_of_unambiguous hunambiguous htable) hplain⟩
  rw [List.getElem?_eq_getElem hlt']
  exact congrArg some hdeclaration

/-- A function whose parameter `x` is hidden by a pattern variable and whose parameter `y` is
hidden by the parameter of a lambda in the result of that arm. -/
def nested : Definition where
  pos := ⟨1, 1⟩
  isExported := true
  name := "f"
  params := [.mk ⟨1, 3⟩ "x" none, .mk ⟨1, 6⟩ "y" (some (.ident ⟨1, 16⟩ "x"))]
  body := .block ⟨1, 21⟩
    [.letDecl ⟨2, 3⟩ "z" (.tuple ⟨2, 11⟩ [.ident ⟨2, 12⟩ "x", .ident ⟨2, 15⟩ "y"]),
     .expr ⟨3, 3⟩ (.matching ⟨3, 3⟩ (.ident ⟨3, 9⟩ "z")
       [.mk ⟨4, 5⟩ (.tuple ⟨4, 5⟩ [.infer ⟨4, 6⟩ "x" none, .infer ⟨4, 15⟩ "w" none])
          (.lambda ⟨4, 28⟩ [.mk ⟨4, 28⟩ "y" none]
            (.mapped ⟨4, 33⟩ "k" (.ident ⟨4, 40⟩ "x") none false
              (.tuple ⟨4, 44⟩ [.ident ⟨4, 45⟩ "k", .ident ⟨4, 48⟩ "x", .ident ⟨4, 51⟩ "y",
                .ident ⟨4, 54⟩ "z", .ident ⟨4, 57⟩ "g"])))])]

/-- The frames around the innermost tuple of `nested`. -/
def nestedFrames : List Frame :=
  [.locals ["k"], .params ["y"], .locals ["x", "w"], .locals ["z"], .params ["x", "y"]]

/-- In the innermost tuple of `nested`, `x` is the pattern variable, `y` the parameter of the
lambda, `z` the let two declarations further out, and `g` is global. -/
theorem nested_references :
    ∃ (m : Module) (table : List Lifted) (code : Ty),
      Program.generate ⟨[.definition nested]⟩ = .ok m ∧
      table.map Lifted.toInterface = m.lifted ∧
      m.items[0]? = some (.named true ⟨.user "f", code⟩) ∧
      ∀ use ∈ [("x", Referent.binder 2 (.local "x")), ("y", .binder 3 (.param 0)),
          ("z", .binder 1 (.local "z")), ("k", .binder 4 (.local "k")), ("g", .global "g")],
        Mentions table .outermost code ⟨nestedFrames, use.1, some use.2⟩ := by
  obtain ⟨m, hm⟩ : ∃ m, Program.generate ⟨[.definition nested]⟩ = .ok m := ⟨_, rfl⟩
  obtain ⟨table, htable, hitems⟩ := reference_denotes_innermost_binder hm
  have hplain : ∀ u ∈ nested.uses, '_' ∉ u.name.toList := by decide
  obtain ⟨code, hcode, hmentions⟩ :=
    hitems 0 nested rfl fun u hu hgenerated => hplain u hu hgenerated.underscore_mem
  have huses : ∀ use ∈ [("x", Referent.binder 2 (.local "x")), ("y", .binder 3 (.param 0)),
      ("z", .binder 1 (.local "z")), ("k", .binder 4 (.local "k")), ("g", .global "g")],
      (⟨nestedFrames, use.1⟩ : Use) ∈ nested.uses ∧ referent nestedFrames use.1 = use.2 := by
    decide
  refine ⟨m, table, code, hm, htable, hcode, fun use huse => ?_⟩
  obtain ⟨hmem, hreferent⟩ := huses use huse
  exact (hmentions _).2 ⟨⟨nestedFrames, use.1⟩, hmem, by rw [hreferent]⟩

end TypeForge.Scoping
