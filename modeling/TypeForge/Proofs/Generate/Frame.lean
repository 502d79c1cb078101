import TypeForge.Proofs.Generate.Steps

/-!
# What a run of code generation leaves of the state

Generating code hands out ids upwards and only adds to the noted symbols and to the lifted
functions, whose names stay different; and it leaves the pattern variables as they were,
except that the binding reading of a pattern adds the variables of that pattern.
-/

namespace TypeForge

open TypeScript

/-- The lifted functions have different names, all of them made from ids handed out so
far. -/
def GenState.Unambiguous (s : GenState) : Prop :=
  (s.lifted.map Interface.name).Nodup ∧
    ∀ f ∈ s.lifted, ∃ id < s.nextId, f.name = .lambda id ∨ f.name = .arm id

/-- What any run makes of ids, noted symbols and lifted functions. -/
structure GenState.Grows (s s' : GenState) : Prop where
  nextId_le : s.nextId ≤ s'.nextId
  imports_grows : s.imports <+: s'.imports
  lifted_grows : s.lifted <+: s'.lifted
  unambiguous : s.Unambiguous → s'.Unambiguous

/-- What a run that adds the pattern variables `bound` makes of the state. -/
structure GenState.Extends (bound : List String) (s s' : GenState) : Prop extends Grows s s' where
  patternVars_eq : s'.patternVars = s.patternVars ++ bound

namespace GenState

variable {s s' s'' : GenState} {bound more : List String}

theorem Grows.trans (h : s.Grows s') (h' : s'.Grows s'') : s.Grows s'' where
  nextId_le := Nat.le_trans h.nextId_le h'.nextId_le
  imports_grows := h.imports_grows.trans h'.imports_grows
  lifted_grows := h.lifted_grows.trans h'.lifted_grows
  unambiguous := h'.unambiguous ∘ h.unambiguous

theorem grows_patternVars (s : GenState) (vars : List String) :
    s.Grows { s with patternVars := vars } :=
  ⟨Nat.le_refl _, List.prefix_rfl, List.prefix_rfl, id⟩

theorem Extends.trans (h : Extends bound s s') (h' : Extends more s' s'') :
    Extends (bound ++ more) s s'' where
  toGrows := h.toGrows.trans h'.toGrows
  patternVars_eq := by rw [h'.patternVars_eq, h.patternVars_eq, List.append_assoc]

theorem Undisturbed.extends (h : s.Undisturbed s') : Extends [] s s' where
  nextId_le := h.nextId_le
  imports_grows := h.imports_grows
  lifted_grows := h.lifted_eq ▸ List.prefix_rfl
  unambiguous := by
    rintro ⟨hnodup, hids⟩
    refine ⟨h.lifted_eq ▸ hnodup, fun f hf => ?_⟩
    obtain ⟨id, hid, hname⟩ := hids f (h.lifted_eq ▸ hf)
    exact ⟨id, Nat.lt_of_lt_of_le hid h.nextId_le, hname⟩
  patternVars_eq := by rw [h.patternVars_eq, List.append_nil]

/-- Lifting a function under a fresh name keeps the names apart. -/
theorem grows_lift {f : Interface} (h : f.name = .lambda s.nextId ∨ f.name = .arm s.nextId) :
    s.Grows { s with nextId := s.nextId + 1, lifted := s.lifted ++ [f] } where
  nextId_le := Nat.le_succ _
  imports_grows := List.prefix_rfl
  lifted_grows := List.prefix_append _ _
  unambiguous := by
    rintro ⟨hnodup, hids⟩
    have hnew : f.name ∉ s.lifted.map Interface.name := by
      intro hmem
      obtain ⟨g, hg, hname⟩ := List.mem_map.1 hmem
      obtain ⟨id, hid, hgname⟩ := hids g hg
      rcases h with h | h <;> rcases hgname with hg' | hg' <;> rw [h, hg'] at hname <;>
        cases hname <;> exact Nat.lt_irrefl _ hid
    refine ⟨?_, ?_⟩
    · rw [List.map_append]
      exact List.nodup_append.2 ⟨hnodup, by simp, by simpa using hnew⟩
    · intro g hg
      rcases List.mem_append.1 hg with hg | hg
      · obtain ⟨id, hid, hname⟩ := hids g hg
        exact ⟨id, Nat.lt_succ_of_lt hid, hname⟩
      · rw [List.mem_singleton] at hg
        exact ⟨s.nextId, Nat.lt_succ_self _, hg ▸ h⟩

end GenState

namespace Gen

variable {α β : Type} {m : Gen α} {f : α → Gen β} {bound more : List String}

/-- Every successful run of `m` adds the pattern variables `bound`. -/
def Binds (bound : List String) (m : Gen α) : Prop :=
  ∀ ⦃s : GenState⦄ ⦃a : α⦄ ⦃s' : GenState⦄, m.Yields s a s' → GenState.Extends bound s s'

theorem Quiet.binds (hm : Quiet m) : Binds [] m :=
  fun _ _ _ h => (hm h).extends

theorem binds_pure (a : α) : Binds [] (pure a : Gen α) := (quiet_pure a).binds

theorem binds_fail (pos : Position) (error : GenError) : Binds bound (fail pos error : Gen α) :=
  fun _ _ _ h => absurd h yields_fail

theorem Binds.bind (hm : Binds bound m) (hf : ∀ a, Binds more (f a)) :
    Binds (bound ++ more) (m >>= f) := by
  intro s b s' h
  obtain ⟨a, t, ha, hb⟩ := yields_bind.1 h
  exact (hm ha).trans (hf a hb)

theorem Binds.withPatternVars (hm : Binds bound m) (vars : List String) :
    Binds [] (withPatternVars vars m) := by
  intro s a s' h
  obtain ⟨t, ha, rfl⟩ := yields_withPatternVars.1 h
  refine ⟨?_, (List.append_nil _).symm⟩
  exact (GenState.grows_patternVars s vars).trans
    ((hm ha).toGrows.trans (GenState.grows_patternVars t _))

/-- **What is put together from steps adds its pattern variables.** -/
theorem Steps.binds {nodes : List Node} {P : Prop} {m' : Gen α} (h : Steps nodes bound P m m') :
    Binds bound m := by
  induction h with
  | pure a => exact binds_pure a
  | fail => exact binds_fail _ _
  | bind _ _ hm hf => exact hm.bind hf
  | freshId => exact quiet_freshId.binds
  | require symbol => exact (quiet_require symbol).binds
  | patternVars => exact quiet_patternVars.binds
  | patternVar _ _ name limit =>
    intro s t s' h
    rw [(yields_patternVar_binding.1 h).2.2]
    exact ⟨GenState.grows_patternVars s _, rfl⟩
  | withPatternVars vars _ hm => exact hm.withPatternVars vars
  | @lift _ _ _ make hmake body _ _ _ hf =>
    intro s a s' h
    simp only [addLifted, yields_bind, yields_freshId, yields_modify] at h
    obtain ⟨id, _, ⟨rfl, rfl⟩, _, _, rfl, ha⟩ := h
    have hlift : GenState.Extends [] s { s with
        nextId := s.nextId + 1, lifted := s.lifted ++ [⟨make s.nextId, body⟩] } :=
      ⟨GenState.grows_lift (hmake s.nextId), (List.append_nil _).symm⟩
    exact hlift.trans (hf _ ha)

/-! ## Code -/

theorem binds_patternVar {ctx : Context} {mode : PatternMode} (h : ctx.mode = some mode)
    (pos : Position) (name : String) (limit : Option Ty) :
    Binds (ctx.bound [name]) (patternVar mode pos name limit) :=
  (steps_patternVar h (List.mem_singleton_self (⟨pos, .infer⟩ : Node)) pos name limit).binds

/-- **Generating an expression adds the variables of a pattern**, in its binding reading, and
nothing to the pattern variables anywhere else. -/
theorem binds_exprTy (ctx : Context) (e : Expr) : Binds (ctx.bound e.patternVars) (exprTy ctx e) :=
  (steps_exprTy ctx e (List.Subset.refl _)).binds

/-- Outside of patterns, expressions leave the pattern variables alone. -/
theorem binds_exprTy_of_mode_eq_none {ctx : Context} (h : ctx.mode = none) (e : Expr) :
    Binds [] (exprTy ctx e) :=
  (steps_exprTy_of_mode_eq_none h e (List.Subset.refl _)).binds

theorem binds_argTys (ctx : Context) (es : List Expr) :
    Binds (ctx.bound (patternVarsOfExprs es)) (argTys ctx es) :=
  (steps_argTys ctx es (List.Subset.refl _)).binds

theorem binds_boundTys {ctx : Context} (h : ctx.mode = none) (params : List Param) :
    Binds [] (boundTys ctx params) :=
  (steps_boundTys h params (List.Subset.refl _)).binds

theorem binds_liftArm (ctx : Context) (pattern result : Expr) :
    Binds [] (liftArm ctx (exprTy · pattern) (exprTy · result)) := by
  have hpattern : pattern.nodes ⊆ pattern.nodes ++ result.nodes := List.subset_append_left _ _
  have hresult : result.nodes ⊆ pattern.nodes ++ result.nodes := List.subset_append_right _ _
  exact (steps_liftArm ctx (fun _ h => steps_exprTy_of_mode_isSome h pattern hpattern)
    fun _ h => steps_exprTy_of_mode_eq_none h result hresult).binds

theorem binds_sectionStmt {ctx : Context} (h : ctx.mode = none) (stmt : Stmt) :
    Binds [] (sectionStmt ctx stmt) :=
  (steps_sectionStmt h stmt (List.Subset.refl _)).binds

theorem binds_sectionStmts {ctx : Context} (h : ctx.mode = none) (stmts : List Stmt) :
    Binds [] (sectionStmts ctx stmts) :=
  (steps_sectionStmts h stmts (List.Subset.refl _)).binds

theorem binds_topLevel {ctx : Context} (h : ctx.mode = none) (item : TopLevel) :
    Binds [] (topLevel ctx item) :=
  (steps_topLevel h item (List.Subset.refl _)).binds

theorem binds_topLevels {ctx : Context} (h : ctx.mode = none) (items : List TopLevel) :
    Binds [] (topLevels ctx items) :=
  (steps_topLevels h items (List.Subset.refl _)).binds

end Gen

end TypeForge
