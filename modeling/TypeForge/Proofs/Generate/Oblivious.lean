import TypeForge.Proofs.Generate.Steps

/-!
# What generated code depends on

Of the state that code generation finds, only the next id and the pattern variables show in the
code of an expression.  The library symbols that were noted before and the functions that were
lifted before do not.
-/

namespace TypeForge

open TypeScript

/-- Two states with the same next id and the same pattern variables. -/
structure GenState.Like (s t : GenState) : Prop where
  nextId_eq : t.nextId = s.nextId
  patternVars_eq : t.patternVars = s.patternVars

namespace Gen

variable {α β : Type} {m : Gen α} {f : α → Gen β}

/-- Started in states that are alike, `m` has the same results. -/
def Oblivious (m : Gen α) : Prop :=
  ∀ ⦃s : GenState⦄ ⦃a : α⦄ ⦃s' : GenState⦄, m.Yields s a s' → ∀ t, s.Like t → ∃ t', m.Yields t a t' ∧ s'.Like t'

theorem oblivious_pure (a : α) : Oblivious (pure a : Gen α) := by
  intro s b s' h t ht
  obtain ⟨rfl, rfl⟩ := yields_pure.1 h
  exact ⟨t, yields_pure.2 ⟨rfl, rfl⟩, ht⟩

theorem oblivious_fail (pos : Position) (error : GenError) : Oblivious (fail pos error : Gen α) :=
  fun _ _ _ h => absurd h yields_fail

theorem Oblivious.bind (hm : Oblivious m) (hf : ∀ a, Oblivious (f a)) : Oblivious (m >>= f) := by
  intro s b s' h t ht
  obtain ⟨a, s₁, ha, hb⟩ := yields_bind.1 h
  obtain ⟨t₁, ha', ht₁⟩ := hm ha t ht
  obtain ⟨t', hb', ht'⟩ := hf a hb t₁ ht₁
  exact ⟨t', yields_bind.2 ⟨a, t₁, ha', hb'⟩, ht'⟩

/-- A step on the state that keeps states alike. -/
theorem oblivious_modify {g : GenState → GenState} (hg : ∀ s t : GenState, s.Like t → (g s).Like (g t)) :
    Oblivious (modify g : Gen Unit) := by
  intro s u s' h t ht
  rw [yields_modify.1 h]
  exact ⟨g t, yields_modify.2 rfl, hg s t ht⟩

theorem oblivious_freshId : Oblivious freshId := by
  intro s id s' h t ht
  obtain ⟨rfl, rfl⟩ := yields_freshId.1 h
  exact ⟨_, yields_freshId.2 ⟨ht.nextId_eq.symm, rfl⟩, congrArg (· + 1) ht.nextId_eq, ht.patternVars_eq⟩

theorem oblivious_patternVars : Oblivious patternVars := by
  intro s vars s' h t ht
  obtain ⟨rfl, rfl⟩ := yields_patternVars.1 h
  exact ⟨t, yields_patternVars.2 ⟨ht.patternVars_eq.symm, rfl⟩, ht⟩

theorem Oblivious.withPatternVars (hm : Oblivious m) (vars : List String) :
    Oblivious (withPatternVars vars m) := by
  intro s a s' h t ht
  obtain ⟨s₁, ha, rfl⟩ := yields_withPatternVars.1 h
  obtain ⟨t₁, ha', ht₁⟩ := hm ha { t with patternVars := vars } ⟨ht.nextId_eq, rfl⟩
  exact ⟨_, yields_withPatternVars.2 ⟨t₁, ha', rfl⟩, ht₁.nextId_eq, ht.patternVars_eq⟩

/-- **What is put together from steps does not depend on what was generated before.** -/
theorem Steps.oblivious {nodes : List Node} {bound : List String} {P : Prop} {m' : Gen α}
    (h : Steps nodes bound P m m') : Oblivious m := by
  induction h with
  | pure a => exact oblivious_pure a
  | fail => exact oblivious_fail _ _
  | bind _ _ hm hf => exact hm.bind hf
  | freshId => exact oblivious_freshId
  | require => exact oblivious_modify fun _ _ h => ⟨h.nextId_eq, h.patternVars_eq⟩
  | patternVars => exact oblivious_patternVars
  | patternVar _ _ name =>
    intro s a s' h t ht
    obtain ⟨hroom, rfl, rfl⟩ := yields_patternVar_binding.1 h
    rw [← ht.patternVars_eq] at hroom
    exact ⟨_, yields_patternVar_binding.2 ⟨hroom, rfl, rfl⟩, ht.nextId_eq,
      congrArg (· ++ [name]) ht.patternVars_eq⟩
  | withPatternVars vars _ hm => exact hm.withPatternVars vars
  | lift _ _ _ hf =>
    refine oblivious_freshId.bind fun id => Oblivious.bind ?_ fun _ => hf id
    exact oblivious_modify fun _ _ h => ⟨h.nextId_eq, h.patternVars_eq⟩

/-- **The code of an expression does not depend on what was generated before.** -/
theorem oblivious_exprTy (ctx : Context) (e : Expr) : Oblivious (exprTy ctx e) :=
  (steps_exprTy ctx e (List.Subset.refl _)).oblivious

end Gen

end TypeForge
