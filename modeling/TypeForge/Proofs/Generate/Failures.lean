import TypeForge.Proofs.Generate.Steps

/-!
# Where code generation fails

Generating code goes through a syntax tree, and every failure is reported at the node it is about.
The steps on the state never fail.
-/

namespace TypeForge

open TypeScript

namespace Gen

variable {α β : Type} {nodes : List Node} {m : Gen α} {f : α → Gen β}

/-- Every failure of `m` is at one of the nodes. -/
def FailsAt (nodes : List Node) (m : Gen α) : Prop :=
  ∀ ⦃s : GenState⦄ ⦃e : Located GenError⦄ ⦃s' : GenState⦄, m.run.run s = (.error e, s') →
    ∃ node ∈ nodes, node.pos = e.pos

theorem failsAt_pure (a : α) : FailsAt nodes (pure a : Gen α) := by
  intro s e s' h
  cases h

theorem failsAt_modify (g : GenState → GenState) : FailsAt nodes (modify g : Gen Unit) := by
  intro s e s' h
  cases h

theorem failsAt_fail {pos : Position} {kind : NodeKind} (h : ⟨pos, kind⟩ ∈ nodes) (error : GenError) :
    FailsAt nodes (fail pos error : Gen α) := by
  intro s e s' hrun
  cases hrun
  exact ⟨⟨pos, kind⟩, h, rfl⟩

theorem FailsAt.bind (hm : FailsAt nodes m) (hf : ∀ a, FailsAt nodes (f a)) : FailsAt nodes (m >>= f) := by
  intro s e s' h
  rw [ExceptT.run_bind, StateT.run_bind] at h
  rcases hrun : m.run.run s with ⟨_ | a, t⟩
  · rw [hrun] at h
    cases h
    exact hm hrun
  · rw [hrun] at h
    exact hf a h

theorem failsAt_freshId : FailsAt nodes freshId := by
  intro s e s' h
  cases h

theorem failsAt_patternVars : FailsAt nodes patternVars := by
  intro s e s' h
  cases h

theorem FailsAt.withPatternVars (hm : FailsAt nodes m) (vars : List String) :
    FailsAt nodes (withPatternVars vars m) := by
  intro s e s' h
  change ((fun p => (p.1, { p.2 with patternVars := s.patternVars }))
    (m.run.run { s with patternVars := vars }) : Except (Located GenError) α × GenState) = _ at h
  rcases hrun : m.run.run { s with patternVars := vars } with ⟨r, t⟩
  rw [hrun] at h
  cases h
  exact hm hrun

/-- **What is put together from steps fails at the nodes.** -/
theorem Steps.failsAt {bound : List String} {P : Prop} {m' : Gen α}
    (h : Steps nodes bound P m m') : FailsAt nodes m := by
  induction h with
  | pure a => exact failsAt_pure a
  | fail hpos _ error => exact failsAt_fail hpos error
  | bind _ _ hm hf => exact hm.bind hf
  | freshId => exact failsAt_freshId
  | require => exact failsAt_modify _
  | patternVars => exact failsAt_patternVars
  | patternVar hpos =>
    refine failsAt_patternVars.bind fun vars => ?_
    split
    · exact failsAt_fail hpos _
    · exact (failsAt_modify _).bind fun _ => failsAt_pure _
  | withPatternVars vars _ hm => exact hm.withPatternVars vars
  | lift _ _ _ hf => exact failsAt_freshId.bind fun id => (failsAt_modify _).bind fun _ => hf id

end Gen

/-- **Code for a program fails at its nodes.** -/
theorem exists_node_of_generate {program : Program} {e : Located GenError}
    (h : program.generate = .error e) : ∃ node ∈ program.nodes, node.pos = e.pos := by
  unfold Program.generate at h
  split at h
  · cases h
  · next e' s' hrun =>
    cases h
    exact (Gen.steps_topLevels rfl program.body (List.Subset.refl _)).failsAt hrun

end TypeForge
