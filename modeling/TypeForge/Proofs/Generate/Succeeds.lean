import TypeForge.Compile
import TypeForge.Proofs.Generate.Frame

/-!
# When code generation succeeds

Whether code is generated depends on the state in one respect only: the binding reading of a
pattern fails if there is no room left for its variables.  Everything else that can go wrong
is seen in the program.  Conditions of computations in a sequence add up, and so does the room they
take, so the condition of a program is found from its steps, and it is that the program is
well-formed.
-/

namespace TypeForge

open TypeScript

namespace Gen

variable {α β : Type} {m : Gen α} {f : α → Gen β} {s : GenState}

/-- Started in the state `s`, the computation `m` succeeds. -/
def Succeeds (m : Gen α) (s : GenState) : Prop := ∃ a s', m.Yields s a s'

theorem succeeds_pure (a : α) : (pure a : Gen α).Succeeds s :=
  ⟨a, s, yields_pure.2 ⟨rfl, rfl⟩⟩

theorem succeeds_bind :
    (m >>= f).Succeeds s ↔ ∃ a t, m.Yields s a t ∧ (f a).Succeeds t := by
  simp only [Succeeds, yields_bind]
  constructor
  · rintro ⟨b, s', a, t, ha, hb⟩
    exact ⟨a, t, ha, b, s', hb⟩
  · rintro ⟨a, t, ha, b, s', hb⟩
    exact ⟨b, s', a, t, ha, hb⟩

theorem succeeds_withPatternVars {vars : List String} :
    (withPatternVars vars m).Succeeds s ↔ m.Succeeds { s with patternVars := vars } := by
  simp only [Succeeds, yields_withPatternVars]
  constructor
  · rintro ⟨a, _, t, ha, rfl⟩
    exact ⟨a, t, ha⟩
  · rintro ⟨a, t, ha⟩
    exact ⟨a, _, t, ha, rfl⟩

/-- Variables have room exactly if there is room for some, and behind them for the others. -/
theorem hasRoom_append {vars bound more : List String} :
    HasRoom vars (bound ++ more) ↔ HasRoom vars bound ∧ HasRoom (vars ++ bound) more := by
  unfold HasRoom
  rcases more with _ | ⟨name, more⟩
  · simp
  · simp only [List.append_eq_nil_iff, List.length_append, List.length_cons, reduceCtorEq, and_false,
      false_or]
    omega

/-- **What is put together from steps succeeds exactly under its condition**, if the variables that
it adds have room. -/
theorem Steps.succeeds_iff {nodes : List Node} {bound : List String} {P : Prop} {m' : Gen α}
    (h : Steps nodes bound P m m') (s : GenState) :
    m.Succeeds s ↔ P ∧ HasRoom s.patternVars bound := by
  induction h generalizing s with
  | pure a => simp [succeeds_pure, HasRoom]
  | fail => simp [Succeeds]
  | freshId | require | patternVars => simp [Succeeds, Gen.require, HasRoom]
  | patternVar _ _ name =>
    have hroom : HasRoom s.patternVars [name] ↔ s.patternVars.length < maxPatternVars := by
      simp only [HasRoom, List.cons_ne_nil, false_or, List.length_singleton, Nat.lt_iff_add_one_le]
    rw [hroom]
    simp [Succeeds, yields_patternVar_binding]
  | @bind _ _ bound more P Q m m' f f' hm hf ihm ihf =>
    -- Behind a run of `m` there is exactly the room that its variables leave.
    have hrest {a t} (ha : m.Yields s a t) :
        (f a).Succeeds t ↔ Q ∧ HasRoom (s.patternVars ++ bound) more := by
      rw [ihf a t, (hm.binds ha).patternVars_eq]
    rw [succeeds_bind, hasRoom_append, and_and_and_comm, ← ihm]
    constructor
    · rintro ⟨a, t, ha, hb⟩
      exact ⟨⟨a, t, ha⟩, (hrest ha).1 hb⟩
    · rintro ⟨⟨a, t, ha⟩, hb⟩
      exact ⟨a, t, ha, (hrest ha).2 hb⟩
  | withPatternVars vars _ ih =>
    rw [succeeds_withPatternVars, ih]
    exact (and_iff_left (.inl rfl)).symm
  | lift _ body _ ih =>
    simp only [succeeds_bind, addLifted, yields_freshId, yields_modify, ih]
    constructor
    · rintro ⟨_, _, ⟨rfl, rfl⟩, _, _, rfl, h⟩
      exact h
    · intro h
      exact ⟨_, _, ⟨rfl, rfl⟩, (), _, rfl, h⟩

end Gen

/-- Code generation starts without pattern variables. -/
theorem Program.generate_eq_ok_iff (program : Program) :
    (∃ code, program.generate = .ok code) ↔
      (Gen.topLevels program.context program.body).Succeeds GenState.initial := by
  unfold Program.generate Gen.Succeeds Gen.Yields
  rcases (Gen.topLevels program.context program.body).run.run GenState.initial with ⟨e | items, s⟩
  · constructor
    · rintro ⟨code, h⟩
      cases h
    · rintro ⟨items, s', h⟩
      cases h
  · constructor
    · intro _
      exact ⟨items, s, rfl⟩
    · intro _
      exact ⟨_, rfl⟩

theorem compile_of_parseProgram {source : String} {program : Program}
    (h : parseProgram source = .ok program) (target : Target) :
    compile target source =
      (program.generate.mapError .generation).map fun code => code.render target := by
  unfold compile
  rw [h]
  change (do
    let code ← program.generate.mapError .generation
    return code.render target : Except CompileError String) = _
  cases program.generate with
  | ok code => rfl
  | error e => rfl

/-- **There is code for exactly the well-formed programs.**  The error of a program without
code does not depend on the target it is compiled for. -/
theorem generate_succeeds_iff_wellFormed (program : Program) :
    ((∃ code, program.generate = .ok code) ↔ program.WellFormed) ∧
      ∀ source, parseProgram source = .ok program → ∀ target error,
        compile target source = .error error ↔
          ∃ e, program.generate = .error e ∧ error = .generation e := by
  constructor
  · rw [program.generate_eq_ok_iff, program.wellFormed_iff]
    rw [(Gen.steps_topLevels rfl program.body (List.Subset.refl _)).succeeds_iff]
    exact and_iff_left (.inl rfl)
  · intro source hsource target error
    rw [compile_of_parseProgram hsource]
    cases program.generate with
    | ok code =>
      change (Except.ok (code.render target) : Except CompileError String) = .error error ↔ _
      simp
    | error e =>
      change (Except.error (.generation e) : Except CompileError String) = .error error ↔ _
      simp [eq_comm]

end TypeForge
