import TypeForge.Generate.Monad
import TypeForge.Proofs.Scoping.Source

/-!
# What is met in a pattern

A pattern has identifiers and variables, in any order.  Its variables scope over the result of its
arm and not over the pattern itself, so an identifier of the pattern stands for what it stands for
around the match.  To tell when generated code heeds this, one has to know which identifiers are met
behind a variable of the same name.  Code generation meets the arguments of a call in front of
the callee, and the bound of a variable in front of its name.

Only identifiers that the expression does not bind itself count.
-/

namespace TypeForge.Scoping

/-- What is met on the way through an expression. -/
inductive Meeting where
  /-- An identifier.  It is lost if it belongs to the pattern of an arm inside of the expression and
  is met there behind a variable of the same name. -/
  | name (text : String) (lost : Bool)
  /-- A variable of the pattern that the expression is a part of. -/
  | infer (text : String)
deriving DecidableEq

/-- The identifiers of a pattern that are met behind the variables `seen`. -/
def settled (seen : List String) : List Meeting → List Meeting
  | [] => []
  | .infer text :: ms => settled (text :: seen) ms
  | .name text lost :: ms => .name text (lost || decide (text ∈ seen)) :: settled seen ms

/-- What is met apart from identifiers that are bound. -/
def without (bound : List String) (ms : List Meeting) : List Meeting :=
  ms.filter fun
    | .name text _ => text ∉ bound
    | .infer _ => true

/-- The name `x` is met. -/
def Meets (x : String) (ms : List Meeting) : Prop := ∃ lost, .name x lost ∈ ms

end Scoping

open Scoping

mutual

/-- What is met in an expression. -/
@[simp] def Expr.meets : Expr → List Meeting
  | .assignment _ target value => target.meets ++ value.meets
  | .binary _ _ lhs rhs | .logical _ _ lhs rhs => lhs.meets ++ rhs.meets
  | .unary _ _ operand => operand.meets
  | .conditional _ test consequent alternate =>
    test.meets ++ (consequent.meets ++ alternate.meets)
  | .call _ (.field _ object _) args => object.meets ++ meetsOfExprs args
  | .call _ callee args => meetsOfExprs args ++ callee.meets
  | .field _ object _ => object.meets
  | .index _ object key => object.meets ++ key.meets
  | .lambda _ params body =>
    without (params.map Param.name) (settled [] (meetsOfBounds params ++ body.meets))
  | .block _ body => meetsOfStmts body
  | .matching _ scrutinee arms => scrutinee.meets ++ meetsOfArms arms
  | .template _ parts => meetsOfParts parts
  | .object _ properties => meetsOfProperties properties
  | .mapped _ key union none _ value => union.meets ++ without [key] value.meets
  | .mapped _ key union (some renamed) _ value =>
    union.meets ++ (without [key] renamed.meets ++ without [key] value.meets)
  | .tuple _ elements => meetsOfExprs elements
  | .infer _ name none => [.infer name]
  | .infer _ name (some bound) => bound.meets ++ [.infer name]
  | .ident _ name => [.name name false]
  | .number .. | .string .. | .numberType _ | .stringType _ => []

/-- What is met in a list of expressions. -/
@[simp] def meetsOfExprs : List Expr → List Meeting
  | [] => []
  | e :: es => e.meets ++ meetsOfExprs es

/-- What is met in the bounds of parameters. -/
@[simp] def meetsOfBounds : List Param → List Meeting
  | [] => []
  | .mk _ _ none :: ps => meetsOfBounds ps
  | .mk _ _ (some bound) :: ps => bound.meets ++ meetsOfBounds ps

/-- What is met in statements, of which a let scopes over those behind it. -/
@[simp] def meetsOfStmts : List Stmt → List Meeting
  | [] => []
  | .letDecl _ name value :: ss => value.meets ++ without [name] (meetsOfStmts ss)
  | .assertEqual _ left right :: ss => left.meets ++ (right.meets ++ meetsOfStmts ss)
  | .expr _ value :: ss => value.meets ++ meetsOfStmts ss

/-- What is met in the arms of a match.  The variables of a pattern do not get out of its arm. -/
@[simp] def meetsOfArms : List Arm → List Meeting
  | [] => []
  | .mk _ pattern result :: as =>
    (settled [] pattern.meets ++ without pattern.patternVars (settled [] result.meets))
      ++ meetsOfArms as

/-- What is met in the parts of a template string. -/
@[simp] def meetsOfParts : List Part → List Meeting
  | [] => []
  | .text _ :: ps => meetsOfParts ps
  | .expr value :: ps => value.meets ++ meetsOfParts ps

/-- What is met in the properties of an object. -/
@[simp] def meetsOfProperties : List Property → List Meeting
  | [] => []
  | .named _ _ _ value :: ps => value.meets ++ meetsOfProperties ps
  | .computed _ key _ value :: ps => key.meets ++ (value.meets ++ meetsOfProperties ps)

end

theorem Expr.meets_call (pos : Position) {callee : Expr} (args : List Expr)
    (h : ¬ ∃ p object method, callee = .field p object method) :
    (Expr.call pos callee args).meets = meetsOfExprs args ++ callee.meets := by
  rw [Expr.meets]
  intro p object method heq
  exact h ⟨p, object, method, heq⟩

/-- Without bounds there is nothing to meet. -/
theorem meetsOfBounds_eq_nil {params : List Param} (h : params.all (·.bound.isNone) = true) :
    meetsOfBounds params = [] :=
  eq_nil_of_boundless (by rw [meetsOfBounds]) (fun _ _ _ => by rw [meetsOfBounds]) h

namespace Scoping

variable {x : String} {ms more : List Meeting} {seen bound : List String}

/-! ## Names that are met -/

@[simp] theorem meets_nil : ¬ Meets x [] := by simp [Meets]

@[simp] theorem meets_append : Meets x (ms ++ more) ↔ Meets x ms ∨ Meets x more := by
  simp only [Meets, List.mem_append, exists_or]

@[simp] theorem meets_without : Meets x (without bound ms) ↔ x ∉ bound ∧ Meets x ms := by
  simp [Meets, without, and_comm]

@[simp] theorem name_mem_without {lost : Bool} :
    .name x lost ∈ without bound ms ↔ x ∉ bound ∧ .name x lost ∈ ms := by
  simp [without, and_comm]

@[simp] theorem infer_mem_without : .infer x ∈ without bound ms ↔ .infer x ∈ ms := by
  simp [without]

@[simp] theorem infer_notMem_settled : .infer x ∉ settled seen ms := by
  induction ms generalizing seen with
  | nil => simp [settled]
  | cons m ms ih =>
    cases m with
    | name text lost => simp [settled, ih]
    | infer text => exact ih

theorem meets_cons_name {text : String} {lost : Bool} :
    Meets x (.name text lost :: ms) ↔ x = text ∨ Meets x ms := by
  simp [Meets, exists_or]

theorem meets_cons_infer {text : String} :
    Meets x (.infer text :: ms) ↔ Meets x ms := by simp [Meets]

@[simp] theorem meets_settled : Meets x (settled seen ms) ↔ Meets x ms := by
  induction ms generalizing seen with
  | nil => rfl
  | cons m ms ih =>
    cases m with
    | name text lost => rw [settled, meets_cons_name, meets_cons_name, ih]
    | infer text => rw [settled, meets_cons_infer, ih]

/-- Variables in front of all lose the identifiers of their names. -/
theorem lost_mem_settled_iff (seen : List String) :
    .name x true ∈ settled seen ms ↔ .name x true ∈ settled [] ms ∨ x ∈ seen ∧ Meets x ms := by
  induction ms generalizing seen with
  | nil => simp [settled]
  | cons m ms ih =>
    cases m with
    | name text lost =>
      rw [settled, settled, List.mem_cons, List.mem_cons, ih seen, meets_cons_name]
      grind
    | infer text =>
      rw [settled, settled, ih (text :: seen), ih [text], meets_cons_infer, List.mem_cons,
        List.mem_singleton]
      grind

/-- An identifier is lost behind a variable of its name. -/
theorem lost_mem_settled_append :
    .name x true ∈ settled [] (ms ++ more) ↔
      .name x true ∈ settled [] ms ∨ .name x true ∈ settled [] more ∨
        .infer x ∈ ms ∧ Meets x more := by
  induction ms with
  | nil => simp [settled]
  | cons m ms ih =>
    cases m with
    | name text lost => simp [settled, ih, or_assoc]
    | infer text =>
      rw [List.cons_append, settled, settled, lost_mem_settled_iff [text], ih,
        lost_mem_settled_iff [text], meets_append,
        List.mem_singleton, List.mem_cons, Meeting.infer.injEq]
      grind

/-- What is lost stays lost. -/
theorem lost_mem_settled_of_mem (h : .name x true ∈ ms) : .name x true ∈ settled [] ms := by
  induction ms with
  | nil => cases h
  | cons m ms ih =>
    cases m with
    | name text lost =>
      rcases List.mem_cons.1 h with heq | h
      · cases heq
        exact List.mem_cons_self
      · exact List.mem_cons_of_mem _ (ih h)
    | infer text =>
      rw [settled, lost_mem_settled_iff [text]]
      exact .inl (ih (by simpa using h))

/-! ## Names that are not lost -/

variable {mode : Option PatternMode} {before : List Meeting}

/-- Whether `x` is among the variables that are bound where `ms` was met: only the binding reading of
a pattern binds its variables. -/
def HasBound (mode : Option PatternMode) (x : String) (ms : List Meeting) : Prop :=
  mode = some .binding ∧ .infer x ∈ ms

/-- The name `x` is not lost in a reading of what is met. -/
def Clear (mode : Option PatternMode) (x : String) (ms : List Meeting) : Prop :=
  .name x true ∉ if mode = some .binding then settled [] ms else ms

@[simp] theorem hasBound_append :
    HasBound mode x (ms ++ more) ↔ HasBound mode x ms ∨ HasBound mode x more := by
  simp [HasBound, and_or_left]

theorem clear_binding : Clear (some .binding) x ms ↔ .name x true ∉ settled [] ms := by simp [Clear]

theorem clear_of_ne (h : mode ≠ some .binding) :
    Clear mode x ms ↔ .name x true ∉ ms := by simp [Clear, h]

theorem Clear.left (h : Clear mode x (ms ++ more)) : Clear mode x ms := by
  by_cases hmode : mode = some .binding
  · subst hmode
    rw [clear_binding, lost_mem_settled_append, not_or] at h
    exact clear_binding.2 h.1
  · rw [clear_of_ne hmode, List.mem_append, not_or] at h
    exact (clear_of_ne hmode).2 h.1

/-- What is not lost was not lost before, and no variable of that name is in front of it. -/
theorem Clear.not_lost (h : Clear mode x (before ++ ms)) : .name x true ∉ ms := by
  by_cases hmode : mode = some .binding
  · subst hmode
    rw [clear_binding, lost_mem_settled_append, not_or, not_or] at h
    exact fun hmem => h.2.1 (lost_mem_settled_of_mem hmem)
  · rw [clear_of_ne hmode, List.mem_append, not_or] at h
    exact h.2

theorem Clear.not_hasBound (h : Clear mode x (before ++ ms)) (hmeets : Meets x ms) :
    ¬ HasBound mode x before := by
  rintro ⟨rfl, hinfer⟩
  rw [clear_binding, lost_mem_settled_append, not_or, not_or] at h
  exact h.2.2 ⟨hinfer, hmeets⟩

/-- Binders of other names lose nothing. -/
theorem lost_mem_settled_without (hx : x ∉ bound) :
    .name x true ∈ settled [] (without bound ms) ↔ .name x true ∈ settled [] ms := by
  induction ms with
  | nil => rfl
  | cons m ms ih =>
    cases m with
    | name text lost =>
      by_cases htext : text ∈ bound
      · have hdrop : without bound (.name text lost :: ms) = without bound ms := by
          simp [without, htext]
        have hne : x ≠ text := fun heq => hx (heq ▸ htext)
        rw [hdrop, ih, settled, List.mem_cons]
        simp [hne]
      · have hkeep : without bound (.name text lost :: ms) = .name text lost :: without bound ms := by
          simp [without, htext]
        rw [hkeep, settled, settled, List.mem_cons, List.mem_cons, ih]
    | infer text =>
      have hkeep : without bound (.infer text :: ms) = .infer text :: without bound ms := by
        simp [without]
      rw [hkeep, settled, settled, lost_mem_settled_iff [text], lost_mem_settled_iff [text], ih,
        meets_without,
        and_iff_right hx]

theorem Clear.of_without (hx : x ∉ bound) (h : Clear mode x (before ++ without bound ms)) :
    Clear mode x (before ++ ms) := by
  by_cases hmode : mode = some .binding
  · subst hmode
    rw [clear_binding, lost_mem_settled_append, lost_mem_settled_without hx, meets_without,
      and_iff_right hx] at h
    rwa [clear_binding, lost_mem_settled_append]
  · rw [clear_of_ne hmode, List.mem_append, name_mem_without, and_iff_right hx] at h
    rwa [clear_of_ne hmode, List.mem_append]

end Scoping

/-! ## Variables that are met -/

section

attribute [local simp] Expr.patternVars patternVarsOfExprs patternVarsOfStmts patternVarsOfParts
  patternVarsOfProperties

variable {x : String}

mutual

/-- The variables that are met in a pattern are those that it binds. -/
theorem infer_mem_meets : ∀ e : Expr, .infer x ∈ e.meets ↔ x ∈ e.patternVars
  | .assignment _ target value => by
    simp [infer_mem_meets target, infer_mem_meets value]
  | .binary _ _ lhs rhs | .logical _ _ lhs rhs => by
    simp [infer_mem_meets lhs, infer_mem_meets rhs]
  | .unary _ _ operand => by simp [infer_mem_meets operand]
  | .conditional _ test consequent alternate => by
    simp [infer_mem_meets test, infer_mem_meets consequent,
      infer_mem_meets alternate]
  | .call pos callee args => by
    have hcallee := infer_mem_meets callee
    by_cases h : ∃ p object method, callee = .field p object method
    · obtain ⟨p, object, method, rfl⟩ := h
      rw [Expr.meets, Expr.patternVars] at hcallee
      simp [hcallee, infer_mem_meetsOfExprs args]
    · simp [Expr.meets_call _ _ h, Expr.patternVars_call _ _ h, hcallee, infer_mem_meetsOfExprs args]
  | .field _ object _ => by simp [infer_mem_meets object]
  | .index _ object key => by
    simp [infer_mem_meets object, infer_mem_meets key]
  | .lambda .. => by simp
  | .block _ body => by simp [infer_mem_meetsOfStmts body]
  | .matching _ scrutinee arms => by
    simp [infer_mem_meets scrutinee, infer_notMem_meetsOfArms arms]
  | .template _ parts => by simp [infer_mem_meetsOfParts parts]
  | .object _ properties => by simp [infer_mem_meetsOfProperties properties]
  | .mapped _ key union none _ value => by
    simp [infer_mem_meets union, infer_mem_meets value]
  | .mapped _ key union (some renamed) _ value => by
    simp [infer_mem_meets union, infer_mem_meets renamed, infer_mem_meets value]
  | .tuple _ elements => by simp [infer_mem_meetsOfExprs elements]
  | .infer _ name none => by simp
  | .infer _ name (some bound) => by simp [infer_mem_meets bound]
  | .ident .. | .number .. | .string .. | .numberType _ | .stringType _ => by
    simp

theorem infer_mem_meetsOfExprs :
    ∀ es : List Expr, .infer x ∈ meetsOfExprs es ↔ x ∈ patternVarsOfExprs es
  | [] => by simp
  | e :: es => by simp [infer_mem_meets e, infer_mem_meetsOfExprs es]

theorem infer_mem_meetsOfStmts :
    ∀ ss : List Stmt, .infer x ∈ meetsOfStmts ss ↔ x ∈ patternVarsOfStmts ss
  | [] => by simp
  | .letDecl _ _ value :: ss => by
    simp [infer_mem_meets value, infer_mem_meetsOfStmts ss]
  | .assertEqual _ left right :: ss => by
    simp [infer_mem_meets left, infer_mem_meets right,
      infer_mem_meetsOfStmts ss]
  | .expr _ value :: ss => by
    simp [infer_mem_meets value, infer_mem_meetsOfStmts ss]

theorem infer_notMem_meetsOfArms : ∀ as : List Arm, .infer x ∉ meetsOfArms as
  | [] => by simp
  | .mk _ pattern result :: as => by simp [infer_notMem_meetsOfArms as]

theorem infer_mem_meetsOfParts :
    ∀ ps : List Part, .infer x ∈ meetsOfParts ps ↔ x ∈ patternVarsOfParts ps
  | [] => by simp
  | .text _ :: ps => by simp [infer_mem_meetsOfParts ps]
  | .expr value :: ps => by
    simp [infer_mem_meets value, infer_mem_meetsOfParts ps]

theorem infer_mem_meetsOfProperties :
    ∀ ps : List Property, .infer x ∈ meetsOfProperties ps ↔ x ∈ patternVarsOfProperties ps
  | [] => by simp
  | .named _ _ _ value :: ps => by
    simp [infer_mem_meets value, infer_mem_meetsOfProperties ps]
  | .computed _ key _ value :: ps => by
    simp [infer_mem_meets key, infer_mem_meets value,
      infer_mem_meetsOfProperties ps]

end

end

end TypeForge
