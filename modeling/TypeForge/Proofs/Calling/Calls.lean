import TypeForge.Generate.Program
import TypeForge.Proofs.Hygiene.Known

/-!
# Calls of the source language

A call with at least one argument applies its callee to all of its parameters, or to some of
them.  Which it is can be told without evaluating the callee if that is a lambda, or the name of
a definition that declares parameters and is not hidden where the call stands.

The calls of a program are listed in the order in which their first arguments are reached, each
with what stands around its callee.  The arguments of a call come before its callee.  The pattern
of an arm is gone through twice, and its variables bind names the second time only.
-/

namespace TypeForge

namespace Calling

/-- The names that matter where an expression stands. -/
structure Surroundings where
  /-- The names that enclosing constructs bind, the innermost first. -/
  binders : List String
  /-- The lets of the enclosing section. -/
  lets : List String
  /-- The variables of enclosing patterns that were met before, in the order of their meeting. -/
  met : List String
  /-- Whether the variables of a pattern bind names here. -/
  inBinder : Bool
deriving DecidableEq

namespace Surroundings

/-- What stands around an item with the given lets. -/
def outermost (lets : List String) : Surroundings := ⟨[], lets, [], false⟩

/-- The same place inside of a construct that binds names. -/
def bind (around : Surroundings) (names : List String) : Surroundings :=
  { around with binders := names ++ around.binders }

/-- The same place behind a pattern with the given variables. -/
def behind (around : Surroundings) (vars : List String) : Surroundings :=
  { around with met := around.met ++ if around.inBinder then vars else [] }

@[simp] theorem behind_nil (around : Surroundings) : around.behind [] = around := by
  simp [behind]

/-- The same place in a pattern whose variables bind names or not. -/
def reading (around : Surroundings) (inBinder : Bool) : Surroundings :=
  { around with inBinder := inBinder }

/-- The names that do not stand for definitions. -/
def bound (around : Surroundings) : List String := around.binders ++ around.lets

/-- The names that are known to be bound while code is generated: the lets of a section are not
among them, but the variables of a pattern are as soon as they are met. -/
def known (around : Surroundings) : List String := around.binders ++ around.met

theorem mem_known {around : Surroundings} {name : String} :
    name ∈ around.known ↔ name ∈ around.binders ∨ name ∈ around.met :=
  List.mem_append

theorem mem_bound {around : Surroundings} {name : String} :
    name ∈ around.bound ↔ name ∈ around.binders ∨ name ∈ around.lets :=
  List.mem_append

end Surroundings

/-- A call with what stands around its callee. -/
structure Call where
  around : Surroundings
  callee : Expr
  args : List Expr

/-- Whether the names that are bound and those that are known to be bound agree on the callee. -/
def Call.IsPlain (call : Call) : Prop :=
  ∀ pos name, call.callee = .ident pos name →
    name ∈ call.around.lets ++ call.around.met → name ∈ call.around.binders

end Calling

open Calling

/-! ## The calls of a program -/

mutual

/-- The calls of an expression that have arguments and are not calls of methods. -/
def Expr.calls (around : Surroundings) : Expr → List Call
  | .assignment _ target value | .binary _ _ target value | .logical _ _ target value =>
    target.calls around ++ value.calls (around.behind target.patternVars)
  | .unary _ _ operand => operand.calls around
  | .conditional _ test consequent alternate =>
    test.calls around ++ (consequent.calls (around.behind test.patternVars) ++
      alternate.calls ((around.behind test.patternVars).behind consequent.patternVars))
  | .call _ (.field _ object _) args =>
    object.calls around ++ callsOfExprs (around.behind object.patternVars) args
  | .call _ callee args =>
    let inner := around.behind (patternVarsOfExprs args)
    (if args.isEmpty then [] else [⟨inner, callee, args⟩]) ++
      (callsOfExprs around args ++ callee.calls inner)
  | .field _ object _ => object.calls around
  | .index _ object key => object.calls around ++ key.calls (around.behind object.patternVars)
  | .lambda _ params body =>
    let inner := (around.bind (params.map Param.name)).reading false
    callsOfBounds inner params ++ body.calls inner
  | .block _ body => callsOfStmts around body
  | .matching _ scrutinee arms =>
    scrutinee.calls around ++ callsOfArms (around.behind scrutinee.patternVars) arms
  | .template _ parts => callsOfParts around parts
  | .object _ properties => callsOfProperties around properties
  | .mapped _ key union none _ value =>
    union.calls around ++ value.calls ((around.behind union.patternVars).bind [key])
  | .mapped _ key union (some renamed) _ value =>
    let inner := (around.behind union.patternVars).bind [key]
    union.calls around ++ (renamed.calls inner ++ value.calls (inner.behind renamed.patternVars))
  | .tuple _ elements => callsOfExprs around elements
  | .infer _ _ none => []
  | .infer _ _ (some bound) => bound.calls around
  | .ident .. | .number .. | .string .. | .numberType _ | .stringType _ => []

/-- The calls of a list of expressions. -/
def callsOfExprs (around : Surroundings) : List Expr → List Call
  | [] => []
  | e :: es => e.calls around ++ callsOfExprs (around.behind e.patternVars) es

/-- The calls of the bounds of parameters. -/
def callsOfBounds (around : Surroundings) : List Param → List Call
  | [] => []
  | .mk _ _ none :: ps => callsOfBounds around ps
  | .mk _ _ (some bound) :: ps =>
    bound.calls around ++ callsOfBounds (around.behind bound.patternVars) ps

/-- The calls of the statements of a block, of which a let scopes over those behind it. -/
def callsOfStmts (around : Surroundings) : List Stmt → List Call
  | [] => []
  | .letDecl _ name value :: ss =>
    value.calls around ++ callsOfStmts ((around.behind value.patternVars).bind [name]) ss
  | .assertEqual _ left right :: ss =>
    left.calls around ++ (right.calls (around.behind left.patternVars) ++
      callsOfStmts ((around.behind left.patternVars).behind right.patternVars) ss)
  | .expr _ value :: ss =>
    value.calls around ++ callsOfStmts (around.behind value.patternVars) ss

/-- The calls of the arms of a match. -/
def callsOfArms (around : Surroundings) : List Arm → List Call
  | [] => []
  | .mk _ pattern result :: as =>
    (pattern.calls (around.reading false) ++ (pattern.calls (around.reading true) ++
      result.calls ((around.bind pattern.patternVars).reading false))) ++ callsOfArms around as

/-- The calls of the parts of a template string. -/
def callsOfParts (around : Surroundings) : List Part → List Call
  | [] => []
  | .text _ :: ps => callsOfParts around ps
  | .expr value :: ps => value.calls around ++ callsOfParts (around.behind value.patternVars) ps

/-- The calls of the properties of an object. -/
def callsOfProperties (around : Surroundings) : List Property → List Call
  | [] => []
  | .named _ _ _ value :: ps =>
    value.calls around ++ callsOfProperties (around.behind value.patternVars) ps
  | .computed _ key _ value :: ps =>
    key.calls around ++ (value.calls (around.behind key.patternVars) ++
      callsOfProperties ((around.behind key.patternVars).behind value.patternVars) ps)

end

theorem Expr.calls_call (around : Surroundings) (pos : Position) {callee : Expr} (args : List Expr)
    (h : ¬ ∃ p object method, callee = .field p object method) :
    (Expr.call pos callee args).calls around =
      (if args.isEmpty then [] else [⟨around.behind (patternVarsOfExprs args), callee, args⟩]) ++
        (callsOfExprs around args ++ callee.calls (around.behind (patternVarsOfExprs args))) := by
  rw [Expr.calls]
  intro p object method heq
  exact h ⟨p, object, method, heq⟩

/-- Without bounds there is nothing to call in them. -/
theorem callsOfBounds_eq_nil {params : List Param} (h : params.all (·.bound.isNone) = true)
    (around : Surroundings) : callsOfBounds around params = [] :=
  eq_nil_of_boundless (by rw [callsOfBounds]) (fun _ _ _ => by rw [callsOfBounds]) h

/-- The calls of a statement of a section. -/
def Stmt.calls (around : Surroundings) : Stmt → List Call
  | letDecl _ _ value | expr _ value => value.calls around
  | assertEqual _ left right => left.calls around ++ right.calls around

/-- The calls of a definition, whose parameters scope over their bounds and its body. -/
def Definition.calls (d : Definition) : List Call :=
  let inner := (Surroundings.outermost []).bind (d.params.map Param.name)
  callsOfBounds inner d.params ++ d.body.calls inner

/-- The calls of a top-level item. -/
def TopLevel.calls : TopLevel → List Call
  | definition d => d.calls
  | sectionOf s => s.body.flatMap (Stmt.calls (.outermost (s.body.filterMap Stmt.letName?)))
  | importOf _ => []

/-- The calls of a program. -/
def Program.calls (program : Program) : List Call := program.body.flatMap TopLevel.calls

/-! ## Declared parameters -/

/-- The definition that an item is. -/
def TopLevel.definition? : TopLevel → Option Definition
  | definition d => some d
  | _ => none

namespace Program

/-- The definitions of a program. -/
def definitions (program : Program) : List Definition := program.body.filterMap TopLevel.definition?

/-- The number of parameters that the definition of the given name declares. -/
def arityOf (program : Program) (name : String) : Option Nat :=
  (program.definitions.find? (·.name == name)).bind Definition.arity?

/-- The number of parameters that is declared for a callee, where the names `bound` do not stand
for definitions. -/
def declared (program : Program) (bound : List String) : Expr → Option Nat
  | .ident _ name => if name ∈ bound then none else program.arityOf name
  | .lambda _ params _ => some params.length
  | _ => none

end Program

/-- Looking up a definition by its name from the end finds the same one as from the start if the
names are different. -/
theorem findSome?_reverse_arityOf? (name : String) {items : List TopLevel}
    (h : ((items.filterMap TopLevel.definition?).map Definition.name).Nodup) :
    items.reverse.findSome? (TopLevel.arityOf? name) =
      ((items.filterMap TopLevel.definition?).find? (·.name == name)).bind Definition.arity? := by
  induction items with
  | nil => rfl
  | cons item items ih =>
    rw [List.reverse_cons, List.findSome?_append]
    cases item with
    | definition d =>
      have hcons : (TopLevel.definition d :: items).filterMap TopLevel.definition? =
          d :: items.filterMap TopLevel.definition? := rfl
      rw [hcons, List.map_cons, List.nodup_cons] at h
      rw [hcons, ih h.2]
      by_cases hname : d.name = name
      · -- No other definition has this name, so that the rest is out of the question.
        have hrest : (items.filterMap TopLevel.definition?).find? (·.name == name) = none := by
          rw [List.find?_eq_none]
          intro d' hd'
          have hne : d'.name ≠ d.name := fun heq => h.1 (heq ▸ List.mem_map_of_mem hd')
          simpa [hname] using hne
        rw [hrest, List.find?_cons_of_pos (by simpa using hname)]
        simp [hname, TopLevel.arityOf?]
      · rw [List.find?_cons_of_neg (by simpa using hname)]
        simp [hname, TopLevel.arityOf?]
    | sectionOf | importOf =>
      rw [List.filterMap_cons_none rfl] at h ⊢
      simp [ih h, TopLevel.arityOf?]

theorem Program.arity_eq_arityOf {program : Program}
    (h : (program.definitions.map Definition.name).Nodup) : program.arity = program.arityOf :=
  funext fun name => findSome?_reverse_arityOf? name h

/-- The two sets of names agree on the callee of a plain call. -/
theorem Calling.Call.IsPlain.declared_eq {program : Program} {call : Call} (h : call.IsPlain) :
    program.declared call.around.known call.callee =
      program.declared call.around.bound call.callee := by
  unfold Program.declared
  split
  · next pos name hcallee =>
    have hplain := h pos name hcallee
    rw [List.mem_append] at hplain
    have hiff : name ∈ call.around.known ↔ name ∈ call.around.bound := by
      rw [Surroundings.mem_known, Surroundings.mem_bound]
      constructor
      · rintro (hmem | hmem)
        · exact .inl hmem
        · exact .inl (hplain (.inr hmem))
      · rintro (hmem | hmem)
        · exact .inl hmem
        · exact .inl (hplain (.inl hmem))
    simp only [hiff]
  · rfl
  · rfl

end TypeForge
