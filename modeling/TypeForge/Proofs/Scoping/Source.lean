import TypeForge.Ast

/-!
# Lexical scopes of the source language

Which binder an identifier of the source stands for.  A construct that binds names puts a
frame around the part of the program it scopes over, and an identifier stands for the
innermost frame that has its name, or for the global name if there is none.  A binder is
identified by the number of frames around its own, which tells it from every other binder
that encloses the same place.

* The parameters of a lambda or a definition scope over their bounds and the body; of equal
  names the first counts.
* A let scopes over the statements behind it.
* The key of a mapped type scopes over its renaming and its value, not over its union.
* The variables of a pattern scope over the result of its arm.
-/

namespace TypeForge.Scoping

/-- The names that one construct binds. -/
inductive Frame where
  /-- The parameters of a lambda or a definition. -/
  | params (names : List String)
  /-- A let, the key of a mapped type, or the variables of a pattern. -/
  | locals (names : List String)
deriving DecidableEq

/-- A binder within its frame. -/
inductive Slot where
  /-- A parameter, counted from zero. -/
  | param (index : Nat)
  | local (name : String)
deriving DecidableEq

/-- What a name can stand for. -/
inductive Referent where
  /-- A binder of the source whose frame has `depth` frames around it. -/
  | binder (depth : Nat) (slot : Slot)
  /-- A name that code generation has made up. -/
  | generated
  /-- A name that no enclosing construct binds. -/
  | global (name : String)
deriving DecidableEq

/-- The binder of a name in a frame. -/
def Frame.slot? : Frame → String → Option Slot
  | params names, name => (names.findIdx? (· == name)).map .param
  | locals names, name => if name ∈ names then some (.local name) else none

/-- What a name stands for inside of frames, the innermost first. -/
def referent : List Frame → String → Referent
  | [], name => .global name
  | frame :: frames, name =>
    match frame.slot? name with
    | some slot => .binder frames.length slot
    | none => referent frames name

/-- An identifier and the frames around it, the innermost first. -/
structure Use where
  frames : List Frame
  name : String
deriving DecidableEq

end Scoping

open Scoping

/-! ## Variables of patterns -/

mutual

/-- The variables that a pattern binds, in the order in which they are met.  A lambda or an
arm of a match inside of a pattern keeps its variables to itself. -/
def Expr.patternVars : Expr → List String
  | .assignment _ target value => target.patternVars ++ value.patternVars
  | .binary _ _ lhs rhs | .logical _ _ lhs rhs => lhs.patternVars ++ rhs.patternVars
  | .unary _ _ operand => operand.patternVars
  | .conditional _ test consequent alternate =>
    test.patternVars ++ (consequent.patternVars ++ alternate.patternVars)
  | .call _ (.field _ object _) args => object.patternVars ++ patternVarsOfExprs args
  | .call _ callee args => patternVarsOfExprs args ++ callee.patternVars
  | .field _ object _ => object.patternVars
  | .index _ object key => object.patternVars ++ key.patternVars
  | .lambda .. => []
  | .block _ body => patternVarsOfStmts body
  | .matching _ scrutinee _ => scrutinee.patternVars
  | .template _ parts => patternVarsOfParts parts
  | .object _ properties => patternVarsOfProperties properties
  | .mapped _ _ union none _ value => union.patternVars ++ value.patternVars
  | .mapped _ _ union (some renamed) _ value =>
    union.patternVars ++ (renamed.patternVars ++ value.patternVars)
  | .tuple _ elements => patternVarsOfExprs elements
  | .infer _ name none => [name]
  | .infer _ name (some bound) => bound.patternVars ++ [name]
  | .ident .. | .number .. | .string .. | .numberType _ | .stringType _ => []

/-- The variables that a list of patterns binds. -/
def patternVarsOfExprs : List Expr → List String
  | [] => []
  | e :: es => e.patternVars ++ patternVarsOfExprs es

/-- The variables that the statements of a pattern bind. -/
def patternVarsOfStmts : List Stmt → List String
  | [] => []
  | .letDecl _ _ value :: ss => value.patternVars ++ patternVarsOfStmts ss
  | .assertEqual _ left right :: ss =>
    left.patternVars ++ (right.patternVars ++ patternVarsOfStmts ss)
  | .expr _ value :: ss => value.patternVars ++ patternVarsOfStmts ss

/-- The variables that the parts of a template string bind. -/
def patternVarsOfParts : List Part → List String
  | [] => []
  | .text _ :: ps => patternVarsOfParts ps
  | .expr value :: ps => value.patternVars ++ patternVarsOfParts ps

/-- The variables that the properties of an object bind. -/
def patternVarsOfProperties : List Property → List String
  | [] => []
  | .named _ _ _ value :: ps => value.patternVars ++ patternVarsOfProperties ps
  | .computed _ key _ value :: ps =>
    key.patternVars ++ (value.patternVars ++ patternVarsOfProperties ps)

end

theorem Expr.patternVars_call (pos : Position) {callee : Expr} (args : List Expr)
    (h : ¬ ∃ p object method, callee = .field p object method) :
    (Expr.call pos callee args).patternVars = patternVarsOfExprs args ++ callee.patternVars := by
  rw [Expr.patternVars]
  intro p object method heq
  exact h ⟨p, object, method, heq⟩

/-! ## Uses of names -/

mutual

/-- The identifiers of an expression with the given frames around it, patterns left out. -/
def Expr.uses (frames : List Frame) : Expr → List Use
  | .assignment _ target value => target.uses frames ++ value.uses frames
  | .binary _ _ lhs rhs | .logical _ _ lhs rhs => lhs.uses frames ++ rhs.uses frames
  | .unary _ _ operand => operand.uses frames
  | .conditional _ test consequent alternate =>
    test.uses frames ++ (consequent.uses frames ++ alternate.uses frames)
  | .call _ callee args => callee.uses frames ++ usesOfExprs frames args
  | .field _ object _ => object.uses frames
  | .index _ object key => object.uses frames ++ key.uses frames
  | .lambda _ params body =>
    usesOfBounds (.params (params.map Param.name) :: frames) params
      ++ body.uses (.params (params.map Param.name) :: frames)
  | .block _ body => usesOfStmts frames body
  | .matching _ scrutinee arms => scrutinee.uses frames ++ usesOfArms frames arms
  | .template _ parts => usesOfParts frames parts
  | .object _ properties => usesOfProperties frames properties
  | .mapped _ key union none _ value =>
    union.uses frames ++ value.uses (.locals [key] :: frames)
  | .mapped _ key union (some renamed) _ value =>
    union.uses frames
      ++ (renamed.uses (.locals [key] :: frames) ++ value.uses (.locals [key] :: frames))
  | .tuple _ elements => usesOfExprs frames elements
  | .infer _ _ none => []
  | .infer _ _ (some bound) => bound.uses frames
  | .ident _ name => [⟨frames, name⟩]
  | .number .. | .string .. | .numberType _ | .stringType _ => []

/-- The identifiers of a list of expressions. -/
def usesOfExprs (frames : List Frame) : List Expr → List Use
  | [] => []
  | e :: es => e.uses frames ++ usesOfExprs frames es

/-- The identifiers of the bounds of parameters. -/
def usesOfBounds (frames : List Frame) : List Param → List Use
  | [] => []
  | .mk _ _ none :: ps => usesOfBounds frames ps
  | .mk _ _ (some bound) :: ps => bound.uses frames ++ usesOfBounds frames ps

/-- The identifiers of statements, of which a let scopes over those behind it. -/
def usesOfStmts (frames : List Frame) : List Stmt → List Use
  | [] => []
  | .letDecl _ name value :: ss =>
    value.uses frames ++ usesOfStmts (.locals [name] :: frames) ss
  | .assertEqual _ left right :: ss =>
    left.uses frames ++ (right.uses frames ++ usesOfStmts frames ss)
  | .expr _ value :: ss => value.uses frames ++ usesOfStmts frames ss

/-- The identifiers of the results of arms. -/
def usesOfArms (frames : List Frame) : List Arm → List Use
  | [] => []
  | .mk _ pattern result :: as =>
    result.uses (.locals pattern.patternVars :: frames) ++ usesOfArms frames as

/-- The identifiers of the parts of a template string. -/
def usesOfParts (frames : List Frame) : List Part → List Use
  | [] => []
  | .text _ :: ps => usesOfParts frames ps
  | .expr value :: ps => value.uses frames ++ usesOfParts frames ps

/-- The identifiers of the properties of an object. -/
def usesOfProperties (frames : List Frame) : List Property → List Use
  | [] => []
  | .named _ _ _ value :: ps => value.uses frames ++ usesOfProperties frames ps
  | .computed _ key _ value :: ps =>
    key.uses frames ++ (value.uses frames ++ usesOfProperties frames ps)

end

/-- What is gathered from bounds is nothing without them. -/
theorem eq_nil_of_boundless {α : Type} {gathered : List Param → List α} (hnil : gathered [] = [])
    (hnone : ∀ pos name ps, gathered (.mk pos name none :: ps) = gathered ps) {params : List Param}
    (h : params.all (·.bound.isNone) = true) : gathered params = [] := by
  induction params with
  | nil => exact hnil
  | cons p ps ih =>
    rw [List.all_cons, Bool.and_eq_true] at h
    obtain ⟨pos, name, bound⟩ := p
    cases bound with
    | none => rw [hnone, ih h.2]
    | some bound => exact absurd h.1 Bool.false_ne_true

/-- Without bounds there is nothing to use names in. -/
theorem usesOfBounds_eq_nil {params : List Param} (h : params.all (·.bound.isNone) = true)
    (frames : List Frame) : usesOfBounds frames params = [] :=
  eq_nil_of_boundless (by rw [usesOfBounds]) (fun _ _ _ => by rw [usesOfBounds]) h

/-- The identifiers of a definition outside of patterns. -/
def Definition.uses (d : Definition) : List Use :=
  if d.params.isEmpty then d.body.uses []
  else
    usesOfBounds [.params (d.params.map Param.name)] d.params
      ++ d.body.uses [.params (d.params.map Param.name)]

end TypeForge
