import TypeForge.Scope
import TypeForge.TypeScript

/-!
# The state of code generation

While target code is generated, fresh ids are handed out, library symbols are noted
for import and lifted functions are collected; and inside a match arm the names its
pattern has bound so far are known.
-/

namespace TypeForge

open TypeScript

/-- The most variables that one pattern may bind. -/
def maxPatternVars : Nat := 4

/-- Why a program cannot be compiled. -/
inductive GenError where
  | unsupportedMethod (name : String)
  | tooManyPatternVars
  | inferOutsidePattern
  | assignmentUnsupported
  | statementBeforeBlockEnd
  | blockWithoutResult
  | assertionOutsideSection
deriving DecidableEq

/-- The text of an error. -/
def GenError.message : GenError → String
  | unsupportedMethod name => "unsupported method `" ++ name ++ "`"
  | tooManyPatternVars =>
    "too many pattern variables in one match arm (at most " ++ toString maxPatternVars ++ ")"
  | inferOutsidePattern => "`infer` is only allowed in match patterns"
  | assignmentUnsupported => "assignments can't be compiled"
  | statementBeforeBlockEnd => "only `let` declarations may come before the end of a block"
  | blockWithoutResult => "a block must end with an expression"
  | assertionOutsideSection => "`AssertEqual` is only allowed in sections"

/-- What code generation has come up with so far. -/
structure GenState where
  /-- The next fresh id. -/
  nextId : Nat
  /-- The library symbols that are used, in the order of their first use. -/
  imports : List Symbol
  /-- The lifted functions. -/
  lifted : List Interface
  /-- The names bound by the enclosing pattern. -/
  patternVars : List String

/-- The state before anything is generated. -/
def GenState.initial : GenState := ⟨1, [], [], []⟩

/-- Computations that generate code and may fail. -/
abbrev Gen := ExceptT (Located GenError) (StateM GenState)

namespace Gen

variable {α : Type}

/-- Fails at the given position. -/
def fail (pos : Position) (error : GenError) : Gen α := throw ⟨pos, error⟩

/-- An id that was not handed out before. -/
def freshId : Gen Nat := do
  let s ← get
  set { s with nextId := s.nextId + 1 }
  return s.nextId

/-- Fresh ids, one for each item of a list. -/
def freshIds {β : Type} : List β → Gen (List Nat)
  | [] => return []
  | _ :: bs => do
    let id ← freshId
    return id :: (← freshIds bs)

/-- Notes that a library symbol is used. -/
def require (symbol : Symbol) : Gen Unit :=
  modify fun s =>
    { s with imports := if symbol ∈ s.imports then s.imports else s.imports ++ [symbol] }

/-- Adds a lifted function. -/
def addLifted (name : Name) (body : Ty) : Gen Unit :=
  modify fun s => { s with lifted := s.lifted ++ [⟨name, body⟩] }

/-- The names bound by the enclosing pattern. -/
def patternVars : Gen (List String) := return (← get).patternVars

/-- Runs `m` with the given pattern variables and restores the current ones behind it, also
when it fails. -/
def withPatternVars (vars : List String) (m : Gen α) : Gen α := ExceptT.mk do
  let saved := (← get).patternVars
  modify fun s => { s with patternVars := vars }
  let result ← m.run
  modify fun s => { s with patternVars := saved }
  return result

end Gen

/-- Which reading of a match pattern is being generated. -/
inductive PatternMode where
  /-- The shape that a value has to have: a pattern variable is its bound. -/
  | shape
  /-- The pattern of the lifted arm: a pattern variable binds a name. -/
  | binding
deriving DecidableEq

/-- What is known about the place an expression stands at. -/
structure Context where
  scope : Scope
  /-- The reading of the pattern the expression belongs to, if it belongs to one. -/
  mode : Option PatternMode
  /-- The number of parameters of each top-level function. -/
  arity : String → Option Nat

namespace Context

/-- The same place behind a local binder. -/
def bind (ctx : Context) (name : String) : Context :=
  { ctx with scope := ctx.scope.bind name }

/-- The body of a function lifted from this place. -/
def inside (ctx : Context) (captures own : List String) (mode : Option PatternMode) : Context :=
  { ctx with scope := Scope.closure captures own, mode := mode }

/-- The same place in a reading of a pattern. -/
def reading (ctx : Context) (mode : PatternMode) : Context := { ctx with mode := some mode }

end Context

end TypeForge
