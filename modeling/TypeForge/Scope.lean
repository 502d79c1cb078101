/-!
# Scopes

A function that is lifted out of its surroundings takes the values it needs from them
along in a tuple.  A scope tells where a name in its body comes from: an entry of that
tuple, a parameter, or a binder inside the body.  Entries and parameters are found by
their index in the generated code.  An index never changes: rebinding a name only
empties the slot that held it.
-/

namespace TypeForge

/-- The names visible to an expression. -/
structure Scope where
  /-- Names bound inside the expression: block lets and mapped type keys. -/
  locals : List String
  /-- Slots of the capture tuple. -/
  captured : List (Option String)
  /-- Slots of the parameters. -/
  params : List (Option String)
deriving DecidableEq

/-- Where a name comes from. -/
inductive Resolution where
  /-- A slot of the capture tuple. -/
  | captured (slot : Nat)
  /-- A parameter, counted from zero. -/
  | param (slot : Nat)
  | bound
  /-- Nothing in the enclosing declaration binds the name. -/
  | unbound
deriving DecidableEq

namespace Scope

/-- The scope of a top-level expression, which binds nothing. -/
def empty : Scope := ⟨[], [], []⟩

/-- The scope of a lifted body with the given captures and parameters. -/
def closure (captures params : List String) : Scope :=
  ⟨[], captures.map some, params.map some⟩

/-- The slots with every occurrence of a name turned into a hole. -/
def hide (name : String) (slots : List (Option String)) : List (Option String) :=
  slots.map fun slot => if slot = some name then none else slot

/-- Binds a name locally; it hides the captured value or parameter of that name. -/
def bind (scope : Scope) (name : String) : Scope :=
  ⟨scope.locals ++ [name], hide name scope.captured, hide name scope.params⟩

/-- Where a name comes from. -/
def resolve (scope : Scope) (name : String) : Resolution :=
  match scope.captured.findIdx? (· == some name) with
  | some slot => .captured slot
  | none =>
    match scope.params.findIdx? (· == some name) with
    | some slot => .param slot
    | none => if name ∈ scope.locals then .bound else .unbound

/-- The first occurrences of the names of a list, in order. -/
def firsts : List String → List String
  | [] => []
  | name :: names => name :: (firsts names).filter (· != name)

/-- The names that a closure created here captures: the pattern variables, then every name
in scope, each once and without the closure's own parameters. -/
def captures (scope : Scope) (patternVars own : List String) : List String :=
  (firsts (patternVars ++ scope.locals ++ scope.captured.filterMap id
    ++ scope.params.filterMap id)).filter fun name => !own.contains name

end Scope

end TypeForge
