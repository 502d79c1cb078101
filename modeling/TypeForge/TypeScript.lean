import TypeForge.Combinator

/-!
# Target code

The part of TypeScript's type language that is generated, as trees.  Names keep track
of where they come from, so that a name written by the user and a generated one are
different even if they are spelled alike.
-/

namespace TypeForge.TypeScript

/-- Names of types, by their origin. -/
inductive Name where
  /-- A name from the source. -/
  | user (text : String)
  /-- A generated name for a value that is used more than once, or not at all. -/
  | temp (id : Nat)
  /-- The interface of a lifted lambda. -/
  | lambda (id : Nat)
  /-- The interface of a lifted match arm. -/
  | arm (id : Nat)
deriving DecidableEq

/-- Types with a name of their own. -/
inductive Keyword where
  | any | never | unknown | number | string | true | false
deriving DecidableEq

mutual

/-- Type expressions. -/
inductive Ty where
  | name (name : Name)
  /-- A library symbol, or a member of one. -/
  | symbol (symbol : Symbol) (member : Option String)
  /-- The argument of the enclosing interface with the given number. -/
  | arg (number : Nat)
  /-- An argument of the enclosing interface, annotated with its source name. -/
  | param (number : Nat) (origin : String)
  /-- An entry of the capture tuple, annotated with its source name. -/
  | captured (slot : Nat) (origin : String)
  | number (digits : String)
  | string (text : String)
  | keyword (keyword : Keyword)
  /-- A generic type applied to arguments. -/
  | apply (head : Ty) (args : List Ty)
  | paren (inner : Ty)
  | operation (op : TypeOp) (lhs rhs : Ty)
  | index (object key : Ty)
  /-- A conditional type: `yes` if `check` extends `pattern`, else `no`. -/
  | conditional (check pattern yes no : Ty)
  /-- A name bound in the pattern of a conditional type. -/
  | infer (name : Name) (bound : Option Ty)
  | tuple (elements : List Ty)
  | object (fields : List Field)
  | mapped (key : String) (union : Ty) (renamed : Option Ty) (optional : Bool) (value : Ty)
  | template (parts : List Piece)

/-- Fields of an object type. -/
inductive Field where
  | named (name : String) (optional : Bool) (value : Ty)
  | computed (key : Ty) (optional : Bool) (value : Ty)

/-- Pieces of a template literal type. -/
inductive Piece where
  | text (text : String)
  | ty (value : Ty)

end

namespace Ty

/-- The type without values. -/
def never : Ty := keyword .never

/-- A library symbol. -/
def ofSymbol (symbol : Symbol) : Ty := Ty.symbol symbol none

/-- A library symbol applied to arguments. -/
def applied (symbol : Symbol) (args : List Ty) : Ty := apply (ofSymbol symbol) args

/-- A closure: a lifted interface with the tuple of captured values as first argument. -/
def closure (name : Name) (captured : List Ty) : Ty :=
  applied .applyPart [.name name, .tuple [.tuple captured]]

/-- Binds `name` to `value` while evaluating `body`, and fails unless the value lies in
`bound`. -/
def bind (name : Name) (value : Ty) (bound : Option Ty) (body : Ty) : Ty :=
  conditional value (infer name bound) body never

/-- Binds `name` to exactly `value` while evaluating `body`. -/
def bindExactly (name : Name) (value body : Ty) : Ty :=
  bind name (paren value) (some (paren value)) (paren body)

end Ty

/-- A lifted function: an interface with a result. -/
structure Interface where
  name : Name
  body : Ty

/-- A named type. -/
structure Alias where
  name : Name
  value : Ty

/-- What a top-level item of the source becomes. -/
inductive Declaration where
  | named (isExported : Bool) (type : Alias)
  | group (name : String) (body : List Alias)
  | importOf (symbols : List String) (source : String)

/-- Everything that is generated for a program. -/
structure Module where
  /-- The library symbols that are used, in the order of their first use. -/
  imports : List Symbol
  /-- The lifted functions, each behind those it mentions. -/
  lifted : List Interface
  items : List Declaration

end TypeForge.TypeScript
