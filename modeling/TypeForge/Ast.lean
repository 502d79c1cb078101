import TypeForge.Position

/-!
# Syntax trees

Programs of the source language as trees.  Every node carries the position of its
first token; an operator, a call or a member access starts where its left operand
starts.  Parentheses leave no node.
-/

namespace TypeForge

/-- Operators whose operands are types: arithmetic, comparison, equality, and the two
that the target language has itself. -/
inductive BinaryOp where
  | add | sub | mul | div | pow | mod | lt | le | gt | ge | eq | notEq | union | intersection
deriving DecidableEq

/-- Operators between truth values. -/
inductive LogicalOp where
  | and | or
deriving DecidableEq

/-- Operators in front of their operand. -/
inductive UnaryOp where
  | negate | plus | not
deriving DecidableEq

/-- The name of an operator in outlines. -/
def BinaryOp.name : BinaryOp → String
  | add => "Add" | sub => "Sub" | mul => "Mul" | div => "Div" | pow => "Pow" | mod => "Mod"
  | lt => "Lt" | le => "Le" | gt => "Gt" | ge => "Ge" | eq => "Eq" | notEq => "NotEq"
  | union => "Union" | intersection => "Intersection"

/-- The name of an operator in outlines. -/
def LogicalOp.name : LogicalOp → String
  | and => "And" | or => "Or"

/-- The name of an operator in outlines. -/
def UnaryOp.name : UnaryOp → String
  | negate => "Negate" | plus => "Plus" | not => "Not"

mutual

/-- Expressions. -/
inductive Expr where
  | assignment (pos : Position) (target value : Expr)
  | binary (pos : Position) (op : BinaryOp) (lhs rhs : Expr)
  | logical (pos : Position) (op : LogicalOp) (lhs rhs : Expr)
  | unary (pos : Position) (op : UnaryOp) (operand : Expr)
  | conditional (pos : Position) (test consequent alternate : Expr)
  | call (pos : Position) (callee : Expr) (args : List Expr)
  /-- A member by its name, `object.name`. -/
  | field (pos : Position) (object : Expr) (name : String)
  /-- A member by a computed key, `object[key]`. -/
  | index (pos : Position) (object key : Expr)
  | lambda (pos : Position) (params : List Param) (body : Expr)
  | block (pos : Position) (body : List Stmt)
  | matching (pos : Position) (scrutinee : Expr) (arms : List Arm)
  | template (pos : Position) (parts : List Part)
  | object (pos : Position) (properties : List Property)
  /-- An object type with one property per member of a union. -/
  | mapped (pos : Position) (key : String) (union : Expr) (renamed : Option Expr)
      (optional : Bool) (value : Expr)
  | tuple (pos : Position) (elements : List Expr)
  /-- A pattern variable. -/
  | infer (pos : Position) (name : String) (bound : Option Expr)
  | ident (pos : Position) (name : String)
  | number (pos : Position) (digits : String)
  | string (pos : Position) (text : String)
  /-- The type of all numbers. -/
  | numberType (pos : Position)
  /-- The type of all strings. -/
  | stringType (pos : Position)

/-- Parameters of functions. -/
inductive Param where
  | mk (pos : Position) (name : String) (bound : Option Expr)

/-- Statements of blocks and sections. -/
inductive Stmt where
  | letDecl (pos : Position) (name : String) (value : Expr)
  | assertEqual (pos : Position) (left right : Expr)
  | expr (pos : Position) (value : Expr)

/-- Arms of a match. -/
inductive Arm where
  | mk (pos : Position) (pattern result : Expr)

/-- Parts of a template string. -/
inductive Part where
  | text (text : String)
  | expr (value : Expr)

/-- Properties of an object. -/
inductive Property where
  | named (pos : Position) (name : String) (optional : Bool) (value : Expr)
  | computed (pos : Position) (key : Expr) (optional : Bool) (value : Expr)

end

namespace Expr

/-- Where an expression starts. -/
def pos : Expr → Position
  | assignment p .. | binary p .. | logical p .. | unary p .. | conditional p .. | call p ..
  | field p .. | index p .. | lambda p .. | block p .. | matching p .. | template p ..
  | object p .. | mapped p .. | tuple p .. | infer p .. | ident p .. | number p ..
  | string p .. | numberType p | stringType p => p

/-- Whether an expression names a place that a value could be assigned to. -/
def isTarget : Expr → Bool
  | ident .. | field .. | index .. => true
  | _ => false

end Expr

namespace Param

/-- The name of a parameter. -/
def name : Param → String
  | mk _ name _ => name

/-- The bound of a parameter. -/
def bound : Param → Option Expr
  | mk _ _ bound => bound

end Param

/-- Where a statement starts. -/
def Stmt.pos : Stmt → Position
  | letDecl p .. | assertEqual p .. | expr p .. => p

/-- A top-level definition; one with parameters is a function. -/
structure Definition where
  pos : Position
  isExported : Bool
  name : String
  params : List Param
  body : Expr

/-- A named group of statements. -/
structure Section where
  pos : Position
  name : String
  body : List Stmt

/-- Names taken from another module. -/
structure Import where
  pos : Position
  symbols : List String
  source : String

/-- What a program consists of. -/
inductive TopLevel where
  | definition (definition : Definition)
  | sectionOf (group : Section)
  | importOf (names : Import)

/-- A program: its top-level items in source order. -/
structure Program where
  body : List TopLevel

end TypeForge
