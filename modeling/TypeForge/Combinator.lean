import TypeForge.Ast
import TypeForge.Library

/-!
# Lowering of operators and methods

The target language has no operators on types beyond unions and intersections, so
the others become applications of library combinators.  A method call is the
application of a prelude symbol to the object and the arguments.
-/

namespace TypeForge

/-- How a combinator `F` is applied to its operands. -/
inductive Application where
  /-- As `F<a, b>`. -/
  | direct
  /-- As `Call<F, a, b>`. -/
  | deferred
  /-- As `Call<F<a, b>>`. -/
  | curried
deriving DecidableEq

/-- A library symbol, or a member of one, that stands for an operator. -/
structure Combinator where
  symbol : Symbol
  /-- The member of the symbol that is applied, if it is not the symbol itself. -/
  member : Option String
  application : Application
  /-- Whether every operand has to be a number. -/
  isNumeric : Bool
  /-- Whether the result is a bit, `1` or `0`, that has to be turned into a truth value. -/
  yieldsBit : Bool
deriving DecidableEq

namespace Combinator

/-- An operation on numbers. -/
def arithmetic (name : String) : Combinator := ⟨⟨.math, name⟩, none, .direct, true, false⟩

/-- A test on numbers. -/
def comparison (name : String) : Combinator := ⟨⟨.math, name⟩, none, .direct, true, true⟩

/-- A member of the truth value utilities. -/
def booleans (member : String) (application : Application) : Combinator :=
  ⟨.booleans, some member, application, false, false⟩

/-- The text of a combinator where it is applied. -/
def path (c : Combinator) : String :=
  c.symbol.name ++ c.member.elim "" fun member => "." ++ member

end Combinator

/-- The operators on types that the target language has itself. -/
inductive TypeOp where
  | union
  | intersection
deriving DecidableEq

/-- The spelling of an operator in the target language. -/
def TypeOp.text : TypeOp → String
  | union => "|"
  | intersection => "&"

/-- What a binary operator becomes. -/
inductive BinaryLowering where
  | native (op : TypeOp)
  | combinator (combinator : Combinator)
deriving DecidableEq

/-- What a unary operator becomes. -/
inductive UnaryLowering where
  /-- The operand itself, which has to be a number. -/
  | identity
  | combinator (combinator : Combinator)
deriving DecidableEq

/-- What a binary operator becomes. -/
def BinaryOp.lowering : BinaryOp → BinaryLowering
  | union => .native .union
  | intersection => .native .intersection
  | add => .combinator (.arithmetic "Add")
  | sub => .combinator (.arithmetic "Subtract")
  | mul => .combinator (.arithmetic "Multiply")
  | div => .combinator (.arithmetic "Divide")
  | pow => .combinator (.arithmetic "Pow")
  | mod => .combinator (.arithmetic "Mod")
  | lt => .combinator (.comparison "Lt")
  | le => .combinator (.comparison "LtOrEq")
  | gt => .combinator (.comparison "Gt")
  | ge => .combinator (.comparison "GtOrEq")
  | eq => .combinator (.booleans "Equals" .deferred)
  | notEq => .combinator ⟨⟨.prelude, "NotEquals"⟩, none, .direct, false, false⟩

/-- What a logical operator becomes. -/
def LogicalOp.lowering : LogicalOp → Combinator
  | and => .booleans "And" .curried
  | or => .booleans "Or" .curried

/-- What a unary operator becomes. -/
def UnaryOp.lowering : UnaryOp → UnaryLowering
  | not => .combinator (.booleans "Not" .curried)
  | negate => .combinator (.arithmetic "Negate")
  | plus => .identity

/-- The methods of tuples, objects, strings and numbers, with the prelude symbols they
stand for. -/
def methods : List (String × String) :=
  [("sort", "Sort"), ("sum", "Sum"), ("head", "Head"), ("tail", "Tail"), ("last", "Last"),
   ("at", "At"), ("drop", "Drop"), ("take", "Take"), ("map", "Map"), ("filter", "Filter"),
   ("find", "Find"), ("flatMap", "FlatMap"), ("takeWhile", "TakeWhile"),
   ("groupBy", "GroupBy"), ("partition", "Partition"), ("reduce", "Reduce"),
   ("reduceRight", "ReduceRight"), ("reverse", "Reverse"), ("every", "Every"),
   ("slice", "Slice"), ("splitAt", "SplitAt"), ("zip", "Zip"), ("zipWith", "ZipWith"),
   ("prepend", "Prepend"), ("append", "Append"), ("concat", "Concat"), ("join", "Join"),
   ("min", "Min"), ("max", "Max"), ("length", "Length"), ("isEmpty", "IsEmpty"),
   ("toUnion", "ToUnion"), ("toIntersection", "ToIntersection"),
   ("fromEntries", "FromEntries"), ("mapValues", "MapValues"), ("trim", "Trim"),
   ("trimLeft", "TrimLeft"), ("trimRight", "TrimRight"), ("replace", "Replace"),
   ("split", "Split"), ("repeat", "Repeat"), ("startsWith", "StartsWith"),
   ("endsWith", "EndsWith"), ("uppercase", "Uppercase"), ("lowercase", "Lowercase"),
   ("capitalize", "Capitalize"), ("uncapitalize", "Uncapitalize"),
   ("camelCase", "CamelCase"), ("kebabCase", "KebabCase"), ("snakeCase", "SnakeCase"),
   ("toTuple", "ToTuple"), ("toNumber", "ToNumber"), ("toString", "ToString"),
   ("abs", "Abs"), ("compare", "Compare")]

/-- The symbol of a method. -/
def method? (name : String) : Option Symbol := (methods.lookup name).map (⟨.prelude, ·⟩)

end TypeForge
