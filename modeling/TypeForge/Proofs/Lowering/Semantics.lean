import TypeForge.Generate.Expr
import TypeForge.TypeScript.Render

/-!
# What expressions and their code stand for

Expressions without functions, patterns and objects have values: numbers, truth values and
tuples.  The numbers themselves and the operations on them are left open, and so is what the
libraries compute, except that each of their functions is named for an operation.

The code of such an expression is read as follows.  A conditional type whose pattern is a
pattern variable binds the name of the variable, unless the value lies outside of the bound.
Any other conditional type takes its first branch if the two values are the same.  A library
function has a value as soon as it is applied to its operands; a member of a library symbol
waits until it is called.

Names are compared by their spelling.  A name of a library that is bound somewhere around does
not stand for the library function any more.
-/

namespace TypeForge.Lowering

/-! ## Values -/

/-- Numbers, and operations on them that need not be defined everywhere. -/
structure Arithmetic where
  Num : Type
  [decEq : DecidableEq Num]
  literal : String → Num
  add : Num → Num → Option Num
  sub : Num → Num → Option Num
  mul : Num → Num → Option Num
  div : Num → Num → Option Num
  pow : Num → Num → Option Num
  mod : Num → Num → Option Num
  negate : Num → Option Num
  less : Num → Num → Bool
  lessEq : Num → Num → Bool
  zero_ne_one : literal "0" ≠ literal "1"

instance (A : Arithmetic) : DecidableEq A.Num := A.decEq

/-- Values of expressions. -/
inductive Value (Num : Type) where
  | number (n : Num)
  | truth (b : Bool)
  | tuple (elements : List (Value Num))

namespace Value

variable {Num : Type} [DecidableEq Num]

mutual

/-- Whether two values are the same. -/
def decEq : (v w : Value Num) → Decidable (v = w)
  | number n, number m => decidable_of_iff (n = m) (by simp)
  | truth b, truth c => decidable_of_iff (b = c) (by simp)
  | tuple vs, tuple ws =>
    match decEqs vs ws with
    | isTrue h => isTrue (by rw [h])
    | isFalse h => isFalse fun heq => h (tuple.inj heq)
  | number _, truth _ | number _, tuple _ | truth _, number _ | truth _, tuple _
  | tuple _, number _ | tuple _, truth _ => isFalse nofun

/-- Whether two lists of values are the same. -/
def decEqs : (vs ws : List (Value Num)) → Decidable (vs = ws)
  | [], [] => isTrue rfl
  | [], _ :: _ | _ :: _, [] => isFalse nofun
  | v :: vs, w :: ws =>
    match decEq v w, decEqs vs ws with
    | isTrue h, isTrue h' => isTrue (by rw [h, h'])
    | isFalse h, _ => isFalse fun heq => h (List.cons.inj heq).1
    | _, isFalse h => isFalse fun heq => h (List.cons.inj heq).2

end

instance : DecidableEq (Value Num) := decEq

/-- Whether a value is a number. -/
def isNumber : Value Num → Bool
  | number _ => true
  | _ => false

end Value

/-- What names stand for, the innermost first. -/
abbrev Env (Num : Type) := List (String × Value Num)

/-- What a name stands for: the truth values have names of their own. -/
def Env.value? {Num : Type} (env : Env Num) (name : String) : Option (Value Num) :=
  match env.lookup name with
  | some v => some v
  | none => if name = "true" then some (.truth true) else if name = "false" then some (.truth false)
      else none

variable (A : Arithmetic)

/-! ## The value of an expression -/

/-- The value of a binary operator at the values of its operands. -/
def binary? : BinaryOp → Value A.Num → Value A.Num → Option (Value A.Num)
  | .add, .number a, .number b => (A.add a b).map .number
  | .sub, .number a, .number b => (A.sub a b).map .number
  | .mul, .number a, .number b => (A.mul a b).map .number
  | .div, .number a, .number b => (A.div a b).map .number
  | .pow, .number a, .number b => (A.pow a b).map .number
  | .mod, .number a, .number b => (A.mod a b).map .number
  | .lt, .number a, .number b => some (.truth (A.less a b))
  | .le, .number a, .number b => some (.truth (A.lessEq a b))
  | .gt, .number a, .number b => some (.truth (A.less b a))
  | .ge, .number a, .number b => some (.truth (A.lessEq b a))
  | .eq, a, b => some (.truth (decide (a = b)))
  | .notEq, a, b => some (.truth (decide (a ≠ b)))
  | _, _, _ => none

/-- The value of a logical operator at the values of its operands. -/
def logical? : LogicalOp → Value A.Num → Value A.Num → Option (Value A.Num)
  | .and, .truth a, .truth b => some (.truth (a && b))
  | .or, .truth a, .truth b => some (.truth (a || b))
  | _, _, _ => none

/-- The value of a unary operator at the value of its operand. -/
def unary? : UnaryOp → Value A.Num → Option (Value A.Num)
  | .negate, .number a => (A.negate a).map .number
  | .plus, .number a => some (.number a)
  | .not, .truth a => some (.truth !a)
  | _, _ => none

mutual

/-- The value of an expression; none if an operand is not what its operator asks for. -/
def value? (env : Env A.Num) : Expr → Option (Value A.Num)
  | .binary _ op lhs rhs => do
    let a ← value? env lhs
    let b ← value? env rhs
    binary? A op a b
  | .logical _ op lhs rhs => do
    let a ← value? env lhs
    let b ← value? env rhs
    logical? A op a b
  | .unary _ op operand => do
    let a ← value? env operand
    unary? A op a
  | .conditional _ test consequent alternate => do
    -- Only the branch that is taken needs a value.
    match ← value? env test with
    | .truth true => value? env consequent
    | .truth false => value? env alternate
    | _ => none
  | .tuple _ elements => do
    let vs ← values? env elements
    return .tuple vs
  | .block _ body => blockValue? env body
  | .number _ digits => some (.number (A.literal digits))
  | .ident _ name => env.value? name
  | _ => none

/-- The values of a list of expressions. -/
def values? (env : Env A.Num) : List Expr → Option (List (Value A.Num))
  | [] => some []
  | e :: es => do
    let v ← value? env e
    let vs ← values? env es
    return v :: vs

/-- The value of a block: each let binds its name for the statements behind it. -/
def blockValue? (env : Env A.Num) : List Stmt → Option (Value A.Num)
  | [.expr _ value] => value? env value
  | .letDecl _ name value :: rest => do
    let v ← value? env value
    blockValue? ((name, v) :: env) rest
  | _ => none

end

/-! ## Expressions that have values -/

mutual

/-- Whether an expression is built from numbers, names, operators on values, conditionals,
tuples and blocks of lets. -/
def isElementary : Expr → Bool
  | .binary _ op lhs rhs =>
    (op != .union && op != .intersection) && (isElementary lhs && isElementary rhs)
  | .logical _ _ lhs rhs => isElementary lhs && isElementary rhs
  | .unary _ _ operand => isElementary operand
  | .conditional _ test consequent alternate =>
    isElementary test && (isElementary consequent && isElementary alternate)
  | .tuple _ elements => areElementary elements
  | .block _ body => isElementaryBlock body
  | .number .. | .ident .. => true
  | _ => false

/-- Whether expressions are of this kind. -/
def areElementary : List Expr → Bool
  | [] => true
  | e :: es => isElementary e && areElementary es

/-- Whether statements are lets and an expression of this kind. -/
def isElementaryBlock : List Stmt → Bool
  | [.expr _ value] => isElementary value
  | .letDecl _ _ value :: rest => isElementary value && isElementaryBlock rest
  | _ => false

end

mutual

/-- The names that the lets of an expression bind. -/
def letNames : Expr → List String
  | .binary _ _ lhs rhs | .logical _ _ lhs rhs => letNames lhs ++ letNames rhs
  | .unary _ _ operand => letNames operand
  | .conditional _ test consequent alternate =>
    letNames test ++ (letNames consequent ++ letNames alternate)
  | .tuple _ elements => letNamesOfExprs elements
  | .block _ body => letNamesOfStmts body
  | _ => []

/-- The names that the lets of expressions bind. -/
def letNamesOfExprs : List Expr → List String
  | [] => []
  | e :: es => letNames e ++ letNamesOfExprs es

/-- The names that lets bind, also those inside of them. -/
def letNamesOfStmts : List Stmt → List String
  | [] => []
  | .letDecl _ name value :: rest => name :: (letNames value ++ letNamesOfStmts rest)
  | .expr _ value :: rest => letNames value ++ letNamesOfStmts rest
  | .assertEqual .. :: rest => letNamesOfStmts rest

end

/-! ## Libraries -/

/-- What library functions compute: the value at some operands, if there is one. -/
abbrev Libraries (Num : Type) := Symbol → Option String → List (Value Num) → Option (Value Num)

/-- A truth value as a number. -/
def bit (b : Bool) : Value A.Num := .number (A.literal (if b then "1" else "0"))

/-- The operations that the library functions are named for.  A comparison of numbers gives
`1` or `0`. -/
def Arithmetic.library : Libraries A.Num
  | ⟨.math, "Add"⟩, none, [.number a, .number b] => (A.add a b).map .number
  | ⟨.math, "Subtract"⟩, none, [.number a, .number b] => (A.sub a b).map .number
  | ⟨.math, "Multiply"⟩, none, [.number a, .number b] => (A.mul a b).map .number
  | ⟨.math, "Divide"⟩, none, [.number a, .number b] => (A.div a b).map .number
  | ⟨.math, "Pow"⟩, none, [.number a, .number b] => (A.pow a b).map .number
  | ⟨.math, "Mod"⟩, none, [.number a, .number b] => (A.mod a b).map .number
  | ⟨.math, "Negate"⟩, none, [.number a] => (A.negate a).map .number
  | ⟨.math, "Lt"⟩, none, [.number a, .number b] => some (bit A (A.less a b))
  | ⟨.math, "LtOrEq"⟩, none, [.number a, .number b] => some (bit A (A.lessEq a b))
  | ⟨.math, "Gt"⟩, none, [.number a, .number b] => some (bit A (A.less b a))
  | ⟨.math, "GtOrEq"⟩, none, [.number a, .number b] => some (bit A (A.lessEq b a))
  | ⟨.prelude, "NotEquals"⟩, none, [a, b] => some (.truth (decide (a ≠ b)))
  | ⟨.hot, "Booleans"⟩, some "Equals", [a, b] => some (.truth (decide (a = b)))
  | ⟨.hot, "Booleans"⟩, some "And", [.truth a, .truth b] => some (.truth (a && b))
  | ⟨.hot, "Booleans"⟩, some "Or", [.truth a, .truth b] => some (.truth (a || b))
  | ⟨.hot, "Booleans"⟩, some "Not", [.truth a] => some (.truth !a)
  | _, _, _ => none

/-- Each library function computes the operation it is named for, where that is defined. -/
def Libraries.Faithful (lib : Libraries A.Num) : Prop :=
  ∀ symbol member args v, A.library symbol member args = some v →
    lib symbol member args = some v

/-! ## The meaning of target code -/

/-- What a piece of target code stands for. -/
inductive Meaning (Num : Type) where
  | value (v : Value Num)
  /-- A library function, or a member of one, with the operands it has so far. -/
  | function (symbol : Symbol) (member : Option String) (held : List (Value Num))

namespace Meaning

variable {Num : Type}

/-- The value of a piece of code that has one. -/
def value? : Meaning Num → Option (Value Num)
  | value v => some v
  | function .. => none

/-- The values of pieces of code that all have one. -/
def values? : List (Meaning Num) → Option (List (Value Num))
  | [] => some []
  | m :: ms => do
    let v ← m.value?
    let vs ← values? ms
    return v :: vs

/-- The application of a library function.  To call a function is to apply it to what it holds
and to the operands of the call; members of a symbol wait to be called. -/
def apply (lib : Libraries Num) : Meaning Num → List (Meaning Num) → Option (Meaning Num)
  | value _, _ => none
  | function symbol none _, args =>
    if symbol = .call then
      match args with
      | function callee member held :: operands => do
        let vs ← values? operands
        let v ← lib callee member (held ++ vs)
        return .value v
      | _ => none
    else do
      let vs ← values? args
      let v ← lib symbol none vs
      return .value v
  | function symbol (some member) held, args => do
    let vs ← values? args
    return .function symbol (some member) (held ++ vs)

end Meaning

open TypeScript

mutual

/-- What a piece of code stands for, if the names in `env` are bound around it. -/
def meaning? (lib : Libraries A.Num) (env : Env A.Num) : Ty → Option (Meaning A.Num)
  | .name name => (env.value? name.render).map .value
  | .symbol symbol member =>
    if (env.lookup symbol.name).isNone then some (.function symbol member []) else none
  | .number digits => some (.value (.number (A.literal digits)))
  | .keyword .true => some (.value (.truth true))
  | .keyword .false => some (.value (.truth false))
  | .paren inner => meaning? lib env inner
  | .apply head args => do
    let f ← meaning? lib env head
    let operands ← meanings? lib env args
    f.apply lib operands
  | .tuple elements => do
    let ms ← meanings? lib env elements
    let vs ← Meaning.values? ms
    return .value (.tuple vs)
  | .conditional check (.infer name none) yes _ => do
    let v ← (← meaning? lib env check).value?
    meaning? lib ((name.render, v) :: env) yes
  | .conditional check (.infer name (some (.keyword .number))) yes no => do
    let v ← (← meaning? lib env check).value?
    if v.isNumber then meaning? lib ((name.render, v) :: env) yes else meaning? lib env no
  | .conditional check (.infer name (some bound)) yes no => do
    let v ← (← meaning? lib env check).value?
    let w ← (← meaning? lib env bound).value?
    if v = w then meaning? lib ((name.render, v) :: env) yes else meaning? lib env no
  | .conditional check pattern yes no => do
    let v ← (← meaning? lib env check).value?
    let w ← (← meaning? lib env pattern).value?
    if v = w then meaning? lib env yes else meaning? lib env no
  | _ => none

/-- What pieces of code stand for. -/
def meanings? (lib : Libraries A.Num) (env : Env A.Num) : List Ty → Option (List (Meaning A.Num))
  | [] => some []
  | t :: ts => do
    let m ← meaning? lib env t
    let ms ← meanings? lib env ts
    return m :: ms

end

section

-- The equations of the two evaluators are made here once, and not by each proof that needs them.
attribute [local simp] value? meaning?

end

end TypeForge.Lowering
