import TypeForge.Generate.Monad

/-!
# Generating code for expressions

The target language has neither closures nor sequencing.  A lambda or a match arm is
lifted to an interface that gets its captured values as a tuple, a let becomes a
conditional type that binds a name, and an operator becomes the application of a
combinator to operands that are bound first, so that each is evaluated once.

Each construct has a function that builds its code from the code of its parts, and
`exprTy` puts them together by recursion on the syntax tree.
-/

namespace TypeForge

open TypeScript

namespace Gen

/-! ## Names -/

/-- What a name becomes: pattern variables and local binders keep their name, parameters
and captured values are read from the arguments. -/
def reference (vars : List String) (scope : Scope) (name : String) : Ty :=
  if name ∈ vars then .name (.user name)
  else
    match scope.resolve name with
    | .captured slot => .captured slot name
    | .param slot => .param (slot + 1) name
    | .bound | .unbound => .name (.user name)

/-! ## Operators -/

/-- Binds each operand to its id around `body`. -/
def bindOperands (bound : Option Ty) : List (Nat × Ty) → Ty → Ty
  | [], body => .paren body
  | (id, operand) :: operands, body =>
    .bind (.temp id) operand bound (bindOperands bound operands body)

/-- The application of a combinator. -/
def combinatorCall (c : Combinator) (args : List Ty) : Ty :=
  let path := Ty.symbol c.symbol c.member
  match c.application with
  | .direct => .apply path args
  | .deferred => .applied .call (path :: args)
  | .curried => .applied .call [.apply path args]

/-- Turns a bit into a truth value. -/
def truthOfBit (bit : Ty) : Ty :=
  .conditional bit (.number "1") (.keyword .true) (.keyword .false)

/-- The bound of the operands of a combinator. -/
def operandBound (isNumeric : Bool) : Option Ty :=
  if isNumeric then some (.keyword .number) else none

/-- Applies a combinator to operands that are evaluated once each. -/
def combine (c : Combinator) (operands : List Ty) : Gen Ty := do
  require c.symbol
  let ids ← freshIds operands
  let call := combinatorCall c (ids.map fun id => .name (.temp id))
  if c.application ≠ .direct then require .call
  let result := if c.yieldsBit then truthOfBit call else call
  return .paren (bindOperands (operandBound c.isNumeric) (ids.zip operands) result)

/-- The code of a binary operator. -/
def binary (op : BinaryOp) (lhs rhs : Ty) : Gen Ty :=
  match op.lowering with
  | .native op => return .paren (.operation op lhs rhs)
  | .combinator c => combine c [lhs, rhs]

/-- The code of a unary operator. -/
def unary (op : UnaryOp) (operand : Ty) : Gen Ty :=
  match op.lowering with
  | .identity => do
    let id ← freshId
    return .paren (bindOperands (operandBound true) [(id, operand)] (.name (.temp id)))
  | .combinator c => combine c [operand]

/-- The code of a conditional. -/
def conditional (test consequent alternate : Ty) : Ty :=
  .paren (.conditional (.paren test) (.keyword .true) consequent alternate)

/-! ## Calls -/

/-- The number of parameters of a callee, if it is known without evaluating it. -/
def knownArity (ctx : Context) (vars : List String) : Expr → Option Nat
  | .ident _ name =>
    if name ∉ vars ∧ ctx.scope.resolve name = .unbound then ctx.arity name else none
  | .lambda _ params _ => some params.length
  | _ => none

/-- The application of a callee to at least one argument.  If the number of parameters is
not known, full application is tried first. -/
def application (arity : Option Nat) (callee : Ty) (args : List Ty) : Gen Ty := do
  let full := Ty.applied .applyAll [callee, .tuple args]
  let part := Ty.applied .applyPart [callee, .tuple args]
  match arity with
  | some arity =>
    if arity ≤ args.length then
      require .applyAll
      return full
    else
      require .applyPart
      return part
  | none =>
    require .applyAll
    require .applyPart
    return .conditional (.paren full) .never (.paren part) (.paren full)

/-- Binds each argument to its id around `body`. -/
def bindArgs : List (Nat × Ty) → Ty → Ty
  | [], body => body
  | (id, arg) :: args, body => .bindExactly (.temp id) arg (bindArgs args body)

/-- The code of a call whose arguments have ids. -/
def applyCall (arity : Option Nat) (callee : Ty) (args : List (Nat × Ty)) : Gen Ty := do
  let body ←
    if args.isEmpty then pure callee
    else application arity callee (args.map fun arg => .name (.temp arg.1))
  return .paren (bindArgs args body)

/-- The symbol of a method, which is noted for import. -/
def methodSymbol (pos : Position) (name : String) : Gen Symbol :=
  match method? name with
  | none => fail pos (.unsupportedMethod name)
  | some symbol => do
    require symbol
    return symbol

/-! ## Lifted functions -/

/-- The code of a function body: bounds guard it, and it is `never` for arguments outside
of them. -/
def guarded (params : List Param) (bounds : Gen (List Ty)) (body : Gen Ty) : Gen Ty := do
  if params.all (·.bound.isNone) then
    body
  else
    let bounds ← bounds
    let body ← body
    let args := (List.range params.length).map fun i => Ty.arg (i + 1)
    return .conditional (.tuple args) (.tuple bounds) body .never

/-- Lifts a lambda and creates its closure. -/
def liftLambda (ctx : Context) (params : List Param) (bounds : Context → Gen (List Ty))
    (body : Context → Gen Ty) : Gen Ty := do
  require .fn
  require .applyPart
  let vars ← patternVars
  let own := params.map Param.name
  let captures := ctx.scope.captures vars own
  let inner := ctx.inside captures own none
  let code ← withPatternVars [] (guarded params (bounds inner) (body inner))
  let name := Name.lambda (← freshId)
  addLifted name code
  return .closure name (captures.map (reference vars ctx.scope))

/-- Lifts a match arm.  Its pattern is read twice: once where the match stands, as the shape
of the values it accepts, and once in the lifted function, where it binds names. -/
def liftArm (ctx : Context) (pattern result : Context → Gen Ty) : Gen Ty := do
  require .fn
  require .applyPart
  let vars ← patternVars
  let site ← withPatternVars vars (pattern (ctx.reading .shape))
  let captures := ctx.scope.captures vars []
  let (binder, body) ← withPatternVars [] do
    let binder ← pattern (ctx.inside captures [] (some .binding))
    let body ← result (ctx.inside captures [] none)
    return (binder, body)
  let name := Name.arm (← freshId)
  addLifted name (.conditional (.arg 1) binder body .never)
  return .apply (.symbol .matching (some "With"))
    [site, .closure name (captures.map (reference vars ctx.scope))]

/-- The reading of the pattern around a pattern variable. -/
def readingAt (ctx : Context) (pos : Position) : Gen PatternMode :=
  match ctx.mode with
  | none => fail pos .inferOutsidePattern
  | some mode => return mode

/-- The code of a pattern variable. -/
def patternVar (mode : PatternMode) (pos : Position) (name : String) (bound : Option Ty) :
    Gen Ty := do
  match mode with
  | .shape => return bound.getD (.keyword .any)
  | .binding =>
    let vars ← patternVars
    if maxPatternVars ≤ vars.length then
      fail pos .tooManyPatternVars
    else
      modify fun s => { s with patternVars := s.patternVars ++ [name] }
      return .infer (.user name) bound

/-! ## Expressions -/

mutual

/-- The code of an expression. -/
def exprTy (ctx : Context) : Expr → Gen Ty
  | .assignment pos _ _ => fail pos .assignmentUnsupported
  | .binary _ op lhs rhs => do
    let lhs ← exprTy ctx lhs
    let rhs ← exprTy ctx rhs
    binary op lhs rhs
  | .logical _ op lhs rhs => do
    let lhs ← exprTy ctx lhs
    let rhs ← exprTy ctx rhs
    combine op.lowering [lhs, rhs]
  | .unary _ op operand => do
    let operand ← exprTy ctx operand
    unary op operand
  | .conditional _ test consequent alternate => do
    let test ← exprTy ctx test
    let consequent ← exprTy ctx consequent
    let alternate ← exprTy ctx alternate
    return conditional test consequent alternate
  | .call pos (.field _ object method) args => do
    let symbol ← methodSymbol pos method
    let object ← exprTy ctx object
    let args ← exprTys ctx args
    return .paren (.applied symbol (object :: args))
  | .call _ callee args => do
    let args ← argTys ctx args
    let arity := knownArity ctx (← patternVars) callee
    let callee ← exprTy ctx callee
    applyCall arity callee args
  | .field _ object name => do
    let object ← exprTy ctx object
    return .index (.paren object) (.string name)
  | .index _ object key => do
    let object ← exprTy ctx object
    let key ← exprTy ctx key
    return .index (.paren object) key
  | .lambda _ params body =>
    liftLambda ctx params (fun inner => boundTys inner params) (fun inner => exprTy inner body)
  | .block pos body => blockTy ctx pos body
  | .matching _ scrutinee arms => do
    require .matching
    require .call
    let scrutinee ← exprTy ctx scrutinee
    let arms ← armTys ctx arms
    return .applied .call [.applied .matching [.tuple arms], scrutinee]
  | .template _ parts => return .template (← partTys ctx parts)
  | .object _ properties => return .object (← propertyTys ctx properties)
  | .mapped _ key union none optional value => do
    let union ← exprTy ctx union
    let value ← exprTy (ctx.bind key) value
    return .mapped key union none optional value
  | .mapped _ key union (some renamed) optional value => do
    let union ← exprTy ctx union
    let renamed ← exprTy (ctx.bind key) renamed
    let value ← exprTy (ctx.bind key) value
    return .mapped key union (some renamed) optional value
  | .tuple _ elements => return .tuple (← exprTys ctx elements)
  | .infer pos name none => do
    let mode ← readingAt ctx pos
    patternVar mode pos name none
  | .infer pos name (some bound) => do
    let mode ← readingAt ctx pos
    let bound ← exprTy ctx bound
    patternVar mode pos name (some bound)
  | .ident _ name => return reference (← patternVars) ctx.scope name
  | .number _ digits => return .number digits
  | .string _ text => return .string text
  | .numberType _ => return .keyword .number
  | .stringType _ => return .keyword .string

/-- The code of a list of expressions. -/
def exprTys (ctx : Context) : List Expr → Gen (List Ty)
  | [] => return []
  | e :: es => do
    let t ← exprTy ctx e
    let ts ← exprTys ctx es
    return t :: ts

/-- The code of the arguments of a call, each with an id taken before it. -/
def argTys (ctx : Context) : List Expr → Gen (List (Nat × Ty))
  | [] => return []
  | e :: es => do
    let id ← freshId
    let t ← exprTy ctx e
    let ts ← argTys ctx es
    return (id, t) :: ts

/-- The code of the bounds of parameters; one without a bound accepts everything. -/
def boundTys (ctx : Context) : List Param → Gen (List Ty)
  | [] => return []
  | .mk _ _ none :: ps => do
    let ts ← boundTys ctx ps
    return .keyword .unknown :: ts
  | .mk _ _ (some bound) :: ps => do
    let t ← exprTy ctx bound
    let ts ← boundTys ctx ps
    return t :: ts

/-- The code of a block that starts at `pos`: lets bind names around the final
expression. -/
def blockTy (ctx : Context) (pos : Position) : List Stmt → Gen Ty
  | [] => fail pos .blockWithoutResult
  | [.expr _ value] => exprTy ctx value
  | .expr p _ :: _ => fail p .statementBeforeBlockEnd
  | .assertEqual p _ _ :: _ => fail p .assertionOutsideSection
  | [.letDecl p _ _] => fail p .blockWithoutResult
  | .letDecl _ name value :: rest => do
    let value ← exprTy ctx value
    let body ← blockTy (ctx.bind name) pos rest
    return .paren (.bindExactly (.user name) value body)

/-- The code of the arms of a match. -/
def armTys (ctx : Context) : List Arm → Gen (List Ty)
  | [] => return []
  | .mk _ pattern result :: as => do
    let t ← liftArm ctx (fun inner => exprTy inner pattern) (fun inner => exprTy inner result)
    let ts ← armTys ctx as
    return t :: ts

/-- The code of the parts of a template string. -/
def partTys (ctx : Context) : List Part → Gen (List Piece)
  | [] => return []
  | .text text :: ps => do
    let ts ← partTys ctx ps
    return .text text :: ts
  | .expr value :: ps => do
    let t ← exprTy ctx value
    let ts ← partTys ctx ps
    return .ty t :: ts

/-- The code of the properties of an object. -/
def propertyTys (ctx : Context) : List Property → Gen (List Field)
  | [] => return []
  | .named _ name optional value :: ps => do
    let t ← exprTy ctx value
    let ts ← propertyTys ctx ps
    return .named name optional t :: ts
  | .computed _ key optional value :: ps => do
    let k ← exprTy ctx key
    let t ← exprTy ctx value
    let ts ← propertyTys ctx ps
    return .computed k optional t :: ts

end

end Gen

end TypeForge
