import TypeForge.Parser.Template

/-!
# Parsing expressions

Expressions are parsed by operator precedence: an operator has a power towards its
left and one towards its right operand, and an operand is read with the least power
an operator in it may have.

Every production is a parser over the parser for its subexpressions, and
`Parser.exprWith` ties the knot.
-/

namespace TypeForge

/-! ## Precedence -/

/-- The powers of an infix operator towards its left and its right operand.  Assignment
binds loosest and to the right; unions and intersections bind as tightly as
multiplication; member accesses and calls bind tightest. -/
def infixPower : Kind → Option (Nat × Nat)
  | .assign => some (2, 1)
  | .orOr => some (3, 4)
  | .andAnd => some (5, 6)
  | .eqEq | .bangEq => some (7, 8)
  | .less | .lessEq | .greater | .greaterEq => some (9, 10)
  | .plus | .minus => some (11, 12)
  | .star | .starStar | .slash | .percent | .pipe | .ampersand => some (13, 14)
  | .dot | .lbracket | .lparen => some (17, 18)
  | _ => none

/-- The power of a prefix operator towards its operand: above every binary operator and
below member accesses and calls. -/
def prefixPower : Nat := 15

/-- The operator a token stands for in front of an operand. -/
def unaryOp? : Kind → Option UnaryOp
  | .minus => some .negate
  | .plus => some .plus
  | .bang => some .not
  | _ => none

/-- The operator a token stands for between truth values. -/
def logicalOp? : Kind → Option LogicalOp
  | .andAnd => some .and
  | .orOr => some .or
  | _ => none

/-- The operator a token stands for between types. -/
def binaryOp? : Kind → Option BinaryOp
  | .plus => some .add
  | .minus => some .sub
  | .star => some .mul
  | .slash => some .div
  | .starStar => some .pow
  | .percent => some .mod
  | .less => some .lt
  | .lessEq => some .le
  | .greater => some .gt
  | .greaterEq => some .ge
  | .eqEq => some .eq
  | .bangEq => some .notEq
  | .pipe => some .union
  | .ampersand => some .intersection
  | _ => none

/-! ## Looking ahead -/

/-- Whether a lambda starts at the current token: it does if the tokens there read
`a =>`, `() =>`, `(a) =>`, `(a:` or `(a,`. -/
def startsLambda (s : Stream) : Bool :=
  match s.window 3 with
  | .identifier :: .fatArrow :: _ => true
  | .lparen :: .rparen :: .fatArrow :: _ => true
  | .lparen :: .identifier :: .rparen :: .fatArrow :: _ => true
  | .lparen :: .identifier :: .colon :: _ => true
  | .lparen :: .identifier :: .comma :: _ => true
  | _ => false

/-- Whether the brace at the current token opens a mapped type: it does if `in` is among
the next four tokens. -/
def startsMapped (s : Stream) : Bool :=
  (s.cursor.peek 4).any fun token => token.kind == .inKw

namespace Parser

/-- How to tell that a lambda starts at the current token, given the parser for
expressions. -/
abbrev LambdaTest := Parser Expr → Stream → Bool

/-! ## Lists of parts -/

/-- A parameter: a name and, behind a colon, a bound. -/
def param (expr : Parser Expr) : Parser Param := do
  let pos := (← get).pos
  let name ← name
  return .mk pos name (← takeThen .colon expr)

/-- Parameters between parentheses, at least one. -/
def paramList (expr : Parser Expr) : Parser (List Param) := do
  let _ ← consume .lparen
  let params ← separated .comma (param expr)
  let _ ← consume .rparen
  return params

/-- Expressions up to a closing token, possibly none. -/
def exprList (close : Kind) (expr : Parser Expr) : Parser (List Expr) := do
  let es ← if (← get).at? close then pure [] else separated .comma expr
  let _ ← consume close
  return es

/-- The name that makes a statement an assertion. -/
def assertionName : String := "AssertEqual"

/-- Whether an assertion starts at the current token. -/
def startsAssertion (s : Stream) : Bool :=
  s.current.any fun token => token.kind == .identifier && token.text == assertionName

/-- A statement without the semicolon behind it. -/
def bareStmt (expr : Parser Expr) : Parser Stmt := do
  let s ← get
  if startsAssertion s then
    let _ ← advance
    let _ ← consume .lparen
    let left ← expr
    let _ ← consume .comma
    let right ← expr
    let _ ← consume .rparen
    return .assertEqual s.pos left right
  else if ← take .letKw then
    let name ← name
    let _ ← consume .assign
    return .letDecl s.pos name (← expr)
  else
    return .expr s.pos (← expr)

/-- A statement, with a semicolon behind it or not. -/
def stmt (expr : Parser Expr) : Parser Stmt := do
  let stmt ← bareStmt expr
  let _ ← take .semicolon
  return stmt

/-- Statements between braces behind a colon, at least one. -/
def stmtBlock (expr : Parser Expr) : Parser (List Stmt) := do
  let _ ← consume .colon
  let _ ← consume .lbrace
  let first ← stmt expr
  let more ← whileInBraces (stmt expr)
  let _ ← consume .rbrace
  return first :: more

/-- An arm of a match: a pattern, an arrow and a result. -/
def arm (expr : Parser Expr) : Parser Arm := do
  let pos := (← get).pos
  let pattern ← expr
  let _ ← consume .thinArrow
  return .mk pos pattern (← expr)

/-- A property of an object: a name or an expression in brackets, a question mark if it is
optional, and a value. -/
def property (expr : Parser Expr) : Parser Property := do
  let pos := (← get).pos
  if ← take .lbracket then
    let key ← expr
    let _ ← consume .rbracket
    let optional ← take .question
    let _ ← consume .colon
    return .computed pos key optional (← expr)
  else
    let name ← name
    let optional ← take .question
    let _ ← consume .colon
    return .named pos name optional (← expr)

/-- Takes a comma or a semicolon, and tells whether there was one. -/
def takeSeparator : Parser Bool := do
  if ← take .comma then return true else take .semicolon

/-- Properties with commas or semicolons between them, and possibly one behind the last. -/
def properties (expr : Parser Expr) : Parser (List Property) :=
  fix (fun again _ => do
    if (← get).inBraces then
      let p ← property expr
      if ← takeSeparator then
        return p :: (← again ())
      else
        return [p]
    else
      return []) ()

/-! ## Primary expressions -/

/-- A lambda: one bare parameter or a list of them, an arrow and a body. -/
def lambda (pos : Position) (expr : Parser Expr) : Parser Expr := do
  let s ← get
  let params ←
    if !s.at? .lparen then pure [← param expr]
    else if (s.cursor.peek 1).any (fun token => token.kind == .rparen) then do
      let _ ← consume .lparen
      let _ ← consume .rparen
      pure []
    else paramList expr
  let _ ← consume .fatArrow
  return .lambda pos params (← expr)

/-- The inside of a mapped type. -/
def mappedBody (pos : Position) (expr : Parser Expr) : Parser Expr := do
  let _ ← consume .lbracket
  let key ← name
  let _ ← consume .inKw
  let union ← expr
  let renamed ← takeThen .asKw expr
  let _ ← consume .rbracket
  let optional ← take .question
  let _ ← consume .colon
  return .mapped pos key union renamed optional (← expr)

/-- The inside of an object. -/
def objectBody (pos : Position) (expr : Parser Expr) : Parser Expr :=
  return .object pos (← properties expr)

/-- An object or a mapped type. -/
def braced (pos : Position) (expr : Parser Expr) : Parser Expr := do
  let isMapped := startsMapped (← get)
  let _ ← consume .lbrace
  let e ← if isMapped then mappedBody pos expr else objectBody pos expr
  let _ ← consume .rbrace
  return e

/-- A conditional. -/
def conditional (pos : Position) (expr : Parser Expr) : Parser Expr := do
  let _ ← advance
  let test ← expr
  let _ ← consume .thenKw
  let consequent ← expr
  let _ ← consume .elseKw
  return .conditional pos test consequent (← expr)

/-- A match with at least one arm. -/
def matching (pos : Position) (expr : Parser Expr) : Parser Expr := do
  let _ ← advance
  let scrutinee ← expr
  let _ ← consume .lbrace
  let arms ← separated .comma (arm expr)
  let _ ← consume .rbrace
  return .matching pos scrutinee arms

/-- An expression that starts with the token `token`, which is neither a backtick nor the
start of a lambda nor a prefix operator. -/
def atom (token : Token) (expr : Parser Expr) : Parser Expr := do
  let pos := token.pos
  match token.kind with
  | .identifier => return .ident pos (← advance).text
  | .number => return .number pos (← advance).text
  | .string => return .string pos (← stringLiteral)
  | .numberKw =>
    let _ ← advance
    return .numberType pos
  | .stringKw =>
    let _ ← advance
    return .stringType pos
  | .lparen =>
    let _ ← advance
    let e ← expr
    let _ ← consume .rparen
    return e
  | .lbracket =>
    let _ ← advance
    return .tuple pos (← exprList .rbracket expr)
  | .lbrace => braced pos expr
  | .colon => return .block pos (← stmtBlock expr)
  | .inferKw =>
    let _ ← advance
    let name ← name
    return .infer pos name (← takeThen .extendsKw expr)
  | .ifKw => conditional pos expr
  | .matchKw => matching pos expr
  | kind => fail pos (.unexpectedInExpr kind)

/-- An expression without infix operators of its own: a template string, a lambda, a prefix
operator with its operand, or an atom. -/
def primary (isLambda : LambdaTest) (expr : Nat → Parser Expr) : Parser Expr := do
  let s ← get
  match s.current with
  | none => fail s.cursor.pos .endInExpr
  | some token =>
    if token.kind = .backtick then
      return .template token.pos (← templateParts token.pos (expr 0))
    else if isLambda (expr 0) s then
      lambda token.pos (expr 0)
    else
      match unaryOp? token.kind with
      | some op =>
        let _ ← advance
        return .unary token.pos op (← expr prefixPower)
      | none => atom token (expr 0)

/-! ## Operators -/

/-- What an infix operator makes of its left operand `lhs`, given its power towards the
right. -/
def operation (expr : Nat → Parser Expr) (op : Token) (lhs : Expr) (power : Nat) : Parser Expr := do
  match op.kind with
  | .assign =>
    if lhs.isTarget then
      return .assignment lhs.pos lhs (← expr power)
    else
      fail lhs.pos .invalidTarget
  | .dot => return .field lhs.pos lhs (← name)
  | .lbracket =>
    let key ← expr 0
    let _ ← consume .rbracket
    return .index lhs.pos lhs key
  | .lparen => return .call lhs.pos lhs (← exprList .rparen (expr 0))
  | kind =>
    match logicalOp? kind, binaryOp? kind with
    | some logical, _ => return .logical lhs.pos logical lhs (← expr power)
    | none, some binary => return .binary lhs.pos binary lhs (← expr power)
    | none, none => fail op.pos (.unexpectedOperator kind)

/-- The infix operators behind `lhs` whose left power is at least `least`. -/
def operatorTail (expr : Nat → Parser Expr) (least : Nat) : Expr → Parser Expr :=
  fix fun again lhs => do
    match (← get).kind?.bind infixPower with
    | none => return lhs
    | some (left, right) =>
      if left < least then
        return lhs
      else
        let op ← advance
        again (← operation expr op lhs right)

/-- An expression whose operators have at least the given left power. -/
def exprWith (isLambda : LambdaTest) : Nat → Parser Expr :=
  fix fun expr least => do
    let lhs ← primary isLambda expr
    operatorTail expr least lhs

/-- The test that looks at a fixed window of tokens. -/
def windowTest : LambdaTest := fun _ => startsLambda

/-- An expression. -/
def expr : Parser Expr := exprWith windowTest 0

/-- An expression that is the whole text. -/
def wholeExpr (isLambda : LambdaTest) : Parser Expr := do
  let e ← exprWith isLambda 0
  match (← get).current with
  | some token => fail token.pos (.trailingInput token.kind)
  | none => return e

end Parser

/-- Parses a text that is one expression. -/
def parseExpr (source : String) : Except (Located SyntaxError) Expr := do
  let (e, _) ← Parser.wholeExpr Parser.windowTest (← Stream.ofString source)
  return e

end TypeForge
