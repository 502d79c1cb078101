import TypeForge.Parser.Expr

/-!
# Parsing programs

A program is a sequence of definitions, sections and imports.  The first token of an
item tells which one it is, and no separator is needed between them.
-/

namespace TypeForge

namespace Parser

/-- A definition: a name, parameters if it is a function, and a body. -/
def definition (expr : Parser Expr) : Parser Definition := do
  let s ← get
  let isExported ← take .exportKw
  let _ ← consume .typeKw
  let name ← name
  let params ← if (← get).at? .lparen then paramList expr else pure []
  let _ ← consume .assign
  let body ← expr
  let _ ← take .semicolon
  return ⟨s.pos, isExported, name, params, body⟩

/-- A section: a name in brackets and a block of statements. -/
def sectionOf (expr : Parser Expr) : Parser Section := do
  let s ← get
  let _ ← consume .hash
  let _ ← consume .lbracket
  let name ← name
  let _ ← consume .rbracket
  let body ← stmtBlock expr
  return ⟨s.pos, name, body⟩

/-- An import: names in braces and the module they come from. -/
def importOf : Parser Import := do
  let s ← get
  let _ ← consume .importKw
  let _ ← consume .lbrace
  let symbols ← separated .comma name
  let _ ← consume .rbrace
  let _ ← consume .fromKw
  let source ← stringLiteral
  let _ ← take .semicolon
  return ⟨s.pos, symbols, source⟩

/-- The item that starts with the token `token`. -/
def topLevel (token : Token) (expr : Parser Expr) : Parser TopLevel := do
  match token.kind with
  | .typeKw | .exportKw => return .definition (← definition expr)
  | .hash => return .sectionOf (← sectionOf expr)
  | .importKw => return .importOf (← importOf)
  | kind => fail token.pos (.unexpectedTopLevel kind)

/-- Items up to the end of the text. -/
def topLevels (expr : Parser Expr) : Parser (List TopLevel) :=
  fix (fun again _ => do
    match (← get).current with
    | none => return []
    | some token =>
      let item ← topLevel token expr
      return item :: (← again ())) ()

/-- A program, which is not empty. -/
def program (isLambda : LambdaTest) : Parser Program := do
  match ← topLevels (exprWith isLambda 0) with
  | [] => fail Position.start .emptyProgram
  | items => return ⟨items⟩

end Parser

/-- Parses the text of a program. -/
def parseProgram (source : String) : Except (Located SyntaxError) Program := do
  let (program, _) ← Parser.program Parser.windowTest (← Stream.ofString source)
  return program

end TypeForge
