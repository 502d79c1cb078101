import TypeForge.Token.Cursor

/-!
# Token streams

The parser reads from a stream: the current token, none at the end of the text, and
the cursor right behind it.  Nothing behind the current token is scanned before it is
needed, since the text of a template string is not made of tokens.
-/

namespace TypeForge

/-- What can be wrong with the token sequence of a text. -/
inductive SyntaxError where
  | unexpected (actual expected : Kind)
  | unexpectedEnd (expected : Kind)
  | unexpectedTopLevel (actual : Kind)
  | unexpectedInExpr (actual : Kind)
  | endInExpr
  /-- A token was to be taken at the end of the text. -/
  | noToken
  | unexpectedOperator (actual : Kind)
  | trailingInput (actual : Kind)
  | invalidTarget
  | unterminatedTemplate
  | emptyProgram
  | lexical (error : LexError)
  /-- A production called itself without having read anything. -/
  | noProgress
deriving DecidableEq

/-- The text of an error. -/
def SyntaxError.message : SyntaxError → String
  | unexpected actual expected => "expected " ++ expected.name ++ ", found " ++ actual.name
  | unexpectedEnd expected => "unexpected end of input, expected " ++ expected.name
  | unexpectedTopLevel actual =>
    "expected a definition, a section or an import, found " ++ actual.name
  | unexpectedInExpr actual => "unexpected " ++ actual.name ++ " in expression"
  | endInExpr | noToken => "unexpected end of input in expression"
  | unexpectedOperator actual => "unexpected operator " ++ actual.name
  | trailingInput actual => "unexpected " ++ actual.name ++ " after expression"
  | invalidTarget => "invalid assignment target"
  | unterminatedTemplate => "unterminated template string"
  | emptyProgram => "empty program"
  | lexical error => error.message
  | noProgress => "no progress"

/-- The current token and the cursor behind it. -/
structure Stream where
  current : Option Token
  cursor : Cursor

namespace Stream

/-- The stream whose current token is the next one of a cursor. -/
def ofCursor (cur : Cursor) : Except (Located SyntaxError) Stream :=
  match cur.next with
  | (none, cur') => .ok ⟨none, cur'⟩
  | (some (.ok token), cur') => .ok ⟨some token, cur'⟩
  | (some (.error e), _) => .error (e.map .lexical)

/-- The stream at the start of a text. -/
def ofString (source : String) : Except (Located SyntaxError) Stream :=
  ofCursor (Cursor.ofString source)

/-- How many characters are left, counted from the start of the current token. -/
def size (s : Stream) : Nat :=
  (s.current.elim 0 fun token => token.text.length) + s.cursor.rest.length

/-- Where the current token starts, or the end of the text. -/
def pos (s : Stream) : Position := s.current.elim s.cursor.pos Token.pos

/-- The kind of the current token. -/
def kind? (s : Stream) : Option Kind := s.current.map Token.kind

/-- Whether the current token is of the given kind. -/
def at? (s : Stream) (kind : Kind) : Bool := s.kind? == some kind

/-- Whether there is a current token that does not close a brace. -/
def inBraces (s : Stream) : Bool := s.kind?.any (· != .rbrace)

/-- The kinds of the current token and of at most `n` tokens behind it. -/
def window (s : Stream) (n : Nat) : List Kind :=
  s.kind?.toList ++ (s.cursor.peek n).map Token.kind

end Stream

/-- Computations that read a stream and may fail. -/
abbrev Parser := StateT Stream (Except (Located SyntaxError))

namespace Parser

variable {α β : Type}

/-- The parser that calls itself through `step`.  A call that has not less to read than its
caller fails instead of looping, so the recursion is well founded; a production that
reads something before it recurs never meets that case. -/
def fix (step : (α → Parser β) → α → Parser β) (a : α) (s : Stream) :
    Except (Located SyntaxError) (β × Stream) :=
  step (fun b t =>
    if _h : t.size < s.size then fix step b t else .error ⟨t.pos, .noProgress⟩) a s
termination_by s.size

/-- Fails at the given position. -/
def fail (pos : Position) (error : SyntaxError) : Parser α := throw ⟨pos, error⟩

/-- Takes the current token and scans the next one.  What is wrong with the next token is
reported first. -/
def advance : Parser Token := fun s => do
  let s' ← Stream.ofCursor s.cursor
  match s.current with
  | some token => return (token, s')
  | none => throw ⟨s'.cursor.pos, .noToken⟩

/-- Drops the current token and continues at the cursor. -/
def rescan : Parser Unit := fun s => do return ((), ← Stream.ofCursor s.cursor)

/-- Fails unless the current token is of the given kind; reads nothing. -/
def expectKind (kind : Kind) : Parser Unit := do
  let s ← get
  match s.current with
  | some token => if token.kind = kind then pure () else fail token.pos (.unexpected token.kind kind)
  | none => fail s.cursor.pos (.unexpectedEnd kind)

/-- Takes a token of the given kind. -/
def consume (kind : Kind) : Parser Token := do
  expectKind kind
  advance

/-- Takes the current token if it is of the given kind, and tells whether it was. -/
def take (kind : Kind) : Parser Bool := do
  if (← get).at? kind then
    let _ ← advance
    return true
  else
    return false

/-- Parses `p` behind a token of the given kind; none if there is no such token. -/
def takeThen (kind : Kind) (p : Parser α) : Parser (Option α) := do
  if ← take kind then return some (← p) else return none

/-- The items behind the first in `item (separator item)*`. -/
def moreSeparated (separator : Kind) (item : Parser α) : Parser (List α) :=
  fix (fun again _ => do
    if ← take separator then
      let a ← item
      return a :: (← again ())
    else
      return []) ()

/-- Items with a separator between them: `item (separator item)*`. -/
def separated (separator : Kind) (item : Parser α) : Parser (List α) := do
  let a ← item
  return a :: (← moreSeparated separator item)

/-- Items up to a closing brace or the end of the text. -/
def whileInBraces (item : Parser α) : Parser (List α) :=
  fix (fun again _ => do
    if (← get).inBraces then
      let a ← item
      return a :: (← again ())
    else
      return []) ()

/-- An identifier. -/
def name : Parser String := return (← consume .identifier).text

/-- The content of a string token: its text without the quotes. -/
def unquoted (text : String) : String := String.ofList text.toList.tail.dropLast

/-- A string. -/
def stringLiteral : Parser String := return unquoted (← consume .string).text

end Parser

end TypeForge
