import TypeForge.Ast
import TypeForge.Parser.Stream

/-!
# Template strings

The text of a template string is read character by character: it knows no tokens, no
comments and no escapes.  A backtick ends it, and a dollar sign with an opening brace
starts an interpolation.  Any other dollar sign is text, and so is the character
behind it, even if that is another dollar sign.
-/

namespace TypeForge

/-- What ends a piece of template text. -/
inductive TextEnd where
  | backtick
  | interpolation
deriving DecidableEq

/-- The characters that end a piece of template text. -/
def TextEnd.mark : TextEnd → List Char
  | backtick => ['\x60']
  | interpolation => ['$', '\x7b']

/-- A piece of template text, what ends it, and what is behind that; none if the text
does not end. -/
def templateText : List Char → Option (List Char × TextEnd × List Char)
  | [] => none
  | '\x60' :: rest => some ([], .backtick, rest)
  | '$' :: '\x7b' :: rest => some ([], .interpolation, rest)
  | '$' :: '\x60' :: rest => some (['$'], .backtick, rest)
  | '$' :: c :: rest =>
    (templateText rest).map fun cut => ('$' :: c :: cut.1, cut.2)
  | c :: rest => (templateText rest).map fun cut => (c :: cut.1, cut.2)

namespace Parser

/-- Reads a piece of text of the template string that starts at `start`, with its end. -/
def templatePiece (start : Position) : Parser (String × TextEnd) := do
  let s ← get
  match templateText s.cursor.rest with
  | none => fail start .unterminatedTemplate
  | some (text, ending, rest) =>
    set { s with cursor := s.cursor.past (text ++ ending.mark) rest }
    return (String.ofList text, ending)

/-- The parts of the template string that starts at `start`.  The brace that closes an
interpolation is not taken as a token, since what follows it is text again. -/
def templateParts (start : Position) (expr : Parser Expr) : Parser (List Part) :=
  fix (fun again _ => do
    let (text, ending) ← templatePiece start
    rescan
    match ending with
    | .backtick => return [.text text]
    | .interpolation =>
      let e ← expr
      expectKind .rbrace
      return .text text :: .expr e :: (← again ())) ()

end Parser

end TypeForge
