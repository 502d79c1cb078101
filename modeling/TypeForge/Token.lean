import TypeForge.Position
import TypeForge.Text.Quoted

/-!
# Tokens

A token is a kind, the source text it was read from and the position of that text.
Most kinds have exactly one spelling; the others are identifiers, numbers and
strings.
-/

namespace TypeForge

/-- The kinds of tokens: keywords, punctuation and operators, and the three open
classes. -/
inductive Kind where
  | letKw | matchKw | inferKw | extendsKw | numberKw | stringKw | typeKw | ifKw | thenKw
  | elseKw | exportKw | importKw | fromKw | inKw | asKw
  | hash | question | semicolon | colon | lbrace | rbrace | lparen | rparen | lbracket
  | rbracket | comma | dot | fatArrow | thinArrow | backslash | backtick | assign
  | eqEq | bangEq | andAnd | orOr | bang | plus | minus | star | starStar | slash
  | percent | pipe | ampersand | less | lessEq | greater | greaterEq
  | identifier | number | string
deriving DecidableEq

namespace Kind

/-- The name of a kind in messages and listings. -/
def name : Kind → String
  | letKw => "Let" | matchKw => "Match" | inferKw => "Infer" | extendsKw => "Extends"
  | numberKw => "NumberKeyword" | stringKw => "StringKeyword" | typeKw => "Type"
  | ifKw => "If" | thenKw => "Then" | elseKw => "Else" | exportKw => "Export"
  | importKw => "Import" | fromKw => "From" | inKw => "In" | asKw => "As"
  | hash => "Hash" | question => "Question" | semicolon => "Semicolon" | colon => "Colon"
  | lbrace => "LBrace" | rbrace => "RBrace" | lparen => "LParen" | rparen => "RParen"
  | lbracket => "LBracket" | rbracket => "RBracket" | comma => "Comma" | dot => "Dot"
  | fatArrow => "FatArrow" | thinArrow => "ThinArrow" | backslash => "Backslash"
  | backtick => "Backtick" | assign => "Assign" | eqEq => "EqEq" | bangEq => "BangEq"
  | andAnd => "AndAnd" | orOr => "OrOr" | bang => "Bang" | plus => "Plus"
  | minus => "Minus" | star => "Star" | starStar => "StarStar" | slash => "Slash"
  | percent => "Percent" | pipe => "Pipe" | ampersand => "Ampersand" | less => "Less"
  | lessEq => "LessEq" | greater => "Greater" | greaterEq => "GreaterEq"
  | identifier => "Identifier" | number => "Number" | string => "String"

end Kind

/-- The words that are not identifiers. -/
def keywords : List (String × Kind) :=
  [("let", .letKw), ("match", .matchKw), ("infer", .inferKw), ("extends", .extendsKw),
   ("number", .numberKw), ("string", .stringKw), ("type", .typeKw), ("if", .ifKw),
   ("then", .thenKw), ("else", .elseKw), ("export", .exportKw), ("import", .importKw),
   ("from", .fromKw), ("in", .inKw), ("as", .asKw)]

/-- The kind of a keyword. -/
def keyword? (word : String) : Option Kind := keywords.lookup word

/-- Punctuation and operators.  A spelling that extends another one comes before it, so
the first entry that fits is the longest that fits. -/
def symbols : List (List Char × Kind) :=
  [(['=', '>'], .fatArrow), (['=', '='], .eqEq), (['-', '>'], .thinArrow),
   (['!', '='], .bangEq), (['&', '&'], .andAnd), (['|', '|'], .orOr),
   (['*', '*'], .starStar), (['<', '='], .lessEq), (['>', '='], .greaterEq),
   (['#'], .hash), (['?'], .question), ([';'], .semicolon), ([':'], .colon),
   (['\x7b'], .lbrace), (['\x7d'], .rbrace), (['('], .lparen), ([')'], .rparen),
   (['['], .lbracket), ([']'], .rbracket), ([','], .comma), (['.'], .dot),
   (['\\'], .backslash), (['\x60'], .backtick), (['='], .assign), (['!'], .bang),
   (['+'], .plus), (['-'], .minus), (['*'], .star), (['/'], .slash), (['%'], .percent),
   (['|'], .pipe), (['&'], .ampersand), (['<'], .less), (['>'], .greater)]

/-- A token: its kind, the text it was read from, and where that text starts. -/
structure Token where
  kind : Kind
  text : String
  pos : Position
deriving DecidableEq

namespace Token

/-- The line of a token in a listing. -/
def render (t : Token) : String :=
  "Token(" ++ t.kind.name ++ ", " ++ Text.quoted t.text ++ ", " ++ t.pos.render ++ ")"

end Token

end TypeForge
