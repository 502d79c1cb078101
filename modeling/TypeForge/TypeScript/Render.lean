import TypeForge.TypeScript

/-!
# The text of target code

Rendering is the only place where target code becomes text, and the only place that
depends on the target: it decides under which names the libraries are imported.
-/

namespace TypeForge.TypeScript

/-- One character of a string literal. -/
def literalChar (c : Char) : List Char :=
  if c = '\\' then ['\\', '\\']
  else if c = '\x22' then ['\\', '\x22']
  else if c = '\n' then ['\\', 'n']
  else if c = '\r' then ['\\', 'r']
  else [c]

/-- A string between double quotes; backslashes, quotes and line breaks are escaped. -/
def stringLiteral (s : String) : String :=
  String.ofList (['\x22'] ++ s.toList.flatMap literalChar ++ ['\x22'])

/-- The spelling of a name. -/
def Name.render : Name → String
  | user text => text
  | temp id => "temp_" ++ toString id
  | lambda id => "lambda_temp_" ++ toString id
  | arm id => "arm_temp_" ++ toString id

/-- The spelling of a keyword. -/
def Keyword.render : Keyword → String
  | any => "any" | never => "never" | unknown => "unknown" | number => "number"
  | string => "string" | true => "true" | false => "false"

/-- The spelling of an argument of the enclosing interface. -/
def argText (number : Nat) : String := "this[\"arg" ++ toString number ++ "\"]"

/-- A comment that tells the source name of a reference. -/
def originText (name : String) : String := " /** " ++ name ++ " */"

/-- The mark of an optional field. -/
def optionalText (optional : Bool) : String := if optional then "?" else ""

/-- Texts with a comma between them. -/
def commaSeparated (texts : List String) : String := ", ".intercalate texts

mutual

/-- The text of a type. -/
def Ty.render : Ty → String
  | .name name => name.render
  | .symbol symbol none => symbol.name
  | .symbol symbol (some member) => symbol.name ++ "." ++ member
  | .arg number => argText number
  | .param number origin => argText number ++ originText origin
  | .captured slot origin => argText 0 ++ "[" ++ toString slot ++ "]" ++ originText origin
  | .number digits => digits
  | .string text => stringLiteral text
  | .keyword keyword => keyword.render
  | .apply head args => head.render ++ "<" ++ commaSeparated (tyTexts args) ++ ">"
  | .paren inner => "(" ++ inner.render ++ ")"
  | .operation op lhs rhs => lhs.render ++ " " ++ op.text ++ " " ++ rhs.render
  | .index object key => object.render ++ "[" ++ key.render ++ "]"
  | .conditional check pattern yes no =>
    check.render ++ " extends " ++ pattern.render ++ " ? " ++ yes.render ++ " : " ++ no.render
  | .infer name none => "infer " ++ name.render
  | .infer name (some bound) => "infer " ++ name.render ++ " extends " ++ bound.render
  | .tuple elements => "[" ++ commaSeparated (tyTexts elements) ++ "]"
  | .object fields => "\x7b" ++ commaSeparated (fieldTexts fields) ++ "\x7d"
  | .mapped key union none optional value =>
    "\x7b[" ++ key ++ " in " ++ union.render ++ "]" ++ optionalText optional ++ ": "
      ++ value.render ++ "\x7d"
  | .mapped key union (some renamed) optional value =>
    "\x7b[" ++ key ++ " in " ++ union.render ++ " as " ++ renamed.render ++ "]"
      ++ optionalText optional ++ ": " ++ value.render ++ "\x7d"
  | .template parts => "`" ++ pieceText parts ++ "`"

/-- The texts of a list of types. -/
def tyTexts : List Ty → List String
  | [] => []
  | t :: ts => t.render :: tyTexts ts

/-- The texts of the fields of an object type. -/
def fieldTexts : List Field → List String
  | [] => []
  | .named name optional value :: fs =>
    (stringLiteral name ++ optionalText optional ++ ": " ++ value.render) :: fieldTexts fs
  | .computed key optional value :: fs =>
    ("[" ++ key.render ++ "]" ++ optionalText optional ++ ": " ++ value.render) :: fieldTexts fs

/-- The text between the backticks of a template literal type. -/
def pieceText : List Piece → String
  | [] => ""
  | .text text :: ps => text ++ pieceText ps
  | .ty value :: ps => "$\x7b" ++ value.render ++ "\x7d" ++ pieceText ps

end

theorem Ty.render_mapped (key : String) (union : Ty) (optional : Bool) (value : Ty) :
    (mapped key union none optional value).render = "\x7b[" ++ key ++ " in " ++ union.render ++ "]"
      ++ optionalText optional ++ ": " ++ value.render ++ "\x7d" := rfl

theorem Ty.render_mapped_renamed (key : String) (union renamed : Ty) (optional : Bool) (value : Ty) :
    (mapped key union (some renamed) optional value).render = "\x7b[" ++ key ++ " in " ++ union.render
      ++ " as " ++ renamed.render ++ "]" ++ optionalText optional ++ ": " ++ value.render ++ "\x7d" := rfl

/-- The text of a lifted function. -/
def Interface.render (i : Interface) : String :=
  "interface " ++ i.name.render ++ " extends " ++ Symbol.fn.name ++ " \x7b\n  return: "
    ++ i.body.render ++ ";\n\x7d"

/-- The text of a named type. -/
def Alias.render (a : Alias) : String := "type " ++ a.name.render ++ " = " ++ a.value.render

/-- The text of what a top-level item became. -/
def Declaration.render : Declaration → String
  | .named isExported a => (if isExported then "export " else "") ++ a.render ++ ";"
  | .group name body =>
    "// " ++ name ++ "\nnamespace " ++ name ++ " \x7b\n"
      ++ String.join (body.map fun a => "  " ++ a.render ++ ";\n") ++ "\x7d"
  | .importOf symbols source =>
    "import \x7b " ++ commaSeparated symbols ++ " \x7d from " ++ stringLiteral source ++ ";"

/-- The import of the given symbols of a library. -/
def importLine (target : Target) (library : Library) (names : List String) : String :=
  "import \x7b " ++ commaSeparated (names.map ("type " ++ ·)) ++ " \x7d from \""
    ++ library.module target ++ "\";"

namespace Module

/-- The names imported from a library. -/
def importsOf (m : Module) (library : Library) : List String :=
  (m.imports.filter (·.library == library)).map Symbol.name

/-- The imports, one line per library that is used. -/
def importLines (m : Module) (target : Target) : List String :=
  Library.all.filterMap fun library =>
    match m.importsOf library with
    | [] => none
    | names => some (importLine target library names)

/-- The parts that are separated by blank lines. -/
def blocks (m : Module) (target : Target) : List String :=
  (match m.importLines target with
    | [] => []
    | lines => ["\n".intercalate lines])
    ++ m.lifted.map Interface.render ++ m.items.map Declaration.render

/-- The text of a module. -/
def render (m : Module) (target : Target) : String :=
  "\n\n".intercalate (m.blocks target) ++ "\n"

end Module

end TypeForge.TypeScript
