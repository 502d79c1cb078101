import TypeForge.Ast
import TypeForge.Text.Quoted

/-!
# Outlines

An outline is a tree of lines; rendered, each line is indented by two blanks per
level.  The outline of a syntax tree shows everything but positions.
-/

namespace TypeForge

/-- A tree of lines. -/
inductive Outline where
  | node (line : String) (children : List Outline)

namespace Outline

/-- A line without children. -/
def leaf (line : String) : Outline := node line []

/-- The indentation of a line at the given depth. -/
def indent (depth : Nat) : String := String.ofList (List.replicate (2 * depth) ' ')

mutual

/-- The lines of an outline whose root stands at the given depth. -/
def renderAt (depth : Nat) : Outline → String
  | node line children => indent depth ++ line ++ "\n" ++ renderAllAt (depth + 1) children

/-- The lines of neighbouring outlines. -/
def renderAllAt (depth : Nat) : List Outline → String
  | [] => ""
  | o :: os => renderAt depth o ++ renderAllAt depth os

end

/-- The text of an outline. -/
def render (o : Outline) : String := renderAt 0 o

end Outline

/-- The mark of an optional property. -/
def optionalMark (optional : Bool) : String := if optional then "?" else ""

/-- A sub-heading that is left out when it has nothing to head. -/
def headed (line : String) : List Outline → List Outline
  | [] => []
  | os => [.node line os]

mutual

/-- The outline of an expression. -/
def Expr.outline : Expr → Outline
  | .assignment _ target value => .node "assignment" [target.outline, value.outline]
  | .binary _ op lhs rhs => .node ("binary " ++ op.name) [lhs.outline, rhs.outline]
  | .logical _ op lhs rhs => .node ("logical " ++ op.name) [lhs.outline, rhs.outline]
  | .unary _ op operand => .node ("unary " ++ op.name) [operand.outline]
  | .conditional _ test consequent alternate =>
    .node "conditional" [test.outline, consequent.outline, alternate.outline]
  | .call _ callee args => .node "call" (callee.outline :: headed "arguments" (exprOutlines args))
  | .field _ object name => .node ("member ." ++ name) [object.outline]
  | .index _ object key => .node "member [..]" [object.outline, key.outline]
  | .lambda _ params body => .node "lambda" (paramOutlines params ++ [body.outline])
  | .block _ body => .node "block" (stmtOutlines body)
  | .matching _ scrutinee arms => .node "match" (scrutinee.outline :: armOutlines arms)
  | .template _ parts => .node "template" (partOutlines parts)
  | .object _ properties => .node "object" (propertyOutlines properties)
  | .mapped _ key union none optional value =>
    .node ("mapped " ++ key ++ optionalMark optional) [union.outline, value.outline]
  | .mapped _ key union (some renamed) optional value =>
    .node ("mapped " ++ key ++ optionalMark optional)
      [union.outline, .node "as" [renamed.outline], value.outline]
  | .tuple _ elements => .node "tuple" (exprOutlines elements)
  | .infer _ name none => .leaf ("infer " ++ name)
  | .infer _ name (some bound) => .node ("infer " ++ name) [bound.outline]
  | .ident _ name => .leaf ("ident " ++ name)
  | .number _ digits => .leaf ("number " ++ digits)
  | .string _ text => .leaf ("string " ++ Text.quoted text)
  | .numberType _ => .leaf "keyword number"
  | .stringType _ => .leaf "keyword string"

/-- The outlines of a list of expressions. -/
def exprOutlines : List Expr → List Outline
  | [] => []
  | e :: es => e.outline :: exprOutlines es

/-- The outlines of parameters, with their bounds below them. -/
def paramOutlines : List Param → List Outline
  | [] => []
  | .mk _ name none :: ps => .leaf ("param " ++ name) :: paramOutlines ps
  | .mk _ name (some bound) :: ps => .node ("param " ++ name) [bound.outline] :: paramOutlines ps

/-- The outlines of statements; one that is an expression looks like the expression. -/
def stmtOutlines : List Stmt → List Outline
  | [] => []
  | .letDecl _ name value :: ss => .node ("let " ++ name) [value.outline] :: stmtOutlines ss
  | .assertEqual _ left right :: ss =>
    .node "assert-equal" [left.outline, right.outline] :: stmtOutlines ss
  | .expr _ value :: ss => value.outline :: stmtOutlines ss

/-- The outlines of match arms. -/
def armOutlines : List Arm → List Outline
  | [] => []
  | .mk _ pattern result :: as => .node "arm" [pattern.outline, result.outline] :: armOutlines as

/-- The outlines of the parts of a template string. -/
def partOutlines : List Part → List Outline
  | [] => []
  | .text text :: ps => .leaf ("text " ++ Text.quoted text) :: partOutlines ps
  | .expr value :: ps => value.outline :: partOutlines ps

/-- The outlines of object properties, computed keys above values. -/
def propertyOutlines : List Property → List Outline
  | [] => []
  | .named _ name optional value :: ps =>
    .node ("property " ++ name ++ optionalMark optional) [value.outline] :: propertyOutlines ps
  | .computed _ key optional value :: ps =>
    .node ("property [..]" ++ optionalMark optional) [key.outline, value.outline]
      :: propertyOutlines ps

end

/-- The outline of a top-level item. -/
def TopLevel.outline : TopLevel → Outline
  | .definition d =>
    .node ("definition " ++ d.name ++ (if d.isExported then " (exported)" else ""))
      (paramOutlines d.params ++ [d.body.outline])
  | .sectionOf s => .node ("section " ++ s.name) (stmtOutlines s.body)
  | .importOf i =>
    .leaf ("import \x7b" ++ ", ".intercalate i.symbols ++ "\x7d from " ++ Text.quoted i.source)

/-- The outlines of a program's items, one below the other. -/
def Program.outline (program : Program) : String :=
  Outline.renderAllAt 0 (program.body.map TopLevel.outline)

end TypeForge
