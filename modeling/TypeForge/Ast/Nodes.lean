import TypeForge.Ast

/-!
# Node listings

All nodes of a syntax tree with their positions, each before what it consists of and
its parts in source order.
-/

namespace TypeForge

/-- What a node of a syntax tree is. -/
inductive NodeKind where
  | definition | sectionOf | importOf | param | letDecl | assertEqual | exprStmt
  | assignment | binary | logical | unary | conditional | call | member | lambda | block
  | matching | arm | template | object | property | mapped | tuple | infer | ident
  | number | string | numberType | stringType
deriving DecidableEq

/-- The name of a kind of node in listings. -/
def NodeKind.name : NodeKind → String
  | definition => "Definition" | sectionOf => "Section" | importOf => "Import"
  | param => "Param" | letDecl => "Let" | assertEqual => "AssertEqual"
  | exprStmt => "Expression" | assignment => "Assignment" | binary => "Binary"
  | logical => "Logical" | unary => "Unary" | conditional => "Conditional" | call => "Call"
  | member => "Member" | lambda => "Lambda" | block => "Block" | matching => "Match"
  | arm => "Arm" | template => "TemplateString" | object => "Object"
  | property => "Property" | mapped => "MappedType" | tuple => "Tuple"
  | infer => "InferredVariable" | ident => "Identifier" | number => "Number"
  | string => "String" | numberType => "NumberKeyword" | stringType => "StringKeyword"

/-- A node of a syntax tree and where it starts. -/
abbrev Node := Located NodeKind

/-- The entry of a node in a listing. -/
def Node.render (node : Node) : String := node.value.name ++ " " ++ node.pos.render

mutual

/-- The nodes of an expression. -/
def Expr.nodes : Expr → List Node
  | .assignment p target value => ⟨p, .assignment⟩ :: (target.nodes ++ value.nodes)
  | .binary p _ lhs rhs => ⟨p, .binary⟩ :: (lhs.nodes ++ rhs.nodes)
  | .logical p _ lhs rhs => ⟨p, .logical⟩ :: (lhs.nodes ++ rhs.nodes)
  | .unary p _ operand => ⟨p, .unary⟩ :: operand.nodes
  | .conditional p test consequent alternate =>
    ⟨p, .conditional⟩ :: (test.nodes ++ consequent.nodes ++ alternate.nodes)
  | .call p callee args => ⟨p, .call⟩ :: (callee.nodes ++ exprNodes args)
  | .field p object _ => ⟨p, .member⟩ :: object.nodes
  | .index p object key => ⟨p, .member⟩ :: (object.nodes ++ key.nodes)
  | .lambda p params body => ⟨p, .lambda⟩ :: (paramNodes params ++ body.nodes)
  | .block p body => ⟨p, .block⟩ :: stmtNodes body
  | .matching p scrutinee arms => ⟨p, .matching⟩ :: (scrutinee.nodes ++ armNodes arms)
  | .template p parts => ⟨p, .template⟩ :: partNodes parts
  | .object p properties => ⟨p, .object⟩ :: propertyNodes properties
  | .mapped p _ union none _ value => ⟨p, .mapped⟩ :: (union.nodes ++ value.nodes)
  | .mapped p _ union (some renamed) _ value =>
    ⟨p, .mapped⟩ :: (union.nodes ++ renamed.nodes ++ value.nodes)
  | .tuple p elements => ⟨p, .tuple⟩ :: exprNodes elements
  | .infer p _ none => [⟨p, .infer⟩]
  | .infer p _ (some bound) => ⟨p, .infer⟩ :: bound.nodes
  | .ident p _ => [⟨p, .ident⟩]
  | .number p _ => [⟨p, .number⟩]
  | .string p _ => [⟨p, .string⟩]
  | .numberType p => [⟨p, .numberType⟩]
  | .stringType p => [⟨p, .stringType⟩]

/-- The nodes of a list of expressions. -/
def exprNodes : List Expr → List Node
  | [] => []
  | e :: es => e.nodes ++ exprNodes es

/-- The nodes of parameters and their bounds. -/
def paramNodes : List Param → List Node
  | [] => []
  | .mk p _ none :: ps => ⟨p, .param⟩ :: paramNodes ps
  | .mk p _ (some bound) :: ps => ⟨p, .param⟩ :: (bound.nodes ++ paramNodes ps)

/-- The nodes of statements; one that is an expression has a node of its own. -/
def stmtNodes : List Stmt → List Node
  | [] => []
  | .letDecl p _ value :: ss => ⟨p, .letDecl⟩ :: (value.nodes ++ stmtNodes ss)
  | .assertEqual p left right :: ss =>
    ⟨p, .assertEqual⟩ :: (left.nodes ++ right.nodes ++ stmtNodes ss)
  | .expr p value :: ss => ⟨p, .exprStmt⟩ :: (value.nodes ++ stmtNodes ss)

/-- The nodes of match arms. -/
def armNodes : List Arm → List Node
  | [] => []
  | .mk p pattern result :: as => ⟨p, .arm⟩ :: (pattern.nodes ++ result.nodes ++ armNodes as)

/-- The nodes of the interpolated parts of a template string. -/
def partNodes : List Part → List Node
  | [] => []
  | .text _ :: ps => partNodes ps
  | .expr value :: ps => value.nodes ++ partNodes ps

/-- The nodes of object properties, with their computed keys. -/
def propertyNodes : List Property → List Node
  | [] => []
  | .named p _ _ value :: ps => ⟨p, .property⟩ :: (value.nodes ++ propertyNodes ps)
  | .computed p key _ value :: ps =>
    ⟨p, .property⟩ :: (key.nodes ++ value.nodes ++ propertyNodes ps)

end

/-- The nodes of a top-level item. -/
def TopLevel.nodes : TopLevel → List Node
  | .definition d => ⟨d.pos, .definition⟩ :: (paramNodes d.params ++ d.body.nodes)
  | .sectionOf s => ⟨s.pos, .sectionOf⟩ :: stmtNodes s.body
  | .importOf i => [⟨i.pos, .importOf⟩]

/-- The nodes of a program. -/
def Program.nodes (program : Program) : List Node := program.body.flatMap TopLevel.nodes

end TypeForge
