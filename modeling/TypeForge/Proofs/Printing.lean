import TypeForge.Parser.Expr
import TypeForge.Proofs.Token.Words

/-!
# Printing programs

Programs as words with as few parentheses as the precedence of the operators allows, and as
text with a space between any two words.  An operand is printed with the least power it has
to have in its place, and stands in parentheses if it has less: the left operand of an
operator may have the operator's own power, the right one must have more, and only for
assignments it is the other way round.  Lambdas, conditionals and pattern variables run as
far as they can and have no power at all.

Not every syntax tree has a text: a name has to be an identifier, a string cannot hold both
kinds of quotes, and the grammar asks for at least one item in most lists.
-/

namespace TypeForge

/-! ## Precedence -/

/-- The token of an operator. -/
def BinaryOp.kind : BinaryOp → Kind
  | add => .plus | sub => .minus | mul => .star | div => .slash | pow => .starStar
  | mod => .percent | lt => .less | le => .lessEq | gt => .greater | ge => .greaterEq
  | eq => .eqEq | notEq => .bangEq | union => .pipe | intersection => .ampersand

/-- The token of an operator. -/
def LogicalOp.kind : LogicalOp → Kind
  | and => .andAnd | or => .orOr

/-- The token of an operator. -/
def UnaryOp.kind : UnaryOp → Kind
  | negate => .minus | plus => .plus | not => .bang

/-- Multiplication and what binds like it, then addition, comparison and equality. -/
def BinaryOp.power : BinaryOp → Nat
  | mul | div | pow | mod | union | intersection => 13
  | add | sub => 11
  | lt | le | gt | ge => 9
  | eq | notEq => 7

/-- Conjunction binds looser than equality, and disjunction looser still. -/
def LogicalOp.power : LogicalOp → Nat
  | and => 5
  | or => 3

/-- How tightly the outermost operator of an expression binds: calls and member accesses
tightest, then prefix operators, the binary ones and assignment. -/
def Expr.power : Expr → Nat
  | .lambda .. | .conditional .. | .infer .. => 0
  | .assignment .. => 1
  | .logical _ op .. => op.power
  | .binary _ op .. => op.power
  | .unary .. => 15
  | .call .. | .field .. | .index .. => 17
  | _ => 18

/-! ## Words -/

/-- The word of a name. -/
def nameWord (name : String) : Word := ⟨.identifier, name⟩

/-- A quote that does not occur in the text, unless both do. -/
def quoteFor (text : String) : Char := if '\x22' ∈ text.toList then '\x27' else '\x22'

/-- The word of a string. -/
def stringWord (text : String) : Word :=
  ⟨.string, String.ofList (quoteFor text :: text.toList ++ [quoteFor text])⟩

/-- Items with commas between them. -/
def commaWords : List (List Word) → List Word := separatedWords Kind.comma.word

/-- The words of an operand in a place that asks for at least the power `least`. -/
def enclose (least power : Nat) (ws : List Word) : List Word :=
  if power < least then Kind.lparen.word :: (ws ++ [Kind.rparen.word]) else ws

/-- A parameter list in parentheses. -/
def paramListWords (params : List (List Word)) : List Word :=
  Kind.lparen.word :: (commaWords params ++ [Kind.rparen.word])

/-- The parameters of a lambda; a single name needs no parentheses. -/
def lambdaHead : List (List Word) → List Word
  | [[w]] => [w]
  | params => paramListWords params

/-- Statements between braces behind a colon. -/
def blockWords (stmts : List (List Word)) : List Word :=
  Kind.colon.word :: Kind.lbrace.word :: (stmts.flatten ++ [Kind.rbrace.word])

/-- The question mark of an optional property. -/
def optionalWords (optional : Bool) : List Word := if optional then [Kind.question.word] else []

mutual

/-- The words of an expression. -/
@[simp] def Expr.words : Expr → List Word
  | .assignment _ target value =>
    enclose 2 target.power target.words ++ Kind.assign.word :: enclose 1 value.power value.words
  | .binary _ op lhs rhs =>
    enclose op.power lhs.power lhs.words ++
      op.kind.word :: enclose (op.power + 1) rhs.power rhs.words
  | .logical _ op lhs rhs =>
    enclose op.power lhs.power lhs.words ++
      op.kind.word :: enclose (op.power + 1) rhs.power rhs.words
  | .unary _ op operand => op.kind.word :: enclose 15 operand.power operand.words
  | .conditional _ test consequent alternate =>
    Kind.ifKw.word :: (test.words ++
      Kind.thenKw.word :: (consequent.words ++ Kind.elseKw.word :: alternate.words))
  | .call _ callee args =>
    enclose 17 callee.power callee.words ++
      Kind.lparen.word :: (commaWords (exprWords args) ++ [Kind.rparen.word])
  | .field _ object name =>
    enclose 17 object.power object.words ++ [Kind.dot.word, nameWord name]
  | .index _ object key =>
    enclose 17 object.power object.words ++ Kind.lbracket.word :: (key.words ++ [Kind.rbracket.word])
  | .lambda _ params body => lambdaHead (paramWords params) ++ Kind.fatArrow.word :: body.words
  | .block _ body => blockWords (stmtWords body)
  | .matching _ scrutinee arms =>
    Kind.matchKw.word :: (scrutinee.words ++
      Kind.lbrace.word :: (commaWords (armWords arms) ++ [Kind.rbrace.word]))
  -- The text of a template string is not made of words; a mark stands in its place.
  | .template .. => [Kind.backtick.word]
  | .object _ properties =>
    Kind.lbrace.word :: (commaWords (propertyWords properties) ++ [Kind.rbrace.word])
  | .mapped _ key union renamed optional value =>
    Kind.lbrace.word :: Kind.lbracket.word :: nameWord key :: Kind.inKw.word ::
      (union.words ++ (behindWords .asKw renamed ++ Kind.rbracket.word ::
        (optionalWords optional ++ Kind.colon.word :: (value.words ++ [Kind.rbrace.word]))))
  | .tuple _ elements =>
    Kind.lbracket.word :: (commaWords (exprWords elements) ++ [Kind.rbracket.word])
  | .infer _ name bound => Kind.inferKw.word :: nameWord name :: behindWords .extendsKw bound
  | .ident _ name => [nameWord name]
  | .number _ digits => [⟨.number, digits⟩]
  | .string _ text => [stringWord text]
  | .numberType _ => [Kind.numberKw.word]
  | .stringType _ => [Kind.stringKw.word]

/-- The words of an optional part behind a token. -/
@[simp] def behindWords (kind : Kind) : Option Expr → List Word
  | none => []
  | some e => kind.word :: e.words

/-- The words of expressions, one by one. -/
@[simp] def exprWords : List Expr → List (List Word)
  | [] => []
  | e :: es => e.words :: exprWords es

/-- The words of a parameter. -/
@[simp] def Param.words : Param → List Word
  | .mk _ name bound => nameWord name :: behindWords .colon bound

/-- The words of parameters, one by one. -/
@[simp] def paramWords : List Param → List (List Word)
  | [] => []
  | p :: ps => p.words :: paramWords ps

/-- The words of a statement without a semicolon. -/
@[simp] def Stmt.words : Stmt → List Word
  | .letDecl _ name value =>
    Kind.letKw.word :: nameWord name :: Kind.assign.word :: value.words
  | .assertEqual _ left right =>
    nameWord Parser.assertionName :: Kind.lparen.word :: (left.words ++ Kind.comma.word ::
      (right.words ++ [Kind.rparen.word]))
  | .expr _ value => value.words

/-- The words of statements, one by one, each with a semicolon behind it. -/
@[simp] def stmtWords : List Stmt → List (List Word)
  | [] => []
  | s :: ss => (s.words ++ [Kind.semicolon.word]) :: stmtWords ss

/-- The words of a match arm. -/
@[simp] def Arm.words : Arm → List Word
  | .mk _ pattern result => pattern.words ++ Kind.thinArrow.word :: result.words

/-- The words of match arms, one by one. -/
@[simp] def armWords : List Arm → List (List Word)
  | [] => []
  | a :: as => a.words :: armWords as

/-- The words of a property. -/
@[simp] def Property.words : Property → List Word
  | .named _ name optional value =>
    nameWord name :: (optionalWords optional ++ Kind.colon.word :: value.words)
  | .computed _ key optional value =>
    Kind.lbracket.word :: (key.words ++ Kind.rbracket.word ::
      (optionalWords optional ++ Kind.colon.word :: value.words))

/-- The words of properties, one by one. -/
@[simp] def propertyWords : List Property → List (List Word)
  | [] => []
  | p :: ps => p.words :: propertyWords ps

end

/-- The words of a top-level item. -/
def TopLevel.words : TopLevel → List Word
  | .definition d =>
    (if d.isExported then [Kind.exportKw.word] else []) ++ Kind.typeKw.word :: nameWord d.name ::
      ((if d.params.isEmpty then [] else paramListWords (paramWords d.params)) ++
        Kind.assign.word :: (d.body.words ++ [Kind.semicolon.word]))
  | .sectionOf s =>
    Kind.hash.word :: Kind.lbracket.word :: nameWord s.name :: Kind.rbracket.word ::
      blockWords (stmtWords s.body)
  | .importOf i =>
    Kind.importKw.word :: Kind.lbrace.word :: (commaWords (i.symbols.map fun name => [nameWord name]) ++
      [Kind.rbrace.word, Kind.fromKw.word, stringWord i.source, Kind.semicolon.word])

/-- The words of a program. -/
def Program.words (program : Program) : List Word := (program.body.map TopLevel.words).flatten

/-- The text of a program. -/
def Program.text (program : Program) : String := " ".intercalate (program.words.map Word.text)

/-! ## Printable trees -/

/-- Whether a text can be a name. -/
def isName (text : String) : Bool := isIdentifier text && text != Parser.assertionName

/-- Whether some quote does not occur in a text. -/
def isQuotable (text : String) : Bool := !(text.toList.contains '\x22' && text.toList.contains '\x27')

mutual

/-- Whether an expression has a text. -/
@[simp] def Expr.isPrintable : Expr → Bool
  | .assignment _ target value => target.isTarget && target.isPrintable && value.isPrintable
  | .binary _ _ lhs rhs => lhs.isPrintable && rhs.isPrintable
  | .logical _ _ lhs rhs => lhs.isPrintable && rhs.isPrintable
  | .unary _ _ operand => operand.isPrintable
  | .conditional _ test consequent alternate =>
    test.isPrintable && consequent.isPrintable && alternate.isPrintable
  | .call _ callee args => callee.isPrintable && printableExprs args
  | .field _ object name => object.isPrintable && isName name
  | .index _ object key => object.isPrintable && key.isPrintable
  | .lambda _ params body => printableParams params && body.isPrintable
  | .block _ body => !body.isEmpty && printableStmts body
  | .matching _ scrutinee arms => scrutinee.isPrintable && !arms.isEmpty && printableArms arms
  | .template .. => false
  | .object _ properties => printableProperties properties
  | .mapped _ key union renamed _ value =>
    isName key && union.isPrintable && printableOption renamed && value.isPrintable
  | .tuple _ elements => printableExprs elements
  | .infer _ name bound => isName name && printableOption bound
  | .ident _ name => isName name
  | .number _ digits => isNumber digits
  | .string _ text => isQuotable text
  | .numberType _ | .stringType _ => true

/-- Whether an optional part has a text. -/
@[simp] def printableOption : Option Expr → Bool
  | none => true
  | some e => e.isPrintable

/-- Whether all expressions have a text. -/
@[simp] def printableExprs : List Expr → Bool
  | [] => true
  | e :: es => e.isPrintable && printableExprs es

/-- Whether a parameter has a text. -/
@[simp] def Param.isPrintable : Param → Bool
  | .mk _ name bound => isName name && printableOption bound

/-- Whether all parameters have a text. -/
@[simp] def printableParams : List Param → Bool
  | [] => true
  | p :: ps => p.isPrintable && printableParams ps

/-- Whether a statement has a text. -/
@[simp] def Stmt.isPrintable : Stmt → Bool
  | .letDecl _ name value => isName name && value.isPrintable
  | .assertEqual _ left right => left.isPrintable && right.isPrintable
  | .expr _ value => value.isPrintable

/-- Whether all statements have a text. -/
@[simp] def printableStmts : List Stmt → Bool
  | [] => true
  | s :: ss => s.isPrintable && printableStmts ss

/-- Whether a match arm has a text. -/
@[simp] def Arm.isPrintable : Arm → Bool
  | .mk _ pattern result => pattern.isPrintable && result.isPrintable

/-- Whether all match arms have a text. -/
@[simp] def printableArms : List Arm → Bool
  | [] => true
  | a :: as => a.isPrintable && printableArms as

/-- Whether a property has a text. -/
@[simp] def Property.isPrintable : Property → Bool
  | .named _ name _ value => isName name && value.isPrintable
  | .computed _ key _ value => key.isPrintable && value.isPrintable

/-- Whether all properties have a text. -/
@[simp] def printableProperties : List Property → Bool
  | [] => true
  | p :: ps => p.isPrintable && printableProperties ps

end

/-- Whether a top-level item has a text. -/
def TopLevel.isPrintable : TopLevel → Bool
  | .definition d => isName d.name && printableParams d.params && d.body.isPrintable
  | .sectionOf s => isName s.name && !s.body.isEmpty && printableStmts s.body
  | .importOf i => !i.symbols.isEmpty && i.symbols.all isName && isQuotable i.source

/-- Whether a program has a text. -/
def Program.isPrintable (program : Program) : Bool :=
  !program.body.isEmpty && program.body.all TopLevel.isPrintable

/-! ## Trees without positions -/

mutual

/-- An expression with all its positions reset. -/
@[simp] def Expr.unlocated : Expr → Expr
  | .assignment _ target value => .assignment .start target.unlocated value.unlocated
  | .binary _ op lhs rhs => .binary .start op lhs.unlocated rhs.unlocated
  | .logical _ op lhs rhs => .logical .start op lhs.unlocated rhs.unlocated
  | .unary _ op operand => .unary .start op operand.unlocated
  | .conditional _ test consequent alternate =>
    .conditional .start test.unlocated consequent.unlocated alternate.unlocated
  | .call _ callee args => .call .start callee.unlocated (unlocatedExprs args)
  | .field _ object name => .field .start object.unlocated name
  | .index _ object key => .index .start object.unlocated key.unlocated
  | .lambda _ params body => .lambda .start (unlocatedParams params) body.unlocated
  | .block _ body => .block .start (unlocatedStmts body)
  | .matching _ scrutinee arms => .matching .start scrutinee.unlocated (unlocatedArms arms)
  | .template _ parts => .template .start (unlocatedParts parts)
  | .object _ properties => .object .start (unlocatedProperties properties)
  | .mapped _ key union renamed optional value =>
    .mapped .start key union.unlocated (unlocatedOption renamed) optional value.unlocated
  | .tuple _ elements => .tuple .start (unlocatedExprs elements)
  | .infer _ name bound => .infer .start name (unlocatedOption bound)
  | .ident _ name => .ident .start name
  | .number _ digits => .number .start digits
  | .string _ text => .string .start text
  | .numberType _ => .numberType .start
  | .stringType _ => .stringType .start

/-- An optional part with all its positions reset. -/
@[simp] def unlocatedOption : Option Expr → Option Expr
  | none => none
  | some e => some e.unlocated

/-- Expressions with all their positions reset. -/
@[simp] def unlocatedExprs : List Expr → List Expr
  | [] => []
  | e :: es => e.unlocated :: unlocatedExprs es

/-- A parameter with all its positions reset. -/
@[simp] def Param.unlocated : Param → Param
  | .mk _ name bound => .mk .start name (unlocatedOption bound)

/-- Parameters with all their positions reset. -/
@[simp] def unlocatedParams : List Param → List Param
  | [] => []
  | p :: ps => p.unlocated :: unlocatedParams ps

/-- A statement with all its positions reset. -/
@[simp] def Stmt.unlocated : Stmt → Stmt
  | .letDecl _ name value => .letDecl .start name value.unlocated
  | .assertEqual _ left right => .assertEqual .start left.unlocated right.unlocated
  | .expr _ value => .expr .start value.unlocated

/-- Statements with all their positions reset. -/
@[simp] def unlocatedStmts : List Stmt → List Stmt
  | [] => []
  | s :: ss => s.unlocated :: unlocatedStmts ss

/-- A match arm with all its positions reset. -/
@[simp] def Arm.unlocated : Arm → Arm
  | .mk _ pattern result => .mk .start pattern.unlocated result.unlocated

/-- Match arms with all their positions reset. -/
@[simp] def unlocatedArms : List Arm → List Arm
  | [] => []
  | a :: as => a.unlocated :: unlocatedArms as

/-- Parts of a template string with all their positions reset. -/
@[simp] def unlocatedParts : List Part → List Part
  | [] => []
  | .text text :: ps => .text text :: unlocatedParts ps
  | .expr value :: ps => .expr value.unlocated :: unlocatedParts ps

/-- A property with all its positions reset. -/
@[simp] def Property.unlocated : Property → Property
  | .named _ name optional value => .named .start name optional value.unlocated
  | .computed _ key optional value => .computed .start key.unlocated optional value.unlocated

/-- Properties with all their positions reset. -/
@[simp] def unlocatedProperties : List Property → List Property
  | [] => []
  | p :: ps => p.unlocated :: unlocatedProperties ps

end

theorem Expr.isTarget_unlocated (e : Expr) : e.unlocated.isTarget = e.isTarget := by
  cases e <;> rfl

/-- A top-level item with all its positions reset. -/
def TopLevel.unlocated : TopLevel → TopLevel
  | .definition d =>
    .definition ⟨.start, d.isExported, d.name, unlocatedParams d.params, d.body.unlocated⟩
  | .sectionOf s => .sectionOf ⟨.start, s.name, unlocatedStmts s.body⟩
  | .importOf i => .importOf ⟨.start, i.symbols, i.source⟩

/-- A program with all its positions reset. -/
def Program.unlocated (program : Program) : Program := ⟨program.body.map TopLevel.unlocated⟩

end TypeForge
