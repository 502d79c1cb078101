import TypeForge.Parser.Stream
import TypeForge.Proofs.Printing.Laws

/-!
# Moving syntax trees

A text that is put behind another one keeps its tokens and its syntax tree, but they are found
at other positions.  Everything that carries positions can be moved by a map on positions; the
map of interest moves a position down by some lines.
-/

namespace TypeForge

namespace Position

/-- The position `n` lines further down, in the same column. -/
def lowered (n : Nat) (p : Position) : Position := ⟨p.line + n, p.column⟩

theorem lowered_advance (n : Nat) (p : Position) (c : Char) :
    (p.advance c).lowered n = (p.lowered n).advance c := by
  unfold advance lowered
  split
  · simp only [Nat.add_right_comm]
  · rfl

/-- Moving down and reading on do not interfere. -/
theorem lowered_advanceOver (n : Nat) (p : Position) (cs : List Char) :
    (p.advanceOver cs).lowered n = (p.lowered n).advanceOver cs := by
  induction cs generalizing p with
  | nil => rfl
  | cons c cs ih => rw [advanceOver_cons, advanceOver_cons, ih, lowered_advance]

/-- The line behind a text is as many lines down as there are line feeds in it. -/
theorem line_advanceOver (p : Position) (cs : List Char) :
    (p.advanceOver cs).line = p.line + cs.count '\n' := by
  induction cs generalizing p with
  | nil => rfl
  | cons c cs ih =>
    rw [advanceOver_cons, ih, List.count_cons]
    unfold advance
    by_cases h : c = '\n'
    · simp only [h, if_true, beq_self_eq_true]
      omega
    · simp only [h, if_false, beq_iff_eq, Nat.add_zero]

end Position

/-! ## Syntax trees -/

section

variable (f : Position → Position)

mutual

/-- An expression with all its positions moved by `f`. -/
@[simp] def Expr.relocated : Expr → Expr
  | .assignment pos target value => .assignment (f pos) target.relocated value.relocated
  | .binary pos op lhs rhs => .binary (f pos) op lhs.relocated rhs.relocated
  | .logical pos op lhs rhs => .logical (f pos) op lhs.relocated rhs.relocated
  | .unary pos op operand => .unary (f pos) op operand.relocated
  | .conditional pos test consequent alternate =>
    .conditional (f pos) test.relocated consequent.relocated alternate.relocated
  | .call pos callee args => .call (f pos) callee.relocated (relocatedExprs args)
  | .field pos object name => .field (f pos) object.relocated name
  | .index pos object key => .index (f pos) object.relocated key.relocated
  | .lambda pos params body => .lambda (f pos) (relocatedParams params) body.relocated
  | .block pos body => .block (f pos) (relocatedStmts body)
  | .matching pos scrutinee arms => .matching (f pos) scrutinee.relocated (relocatedArms arms)
  | .template pos parts => .template (f pos) (relocatedParts parts)
  | .object pos properties => .object (f pos) (relocatedProperties properties)
  | .mapped pos key union renamed optional value =>
    .mapped (f pos) key union.relocated (relocatedOption renamed) optional value.relocated
  | .tuple pos elements => .tuple (f pos) (relocatedExprs elements)
  | .infer pos name bound => .infer (f pos) name (relocatedOption bound)
  | .ident pos name => .ident (f pos) name
  | .number pos digits => .number (f pos) digits
  | .string pos text => .string (f pos) text
  | .numberType pos => .numberType (f pos)
  | .stringType pos => .stringType (f pos)

/-- An optional part with all its positions moved. -/
@[simp] def relocatedOption : Option Expr → Option Expr
  | none => none
  | some e => some e.relocated

/-- Expressions with all their positions moved. -/
@[simp] def relocatedExprs : List Expr → List Expr
  | [] => []
  | e :: es => e.relocated :: relocatedExprs es

/-- A parameter with all its positions moved. -/
@[simp] def Param.relocated : Param → Param
  | .mk pos name bound => .mk (f pos) name (relocatedOption bound)

/-- Parameters with all their positions moved. -/
@[simp] def relocatedParams : List Param → List Param
  | [] => []
  | p :: ps => p.relocated :: relocatedParams ps

/-- A statement with all its positions moved. -/
@[simp] def Stmt.relocated : Stmt → Stmt
  | .letDecl pos name value => .letDecl (f pos) name value.relocated
  | .assertEqual pos left right => .assertEqual (f pos) left.relocated right.relocated
  | .expr pos value => .expr (f pos) value.relocated

/-- Statements with all their positions moved. -/
@[simp] def relocatedStmts : List Stmt → List Stmt
  | [] => []
  | s :: ss => s.relocated :: relocatedStmts ss

/-- A match arm with all its positions moved. -/
@[simp] def Arm.relocated : Arm → Arm
  | .mk pos pattern result => .mk (f pos) pattern.relocated result.relocated

/-- Match arms with all their positions moved. -/
@[simp] def relocatedArms : List Arm → List Arm
  | [] => []
  | a :: as => a.relocated :: relocatedArms as

/-- A part of a template string with all its positions moved. -/
@[simp] def Part.relocated : Part → Part
  | .text text => .text text
  | .expr value => .expr value.relocated

/-- Parts of a template string with all their positions moved. -/
@[simp] def relocatedParts : List Part → List Part
  | [] => []
  | p :: ps => p.relocated :: relocatedParts ps

/-- A property with all its positions moved. -/
@[simp] def Property.relocated : Property → Property
  | .named pos name optional value => .named (f pos) name optional value.relocated
  | .computed pos key optional value => .computed (f pos) key.relocated optional value.relocated

/-- Properties with all their positions moved. -/
@[simp] def relocatedProperties : List Property → List Property
  | [] => []
  | p :: ps => p.relocated :: relocatedProperties ps

end

@[simp] theorem relocatedOption_eq_map (e : Option Expr) :
    relocatedOption f e = e.map (Expr.relocated f) := by
  cases e <;> rfl

@[simp] theorem relocatedExprs_eq_map (es : List Expr) :
    relocatedExprs f es = es.map (Expr.relocated f) :=
  eq_map_of_cons rfl (fun _ _ => rfl) es

@[simp] theorem relocatedParams_eq_map (ps : List Param) :
    relocatedParams f ps = ps.map (Param.relocated f) :=
  eq_map_of_cons rfl (fun _ _ => rfl) ps

@[simp] theorem relocatedStmts_eq_map (ss : List Stmt) :
    relocatedStmts f ss = ss.map (Stmt.relocated f) :=
  eq_map_of_cons rfl (fun _ _ => rfl) ss

@[simp] theorem relocatedArms_eq_map (as : List Arm) :
    relocatedArms f as = as.map (Arm.relocated f) :=
  eq_map_of_cons rfl (fun _ _ => rfl) as

@[simp] theorem relocatedParts_eq_map (ps : List Part) :
    relocatedParts f ps = ps.map (Part.relocated f) :=
  eq_map_of_cons rfl (fun _ _ => rfl) ps

@[simp] theorem relocatedProperties_eq_map (ps : List Property) :
    relocatedProperties f ps = ps.map (Property.relocated f) :=
  eq_map_of_cons rfl (fun _ _ => rfl) ps

@[simp] theorem Expr.pos_relocated (e : Expr) : (e.relocated f).pos = f e.pos := by
  cases e <;> simp [Expr.pos]

@[simp] theorem Expr.isTarget_relocated (e : Expr) : (e.relocated f).isTarget = e.isTarget := by
  cases e <;> simp [Expr.isTarget]

/-- A definition with all its positions moved. -/
def Definition.relocated (d : Definition) : Definition :=
  ⟨f d.pos, d.isExported, d.name, d.params.map (Param.relocated f), d.body.relocated f⟩

/-- A section with all its positions moved. -/
def Section.relocated (s : Section) : Section :=
  ⟨f s.pos, s.name, s.body.map (Stmt.relocated f)⟩

/-- An import with its position moved. -/
def Import.relocated (i : Import) : Import := ⟨f i.pos, i.symbols, i.source⟩

/-- A top-level item with all its positions moved. -/
def TopLevel.relocated : TopLevel → TopLevel
  | .definition d => .definition (d.relocated f)
  | .sectionOf s => .sectionOf (s.relocated f)
  | .importOf i => .importOf (i.relocated f)

/-! Moving nothing changes nothing. -/

mutual

theorem Expr.relocated_id : ∀ e : Expr, e.relocated id = e
  | .assignment _ target value => by
    simp only [Expr.relocated, target.relocated_id, value.relocated_id, id_eq]
  | .binary _ _ lhs rhs | .logical _ _ lhs rhs => by
    simp only [Expr.relocated, lhs.relocated_id, rhs.relocated_id, id_eq]
  | .unary _ _ operand => by simp only [Expr.relocated, operand.relocated_id, id_eq]
  | .conditional _ test consequent alternate => by
    simp only [Expr.relocated, test.relocated_id, consequent.relocated_id, alternate.relocated_id,
      id_eq]
  | .call _ callee args => by
    simp only [Expr.relocated, callee.relocated_id, relocatedExprs_id args, id_eq]
  | .field _ object _ => by simp only [Expr.relocated, object.relocated_id, id_eq]
  | .index _ object key => by
    simp only [Expr.relocated, object.relocated_id, key.relocated_id, id_eq]
  | .lambda _ params body => by
    simp only [Expr.relocated, relocatedParams_id params, body.relocated_id, id_eq]
  | .block _ body => by simp only [Expr.relocated, relocatedStmts_id body, id_eq]
  | .matching _ scrutinee arms => by
    simp only [Expr.relocated, scrutinee.relocated_id, relocatedArms_id arms, id_eq]
  | .template _ parts => by simp only [Expr.relocated, relocatedParts_id parts, id_eq]
  | .object _ properties => by simp only [Expr.relocated, relocatedProperties_id properties, id_eq]
  | .mapped _ _ union renamed _ value => by
    simp only [Expr.relocated, union.relocated_id, relocatedOption_id renamed, value.relocated_id,
      id_eq]
  | .tuple _ elements => by simp only [Expr.relocated, relocatedExprs_id elements, id_eq]
  | .infer _ _ bound => by simp only [Expr.relocated, relocatedOption_id bound, id_eq]
  | .ident .. | .number .. | .string .. | .numberType _ | .stringType _ => by
    simp only [Expr.relocated, id_eq]

theorem relocatedOption_id : ∀ e : Option Expr, relocatedOption id e = e
  | none => rfl
  | some e => by simp only [relocatedOption, e.relocated_id]

theorem relocatedExprs_id : ∀ es : List Expr, relocatedExprs id es = es
  | [] => rfl
  | e :: es => by simp only [relocatedExprs, e.relocated_id, relocatedExprs_id es]

theorem Param.relocated_id : ∀ p : Param, p.relocated id = p
  | .mk _ _ bound => by simp only [Param.relocated, relocatedOption_id bound, id_eq]

theorem relocatedParams_id : ∀ ps : List Param, relocatedParams id ps = ps
  | [] => rfl
  | p :: ps => by simp only [relocatedParams, p.relocated_id, relocatedParams_id ps]

theorem Stmt.relocated_id : ∀ s : Stmt, s.relocated id = s
  | .letDecl _ _ value | .expr _ value => by simp only [Stmt.relocated, value.relocated_id, id_eq]
  | .assertEqual _ left right => by
    simp only [Stmt.relocated, left.relocated_id, right.relocated_id, id_eq]

theorem relocatedStmts_id : ∀ ss : List Stmt, relocatedStmts id ss = ss
  | [] => rfl
  | s :: ss => by simp only [relocatedStmts, s.relocated_id, relocatedStmts_id ss]

theorem Arm.relocated_id : ∀ a : Arm, a.relocated id = a
  | .mk _ pattern result => by
    simp only [Arm.relocated, pattern.relocated_id, result.relocated_id, id_eq]

theorem relocatedArms_id : ∀ as : List Arm, relocatedArms id as = as
  | [] => rfl
  | a :: as => by simp only [relocatedArms, a.relocated_id, relocatedArms_id as]

theorem Part.relocated_id : ∀ p : Part, p.relocated id = p
  | .text _ => rfl
  | .expr value => by simp only [Part.relocated, value.relocated_id]

theorem relocatedParts_id : ∀ ps : List Part, relocatedParts id ps = ps
  | [] => rfl
  | p :: ps => by simp only [relocatedParts, p.relocated_id, relocatedParts_id ps]

theorem Property.relocated_id : ∀ p : Property, p.relocated id = p
  | .named _ _ _ value => by simp only [Property.relocated, value.relocated_id, id_eq]
  | .computed _ key _ value => by
    simp only [Property.relocated, key.relocated_id, value.relocated_id, id_eq]

theorem relocatedProperties_id : ∀ ps : List Property, relocatedProperties id ps = ps
  | [] => rfl
  | p :: ps => by simp only [relocatedProperties, p.relocated_id, relocatedProperties_id ps]

end

theorem TopLevel.relocated_id (item : TopLevel) : item.relocated id = item := by
  cases item with
  | definition d =>
    have hparams : d.params.map (Param.relocated id) = d.params := by
      rw [← relocatedParams_eq_map, relocatedParams_id]
    simp only [relocated, Definition.relocated, hparams, Expr.relocated_id, id_eq]
  | sectionOf s =>
    have hbody : s.body.map (Stmt.relocated id) = s.body := by
      rw [← relocatedStmts_eq_map, relocatedStmts_id]
    simp only [relocated, Section.relocated, hbody, id_eq]
  | importOf i => rfl

/-! ## What is read -/

/-- The same token at another position. -/
def Token.relocated (t : Token) : Token := { t with pos := f t.pos }

/-- The same text at another position. -/
def Cursor.relocated (cur : Cursor) : Cursor := { cur with pos := f cur.pos }

/-- The same stream at another position. -/
def Stream.relocated (s : Stream) : Stream :=
  ⟨s.current.map (Token.relocated f), s.cursor.relocated f⟩

end

@[simp] theorem Token.kind_relocated (f : Position → Position) (t : Token) :
    (t.relocated f).kind = t.kind := rfl

@[simp] theorem Token.text_relocated (f : Position → Position) (t : Token) :
    (t.relocated f).text = t.text := rfl

@[simp] theorem Token.pos_relocated (f : Position → Position) (t : Token) :
    (t.relocated f).pos = f t.pos := rfl

end TypeForge
