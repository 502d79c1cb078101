import TypeForge.Proofs.Parser.Diagnostics

/-!
# Texts of programs

Names, numbers, strings and the texts of template strings are what the author of a program has
chosen freely.  A text that parses gives a program in which names are identifiers and numbers
are made of digits; strings and template texts can hold anything.
-/

namespace TypeForge

/-! ## Texts of programs -/

/-- A piece of text that the author of a program has chosen. -/
inductive SourceText where
  | name (text : String)
  | number (digits : String)
  /-- A string, or a name that becomes one. -/
  | quoted (text : String)
  /-- The text between two interpolations of a template string. -/
  | chunk (text : String)
deriving DecidableEq

/-- The characters of a text. -/
def SourceText.text : SourceText → String
  | name text | number text | quoted text | chunk text => text

/-- The characters of a text that is no number. -/
def SourceText.wording? : SourceText → Option String
  | number _ => none
  | name text | quoted text | chunk text => some text

mutual

/-- The texts of an expression. -/
@[simp] def Expr.texts : Expr → List SourceText
  | .assignment _ target value => target.texts ++ value.texts
  | .binary _ _ lhs rhs | .logical _ _ lhs rhs => lhs.texts ++ rhs.texts
  | .unary _ _ operand => operand.texts
  | .conditional _ test consequent alternate =>
    test.texts ++ (consequent.texts ++ alternate.texts)
  | .call _ callee args => callee.texts ++ textsOfExprs args
  | .field _ object name => object.texts ++ [.quoted name]
  | .index _ object key => object.texts ++ key.texts
  | .lambda _ params body => textsOfParams params ++ body.texts
  | .block _ body => textsOfStmts body
  | .matching _ scrutinee arms => scrutinee.texts ++ textsOfArms arms
  | .template _ parts => textsOfParts "" parts
  | .object _ properties => textsOfProperties properties
  | .mapped _ key union renamed _ value =>
    .name key :: (union.texts ++ (textsOfOption renamed ++ value.texts))
  | .tuple _ elements => textsOfExprs elements
  | .infer _ name bound => .name name :: textsOfOption bound
  | .ident _ name => [.name name]
  | .number _ digits => [.number digits]
  | .string _ text => [.quoted text]
  | .numberType _ | .stringType _ => []

/-- The texts of an optional part. -/
@[simp] def textsOfOption : Option Expr → List SourceText
  | none => []
  | some e => e.texts

/-- The texts of a list of expressions. -/
@[simp] def textsOfExprs : List Expr → List SourceText
  | [] => []
  | e :: es => e.texts ++ textsOfExprs es

/-- The texts of parameters. -/
@[simp] def textsOfParams : List Param → List SourceText
  | [] => []
  | .mk _ name bound :: ps => .name name :: (textsOfOption bound ++ textsOfParams ps)

/-- The texts of statements. -/
@[simp] def textsOfStmts : List Stmt → List SourceText
  | [] => []
  | .letDecl _ name value :: ss => .name name :: (value.texts ++ textsOfStmts ss)
  | .assertEqual _ left right :: ss => left.texts ++ (right.texts ++ textsOfStmts ss)
  | .expr _ value :: ss => value.texts ++ textsOfStmts ss

/-- The texts of the arms of a match. -/
@[simp] def textsOfArms : List Arm → List SourceText
  | [] => []
  | .mk _ pattern result :: as => pattern.texts ++ (result.texts ++ textsOfArms as)

/-- The texts of the parts of a template string, where `front` is the text in front of them up
to the last interpolation. -/
@[simp] def textsOfParts (front : String) : List Part → List SourceText
  | [] => [.chunk front]
  | .text text :: ps => textsOfParts (front ++ text) ps
  | .expr value :: ps => .chunk front :: (value.texts ++ textsOfParts "" ps)

/-- The texts of the properties of an object. -/
@[simp] def textsOfProperties : List Property → List SourceText
  | [] => []
  | .named _ name _ value :: ps => .quoted name :: (value.texts ++ textsOfProperties ps)
  | .computed _ key _ value :: ps => key.texts ++ (value.texts ++ textsOfProperties ps)

end

/-- The texts of a top-level item. -/
def TopLevel.texts : TopLevel → List SourceText
  | .definition d => .name d.name :: (textsOfParams d.params ++ d.body.texts)
  | .sectionOf s => .name s.name :: textsOfStmts s.body
  | .importOf i => i.symbols.map .name ++ [.quoted i.source]

/-- The texts of a program. -/
def Program.texts (program : Program) : List SourceText := program.body.flatMap TopLevel.texts

/-- The names, strings and template texts of a program. -/
def Program.wording (program : Program) : List String := program.texts.filterMap SourceText.wording?

/-! ## Spelling -/

/-- A name is an identifier and a number is made of digits. -/
def SourceText.Spelled : SourceText → Prop
  | name text => isIdentifier text = true
  | number digits => isNumber digits = true
  | quoted _ | chunk _ => True

/-- All texts of a list are spelled as they should be. -/
def AllSpelled (texts : List SourceText) : Prop := ∀ text ∈ texts, text.Spelled

@[simp] theorem allSpelled_nil : AllSpelled [] := fun _ h => nomatch h

@[simp] theorem allSpelled_cons {text : SourceText} {texts : List SourceText} :
    AllSpelled (text :: texts) ↔ text.Spelled ∧ AllSpelled texts :=
  List.forall_mem_cons

@[simp] theorem allSpelled_append {texts more : List SourceText} :
    AllSpelled (texts ++ more) ↔ AllSpelled texts ∧ AllSpelled more :=
  List.forall_mem_append

/-- Texts of lists that are those of the items one after the other. -/
structure Itemwise {α : Type} (texts : List α → List SourceText) : Prop where
  nil : texts [] = []
  cons (a : α) (as : List α) : texts (a :: as) = texts [a] ++ texts as

theorem itemwise_stmts : Itemwise textsOfStmts where
  nil := rfl
  cons s ss := by cases s <;> simp

/-! ## Parsed texts -/

theorem allSpelled_option {found : Option Expr} (h : ∀ e ∈ found, AllSpelled e.texts) :
    AllSpelled (textsOfOption found) := by
  cases found with
  | none => exact allSpelled_nil
  | some e => exact h e rfl

theorem allSpelled_exprs {es : List Expr} (h : ∀ e ∈ es, AllSpelled e.texts) :
    AllSpelled (textsOfExprs es) := by
  induction es with
  | nil => exact allSpelled_nil
  | cons e es ih =>
    rw [List.forall_mem_cons] at h
    exact allSpelled_append.2 ⟨h.1, ih h.2⟩

theorem allSpelled_params {ps : List Param}
    (h : ∀ p ∈ ps, isIdentifier p.name = true ∧ ∀ e ∈ p.bound, AllSpelled e.texts) :
    AllSpelled (textsOfParams ps) := by
  induction ps with
  | nil => exact allSpelled_nil
  | cons p ps ih =>
    rw [List.forall_mem_cons] at h
    obtain ⟨pos, name, bound⟩ := p
    exact allSpelled_cons.2 ⟨h.1.1, allSpelled_append.2 ⟨allSpelled_option h.1.2, ih h.2⟩⟩

theorem allSpelled_stmts {ss : List Stmt}
    (h : ∀ s ∈ ss, s.WellMade ∧ ∀ c ∈ s.children, AllSpelled c.texts) : AllSpelled (textsOfStmts ss) := by
  induction ss with
  | nil => exact allSpelled_nil
  | cons s ss ih =>
    rw [List.forall_mem_cons] at h
    obtain ⟨⟨hname, hchildren⟩, hss⟩ := h
    have hrest := ih hss
    cases s with
    | letDecl pos name value =>
      exact allSpelled_cons.2 ⟨hname, allSpelled_append.2 ⟨hchildren value (by simp [Stmt.children]), hrest⟩⟩
    | assertEqual pos left right =>
      simp only [Stmt.children, List.forall_mem_cons] at hchildren
      exact allSpelled_append.2 ⟨hchildren.1, allSpelled_append.2 ⟨hchildren.2.1, hrest⟩⟩
    | expr pos value => exact allSpelled_append.2 ⟨hchildren value (by simp [Stmt.children]), hrest⟩

theorem allSpelled_arms {as : List Arm} (h : ∀ a ∈ as, ∀ c ∈ a.children, AllSpelled c.texts) :
    AllSpelled (textsOfArms as) := by
  induction as with
  | nil => exact allSpelled_nil
  | cons a as ih =>
    rw [List.forall_mem_cons] at h
    obtain ⟨hchildren, has⟩ := h
    obtain ⟨pos, pattern, result⟩ := a
    simp only [Arm.children, List.forall_mem_cons] at hchildren
    exact allSpelled_append.2 ⟨hchildren.1, allSpelled_append.2 ⟨hchildren.2.1, ih has⟩⟩

/-- The texts of a template string are arbitrary, so only those of its expressions count. -/
theorem allSpelled_parts {ps : List Part} (h : ∀ c ∈ ps.filterMap Part.child?, AllSpelled c.texts)
    (front : String) : AllSpelled (textsOfParts front ps) := by
  induction ps generalizing front with
  | nil => exact allSpelled_cons.2 ⟨trivial, allSpelled_nil⟩
  | cons p ps ih =>
    cases p with
    | text text => exact ih h _
    | expr e =>
      rw [List.filterMap_cons, Part.child?, List.forall_mem_cons] at h
      exact allSpelled_cons.2 ⟨trivial, allSpelled_append.2 ⟨h.1, ih h.2 ""⟩⟩

theorem allSpelled_properties {ps : List Property} (h : ∀ p ∈ ps, ∀ c ∈ p.children, AllSpelled c.texts) :
    AllSpelled (textsOfProperties ps) := by
  induction ps with
  | nil => exact allSpelled_nil
  | cons p ps ih =>
    rw [List.forall_mem_cons] at h
    obtain ⟨hchildren, hps⟩ := h
    have hrest := ih hps
    cases p with
    | named pos name optional value =>
      exact allSpelled_cons.2 ⟨trivial, allSpelled_append.2 ⟨hchildren value (by simp [Property.children]), hrest⟩⟩
    | computed pos key optional value =>
      simp only [Property.children, List.forall_mem_cons] at hchildren
      exact allSpelled_append.2 ⟨hchildren.1, allSpelled_append.2 ⟨hchildren.2.1, hrest⟩⟩

/-- Spelling is a matter of the leaves of an expression. -/
theorem inherits_spelled : Inherits fun e => AllSpelled e.texts := by
  intro e he h
  cases e with
  | assignment | binary | logical | unary | conditional | field | index =>
    simp_all [Expr.children, SourceText.Spelled]
  | call pos callee args =>
    rw [Expr.children, List.forall_mem_cons] at h
    exact allSpelled_append.2 ⟨h.1, allSpelled_exprs h.2⟩
  | lambda pos params body =>
    rw [Expr.children, List.forall_mem_append, List.forall_mem_singleton] at h
    have hparams : ∀ p ∈ params, isIdentifier p.name = true ∧ ∀ e ∈ p.bound, AllSpelled e.texts :=
      fun p hp => ⟨he p hp, fun e hbound => h.1 e (List.mem_filterMap.2 ⟨p, hp, hbound⟩)⟩
    exact allSpelled_append.2 ⟨allSpelled_params hparams, h.2⟩
  | block pos body =>
    rw [Expr.children, List.forall_mem_flatMap] at h
    exact allSpelled_stmts fun s hs => ⟨he s hs, h s hs⟩
  | matching pos scrutinee arms =>
    rw [Expr.children, List.forall_mem_cons, List.forall_mem_flatMap] at h
    exact allSpelled_append.2 ⟨h.1, allSpelled_arms h.2⟩
  | template pos parts => exact allSpelled_parts h ""
  | object pos properties => exact allSpelled_properties (List.forall_mem_flatMap.1 h)
  | mapped pos key union renamed optional value =>
    simp only [Expr.children, List.forall_mem_cons, List.forall_mem_append, Option.mem_toList,
      List.not_mem_nil, false_imp_iff, implies_true, and_true] at h
    exact allSpelled_cons.2 ⟨he, allSpelled_append.2 ⟨h.1,
      allSpelled_append.2 ⟨allSpelled_option h.2.1, h.2.2⟩⟩⟩
  | tuple pos elements => exact allSpelled_exprs h
  | infer pos name bound =>
    exact allSpelled_cons.2 ⟨he, allSpelled_option fun e hbound => h e (Option.mem_toList.2 hbound)⟩
  | ident | number => exact allSpelled_cons.2 ⟨he, allSpelled_nil⟩
  | string => exact allSpelled_cons.2 ⟨trivial, allSpelled_nil⟩
  | numberType | stringType => exact allSpelled_nil

theorem allSpelled_topLevel {item : TopLevel} (h : item.Has fun e => AllSpelled e.texts) :
    AllSpelled item.texts := by
  cases item with
  | definition d => exact allSpelled_cons.2 ⟨h.1, allSpelled_append.2 ⟨allSpelled_params h.2.1, h.2.2⟩⟩
  | sectionOf s => exact allSpelled_cons.2 ⟨h.1, allSpelled_stmts h.2⟩
  | importOf i =>
    rw [TopLevel.texts, allSpelled_append]
    exact ⟨List.forall_mem_map.2 h, allSpelled_cons.2 ⟨trivial, allSpelled_nil⟩⟩

/-- **The names of a program that was parsed are identifiers, and its numbers are made of
digits.** -/
theorem spelled_of_parseProgram {source : String} {program : Program}
    (h : parseProgram source = .ok program) : AllSpelled program.texts := by
  have hfits := parseProgram_fits_of_inherits source inherits_spelled
  rw [h] at hfits
  exact List.forall_mem_flatMap.2 fun item hitem => allSpelled_topLevel (hfits.2 item hitem)

theorem run_of_parseExpr {source : String} {e : Expr} (h : parseExpr source = .ok e) :
    ∃ s s', Stream.ofString source = .ok s ∧ Parser.exprWith Parser.windowTest 0 s = .ok (e, s') := by
  obtain ⟨s, s', hstream, hrun⟩ := Parser.run_of_parse h
  obtain ⟨parsed, s₁, hexpr, hend⟩ := Parser.run_bind_eq_ok hrun
  rw [Parser.run_get] at hend
  cases hcurrent : s₁.current with
  | some token =>
    rw [hcurrent] at hend
    cases hend
  | none =>
    rw [hcurrent] at hend
    cases hend
    exact ⟨s, s', hstream, hexpr⟩

/-- All through an expression that was parsed, names are identifiers and template strings are cut
into their parts. -/
theorem wellMade_of_parseExpr {source : String} {e sub : Expr} (h : parseExpr source = .ok e)
    (hsub : Expr.Within sub e) : sub.WellMade ∧ AllSpelled sub.texts := by
  obtain ⟨s, s', hstream, hrun⟩ := run_of_parseExpr h
  obtain ⟨_, hok, hs, -⟩ | ⟨_, _, herror, -⟩ := Stream.ofCursor_cases (Cursor.within_ofString source)
  · cases hok.symm.trans hstream
    have hfits := (Parser.diagnoses_exprWith inherits_spelled.within 0 s hs (Nat.lt_succ_self _)).1
    rw [hrun] at hfits
    exact hfits.2.2.2 sub hsub
  · cases herror.symm.trans hstream

end TypeForge
