import TypeForge.Ast.Nodes
import TypeForge.Proofs.Output.Blocks
import TypeForge.Proofs.Output.Composition
import TypeForge.Proofs.Output.Imports

/-!
# Generated code is well bracketed

Brackets in code are opened and closed in pairs; those in strings and comments do not count.  A scan
goes through a text once with the open brackets on a stack.  It fails at a bracket that does not
close the innermost open one, and at the end of a line inside of a string or a comment.

A text is balanced if a scan leaves it with the stack that it has come with.  That goes from parts to
the whole, so the code of every program without template strings is balanced, and so are all of its
parts.
-/

namespace TypeForge

namespace TypeScript

/-! ## Scans -/

/-- Where a character stands. -/
inductive ScanPlace where
  | code
  /-- Behind a slash in code. -/
  | slash
  | lineComment
  | comment
  /-- Behind an asterisk in a comment. -/
  | asterisk
  | literal
  /-- Behind a backslash in a string literal. -/
  | escape
deriving DecidableEq

/-- How far a text is scanned. -/
structure Scan where
  place : ScanPlace
  /-- The brackets that are open, innermost first. -/
  stack : List Bracket
deriving DecidableEq

/-- The bracket that a character opens. -/
def Bracket.opened? (c : Char) : Option Bracket :=
  [round, square, brace, angle].find? fun b => b.opening == c

/-- The bracket that a character closes. -/
def Bracket.closed? (c : Char) : Option Bracket :=
  [round, square, brace, angle].find? fun b => b.closing == c

/-- Whether a character ends a line. -/
def isLineBreak (c : Char) : Bool := c == '\n' || c == '\r'

/-- Scans a character of code; none if it closes a bracket that is not the innermost open one. -/
def Scan.codeStep (stack : List Bracket) (c : Char) : Option Scan :=
  match Bracket.opened? c, Bracket.closed? c with
  | some b, _ => some ⟨.code, b :: stack⟩
  | none, some b => if stack.head? = some b then some ⟨.code, stack.tail⟩ else none
  | none, none =>
    if c = '\x22' then some ⟨.literal, stack⟩
    else if c = '/' then some ⟨.slash, stack⟩
    else some ⟨.code, stack⟩

/-- Scans a character; none if a bracket is closed that is not open, or if a line ends in a
string or a comment. -/
def Scan.step (s : Scan) (c : Char) : Option Scan :=
  match s.place with
  | .code => codeStep s.stack c
  | .slash =>
    if c = '/' then some ⟨.lineComment, s.stack⟩
    else if c = '*' then some ⟨.comment, s.stack⟩
    else codeStep s.stack c
  | .lineComment => some ⟨if isLineBreak c then .code else .lineComment, s.stack⟩
  | .comment =>
    if isLineBreak c then none else some ⟨if c = '*' then .asterisk else .comment, s.stack⟩
  | .asterisk =>
    if isLineBreak c then none
    else some ⟨if c = '/' then .code else if c = '*' then .asterisk else .comment, s.stack⟩
  | .literal =>
    if isLineBreak c then none
    else some ⟨if c = '\x22' then .code else if c = '\\' then .escape else .literal, s.stack⟩
  | .escape => if isLineBreak c then none else some ⟨.literal, s.stack⟩

/-- Whether all brackets of a text outside of strings and comments are paired, and all strings and
comments end in the line in which they start. -/
def wellBracketed (text : String) : Bool := text.toList.foldlM Scan.step ⟨.code, []⟩ == some ⟨.code, []⟩

example : wellBracketed "type a = \x7b\"(\\\"\": [b<c>] /* ) */\x7d // \x7b\n" = true ∧
    wellBracketed "([)]" = false ∧ wellBracketed "\"(\n\"" = false := by
  decide

/-- A scan gets from one state to another. -/
def Scan.Runs (s : Scan) (cs : List Char) (s' : Scan) : Prop := cs.foldlM Scan.step s = some s'

/-- A text that is scanned from code to code and leaves the open brackets as they are. -/
def Balanced (text : String) : Prop := ∀ stack, Scan.Runs ⟨.code, stack⟩ text.toList ⟨.code, stack⟩

theorem Balanced.wellBracketed {text : String} (h : Balanced text) : wellBracketed text = true :=
  beq_iff_eq.2 (h [])

namespace Scan

variable {s s' s'' : Scan} {cs ds : List Char} {c : Char}

theorem runs_nil : s.Runs [] s := rfl

theorem Runs.append (h : s.Runs cs s') (h' : s'.Runs ds s'') : s.Runs (cs ++ ds) s'' := by
  unfold Runs at *
  rw [List.foldlM_append, h]
  exact h'

theorem runs_singleton (h : s.step c = some s') : s.Runs [c] s' := by
  rw [Runs, List.foldlM_cons, h]
  rfl

theorem Runs.cons (h : s.step c = some s') (h' : s'.Runs cs s'') : s.Runs (c :: cs) s'' :=
  (runs_singleton h).append h'

/-- A stretch of text in which the scan stays where it is. -/
theorem runs_of_forall (h : ∀ c ∈ cs, s.step c = some s) : s.Runs cs s := by
  induction cs with
  | nil => exact runs_nil
  | cons c cs ih =>
    rw [List.forall_mem_cons] at h
    exact Runs.cons h.1 (ih h.2)

end Scan

/-! ## Balanced texts -/

theorem Balanced.append {a b : String} (ha : Balanced a) (hb : Balanced b) : Balanced (a ++ b) := by
  intro stack
  rw [String.toList_append]
  exact (ha stack).append (hb stack)

theorem balanced_plain (text : String) (h : text.toList.all (· ∉ syntaxMarks) = true) : Balanced text := by
  refine fun stack => Scan.runs_of_forall fun c hc => ?_
  have hmarks := of_decide_eq_true (List.all_eq_true.1 h c hc)
  simp only [syntaxMarks, List.mem_cons, List.not_mem_nil, or_false, not_or] at hmarks
  obtain ⟨h₁, h₂, h₃, h₄, h₅, h₆, h₇, h₈, hquote, -, -, hslash⟩ := hmarks
  have hopened : Bracket.opened? c = none := by
    simp [Bracket.opened?, Bracket.opening, Ne.symm h₁, Ne.symm h₃, Ne.symm h₅, Ne.symm h₇]
  have hclosed : Bracket.closed? c = none := by
    simp [Bracket.closed?, Bracket.closing, Ne.symm h₂, Ne.symm h₄, Ne.symm h₆, Ne.symm h₈]
  simp [Scan.step, Scan.codeStep, hopened, hclosed, hquote, hslash]

/-- A pair of brackets is pushed and popped again. -/
theorem Balanced.enclosed (b : Bracket) {text : String} (h : Balanced text) : Balanced (b.enclose text) := by
  intro stack
  have hopen : Scan.step ⟨.code, stack⟩ b.opening = some ⟨.code, b :: stack⟩ := by
    cases b <;> rfl
  have hclose : Scan.step ⟨.code, b :: stack⟩ b.closing = some ⟨.code, stack⟩ := by
    cases b <;> rfl
  have htext : (b.enclose text).toList = b.opening :: (text.toList ++ [b.closing]) := by
    simp [Bracket.enclose]
  rw [htext]
  exact Scan.Runs.cons hopen ((h (b :: stack)).append (Scan.runs_singleton hclose))

/-- The escapes of a string literal keep the scan in it. -/
theorem runs_literalChar (c : Char) (stack : List Bracket) :
    Scan.Runs ⟨.literal, stack⟩ (literalChar c) ⟨.literal, stack⟩ := by
  have hescapes : ∀ p ∈ literalEscapes, isLineBreak p.2 = false := by decide
  rcases literalChar_cases c with ⟨⟨hbackslash, hquote, hfeed, hreturn⟩, hliteral⟩ | ⟨d, hd, hliteral⟩
  · rw [hliteral]
    refine Scan.runs_singleton ?_
    simp [Scan.step, isLineBreak, hbackslash, hquote, hfeed, hreturn]
  · rw [hliteral]
    exact Scan.Runs.cons rfl (Scan.runs_singleton (by simp [Scan.step, hescapes _ hd]))

theorem balanced_stringLiteral (text : String) : Balanced (stringLiteral text) := by
  intro stack
  have hinside : Scan.Runs ⟨.literal, stack⟩ (text.toList.flatMap literalChar) ⟨.literal, stack⟩ := by
    induction text.toList with
    | nil => exact Scan.runs_nil
    | cons c cs ih =>
      rw [List.flatMap_cons]
      exact (runs_literalChar c stack).append ih
  rw [stringLiteral, String.toList_ofList]
  exact ((Scan.runs_singleton rfl).append hinside).append (Scan.runs_singleton rfl)

/-- Words have nothing in them that matters to a scan of a comment. -/
theorem ne_of_isWordChar {c : Char} (h : isWordChar c = true) : c ≠ '*' ∧ isLineBreak c = false := by
  have hne (d : Char) (hd : isWordChar d = false) : c ≠ d := by
    rintro rfl
    rw [hd] at h
    cases h
  refine ⟨hne _ (by decide), ?_⟩
  simp [isLineBreak, hne '\n' (by decide), hne '\r' (by decide)]

theorem balanced_originText {name : String} (h : ∀ c ∈ name.toList, isWordChar c = true) :
    Balanced (originText name) := by
  intro stack
  have hopen : Scan.Runs ⟨.code, stack⟩ " /** ".toList ⟨.comment, stack⟩ := rfl
  have hname : Scan.Runs ⟨.comment, stack⟩ name.toList ⟨.comment, stack⟩ := by
    refine Scan.runs_of_forall fun c hc => ?_
    obtain ⟨hasterisk, hbreak⟩ := ne_of_isWordChar (h c hc)
    simp [Scan.step, hasterisk, hbreak]
  have hclose : Scan.Runs ⟨.comment, stack⟩ " */".toList ⟨.code, stack⟩ := rfl
  rw [originText, String.toList_append, String.toList_append]
  exact (hopen.append hname).append hclose

/-- A comment up to the end of the line. -/
theorem balanced_lineComment {name : String} (h : ∀ c ∈ name.toList, isWordChar c = true) :
    Balanced ("// " ++ name ++ "\n") := by
  intro stack
  have hopen : Scan.Runs ⟨.code, stack⟩ "// ".toList ⟨.lineComment, stack⟩ := rfl
  have hname : Scan.Runs ⟨.lineComment, stack⟩ name.toList ⟨.lineComment, stack⟩ := by
    refine Scan.runs_of_forall fun c hc => ?_
    simp [Scan.step, (ne_of_isWordChar (h c hc)).2]
  have hclose : Scan.Runs ⟨.lineComment, stack⟩ "\n".toList ⟨.code, stack⟩ := rfl
  rw [String.toList_append, String.toList_append]
  exact (hopen.append hname).append hclose

/-- A template literal has a text, be it empty. -/
theorem exists_chunk (front : String) (parts : List Piece) :
    ∃ text, .source (.chunk text) ∈ atomsOfPieces front parts := by
  induction parts generalizing front with
  | nil => exact ⟨front, List.mem_singleton_self _⟩
  | cons piece parts ih =>
    cases piece with
    | text text => exact ih (front ++ text)
    | ty value => exact ⟨front, List.mem_cons_self⟩

/-- **What is put together of balanced texts is balanced**, if there are no template literals. -/
theorem compositional_balanced : Compositional (fun _ => False) Balanced where
  plain := balanced_plain
  append := Balanced.append
  enclosed b _ h := h.enclosed b
  literal := balanced_stringLiteral
  comment := balanced_originText
  template parts hchunks _ := by
    obtain ⟨text, htext⟩ := exists_chunk "" parts
    exact (hchunks text htext).elim

/-! ## Modules -/

/-- Atoms of code without template literals. -/
def Atom.Untemplated (atom : Atom) : Prop := atom.Fits fun _ => False

theorem balanced_render {t : Ty} (h : ∀ atom ∈ t.atoms, atom.Untemplated) : Balanced t.render :=
  compositional_balanced.render t h

theorem balanced_word {text : String} (h : ∀ c ∈ text.toList, isWordChar c = true) : Balanced text :=
  compositional_balanced.word h

theorem balanced_interface {f : Interface} (hname : f.name.isLifted = true)
    (h : ∀ atom ∈ f.body.atoms, atom.Untemplated) : Balanced f.render := by
  have hword : Balanced f.name.render := by
    refine compositional_balanced.name fun atom hatom => ?_
    cases hf : f.name with
    | user text | temp id => simp [hf, Name.isLifted] at hname
    | lambda id | arm id =>
      rw [hf, Name.atoms, List.mem_singleton] at hatom
      rw [hatom]
      trivial
  have hhead := ((balanced_plain "interface " (by decide)).append hword).append
    (balanced_plain (" extends " ++ Symbol.fn.name ++ " ") (by decide))
  have hbody := ((balanced_plain "\n  return: " (by decide)).append (balanced_render h)).append
    (balanced_plain ";\n" (by decide))
  have htext : f.render = "interface " ++ f.name.render ++ (" extends " ++ Symbol.fn.name ++ " ") ++
      Bracket.brace.enclose ("\n  return: " ++ f.body.render ++ ";\n") := by
    unfold Interface.render
    apply String.toList_injective
    simp [Bracket.enclose, Bracket.opening, Bracket.closing]
  rw [htext]
  exact hhead.append (hbody.enclosed .brace)

theorem balanced_alias {a : Alias} (h : ∀ atom ∈ a.atoms, atom.Untemplated) : Balanced a.render := by
  rw [Alias.atoms, List.forall_mem_append] at h
  have hname := (balanced_plain "type " (by decide)).append (compositional_balanced.name h.1)
  exact (hname.append (balanced_plain " = " (by decide))).append (balanced_render h.2)

/-- Names in braces and the module that they are imported from. -/
theorem balanced_import {names : List String} (h : ∀ name ∈ names, Balanced name) (source : String) :
    Balanced ("import \x7b " ++ commaSeparated names ++ " \x7d from " ++ stringLiteral source ++ ";") := by
  have hspace : Balanced " " := balanced_plain _ (by decide)
  have hnames := (hspace.append (compositional_balanced.commaSeparated h)).append hspace
  have hbraced := (balanced_plain "import " (by decide)).append (hnames.enclosed .brace)
  have hsource := (balanced_plain " from " (by decide)).append (balanced_stringLiteral source)
  have htext : "import \x7b " ++ commaSeparated names ++ " \x7d from " ++ stringLiteral source ++ ";" =
      "import " ++ Bracket.brace.enclose (" " ++ commaSeparated names ++ " ") ++
        (" from " ++ stringLiteral source) ++ ";" := by
    apply String.toList_injective
    simp [Bracket.enclose, Bracket.opening, Bracket.closing]
  rw [htext]
  exact (hbraced.append hsource).append (balanced_plain _ (by decide))

theorem balanced_declaration {d : Declaration} (h : ∀ atom ∈ d.atoms, atom.Untemplated) : Balanced d.render := by
  have hend : Balanced ";" := balanced_plain _ (by decide)
  cases d with
  | named isExported a =>
    have hmark : Balanced (if isExported then "export " else "") := by
      cases isExported <;> exact balanced_plain _ (by decide)
    exact (hmark.append (balanced_alias h)).append hend
  | group name body =>
    rw [Declaration.atoms, List.forall_mem_cons, List.forall_mem_cons, List.forall_mem_flatMap] at h
    obtain ⟨hname, -, hatoms⟩ := h
    have hbody : Balanced (String.join (body.map fun a => "  " ++ a.render ++ ";\n")) := by
      induction body with
      | nil => exact balanced_plain _ (by decide)
      | cons a body ih =>
        rw [List.forall_mem_cons] at hatoms
        rw [List.map_cons, String.join_cons]
        have hline := (balanced_plain "  " (by decide)).append (balanced_alias hatoms.1)
        exact (hline.append (balanced_plain ";\n" (by decide))).append (ih hatoms.2)
    have hhead := ((balanced_plain "namespace " (by decide)).append (balanced_word hname)).append
      (balanced_plain " " (by decide))
    have htext : (Declaration.group name body).render = "// " ++ name ++ "\n" ++ ("namespace " ++ name ++ " ") ++
        Bracket.brace.enclose ("\n" ++ String.join (body.map fun a => "  " ++ a.render ++ ";\n")) := by
      unfold Declaration.render
      apply String.toList_injective
      simp [Bracket.enclose, Bracket.opening, Bracket.closing]
    rw [htext]
    exact ((balanced_lineComment hname).append hhead).append
      (((balanced_plain "\n" (by decide)).append hbody).enclosed .brace)
  | importOf symbols source =>
    rw [Declaration.atoms, List.forall_mem_append, List.forall_mem_map] at h
    exact balanced_import (fun name hname => balanced_word (h.1 name hname)) source

theorem balanced_importLine (target : Target) (library : Library) {names : List String}
    (h : ∀ name ∈ names, Balanced name) : Balanced (importLine target library names) := by
  have hmodule : "\"" ++ library.module target ++ "\"" = stringLiteral (library.module target) := by
    cases target <;> cases library <;> decide
  have htext : importLine target library names =
      "import \x7b " ++ commaSeparated (names.map ("type " ++ ·)) ++ " \x7d from " ++
        stringLiteral (library.module target) ++ ";" := by
    unfold importLine
    rw [← hmodule]
    apply String.toList_injective
    simp
  rw [htext]
  refine balanced_import (List.forall_mem_map.2 fun name hname => ?_) _
  exact (balanced_plain "type " (by decide)).append (h name hname)

end TypeScript

open TypeScript

/-! ## Template strings -/

/-- Whether a text is part of a template string. -/
def SourceText.isChunk : SourceText → Bool
  | chunk _ => true
  | name _ | number _ | quoted _ => false

/-- Whether a node is a template string. -/
def isTemplateNode (node : Node) : Bool := node.value == .template

theorem any_isChunk_textsOfParts (front : String) (parts : List Part) :
    (textsOfParts front parts).any SourceText.isChunk = true := by
  induction parts generalizing front with
  | nil => rfl
  | cons part parts ih =>
    cases part with
    | text text => exact ih (front ++ text)
    | expr value => rfl

section

attribute [local simp] Expr.nodes exprNodes paramNodes stmtNodes armNodes propertyNodes isTemplateNode
  SourceText.isChunk

mutual

/-- **There are texts of template strings exactly where there are template strings.** -/
theorem any_isChunk_texts : ∀ e : Expr, e.texts.any SourceText.isChunk = e.nodes.any isTemplateNode
  | .assignment _ target value => by simp [any_isChunk_texts target, any_isChunk_texts value]
  | .binary _ _ lhs rhs => by simp [any_isChunk_texts lhs, any_isChunk_texts rhs]
  | .logical _ _ lhs rhs => by simp [any_isChunk_texts lhs, any_isChunk_texts rhs]
  | .unary _ _ operand => by simp [any_isChunk_texts operand]
  | .conditional _ test consequent alternate => by
    simp [any_isChunk_texts test, any_isChunk_texts consequent, any_isChunk_texts alternate]
  | .call _ callee args => by simp [any_isChunk_texts callee, any_isChunk_exprs args]
  | .field _ object _ => by simp [any_isChunk_texts object]
  | .index _ object key => by simp [any_isChunk_texts object, any_isChunk_texts key]
  | .lambda _ params body => by simp [any_isChunk_params params, any_isChunk_texts body]
  | .block _ body => by simp [any_isChunk_stmts body]
  | .matching _ scrutinee arms => by simp [any_isChunk_texts scrutinee, any_isChunk_arms arms]
  | .template _ parts => by simp [any_isChunk_textsOfParts]
  | .object _ properties => by simp [any_isChunk_properties properties]
  | .mapped _ _ union none _ value => by simp [any_isChunk_texts union, any_isChunk_texts value]
  | .mapped _ _ union (some renamed) _ value => by
    simp [any_isChunk_texts union, any_isChunk_texts renamed, any_isChunk_texts value]
  | .tuple _ elements => by simp [any_isChunk_exprs elements]
  | .infer _ _ none => by simp
  | .infer _ _ (some bound) => by simp [any_isChunk_texts bound]
  | .ident .. | .number .. | .string .. | .numberType _ | .stringType _ => by simp

theorem any_isChunk_exprs : ∀ es : List Expr,
    (textsOfExprs es).any SourceText.isChunk = (exprNodes es).any isTemplateNode
  | [] => rfl
  | e :: es => by simp [any_isChunk_texts e, any_isChunk_exprs es]

theorem any_isChunk_params : ∀ ps : List Param,
    (textsOfParams ps).any SourceText.isChunk = (paramNodes ps).any isTemplateNode
  | [] => rfl
  | .mk _ _ none :: ps => by simp [any_isChunk_params ps]
  | .mk _ _ (some bound) :: ps => by simp [any_isChunk_texts bound, any_isChunk_params ps]

theorem any_isChunk_stmts : ∀ ss : List Stmt,
    (textsOfStmts ss).any SourceText.isChunk = (stmtNodes ss).any isTemplateNode
  | [] => rfl
  | .letDecl _ _ value :: ss => by simp [any_isChunk_texts value, any_isChunk_stmts ss]
  | .assertEqual _ left right :: ss => by
    simp [any_isChunk_texts left, any_isChunk_texts right, any_isChunk_stmts ss]
  | .expr _ value :: ss => by simp [any_isChunk_texts value, any_isChunk_stmts ss]

theorem any_isChunk_arms : ∀ as : List Arm,
    (textsOfArms as).any SourceText.isChunk = (armNodes as).any isTemplateNode
  | [] => rfl
  | .mk _ pattern result :: as => by
    simp [any_isChunk_texts pattern, any_isChunk_texts result, any_isChunk_arms as]

theorem any_isChunk_properties : ∀ ps : List Property,
    (textsOfProperties ps).any SourceText.isChunk = (propertyNodes ps).any isTemplateNode
  | [] => rfl
  | .named _ _ _ value :: ps => by simp [any_isChunk_texts value, any_isChunk_properties ps]
  | .computed _ key _ value :: ps => by
    simp [any_isChunk_texts key, any_isChunk_texts value, any_isChunk_properties ps]

end

end

theorem any_isChunk_program (program : Program) :
    program.texts.any SourceText.isChunk = program.nodes.any isTemplateNode := by
  have hitem (item : TopLevel) : item.texts.any SourceText.isChunk = item.nodes.any isTemplateNode := by
    cases item with
    | definition d =>
      simp [TopLevel.texts, TopLevel.nodes, isTemplateNode, SourceText.isChunk, any_isChunk_params d.params,
        any_isChunk_texts d.body]
    | sectionOf s =>
      simp [TopLevel.texts, TopLevel.nodes, isTemplateNode, SourceText.isChunk, any_isChunk_stmts s.body]
    | importOf i =>
      have hsymbols : (i.symbols.map SourceText.name).any SourceText.isChunk = false := by
        simp [SourceText.isChunk]
      rw [TopLevel.texts, List.any_append, hsymbols]
      rfl
  simp only [Program.texts, Program.nodes, List.any_flatMap, hitem]

/-- The texts of a program without template strings fit code without template literals. -/
theorem untemplated_of_known {source : String} {program : Program} (hprogram : parseProgram source = .ok program)
    (h : ∀ node ∈ program.nodes, node.value ≠ .template) {atom : Atom} (hatom : atom.Known program.texts) :
    atom.Untemplated := by
  have hchunks : program.texts.any SourceText.isChunk = false := by
    rw [any_isChunk_program, List.any_eq_false]
    intro node hnode
    simpa [isTemplateNode] using h node hnode
  refine fits_of_known (fun text htext => ?_) hatom
  refine SourceText.Spelled.fits (spelled_of_parseProgram hprogram text htext) ?_
  rintro chunk rfl
  exact List.any_eq_false.1 hchunks _ htext rfl

/-! ## Programs -/

section

variable {program : Program} {m : Module} (h : program.generate = .ok m)
  (hatoms : ∀ atom : Atom, atom.Known program.texts → atom.Untemplated)

include h hatoms

theorem balanced_lifted {f : Interface} (hf : f ∈ m.lifted) : Balanced f.body.render ∧ Balanced f.render := by
  have hbody : ∀ atom ∈ f.body.atoms, atom.Untemplated := by
    refine fun atom hatom => hatoms atom (known_of_mem_atoms h ?_)
    exact List.mem_append_left _ (List.mem_flatMap.2 ⟨f, hf, by simp [Interface.atoms, hatom]⟩)
  exact ⟨balanced_render hbody, balanced_interface (isLifted_of_mem_lifted h hf) hbody⟩

theorem balanced_items {d : Declaration} (hd : d ∈ m.items) : Balanced d.render :=
  balanced_declaration fun atom hatom =>
    hatoms atom (known_of_mem_atoms h (List.mem_append_right _ (List.mem_flatMap.2 ⟨d, hd, hatom⟩)))

theorem balanced_imports {target : Target} {line : String} (hline : line ∈ m.importLines target) :
    Balanced line := by
  obtain ⟨library, rfl⟩ := importLine_of_mem_importLines hline
  refine balanced_importLine target library (List.forall_mem_map.2 fun x hx => balanced_word ?_)
  exact hatoms (.symbol x) (mem_emitted_of_mem_imports h (List.mem_filter.1 hx).1)

theorem balanced_module (target : Target) : Balanced (m.render target) := by
  have hblank : Balanced "\n\n" := balanced_plain _ (by decide)
  have hfeed : Balanced "\n" := balanced_plain _ (by decide)
  have hblocks : ∀ block ∈ m.blocks target, Balanced block := by
    rw [blocks_eq, List.forall_mem_append, List.forall_mem_append, List.forall_mem_map, List.forall_mem_map]
    refine ⟨⟨?_, fun f hf => (balanced_lifted h hatoms hf).2⟩, fun d hd => balanced_items h hatoms hd⟩
    split
    · exact List.forall_mem_nil _
    · refine List.forall_mem_singleton.2 (compositional_balanced.intercalate hfeed fun line hline => ?_)
      exact balanced_imports h hatoms hline
  exact (compositional_balanced.intercalate hblank hblocks).append hfeed

end

/-- **Generated code is well bracketed.**  If a text without template strings compiles, then the
brackets of the whole output, of each lifted function and its body, and of each declaration are
paired, and the strings and comments there end in the line in which they start. -/
theorem wellBracketed_of_compile {target : Target} {source output : String}
    (h : compile target source = .ok output) :
    ∃ program m, parseProgram source = .ok program ∧ program.generate = .ok m ∧ output = m.render target ∧
      ((∀ node ∈ program.nodes, node.value ≠ .template) →
        wellBracketed output = true ∧
        (∀ f ∈ m.lifted, wellBracketed f.body.render = true ∧ wellBracketed f.render = true) ∧
        ∀ d ∈ m.items, wellBracketed d.render = true) := by
  obtain ⟨program, m, hprogram, hm, rfl⟩ := of_compile h
  refine ⟨program, m, hprogram, hm, rfl, fun hplain => ?_⟩
  have hatoms : ∀ atom : Atom, atom.Known program.texts → atom.Untemplated :=
    fun _ hatom => untemplated_of_known hprogram hplain hatom
  refine ⟨(balanced_module hm hatoms target).wellBracketed, fun f hf => ?_, fun d hd => ?_⟩
  · obtain ⟨hbody, hwhole⟩ := balanced_lifted hm hatoms hf
    exact ⟨hbody.wellBracketed, hwhole.wellBracketed⟩
  · exact (balanced_items hm hatoms hd).wellBracketed

/-- Brackets, quotes, a backslash and the start of a comment in strings, a lambda with a match that
binds a name, and a section. -/
def bracketingSource : String :=
  "import \x7b g \x7d from '(/*'; type f(a) = (b) => match a \x7b infer x -> [x + b, \x7b k: ')\\\"' \x7d] \x7d; " ++
    "#[s] :\x7b let y = if f(1) then '\x7b' else \"<\" \x7d"

theorem wellBracketed_bracketingSource :
    ∃ output program m, compile .published bracketingSource = .ok output ∧
      parseProgram bracketingSource = .ok program ∧ program.generate = .ok m ∧
      (∀ node ∈ program.nodes, node.value ≠ .template) ∧
      (m.lifted.length, m.items.length) = (3, 3) ∧ wellBracketed output = true ∧
      (∀ f ∈ m.lifted, wellBracketed f.body.render = true) ∧ ∀ d ∈ m.items, wellBracketed d.render = true := by
  have hcheck : ((parseProgram bracketingSource).toOption.any fun program =>
      program.generate.toOption.any fun m => (program.nodes.all fun node => !isTemplateNode node) &&
        (m.lifted.length, m.items.length) == (3, 3)) = true := by
    decide +kernel
  obtain ⟨output, houtput, hchecked⟩ := compiles_of_check hcheck .published
  obtain ⟨program, m, hprogram, hm, -, hbrackets⟩ := wellBracketed_of_compile houtput
  have hprogram' := hchecked program m hprogram hm
  rw [Bool.and_eq_true, beq_iff_eq] at hprogram'
  have hplain : ∀ node ∈ program.nodes, node.value ≠ .template := by
    simpa [isTemplateNode] using hprogram'.1
  obtain ⟨hwhole, hlifted, hitems⟩ := hbrackets hplain
  exact ⟨output, program, m, houtput, hprogram, hm, hplain, hprogram'.2, hwhole, fun f hf => (hlifted f hf).1, hitems⟩

end TypeForge
