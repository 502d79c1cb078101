import TypeForge.Proofs.Output.Words
import TypeForge.Proofs.Parser.Spelling

/-!
# What generated text is made of

The text of generated code consists of fixed phrases of the target language and of what varies:
texts that the author of the program has chosen, library symbols and names of lifted functions.
These are the atoms of a piece of code.

Whatever is read off a text part by part, and not off the fixed phrases, can be read off the
atoms.  Noteworthy words are such a reading, and so are line feeds.
-/

namespace TypeForge

open TypeScript

/-! ## Atoms of code -/

namespace TypeScript

/-- A part of generated text that is no fixed phrase. -/
inductive Atom where
  | source (text : SourceText)
  | symbol (symbol : Symbol)
  /-- The name of a member of a library symbol. -/
  | member (name : String)
  | lifted (name : Name)
deriving DecidableEq

/-- The text that stands in generated code for an atom. -/
def Atom.text : Atom → String
  | .source (.quoted text) => String.ofList (text.toList.flatMap literalChar)
  | .source text => text.text
  | .symbol s => s.name
  | .member name => name
  | .lifted name => name.render

/-- The atoms of a name.  A generated name for a value has none. -/
@[simp] def Name.atoms : Name → List Atom
  | user text => [.source (.name text)]
  | temp _ => []
  | lambda id => [.lifted (.lambda id)]
  | arm id => [.lifted (.arm id)]

mutual

/-- The atoms of a type, in the order of its text. -/
@[simp] def Ty.atoms : Ty → List Atom
  | .name name => name.atoms
  | .symbol symbol none => [.symbol symbol]
  | .symbol symbol (some member) => [.symbol symbol, .member member]
  | .param _ origin | .captured _ origin => [.source (.name origin)]
  | .number digits => [.source (.number digits)]
  | .string text => [.source (.quoted text)]
  | .arg _ | .keyword _ => []
  | .apply head args => head.atoms ++ atomsOfTys args
  | .paren inner => inner.atoms
  | .operation _ lhs rhs | .index lhs rhs => lhs.atoms ++ rhs.atoms
  | .conditional check pattern yes no =>
    check.atoms ++ (pattern.atoms ++ (yes.atoms ++ no.atoms))
  | .infer name bound => name.atoms ++ atomsOfOption bound
  | .tuple elements => atomsOfTys elements
  | .object fields => atomsOfFields fields
  | .mapped key union renamed _ value =>
    .source (.name key) :: (union.atoms ++ (atomsOfOption renamed ++ value.atoms))
  | .template parts => atomsOfPieces "" parts

/-- The atoms of an optional part. -/
@[simp] def atomsOfOption : Option Ty → List Atom
  | none => []
  | some t => t.atoms

/-- The atoms of a list of types. -/
@[simp] def atomsOfTys : List Ty → List Atom
  | [] => []
  | t :: ts => t.atoms ++ atomsOfTys ts

/-- The atoms of the fields of an object type. -/
@[simp] def atomsOfFields : List Field → List Atom
  | [] => []
  | .named name _ value :: fs => .source (.quoted name) :: (value.atoms ++ atomsOfFields fs)
  | .computed key _ value :: fs => key.atoms ++ (value.atoms ++ atomsOfFields fs)

/-- The atoms of the pieces of a template literal type, where `front` is the text in front of
them up to the last type. -/
@[simp] def atomsOfPieces (front : String) : List Piece → List Atom
  | [] => [.source (.chunk front)]
  | .text text :: ps => atomsOfPieces (front ++ text) ps
  | .ty value :: ps => .source (.chunk front) :: (value.atoms ++ atomsOfPieces "" ps)

end

/-- The atoms of a lifted function without its own name: its kind, and those of its body. -/
def Interface.atoms (f : Interface) : List Atom := .symbol .fn :: f.body.atoms

/-- The atoms of a named type. -/
def Alias.atoms (a : Alias) : List Atom := a.name.atoms ++ a.value.atoms

/-- The atoms of a declaration.  The name of a section stands in a comment too. -/
def Declaration.atoms : Declaration → List Atom
  | .named _ type => type.atoms
  | .group name body =>
    .source (.name name) :: .source (.name name) :: body.flatMap Alias.atoms
  | .importOf symbols source => symbols.map (.source <| .name ·) ++ [.source (.quoted source)]

/-- The atoms of a module: lifted functions with their names, and declarations. -/
def Module.atoms (m : Module) : List Atom :=
  m.lifted.flatMap (fun f => .lifted f.name :: f.atoms) ++ m.items.flatMap Declaration.atoms

/-! ## Readout part by part -/

/-- Where two texts stand apart, each of them is read on its own. -/
def Partwise {β : Type} (φ : String → List β) : Prop :=
  ∀ a b, endsApart a = true ∨ startsApart b = true → φ (a ++ b) = φ a ++ φ b

namespace Partwise

variable {β : Type} {φ : String → List β} {a b p : String}

/-- A text with nothing to read behind another one. -/
theorem trail (hφ : Partwise φ) (hp : φ p = []) (hstarts : startsApart p = true) :
    φ (a ++ p) = φ a := by
  rw [hφ a p (.inr hstarts), hp, List.append_nil]

/-- A text with nothing to read in front of another one. -/
theorem lead (hφ : Partwise φ) (hp : φ p = []) (hends : endsApart p = true) :
    φ (p ++ b) = φ b := by
  rw [hφ p b (.inl hends), hp, List.nil_append]

/-- A text with nothing to read between two others. -/
theorem glue (hφ : Partwise φ) (hp : φ p = []) (hstarts : startsApart p = true)
    (hends : endsApart p = true) (hne : p ≠ "") : φ (a ++ p ++ b) = φ a ++ φ b := by
  rw [hφ (a ++ p) b (.inl ((endsApart_append hne).trans hends)), hφ.trail hp hstarts]

theorem empty (hφ : Partwise φ) : φ "" = [] := by
  have h := hφ "" "" (.inl rfl)
  rw [String.append_empty] at h
  simpa using h

/-- Texts with a separator between them. -/
theorem intercalate (hφ : Partwise φ) (hp : φ p = []) (hstarts : startsApart p = true)
    (hends : endsApart p = true) (hne : p ≠ "") (texts : List String) :
    φ (p.intercalate texts) = texts.flatMap φ := by
  induction texts with
  | nil => exact hφ.empty
  | cons text texts ih =>
    cases texts with
    | nil => simp
    | cons next texts =>
      rw [String.intercalate_cons_cons, hφ.glue hp hstarts hends hne, ih, List.flatMap_cons (x := text)]

end Partwise

/-! ## Readings of types -/

/-- The fixed phrases of the text of a type. -/
def phrases : List String :=
  ["<", ">", ", ", "(", ")", " ", "|", "&", "[", "]", " extends ", " ? ", " : ", "infer ", "\x7b[", " in ",
    " as ", "?", ": ", "\x7b", "\x7d", "$\x7b", "\x60", ".", "\"", "this[\"", "\"]", " /** ", " */",
    "any", "never", "unknown", "number", "string", "true", "false"]

/-- Something that is read off texts part by part and neither off a phrase nor off the name of
a value. -/
structure Readout {β : Type} (φ : String → List β) : Prop where
  partwise : Partwise φ
  phrase : ∀ p ∈ phrases, φ p = []
  numbered : ∀ stem ∈ ["", "arg", "temp_"], ∀ n : Nat, φ (stem ++ toString n) = []

namespace Readout

variable {β : Type} {φ : String → List β} {a b p : String}

theorem trail (hφ : Readout φ) (h : p ∈ phrases ∧ startsApart p = true) : φ (a ++ p) = φ a :=
  hφ.partwise.trail (hφ.phrase p h.1) h.2

theorem lead (hφ : Readout φ) (h : p ∈ phrases ∧ endsApart p = true) : φ (p ++ b) = φ b :=
  hφ.partwise.lead (hφ.phrase p h.1) h.2

theorem glue (hφ : Readout φ)
    (h : p ∈ phrases ∧ startsApart p = true ∧ endsApart p = true ∧ p ≠ "") :
    φ (a ++ p ++ b) = φ a ++ φ b :=
  hφ.partwise.glue (hφ.phrase p h.1) h.2.1 h.2.2.1 h.2.2.2

theorem optional (hφ : Readout φ) (optional : Bool) : φ (a ++ optionalText optional) = φ a := by
  cases optional with
  | true => exact hφ.trail (by decide)
  | false => simp [optionalText]

theorem argText (hφ : Readout φ) (n : Nat) : φ (argText n) = [] := by
  have htext : TypeScript.argText n = "this[\"" ++ ("arg" ++ toString n) ++ "\"]" := by
    rw [← String.append_assoc]
    rfl
  rw [htext, hφ.trail, hφ.lead, hφ.numbered "arg"] <;> decide

theorem originText (hφ : Readout φ) (name : String) : φ (a ++ originText name) = φ a ++ φ name := by
  rw [TypeScript.originText, ← String.append_assoc, hφ.trail, ← String.append_assoc, hφ.glue] <;> decide

theorem stringLiteral (hφ : Readout φ) (text : String) :
    φ (stringLiteral text) = φ (String.ofList (text.toList.flatMap literalChar)) := by
  have htext : TypeScript.stringLiteral text =
      "\"" ++ String.ofList (text.toList.flatMap literalChar) ++ "\"" := by
    rw [TypeScript.stringLiteral, String.ofList_append, String.ofList_append]
  rw [htext, hφ.trail, hφ.lead] <;> decide

theorem commaSeparated (hφ : Readout φ) (texts : List String) :
    φ (commaSeparated texts) = texts.flatMap φ :=
  hφ.partwise.intercalate (hφ.phrase ", " (by decide)) (by decide) (by decide) (by decide) texts

theorem name (hφ : Readout φ) (name : Name) :
    φ name.render = name.atoms.flatMap fun atom => φ atom.text := by
  cases name with
  | temp id => exact hφ.numbered "temp_" (by decide) id
  | _ => simp [Atom.text, SourceText.text, Name.render]

theorem keyword (hφ : Readout φ) (keyword : Keyword) : φ keyword.render = [] := by
  apply hφ.phrase
  cases keyword <;> decide

/-! The readings of types, by recursion on them. -/

mutual

/-- **A reading of the text of a type is made of the readings of its atoms.** -/
theorem render (hφ : Readout φ) : ∀ t : Ty, φ t.render = t.atoms.flatMap fun atom => φ atom.text
  | .name name => by
    unfold Ty.render
    rw [Ty.atoms]
    exact hφ.name name
  | .symbol symbol none => by
    unfold Ty.render
    simp [Atom.text]
  | .symbol symbol (some member) => by
    unfold Ty.render
    rw [hφ.glue (by decide)]
    simp [Atom.text]
  | .arg number => by
    unfold Ty.render
    rw [hφ.argText]
    rfl
  | .param number origin => by
    unfold Ty.render
    rw [hφ.originText, hφ.argText]
    simp [Atom.text, SourceText.text]
  | .captured slot origin => by
    have hslot : φ (toString slot) = [] := by
      simpa using hφ.numbered "" (by decide) slot
    unfold Ty.render
    rw [hφ.originText, hφ.trail, hφ.glue, hφ.argText, hslot]
    · simp [Atom.text, SourceText.text]
    all_goals decide
  | .number digits => by
    unfold Ty.render
    simp [Atom.text, SourceText.text]
  | .string text => by
    unfold Ty.render
    rw [hφ.stringLiteral]
    simp [Atom.text]
  | .keyword keyword => by
    unfold Ty.render
    rw [hφ.keyword]
    rfl
  | .apply head args => by
    unfold Ty.render
    rw [hφ.trail, hφ.glue, hφ.commaSeparated, render hφ head, renderTys hφ args, Ty.atoms,
      List.flatMap_append] <;> decide
  | .paren inner => by
    unfold Ty.render
    rw [hφ.trail, hφ.lead, render hφ inner, Ty.atoms] <;> decide
  | .operation op lhs rhs => by
    have hop : φ (lhs.render ++ " " ++ op.text) = φ lhs.render := by
      cases op <;> rw [TypeOp.text, hφ.trail, hφ.trail] <;> decide
    unfold Ty.render
    rw [hφ.glue (by decide), hop, render hφ lhs, render hφ rhs, Ty.atoms, List.flatMap_append]
  | .index object key => by
    unfold Ty.render
    rw [hφ.trail, hφ.glue, render hφ object, render hφ key, Ty.atoms,
      List.flatMap_append] <;> decide
  | .conditional check pattern yes no => by
    unfold Ty.render
    rw [hφ.glue, hφ.glue, hφ.glue, render hφ check, render hφ pattern, render hφ yes,
      render hφ no, Ty.atoms]
    · simp
    all_goals decide
  | .infer name none => by
    unfold Ty.render
    rw [hφ.lead (by decide), hφ.name]
    simp
  | .infer name (some bound) => by
    unfold Ty.render
    rw [hφ.glue, hφ.lead, hφ.name, render hφ bound]
    · simp
    all_goals decide
  | .tuple elements => by
    unfold Ty.render
    rw [hφ.trail, hφ.lead, hφ.commaSeparated, renderTys hφ elements, Ty.atoms] <;> decide
  | .object fields => by
    unfold Ty.render
    rw [hφ.trail, hφ.lead, hφ.commaSeparated, renderFields hφ fields, Ty.atoms] <;> decide
  | .mapped key union none optional value => by
    rw [Ty.render_mapped, hφ.trail, hφ.glue, hφ.optional, hφ.trail, hφ.glue, hφ.lead, render hφ union,
      render hφ value]
    · simp [Atom.text, SourceText.text]
    all_goals decide
  | .mapped key union (some renamed) optional value => by
    rw [Ty.render_mapped_renamed, hφ.trail, hφ.glue, hφ.optional, hφ.trail, hφ.glue, hφ.glue, hφ.lead,
      render hφ union, render hφ renamed, render hφ value]
    · simp [Atom.text, SourceText.text]
    all_goals decide
  | .template parts => by
    unfold Ty.render
    rw [hφ.trail, hφ.lead, ← String.empty_append (s := pieceText parts), renderPieces hφ "" parts,
      Ty.atoms] <;> decide

theorem renderTys (hφ : Readout φ) : ∀ ts : List Ty,
    (tyTexts ts).flatMap φ = (atomsOfTys ts).flatMap fun atom => φ atom.text
  | [] => rfl
  | t :: ts => by
    rw [tyTexts, List.flatMap_cons, render hφ t, renderTys hφ ts, atomsOfTys, List.flatMap_append]

theorem renderFields (hφ : Readout φ) : ∀ fs : List Field,
    (fieldTexts fs).flatMap φ = (atomsOfFields fs).flatMap fun atom => φ atom.text
  | [] => rfl
  | .named name optional value :: fs => by
    rw [fieldTexts, List.flatMap_cons, hφ.glue, hφ.optional, hφ.stringLiteral, render hφ value,
      renderFields hφ fs]
    · simp [Atom.text]
    all_goals decide
  | .computed key optional value :: fs => by
    rw [fieldTexts, List.flatMap_cons, hφ.glue, hφ.optional, hφ.trail, hφ.lead, render hφ key,
      render hφ value, renderFields hφ fs]
    · simp
    all_goals decide

theorem renderPieces (hφ : Readout φ) (front : String) : ∀ ps : List Piece,
    φ (front ++ pieceText ps) = (atomsOfPieces front ps).flatMap fun atom => φ atom.text
  | [] => by simp [pieceText, Atom.text, SourceText.text]
  | .text text :: ps => by
    rw [pieceText, ← String.append_assoc, renderPieces hφ (front ++ text) ps, atomsOfPieces]
  | .ty value :: ps => by
    have hrest := renderPieces hφ "" ps
    rw [String.empty_append] at hrest
    rw [pieceText, ← String.append_assoc, ← String.append_assoc, ← String.append_assoc, hφ.glue, hφ.glue,
      render hφ value, hrest]
    · simp [Atom.text, SourceText.text]
    all_goals decide

end

end Readout

/-! ## Noteworthy words -/

theorem partwise_marks : Partwise marks := fun _ _ h => marks_append h

theorem readout_marks : Readout marks where
  partwise := partwise_marks
  phrase := by decide +kernel
  numbered := by
    intro stem hstem n
    have hchars : stem.toList.all isWordChar = true := by
      revert stem
      decide
    have hplain := isNoteworthy_numbered stem hstem n
    rw [marks, words_numbered hchars, List.filter_singleton, hplain]
    rfl

/-- The fixed phrases around types in the text of a module. -/
def modulePhrases : List String :=
  ["interface ", " extends ", " \x7b\n  return: ", ";\n\x7d", "export ", "type ", " = ", ";", "// ",
    "\nnamespace ", " \x7b\n", "  ", ";\n", "\x7d", "import \x7b ", " \x7d from ", " \x7d from \"", "\";",
    "\n", "\n\n"] ++ Library.all.map (·.module .published) ++ Library.all.map (·.module .inTree)

theorem marks_phrase : ∀ p ∈ modulePhrases, marks p = [] := by decide +kernel

section

variable {a b p : String}

theorem marks_trail (h : p ∈ modulePhrases ∧ startsApart p = true) : marks (a ++ p) = marks a :=
  partwise_marks.trail (marks_phrase p h.1) h.2

theorem marks_lead (h : p ∈ modulePhrases ∧ endsApart p = true) : marks (p ++ b) = marks b :=
  partwise_marks.lead (marks_phrase p h.1) h.2

theorem marks_glue (h : p ∈ modulePhrases ∧ startsApart p = true ∧ endsApart p = true ∧ p ≠ "") :
    marks (a ++ p ++ b) = marks a ++ marks b :=
  partwise_marks.glue (marks_phrase p h.1) h.2.1 h.2.2.1 h.2.2.2

end

theorem marks_interface (f : Interface) :
    marks f.render = (Atom.lifted f.name :: f.atoms).flatMap fun atom => marks atom.text := by
  unfold Interface.render
  rw [marks_trail, marks_glue, marks_glue, marks_lead, readout_marks.render]
  · simp [Interface.atoms, Atom.text]
  all_goals decide

theorem marks_alias (a : Alias) : marks a.render = a.atoms.flatMap fun atom => marks atom.text := by
  rw [Alias.render, marks_glue, marks_lead, readout_marks.name, readout_marks.render, Alias.atoms,
    List.flatMap_append] <;> decide

theorem marks_declaration (d : Declaration) :
    marks d.render = d.atoms.flatMap fun atom => marks atom.text := by
  cases d with
  | named isExported type =>
    unfold Declaration.render
    rw [marks_trail (by decide)]
    cases isExported with
    | true => rw [if_pos rfl, marks_lead (by decide), marks_alias, Declaration.atoms]
    | false =>
      rw [if_neg Bool.false_ne_true, String.empty_append, marks_alias, Declaration.atoms]
  | group name body =>
    have hbody : marks (String.join (body.map fun a => "  " ++ a.render ++ ";\n")) =
        (body.flatMap Alias.atoms).flatMap fun atom => marks atom.text := by
      induction body with
      | nil => rfl
      | cons type body ih =>
        rw [List.map_cons, String.join_cons, marks_glue, marks_lead, marks_alias, ih,
          List.flatMap_cons, List.flatMap_append] <;> decide
    unfold Declaration.render
    rw [marks_trail, marks_glue, marks_glue, marks_lead, hbody]
    · simp [Declaration.atoms, Atom.text, SourceText.text]
    all_goals decide
  | importOf symbols source =>
    unfold Declaration.render
    rw [marks_trail, marks_glue, marks_lead, readout_marks.stringLiteral,
      readout_marks.commaSeparated]
    · simp [Declaration.atoms, Atom.text, SourceText.text, List.flatMap_map]
    all_goals decide

/-! ## Line feeds -/

/-- The line feeds of a text. -/
def lineFeeds (text : String) : List Char := text.toList.filter (· == '\n')

theorem readout_lineFeeds : Readout lineFeeds where
  partwise a b _ := by simp [lineFeeds]
  phrase := by decide +kernel
  numbered := by
    intro stem hstem n
    have hstem' : stem.toList.filter (· == '\n') = [] := by
      revert stem
      decide
    have hdigits : (toString n).toList.filter (· == '\n') = [] := by
      rw [List.filter_eq_nil_iff]
      intro c hc heq
      rw [beq_iff_eq.1 heq] at hc
      cases isDigit_of_mem_toString hc
    rw [lineFeeds, String.toList_append, List.filter_append, hstem', hdigits, List.append_nil]

end TypeScript

end TypeForge
