import TypeForge.Proofs.Output.Tally

/-!
# What holds of code because it holds of its parts

The text of a type is made of phrases and words without a meaning to someone who looks for brackets,
strings and comments; of string literals and comments that are complete; and of brackets in pairs.  A
property of texts that all of these have, and that goes from parts to what is put together of them,
is a property of all generated code.

What it takes of the texts of template literals is up to the property, since the author of a program
writes them.
-/

namespace TypeForge

open TypeScript

namespace TypeScript

/-- The pairs of brackets. -/
inductive Bracket where
  | round | square | brace | angle
deriving DecidableEq

namespace Bracket

/-- The character that opens a pair. -/
def opening : Bracket → Char
  | round => '(' | square => '[' | brace => '\x7b' | angle => '<'

/-- The character that closes a pair. -/
def closing : Bracket → Char
  | round => ')' | square => ']' | brace => '\x7d' | angle => '>'

/-- A text between brackets. -/
def enclose (b : Bracket) (text : String) : String :=
  String.singleton b.opening ++ text ++ String.singleton b.closing

end Bracket

/-- The characters with a meaning in code: brackets, quotes and what starts a comment. -/
def syntaxMarks : List Char :=
  ['(', ')', '[', ']', '\x7b', '\x7d', '<', '>', '\x22', '\x27', '\x60', '/']

/-- A property of texts that goes from parts to what is put together of them, where the texts of
template literals have the property `chunk`. -/
structure Compositional (chunk : String → Prop) (P : String → Prop) : Prop where
  plain : ∀ text : String, text.toList.all (· ∉ syntaxMarks) = true → P text
  append : ∀ {a b : String}, P a → P b → P (a ++ b)
  enclosed : ∀ (b : Bracket) {text : String}, P text → P (b.enclose text)
  literal : ∀ text, P (stringLiteral text)
  comment : ∀ {name : String}, (∀ c ∈ name.toList, isWordChar c = true) → P (originText name)
  template : ∀ parts : List Piece, (∀ text, .source (.chunk text) ∈ atomsOfPieces "" parts → chunk text) →
    (∀ value, .ty value ∈ parts → P value.render) → P (Ty.template parts).render

/-- Names and numbers are made of word characters, and the texts of template literals have the
property `chunk`. -/
def Atom.Fits (chunk : String → Prop) : Atom → Prop
  | .source (.name text) | .source (.number text) | .member text => ∀ c ∈ text.toList, isWordChar c = true
  | .symbol s => ∀ c ∈ s.name.toList, isWordChar c = true
  | .source (.chunk text) => chunk text
  | .source (.quoted _) | .lifted _ => True

end TypeScript

theorem isWordChar_numbered (stem : String) (hstem : stem.toList.all isWordChar = true) (n : Nat) :
    ∀ c ∈ (stem ++ toString n).toList, isWordChar c = true := by
  rw [String.toList_append, List.forall_mem_append]
  exact ⟨List.all_eq_true.1 hstem, fun c hc => isWordChar_of_isDigit (isDigit_of_mem_toString hc)⟩

theorem argText_eq (n : Nat) :
    argText n = "this" ++ Bracket.square.enclose (stringLiteral ("arg" ++ toString n)) := by
  have hsame : ("arg" ++ toString n).toList.flatMap literalChar = ("arg" ++ toString n).toList := by
    rw [List.flatMap_congr fun c hc => literalChar_of_isWordChar (isWordChar_numbered "arg" (by decide) n c hc)]
    exact List.flatMap_singleton' _
  apply String.toList_injective
  rw [stringLiteral, hsame]
  simp [argText, Bracket.enclose, Bracket.opening, Bracket.closing]

/-! ## The text of types -/

namespace TypeScript.Compositional

variable {chunk : String → Prop} {P : String → Prop}

section

variable (hP : Compositional chunk P)

include hP

theorem word {text : String} (h : ∀ c ∈ text.toList, isWordChar c = true) : P text := by
  have hmarks : syntaxMarks.all (fun c => !isWordChar c) = true := by decide
  refine hP.plain text (List.all_eq_true.2 fun c hc => decide_eq_true fun hmark => ?_)
  have hword := List.all_eq_true.1 hmarks c hmark
  rw [h c hc] at hword
  cases hword

theorem argText (n : Nat) : P (argText n) := by
  rw [argText_eq]
  exact hP.append (hP.plain _ (by decide)) (hP.enclosed .square (hP.literal _))

theorem optionalText (optional : Bool) : P (optionalText optional) := by
  cases optional with
  | true => exact hP.plain _ (by decide)
  | false => exact hP.plain _ (by decide)

theorem keyword (keyword : Keyword) : P keyword.render := hP.plain _ (by cases keyword <;> decide)

theorem name {name : Name} (h : ∀ atom ∈ name.atoms, atom.Fits chunk) : P name.render := by
  cases name with
  | user text => exact hP.word (h _ (List.mem_singleton_self _))
  | temp id => exact hP.word (isWordChar_numbered _ (by decide) id)
  | lambda id => exact hP.word (isWordChar_numbered _ (by decide) id)
  | arm id => exact hP.word (isWordChar_numbered _ (by decide) id)

/-- Texts with a phrase between them. -/
theorem intercalate {p : String} (hp : P p) {texts : List String} (h : ∀ text ∈ texts, P text) :
    P (p.intercalate texts) := by
  induction texts with
  | nil => exact hP.plain "" (by decide)
  | cons text texts ih =>
    rw [List.forall_mem_cons] at h
    cases texts with
    | nil =>
      rw [String.intercalate_singleton]
      exact h.1
    | cons next texts =>
      rw [String.intercalate_cons_cons]
      exact hP.append (hP.append h.1 hp) (ih h.2)

theorem commaSeparated {texts : List String} (h : ∀ text ∈ texts, P text) : P (commaSeparated texts) :=
  hP.intercalate (hP.plain _ (by decide)) h

/-- A text in brackets behind another one. -/
theorem behind (b : Bracket) {head text : String} (hhead : P head) (htext : P text) :
    P (head ++ String.singleton b.opening ++ text ++ String.singleton b.closing) := by
  have hwhole := hP.append hhead (hP.enclosed b htext)
  rwa [Bracket.enclose, ← String.append_assoc, ← String.append_assoc] at hwhole

/-- What stands in front of the value of a field or of a mapped type. -/
theorem field {key value : String} (optional : Bool) (hkey : P key) (hvalue : P value) :
    P (key ++ TypeScript.optionalText optional ++ ": " ++ value) :=
  hP.append (hP.append (hP.append hkey (hP.optionalText optional)) (hP.plain _ (by decide))) hvalue

end

/-! The text of types, by recursion on them. -/

mutual

/-- **A compositional property holds of the text of a type whose atoms fit.** -/
theorem render (hP : Compositional chunk P) : ∀ t : Ty, (∀ atom ∈ t.atoms, atom.Fits chunk) → P t.render
  | .name name, h => hP.name h
  | .symbol symbol none, h => hP.word (h _ (List.mem_singleton_self _))
  | .symbol symbol (some member), h => by
    have hsymbol := hP.word (h (.symbol symbol) (by simp))
    have hmember := hP.word (h (.member member) (by simp))
    exact hP.append (hP.append hsymbol (hP.plain _ (by decide))) hmember
  | .arg number, _ => hP.argText number
  | .param number origin, h => hP.append (hP.argText number) (hP.comment (h (.source (.name origin)) (by simp)))
  | .captured slot origin, h => by
    have hslot : P (toString slot) := by
      have hword := isWordChar_numbered "" (by decide) slot
      rw [String.empty_append] at hword
      exact hP.word hword
    have horigin := hP.comment (h (.source (.name origin)) (by simp))
    exact hP.append (hP.behind .square (hP.argText 0) hslot) horigin
  | .number digits, h => hP.word (h (.source (.number digits)) (by simp))
  | .string text, _ => hP.literal text
  | .keyword keyword, _ => hP.keyword keyword
  | .apply head args, h => by
    rw [Ty.atoms, List.forall_mem_append] at h
    exact hP.behind .angle (hP.render head h.1) (hP.commaSeparated (hP.tyTexts args h.2))
  | .paren inner, h => hP.enclosed .round (hP.render inner h)
  | .operation op lhs rhs, h => by
    rw [Ty.atoms, List.forall_mem_append] at h
    have hop : P op.text := hP.plain _ (by cases op <;> decide)
    have hspace : P " " := hP.plain _ (by decide)
    exact hP.append (hP.append (hP.append (hP.append (hP.render lhs h.1) hspace) hop) hspace) (hP.render rhs h.2)
  | .index object key, h => by
    rw [Ty.atoms, List.forall_mem_append] at h
    exact hP.behind .square (hP.render object h.1) (hP.render key h.2)
  | .conditional check pattern yes no, h => by
    simp only [Ty.atoms, List.forall_mem_append] at h
    have hcheck := hP.append (hP.render check h.1) (hP.plain " extends " (by decide))
    have hpattern := hP.append (hP.append hcheck (hP.render pattern h.2.1)) (hP.plain " ? " (by decide))
    have hyes := hP.append (hP.append hpattern (hP.render yes h.2.2.1)) (hP.plain " : " (by decide))
    exact hP.append hyes (hP.render no h.2.2.2)
  | .infer name none, h => by
    simp only [Ty.atoms, atomsOfOption, List.append_nil] at h
    exact hP.append (hP.plain _ (by decide)) (hP.name h)
  | .infer name (some bound), h => by
    rw [Ty.atoms, List.forall_mem_append] at h
    have hname := hP.append (hP.plain "infer " (by decide)) (hP.name h.1)
    exact hP.append (hP.append hname (hP.plain _ (by decide))) (hP.render bound h.2)
  | .tuple elements, h => hP.enclosed .square (hP.commaSeparated (hP.tyTexts elements h))
  | .object fields, h => hP.enclosed .brace (hP.commaSeparated (hP.fieldTexts fields h))
  | .mapped key union none optional value, h => by
    simp only [Ty.atoms, atomsOfOption, List.forall_mem_cons, List.nil_append, List.forall_mem_append] at h
    have hkey := hP.append (hP.append (hP.word h.1) (hP.plain " in " (by decide))) (hP.render union h.2.1)
    have hfield := hP.field optional (hP.enclosed .square hkey) (hP.render value h.2.2)
    have htext : (Ty.mapped key union none optional value).render = Bracket.brace.enclose
        (Bracket.square.enclose (key ++ " in " ++ union.render) ++ TypeScript.optionalText optional ++ ": " ++
          value.render) := by
      rw [Ty.render_mapped]
      apply String.toList_injective
      simp [Bracket.enclose, Bracket.opening, Bracket.closing]
    rw [htext]
    exact hP.enclosed .brace hfield
  | .mapped key union (some renamed) optional value, h => by
    simp only [Ty.atoms, atomsOfOption, List.forall_mem_cons, List.forall_mem_append] at h
    have hunion := hP.append (hP.append (hP.word h.1) (hP.plain " in " (by decide))) (hP.render union h.2.1)
    have hkey := hP.append (hP.append hunion (hP.plain " as " (by decide))) (hP.render renamed h.2.2.1)
    have hfield := hP.field optional (hP.enclosed .square hkey) (hP.render value h.2.2.2)
    have htext : (Ty.mapped key union (some renamed) optional value).render = Bracket.brace.enclose
        (Bracket.square.enclose (key ++ " in " ++ union.render ++ " as " ++ renamed.render) ++
          TypeScript.optionalText optional ++ ": " ++ value.render) := by
      rw [Ty.render_mapped_renamed]
      apply String.toList_injective
      simp [Bracket.enclose, Bracket.opening, Bracket.closing]
    rw [htext]
    exact hP.enclosed .brace hfield
  | .template parts, h => hP.template parts (fun _ htext => h _ htext) (hP.pieces "" parts h)

theorem tyTexts (hP : Compositional chunk P) : ∀ ts : List Ty, (∀ atom ∈ atomsOfTys ts, atom.Fits chunk) →
    ∀ text ∈ tyTexts ts, P text
  | [], _ => List.forall_mem_nil _
  | t :: ts, h => by
    rw [atomsOfTys, List.forall_mem_append] at h
    exact List.forall_mem_cons.2 ⟨hP.render t h.1, hP.tyTexts ts h.2⟩

theorem fieldTexts (hP : Compositional chunk P) : ∀ fs : List Field,
    (∀ atom ∈ atomsOfFields fs, atom.Fits chunk) → ∀ text ∈ fieldTexts fs, P text
  | [], _ => List.forall_mem_nil _
  | .named name optional value :: fs, h => by
    rw [atomsOfFields, List.forall_mem_cons, List.forall_mem_append] at h
    exact List.forall_mem_cons.2
      ⟨hP.field optional (hP.literal name) (hP.render value h.2.1), hP.fieldTexts fs h.2.2⟩
  | .computed key optional value :: fs, h => by
    rw [atomsOfFields, List.forall_mem_append, List.forall_mem_append] at h
    exact List.forall_mem_cons.2
      ⟨hP.field optional (hP.enclosed .square (hP.render key h.1)) (hP.render value h.2.1), hP.fieldTexts fs h.2.2⟩

theorem pieces (hP : Compositional chunk P) (front : String) : ∀ ps : List Piece,
    (∀ atom ∈ atomsOfPieces front ps, atom.Fits chunk) → ∀ value, .ty value ∈ ps → P value.render
  | [], _ => by simp
  | .text text :: ps, h => by
    have hrest := hP.pieces (front ++ text) ps h
    simpa using hrest
  | .ty value :: ps, h => by
    rw [atomsOfPieces, List.forall_mem_cons, List.forall_mem_append] at h
    have hvalue := hP.render value h.2.1
    have hrest := hP.pieces "" ps h.2.2
    simp only [List.mem_cons, Piece.ty.injEq, forall_eq_or_imp]
    exact ⟨hvalue, hrest⟩

end

end TypeScript.Compositional

/-! ## Atoms of programs -/

section

variable {chunk : String → Prop} {texts : List SourceText}

/-- Symbols and members are words. -/
theorem fits_of_known (htexts : ∀ text ∈ texts, (Atom.source text).Fits chunk) {atom : Atom}
    (h : atom.Known texts) : atom.Fits chunk := by
  cases atom with
  | source text =>
    rcases h with htext | rfl
    · exact htexts text htext
    · exact List.all_eq_true.1 (by decide : "1".toList.all isWordChar = true)
  | symbol s =>
    have hsymbols : ∀ s ∈ Symbol.emitted, s.name.toList.all isWordChar = true := by decide
    exact List.all_eq_true.1 (hsymbols s h)
  | member name =>
    have hmembers : ∀ name ∈ memberNames, name.toList.all isWordChar = true := by decide
    exact List.all_eq_true.1 (hmembers name h)
  | lifted name => trivial

theorem SourceText.Spelled.fits {text : SourceText} (h : text.Spelled)
    (hchunk : ∀ string, text = .chunk string → chunk string) : (Atom.source text).Fits chunk := by
  cases text with
  | name name => exact isWordChar_of_isIdentifier h
  | number digits =>
    intro c hc
    rw [SourceText.Spelled, isNumber, Bool.and_eq_true, List.all_eq_true] at h
    exact isWordChar_of_isDigit (h.2 c hc)
  | quoted text => trivial
  | chunk text => exact hchunk text rfl

end

end TypeForge
