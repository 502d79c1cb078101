import TypeForge.Proofs.Token.Words
import TypeForge.TypeScript.Render
import Mathlib.Tactic.SplitIfs

/-!
# Words of a text

A word of a text is a longest run of characters that can stand in an identifier.  Generated
code is put together from texts, and its words are those of the parts wherever two parts meet
at a character that belongs to no word.

Two kinds of words are noteworthy: those that start with an upper case letter, among which are
all library symbols, and those that are spelled like the name of a lifted function.  The texts
that the generator writes on its own account have no other noteworthy words than library
symbols and names of lifted functions.
-/

namespace TypeForge

/-- The longest runs of letters, digits and underscores. -/
def wordRuns (cs : List Char) : List (List Char) :=
  (cs.splitOnP fun c => !isWordChar c).filter fun run => !run.isEmpty

/-- The words of a text. -/
def words (text : String) : List String := (wordRuns text.toList).map String.ofList

/-! ## Texts that stand apart -/

@[simp] theorem wordRuns_nil : wordRuns [] = [] := rfl

/-- **No word runs over a character that belongs to none.** -/
theorem wordRuns_append_cons {c : Char} (hc : isWordChar c = false) (cs ds : List Char) :
    wordRuns (cs ++ c :: ds) = wordRuns cs ++ wordRuns ds := by
  have hsep : (fun c => !isWordChar c) c = true := by simp [hc]
  rw [wordRuns, List.splitOnP_append_cons cs ds hsep, List.filter_append]
  rfl

theorem wordRuns_cons {c : Char} (hc : isWordChar c = false) (cs : List Char) :
    wordRuns (c :: cs) = wordRuns cs :=
  wordRuns_append_cons hc [] cs

/-- Characters that all belong to words make one word. -/
theorem wordRuns_of_forall {cs : List Char} (hne : cs ≠ []) (h : ∀ c ∈ cs, isWordChar c = true) :
    wordRuns cs = [cs] := by
  rw [wordRuns, List.splitOnP_eq_singleton fun c hc => by simp [h c hc]]
  simp [hne]

/-- Whether a text does not start inside a word. -/
def startsApart (text : String) : Bool := text.toList.head?.all fun c => !isWordChar c

/-- Whether a text does not end inside a word. -/
def endsApart (text : String) : Bool := text.toList.getLast?.all fun c => !isWordChar c

theorem endsApart_append {a b : String} (hne : b ≠ "") : endsApart (a ++ b) = endsApart b := by
  have hnil : b.toList ≠ [] := by simpa using hne
  rw [endsApart, endsApart, String.toList_append, List.getLast?_append,
    List.getLast?_eq_some_getLast hnil, Option.some_or]

/-- Where texts stand apart, each has its own words. -/
theorem words_append {a b : String} (h : endsApart a = true ∨ startsApart b = true) :
    words (a ++ b) = words a ++ words b := by
  have hruns : wordRuns (a.toList ++ b.toList) = wordRuns a.toList ++ wordRuns b.toList := by
    rcases h with hends | hstarts
    · rcases List.eq_nil_or_concat a.toList with hnil | ⟨cs, c, hconcat⟩
      · rw [hnil]
        rfl
      · rw [List.concat_eq_append] at hconcat
        have hc : isWordChar c = false := by simpa [endsApart, hconcat] using hends
        rw [hconcat, List.append_assoc, List.singleton_append, wordRuns_append_cons hc,
          wordRuns_append_cons hc, wordRuns_nil, List.append_nil]
    · cases hb : b.toList with
      | nil => simp
      | cons c cs =>
        have hc : isWordChar c = false := by simpa [startsApart, hb] using hstarts
        rw [wordRuns_append_cons hc, wordRuns_cons hc]
  rw [words, String.toList_append, hruns, List.map_append]
  rfl

theorem words_of_forall {text : String} (hne : text ≠ "")
    (h : ∀ c ∈ text.toList, isWordChar c = true) : words text = [text] := by
  have hnil : text.toList ≠ [] := by simpa using hne
  rw [words, wordRuns_of_forall hnil h, List.map_singleton, String.ofList_toList]

/-! ## Noteworthy words -/

/-- What the names of lifted functions start with. -/
def liftedStems : List String := ["lambda_temp_", "arm_temp_"]

/-- Whether a word is spelled like the name of a lifted function: a stem and a number. -/
def isLiftedWord (word : String) : Bool :=
  liftedStems.any fun stem => stem.toList.isPrefixOf word.toList &&
    (!(word.toList.drop stem.length).isEmpty && (word.toList.drop stem.length).all Char.isDigit)

/-- Whether a word starts with an upper case letter or is spelled like the name of a lifted
function. -/
def isNoteworthy (word : String) : Bool := word.toList.head?.any Char.isUpper || isLiftedWord word

/-- The noteworthy words of a text. -/
def marks (text : String) : List String := (words text).filter isNoteworthy

theorem marks_append {a b : String} (h : endsApart a = true ∨ startsApart b = true) :
    marks (a ++ b) = marks a ++ marks b := by
  rw [marks, words_append h, List.filter_append]
  rfl

theorem isLiftedWord_ofList_cons {c : Char} (hlambda : c ≠ 'l') (harm : c ≠ 'a') (cs : List Char) :
    isLiftedWord (String.ofList (c :: cs)) = false := by
  have hlambda' : "lambda_temp_".toList.isPrefixOf (c :: cs) = false := by
    simp [List.isPrefixOf, hlambda.symm]
  have harm' : "arm_temp_".toList.isPrefixOf (c :: cs) = false := by
    simp [List.isPrefixOf, harm.symm]
  simp only [isLiftedWord, liftedStems, String.toList_ofList, List.any_cons, hlambda', harm',
    Bool.false_and, List.any_nil, Bool.or_false]

/-- Noteworthy words start with an upper case letter or like a stem. -/
theorem isNoteworthy_ofList_cons {c : Char} (hupper : c.isUpper = false) (hlambda : c ≠ 'l')
    (harm : c ≠ 'a') (cs : List Char) : isNoteworthy (String.ofList (c :: cs)) = false := by
  rw [isNoteworthy, isLiftedWord_ofList_cons hlambda harm, String.toList_ofList]
  simp [hupper]

/-- Whether a text is one word that starts with an upper case letter. -/
def isCapitalised (text : String) : Bool :=
  text.toList.head?.any Char.isUpper && text.toList.all isWordChar

theorem isWordChar_of_isCapitalised {text : String} (h : isCapitalised text = true) :
    ∀ c ∈ text.toList, isWordChar c = true := by
  rw [isCapitalised, Bool.and_eq_true] at h
  exact List.all_eq_true.1 h.2

theorem marks_of_isCapitalised {text : String} (h : isCapitalised text = true) : marks text = [text] := by
  have hne : text ≠ "" := by
    rintro rfl
    exact absurd h (by decide)
  have hnoted : isNoteworthy text = true := by
    rw [isCapitalised, Bool.and_eq_true] at h
    rw [isNoteworthy, h.1, Bool.true_or]
  rw [marks, words_of_forall hne (isWordChar_of_isCapitalised h), List.filter_cons_of_pos hnoted,
    List.filter_nil]

theorem isLiftedWord_of_isCapitalised {text : String} (h : isCapitalised text = true) :
    isLiftedWord text = false := by
  rw [isCapitalised, Bool.and_eq_true] at h
  cases hchars : text.toList with
  | nil =>
    rw [hchars] at h
    cases h.1
  | cons c cs =>
    have hupper : c.isUpper = true := by
      rw [hchars] at h
      exact h.1
    rw [← String.ofList_toList (s := text), hchars]
    apply isLiftedWord_ofList_cons
    · rintro rfl
      exact absurd hupper (by decide)
    · rintro rfl
      exact absurd hupper (by decide)

/-! ## Numbered names -/

theorem toList_toString (n : Nat) : (toString n).toList = Nat.toDigits 10 n := by
  rw [Nat.toString_eq_repr, Nat.toList_repr]

theorem toString_injective {m n : Nat} (h : toString m = toString n) : m = n := by
  have hdigits : Nat.toDigits 10 m = Nat.toDigits 10 n := by
    rw [← toList_toString, h, toList_toString]
  rw [← Nat.ofDigitChars_toDigits (b := 10) (n := m) (by decide) (by decide), hdigits,
    Nat.ofDigitChars_toDigits (by decide) (by decide)]

theorem isDigit_of_mem_toString {n : Nat} {c : Char} (h : c ∈ (toString n).toList) :
    c.isDigit = true := by
  rw [toList_toString] at h
  exact Nat.isDigit_of_mem_toDigits (by decide) (by decide) h

/-- A stem and a number make one word. -/
theorem words_numbered {stem : String} (hstem : stem.toList.all isWordChar = true) (n : Nat) :
    words (stem ++ toString n) = [stem ++ toString n] := by
  refine words_of_forall ?_ fun c hc => ?_
  · have hne : Nat.toDigits 10 n ≠ [] := Nat.toDigits_ne_nil
    rw [ne_eq, ← String.toList_eq_nil_iff, String.toList_append, toList_toString]
    simp [hne]
  · rw [String.toList_append, List.mem_append] at hc
    rcases hc with hc | hc
    · exact List.all_eq_true.1 hstem c hc
    · exact isWordChar_of_isDigit (isDigit_of_mem_toString hc)

theorem isLiftedWord_numbered {stem : String} (hstem : stem ∈ liftedStems) (n : Nat) :
    isLiftedWord (stem ++ toString n) = true := by
  refine List.any_eq_true.2 ⟨stem, hstem, ?_⟩
  have hdrop : ((stem ++ toString n).toList.drop stem.length) = Nat.toDigits 10 n := by
    rw [String.toList_append, ← String.length_toList, List.drop_left, toList_toString]
  have hstart : stem.toList.isPrefixOf (stem ++ toString n).toList = true := by
    rw [List.isPrefixOf_iff_prefix, String.toList_append]
    exact List.prefix_append _ _
  have hdigits : (Nat.toDigits 10 n).all Char.isDigit = true :=
    List.all_eq_true.2 fun c hc => Nat.isDigit_of_mem_toDigits (by decide) (by decide) hc
  have hne : Nat.toDigits 10 n ≠ [] := Nat.toDigits_ne_nil
  rw [hstart, hdrop, hdigits]
  simp [hne]

theorem isUpper_of_isDigit {c : Char} (h : c.isDigit = true) : c.isUpper = false := by
  have hdigit : c.val ≤ 57 := by
    simp only [Char.isDigit, Bool.and_eq_true, decide_eq_true_eq] at h
    exact h.2
  have hnot : ¬ (c.val ≥ 65 ∧ c.val ≤ 90) := fun hupper => by grind
  exact decide_eq_false hnot

/-- Digits are no noteworthy word. -/
theorem isNoteworthy_of_digits {text : String} (hne : text ≠ "")
    (h : ∀ c ∈ text.toList, c.isDigit = true) : isNoteworthy text = false := by
  cases hchars : text.toList with
  | nil => exact absurd (String.toList_eq_nil_iff.1 hchars) hne
  | cons c cs =>
    have hdigit : c.isDigit = true := h c (hchars ▸ List.mem_cons_self)
    rw [← String.ofList_toList (s := text), hchars]
    apply isNoteworthy_ofList_cons (isUpper_of_isDigit hdigit)
    · rintro rfl
      cases hdigit
    · rintro rfl
      cases hdigit

/-- Neither a number nor the name of an argument or of a value is noteworthy. -/
theorem isNoteworthy_numbered :
    ∀ stem ∈ ["", "arg", "temp_"], ∀ n : Nat, isNoteworthy (stem ++ toString n) = false := by
  intro stem hstem n
  have hcases : stem = "" ∨ stem = "arg" ∨ stem = "temp_" := by simpa using hstem
  rcases hcases with rfl | rfl | rfl
  · rw [String.empty_append]
    apply isNoteworthy_of_digits
    · rw [ne_eq, ← String.toList_eq_nil_iff, toList_toString]
      exact Nat.toDigits_ne_nil
    · exact fun c hc => isDigit_of_mem_toString hc
  · simp [isNoteworthy, isLiftedWord, liftedStems, List.isPrefixOf]
  · simp [isNoteworthy, isLiftedWord, liftedStems, List.isPrefixOf]

/-! ## Escapes -/

/-- A word of a text with a character in front of it is a word of the text, or starts with that
character. -/
theorem mem_wordRuns_cons {c : Char} {cs run : List Char} (h : run ∈ wordRuns (c :: cs)) :
    run ∈ wordRuns cs ∨ run.head? = some c := by
  obtain ⟨hrun, hne⟩ := List.mem_filter.1 h
  rw [List.splitOnP_cons_eq_if_modifyHead] at hrun
  split at hrun
  · rcases List.mem_cons.1 hrun with rfl | hmem
    · simp at hne
    · exact .inl (List.mem_filter.2 ⟨hmem, hne⟩)
  · cases hsplit : cs.splitOnP fun c => !isWordChar c with
    | nil => exact absurd hsplit (List.splitOnP_ne_nil _ _)
    | cons first rest =>
      rw [hsplit, List.modifyHead_cons] at hrun
      rcases List.mem_cons.1 hrun with rfl | hmem
      · exact .inr rfl
      · exact .inl (List.mem_filter.2 ⟨hsplit ▸ List.mem_cons_of_mem _ hmem, hne⟩)

theorem literalChar_of_isWordChar {c : Char} (h : isWordChar c = true) :
    TypeScript.literalChar c = [c] := by
  have hne (d : Char) (hd : isWordChar d = false) : c ≠ d := by
    rintro rfl
    rw [hd] at h
    cases h
  simp [TypeScript.literalChar, hne '\\' (by decide), hne '\x22' (by decide), hne '\n' (by decide),
    hne '\r' (by decide)]

/-- The characters with an escape in string literals, and what stands behind the backslash. -/
def literalEscapes : List (Char × Char) := [('\\', '\\'), ('\x22', '\x22'), ('\n', 'n'), ('\r', 'r')]

/-- A character is written as itself, or as its escape if it has one. -/
theorem literalChar_cases (c : Char) :
    ((c ≠ '\\' ∧ c ≠ '\x22' ∧ c ≠ '\n' ∧ c ≠ '\r') ∧ TypeScript.literalChar c = [c]) ∨
      ∃ d, (c, d) ∈ literalEscapes ∧ TypeScript.literalChar c = ['\\', d] := by
  unfold TypeScript.literalChar
  split_ifs with hbackslash hquote hfeed hreturn
  · exact .inr ⟨'\\', by rw [hbackslash]; decide, rfl⟩
  · exact .inr ⟨'\x22', by rw [hquote]; decide, rfl⟩
  · exact .inr ⟨'n', by rw [hfeed]; decide, rfl⟩
  · exact .inr ⟨'r', by rw [hreturn]; decide, rfl⟩
  · exact .inl ⟨⟨hbackslash, hquote, hfeed, hreturn⟩, rfl⟩

/-- What an escape puts behind its backslash: no part of a word, or the letter of a line break. -/
theorem isWordChar_of_mem_literalEscapes {c d : Char} (h : (c, d) ∈ literalEscapes) :
    isWordChar d = false ∨ d = 'n' ∨ d = 'r' := by
  have hall : ∀ p ∈ literalEscapes, isWordChar p.2 = false ∨ p.2 = 'n' ∨ p.2 = 'r' := by decide
  exact hall _ h

/-- **Escapes change words only by what they start with**: a word of an escaped text is a word of
the text, or starts with the letter of an escape. -/
theorem mem_wordRuns_literal {cs front run : List Char} (hfront : ∀ c ∈ front, isWordChar c = true)
    (h : run ∈ wordRuns (front ++ cs.flatMap TypeScript.literalChar)) :
    run ∈ wordRuns (front ++ cs) ∨ run.head? = some 'n' ∨ run.head? = some 'r' := by
  induction cs generalizing front with
  | nil => exact .inl h
  | cons c cs ih =>
    rw [List.flatMap_cons] at h
    by_cases hc : isWordChar c = true
    · -- the word that `front` starts goes on
      rw [literalChar_of_isWordChar hc, ← List.append_assoc] at h
      have hword : ∀ d ∈ front ++ [c], isWordChar d = true := by
        intro d hd
        rcases List.mem_append.1 hd with hd | hd
        · exact hfront d hd
        · rwa [List.mem_singleton.1 hd]
      simpa using ih hword h
    · have hc' : isWordChar c = false := by simpa using hc
      have hbehind : run ∈ wordRuns (cs.flatMap TypeScript.literalChar) →
          run ∈ wordRuns cs ∨ run.head? = some 'n' ∨ run.head? = some 'r' :=
        fun hrun => @ih [] (by simp) hrun
      rw [wordRuns_append_cons hc', List.mem_append, or_assoc]
      rcases literalChar_cases c with ⟨-, hliteral⟩ | ⟨d, hd, hliteral⟩
      · rw [hliteral, List.singleton_append, wordRuns_append_cons hc', List.mem_append] at h
        exact h.imp_right hbehind
      · rw [hliteral, List.cons_append, List.singleton_append, wordRuns_append_cons (by decide),
          List.mem_append] at h
        refine h.imp_right fun hrun => ?_
        by_cases hescape : isWordChar d = false
        · exact hbehind (wordRuns_cons hescape _ ▸ hrun)
        · -- a line break becomes a letter in front of the next word
          have hletter := (isWordChar_of_mem_literalEscapes hd).resolve_left hescape
          have hword : ∀ e ∈ [d], isWordChar e = true := by simpa using hescape
          rcases @ih [d] hword hrun with hrun | hrun
          · rcases mem_wordRuns_cons hrun with hrun | hrun
            · exact .inl hrun
            · rcases hletter with rfl | rfl
              · exact .inr (.inl hrun)
              · exact .inr (.inr hrun)
          · exact .inr hrun

/-- A noteworthy word of an escaped text is a word of the text. -/
theorem mem_words_of_mem_marks_literal {text word : String}
    (h : word ∈ marks (String.ofList (text.toList.flatMap TypeScript.literalChar))) :
    word ∈ words text := by
  obtain ⟨hword, hnoted⟩ := List.mem_filter.1 h
  obtain ⟨run, hrun, rfl⟩ := List.mem_map.1 hword
  rw [String.toList_ofList] at hrun
  rcases @mem_wordRuns_literal text.toList [] run (by simp) hrun with hrun | hrun
  · exact List.mem_map_of_mem hrun
  · -- a word that starts with the letter of an escape is not noteworthy
    cases run with
    | nil => simp at hrun
    | cons c rest =>
      have hc : c = 'n' ∨ c = 'r' := by simpa using hrun
      have hplain : isNoteworthy (String.ofList (c :: rest)) = false := by
        rcases hc with rfl | rfl <;>
          exact isNoteworthy_ofList_cons (by decide) (by decide) (by decide) rest
      rw [hplain] at hnoted
      cases hnoted

end TypeForge
