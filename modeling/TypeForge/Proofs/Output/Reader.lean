import TypeForge.Proofs.Output.Words
import Mathlib.Data.List.Infix

/-!
# Reading template literals

In the target language a template literal has escapes: a backslash starts one.  A dollar sign with
an opening brace opens a substitution, and a backtick that is not escaped ends the literal.  What is
inside of a substitution is code, up to the brace that closes it; braces in strings, in comments
and in the texts of template literals inside of it do not count.

The reader goes through a literal character by character.  It resolves the escapes of the texts of
the literal and takes the code of substitutions as it stands.
-/

namespace TypeForge.TypeScript

/-! ## Escapes -/

/-- What the characters behind a backslash are. -/
inductive Escape where
  | incomplete
  | stands (text : List Char)
  | malformed
deriving DecidableEq

/-- The value of a hexadecimal digit. -/
def hexValue? (c : Char) : Option Nat :=
  if c.isDigit then some (c.toNat - '0'.toNat)
  else if 'a' ≤ c ∧ c ≤ 'f' then some (c.toNat - 'a'.toNat + 10)
  else if 'A' ≤ c ∧ c ≤ 'F' then some (c.toNat - 'A'.toNat + 10)
  else none

/-- The character whose number is given by hexadecimal digits. -/
def codePoint (digits : List Char) : Escape :=
  match digits.foldlM (fun n c => (hexValue? c).map (16 * n + ·)) 0 with
  | some n => if digits ≠ [] ∧ n.isValidChar then .stands [Char.ofNat n] else .malformed
  | none => .malformed

/-- Hexadecimal digits that need more digits behind them. -/
def someDigits (digits : List Char) : Escape :=
  if digits.all fun c => (hexValue? c).isSome then .incomplete else .malformed

/-- Letters that stand for control characters. -/
def controls : List (Char × Char) :=
  [('n', '\n'), ('r', '\r'), ('t', '\t'), ('b', '\x08'), ('v', '\x0b'), ('f', '\x0c'), ('0', '\x00')]

/-- An escape of a single character: a line break is left out, no digit but zero is allowed, and
what has no meaning of its own stands for itself. -/
def simpleEscape (c : Char) : Escape :=
  match controls.lookup c with
  | some control => .stands [control]
  | none =>
    if c ∈ ['\n', '\r', '\u2028', '\u2029'] then .stands []
    else if c.isDigit then .malformed
    else .stands [c]

/-- What the characters behind a backslash stand for. -/
def escapeOf : List Char → Escape
  | 'x' :: digits => if digits.length = 2 then codePoint digits else someDigits digits
  | 'u' :: '\x7b' :: digits =>
    if digits.getLast? = some '\x7d' then codePoint digits.dropLast else someDigits digits
  | 'u' :: digits => if digits.length = 4 then codePoint digits else someDigits digits
  | [c] => simpleEscape c
  | _ => .malformed

/-! ## The reader -/

/-- Where a character stands in the text of a template literal. -/
inductive TextPlace where
  | plain
  /-- Behind a dollar sign. -/
  | dollar
  /-- Behind a backslash and the given characters. -/
  | escape (seen : List Char)
deriving DecidableEq

/-- Where a character stands. -/
inductive Place where
  | text (place : TextPlace)
  | code
  /-- Behind a slash in code. -/
  | slash
  | lineComment
  | comment
  /-- Behind an asterisk in a comment. -/
  | asterisk
  | quoted (quote : Char)
  /-- Behind a backslash in a string. -/
  | quotedEscape (quote : Char)
  /-- Behind the literal. -/
  | closed
deriving DecidableEq

/-- What a closing brace in code closes. -/
inductive Opening where
  | brace
  | substitution
deriving DecidableEq

/-- What a character does in the text of a template literal. -/
inductive TextMove where
  | on (place : TextPlace)
  /-- It ends the literal. -/
  | ends
  /-- It opens a substitution. -/
  | opens

/-- What a character does in plain text. -/
def plainMove (c : Char) : TextMove :=
  if c = '\x60' then .ends
  else if c = '$' then .on .dollar
  else if c = '\\' then .on (.escape [])
  else .on .plain

/-- What a character does in the text of a template literal; none if it makes an escape
malformed. -/
def TextPlace.move : TextPlace → Char → Option TextMove
  | plain, c => some (plainMove c)
  | dollar, c => if c = '\x7b' then some .opens else some (plainMove c)
  | escape seen, c =>
    match escapeOf (seen ++ [c]) with
    | .incomplete => some (.on (escape (seen ++ [c])))
    | .stands _ => some (.on plain)
    | .malformed => none

/-- The text that a plain character stands for. -/
def plainText (c : Char) : List Char := if c = '\x60' ∨ c = '$' ∨ c = '\\' then [] else [c]

/-- The text that is certain with a character.  A dollar sign is text if no brace is behind it. -/
def TextPlace.resolved : TextPlace → Char → List Char
  | plain, c => plainText c
  | dollar, c => if c = '\x7b' then [] else '$' :: plainText c
  | escape seen, c =>
    match escapeOf (seen ++ [c]) with
    | .stands text => text
    | .incomplete | .malformed => []

/-- Where the character behind another one in code stands. -/
def codeMove (openings : List Opening) (c : Char) : Option (Place × List Opening) :=
  if c = '\x7b' then some (.code, .brace :: openings)
  else if c = '\x7d' then
    match openings with
    | [] => none
    | .brace :: openings => some (.code, openings)
    | .substitution :: openings => some (.text .plain, openings)
  else if c = '\x60' then some (.text .plain, openings)
  else if c = '\x22' ∨ c = '\x27' then some (.quoted c, openings)
  else if c = '/' then some (.slash, openings)
  else some (.code, openings)

/-- Where the character behind another one inside of a substitution stands, and what is open
there. -/
def Place.move (openings : List Opening) : Place → Char → Option (Place × List Opening)
  | text place, c =>
    (place.move c).map fun
      | .on place => (text place, openings)
      | .ends => (code, openings)
      | .opens => (code, .substitution :: openings)
  | code, c => codeMove openings c
  | slash, c =>
    if c = '/' then some (lineComment, openings)
    else if c = '*' then some (comment, openings)
    else codeMove openings c
  | lineComment, c => some (if c = '\n' then code else lineComment, openings)
  | comment, c => some (if c = '*' then asterisk else comment, openings)
  | asterisk, c => some (if c = '/' then code else if c = '*' then asterisk else comment, openings)
  | quoted quote, c =>
    if c = quote then some (code, openings)
    else if c = '\\' then some (quotedEscape quote, openings)
    else if c = '\n' ∨ c = '\r' then none
    else some (quoted quote, openings)
  | quotedEscape quote, _ => some (quoted quote, openings)
  | closed, _ => none

/-- A part of a template literal: a text whose escapes are resolved, or the code of a
substitution. -/
inductive Chunk where
  | text (text : List Char)
  | substitution (code : List Char)
deriving DecidableEq

/-- How far a template literal is read. -/
structure Reader where
  place : Place
  /-- What is open, innermost first; nothing in a text of the literal itself. -/
  openings : List Opening
  /-- The parts that are complete. -/
  chunks : List Chunk
  /-- What is read of the next part. -/
  current : List Char

/-- Reads a character; none if there can be no such character here. -/
def Reader.step (r : Reader) (c : Char) : Option Reader :=
  match r.openings, r.place with
  | [], .text place =>
    (place.move c).map fun
      | .on place' => ⟨.text place', [], r.chunks, r.current ++ place.resolved c⟩
      | .ends => ⟨.closed, [], r.chunks ++ [.text (r.current ++ place.resolved c)], []⟩
      | .opens => ⟨.code, [.substitution], r.chunks ++ [.text (r.current ++ place.resolved c)], []⟩
  | [], _ => none
  | openings, place =>
    (place.move openings c).map fun
      | (place', []) => ⟨place', [], r.chunks ++ [.substitution r.current], []⟩
      | (place', openings') => ⟨place', openings', r.chunks, r.current ++ [c]⟩

/-- The texts and substitutions of a template literal; none if the text is not a template literal
from its first character to its last. -/
def readTemplate : List Char → Option (List Chunk)
  | '\x60' :: cs => do
    let r ← cs.foldlM Reader.step ⟨.text .plain, [], [], []⟩
    if r.place = .closed then some r.chunks else none
  | _ => none

example : readTemplate "\x60a\\x41$$\x7b [\x7bb:'\x7d'\x7d] \x7d\\\x60c\x60".toList =
    some [.text ['a', 'A', '$'], .substitution " [\x7bb:'\x7d'\x7d] ".toList, .text ['\x60', 'c']] := by
  decide +kernel

/-! ## Texts that are read as they stand -/

/-- A text without anything that has a meaning in a template literal. -/
structure Verbatim (text : List Char) : Prop where
  backtick : '\x60' ∉ text
  backslash : '\\' ∉ text
  mark : ¬ ['$', '\x7b'] <:+: text

instance (text : List Char) : Decidable (Verbatim text) :=
  decidable_of_iff ('\x60' ∉ text ∧ '\\' ∉ text ∧ ¬ ['$', '\x7b'] <:+: text)
    ⟨fun h => ⟨h.1, h.2.1, h.2.2⟩, fun h => ⟨h.backtick, h.backslash, h.mark⟩⟩

theorem Verbatim.of_infix {text text' : List Char} (h : Verbatim text) (hinside : text' <:+: text) :
    Verbatim text' where
  backtick hmem := h.backtick (hinside.subset hmem)
  backslash hmem := h.backslash (hinside.subset hmem)
  mark hmark := h.mark (hmark.trans hinside)

namespace TextPlace

/-- The text that waits for the next character. -/
def pending : TextPlace → List Char
  | dollar => ['$']
  | plain | escape _ => []

/-- Outside of escapes. -/
def IsPlain (place : TextPlace) : Prop := place = plain ∨ place = dollar

/-- A character without a meaning is text. -/
theorem IsPlain.move {place : TextPlace} (h : place.IsPlain) {c : Char} (hbacktick : c ≠ '\x60')
    (hbackslash : c ≠ '\\') (hmark : place = dollar → c ≠ '\x7b') :
    ∃ place' : TextPlace, place'.IsPlain ∧ place.move c = some (.on place') ∧
      place.resolved c ++ place'.pending = place.pending ++ [c] := by
  have hmove : place.move c = some (plainMove c) := by
    rcases h with rfl | rfl
    · rfl
    · rw [TextPlace.move, if_neg (hmark rfl)]
  have hresolved : place.resolved c = place.pending ++ plainText c := by
    rcases h with rfl | rfl
    · rfl
    · rw [resolved, if_neg (hmark rfl)]
      rfl
  rw [hmove, hresolved]
  by_cases hdollar : c = '$'
  · refine ⟨dollar, .inr rfl, ?_, ?_⟩
    · simp [plainMove, hdollar]
    · simp [plainText, hdollar, pending]
  · refine ⟨plain, .inl rfl, ?_, ?_⟩
    · simp [plainMove, hbacktick, hdollar, hbackslash]
    · simp [plainText, hbacktick, hdollar, hbackslash, pending]

end TextPlace

theorem Verbatim.ne_of_mem {text : List Char} (h : Verbatim text) {c : Char} (hc : c ∈ text) :
    c ≠ '\x60' ∧ c ≠ '\\' :=
  ⟨fun heq => h.backtick (heq ▸ hc), fun heq => h.backslash (heq ▸ hc)⟩

/-! ## Steps of the reader -/

section

variable {place : TextPlace} {chunks : List Chunk} {current : List Char} {c : Char}

theorem step_on {place' : TextPlace} (h : place.move c = some (.on place')) :
    Reader.step ⟨.text place, [], chunks, current⟩ c =
      some ⟨.text place', [], chunks, current ++ place.resolved c⟩ := by
  simp [Reader.step, h]

theorem step_ends (h : place.move c = some .ends) :
    Reader.step ⟨.text place, [], chunks, current⟩ c =
      some ⟨.closed, [], chunks ++ [.text (current ++ place.resolved c)], []⟩ := by
  simp [Reader.step, h]

theorem step_opens (h : place.move c = some .opens) :
    Reader.step ⟨.text place, [], chunks, current⟩ c =
      some ⟨.code, [.substitution], chunks ++ [.text (current ++ place.resolved c)], []⟩ := by
  simp [Reader.step, h]

end

/-- Inside of a substitution the reader gets from one place to another, and takes the text in
between as it stands. -/
def Traverses (place : Place) (openings : List Opening) (text : List Char) (place' : Place)
    (openings' : List Opening) : Prop :=
  ∀ chunks current, text.foldlM Reader.step ⟨place, openings, chunks, current⟩ =
    some ⟨place', openings', chunks, current ++ text⟩

section

variable {place place' place'' : Place} {openings openings' openings'' : List Opening}
  {text text' : List Char}

theorem traverses_nil : Traverses place openings [] place openings := by
  intro chunks current
  simp

theorem Traverses.append (h : Traverses place openings text place' openings')
    (h' : Traverses place' openings' text' place'' openings'') :
    Traverses place openings (text ++ text') place'' openings'' := by
  intro chunks current
  rw [List.foldlM_append, h chunks current, Option.bind_eq_bind, Option.bind_some, h' chunks (current ++ text),
    List.append_assoc]

theorem traverses_singleton {opening opening' : Opening} {c : Char}
    (h : place.move (opening :: openings) c = some (place', opening' :: openings')) :
    Traverses place (opening :: openings) [c] place' (opening' :: openings') := by
  intro chunks current
  have hstep : Reader.step ⟨place, opening :: openings, chunks, current⟩ c =
      some ⟨place', opening' :: openings', chunks, current ++ [c]⟩ := by
    simp [Reader.step, h]
  rw [List.foldlM_cons, hstep, Option.bind_eq_bind, Option.bind_some, List.foldlM_nil]
  rfl

theorem Traverses.cons {opening opening' : Opening} {c : Char}
    (h : place.move (opening :: openings) c = some (place', opening' :: openings'))
    (h' : Traverses place' (opening' :: openings') text place'' openings'') :
    Traverses place (opening :: openings) (c :: text) place'' openings'' :=
  (traverses_singleton h).append h'

end

/-- **A text without a meaning is text to the reader**, in the literal and inside of a
substitution. -/
theorem read_verbatim {place : TextPlace} (hplace : place.IsPlain) {text : List Char}
    (h : Verbatim (place.pending ++ text)) :
    ∃ place' : TextPlace, place'.IsPlain ∧
      (∀ chunks current, ∃ current', text.foldlM Reader.step ⟨.text place, [], chunks, current⟩ =
        some ⟨.text place', [], chunks, current'⟩ ∧
          current' ++ place'.pending = current ++ (place.pending ++ text)) ∧
      ∀ opening openings, Traverses (.text place) (opening :: openings) text (.text place') (opening :: openings) := by
  induction text generalizing place with
  | nil => exact ⟨place, hplace, fun chunks current => ⟨current, by simp⟩, fun _ _ => traverses_nil⟩
  | cons c text ih =>
    obtain ⟨hbacktick, hbackslash⟩ := h.ne_of_mem (c := c) (by simp)
    have hmark : place = .dollar → c ≠ '\x7b' := by
      rintro rfl rfl
      exact h.mark (List.prefix_append ['$', '\x7b'] text).isInfix
    obtain ⟨place₁, hplace₁, hmove, hresolved⟩ := hplace.move hbacktick hbackslash hmark
    have hrest : Verbatim (place₁.pending ++ text) := by
      refine h.of_infix ⟨place.resolved c, [], ?_⟩
      rw [List.append_nil, ← List.append_assoc, hresolved, List.append_assoc]
      rfl
    obtain ⟨place', hplace', hown, hinside⟩ := ih hplace₁ hrest
    refine ⟨place', hplace', fun chunks current => ?_, fun opening openings => ?_⟩
    · obtain ⟨current', hrun, hcurrent⟩ := hown chunks (current ++ place.resolved c)
      refine ⟨current', ?_, ?_⟩
      · rw [List.foldlM_cons, step_on hmove, Option.bind_eq_bind, Option.bind_some, hrun]
      · rw [hcurrent, List.append_assoc, ← List.append_assoc (place.resolved c), hresolved, List.append_assoc]
        rfl
    · refine Traverses.cons ?_ (hinside opening openings)
      rw [Place.move, hmove]
      rfl

/-! ## Code -/

/-- Code that the reader takes as it stands and behind which it is in code again. -/
def Skips (text : List Char) : Prop :=
  ∀ opening openings, Traverses .code (opening :: openings) text .code (opening :: openings)

/-- The characters that have a meaning to the reader in code. -/
def codeMarks : List Char := ['\x7b', '\x7d', '\x60', '\x22', '\x27', '/']

theorem skips_nil : Skips [] := fun _ _ => traverses_nil

theorem Skips.append {text text' : List Char} (h : Skips text) (h' : Skips text') : Skips (text ++ text') :=
  fun opening openings => (h opening openings).append (h' opening openings)

theorem skips_of_forall {text : List Char} (h : ∀ c ∈ text, c ∉ codeMarks) : Skips text := by
  induction text with
  | nil => exact skips_nil
  | cons c text ih =>
    rw [List.forall_mem_cons] at h
    intro opening openings
    refine Traverses.cons ?_ (ih h.2 opening openings)
    have hc := h.1
    simp only [codeMarks, List.mem_cons, List.not_mem_nil, or_false, not_or] at hc
    simp [Place.move, codeMove, hc]

theorem skips_of_all {text : List Char} (h : text.all (· ∉ codeMarks) = true) : Skips text :=
  skips_of_forall fun c hc => by simpa using List.all_eq_true.1 h c hc

theorem Skips.braced {text : List Char} (h : Skips text) : Skips ('\x7b' :: text ++ ['\x7d']) := by
  intro opening openings
  have hopen : Traverses .code (opening :: openings) ('\x7b' :: text) .code (.brace :: opening :: openings) :=
    Traverses.cons (by simp [Place.move, codeMove]) (h _ _)
  exact hopen.append (traverses_singleton (by simp [Place.move, codeMove]))

/-- The escapes of a string literal keep the reader in it. -/
theorem traverses_literalChar (c : Char) (opening : Opening) (openings : List Opening) :
    Traverses (.quoted '\x22') (opening :: openings) (literalChar c) (.quoted '\x22') (opening :: openings) := by
  rcases literalChar_cases c with ⟨⟨hbackslash, hquote, hfeed, hreturn⟩, hliteral⟩ | ⟨d, -, hliteral⟩
  · rw [hliteral]
    refine traverses_singleton ?_
    simp [Place.move, hbackslash, hquote, hfeed, hreturn]
  · rw [hliteral]
    exact Traverses.cons rfl (traverses_singleton rfl)

theorem skips_stringLiteral (text : String) : Skips (stringLiteral text).toList := by
  intro opening openings
  have hinside : Traverses (.quoted '\x22') (opening :: openings) (text.toList.flatMap literalChar) (.quoted '\x22')
      (opening :: openings) := by
    induction text.toList with
    | nil => exact traverses_nil
    | cons c cs ih =>
      rw [List.flatMap_cons]
      exact (traverses_literalChar c opening openings).append ih
  rw [stringLiteral, String.toList_ofList]
  have hopen : Traverses .code (opening :: openings) ['\x22'] (.quoted '\x22') (opening :: openings) :=
    traverses_singleton rfl
  exact (hopen.append hinside).append (traverses_singleton rfl)

/-- A comment on the origin of a name. -/
theorem skips_originText {name : String} (h : ∀ c ∈ name.toList, c ≠ '*') : Skips (originText name).toList := by
  intro opening openings
  have hname (cs : List Char) (hcs : ∀ c ∈ cs, c ≠ '*') :
      Traverses .comment (opening :: openings) cs .comment (opening :: openings) := by
    induction cs with
    | nil => exact traverses_nil
    | cons c cs ih =>
      rw [List.forall_mem_cons] at hcs
      exact Traverses.cons (by simp [Place.move, hcs.1]) (ih hcs.2)
  have hopen : Traverses .code (opening :: openings) " /** ".toList .comment (opening :: openings) :=
    Traverses.cons rfl (Traverses.cons rfl (Traverses.cons rfl (Traverses.cons rfl (traverses_singleton rfl))))
  have hclose : Traverses .comment (opening :: openings) " */".toList .code (opening :: openings) :=
    Traverses.cons rfl (Traverses.cons rfl (traverses_singleton rfl))
  rw [originText, String.toList_append, String.toList_append]
  exact (hopen.append (hname _ h)).append hclose

/-- The end of a template literal inside of a substitution. -/
theorem traverses_backtick {place : TextPlace} (h : place.IsPlain) (opening : Opening) (openings : List Opening) :
    Traverses (.text place) (opening :: openings) ['\x60'] .code (opening :: openings) := by
  rcases h with rfl | rfl
  · exact traverses_singleton rfl
  · exact traverses_singleton rfl

/-- A substitution of a template literal inside of a substitution. -/
theorem traverses_substitution {place : TextPlace} (h : place.IsPlain) {code : List Char} (hcode : Skips code)
    (opening : Opening) (openings : List Opening) :
    Traverses (.text place) (opening :: openings) ('$' :: '\x7b' :: code ++ ['\x7d']) (.text .plain)
      (opening :: openings) := by
  have hopen : Traverses (.text place) (opening :: openings) ['$', '\x7b'] .code
      (.substitution :: opening :: openings) := by
    rcases h with rfl | rfl
    · exact Traverses.cons rfl (traverses_singleton rfl)
    · exact Traverses.cons rfl (traverses_singleton rfl)
  exact (hopen.append (hcode _ _)).append (traverses_singleton rfl)

end TypeForge.TypeScript
