import TypeForge.Token
import TypeForge.Text.WhiteSpace

/-!
# Reading tokens

A cursor is the text that is still to be read together with its position.  Reading
is lazy: each step takes one item, a token or an error, off the front of the text,
and a cursor is a value, so looking ahead is reading from a copy.

Errors are items like tokens, and reading goes on behind them: an unexpected
character is one character long, an unclosed string or comment runs to the end.
-/

namespace TypeForge

/-- What can be wrong with a text before it is parsed. -/
inductive LexError where
  | unexpectedChar (c : Char)
  | unclosedString
  | unclosedComment
deriving DecidableEq

/-- The text of an error. -/
def LexError.message : LexError → String
  | unexpectedChar c => "unexpected character " ++ Text.quotedChar c
  | unclosedString => "unclosed string literal"
  | unclosedComment => "unclosed block comment"

/-! ## Gaps -/

/-- The body of a block comment through its closing mark, and the text behind it; none if
the comment is not closed.  The text starts behind the opening mark, whose star can
therefore not close it. -/
def blockComment : List Char → Option (List Char × List Char)
  | [] => none
  | '*' :: '/' :: rest => some (['*', '/'], rest)
  | c :: rest => (blockComment rest).map fun cut => (c :: cut.1, cut.2)

/-- A comment's body and what follows it make up the text. -/
theorem blockComment_append {cs body rest : List Char} (h : blockComment cs = some (body, rest)) :
    body ++ rest = cs := by
  fun_induction blockComment cs generalizing body rest with
  | case1 => simp at h
  | case2 => simp at h; simp [← h.1, ← h.2]
  | case3 c cs _ ih =>
    obtain ⟨cut, hcut, heq⟩ := Option.map_eq_some_iff.1 h
    obtain ⟨rfl, rfl⟩ := Prod.mk.inj heq
    simp [ih hcut]

/-- How the text in front of an item ends. -/
inductive Gap where
  /-- The gap is closed; `rest` starts with an item or is empty. -/
  | closed (skipped rest : List Char)
  /-- Behind `skipped` a comment opens that runs to the end. -/
  | unclosed (skipped comment : List Char)
deriving DecidableEq

/-- A gap with more text in front of it. -/
def Gap.after (more : List Char) : Gap → Gap
  | closed skipped rest => closed (more ++ skipped) rest
  | unclosed skipped comment => unclosed (more ++ skipped) comment

/-- Whether a character is on the line it follows, that is, not a line feed. -/
def inLine (c : Char) : Bool := c != '\n'

/-- Splits off white space, line comments (which end before their line feed) and block
comments. -/
def gap (cs : List Char) : Gap :=
  match cs with
  | [] => .closed [] []
  | '/' :: '/' :: rest =>
    (gap (rest.dropWhile inLine)).after ('/' :: '/' :: rest.takeWhile inLine)
  | '/' :: '*' :: rest =>
    match _h : blockComment rest with
    | some (body, rest') => (gap rest').after ('/' :: '*' :: body)
    | none => .unclosed [] ('/' :: '*' :: rest)
  | c :: rest => if Text.isWhiteSpace c then (gap rest).after [c] else .closed [] (c :: rest)
termination_by cs.length
decreasing_by
  · have := (List.dropWhile_sublist inLine (l := rest)).length_le
    simp only [List.length_cons]; omega
  · have := congrArg List.length (blockComment_append _h)
    simp only [List.length_append, List.length_cons] at *; omega
  · simp

/-! ## Lexemes -/

/-- An item cut off the front of a text: the kind of the token or the error, its text, and
the text behind it. -/
structure Lexeme where
  outcome : Except LexError Kind
  text : List Char
  rest : List Char

/-- Whether a character opens, and closes, a string. -/
def isQuote (c : Char) : Bool := c == '\x22' || c == '\x27'

/-- Whether a character can stand in an identifier: an ASCII letter, an ASCII digit or an
underscore. -/
def isWordChar (c : Char) : Bool := c.isAlphanum || c == '_'

/-- The kind of a word. -/
def wordKind (word : List Char) : Kind := (keyword? (String.ofList word)).getD .identifier

/-- A string starting at `quote`: it runs to the next such quote, knows no escapes and may
hold line breaks. -/
def stringLexeme (quote : Char) (cs : List Char) : Lexeme :=
  match cs.dropWhile (· != quote) with
  | [] => ⟨.error .unclosedString, quote :: cs, []⟩
  | close :: rest => ⟨.ok .string, quote :: cs.takeWhile (· != quote) ++ [close], rest⟩

/-- Punctuation, an operator, or a character that starts no token. -/
def symbolLexeme (c : Char) (cs : List Char) : Lexeme :=
  match symbols.find? fun symbol => symbol.1.isPrefixOf (c :: cs) with
  | some (text, kind) => ⟨.ok kind, text, (c :: cs).drop text.length⟩
  | none => ⟨.error (.unexpectedChar c), [c], cs⟩

/-- The item at the front of the text `c :: cs`, which starts with no gap. -/
def lexeme (c : Char) (cs : List Char) : Lexeme :=
  if isQuote c then stringLexeme c cs
  else if c.isDigit then
    ⟨.ok .number, c :: cs.takeWhile Char.isDigit, cs.dropWhile Char.isDigit⟩
  else if isWordChar c then
    let word := c :: cs.takeWhile isWordChar
    ⟨.ok (wordKind word), word, cs.dropWhile isWordChar⟩
  else symbolLexeme c cs

/-- No spelling is empty. -/
theorem symbols_ne_nil : ∀ symbol ∈ symbols, symbol.1 ≠ [] := by decide

/-- A lexeme and what follows it make up the text. -/
theorem lexeme_append (c : Char) (cs : List Char) :
    (lexeme c cs).text ++ (lexeme c cs).rest = c :: cs := by
  unfold lexeme stringLexeme symbolLexeme
  split
  · split
    · simp
    · rename_i close rest h
      simp [← h]
  · split
    · simp
    · split
      · simp
      · split
        · rename_i text kind h
          have hp := List.find?_some h
          simp only [List.isPrefixOf_iff_prefix] at hp
          obtain ⟨rest, hrest⟩ := hp
          simp [← hrest]
        · simp

/-- A lexeme is not empty. -/
theorem lexeme_text_ne_nil (c : Char) (cs : List Char) : (lexeme c cs).text ≠ [] := by
  unfold lexeme stringLexeme symbolLexeme
  split
  · split <;> simp
  · split
    · simp
    · split
      · simp
      · split
        · rename_i text kind h
          exact symbols_ne_nil _ (List.mem_of_find?_eq_some h)
        · simp

/-! ## Cursors -/

/-- The text that is still to be read, and where it starts. -/
structure Cursor where
  rest : List Char
  pos : Position
deriving DecidableEq

/-- One step of reading: a token, or an error and its position. -/
abbrev Item := Except (Located LexError) Token

namespace Cursor

/-- The cursor at the start of a text. -/
def ofString (s : String) : Cursor := ⟨s.toList, Position.start⟩

/-- Whether nothing is left to read. -/
def atEnd (cur : Cursor) : Bool := cur.rest.isEmpty

/-- Moves past the text `cs`, behind which `rest` is left. -/
def past (cur : Cursor) (cs rest : List Char) : Cursor := ⟨rest, cur.pos.advanceOver cs⟩

/-- Takes one character, whatever it is. -/
def nextChar (cur : Cursor) : Option Char × Cursor :=
  match cur.rest with
  | [] => (none, cur)
  | c :: rest => (some c, cur.past [c] rest)

/-- The item of a lexeme found at `pos`. -/
def itemAt (pos : Position) (lx : Lexeme) : Item :=
  match lx.outcome with
  | .ok kind => .ok ⟨kind, String.ofList lx.text, pos⟩
  | .error e => .error ⟨pos, e⟩

/-- Takes the next item, with the gap in front of it; none at the end of the text. -/
def next (cur : Cursor) : Option Item × Cursor :=
  match gap cur.rest with
  | .unclosed skipped comment =>
    let cur' := cur.past skipped comment
    (some (.error ⟨cur'.pos, .unclosedComment⟩), cur'.past comment [])
  | .closed skipped [] => (none, cur.past skipped [])
  | .closed skipped (c :: cs) =>
    let cur' := cur.past skipped (c :: cs)
    let lx := lexeme c cs
    (some (itemAt cur'.pos lx), cur'.past lx.text lx.rest)

/-- At most `n` tokens that come next, cut before the first error or the end. -/
def peek (cur : Cursor) : Nat → List Token
  | 0 => []
  | n + 1 =>
    match cur.next with
    | (some (.ok t), cur') => t :: cur'.peek n
    | _ => []

end Cursor

/-- The text a gap was split off from. -/
def Gap.source : Gap → List Char
  | closed skipped rest => skipped ++ rest
  | unclosed skipped comment => skipped ++ comment

/-- Splitting off a gap loses nothing. -/
theorem source_gap (cs : List Char) : (gap cs).source = cs := by
  have source_after (more : List Char) (g : Gap) : (g.after more).source = more ++ g.source := by
    cases g <;> simp [Gap.after, Gap.source]
  fun_induction gap cs with
  | case1 => rfl
  | case2 rest ih => simp [source_after, ih]
  | case3 rest body rest' h ih => simp [source_after, ih, blockComment_append h]
  | case4 rest h => rfl
  | case5 c rest _ _ h ih => simp [source_after, ih]
  | case6 => rfl

namespace Cursor

/-- An unclosed comment is not empty. -/
theorem comment_ne_nil {cs skipped comment : List Char} (h : gap cs = .unclosed skipped comment) :
    comment ≠ [] := by
  have after_unclosed {more skipped comment : List Char} {g : Gap}
      (h : g.after more = .unclosed skipped comment) : ∃ s, g = .unclosed s comment := by
    cases g <;> simp_all [Gap.after]
  fun_induction gap cs generalizing skipped with
  | case1 => simp at h
  | case2 rest ih => exact (after_unclosed h).elim fun _ h => ih h
  | case3 rest body rest' _ ih => exact (after_unclosed h).elim fun _ h => ih h
  | case4 rest _ => simp at h; simp [← h.2]
  | case5 c rest _ _ _ ih => exact (after_unclosed h).elim fun _ h => ih h
  | case6 => simp at h

/-- An item takes at least one character off the text. -/
theorem length_next {cur cur' : Cursor} {item : Item} (h : cur.next = (some item, cur')) :
    cur'.rest.length < cur.rest.length := by
  have hsrc := congrArg List.length (source_gap cur.rest)
  unfold next at h
  split at h
  · rename_i skipped comment hg
    obtain ⟨-, rfl⟩ := Prod.mk.inj h
    have := List.length_pos_iff.2 (comment_ne_nil hg)
    simp only [hg, Gap.source, List.length_append, past, List.length_nil] at *
    omega
  · simp at h
  · rename_i skipped c cs hg
    obtain ⟨-, rfl⟩ := Prod.mk.inj h
    have happ := congrArg List.length (lexeme_append c cs)
    have := List.length_pos_iff.2 (lexeme_text_ne_nil c cs)
    simp only [hg, Gap.source, List.length_append, past] at *
    omega

/-- All items up to the end of the text, going on behind errors, and the cursor there. -/
def items (cur : Cursor) : List Item × Cursor :=
  match _h : cur.next with
  | (none, cur') => ([], cur')
  | (some item, cur') => (item :: (items cur').1, (items cur').2)
termination_by cur.rest.length
decreasing_by all_goals exact length_next _h

end Cursor

end TypeForge
