import TypeForge.Proofs.Token.Tiling
import TypeForge.Proofs.Token.Words

/-!
# Tokens by longest match

A token is a legible word, and no legible word other than a string that stands at the same place
is longer.  What a text starts with is decided by its first character: a quote, a digit, another
character of words, or a symbol.  Within these classes the longest is taken, by going on as long as
characters belong to the class, or because the table of symbols has the longer spellings first.
-/

namespace TypeForge

variable {c : Char} {cs : List Char} {w : Word}

/-! ## Lexemes by their first character -/

theorem isDigit_eq_false_of_isWordChar (h : isWordChar c = false) : c.isDigit = false := by
  cases hdigit : c.isDigit with
  | false => rfl
  | true =>
    rw [isWordChar_of_isDigit hdigit] at h
    cases h

theorem lexeme_of_isDigit (h : c.isDigit = true) (cs : List Char) :
    lexeme c cs = ⟨.ok .number, c :: cs.takeWhile Char.isDigit, cs.dropWhile Char.isDigit⟩ := by
  have hquote := isQuote_eq_false_of_isWordChar (isWordChar_of_isDigit h)
  simp [lexeme, hquote, h]

theorem lexeme_of_isWordChar (h : isWordChar c = true) (hdigit : c.isDigit = false) (cs : List Char) :
    lexeme c cs = ⟨.ok (wordKind (c :: cs.takeWhile isWordChar)), c :: cs.takeWhile isWordChar,
      cs.dropWhile isWordChar⟩ := by
  have hquote := isQuote_eq_false_of_isWordChar h
  simp [lexeme, hquote, hdigit, h]

theorem lexeme_of_symbol (hquote : isQuote c = false) (hword : isWordChar c = false) (cs : List Char) :
    lexeme c cs = symbolLexeme c cs := by
  simp [lexeme, hquote, isDigit_eq_false_of_isWordChar hword, hword]

/-! ## Tokens are legible -/

theorem legible_stringLexeme {quote : Char} {kind : Kind} (hquote : isQuote quote = true)
    (h : (stringLexeme quote cs).outcome = .ok kind) :
    Word.Legible ⟨kind, String.ofList (stringLexeme quote cs).text⟩ := by
  unfold stringLexeme at h ⊢
  have hfirst := List.head?_dropWhile_not (· != quote) cs
  cases hdrop : cs.dropWhile (· != quote) with
  | nil =>
    rw [hdrop] at h
    cases h
  | cons close rest =>
    rw [hdrop] at h hfirst
    cases h
    have hclose : close = quote := by simpa using hfirst
    subst hclose
    refine .string hquote fun hmem => ?_
    have hne := List.mem_takeWhile_imp hmem
    simp at hne

theorem legible_word_of_isWord {word : List Char} (h : isWord word = true) :
    Word.Legible ⟨wordKind word, String.ofList word⟩ := by
  by_cases hkind : wordKind word = .identifier
  · rw [hkind]
    exact .identifier (isIdentifier_of_wordKind h hkind)
  · exact .fixed (spelling?_wordKind word hkind)

theorem legible_symbolLexeme {kind : Kind} (h : (symbolLexeme c cs).outcome = .ok kind) :
    Word.Legible ⟨kind, String.ofList (symbolLexeme c cs).text⟩ := by
  unfold symbolLexeme at h ⊢
  split at h
  · next text kind' hfind =>
    cases h
    have hmem : (⟨kind, String.ofList text⟩ : Word) ∈ spellings :=
      List.mem_append_right _ (List.mem_map.2 ⟨_, List.mem_of_find?_eq_some hfind, rfl⟩)
    exact .fixed (spelling?_of_mem_spellings _ hmem)
  · cases h

/-- **What is cut off as a token is a legible word.** -/
theorem legible_lexeme {kind : Kind} (h : (lexeme c cs).outcome = .ok kind) :
    Word.Legible ⟨kind, String.ofList (lexeme c cs).text⟩ := by
  cases hquote : isQuote c with
  | true =>
    have hlexeme : lexeme c cs = stringLexeme c cs := by simp [lexeme, hquote]
    rw [hlexeme] at h ⊢
    exact legible_stringLexeme hquote h
  | false =>
    cases hword : isWordChar c with
    | false =>
      rw [lexeme_of_symbol hquote hword] at h ⊢
      exact legible_symbolLexeme h
    | true =>
      cases hdigit : c.isDigit with
      | true =>
        rw [lexeme_of_isDigit hdigit] at h ⊢
        cases h
        exact .number (by simp [isNumber, hdigit])
      | false =>
        rw [lexeme_of_isWordChar hword hdigit] at h ⊢
        cases h
        exact legible_word_of_isWord (by simp [isWord, hdigit, hword])

/-- A legible word of the language has the kind of that word. -/
theorem Word.Legible.kind_of_isWord (h : w.Legible) (hword : isWord w.text.toList = true) :
    w.kind = wordKind w.text.toList := by
  have hfirst {d : Char} {ds : List Char} (hds : isWord (d :: ds) = true) :
      d.isDigit = false ∧ isWordChar d = true := by
    simp only [isWord, Bool.and_eq_true, Bool.not_eq_true', List.all_cons] at hds
    exact ⟨hds.1, hds.2.1⟩
  cases h with
  | fixed h =>
    obtain ⟨-, hkind⟩ | hsymbol := spellings_cases h
    · exact hkind.symm
    · have hnone : ∀ p ∈ symbols, isWord p.1 = false := by decide
      rw [hnone _ hsymbol] at hword
      cases hword
  | identifier h =>
    rw [isIdentifier, Bool.and_eq_true, Option.isNone_iff_eq_none] at h
    rw [wordKind, String.ofList_toList, h.2]
    rfl
  | @number text h =>
    cases htext : text.toList with
    | nil =>
      rw [htext] at hword
      cases hword
    | cons d ds =>
      rw [isNumber, htext, Bool.and_eq_true, List.all_eq_true] at h
      rw [htext] at hword
      have hdigit := h.2 d List.mem_cons_self
      rw [(hfirst hword).1] at hdigit
      cases hdigit
  | @string quote content hquote _ =>
    rw [String.toList_ofList] at hword
    rw [isQuote_eq_false_of_isWordChar (hfirst hword).2] at hquote
    cases hquote

/-- A legible word has the kind of a keyword exactly if it is spelled like one. -/
theorem Word.Legible.mem_keywords_iff (h : w.Legible) (kind : Kind) :
    (w.text, kind) ∈ keywords ↔ w.kind = kind ∧ kind ∈ keywords.map Prod.snd := by
  constructor
  · intro hmem
    have hwords : ∀ p ∈ keywords, isWord p.1.toList = true ∧ wordKind p.1.toList = p.2 := by decide
    obtain ⟨hword, hkind⟩ := hwords _ hmem
    exact ⟨(h.kind_of_isWord hword).trans hkind, List.mem_map.2 ⟨_, hmem, rfl⟩⟩
  · rintro ⟨rfl, hmem⟩
    obtain ⟨p, hp, hkind⟩ := List.mem_map.1 hmem
    have hspelling : ∀ p ∈ keywords, p.2.spelling? = some p.1 := by decide
    have hp' := hspelling p hp
    rw [hkind] at hp'
    cases h with
    | fixed h =>
      rw [h] at hp'
      rw [Option.some.inj hp', ← hkind]
      exact hp
    | identifier | number | string => cases hp'

/-! ## No word is longer -/

/-- A legible word is a string, a word of the language, a number or a symbol. -/
theorem Word.Legible.classes (h : w.Legible) :
    (w.kind = .string ∧ ∃ quote content, isQuote quote = true ∧ w.text.toList = quote :: content) ∨
      isWord w.text.toList = true ∨ isNumber w.text = true ∨ (w.text.toList, w.kind) ∈ symbols := by
  cases h with
  | fixed h =>
    obtain ⟨hword, -⟩ | hsymbol := spellings_cases h
    · exact .inr (.inl hword)
    · exact .inr (.inr (.inr hsymbol))
  | identifier h =>
    rw [isIdentifier, Bool.and_eq_true] at h
    exact .inr (.inl h.1)
  | number h => exact .inr (.inr (.inl h))
  | @string quote content hquote _ =>
    exact .inl ⟨rfl, quote, content ++ [quote], hquote, by simp⟩

/-- The longer spellings come first. -/
theorem symbols_longest_first : symbols.Pairwise fun p q => q.1.length ≤ p.1.length := by decide

/-- The symbol that is found in front of a text is the longest that stands there. -/
theorem length_le_of_find? {symbol found : List Char × Kind} (hsymbol : symbol ∈ symbols)
    (hfront : symbol.1 <+: cs) (hfound : symbols.find? (fun p => p.1.isPrefixOf cs) = some found) :
    symbol.1.length ≤ found.1.length := by
  obtain ⟨-, before, behind, hsymbols, hbefore⟩ := List.find?_eq_some_iff_append.1 hfound
  have hsorted := symbols_longest_first
  rw [hsymbols] at hsymbol hsorted
  obtain hmem | hmem := List.mem_append.1 hsymbol
  · have hnot := hbefore symbol hmem
    rw [ List.isPrefixOf_iff_prefix.2 hfront] at hnot
    cases hnot
  · obtain rfl | hmem := List.mem_cons.1 hmem
    · exact Nat.le_refl _
    · exact (List.pairwise_cons.1 (List.pairwise_append.1 hsorted).2.1).1 symbol hmem

/-- A run of characters of one class goes on as long as any text of that class. -/
theorem length_le_takeWhile {p : Char → Bool} {ds : List Char} (hfront : ds <+: cs)
    (hds : ∀ d ∈ ds, p d = true) : ds.length ≤ (cs.takeWhile p).length := by
  obtain ⟨rest, rfl⟩ := hfront
  rw [List.takeWhile_append_of_pos hds, List.length_append]
  exact Nat.le_add_right _ _

/-- **Where a legible word stands that is no string, a token is cut off that is not shorter.** -/
theorem lexeme_of_front (h : w.Legible) (hstring : w.kind ≠ .string) (hfront : w.text.toList <+: c :: cs) :
    (∃ kind, (lexeme c cs).outcome = .ok kind) ∧ w.text.toList.length ≤ (lexeme c cs).text.length := by
  obtain ⟨hkind, -⟩ | hword | hnumber | hsymbol := h.classes
  · exact absurd hkind hstring
  · cases htext : w.text.toList with
    | nil =>
      rw [htext] at hword
      cases hword
    | cons d ds =>
      rw [htext] at hword hfront
      obtain ⟨rfl, hds⟩ := List.cons_prefix_cons.1 hfront
      simp only [isWord, Bool.and_eq_true, Bool.not_eq_true', List.all_cons, List.all_eq_true] at hword
      obtain ⟨hdigit, hd, htail⟩ := hword
      rw [lexeme_of_isWordChar hd hdigit]
      exact ⟨⟨_, rfl⟩, Nat.succ_le_succ (length_le_takeWhile hds htail)⟩
  · rw [isNumber, Bool.and_eq_true, List.all_eq_true] at hnumber
    cases htext : w.text.toList with
    | nil =>
      rw [htext] at hnumber
      cases hnumber.1
    | cons d ds =>
      rw [htext] at hnumber hfront
      obtain ⟨rfl, hds⟩ := List.cons_prefix_cons.1 hfront
      rw [lexeme_of_isDigit (hnumber.2 d List.mem_cons_self)]
      exact ⟨⟨_, rfl⟩, Nat.succ_le_succ
        (length_le_takeWhile hds fun e he => hnumber.2 e (List.mem_cons_of_mem _ he))⟩
  · have hstart := startsSymbol_symbols _ hsymbol
    cases htext : w.text.toList with
    | nil =>
      rw [htext] at hstart
      cases hstart
    | cons d ds =>
      rw [htext] at hstart hfront hsymbol
      obtain ⟨rfl, -⟩ := List.cons_prefix_cons.1 hfront
      simp only [startsSymbol, Bool.and_eq_true, Bool.not_eq_true'] at hstart
      obtain ⟨⟨⟨hquote, hword⟩, -⟩, -⟩ := hstart
      rw [lexeme_of_symbol hquote hword, symbolLexeme]
      cases hfound : symbols.find? fun p => p.1.isPrefixOf (d :: cs) with
      | none =>
        have hnot := List.find?_eq_none.1 hfound _ hsymbol
        exact absurd ( List.isPrefixOf_iff_prefix.2 hfront) hnot
      | some found => exact ⟨⟨_, rfl⟩, length_le_of_find? hsymbol hfront hfound⟩

/-- An unexpected character is one that neither opens a string nor starts a symbol. -/
theorem lexeme_of_unexpectedChar {d : Char} (h : (lexeme c cs).outcome = .error (.unexpectedChar d)) :
    isQuote c = false ∧ d = c ∧ (lexeme c cs).rest = cs := by
  cases hquote : isQuote c with
  | true =>
    simp only [lexeme, hquote, if_true, stringLexeme] at h
    split at h <;> cases h
  | false =>
    cases hword : isWordChar c with
    | true =>
      cases hdigit : c.isDigit with
      | true =>
        rw [lexeme_of_isDigit hdigit] at h
        cases h
      | false =>
        rw [lexeme_of_isWordChar hword hdigit] at h
        cases h
    | false =>
      rw [lexeme_of_symbol hquote hword] at h ⊢
      unfold symbolLexeme at h ⊢
      split at h
      · cases h
      · cases h
        exact ⟨rfl, rfl, rfl⟩

/-- Where a character is unexpected, no legible word stands. -/
theorem not_prefix_of_unexpectedChar {d : Char} (h : (lexeme c cs).outcome = .error (.unexpectedChar d))
    (hw : w.Legible) : ¬ w.text.toList <+: c :: cs := by
  intro hfront
  obtain ⟨hquote, -⟩ := lexeme_of_unexpectedChar h
  by_cases hstring : w.kind = .string
  · cases hw with
    | @string quote content hopen _ =>
      rw [String.toList_ofList] at hfront
      obtain ⟨rfl, -⟩ := List.cons_prefix_cons.1 hfront
      rw [hquote] at hopen
      cases hopen
    | fixed hspelling =>
      cases hstring
      cases hspelling
    | identifier | number => cases hstring
  · obtain ⟨⟨kind, hkind⟩, -⟩ := lexeme_of_front hw hstring hfront
    rw [hkind] at h
    cases h

/-! ## Steps of a cursor -/

namespace Cursor

/-- An item that is no unclosed comment is the lexeme behind a gap. -/
theorem exists_lexeme_of_next {cur cur' : Cursor} {item : Item} (h : cur.next = (some item, cur'))
    (hitem : ∀ pos, item ≠ .error ⟨pos, .unclosedComment⟩) :
    ∃ gap c cs, IsGap (c :: cs) gap ∧ cur.rest = gap ++ c :: cs ∧ cur'.rest = (lexeme c cs).rest ∧
      item = itemAt (cur.pos.advanceOver gap) (lexeme c cs) := by
  have hsource := source_gap cur.rest
  have hsound := sound_gap cur.rest
  unfold next at h
  split at h
  · cases h
    exact absurd rfl (hitem _)
  · cases h
  · next skipped c cs hgap =>
    rw [hgap] at hsource hsound
    cases h
    exact ⟨skipped, c, cs, hsound, hsource.symm, rfl, rfl⟩

/-- **Reading takes the longest token.**  The text of a token stands behind a gap and belongs to the
class of its kind; it is a keyword exactly if it is spelled like one.  No word of a class other than
strings that stands at the same place is longer.  A character is unexpected only if it opens no
string and no word of any class stands there. -/
theorem next_takes_longest {cur cur' : Cursor} {item : Item} (h : cur.next = (some item, cur')) :
    (∀ token, item = .ok token →
      (∃ gap, IsGap (token.text.toList ++ cur'.rest) gap ∧
        cur.rest = gap ++ (token.text.toList ++ cur'.rest)) ∧
      token.word.Legible ∧
      (∀ kind, (token.text, kind) ∈ keywords ↔ token.kind = kind ∧ kind ∈ keywords.map Prod.snd) ∧
      ∀ w : Word, w.Legible → w.kind ≠ .string → w.text.toList <+: token.text.toList ++ cur'.rest →
        w.text.length ≤ token.text.length) ∧
    ∀ pos c, item = .error ⟨pos, .unexpectedChar c⟩ →
      (∃ gap, IsGap (c :: cur'.rest) gap ∧ cur.rest = gap ++ c :: cur'.rest) ∧ isQuote c = false ∧
      ∀ w : Word, w.Legible → ¬ w.text.toList <+: c :: cur'.rest := by
  constructor
  · rintro token rfl
    obtain ⟨gap, c, cs, hgap, hrest, hrest', hitem⟩ := exists_lexeme_of_next h (by simp)
    unfold itemAt at hitem
    split at hitem
    · next kind houtcome =>
      cases hitem
      have hparts := lexeme_append c cs
      have hlegible := legible_lexeme houtcome
      simp only [String.toList_ofList, hrest', hparts]
      refine ⟨⟨gap, hgap, hrest⟩, hlegible, hlegible.mem_keywords_iff, fun w hw hstring hfront => ?_⟩
      rw [← String.length_toList, String.length_ofList]
      exact (lexeme_of_front hw hstring hfront).2
    · cases hitem
  · rintro pos d rfl
    obtain ⟨gap, c, cs, hgap, hrest, hrest', hitem⟩ := exists_lexeme_of_next h (by simp)
    unfold itemAt at hitem
    split at hitem
    · cases hitem
    · next e houtcome =>
      cases hitem
      obtain ⟨hquote, rfl, hbehind⟩ := lexeme_of_unexpectedChar houtcome
      rw [hrest', hbehind]
      exact ⟨⟨gap, hgap, hrest⟩, hquote, fun w => not_prefix_of_unexpectedChar houtcome⟩

/-- A keyword in front of more letters, an operator in front of another one, and a character that
starts nothing. -/
theorem next_longest_of_runs :
    (∃ token cur', (ofString "/* k */ lets=>=3").next = (some (.ok token), cur') ∧
      token.kind = .identifier ∧ token.text = "lets" ∧
      ∀ w : Word, w.Legible → w.kind ≠ .string → w.text.toList <+: token.text.toList ++ cur'.rest →
        w.text.length ≤ 4) ∧
    (∃ token cur', (ofString "==>").next = (some (.ok token), cur') ∧ token.text = "==" ∧
      token.word.Legible) ∧
    ∃ pos cur', (ofString " é'").next = (some (.error ⟨pos, .unexpectedChar 'é'⟩), cur') ∧
      ∀ w : Word, w.Legible → ¬ w.text.toList <+: 'é' :: cur'.rest := by
  have hword : (ofString "/* k */ lets=>=3").next =
      (some (.ok ⟨.identifier, "lets", ⟨1, 9⟩⟩), ⟨"=>=3".toList, ⟨1, 13⟩⟩) := by decide +kernel
  have hsymbol : (ofString "==>").next = (some (.ok ⟨.eqEq, "==", ⟨1, 1⟩⟩), ⟨[ '>' ], ⟨1, 3⟩⟩) := by
    decide +kernel
  have herror : (ofString " é'").next =
      (some (.error ⟨⟨1, 2⟩, .unexpectedChar 'é'⟩), ⟨[ '\x27' ], ⟨1, 3⟩⟩) := by decide +kernel
  refine ⟨⟨_, _, hword, rfl, rfl, ?_⟩, ⟨_, _, hsymbol, rfl, ?_⟩, _, _, herror, ?_⟩
  · exact ((next_takes_longest hword).1 _ rfl).2.2.2
  · exact ((next_takes_longest hsymbol).1 _ rfl).2.1
  · exact ((next_takes_longest herror).2 _ _ rfl).2.2

end Cursor

end TypeForge
