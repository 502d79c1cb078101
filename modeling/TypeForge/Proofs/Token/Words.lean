import TypeForge.Token.Cursor

/-!
# Words

A word is what a token says, without where it says it: a kind and a text.  All kinds but
three have one spelling, and reading gives a token of such a kind no other text.  In the
other direction, legible words with a space between them are read one by one: no word runs
into the next, and none is taken for white space or the start of a comment.
-/

namespace TypeForge

/-- A kind and a text. -/
structure Word where
  kind : Kind
  text : String
deriving DecidableEq

/-- The word of a token. -/
def Token.word (t : Token) : Word := ⟨t.kind, t.text⟩

/-- The words of items that stand behind another one, each with a separator in front. -/
def moreWords (separator : Word) (items : List (List Word)) : List Word :=
  items.flatMap (separator :: ·)

/-- The words of items with a separator between them. -/
def separatedWords (separator : Word) : List (List Word) → List Word
  | [] => []
  | ws :: items => ws ++ moreWords separator items

theorem moreWords_cons (separator : Word) (ws : List Word) (items : List (List Word)) :
    moreWords separator (ws :: items) = separator :: separatedWords separator (ws :: items) := rfl

/-! ## Spellings -/

/-- All words of fixed kinds. -/
def spellings : List Word :=
  keywords.map (fun p => ⟨p.2, p.1⟩) ++ symbols.map fun p => ⟨p.2, String.ofList p.1⟩

/-- The spelling of a kind that has only one. -/
def Kind.spelling? (kind : Kind) : Option String :=
  (spellings.find? fun w => w.kind == kind).map Word.text

/-- The word of a kind with one spelling. -/
def Kind.word (kind : Kind) : Word := ⟨kind, kind.spelling?.getD ""⟩

theorem spelling?_of_mem_spellings : ∀ w ∈ spellings, w.kind.spelling? = some w.text := by
  decide

theorem mem_spellings_of_spelling? {kind : Kind} {text : String} (h : kind.spelling? = some text) :
    ⟨kind, text⟩ ∈ spellings := by
  obtain ⟨w, hw, rfl⟩ := Option.map_eq_some_iff.1 h
  have hkind : w.kind = kind := by simpa using List.find?_some hw
  exact hkind ▸ List.mem_of_find?_eq_some hw

theorem Kind.word_eq {kind : Kind} {text : String} (h : kind.spelling? = some text) :
    kind.word = ⟨kind, text⟩ := by
  rw [Kind.word, h]
  rfl

/-- A word that is not an identifier is the spelling of its kind. -/
theorem spelling?_wordKind (word : List Char) (h : wordKind word ≠ .identifier) :
    (wordKind word).spelling? = some (String.ofList word) := by
  unfold wordKind keyword? at *
  cases hlookup : keywords.lookup (String.ofList word) with
  | none => rw [hlookup] at h; exact absurd rfl h
  | some kind =>
    obtain ⟨before, behind, hkeywords, -⟩ := List.lookup_eq_some_iff.1 hlookup
    have hmem : (String.ofList word, kind) ∈ keywords := by simp [hkeywords]
    refine spelling?_of_mem_spellings ⟨kind, String.ofList word⟩ (List.mem_append_left _ ?_)
    exact List.mem_map.2 ⟨_, hmem, rfl⟩

/-- **A token of a kind with one spelling has that spelling as its text.** -/
theorem spelling?_lexeme {c : Char} {cs : List Char} {kind : Kind} {text : String}
    (h : (lexeme c cs).outcome = .ok kind) (hspelling : kind.spelling? = some text) :
    String.ofList (lexeme c cs).text = text := by
  unfold lexeme at h ⊢
  split at h
  · -- strings have no spelling of their own
    unfold stringLexeme at h
    split at h
    · cases h
    · cases h
      cases hspelling
  · split at h
    · cases h
      cases hspelling
    · split at h
      · next hquote hdigit hword =>
        cases h
        have hkind := spelling?_wordKind (c :: cs.takeWhile isWordChar) fun hident => by
          rw [hident] at hspelling
          cases hspelling
        rw [hkind] at hspelling
        simpa [hquote, hdigit, hword] using hspelling
      · next hquote hdigit hword =>
        unfold symbolLexeme at h
        split at h
        · next spelled kind' hfind =>
          cases h
          have hmem : (⟨kind, String.ofList spelled⟩ : Word) ∈ spellings :=
            List.mem_append_right _ (List.mem_map.2 ⟨_, List.mem_of_find?_eq_some hfind, rfl⟩)
          rw [spelling?_of_mem_spellings _ hmem] at hspelling
          simpa [hquote, hdigit, hword, symbolLexeme, hfind] using hspelling
        · cases h

/-! ## Legible words -/

/-- Whether a text consists of letters, digits and underscores and does not start with a
digit. -/
def isWord : List Char → Bool
  | [] => false
  | c :: cs => !c.isDigit && (c :: cs).all isWordChar

/-- Whether a text is an identifier: a word that is not a keyword. -/
def isIdentifier (text : String) : Bool := isWord text.toList && (keyword? text).isNone

/-- Whether a text is a number: digits, at least one. -/
def isNumber (text : String) : Bool := !text.toList.isEmpty && text.toList.all Char.isDigit

theorem isWordChar_of_isIdentifier {text : String} (h : isIdentifier text = true) :
    ∀ c ∈ text.toList, isWordChar c = true := by
  rw [isIdentifier, Bool.and_eq_true] at h
  cases hchars : text.toList with
  | nil => simp
  | cons c cs =>
    have hword := h.1
    rw [hchars, isWord, Bool.and_eq_true] at hword
    exact List.all_eq_true.1 hword.2

/-- A word that is no keyword is an identifier. -/
theorem isIdentifier_of_wordKind {word : List Char} (hword : isWord word = true)
    (h : wordKind word = .identifier) : isIdentifier (String.ofList word) = true := by
  have hkeyword : keyword? (String.ofList word) = none := by
    cases hlookup : keyword? (String.ofList word) with
    | none => rfl
    | some kind =>
      rw [wordKind, hlookup, Option.getD_some] at h
      obtain ⟨before, behind, hkeywords, -⟩ := List.lookup_eq_some_iff.1 hlookup
      have hmem : (String.ofList word, kind) ∈ keywords := by simp [hkeywords]
      have hkinds : ∀ entry ∈ keywords, entry.2 ≠ .identifier := by decide
      exact absurd h (hkinds _ hmem)
  rw [isIdentifier, hkeyword, String.toList_ofList, hword]
  rfl

/-- A text that reads as a token of the kind that the word claims. -/
inductive Word.Legible : Word → Prop where
  | fixed {kind : Kind} {text : String} (h : kind.spelling? = some text) : Legible ⟨kind, text⟩
  | identifier {text : String} (h : isIdentifier text = true) : Legible ⟨.identifier, text⟩
  | number {text : String} (h : isNumber text = true) : Legible ⟨.number, text⟩
  /-- The quote around a string does not occur in it. -/
  | string {quote : Char} {content : List Char} (hquote : isQuote quote = true)
      (hcontent : quote ∉ content) :
      Legible ⟨.string, String.ofList (quote :: content ++ [quote])⟩

/-- What stands behind a word: nothing, or white space. -/
def Spaced (rest : List Char) : Prop := ∀ c ∈ rest.head?, Text.isWhiteSpace c = true

theorem Spaced.ends {rest : List Char} (h : Spaced rest) {p : Char → Bool}
    (hp : ∀ c, Text.isWhiteSpace c = true → p c = false) : ∀ c ∈ rest.head?, p c = false :=
  fun c hc => hp c (h c hc)

/-- A run of characters ends at the first one that does not belong to it. -/
theorem takeWhile_run {cs rest : List Char} {p : Char → Bool} (hcs : ∀ c ∈ cs, p c = true)
    (hrest : ∀ c ∈ rest.head?, p c = false) : (cs ++ rest).takeWhile p = cs := by
  rw [List.takeWhile_append_of_pos hcs]
  cases rest with
  | nil => rw [List.takeWhile_nil, List.append_nil]
  | cons c rest => rw [List.takeWhile_cons_of_neg (by simp [hrest c rfl]), List.append_nil]

theorem dropWhile_run {cs rest : List Char} {p : Char → Bool} (hcs : ∀ c ∈ cs, p c = true)
    (hrest : ∀ c ∈ rest.head?, p c = false) : (cs ++ rest).dropWhile p = rest := by
  have hparts := List.takeWhile_append_dropWhile (p := p) (l := cs ++ rest)
  rw [takeWhile_run hcs hrest] at hparts
  exact List.append_cancel_left hparts

section

variable {mark : Char} {cs rest : List Char}

theorem forall_bne_of_notMem (h : mark ∉ cs) : ∀ c ∈ cs, (c != mark) = true :=
  fun _ hc => bne_iff_ne.2 fun heq => h (heq ▸ hc)

/-- What stands in front of the first mark. -/
theorem takeWhile_mark (hcs : mark ∉ cs) (hrest : ∀ c ∈ rest.head?, c = mark) :
    (cs ++ rest).takeWhile (· != mark) = cs :=
  takeWhile_run (forall_bne_of_notMem hcs) fun c hc => by simp [hrest c hc]

theorem dropWhile_mark (hcs : mark ∉ cs) (hrest : ∀ c ∈ rest.head?, c = mark) :
    (cs ++ rest).dropWhile (· != mark) = rest :=
  dropWhile_run (forall_bne_of_notMem hcs) fun c hc => by simp [hrest c hc]

/-- A text ends at its first mark, so it can be told from what is behind the mark. -/
theorem append_mark_inj {ds rest' : List Char} (hcs : mark ∉ cs) (hds : mark ∉ ds)
    (h : cs ++ mark :: rest = ds ++ mark :: rest') : cs = ds ∧ rest = rest' := by
  have hfront : cs = ds := by
    have hmark : (cs ++ mark :: rest).takeWhile (· != mark) = cs := takeWhile_mark hcs (by simp)
    rw [← hmark, h, takeWhile_mark hds (by simp)]
  subst hfront
  simpa using h

end

/-- The text `c :: cs` is read as a token of the given kind, up to `rest`. -/
def Reads (kind : Kind) (c : Char) (cs rest : List Char) : Prop :=
  lexeme c (cs ++ rest) = ⟨.ok kind, c :: cs, rest⟩

theorem isQuote_eq_false_of_isWordChar {c : Char} (h : isWordChar c = true) : isQuote c = false := by
  rw [isQuote, Bool.or_eq_false_iff, beq_eq_false_iff_ne, beq_eq_false_iff_ne]
  constructor <;> rintro rfl <;> exact absurd h (by decide)

theorem isWordChar_of_isDigit {c : Char} (h : c.isDigit = true) : isWordChar c = true := by
  simp [isWordChar, Char.isAlphanum, h]

theorem isWhiteSpace_eq_false_of_isWordChar {c : Char} (h : isWordChar c = true) :
    Text.isWhiteSpace c = false := by
  have between (low high : UInt32) (h : low ≤ c.val ∧ c.val ≤ high) :
      low.toNat ≤ c.val.toNat ∧ c.val.toNat ≤ high.toNat := by
    simpa [UInt32.le_iff_toNat_le] using h
  have both {low high : UInt32} (h : (decide (low ≤ c.val) && decide (c.val ≤ high)) = true) :
      low ≤ c.val ∧ c.val ≤ high := by
    simpa using h
  have hcases : ((c.isUpper = true ∨ c.isLower = true) ∨ c.isDigit = true) ∨ c = '_' := by
    have hor : ((c.isUpper || c.isLower) || c.isDigit || c == '_') = true := h
    simpa only [Bool.or_eq_true, beq_iff_eq] using hor
  have hrange : 48 ≤ c.val.toNat ∧ c.val.toNat ≤ 122 := by
    rcases hcases with ((h | h) | h) | rfl
    · have hupper : 65 ≤ c.val.toNat ∧ c.val.toNat ≤ 90 := between 65 90 (of_decide_eq_true h)
      omega
    · have hlower : 97 ≤ c.val.toNat ∧ c.val.toNat ≤ 122 := between 97 122 (both h)
      omega
    · have hdigit : 48 ≤ c.val.toNat ∧ c.val.toNat ≤ 57 := between 48 57 (both h)
      omega
    · decide
  rw [Char.toNat_val] at hrange
  simp [Text.isWhiteSpace, Text.whiteSpace, Text.Ranges.has]
  omega

theorem isWordChar_eq_false_of_isWhiteSpace (c : Char) (h : Text.isWhiteSpace c = true) :
    isWordChar c = false := by
  cases hword : isWordChar c with
  | false => rfl
  | true =>
    rw [isWhiteSpace_eq_false_of_isWordChar hword] at h
    cases h

theorem isDigit_eq_false_of_isWhiteSpace (c : Char) (h : Text.isWhiteSpace c = true) :
    c.isDigit = false := by
  cases hdigit : c.isDigit with
  | false => rfl
  | true =>
    rw [isWhiteSpace_eq_false_of_isWordChar (isWordChar_of_isDigit hdigit)] at h
    cases h

theorem reads_word {c : Char} {cs rest : List Char} (hrest : Spaced rest)
    (h : isWord (c :: cs) = true) : Reads (wordKind (c :: cs)) c cs rest := by
  simp only [isWord, Bool.and_eq_true, Bool.not_eq_true', List.all_cons, List.all_eq_true] at h
  obtain ⟨hc, hword, htail⟩ := h
  simp only [Reads, lexeme, isQuote_eq_false_of_isWordChar hword, hc, hword,
    takeWhile_run htail (hrest.ends isWordChar_eq_false_of_isWhiteSpace),
    dropWhile_run htail (hrest.ends isWordChar_eq_false_of_isWhiteSpace)]
  simp

theorem reads_number {c : Char} {cs rest : List Char} (hrest : Spaced rest)
    (hcs : ∀ d ∈ c :: cs, d.isDigit = true) : Reads .number c cs rest := by
  have hc : c.isDigit = true := hcs c (List.mem_cons_self ..)
  have htail : ∀ d ∈ cs, d.isDigit = true := fun d hd => hcs d (List.mem_cons_of_mem _ hd)
  simp only [Reads, lexeme, isQuote_eq_false_of_isWordChar (isWordChar_of_isDigit hc), hc,
    takeWhile_run htail (hrest.ends isDigit_eq_false_of_isWhiteSpace),
    dropWhile_run htail (hrest.ends isDigit_eq_false_of_isWhiteSpace)]
  simp

theorem reads_string {quote : Char} {content : List Char} (rest : List Char)
    (hquote : isQuote quote = true) (hcontent : quote ∉ content) :
    Reads .string quote (content ++ [quote]) rest := by
  have hends : ∀ c ∈ (quote :: rest).head?, c = quote := by simp
  have hdrop : (content ++ [quote] ++ rest).dropWhile (· != quote) = quote :: rest := by
    rw [List.append_assoc, List.singleton_append, dropWhile_mark hcontent hends]
  have htake : (content ++ [quote] ++ rest).takeWhile (· != quote) = content := by
    rw [List.append_assoc, List.singleton_append, takeWhile_mark hcontent hends]
  simp only [Reads, lexeme, hquote, if_true, stringLexeme, hdrop, htake]
  simp

theorem isPrefixOf_spaced {cs rest : List Char} (hrest : Spaced rest) :
    ∀ {ds : List Char}, (∀ d ∈ ds, Text.isWhiteSpace d = false) →
      ds.isPrefixOf (cs ++ rest) = ds.isPrefixOf cs := by
  induction cs with
  | nil =>
    intro ds hds
    cases ds with
    | nil => simp
    | cons d ds =>
      cases rest with
      | nil => rfl
      | cons c more =>
        have hne : d ≠ c := by
          rintro rfl
          have hspace := hrest d rfl
          rw [hds d (List.mem_cons_self ..)] at hspace
          cases hspace
        simp [List.isPrefixOf, hne]
  | cons c cs ih =>
    intro ds hds
    cases ds with
    | nil => simp
    | cons d ds =>
      rw [List.cons_append, List.isPrefixOf, List.isPrefixOf, ih fun e he => hds e (List.mem_cons_of_mem _ he)]

theorem isWhiteSpace_of_mem_symbol {symbol : List Char × Kind} (h : symbol ∈ symbols) :
    ∀ d ∈ symbol.1, Text.isWhiteSpace d = false := by
  have hall : symbols.all (fun symbol => symbol.1.all fun d => !Text.isWhiteSpace d) = true := by decide
  simpa using List.all_eq_true.1 hall symbol h

/-- No spelling but its own is found in front of the text of a symbol. -/
theorem find?_symbols : ∀ p ∈ symbols, symbols.find? (fun q => q.1.isPrefixOf p.1) = some p := by
  decide

/-- Whether a text starts unlike strings, numbers, words, white space and comments. -/
def startsSymbol : List Char → Bool
  | [] => false
  | c :: cs => !isQuote c && !isWordChar c && !Text.isWhiteSpace c && (c != '/' || cs.isEmpty)

theorem startsSymbol_symbols : ∀ p ∈ symbols, startsSymbol p.1 = true := by decide

theorem find?_eq_of_forall_mem {α : Type} {p q : α → Bool} {as : List α}
    (h : ∀ a ∈ as, p a = q a) : as.find? p = as.find? q := by
  induction as with
  | nil => rfl
  | cons a as ih =>
    rw [List.find?_cons, List.find?_cons, h a (List.mem_cons_self ..),
      ih fun b hb => h b (List.mem_cons_of_mem _ hb)]

theorem reads_symbol {c : Char} {cs rest : List Char} {kind : Kind} (hrest : Spaced rest)
    (h : (c :: cs, kind) ∈ symbols) : Reads kind c cs rest := by
  have hstart := startsSymbol_symbols _ h
  simp only [startsSymbol, Bool.and_eq_true, Bool.not_eq_true'] at hstart
  obtain ⟨⟨⟨hquote, hword⟩, -⟩, -⟩ := hstart
  have hdigit : c.isDigit = false := by
    cases hc : c.isDigit with
    | false => rfl
    | true => rw [isWordChar_of_isDigit hc] at hword; cases hword
  have hfind : symbols.find? (fun q => q.1.isPrefixOf (c :: (cs ++ rest))) = some (c :: cs, kind) := by
    rw [← find?_symbols _ h]
    refine find?_eq_of_forall_mem fun q hq => ?_
    rw [← List.cons_append, isPrefixOf_spaced hrest (isWhiteSpace_of_mem_symbol hq)]
  simp [Reads, lexeme, symbolLexeme, hquote, hdigit, hword, hfind]

/-! ## Reading a text made of words -/

theorem Gap.after_after (front back : List Char) (g : Gap) :
    (g.after back).after front = g.after (front ++ back) := by
  cases g <;> simp [Gap.after]

/-- The text `c :: cs` starts with no gap. -/
theorem gap_eq_closed {c : Char} {cs : List Char} (hspace : Text.isWhiteSpace c = false)
    (hslash : c = '/' → Spaced cs) : gap (c :: cs) = .closed [] (c :: cs) := by
  rw [gap.eq_def]
  split
  · cases ‹c :: cs = []›
  · next heq =>
    cases heq
    exact absurd (hslash rfl '/' rfl) (by decide)
  · next heq =>
    cases heq
    exact absurd (hslash rfl '*' rfl) (by decide)
  · next heq =>
    cases heq
    rw [hspace]
    rfl

/-- The words of fixed kinds are words of the language or symbols. -/
theorem spellings_cases {kind : Kind} {text : String} (h : kind.spelling? = some text) :
    (isWord text.toList = true ∧ wordKind text.toList = kind) ∨ (text.toList, kind) ∈ symbols := by
  have hkeywords : ∀ p ∈ keywords, isWord p.1.toList = true ∧ wordKind p.1.toList = p.2 := by decide
  rcases List.mem_append.1 (mem_spellings_of_spelling? h) with hmem | hmem
  · obtain ⟨p, hp, heq⟩ := List.mem_map.1 hmem
    cases heq
    exact .inl (hkeywords p hp)
  · obtain ⟨p, hp, heq⟩ := List.mem_map.1 hmem
    cases heq
    rw [String.toList_ofList]
    exact .inr hp

/-- A word starts neither a gap nor, with what is behind it, a comment. -/
theorem isWord_start {c : Char} {cs : List Char} (h : isWord (c :: cs) = true) :
    Text.isWhiteSpace c = false ∧ c ≠ '/' := by
  simp only [isWord, Bool.and_eq_true, List.all_cons] at h
  refine ⟨isWhiteSpace_eq_false_of_isWordChar h.2.1, ?_⟩
  rintro rfl
  exact absurd h.2.1 (by decide)

/-- **A legible word is read as it stands**, up to the white space behind it. -/
theorem Word.Legible.reads {w : Word} (h : w.Legible) {rest : List Char} (hrest : Spaced rest) :
    ∃ c cs, w.text.toList = c :: cs ∧ Reads w.kind c cs rest ∧
      gap (c :: cs ++ rest) = .closed [] (c :: cs ++ rest) := by
  have hword : ∀ {text : String}, isWord text.toList = true → ∃ c cs, text.toList = c :: cs ∧
      Reads (wordKind text.toList) c cs rest ∧
        gap (c :: cs ++ rest) = .closed [] (c :: cs ++ rest) := by
    intro text htext
    obtain ⟨c, cs, hcs⟩ : ∃ c cs, text.toList = c :: cs := by
      cases hcs : text.toList with
      | nil => rw [hcs] at htext; cases htext
      | cons c cs => exact ⟨c, cs, rfl⟩
    rw [hcs] at htext ⊢
    obtain ⟨hspace, hslash⟩ := isWord_start htext
    exact ⟨c, cs, rfl, reads_word hrest htext, gap_eq_closed hspace fun h => absurd h hslash⟩
  cases h with
  | @fixed kind text h =>
    rcases spellings_cases h with ⟨htext, rfl⟩ | hmem
    · exact hword htext
    · have hstart := startsSymbol_symbols _ hmem
      cases hcs : text.toList with
      | nil => rw [hcs] at hstart; cases hstart
      | cons c cs =>
        rw [hcs] at hmem hstart
        simp only [startsSymbol, Bool.and_eq_true, Bool.not_eq_true', Bool.or_eq_true, bne_iff_ne,
          List.isEmpty_iff] at hstart
        obtain ⟨⟨-, hspace⟩, hslash⟩ := hstart
        refine ⟨c, cs, rfl, reads_symbol hrest hmem, gap_eq_closed hspace fun hc => ?_⟩
        rcases hslash with hne | rfl
        · exact absurd hc hne
        · exact hrest
  | @identifier text h =>
    rw [isIdentifier, Bool.and_eq_true, Option.isNone_iff_eq_none] at h
    obtain ⟨c, cs, hcs, hreads, hgap⟩ := hword h.1
    rw [wordKind, String.ofList_toList, h.2] at hreads
    exact ⟨c, cs, hcs, hreads, hgap⟩
  | @number text h =>
    rw [isNumber, Bool.and_eq_true, List.all_eq_true] at h
    cases hcs : text.toList with
    | nil => rw [hcs] at h; exact absurd h.1 (by decide)
    | cons c cs =>
      rw [hcs] at h
      have hdigit := isWordChar_of_isDigit (h.2 c (List.mem_cons_self ..))
      refine ⟨c, cs, rfl, reads_number hrest h.2, ?_⟩
      refine gap_eq_closed (isWhiteSpace_eq_false_of_isWordChar hdigit) ?_
      rintro rfl
      exact absurd hdigit (by decide)
  | @string quote content hquote hcontent =>
    refine ⟨quote, content ++ [quote], by simp, reads_string rest hquote hcontent, ?_⟩
    rw [isQuote, Bool.or_eq_true, beq_iff_eq, beq_iff_eq] at hquote
    rcases hquote with rfl | rfl
    · exact gap_eq_closed (by decide) (by simp)
    · exact gap_eq_closed (by decide) (by simp)

namespace Cursor

/-- A token is a lexeme behind a gap. -/
theorem lexeme_of_next {cur cur' : Cursor} {t : Token} (h : cur.next = (some (.ok t), cur')) :
    ∃ skipped c cs kind, gap cur.rest = .closed skipped (c :: cs) ∧ (lexeme c cs).outcome = .ok kind ∧
      t = ⟨kind, String.ofList (lexeme c cs).text, cur.pos.advanceOver skipped⟩ ∧
      cur' = (cur.past skipped (c :: cs)).past (lexeme c cs).text (lexeme c cs).rest := by
  unfold next at h
  split at h
  · cases h
  · cases h
  · next skipped c cs hgap =>
    obtain ⟨hitem, rfl⟩ := Prod.mk.inj h
    unfold itemAt at hitem
    split at hitem
    · next kind hkind =>
      cases hitem
      exact ⟨skipped, c, cs, kind, hgap, hkind, rfl, rfl⟩
    · cases hitem

/-- Where a word stands, it comes next. -/
theorem next_word {w : Word} (h : w.Legible) {rest : List Char} (hrest : Spaced rest)
    (pos : Position) :
    next ⟨w.text.toList ++ rest, pos⟩ =
      (some (.ok ⟨w.kind, w.text, pos⟩), ⟨rest, pos.advanceOver w.text.toList⟩) := by
  obtain ⟨c, cs, htext, hreads, hgap⟩ := h.reads hrest
  have hof : String.ofList (c :: cs) = w.text := by rw [← htext, String.ofList_toList]
  rw [List.cons_append] at hgap
  rw [htext, List.cons_append]
  unfold next
  simp only [hgap]
  rw [hreads]
  simp [itemAt, past, hof]

/-- What belongs to the gap in front of an item only moves the item. -/
theorem next_skip {front cs : List Char} (h : gap (front ++ cs) = (gap cs).after front) (pos : Position) :
    next ⟨front ++ cs, pos⟩ = next ⟨cs, pos.advanceOver front⟩ := by
  unfold next
  rw [h]
  cases gap cs with
  | unclosed skipped comment => simp [Gap.after, past]
  | closed skipped rest => cases rest <;> simp [Gap.after, past]

/-- A space in front makes no difference. -/
theorem next_space (cs : List Char) (pos : Position) :
    next ⟨' ' :: cs, pos⟩ = next ⟨cs, pos.advance ' '⟩ := by
  have hgap : gap ([' '] ++ cs) = (gap cs).after [' '] := by
    rw [List.singleton_append, gap.eq_def]
    simp [show Text.isWhiteSpace ' ' = true by decide]
  exact next_skip hgap pos

/-- The text is made of tokens that say the given words. -/
def Shows (cur : Cursor) (ws : List Word) : Prop :=
  ∃ ts : List Token, cur.items.1 = ts.map .ok ∧ ts.map Token.word = ws

theorem items_of_next {cur cur' : Cursor} {item : Item} (h : cur.next = (some item, cur')) :
    cur.items.1 = item :: cur'.items.1 := by
  rw [items.eq_def]
  split <;> simp_all

theorem items_of_next_none {cur cur' : Cursor} (h : cur.next = (none, cur')) :
    cur.items.1 = [] := by
  rw [items.eq_def]
  split <;> simp_all

/-- Looking ahead shows the next words. -/
theorem map_word_peek {cur : Cursor} {ws : List Word} (h : cur.Shows ws) (n : Nat) :
    (cur.peek n).map Token.word = ws.take n := by
  induction n generalizing cur ws with
  | zero => rfl
  | succ n ih =>
    obtain ⟨ts, hts, rfl⟩ := h
    rw [peek]
    rcases hnext : cur.next with ⟨_ | item, cur'⟩
    · rw [items_of_next_none hnext] at hts
      cases ts with
      | nil => rfl
      | cons t ts => cases hts
    · rw [items_of_next hnext] at hts
      cases ts with
      | nil => cases hts
      | cons t ts =>
        rw [List.map_cons] at hts
        obtain ⟨rfl, hrest⟩ := List.cons.inj hts
        simp [ih ⟨ts, hrest, rfl⟩]

/-- Words with a space in front of each. -/
def spaced (ws : List Word) : List Char := ws.flatMap fun w => ' ' :: w.text.toList

theorem spaced_spaced (ws : List Word) : Spaced (spaced ws) := by
  cases ws with
  | nil => exact fun c hc => (Option.not_mem_none c hc).elim
  | cons w ws =>
    intro c hc
    cases hc
    decide

theorem shows_of_next {cur cur' : Cursor} {t : Token} {ws : List Word}
    (hnext : cur.next = (some (.ok t), cur')) (h : cur'.Shows ws) : cur.Shows (t.word :: ws) := by
  obtain ⟨ts, hts, rfl⟩ := h
  refine ⟨t :: ts, ?_, rfl⟩
  rw [items_of_next hnext, hts, List.map_cons]

theorem shows_spaced {ws : List Word} (h : ∀ w ∈ ws, w.Legible) (pos : Position) :
    Shows ⟨spaced ws, pos⟩ ws := by
  induction ws generalizing pos with
  | nil =>
    have hnext : next ⟨[], pos⟩ = (none, ⟨[], pos⟩) := by simp [next, gap, past]
    exact ⟨[], items_of_next_none hnext, rfl⟩
  | cons w ws ih =>
    have hnext := next_word (h w (List.mem_cons_self ..)) (spaced_spaced ws) (pos.advance ' ')
    rw [← next_space] at hnext
    exact shows_of_next hnext (ih (fun v hv => h v (List.mem_cons_of_mem _ hv)) _)

/-- The characters of words with a space between them. -/
theorem toList_intercalate_space (w : Word) (ws : List Word) :
    (" ".intercalate ((w :: ws).map Word.text)).toList = w.text.toList ++ spaced ws := by
  rw [String.toList_intercalate]
  induction ws generalizing w with
  | nil => simp [spaced, List.intercalate]
  | cons v ws ih =>
    have hmore := ih v
    simp only [List.map_cons, List.intercalate, List.intersperse_cons_cons, List.flatten_cons] at hmore ⊢
    rw [hmore]
    rfl

/-- **A text of legible words with a space between them is read as these words.** -/
theorem shows_intercalate {ws : List Word} (h : ∀ w ∈ ws, w.Legible) :
    Shows (ofString (" ".intercalate (ws.map Word.text))) ws := by
  cases ws with
  | nil => exact shows_spaced h _
  | cons w ws =>
    have hnext := next_word (h w (List.mem_cons_self ..)) (spaced_spaced ws) Position.start
    rw [ofString, toList_intercalate_space]
    exact shows_of_next hnext (shows_spaced (fun v hv => h v (List.mem_cons_of_mem _ hv)) _)

end Cursor

end TypeForge
