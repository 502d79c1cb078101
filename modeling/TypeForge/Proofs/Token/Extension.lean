import TypeForge.Proofs.Token.Words
import TypeForge.Proofs.Parser.Accepts
import Mathlib.Data.List.Infix
import Mathlib.Data.List.TakeWhile

/-!
# Reading a text with another one below it

A line feed separates texts for the reader: no token except a closed string runs over it, and
a line comment ends in front of it.  So a text is read in the same way if another one stands
below it, and reading goes on there at its end.
-/

namespace TypeForge

variable {cs more : List Char}

/-! ## Gaps -/

theorem takeWhile_extended {p : Char → Bool} (hp : p '\n' = false) (cs : List Char) :
    (cs ++ '\n' :: more).takeWhile p = cs.takeWhile p := by
  induction cs with
  | nil => simp [hp]
  | cons c cs ih => simp only [List.cons_append, List.takeWhile_cons, ih]

theorem dropWhile_extended {p : Char → Bool} (hp : p '\n' = false) (cs : List Char) :
    (cs ++ '\n' :: more).dropWhile p = cs.dropWhile p ++ '\n' :: more := by
  induction cs with
  | nil => simp [hp]
  | cons c cs ih =>
    simp only [List.cons_append, List.dropWhile_cons, ih]
    split <;> rfl

/-- A comment that is closed stays so. -/
theorem blockComment_extended {body rest : List Char} (h : blockComment cs = some (body, rest)) :
    blockComment (cs ++ more) = some (body, rest ++ more) := by
  fun_induction blockComment cs generalizing body rest with
  | case1 => cases h
  | case2 rest' =>
    cases h
    rfl
  | case3 c cs hclose ih =>
    obtain ⟨cut, hcut, heq⟩ := Option.map_eq_some_iff.1 h
    obtain ⟨rfl, rfl⟩ := Prod.mk.inj heq
    have hne : cs ≠ [] := by
      rintro rfl
      cases hcut
    have hopen : ∀ rest, c = '*' → cs ++ more = '/' :: rest → False := by
      intro rest hc hrest
      cases cs with
      | nil => exact hne rfl
      | cons d ds =>
        obtain ⟨rfl, -⟩ := List.cons.inj hrest
        exact hclose ds hc rfl
    rw [List.cons_append, blockComment.eq_3 c (cs ++ more) hopen, ih hcut]
    rfl

/-- A gap as it is found with more text below. -/
def Gap.extended (more : List Char) : Gap → Gap
  | closed skipped [] => (gap more).after (skipped ++ ['\n'])
  | closed skipped (c :: rest) => closed skipped (c :: rest ++ '\n' :: more)
  | unclosed skipped comment => unclosed skipped (comment ++ '\n' :: more)

theorem Gap.extended_after (front : List Char) (g : Gap) :
    (g.after front).extended more = (g.extended more).after front := by
  cases g with
  | closed skipped rest =>
    cases rest with
    | nil =>
      change (gap more).after (front ++ skipped ++ ['\n']) = _
      rw [Gap.extended, Gap.after_after, List.append_assoc]
    | cons c rest => rfl
  | unclosed skipped comment => rfl

/-- Whether a gap ends in a comment that is not closed. -/
def Gap.isOpen : Gap → Bool
  | closed .. => false
  | unclosed .. => true

@[simp] theorem Gap.isOpen_after (front : List Char) (g : Gap) :
    (g.after front).isOpen = g.isOpen := by
  cases g <;> rfl

/-- A character in front of which no comment starts has none there with more text below. -/
theorem no_comment_extended {c d : Char} (hd : d ≠ '\n')
    (h : ∀ rest, c = '/' → cs = d :: rest → False) :
    ∀ rest, c = '/' → cs ++ '\n' :: more = d :: rest → False := by
  intro rest hc hrest
  cases cs with
  | nil => exact hd (List.cons.inj hrest).1.symm
  | cons e cs =>
    obtain ⟨rfl, -⟩ := List.cons.inj hrest
    exact h cs hc rfl

/-- **Gaps are found alike with more text below**, unless a comment is not closed. -/
theorem gap_extended (h : (gap cs).isOpen = false) :
    gap (cs ++ '\n' :: more) = (gap cs).extended more := by
  fun_induction gap cs with
  | case1 =>
    rw [List.nil_append, gap.eq_def]
    rfl
  | case2 rest ih =>
    rw [Gap.isOpen_after] at h
    rw [List.cons_append, List.cons_append, gap.eq_2, takeWhile_extended rfl, dropWhile_extended rfl,
      ih h, Gap.extended_after]
  | case3 rest body rest' hbody ih =>
    rw [Gap.isOpen_after] at h
    rw [List.cons_append, List.cons_append, gap.eq_3, Gap.extended_after, ← ih h]
    split
    · next body₁ rest₁ hbody₁ =>
      rw [blockComment_extended hbody] at hbody₁
      cases hbody₁
      rfl
    · next hnone =>
      rw [blockComment_extended hbody] at hnone
      cases hnone
  | case4 rest hbody => cases h
  | case5 c rest hline hblock hspace ih =>
    rw [Gap.isOpen_after] at h
    rw [List.cons_append, gap.eq_4 c _ (no_comment_extended (by decide) hline)
      (no_comment_extended (by decide) hblock), if_pos hspace, ih h, Gap.extended_after]
  | case6 c rest hline hblock hspace =>
    rw [List.cons_append, gap.eq_4 c _ (no_comment_extended (by decide) hline)
      (no_comment_extended (by decide) hblock), if_neg hspace]
    rfl

/-! ## Tokens -/

theorem not_lineFeed_mem_symbols : ∀ symbol ∈ symbols, '\n' ∉ symbol.1 := by decide

/-- A spelling without line feeds in front of a longer text is in front of the text. -/
theorem isPrefixOf_extended {ds : List Char} (hds : '\n' ∉ ds) :
    ds.isPrefixOf (cs ++ '\n' :: more) = ds.isPrefixOf cs := by
  rw [Bool.eq_iff_iff, List.isPrefixOf_iff_prefix, List.isPrefixOf_iff_prefix]
  constructor
  · intro h
    rcases List.prefix_or_prefix_of_prefix h (List.prefix_append cs ('\n' :: more)) with hshort | hlong
    · exact hshort
    · obtain ⟨rest, rfl⟩ := hlong
      cases rest with
      | nil => simp
      | cons d rest =>
        have hrest : d :: rest <+: '\n' :: more := (List.prefix_append_right_inj cs).1 h
        obtain ⟨rfl, -⟩ := List.cons_prefix_cons.1 hrest
        exact absurd (by simp) hds
  · intro h
    exact h.trans (List.prefix_append _ _)

/-- A token with more text below what is behind it. -/
def Lexeme.extended (more : List Char) (lx : Lexeme) : Lexeme :=
  ⟨lx.outcome, lx.text, lx.rest ++ '\n' :: more⟩

theorem stringLexeme_extended {quote : Char} {kind : Kind}
    (h : (stringLexeme quote cs).outcome = .ok kind) :
    stringLexeme quote (cs ++ '\n' :: more) = (stringLexeme quote cs).extended more := by
  unfold stringLexeme at h ⊢
  cases hdrop : cs.dropWhile (· != quote) with
  | nil =>
    rw [hdrop] at h
    cases h
  | cons close rest =>
    have hlength : (cs.takeWhile (· != quote)).length ≠ cs.length := by
      have hparts := congrArg List.length (List.takeWhile_append_dropWhile (p := (· != quote)) (l := cs))
      rw [List.length_append, hdrop, List.length_cons] at hparts
      omega
    rw [List.dropWhile_append, List.takeWhile_append, hdrop, if_neg hlength]
    rfl

theorem symbolLexeme_extended {c : Char} {kind : Kind}
    (h : (symbolLexeme c cs).outcome = .ok kind) :
    symbolLexeme c (cs ++ '\n' :: more) = (symbolLexeme c cs).extended more := by
  have hfind : symbols.find? (fun symbol => symbol.1.isPrefixOf (c :: (cs ++ '\n' :: more))) =
      symbols.find? fun symbol => symbol.1.isPrefixOf (c :: cs) :=
    find?_eq_of_forall_mem fun symbol hmem => by
      rw [← List.cons_append, isPrefixOf_extended (not_lineFeed_mem_symbols symbol hmem)]
  unfold symbolLexeme at h ⊢
  rw [hfind]
  split at h
  · next text kind' hsome =>
    have hprefix := List.find?_some hsome
    rw [List.isPrefixOf_iff_prefix] at hprefix
    simp only [Lexeme.extended, Lexeme.mk.injEq, true_and]
    rw [← List.cons_append, List.drop_append_of_le_length hprefix.length_le]
  · cases h

/-- **Tokens are cut off alike with more text below.** -/
theorem lexeme_extended {c : Char} {kind : Kind} (h : (lexeme c cs).outcome = .ok kind) :
    lexeme c (cs ++ '\n' :: more) = (lexeme c cs).extended more := by
  unfold lexeme at h ⊢
  by_cases hquote : isQuote c = true
  · simp only [hquote, if_true] at h ⊢
    exact stringLexeme_extended h
  · by_cases hdigit : c.isDigit = true
    · simp only [hquote, hdigit, if_true]
      rw [takeWhile_extended (by decide), dropWhile_extended (by decide)]
      rfl
    · by_cases hword : isWordChar c = true
      · simp only [hquote, hdigit, hword, if_true]
        rw [takeWhile_extended (p := isWordChar) (by decide),
          dropWhile_extended (p := isWordChar) (by decide)]
        rfl
      · simp only [hquote, hdigit, hword] at h ⊢
        exact symbolLexeme_extended h

/-! ## Cursors -/

namespace Cursor

/-- The cursor with a line feed and more text behind its own. -/
def extended (more : List Char) (cur : Cursor) : Cursor := ⟨cur.rest ++ '\n' :: more, cur.pos⟩

/-- The cursor at the text below that of another cursor. -/
def beneath (more : List Char) (cur : Cursor) : Cursor :=
  ⟨more, (cur.pos.advanceOver cur.rest).advance '\n'⟩

variable {cur cur' : Cursor}

/-- A token of the first text is read as without the second. -/
theorem next_extended {token : Token} (h : cur.next = (some (.ok token), cur')) :
    (cur.extended more).next = (some (.ok token), cur'.extended more) ∧
      cur'.beneath more = cur.beneath more := by
  have hsource := source_gap cur.rest
  obtain ⟨skipped, c, rest, kind, hgap, hkind, rfl, rfl⟩ := lexeme_of_next h
  constructor
  · have hclosed : gap (cur.rest ++ '\n' :: more) =
        .closed skipped (c :: (rest ++ '\n' :: more)) := by
      rw [gap_extended (by rw [hgap]; rfl), hgap]
      rfl
    rw [next, extended, hclosed]
    simp only [lexeme_extended hkind, Lexeme.extended, itemAt, hkind]
    rfl
  · rw [hgap] at hsource
    rw [beneath, beneath, ← hsource, Gap.source, ← lexeme_append c rest]
    simp [past]

/-- At the end of the first text the second one is read. -/
theorem next_extended_of_none (h : cur.next = (none, cur')) :
    (cur.extended more).next = (cur.beneath more).next := by
  have hsource := source_gap cur.rest
  unfold next at h
  split at h
  · cases h
  · next skipped hgap =>
    rw [hgap, Gap.source, List.append_nil] at hsource
    have hopen : gap (cur.rest ++ ['\n'] ++ more) = (gap more).after (cur.rest ++ ['\n']) := by
      rw [List.append_assoc, List.singleton_append, gap_extended (by rw [hgap]; rfl), hgap, Gap.extended,
        hsource]
    have hnext := next_skip hopen cur.pos
    rw [List.append_assoc, List.singleton_append, Position.advanceOver_append] at hnext
    exact hnext
  · cases h

/-- All that is left to read are tokens, and none of them opens a template string. -/
def Plain (cur : Cursor) : Prop :=
  ∀ item ∈ cur.items.1, ∃ token, item = .ok token ∧ token.kind ≠ .backtick

theorem Plain.next {item : Item} (hplain : cur.Plain) (h : cur.next = (some item, cur')) :
    (∃ token, item = .ok token ∧ token.kind ≠ .backtick) ∧ cur'.Plain := by
  have hitems := items_of_next h
  rw [Plain, hitems] at hplain
  exact ⟨hplain item List.mem_cons_self, fun item hitem => hplain item (List.mem_cons_of_mem _ hitem)⟩

/-- Looking ahead goes on in the second text where the first one ends. -/
theorem peek_extended (hplain : cur.Plain) (n : Nat) :
    (cur.extended more).peek n =
      cur.peek n ++ (cur.beneath more).peek (n - (cur.peek n).length) := by
  induction n generalizing cur with
  | zero => rfl
  | succ n ih =>
    rcases hnext : cur.next with ⟨_ | item, cur'⟩
    · rw [peek, peek, next_extended_of_none hnext, hnext]
      rfl
    · obtain ⟨⟨token, rfl, -⟩, hplain'⟩ := hplain.next hnext
      obtain ⟨hnext', hbeneath⟩ := next_extended hnext
      rw [peek, peek, hnext', hnext]
      simp only [ih hplain', hbeneath, List.length_cons, Nat.add_sub_add_right, List.cons_append]

end Cursor

end TypeForge
