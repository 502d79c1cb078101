import TypeForge.Proofs.Token.Tiling
import TypeForge.Proofs.Token.Words

/-!
# Reading words with anything between them

Between words stand white space and comments that are closed.  If white space comes first behind
every word, no word runs into the comment behind it, and the words are read as they stand.  What
is skipped in front of an item is found piece by piece: a character of white space, a comment up to
the end of its line, a comment up to its first closing mark.
-/

namespace TypeForge

variable {cs rest body : List Char}

/-! ## Gaps are skipped -/

/-- A comment without a closing mark in it ends at the one behind it. -/
theorem blockComment_of_first (h : ¬ closingMark <:+: body) (rest : List Char) :
    blockComment (body ++ (closingMark ++ rest)) = some (body ++ closingMark, rest) := by
  induction body with
  | nil => rfl
  | cons c body ih =>
    have hbody : ¬ closingMark <:+: body := fun hmark => h (hmark.trans (List.suffix_cons c body).isInfix)
    -- a mark that starts here would end in the body, since it cannot end in its own first half
    have hopen : ∀ behind, c = '*' → body ++ (closingMark ++ rest) = '/' :: behind → False := by
      intro behind hc hbehind
      cases body with
      | nil => cases hbehind
      | cons d body =>
        obtain ⟨rfl, -⟩ := List.cons.inj hbehind
        subst hc
        exact h (List.prefix_append closingMark body).isInfix
    rw [List.cons_append, blockComment.eq_3 c _ hopen, ih hbody]
    rfl

theorem takeWhile_inLine (h : '\n' ∉ body) (hrest : EndsLine rest) : (body ++ rest).takeWhile inLine = body :=
  takeWhile_mark h hrest

theorem dropWhile_inLine (h : '\n' ∉ body) (hrest : EndsLine rest) : (body ++ rest).dropWhile inLine = rest :=
  dropWhile_mark h hrest

theorem gap_cons_of_isWhiteSpace {c : Char} (h : Text.isWhiteSpace c = true) (cs : List Char) :
    gap (c :: cs) = (gap cs).after [c] := by
  have hslash : c ≠ '/' := by
    rintro rfl
    exact absurd h (by decide)
  rw [gap.eq_4 c cs (fun _ hc => absurd hc hslash) (fun _ hc => absurd hc hslash), if_pos h]

/-- **What is made of white space and comments is skipped**, whatever stands behind it. -/
theorem gap_of_isGap {front : List Char} (h : IsGap rest front) : gap (front ++ rest) = (gap rest).after front := by
  induction h with
  | nil =>
    rw [List.nil_append]
    cases gap rest <;> rfl
  | @whiteSpace c front white _ ih =>
    rw [List.cons_append, gap_cons_of_isWhiteSpace white, ih, Gap.after_after]
    rfl
  | @lineComment body front inLine ends _ ih =>
    rw [List.cons_append, List.cons_append, List.append_assoc, gap.eq_2, takeWhile_inLine inLine ends,
      dropWhile_inLine inLine ends, ih, Gap.after_after]
    rfl
  | @blockComment body front first _ ih =>
    have hcomment := blockComment_of_first first (front ++ rest)
    rw [List.cons_append, List.cons_append, List.append_assoc, List.append_assoc, gap.eq_3]
    split
    · next body' rest' hfound =>
      rw [hcomment] at hfound
      cases hfound
      rw [ih, Gap.after_after]
      simp
    · next hnone =>
      rw [hcomment] at hnone
      cases hnone

/-! ## Fillers -/

/-- White space and comments, line comments with the line feed that ends them and block comments
with the mark that closes them. -/
inductive IsFiller : List Char → Prop where
  | nil : IsFiller []
  | whiteSpace {c : Char} {filler : List Char} (white : Text.isWhiteSpace c = true)
      (more : IsFiller filler) : IsFiller (c :: filler)
  | lineComment {body filler : List Char} (inLine : '\n' ∉ body) (more : IsFiller filler) :
      IsFiller ('/' :: '/' :: (body ++ '\n' :: filler))
  | blockComment {body filler : List Char} (first : ¬ closingMark <:+: body)
      (more : IsFiller filler) : IsFiller ('/' :: '*' :: (body ++ closingMark ++ filler))

/-- A filler is a gap in front of any text. -/
theorem IsFiller.isGap {filler : List Char} (h : IsFiller filler) (rest : List Char) : IsGap rest filler := by
  induction h with
  | nil => exact .nil
  | whiteSpace white _ ih => exact .whiteSpace white ih
  | lineComment inLine _ ih =>
    refine .lineComment inLine ?_ (.whiteSpace (by decide) ih)
    rintro c ⟨⟩
    rfl
  | blockComment first _ ih => exact .blockComment first ih

/-- A filler that sets off what stands in front of it: white space comes first. -/
def IsSpacing (filler : List Char) : Prop := IsFiller filler ∧ filler ≠ [] ∧ Spaced filler

theorem IsSpacing.spaced_append {filler : List Char} (h : IsSpacing filler) (rest : List Char) :
    Spaced (filler ++ rest) := by
  obtain ⟨-, hne, hspaced⟩ := h
  cases filler with
  | nil => exact absurd rfl hne
  | cons c filler => exact hspaced

/-! ## Words with fillers behind them -/

/-- The text of words, each with what stands behind it. -/
def spellOut (words : List (Word × List Char)) : List Char :=
  words.flatMap fun entry => entry.1.text.toList ++ entry.2

@[simp] theorem spellOut_nil : spellOut [] = [] := rfl

@[simp] theorem spellOut_cons (entry : Word × List Char) (words : List (Word × List Char)) :
    spellOut (entry :: words) = entry.1.text.toList ++ (entry.2 ++ spellOut words) := by
  simp [spellOut]

namespace Cursor

/-- The step over a filler and the word behind it. -/
theorem next_spellOut {first filler : List Char} {w : Word} (hfirst : IsFiller first) (hw : w.Legible)
    (hfiller : IsSpacing filler) (more : List Char) (pos : Position) :
    next ⟨first ++ (w.text.toList ++ (filler ++ more)), pos⟩ =
      (some (.ok ⟨w.kind, w.text, pos.advanceOver first⟩),
        ⟨filler ++ more, (pos.advanceOver first).advanceOver w.text.toList⟩) := by
  rw [next_skip (gap_of_isGap (hfirst.isGap _)), next_word hw (hfiller.spaced_append more)]

/-- What a run of steps reads: as many tokens as there are words, each where its word stands. -/
theorem items_spellOut_from {first : List Char} {words : List (Word × List Char)} (hfirst : IsFiller first)
    (hwords : ∀ entry ∈ words, entry.1.Legible ∧ IsSpacing entry.2) (pos : Position) :
    (items ⟨first ++ spellOut words, pos⟩).1.length = words.length ∧
      ∀ before w filler behind, words = before ++ (w, filler) :: behind →
        (items ⟨first ++ spellOut words, pos⟩).1[before.length]? =
          some (.ok ⟨w.kind, w.text, pos.advanceOver (first ++ spellOut before)⟩) := by
  induction words generalizing first pos with
  | nil =>
    have hnext : next ⟨first ++ spellOut [], pos⟩ = (none, ⟨[], pos.advanceOver first⟩) := by
      rw [spellOut_nil, next_skip (gap_of_isGap (hfirst.isGap []))]
      simp [next, gap, past]
    rw [items_of_next_none hnext]
    refine ⟨rfl, fun before w filler behind h => ?_⟩
    cases before <;> cases h
  | cons entry words ih =>
    obtain ⟨w, filler⟩ := entry
    obtain ⟨hw, hfiller⟩ := hwords _ List.mem_cons_self
    have hnext := next_spellOut hfirst hw hfiller (spellOut words) pos
    obtain ⟨hlength, htokens⟩ := ih hfiller.1 (fun entry hentry => hwords entry (List.mem_cons_of_mem _ hentry))
      ((pos.advanceOver first).advanceOver w.text.toList)
    rw [spellOut_cons, items_of_next hnext]
    refine ⟨by rw [List.length_cons, List.length_cons, hlength], ?_⟩
    intro before w' filler' behind hsplit
    cases before with
    | nil =>
      cases hsplit
      simp
    | cons entry before =>
      cases hsplit
      simpa using htokens before w' filler' behind rfl

/-- **Reading undoes spelling out words.**  A text made of legible words, with white space and closed
comments in front of them and behind each, where white space comes first behind a word, is read as
these words in order, each at the position of its first character, and as nothing else. -/
theorem items_spellOut {first : List Char} {words : List (Word × List Char)} (hfirst : IsFiller first)
    (hwords : ∀ entry ∈ words, entry.1.Legible ∧ IsSpacing entry.2) :
    (ofString (String.ofList (first ++ spellOut words))).items.1.length = words.length ∧
      ∀ before w filler behind, words = before ++ (w, filler) :: behind →
        (ofString (String.ofList (first ++ spellOut words))).items.1[before.length]? =
          some (.ok ⟨w.kind, w.text, Position.start.advanceOver (first ++ spellOut before)⟩) := by
  rw [ofString, String.toList_ofList]
  exact items_spellOut_from hfirst hwords Position.start

/-- A string with the start of a comment and a line feed in it, a slash in front of a comment with
stars, and a word that starts like a keyword. -/
def spreadWords : List (Word × List Char) :=
  [(⟨.string, "'/*\n'"⟩, " //*\n".toList), (⟨.slash, "/"⟩, "\t/*/ ***/".toList),
    (⟨.identifier, "lets"⟩, "\n".toList)]

/-- Their text, behind an empty comment. -/
def spreadText : String := "/**/'/*\n' //*\n/\t/*/ ***/lets\n"

theorem items_spreadWords :
    (ofString spreadText).items.1.length = 3 ∧
      (ofString spreadText).items.1[0]? = some (.ok ⟨.string, "'/*\n'", ⟨1, 5⟩⟩) ∧
      (ofString spreadText).items.1[1]? = some (.ok ⟨.slash, "/", ⟨3, 1⟩⟩) ∧
      (ofString spreadText).items.1[2]? = some (.ok ⟨.identifier, "lets", ⟨3, 11⟩⟩) := by
  have hfirst : IsFiller "/**/".toList := @IsFiller.blockComment [] [] (by decide) .nil
  have hspacing {c : Char} {filler : List Char} (hc : Text.isWhiteSpace c = true) (h : IsFiller filler) :
      IsSpacing (c :: filler) := by
    refine ⟨.whiteSpace hc h, List.cons_ne_nil c filler, ?_⟩
    rintro d ⟨⟩
    exact hc
  have hwords : ∀ entry ∈ spreadWords, entry.1.Legible ∧ IsSpacing entry.2 := by
    simp only [spreadWords, List.forall_mem_cons]
    refine ⟨⟨?_, ?_⟩, ⟨.fixed rfl, ?_⟩, ⟨.identifier rfl, ?_⟩, fun _ h => absurd h List.not_mem_nil⟩
    · exact @Word.Legible.string '\x27' "/*\n".toList rfl (by decide)
    · exact hspacing rfl (@IsFiller.lineComment ['*'] [] (by decide) .nil)
    · exact hspacing rfl (@IsFiller.blockComment "/ **".toList [] (by decide) .nil)
    · exact hspacing rfl .nil
  obtain ⟨hlength, htokens⟩ := items_spellOut hfirst hwords
  exact ⟨hlength, htokens [] _ _ _ rfl, htokens [_] _ _ _ rfl, htokens [_, _] _ _ _ rfl⟩

end Cursor

end TypeForge
