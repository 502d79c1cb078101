import TypeForge.Token.Cursor
import Mathlib.Data.List.Infix
import Mathlib.Data.List.TakeWhile

/-!
# Reading tiles the text

Reading a text item by item loses nothing and repeats nothing: the text is a gap, the text of
the first item, a gap, the text of the second item, and so on to the end.  Every item knows
where its text starts.  This holds of every text, since what is wrong with a text is an item
too.

The step is `Cursor.next`, which takes a gap and the text of one item off the front; the run
repeats it until nothing is left.
-/

namespace TypeForge

/-! ## The order of positions -/

namespace Position

variable {p q r : Position}

/-- The position `p` comes before `q` in reading order. -/
def Before (p q : Position) : Prop := p.compare q = .lt

theorem before_iff :
    p.Before q ↔ p.line < q.line ∨ p.line = q.line ∧ p.column < q.column := by
  unfold Before Position.compare
  rw [Ordering.then_eq_lt, Nat.compare_eq_lt, Nat.compare_eq_eq, Nat.compare_eq_lt]

theorem Before.trans (h : p.Before q) (h' : q.Before r) : p.Before r := by
  rw [before_iff] at *
  omega

theorem before_advance (p : Position) (c : Char) : p.Before (p.advance c) := by
  rw [before_iff]
  unfold advance
  split
  · exact .inl (Nat.lt_succ_self _)
  · exact .inr ⟨rfl, Nat.lt_succ_self _⟩

theorem before_advanceOver (p : Position) {cs : List Char} (h : cs ≠ []) :
    p.Before (p.advanceOver cs) := by
  induction cs generalizing p with
  | nil => exact absurd rfl h
  | cons c cs ih =>
    rw [advanceOver_cons]
    by_cases hcs : cs = []
    · rw [hcs]
      exact p.before_advance c
    · exact (p.before_advance c).trans (ih _ hcs)

end Position

/-! ## Gaps -/

/-- The mark that closes a block comment. -/
def closingMark : List Char := ['*', '/']

/-- A line ends in front of the text `rest`: it is empty or starts with a line feed. -/
def EndsLine (rest : List Char) : Prop := ∀ c ∈ rest.head?, c = '\n'

/-- A text in front of `rest` that is made of white space and comments.  A line comment runs
to the end of its line and a block comment to its first closing mark. -/
inductive IsGap (rest : List Char) : List Char → Prop where
  | nil : IsGap rest []
  | whiteSpace {c : Char} {gap : List Char} (white : Text.isWhiteSpace c = true)
      (more : IsGap rest gap) : IsGap rest (c :: gap)
  | lineComment {body gap : List Char} (inLine : '\n' ∉ body) (ends : EndsLine (gap ++ rest))
      (more : IsGap rest gap) : IsGap rest ('/' :: '/' :: (body ++ gap))
  | blockComment {body gap : List Char} (first : ¬ closingMark <:+: body)
      (more : IsGap rest gap) : IsGap rest ('/' :: '*' :: (body ++ closingMark ++ gap))

/-- A comment that is closed ends at the first closing mark. -/
theorem blockComment_eq_some {cs body rest : List Char} (h : blockComment cs = some (body, rest)) :
    ∃ inner, body = inner ++ closingMark ∧ ¬ closingMark <:+: inner := by
  fun_induction blockComment cs generalizing body rest with
  | case1 => cases h
  | case2 rest' =>
    cases h
    exact ⟨[], rfl, by simp [closingMark]⟩
  | case3 c cs hopen ih =>
    obtain ⟨⟨body', behind⟩, hcut, heq⟩ := Option.map_eq_some_iff.1 h
    obtain ⟨rfl, rfl⟩ := Prod.mk.inj heq
    obtain ⟨inner, hbody, hinner⟩ := ih hcut
    refine ⟨c :: inner, by rw [hbody]; rfl, fun hinfix => ?_⟩
    rcases List.infix_cons_iff.1 hinfix with hprefix | hinfix
    · -- a mark at the front would have closed the comment there
      obtain ⟨more, hmore⟩ := hprefix
      obtain ⟨rfl, rfl⟩ := List.cons.inj hmore
      have hcs : cs = '/' :: more ++ closingMark ++ behind := by
        rw [← blockComment_append hcut, hbody]
        rfl
      exact hopen _ rfl hcs
    · exact hinner hinfix

/-- A comment that is not closed has no closing mark. -/
theorem blockComment_eq_none {cs : List Char} (h : blockComment cs = none) :
    ¬ closingMark <:+: cs := by
  fun_induction blockComment cs with
  | case1 => simp [closingMark]
  | case2 => cases h
  | case3 c cs hopen ih =>
    intro hinfix
    rcases List.infix_cons_iff.1 hinfix with ⟨behind, hbehind⟩ | hinfix
    · obtain ⟨rfl, rfl⟩ := List.cons.inj hbehind
      exact hopen behind rfl rfl
    · exact ih (Option.map_eq_none_iff.1 h) hinfix

/-- What `gap` splits off is a gap, and what it leaves behind an unclosed one is a comment
without a closing mark. -/
def Gap.Sound : Gap → Prop
  | closed skipped rest => IsGap rest skipped
  | unclosed skipped comment =>
    IsGap comment skipped ∧ ∃ body, comment = '/' :: '*' :: body ∧ ¬ closingMark <:+: body

theorem Gap.Sound.after {g : Gap} (h : g.Sound) {more : List Char}
    (hmore : ∀ {gap rest : List Char}, gap ++ rest = g.source → IsGap rest gap →
      IsGap rest (more ++ gap)) : (g.after more).Sound := by
  cases g with
  | closed skipped rest => exact hmore rfl h
  | unclosed skipped comment => exact ⟨hmore rfl h.1, h.2⟩

theorem endsLine_dropWhile (cs : List Char) : EndsLine (cs.dropWhile inLine) := by
  intro c hc
  have hfirst := List.head?_dropWhile_not inLine cs
  rw [Option.mem_def.1 hc] at hfirst
  simpa [inLine] using hfirst

/-- **Splitting off a gap splits off white space and comments only.** -/
theorem sound_gap (cs : List Char) : (gap cs).Sound := by
  fun_induction gap cs with
  | case1 => exact .nil
  | case2 rest ih =>
    refine ih.after fun hsource hgap => ?_
    rw [source_gap] at hsource
    refine .lineComment ?_ (hsource ▸ endsLine_dropWhile rest) hgap
    intro hmem
    have hline := List.mem_takeWhile_imp hmem
    exact absurd hline (by decide)
  | case3 rest body rest' hcomment ih =>
    obtain ⟨inner, rfl, hinner⟩ := blockComment_eq_some hcomment
    exact ih.after fun _ hgap => .blockComment hinner hgap
  | case4 rest hcomment => exact ⟨.nil, rest, rfl, blockComment_eq_none hcomment⟩
  | case5 c rest _ _ hwhite ih => exact ih.after fun _ hgap => .whiteSpace hwhite hgap
  | case6 => exact .nil

/-! ## Items -/

/-- Where an item starts. -/
def Item.pos : Item → Position
  | .ok token => token.pos
  | .error error => error.pos

/-- The item was read from the text `text` in front of `rest`.  An unclosed string or comment
has nothing behind it. -/
inductive Item.Covers (rest : List Char) : Item → List Char → Prop where
  | token (token : Token) : Covers rest (.ok token) token.text.toList
  | unexpectedChar (pos : Position) (c : Char) :
      Covers rest (.error ⟨pos, .unexpectedChar c⟩) [c]
  | unclosedString (pos : Position) {quote : Char} {content : List Char} (ended : rest = [])
      (isQuote : isQuote quote = true) (unclosed : quote ∉ content) :
      Covers rest (.error ⟨pos, .unclosedString⟩) (quote :: content)
  | unclosedComment (pos : Position) {body : List Char} (ended : rest = [])
      (unclosed : ¬ closingMark <:+: body) :
      Covers rest (.error ⟨pos, .unclosedComment⟩) ('/' :: '*' :: body)

theorem pos_itemAt (pos : Position) (lx : Lexeme) : (Cursor.itemAt pos lx).pos = pos := by
  unfold Cursor.itemAt
  split <;> rfl

/-- A token was read from its text. -/
theorem covers_ok (pos : Position) (kind : Kind) (text rest : List Char) :
    (Cursor.itemAt pos ⟨.ok kind, text, rest⟩).Covers rest text := by
  have hcovers : Item.Covers rest (.ok ⟨kind, String.ofList text, pos⟩) _ := .token _
  rwa [String.toList_ofList] at hcovers

theorem covers_stringLexeme {quote : Char} (hquote : isQuote quote = true) (cs : List Char)
    (pos : Position) : (Cursor.itemAt pos (stringLexeme quote cs)).Covers
      (stringLexeme quote cs).rest (stringLexeme quote cs).text := by
  unfold stringLexeme
  split
  · next hdrop =>
    refine .unclosedString pos rfl hquote fun hmem => ?_
    have hall := List.dropWhile_eq_nil_iff.1 hdrop quote hmem
    simp at hall
  · exact covers_ok ..

theorem covers_symbolLexeme (c : Char) (cs : List Char) (pos : Position) :
    (Cursor.itemAt pos (symbolLexeme c cs)).Covers (symbolLexeme c cs).rest
      (symbolLexeme c cs).text := by
  unfold symbolLexeme
  split
  · exact covers_ok ..
  · exact .unexpectedChar pos c

/-- The item of a lexeme was read from its text. -/
theorem covers_lexeme (c : Char) (cs : List Char) (pos : Position) :
    (Cursor.itemAt pos (lexeme c cs)).Covers (lexeme c cs).rest (lexeme c cs).text := by
  unfold lexeme
  split
  · next hquote => exact covers_stringLexeme hquote cs pos
  · split
    · exact covers_ok ..
    · split
      · exact covers_ok ..
      · exact covers_symbolLexeme c cs pos

/-! ## Steps and runs -/

namespace Cursor

/-- What a step takes off the text: a gap and the text of the item. -/
structure Step (cur : Cursor) (gap text : List Char) (item : Item) (cur' : Cursor) : Prop where
  rest_eq : cur.rest = gap ++ (text ++ cur'.rest)
  isGap : IsGap (text ++ cur'.rest) gap
  text_ne_nil : text ≠ []
  covers : item.Covers cur'.rest text
  item_pos : item.pos = cur.pos.advanceOver gap
  pos_eq : cur'.pos = cur.pos.advanceOver (gap ++ text)

theorem step_of_next {cur cur' : Cursor} {item : Item} (h : cur.next = (some item, cur')) :
    ∃ gap text, cur.Step gap text item cur' := by
  have hsource := source_gap cur.rest
  have hsound := sound_gap cur.rest
  unfold next at h
  split at h
  · next skipped comment hgap =>
    rw [hgap] at hsource hsound
    cases h
    obtain ⟨hskipped, body, rfl, hbody⟩ := hsound
    exact ⟨skipped, '/' :: '*' :: body, {
      rest_eq := by rw [← hsource, past, List.append_nil]; rfl
      isGap := by simpa [past] using hskipped
      text_ne_nil := by simp
      covers := .unclosedComment _ rfl hbody
      item_pos := rfl
      pos_eq := by simp [past] }⟩
  · cases h
  · next skipped c cs hgap =>
    rw [hgap] at hsource hsound
    cases h
    have hlexeme := lexeme_append c cs
    exact ⟨skipped, (lexeme c cs).text, {
      rest_eq := by simp only [past]; rw [hlexeme, ← hsource]; rfl
      isGap := by simp only [past]; rw [hlexeme]; exact hsound
      text_ne_nil := lexeme_text_ne_nil c cs
      covers := covers_lexeme c cs _
      item_pos := pos_itemAt _ _
      pos_eq := by simp [past] }⟩

/-- At the end of the text only a gap is left. -/
theorem isGap_of_next_none {cur cur' : Cursor} (h : cur.next = (none, cur')) :
    IsGap [] cur.rest ∧ cur' = ⟨[], cur.pos.advanceOver cur.rest⟩ := by
  have hsource := source_gap cur.rest
  have hsound := sound_gap cur.rest
  unfold next at h
  split at h
  · cases h
  · next skipped hgap =>
    rw [hgap, Gap.source, List.append_nil] at hsource
    rw [hgap] at hsound
    cases h
    rw [← hsource]
    exact ⟨hsound, rfl⟩
  · cases h

/-- Reading on until nothing is left, errors included. -/
inductive Runs : Cursor → List Item → Cursor → Prop where
  | done {cur last : Cursor} (next_eq : cur.next = (none, last)) : Runs cur [] last
  | step {cur cur' last : Cursor} {item : Item} {items : List Item}
      (next_eq : cur.next = (some item, cur')) (more : Runs cur' items last) :
      Runs cur (item :: items) last

theorem runs_items (cur : Cursor) : cur.Runs cur.items.1 cur.items.2 := by
  fun_induction items cur with
  | case1 cur last hnext => exact .done hnext
  | case2 cur item cur' hnext ih => exact .step hnext ih

end Cursor

/-! ## Tilings -/

/-- An item with its text and the gap behind it. -/
structure Tile where
  item : Item
  text : List Char
  gap : List Char

/-- The part of a text that a tile stands for. -/
def Tile.source (tile : Tile) : List Char := tile.text ++ tile.gap

/-- The part of a text that consecutive tiles stand for. -/
def sourceOf (tiles : List Tile) : List Char := tiles.flatMap Tile.source

@[simp] theorem sourceOf_nil : sourceOf [] = [] := rfl

@[simp] theorem sourceOf_cons (tile : Tile) (tiles : List Tile) :
    sourceOf (tile :: tiles) = tile.text ++ (tile.gap ++ sourceOf tiles) := by
  simp [sourceOf, Tile.source]

/-- How a tile lies in a text: `before` is all of the text in front of it, which starts at
`start`, and `behind` are the tiles behind it. -/
structure Tile.Lies (start : Position) (before : List Char) (tile : Tile) (behind : List Tile) :
    Prop where
  text_ne_nil : tile.text ≠ []
  covers : tile.item.Covers (tile.gap ++ sourceOf behind) tile.text
  isGap : IsGap (sourceOf behind) tile.gap
  pos_eq : tile.item.pos = start.advanceOver before

/-- The text `source`, which starts at `start`, is the gap `first` followed by the tiles. -/
structure Tiling (start : Position) (source first : List Char) (tiles : List Tile) : Prop where
  source_eq : source = first ++ sourceOf tiles
  first_isGap : IsGap (sourceOf tiles) first
  lies : ∀ before tile behind, tiles = before ++ tile :: behind →
    tile.Lies start (first ++ sourceOf before) behind

namespace Tiling

variable {start : Position} {source first : List Char} {tiles : List Tile}

/-- A tile in front of a tiling. -/
theorem cons (tile : Tile) {gap : List Char}
    (h : Tiling (start.advanceOver (gap ++ tile.text)) source tile.gap tiles)
    (hgap : IsGap (tile.text ++ source) gap) (htile : tile.Lies start gap tiles) :
    Tiling start (gap ++ (tile.text ++ source)) gap (tile :: tiles) where
  source_eq := by rw [h.source_eq, sourceOf_cons]
  first_isGap := by rw [sourceOf_cons, ← h.source_eq]; exact hgap
  lies := by
    intro before tile' behind htiles
    cases before with
    | nil =>
      cases htiles
      simpa using htile
    | cons tile'' before =>
      cases htiles
      have hlies := h.lies before tile' behind rfl
      refine ⟨hlies.text_ne_nil, hlies.covers, hlies.isGap, ?_⟩
      rw [hlies.pos_eq]
      simp

/-- Positions grow along a tiling. -/
theorem increasing (h : Tiling start source first tiles) :
    (tiles.map fun tile => tile.item.pos).Pairwise Position.Before := by
  have hlies := h.lies
  clear h
  induction tiles generalizing first with
  | nil => exact .nil
  | cons tile tiles ih =>
    rw [List.map_cons, List.pairwise_cons, List.forall_mem_map]
    have hfirst := hlies [] tile tiles rfl
    refine ⟨fun tile' htile' => ?_, @ih (first ++ tile.source) fun before tile' behind h => ?_⟩
    · obtain ⟨before, behind, rfl⟩ := List.append_of_mem htile'
      have hother := hlies (tile :: before) tile' behind rfl
      rw [hfirst.pos_eq, hother.pos_eq, sourceOf_cons, sourceOf_nil, List.append_nil,
        Position.advanceOver_append]
      exact Position.before_advanceOver _ (by simp [hfirst.text_ne_nil])
    · have hother := hlies (tile :: before) tile' behind (by rw [h]; rfl)
      simpa [Tile.source] using hother

/-- Nothing comes behind an item that runs to the end of the text. -/
theorem behind_eq_nil (h : Tiling start source first tiles) {before behind : List Tile}
    {tile : Tile} (htiles : tiles = before ++ tile :: behind)
    (hended : tile.gap ++ sourceOf behind = []) : behind = [] := by
  cases behind with
  | nil => rfl
  | cons tile' behind =>
    have hlies := h.lies (before ++ [tile]) tile' behind (by simp [htiles])
    simp [hlies.text_ne_nil] at hended

end Tiling

/-- The tiles of a run. -/
theorem Cursor.Runs.exists_tiling {cur last : Cursor} {items : List Item} (h : cur.Runs items last) :
    ∃ first tiles, items = tiles.map Tile.item ∧ Tiling cur.pos cur.rest first tiles ∧
      last = ⟨[], cur.pos.advanceOver cur.rest⟩ := by
  induction h with
  | @done cur last hnext =>
    obtain ⟨hgap, rfl⟩ := isGap_of_next_none hnext
    exact ⟨cur.rest, [], rfl, ⟨by simp, hgap, by simp⟩, rfl⟩
  | @step cur cur' last item items hnext _ ih =>
    obtain ⟨gap, text, hstep⟩ := step_of_next hnext
    obtain ⟨gap', tiles, rfl, htiling, rfl⟩ := ih
    rw [hstep.pos_eq] at htiling
    refine ⟨gap, ⟨item, text, gap'⟩ :: tiles, rfl, ?_, ?_⟩
    · rw [hstep.rest_eq]
      refine .cons ⟨item, text, gap'⟩ htiling hstep.isGap ?_
      exact ⟨hstep.text_ne_nil, htiling.source_eq ▸ hstep.covers, htiling.first_isGap, hstep.item_pos⟩
    · rw [hstep.pos_eq, hstep.rest_eq]
      simp

/-- Whether an item is a string or a comment that is not closed. -/
def Item.isUnclosed : Item → Bool
  | .error ⟨_, .unclosedString⟩ | .error ⟨_, .unclosedComment⟩ => true
  | _ => false

theorem Item.Covers.rest_eq_nil {item : Item} {text rest : List Char} (h : item.Covers rest text)
    (hunclosed : item.isUnclosed = true) : rest = [] := by
  cases h with
  | token | unexpectedChar => cases hunclosed
  | unclosedString _ ended | unclosedComment _ ended => exact ended

/-- **Reading tiles the text.**  Reading a text to its end, errors included, comes to an end.  The
text is a gap followed by the items' texts with a gap behind each.  Every item stands where its
text does, each behind the one before; only the last can be a string or a comment that is not
closed; and reading ends behind the whole text. -/
theorem reading_tiles_source (source : String) :
    ∃ first tiles,
      (Cursor.ofString source).Runs (tiles.map Tile.item)
        ⟨[], Position.start.advanceOver source.toList⟩ ∧
      (Cursor.ofString source).items.1 = tiles.map Tile.item ∧
      Tiling Position.start source.toList first tiles ∧
      (tiles.map fun tile => tile.item.pos).Pairwise Position.Before ∧
      ∀ before tile behind, tiles = before ++ tile :: behind → tile.item.isUnclosed = true →
        behind = [] := by
  have hruns := (Cursor.ofString source).runs_items
  obtain ⟨first, tiles, hitems, htiling, hlast⟩ := hruns.exists_tiling
  rw [hitems, hlast] at hruns
  refine ⟨first, tiles, hruns, hitems, htiling, htiling.increasing, ?_⟩
  intro before tile behind htiles hunclosed
  exact htiling.behind_eq_nil htiles ((htiling.lies _ _ _ htiles).covers.rest_eq_nil hunclosed)

end TypeForge
