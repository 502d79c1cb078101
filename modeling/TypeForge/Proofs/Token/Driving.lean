import TypeForge.Proofs.Token.Tiling

/-!
# Driving a cursor

A cursor can be driven in any way: items and single characters are taken off its text in any
order, tokens are looked at, and a copy is kept and gone back to.  A character that is taken may
leave it inside of a comment, of a string or of an operator, and reading goes on from there.

Wherever that leads, the cursor stands in its text: what is left is a suffix of the text, and the
position is that of what is in front of it.  Counted in bytes, it stands at the boundary of a
character.  Looking ahead tells what taking items would give.

The step is one move; a run goes through moves one by one.
-/

namespace TypeForge

/-! ## Places in a text -/

/-- The position is that of a place in the text. -/
def Position.InText (source : List Char) (p : Position) : Prop :=
  ∃ before, before <+: source ∧ p = Position.start.advanceOver before

/-- The cursor stands in the text, in front of what is left of it. -/
def Cursor.Within (source : List Char) (cur : Cursor) : Prop :=
  ∃ before, source = before ++ cur.rest ∧ cur.pos = Position.start.advanceOver before

namespace Cursor

section

variable {source : List Char} {cur cur' : Cursor}

theorem Within.inText (h : cur.Within source) : cur.pos.InText source := by
  obtain ⟨before, rfl, hpos⟩ := h
  exact ⟨before, List.prefix_append .., hpos⟩

theorem within_ofString (source : String) : (ofString source).Within source.toList := ⟨[], rfl, rfl⟩

/-- A cursor that moves over a text it stands in front of. -/
theorem Within.past (h : cur.Within source) {cs rest : List Char} (hrest : cur.rest = cs ++ rest) :
    (cur.past cs rest).Within source := by
  obtain ⟨before, rfl, hpos⟩ := h
  refine ⟨before ++ cs, ?_, ?_⟩
  · rw [hrest, List.append_assoc]
    rfl
  · rw [Cursor.past, hpos, Position.advanceOver_append]

/-- What is read from a text: its items start in it, and the cursor stays in it. -/
theorem Within.next (h : cur.Within source) {item : Item} (hnext : cur.next = (some item, cur')) :
    item.pos.InText source ∧ cur'.Within source := by
  obtain ⟨gap, text, hstep⟩ := step_of_next hnext
  have hpast := h.past hstep.rest_eq
  have hcur' : cur' = (cur.past gap (text ++ cur'.rest)).past text cur'.rest := by
    rw [Cursor.past, Cursor.past, ← Position.advanceOver_append, ← hstep.pos_eq]
  refine ⟨?_, hcur' ▸ hpast.past rfl⟩
  rw [hstep.item_pos]
  exact hpast.inText

theorem Within.next_none (h : cur.Within source) (hnext : cur.next = (none, cur')) :
    cur'.Within source := by
  obtain ⟨-, rfl⟩ := isGap_of_next_none hnext
  exact h.past (List.append_nil _).symm

theorem Within.nextChar (h : cur.Within source) : cur.nextChar.2.Within source := by
  unfold Cursor.nextChar
  split
  · exact h
  · next c rest hrest => exact h.past hrest

/-! ## What is taken off the text -/

/-- Taking an item takes characters off the front, and at least one if there is an item. -/
theorem exists_taken_next (cur : Cursor) :
    ∃ taken, cur.rest = taken ++ cur.next.2.rest ∧ (cur.next.1.isSome = true → taken ≠ []) := by
  rcases hnext : cur.next with ⟨_ | item, cur'⟩
  · obtain ⟨-, rfl⟩ := isGap_of_next_none hnext
    exact ⟨cur.rest, (List.append_nil _).symm, fun h => by cases h⟩
  · obtain ⟨gap, text, hstep⟩ := step_of_next hnext
    refine ⟨gap ++ text, ?_, fun _ => List.append_ne_nil_of_right_ne_nil _ hstep.text_ne_nil⟩
    rw [List.append_assoc]
    exact hstep.rest_eq

theorem exists_taken_nextChar (cur : Cursor) : ∃ taken, cur.rest = taken ++ cur.nextChar.2.rest := by
  unfold Cursor.nextChar
  split
  · exact ⟨[], rfl⟩
  · next c rest hrest => exact ⟨[c], hrest⟩

theorem take_peek (cur : Cursor) {n m : Nat} (h : n ≤ m) : (cur.peek m).take n = cur.peek n := by
  induction n generalizing cur m with
  | zero => simp [peek]
  | succ n ih =>
    obtain ⟨m, rfl⟩ : ∃ k, m = k + 1 := ⟨m - 1, by omega⟩
    rw [peek, peek]
    split
    · rw [List.take_succ_cons, ih _ (by omega)]
    · rfl

end

/-! ## Bytes -/

/-- How many bytes of the text are in front of the cursor. -/
def offset (source : String) (cur : Cursor) : String.Pos.Raw :=
  ⟨source.utf8ByteSize - (String.ofList cur.rest).utf8ByteSize⟩

section

variable {source : String} {cur cur' : Cursor}

theorem eq_append_of_toList {before behind : List Char} (h : source.toList = before ++ behind) :
    source = String.ofList before ++ String.ofList behind := by
  rw [← String.ofList_append, ← h, String.ofList_toList]

/-- The offset of a cursor is where the text in front of it ends. -/
theorem offset_eq_rawEndPos {before : List Char} (h : source.toList = before ++ cur.rest) :
    cur.offset source = (String.ofList before).rawEndPos := by
  have hsize := congrArg String.utf8ByteSize (eq_append_of_toList h)
  rw [String.utf8ByteSize_append] at hsize
  rw [offset, hsize, Nat.add_sub_cancel]
  rfl

theorem Within.isValid_offset (h : cur.Within source.toList) : (cur.offset source).IsValid source := by
  obtain ⟨before, hsource, -⟩ := h
  exact String.Pos.Raw.isValid_iff_exists_append.2
    ⟨_, _, eq_append_of_toList hsource, offset_eq_rawEndPos hsource⟩

/-- A cursor that takes characters off the front does not move backwards. -/
theorem Within.offset_le (h : cur.Within source.toList) {taken : List Char}
    (hrest : cur.rest = taken ++ cur'.rest) : cur.offset source ≤ cur'.offset source := by
  obtain ⟨before, hsource, -⟩ := h
  have hsource' : source.toList = (before ++ taken) ++ cur'.rest := by
    rw [hsource, hrest, List.append_assoc]
  rw [offset_eq_rawEndPos hsource, offset_eq_rawEndPos hsource', String.ofList_append,
    String.Pos.Raw.le_iff, String.byteIdx_rawEndPos, String.byteIdx_rawEndPos,
    String.utf8ByteSize_append]
  exact Nat.le_add_right ..

end

/-! ## Moves -/

/-- What can be done with a cursor. -/
inductive Move where
  /-- Take an item. -/
  | next
  /-- Look at the next `n` tokens. -/
  | peek (n : Nat)
  /-- Take a character, whatever it is. -/
  | char
  /-- Keep a copy. -/
  | save
  /-- Go back to the copy. -/
  | restore

/-- What a move tells. -/
inductive Answer where
  | item (item : Option Item)
  | tokens (tokens : List Token)
  | char (c : Option Char)
  | nothing
deriving DecidableEq

/-- The answer of taking a token. -/
def Answer.token (t : Token) : Answer := .item (some (.ok t))

/-- Whether a token was taken. -/
def Answer.isToken : Answer → Bool
  | .item (some (.ok _)) => true
  | _ => false

/-- A cursor that is driven, and the copy that was kept last. -/
structure Driven where
  cursor : Cursor
  kept : Cursor

namespace Driven

/-- A cursor at the start of a text, where a copy is kept. -/
def ofString (source : String) : Driven := ⟨.ofString source, .ofString source⟩

/-- What a move tells, and where it leads. -/
def step (d : Driven) : Move → Answer × Driven
  | .next => (.item d.cursor.next.1, { d with cursor := d.cursor.next.2 })
  | .peek n => (.tokens (d.cursor.peek n), d)
  | .char => (.char d.cursor.nextChar.1, { d with cursor := d.cursor.nextChar.2 })
  | .save => (.nothing, { d with kept := d.cursor })
  | .restore => (.nothing, { d with cursor := d.kept })

/-- What moves tell one after another, and where they lead. -/
def run (d : Driven) : List Move → List Answer × Driven
  | [] => ([], d)
  | move :: moves =>
    let (answer, d') := d.step move
    let (answers, d'') := d'.run moves
    (answer :: answers, d'')

/-- The cursor and its copy stand in the text. -/
structure Within (source : List Char) (d : Driven) : Prop where
  cursor : d.cursor.Within source
  kept : d.kept.Within source

variable {source : List Char} {d : Driven}

/-- **A move stays in the text.** -/
theorem Within.step (h : d.Within source) (move : Move) : (d.step move).2.Within source := by
  cases move with
  | next =>
    refine ⟨?_, h.kept⟩
    change d.cursor.next.2.Within source
    rcases hnext : d.cursor.next with ⟨_ | item, cur'⟩
    · exact h.cursor.next_none hnext
    · exact (h.cursor.next hnext).2
  | peek n => exact h
  | char => exact ⟨h.cursor.nextChar, h.kept⟩
  | save => exact ⟨h.cursor, h.cursor⟩
  | restore => exact ⟨h.kept, h.kept⟩

theorem Within.run (h : d.Within source) (moves : List Move) : (d.run moves).2.Within source := by
  induction moves generalizing d with
  | nil => exact h
  | cons move moves ih => exact ih (h.step move)

/-- Looking ahead tells the tokens that would be taken, up to the first item that is none. -/
theorem map_token_peek (d : Driven) (n : Nat) :
    (d.cursor.peek n).map Answer.token =
      (d.run (List.replicate n .next)).1.takeWhile Answer.isToken := by
  induction n generalizing d with
  | zero => rfl
  | succ n ih =>
    have hmore := ih { d with cursor := d.cursor.next.2 }
    change _ = (Answer.item d.cursor.next.1 :: (Driven.run { d with cursor := d.cursor.next.2 }
      (List.replicate n .next)).1).takeWhile Answer.isToken
    rw [List.takeWhile_cons, ← hmore, peek]
    rcases d.cursor.next with ⟨_ | _ | t, cur'⟩ <;> rfl

end Driven

/-- **A cursor keeps its place, however it is driven.**  After any moves it stands at the boundary
of a character of the text and not behind its end, at the position behind the text in front of it.
Taking an item or a character does not move it backwards, and an item, be it an error, takes at
least one character.  Looking ahead leaves it where it is and tells the tokens that would be taken,
up to the first error or the end; so looking further ahead tells more of the same. -/
theorem driving_keeps_place (source : String) (moves : List Move) :
    let d := ((Driven.ofString source).run moves).2
    (d.cursor.offset source).IsValid source ∧ d.cursor.offset source ≤ source.rawEndPos ∧
    (∃ before, source.toList = before ++ d.cursor.rest ∧
      d.cursor.offset source = (String.ofList before).rawEndPos ∧
      d.cursor.pos = Position.start.advanceOver before) ∧
    (∀ move, move = .next ∨ move = .char →
      d.cursor.offset source ≤ (d.step move).2.cursor.offset source) ∧
    (∀ item, (d.step .next).1 = .item (some item) →
      ∃ taken, taken ≠ [] ∧ d.cursor.rest = taken ++ (d.step .next).2.cursor.rest) ∧
    (∀ n, ∃ tokens, d.step (.peek n) = (.tokens tokens, d) ∧
      tokens.map Answer.token = (d.run (List.replicate n .next)).1.takeWhile Answer.isToken) ∧
    ∀ m n, m ≤ n → d.cursor.peek m <+: d.cursor.peek n := by
  intro d
  have hstart : (Driven.ofString source).Within source.toList :=
    ⟨within_ofString source, within_ofString source⟩
  have hcursor : d.cursor.Within source.toList := (hstart.run moves).cursor
  obtain ⟨taken, hnext, htaken⟩ := d.cursor.exists_taken_next
  refine ⟨hcursor.isValid_offset, hcursor.isValid_offset.le_rawEndPos, ?_, ?_, ?_, ?_, ?_⟩
  · obtain ⟨before, hsource, hpos⟩ := hcursor
    exact ⟨before, hsource, offset_eq_rawEndPos hsource, hpos⟩
  · rintro move (rfl | rfl)
    · exact hcursor.offset_le hnext
    · obtain ⟨taken, hchar⟩ := d.cursor.exists_taken_nextChar
      exact hcursor.offset_le hchar
  · intro item hitem
    have hsome : d.cursor.next.1 = some item := Answer.item.inj hitem
    exact ⟨taken, htaken (by rw [hsome]; rfl), hnext⟩
  · exact fun n => ⟨d.cursor.peek n, rfl, d.map_token_peek n⟩
  · intro m n hle
    rw [← d.cursor.take_peek hle]
    exact List.take_prefix ..

-- behind the first character of an arrow, which stands behind a character of two bytes
example :
    (((Driven.ofString "\u00e9=>/**/ x $").run [.char, .save, .char, .peek 9, .next, .restore, .next]).1 =
      [.char (some '\u00e9'), .nothing, .char (some '='),
        .tokens [⟨.greater, ">", ⟨1, 3⟩⟩, ⟨.identifier, "x", ⟨1, 9⟩⟩],
        .token ⟨.greater, ">", ⟨1, 3⟩⟩, .nothing, .token ⟨.fatArrow, "=>", ⟨1, 2⟩⟩]) := by
  decide +kernel

end Cursor

end TypeForge
