import TypeForge.Token.Listing
import TypeForge.Proofs.Output.Words
import TypeForge.Proofs.Text.Quoting

/-!
# Token listings can be read back

A listing has one line per item.  Whatever the text of a token holds, its line has no line break in
it, and the line tells the item: the name of a kind ends at its comma, a quoted text at its closing
quote, and the numbers of a position where the digits end.  A listing therefore determines the items
it shows, which are all items of the text or those through the first error.
-/

namespace TypeForge

/-! ## Kinds and positions -/

namespace Kind

/-- The kind with the given name. -/
def ofName? (name : String) : Option Kind :=
  (spellings.map Word.kind ++ [identifier, number, string]).find? fun kind => kind.name == name

theorem ofName?_name (kind : Kind) : ofName? kind.name = some kind := by
  cases kind <;> decide

theorem name_injective {kind kind' : Kind} (h : kind.name = kind'.name) : kind = kind' := by
  have hkind := ofName?_name kind
  rw [h, ofName?_name] at hkind
  exact (Option.some.inj hkind).symm

theorem notMem_name (kind : Kind) : ',' ∉ kind.name.toList ∧ '\n' ∉ kind.name.toList := by
  cases kind <;> decide

end Kind

theorem notMem_toString {c : Char} (hc : c.isDigit = false) (n : Nat) : c ∉ (toString n).toList := by
  intro hmem
  rw [isDigit_of_mem_toString hmem] at hc
  cases hc

namespace Position

theorem toList_render (p : Position) :
    p.render.toList = (toString p.line).toList ++ ':' :: (toString p.column).toList := by
  simp [render]

/-- A position ends where the digits of its column end. -/
theorem render_append_inj {p q : Position} {c : Char} (hc : c.isDigit = false) {rest rest' : List Char}
    (h : p.render.toList ++ c :: rest = q.render.toList ++ c :: rest') : p = q ∧ rest = rest' := by
  rw [toList_render, toList_render, List.append_assoc, List.append_assoc] at h
  have hcolon (n : Nat) : ':' ∉ (toString n).toList := notMem_toString (by decide) n
  obtain ⟨hline, hbehind⟩ := append_mark_inj (hcolon _) (hcolon _) h
  obtain ⟨hcolumn, hrest⟩ := append_mark_inj (notMem_toString hc _) (notMem_toString hc _) hbehind
  have hlines : p.line = q.line := toString_injective (String.toList_inj.1 hline)
  have hcolumns : p.column = q.column := toString_injective (String.toList_inj.1 hcolumn)
  cases p
  cases q
  cases hlines
  cases hcolumns
  exact ⟨rfl, hrest⟩

theorem newline_notMem_render (p : Position) : '\n' ∉ p.render.toList := by
  have hdigits (n : Nat) : '\n' ∉ (toString n).toList := notMem_toString (by decide) n
  rw [toList_render, List.mem_append, List.mem_cons]
  simp only [hdigits, or_false]
  decide

end Position

/-! ## Lines -/

theorem Token.toList_render (t : Token) :
    t.render.toList = "Token(".toList ++ (t.kind.name.toList ++ ',' :: ' ' ::
      (Text.quotedWith '\x22' t.text.toList ++ ',' :: ' ' :: (t.pos.render.toList ++ [')']))) := by
  unfold Token.render
  simp [Text.quoted]

/-- **The line of a token tells its kind, its text and its position.** -/
theorem Token.render_injective {t t' : Token} (h : t.render = t'.render) : t = t' := by
  have hlist := congrArg String.toList h
  rw [Token.toList_render, Token.toList_render, List.append_cancel_left_eq] at hlist
  obtain ⟨hkind, hlist⟩ := append_mark_inj t.kind.notMem_name.1 t'.kind.notMem_name.1 hlist
  obtain ⟨htext, hlist⟩ := Text.quotedWith_append_inj (.inl rfl) (List.cons.inj hlist).2
  have hplace := (List.cons.inj (List.cons.inj hlist).2).2
  obtain ⟨hpos, -⟩ := Position.render_append_inj (by decide) hplace
  cases t
  cases t'
  cases Kind.name_injective (String.toList_inj.1 hkind)
  cases String.toList_inj.1 htext
  cases hpos
  rfl

theorem LexError.message_unexpectedChar (c : Char) :
    (unexpectedChar c).message = "unexpected character " ++ Text.quotedChar c := rfl

theorem LexError.message_unexpectedChar_ne (c : Char) :
    (unexpectedChar c).message ≠ unclosedString.message ∧ (unexpectedChar c).message ≠ unclosedComment.message := by
  have hstart : (unexpectedChar c).message.toList.take 3 = ['u', 'n', 'e'] := by
    rw [message_unexpectedChar, String.toList_append, List.take_append_of_le_length (by decide)]
    decide
  have hother : ['u', 'n', 'e'] ≠ unclosedString.message.toList.take 3 ∧
      ['u', 'n', 'e'] ≠ unclosedComment.message.toList.take 3 := by decide
  rw [← hstart] at hother
  exact ⟨fun h => hother.1 (by rw [h]), fun h => hother.2 (by rw [h])⟩

/-- **The text of an error tells what is wrong.** -/
theorem LexError.message_injective {e e' : LexError} (h : e.message = e'.message) : e = e' := by
  have hunclosed : unclosedString.message ≠ unclosedComment.message := by decide
  cases e with
  | unexpectedChar c =>
    cases e' with
    | unexpectedChar c' =>
      rw [message_unexpectedChar, message_unexpectedChar, String.append_right_inj, Text.quotedChar,
        Text.quotedChar, String.ofList_inj,
        ← List.append_nil (Text.quotedWith _ [c]), ← List.append_nil (Text.quotedWith _ [c'])] at h
      rw [List.singleton_inj.1 (Text.quotedWith_append_inj (.inr rfl) h).1]
    | unclosedString => exact absurd h (message_unexpectedChar_ne c).1
    | unclosedComment => exact absurd h (message_unexpectedChar_ne c).2
  | unclosedString =>
    cases e' with
    | unexpectedChar c' => exact absurd h.symm (message_unexpectedChar_ne c').1
    | unclosedString => rfl
    | unclosedComment => exact absurd h hunclosed
  | unclosedComment =>
    cases e' with
    | unexpectedChar c' => exact absurd h.symm (message_unexpectedChar_ne c').2
    | unclosedString => exact absurd h.symm hunclosed
    | unclosedComment => rfl

namespace Item

/-- **The line of an item tells the item.** -/
theorem render_injective {item item' : Item} (h : item.render = item'.render) : item = item' := by
  have hhead := congrArg (fun line => line.toList.head?) h
  cases item with
  | ok t =>
    cases item' with
    | ok t' => rw [Token.render_injective h]
    | error e' => simp [render, Token.toList_render] at hhead
  | error e =>
    cases item' with
    | ok t' => simp [render, Token.toList_render] at hhead
    | error e' =>
      rw [render, render, String.append_right_inj] at h
      have hlist := congrArg String.toList h
      simp only [Located.render, String.toList_append, List.append_assoc] at hlist
      obtain ⟨hpos, hmessage⟩ := Position.render_append_inj (by decide) hlist
      cases e
      cases e'
      cases hpos
      cases LexError.message_injective (String.toList_inj.1 (List.cons.inj hmessage).2)
      rfl

/-- **The line of an item is one line**, whatever the text of a token holds. -/
theorem newline_notMem_render (item : Item) : '\n' ∉ item.render.toList := by
  cases item with
  | ok t =>
    have hquoted := Text.newline_notMem_quoted t.text
    rw [Text.quoted, String.toList_ofList] at hquoted
    rw [render, Token.toList_render]
    simp [t.kind.notMem_name.2, hquoted, t.pos.newline_notMem_render]
  | error e =>
    have hmessage : '\n' ∉ e.value.message.toList := by
      cases e.value with
      | unexpectedChar c =>
        have hquoted := @Text.newline_notMem_escaped '\x27' (.inr rfl) c
        rw [LexError.message_unexpectedChar, Text.quotedChar, String.toList_append, String.toList_ofList]
        simp [Text.quotedWith, hquoted]
      | unclosedString | unclosedComment => decide
    simp [render, Located.render, e.pos.newline_notMem_render, hmessage]

end Item

/-! ## Listings -/

/-- Without a stopping item a list is kept as it is; else it is cut behind the first one. -/
theorem throughFirst_cases {α : Type} (stop : α → Bool) (as : List α) :
    ((∀ a ∈ as, stop a = false) ∧ (throughFirst stop as).1 = as) ∨
      ∃ before a behind, as = before ++ a :: behind ∧ (∀ b ∈ before, stop b = false) ∧ stop a = true ∧
        (throughFirst stop as).1 = before ++ [a] := by
  induction as with
  | nil => exact .inl ⟨List.forall_mem_nil _, rfl⟩
  | cons a as ih =>
    by_cases ha : stop a = true
    · exact .inr ⟨[], a, as, rfl, List.forall_mem_nil _, ha, by simp [throughFirst, ha]⟩
    · rw [Bool.not_eq_true] at ha
      rcases ih with ⟨has, hkept⟩ | ⟨before, b, behind, rfl, hbefore, hb, hcut⟩
      · exact .inl ⟨List.forall_mem_cons.2 ⟨ha, has⟩, by simp [throughFirst, ha, hkept]⟩
      · exact .inr ⟨a :: before, b, behind, rfl, List.forall_mem_cons.2 ⟨ha, hbefore⟩, hb,
          by simp [throughFirst, ha, hcut]⟩

/-- Items without an error are tokens. -/
theorem exists_tokens {items : List Item} (h : ∀ item ∈ items, item.isError = false) :
    ∃ tokens : List Token, items = tokens.map .ok := by
  induction items with
  | nil => exact ⟨[], rfl⟩
  | cons item items ih =>
    rw [List.forall_mem_cons] at h
    obtain ⟨tokens, rfl⟩ := ih h.2
    cases item with
    | ok t => exact ⟨t :: tokens, rfl⟩
    | error e => cases h.1

/-- The items that a listing shows. -/
theorem listedItems_cases (source : String) :
    (∃ tokens : List Token, (Cursor.ofString source).items.1 = tokens.map .ok ∧
        listedItems source = tokens.map .ok) ∨
      ∃ (tokens : List Token) (e : Located LexError) (behind : List Item),
        (Cursor.ofString source).items.1 = tokens.map .ok ++ .error e :: behind ∧
          listedItems source = tokens.map .ok ++ [.error e] := by
  rcases throughFirst_cases Item.isError (Cursor.ofString source).items.1 with
    ⟨hitems, hkept⟩ | ⟨before, item, behind, hitems, hbefore, hitem, hcut⟩
  · obtain ⟨tokens, htokens⟩ := exists_tokens hitems
    exact .inl ⟨tokens, htokens, hkept.trans htokens⟩
  · obtain ⟨tokens, rfl⟩ := exists_tokens hbefore
    cases item with
    | ok t => cases hitem
    | error e => exact .inr ⟨tokens, e, behind, hitems, hcut⟩

/-- The lines of a listing are those of its items, one for each. -/
theorem splitOn_tokenListing (source : String) :
    (tokenListing source).toList.splitOn '\n' =
      (listedItems source).map (fun item => item.render.toList) ++ [[]] := by
  unfold tokenListing
  induction listedItems source with
  | nil => rfl
  | cons item items ih =>
    have htext : (String.join ((item :: items).map fun item => item.render ++ "\n")).toList =
        item.render.toList ++ '\n' :: (String.join (items.map fun item => item.render ++ "\n")).toList := by
      simp
    rw [htext, List.splitOn_append_cons_self, List.splitOn_eq_singleton item.newline_notMem_render, ih]
    rfl

/-- **A listing shows the items of a text through the first error, one line for each, and nothing of
them is lost.**  Its lines are those of the items; the items are all of the text if they are tokens,
and else the tokens in front of the first error and that error.  Two texts have the same listing
exactly if these items are the same: the kinds, texts and positions of the tokens, and what is wrong
and where. -/
theorem listing_shows_items (source : String) :
    (tokenListing source).toList.splitOn '\n' =
        (listedItems source).map (fun item => item.render.toList) ++ [[]] ∧
      ((∃ tokens : List Token, (Cursor.ofString source).items.1 = tokens.map .ok ∧
          listedItems source = tokens.map .ok) ∨
        ∃ (tokens : List Token) (e : Located LexError) (behind : List Item),
          (Cursor.ofString source).items.1 = tokens.map .ok ++ .error e :: behind ∧
            listedItems source = tokens.map .ok ++ [.error e]) ∧
      ∀ other, tokenListing other = tokenListing source ↔ listedItems other = listedItems source := by
  refine ⟨splitOn_tokenListing source, listedItems_cases source, fun other => ⟨fun h => ?_, fun h => ?_⟩⟩
  · have hlines := splitOn_tokenListing other
    rw [h, splitOn_tokenListing source, List.append_left_inj] at hlines
    exact ((List.map_inj_right fun _ _ heq => Item.render_injective (String.toList_inj.1 heq)).1 hlines).symm
  · rw [tokenListing, tokenListing, h]

example : tokenListing "'a\nb' // c\n $" =
    "Token(String, \"'a\\nb'\", 1:1)\nerror: 3:2: unexpected character '$'\n" := by
  decide +kernel

end TypeForge
