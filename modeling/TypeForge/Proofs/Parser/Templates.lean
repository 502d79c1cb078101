import TypeForge.Proofs.Parser.Diagnoses
import TypeForge.Proofs.Parser.Mirror
import Mathlib.Data.List.DropRight

/-!
# Where template strings are cut

A template string is cut into texts at its interpolations.  A dollar sign is taken together
with the character behind it, so dollar signs are taken in pairs from the left, and the mark
`$` and an opening brace is one only behind an even number of dollar signs: behind an odd
number its dollar sign belongs to the pair in front of the brace, and the interpolation is
part of the text.
-/

namespace TypeForge

/-! ## Texts and their ends -/

/-- A text with neither a backtick nor the mark of an interpolation in it. -/
structure Plain (text : List Char) : Prop where
  backtick : '\x60' ∉ text
  mark : ¬ ['$', '\x7b'] <:+: text

instance (text : List Char) : Decidable (Plain text) :=
  decidable_of_iff ('\x60' ∉ text ∧ ¬ ['$', '\x7b'] <:+: text)
    ⟨fun h => ⟨h.1, h.2⟩, fun h => ⟨h.backtick, h.mark⟩⟩

theorem Plain.tail {c : Char} {text : List Char} (h : Plain (c :: text)) : Plain text where
  backtick hmem := h.backtick (List.mem_cons_of_mem _ hmem)
  mark hmark := h.mark (hmark.trans (List.suffix_cons c text).isInfix)

/-- How many dollar signs a text ends in. -/
def dollars (text : List Char) : Nat := (text.rtakeWhile (· == '$')).length

/-- Whether a text ends in an odd number of dollar signs. -/
def endsOddly (text : List Char) : Bool := dollars text % 2 == 1

theorem dollars_cons (c : Char) (text : List Char) :
    dollars (c :: text) =
      if dollars text = text.length ∧ c = '$' then dollars text + 1 else dollars text := by
  have hreverse : ∀ cs : List Char, dollars cs = (cs.reverse.takeWhile (· == '$')).length := by
    intro cs
    rw [dollars, List.rtakeWhile, List.length_reverse]
  rw [hreverse, hreverse, List.reverse_cons, List.takeWhile_append, List.length_reverse]
  by_cases hall : (text.reverse.takeWhile (· == '$')).length = text.length
  · by_cases hc : c = '$'
    · simp [hall, hc]
    · simp [hall, hc]
  · simp [hall]

/-- A character that is no dollar sign does not count. -/
theorem endsOddly_cons {c : Char} (hc : c ≠ '$') (text : List Char) :
    endsOddly (c :: text) = endsOddly text := by
  rw [endsOddly, endsOddly, dollars_cons, if_neg fun h => hc h.2]

/-- Neither does a dollar sign with the character behind it. -/
theorem endsOddly_pair (c : Char) (text : List Char) :
    endsOddly ('$' :: c :: text) = endsOddly text := by
  rw [endsOddly, endsOddly, dollars_cons, dollars_cons]
  by_cases hall : dollars text = text.length ∧ c = '$'
  · simp [hall, Nat.add_assoc]
  · have hlength : dollars text ≠ (c :: text).length := by
      have hle : dollars text ≤ text.length := (List.rtakeWhile_suffix _ _).length_le
      rw [List.length_cons]
      omega
    rw [if_neg hall, if_neg fun h => hlength h.1]

/-! ## Reading texts -/

/-- Reading a template takes all of `front` as text, whatever is behind it. -/
def Passes (front : List Char) : Prop :=
  ∀ rest, templateText (front ++ rest) =
    (templateText rest).map fun cut => (front ++ cut.1, cut.2)

theorem passes_nil : Passes [] := by
  intro rest
  simp

theorem Passes.append {front back : List Char} (hfront : Passes front) (hback : Passes back) :
    Passes (front ++ back) := by
  intro rest
  rw [List.append_assoc, hfront, hback, Option.map_map]
  simp [Function.comp_def]

theorem passes_singleton {c : Char} (hdollar : c ≠ '$') (hbacktick : c ≠ '\x60') : Passes [c] := by
  intro rest
  simp [templateText, hdollar]

theorem passes_pair {c : Char} (hbrace : c ≠ '\x7b') (hbacktick : c ≠ '\x60') : Passes ['$', c] := by
  intro rest
  simp [templateText]

/-- A text that holds neither a dollar sign nor a backtick. -/
theorem passes_of_forall_ne {text : List Char} (h : ∀ c ∈ text, c ≠ '$' ∧ c ≠ '\x60') :
    Passes text := by
  induction text with
  | nil => exact passes_nil
  | cons c text ih =>
    obtain ⟨hdollar, hbacktick⟩ := h c (List.mem_cons_self ..)
    exact (passes_singleton hdollar hbacktick).append (ih fun d hd => h d (List.mem_cons_of_mem _ hd))

/-- A plain text is taken as it stands, but for the last of an odd number of dollar signs. -/
theorem Plain.exists_passes {text : List Char} (h : Plain text) :
    ∃ front, Passes front ∧ text = front ++ (if endsOddly text then ['$'] else []) := by
  -- dollar signs are taken in pairs, so two characters may go at a time
  induction text using List.twoStepInduction with
  | nil => exact ⟨[], passes_nil, rfl⟩
  | singleton c =>
    by_cases hc : c = '$'
    · subst hc
      exact ⟨[], passes_nil, by decide⟩
    · have hbacktick : c ≠ '\x60' := fun heq => h.backtick (heq ▸ List.mem_singleton_self _)
      refine ⟨[c], passes_singleton hc hbacktick, ?_⟩
      have hodd : endsOddly [c] = false := by
        rw [endsOddly_cons hc]
        rfl
      simp [hodd]
  | cons_cons c d text ihtwo ihone =>
    by_cases hc : c = '$'
    · subst hc
      have hbrace : d ≠ '\x7b' := by
        rintro rfl
        exact h.mark (List.prefix_append ['$', '\x7b'] text).isInfix
      have hbacktick : d ≠ '\x60' := fun heq => h.tail.backtick (heq ▸ List.mem_cons_self ..)
      obtain ⟨front, hfront, htext⟩ := ihtwo h.tail.tail
      refine ⟨['$', d] ++ front, (passes_pair hbrace hbacktick).append hfront, ?_⟩
      rw [endsOddly_pair]
      simpa using htext
    · have hbacktick : c ≠ '\x60' := fun heq => h.backtick (heq ▸ List.mem_cons_self ..)
      obtain ⟨front, hfront, htext⟩ := ihone d h.tail
      refine ⟨[c] ++ front, (passes_singleton hc hbacktick).append hfront, ?_⟩
      rw [endsOddly_cons hc]
      simpa using htext

/-- The text `text` is read up to the mark of an interpolation behind it. -/
def Opens (text : List Char) : Prop :=
  ∀ rest, templateText (text ++ '$' :: '\x7b' :: rest) = some (text, .interpolation, rest)

/-- The text `text` is read up to a backtick behind it. -/
def Closes (text : List Char) : Prop :=
  ∀ rest, templateText (text ++ '\x60' :: rest) = some (text, .backtick, rest)

theorem Passes.opens {front text : List Char} (hfront : Passes front) (htext : Opens text) :
    Opens (front ++ text) := by
  intro rest
  rw [List.append_assoc, hfront, htext]
  rfl

theorem Passes.closes {front text : List Char} (hfront : Passes front) (htext : Closes text) :
    Closes (front ++ text) := by
  intro rest
  rw [List.append_assoc, hfront, htext]
  rfl

theorem opens_nil : Opens [] := fun rest => by simp [templateText]

theorem closes_nil : Closes [] := fun rest => by simp [templateText]

theorem closes_dollar : Closes ['$'] := fun rest => by simp [templateText]

/-- **Behind an even number of dollar signs an interpolation opens.** -/
theorem Plain.opens {text : List Char} (h : Plain text) (hodd : endsOddly text = false) :
    Opens text := by
  obtain ⟨front, hfront, htext⟩ := h.exists_passes
  rw [hodd] at htext
  rw [htext]
  exact hfront.opens opens_nil

/-- **Behind an odd number of dollar signs its mark is text.** -/
theorem Plain.passes_mark {text : List Char} (h : Plain text) (hodd : endsOddly text = true) :
    Passes (text ++ ['$', '\x7b']) := by
  obtain ⟨front, hfront, htext⟩ := h.exists_passes
  rw [hodd] at htext
  have hpair : Passes ['$', '$'] := passes_pair (by decide) (by decide)
  have hbrace : Passes ['\x7b'] := passes_singleton (by decide) (by decide)
  have hall := hfront.append (hpair.append hbrace)
  rw [htext]
  simpa using hall

/-- A backtick ends a plain text in any case. -/
theorem Plain.closes {text : List Char} (h : Plain text) : Closes text := by
  obtain ⟨front, hfront, htext⟩ := h.exists_passes
  rw [htext]
  cases endsOddly text with
  | true => exact hfront.closes closes_dollar
  | false => exact hfront.closes closes_nil

/-! ## Templates with interpolated identifiers -/

/-- A text and the identifier that is interpolated behind it. -/
structure Segment where
  text : List Char
  name : String

/-- The interpolated identifier of a segment as it is written. -/
def Segment.interpolation (segment : Segment) : List Char :=
  ['$', '\x7b'] ++ segment.name.toList ++ ['\x7d']

/-- What is written for segments and a last text. -/
def templateBody (segments : List Segment) (last : List Char) : List Char :=
  segments.flatMap (fun segment => segment.text ++ segment.interpolation) ++ last

/-- The source of a template string. -/
def templateSource (segments : List Segment) (last : List Char) : String :=
  String.ofList ('\x60' :: templateBody segments last ++ ['\x60'])

/-- The parts of a template string that is cut at all of its interpolations, if its first text
stands at `pos`. -/
def cutParts (pos : Position) : List Segment → List Char → List Part
  | [], last => [.text (String.ofList last)]
  | segment :: segments, last =>
    .text (String.ofList segment.text) ::
      .expr (.ident (pos.advanceOver (segment.text ++ ['$', '\x7b'])) segment.name) ::
        cutParts (pos.advanceOver (segment.text ++ segment.interpolation)) segments last

theorem length_cutParts (pos : Position) (segments : List Segment) (last : List Char) :
    (cutParts pos segments last).length = 2 * segments.length + 1 := by
  induction segments generalizing pos with
  | nil => rfl
  | cons segment segments ih =>
    rw [cutParts, List.length_cons, List.length_cons, ih, List.length_cons]
    omega

/-- The segments and the last text in which an interpolation behind a text that ends oddly is
part of the text; `front` is the text in front of them. -/
def regrouped (front : List Char) : List Segment → List Char → List Segment × List Char
  | [], last => ([], front ++ last)
  | segment :: segments, last =>
    if endsOddly segment.text then
      regrouped (front ++ segment.text ++ segment.interpolation) segments last
    else
      let behind := regrouped [] segments last
      (⟨front ++ segment.text, segment.name⟩ :: behind.1, behind.2)

/-- Regrouping leaves what is written. -/
theorem templateBody_regrouped (front : List Char) (segments : List Segment) (last : List Char) :
    templateBody (regrouped front segments last).1 (regrouped front segments last).2 =
      front ++ templateBody segments last := by
  induction segments generalizing front with
  | nil => simp [regrouped, templateBody]
  | cons segment segments ih =>
    rw [regrouped]
    by_cases hodd : endsOddly segment.text = true
    · rw [if_pos hodd, ih]
      simp [templateBody]
    · have hbehind := ih []
      rw [if_neg hodd]
      simp only [templateBody, Segment.interpolation, List.flatMap_cons, List.append_assoc,
        List.nil_append] at hbehind ⊢
      rw [hbehind]

theorem length_regrouped (front : List Char) (segments : List Segment) (last : List Char) :
    (regrouped front segments last).1.length =
      segments.countP fun segment => !endsOddly segment.text := by
  induction segments generalizing front with
  | nil => rfl
  | cons segment segments ih =>
    rw [regrouped, List.countP_cons]
    cases hodd : endsOddly segment.text with
    | true => simp [ih]
    | false => simp [ih]

/-- Nothing is regrouped if no text in front of an interpolation ends oddly. -/
theorem regrouped_eq_self {segments : List Segment} {last : List Char}
    (h : ∀ segment ∈ segments, endsOddly segment.text = false) :
    regrouped [] segments last = (segments, last) := by
  induction segments with
  | nil => rfl
  | cons segment segments ih =>
    have hodd := h segment (List.mem_cons_self ..)
    have hbehind := ih fun other hother => h other (List.mem_cons_of_mem _ hother)
    simp [regrouped, hodd, hbehind]

/-- A segment with a plain text and an identifier. -/
structure Segment.WellFormed (segment : Segment) : Prop where
  text : Plain segment.text
  name : isIdentifier segment.name = true

instance (segment : Segment) : Decidable segment.WellFormed :=
  decidable_of_iff (Plain segment.text ∧ isIdentifier segment.name = true)
    ⟨fun h => ⟨h.1, h.2⟩, fun h => ⟨h.text, h.name⟩⟩

/-- **A whole segment is text if its text ends oddly.** -/
theorem Segment.WellFormed.passes {segment : Segment} (h : segment.WellFormed)
    (hodd : endsOddly segment.text = true) : Passes (segment.text ++ segment.interpolation) := by
  have hname : Passes segment.name.toList := by
    refine passes_of_forall_ne fun c hc => ?_
    have hword := isWordChar_of_isIdentifier h.name c hc
    constructor <;> rintro rfl <;> exact absurd hword (by decide)
  have hclose : Passes ['\x7d'] := passes_singleton (by decide) (by decide)
  have hall := (h.text.passes_mark hodd).append (hname.append hclose)
  simpa [interpolation] using hall

/-- Regrouped segments are those at which the text is cut. -/
theorem opens_of_mem_regrouped {front last : List Char} {segments : List Segment}
    (hfront : Passes front) (hsegments : ∀ segment ∈ segments, segment.WellFormed) :
    ∀ segment ∈ (regrouped front segments last).1,
      Opens segment.text ∧ isIdentifier segment.name = true := by
  induction segments generalizing front with
  | nil => intro segment hsegment; cases hsegment
  | cons segment segments ih =>
    have hfine := hsegments segment (List.mem_cons_self ..)
    have hmore : ∀ other ∈ segments, other.WellFormed :=
      fun other hother => hsegments other (List.mem_cons_of_mem _ hother)
    rw [regrouped]
    cases hodd : endsOddly segment.text with
    | true =>
      rw [if_pos rfl, List.append_assoc]
      exact ih (hfront.append (hfine.passes hodd)) hmore
    | false =>
      intro other hother
      rcases List.mem_cons.1 hother with rfl | hother
      · exact ⟨hfront.opens (hfine.text.opens hodd), hfine.name⟩
      · exact ih passes_nil hmore other hother

theorem closes_regrouped {front last : List Char} {segments : List Segment} (hfront : Passes front)
    (hsegments : ∀ segment ∈ segments, segment.WellFormed) (hlast : Plain last) :
    Closes (regrouped front segments last).2 := by
  induction segments generalizing front with
  | nil => exact hfront.closes hlast.closes
  | cons segment segments ih =>
    have hfine := hsegments segment (List.mem_cons_self ..)
    have hmore : ∀ other ∈ segments, other.WellFormed :=
      fun other hother => hsegments other (List.mem_cons_of_mem _ hother)
    rw [regrouped]
    cases hodd : endsOddly segment.text with
    | true =>
      rw [if_pos rfl, List.append_assoc]
      exact ih (hfront.append (hfine.passes hodd)) hmore
    | false => exact ih passes_nil hmore

/-! ## Running the parser -/

namespace Cursor

/-- A token of one character that starts no gap. -/
theorem next_symbol {c : Char} {kind : Kind} {rest : List Char} (hspace : Text.isWhiteSpace c = false)
    (hslash : c ≠ '/') (hlexeme : lexeme c rest = ⟨.ok kind, [c], rest⟩) (pos : Position) :
    next ⟨c :: rest, pos⟩ = (some (.ok ⟨kind, String.ofList [c], pos⟩), ⟨rest, pos.advance c⟩) := by
  have hgap : gap (c :: rest) = .closed [] (c :: rest) :=
    gap_eq_closed hspace fun heq => absurd heq hslash
  unfold next
  simp only [hgap, hlexeme]
  rfl

theorem next_rbrace (rest : List Char) (pos : Position) :
    next ⟨'\x7d' :: rest, pos⟩ = (some (.ok ⟨.rbrace, "\x7d", pos⟩), ⟨rest, pos.advance '\x7d'⟩) :=
  next_symbol (by decide) (by decide) rfl pos

theorem next_lbrace (rest : List Char) (pos : Position) :
    next ⟨'\x7b' :: rest, pos⟩ = (some (.ok ⟨.lbrace, "\x7b", pos⟩), ⟨rest, pos.advance '\x7b'⟩) :=
  next_symbol (by decide) (by decide) rfl pos

theorem next_backtick (rest : List Char) (pos : Position) :
    next ⟨'\x60' :: rest, pos⟩ = (some (.ok ⟨.backtick, "\x60", pos⟩), ⟨rest, pos.advance '\x60'⟩) :=
  next_symbol (by decide) (by decide) rfl pos

/-- An identifier ends in front of a closing brace. -/
theorem next_identifier {name : String} (h : isIdentifier name = true) (rest : List Char)
    (pos : Position) :
    next ⟨name.toList ++ '\x7d' :: rest, pos⟩ =
      (some (.ok ⟨.identifier, name, pos⟩), ⟨'\x7d' :: rest, pos.advanceOver name.toList⟩) := by
  have hwords := isWordChar_of_isIdentifier h
  rw [isIdentifier, Bool.and_eq_true, Option.isNone_iff_eq_none] at h
  obtain ⟨hword, hkeyword⟩ := h
  cases hname : name.toList with
  | nil =>
    rw [hname] at hword
    cases hword
  | cons c cs =>
    rw [hname] at hword hwords
    obtain ⟨hspace, hslash⟩ := isWord_start hword
    have hgap : gap (c :: (cs ++ '\x7d' :: rest)) = .closed [] (c :: (cs ++ '\x7d' :: rest)) :=
      gap_eq_closed hspace fun heq => absurd heq hslash
    have hc : isWordChar c = true := hwords c (List.mem_cons_self ..)
    have htail : ∀ d ∈ cs, isWordChar d = true := fun d hd => hwords d (List.mem_cons_of_mem _ hd)
    have hbrace : isWordChar '\x7d' = false := by decide
    have hdigit : c.isDigit = false := by
      simp only [isWord, Bool.and_eq_true, Bool.not_eq_true'] at hword
      exact hword.1
    have hof : String.ofList (c :: cs) = name := by rw [← hname, String.ofList_toList]
    have hlexeme : lexeme c (cs ++ '\x7d' :: rest) = ⟨.ok .identifier, c :: cs, '\x7d' :: rest⟩ := by
      simp only [lexeme, isQuote_eq_false_of_isWordChar hc, hdigit, hc,
        List.takeWhile_append_of_pos htail, List.dropWhile_append_of_pos htail,
        List.takeWhile_cons, List.dropWhile_cons, hbrace]
      simp [wordKind, hof, hkeyword]
    unfold next
    rw [List.cons_append]
    simp only [hgap, hlexeme]
    simp [itemAt, past, hof]

end Cursor

theorem Stream.ofCursor_of_next {cur cur' : Cursor} {token : Token}
    (h : cur.next = (some (.ok token), cur')) : ofCursor cur = .ok ⟨some token, cur'⟩ := by
  rw [ofCursor, h]

namespace Parser

variable {s : Stream}

theorem run_expectKind {kind : Kind} (h : s.kind? = some kind) : expectKind kind s = .ok ((), s) := by
  obtain ⟨token, hcurrent, rfl⟩ := Option.map_eq_some_iff.1 h
  rw [expectKind, run_get, hcurrent]
  simp only [if_true]
  rfl

theorem run_rescan {s' : Stream} (h : Stream.ofCursor s.cursor = .ok s') :
    rescan s = .ok ((), s') := by
  rw [rescan, h]
  rfl

theorem run_templatePiece {text rest : List Char} {ending : TextEnd} (start : Position)
    (h : templateText s.cursor.rest = some (text, ending, rest)) :
    templatePiece start s =
      .ok ((String.ofList text, ending), { s with cursor := s.cursor.past (text ++ ending.mark) rest }) := by
  rw [templatePiece, run_get, h]
  rfl

/-- An identifier in front of a token that neither is an operator nor makes it a lambda is an
expression. -/
theorem run_exprWith_identifier {token token' : Token} {cur : Cursor} (least : Nat)
    (hcurrent : s.current = some token) (hkind : token.kind = .identifier)
    (hnext : s.cursor.next = (some (.ok token'), cur)) (harrow : token'.kind ≠ .fatArrow)
    (hpower : infixPower token'.kind = none) :
    exprWith windowTest least s = .ok (.ident token.pos token.text, ⟨some token', cur⟩) := by
  have hwindow : s.window 3 = .identifier :: token'.kind :: (cur.peek 2).map Token.kind := by
    simp [Stream.window, Stream.kind?, hcurrent, hkind, Cursor.peek, hnext]
  have hlambda : startsLambda s = false := by
    rw [startsLambda, hwindow]
    split <;> simp_all
  have hadvance : advance s = .ok (token, ⟨some token', cur⟩) := by
    rw [advance, Stream.ofCursor, hnext, hcurrent]
    rfl
  have hprimary : ∀ expr : Nat → Parser Expr,
      primary windowTest expr s = .ok (.ident token.pos token.text, ⟨some token', cur⟩) := by
    intro expr
    rw [primary, run_get, hcurrent]
    simp only [hkind, windowTest, hlambda, reduceCtorEq, if_false, Bool.false_eq_true, unaryOp?, atom]
    rw [run_bind hadvance]
    rfl
  rw [exprWith, run_fix, run_bind (hprimary _), operatorTail, run_fix, run_get]
  simp [Stream.kind?, hpower]
  rfl

/-- One turn of cutting a template string: a text and an interpolated identifier. -/
theorem run_templateParts_cons {text behind : List Char} {name : String} (start : Position)
    (hopens : Opens text) (hname : isIdentifier name = true) {n : Nat} (hn : s.size ≤ n)
    (hrest : s.cursor.rest = text ++ '$' :: '\x7b' :: (name.toList ++ '\x7d' :: behind)) :
    templateParts start (below n (exprWith windowTest 0)) s =
      (do
        let parts ← below s.size (templateParts start (below n (exprWith windowTest 0)))
        return .text (String.ofList text) ::
          .expr (.ident (s.cursor.pos.advanceOver (text ++ ['$', '\x7b'])) name) :: parts : Parser _)
        ⟨some ⟨.rbrace, "\x7d", s.cursor.pos.advanceOver (text ++ ['$', '\x7b'] ++ name.toList)⟩,
          ⟨behind, (s.cursor.pos.advanceOver (text ++ ['$', '\x7b'] ++ name.toList)).advance '\x7d'⟩⟩ := by
  have hpiece := run_templatePiece start (hrest ▸ hopens _)
  set pos := s.cursor.pos.advanceOver (text ++ ['$', '\x7b'])
  rw [Position.advanceOver_append _ _ name.toList]
  set t : Stream := ⟨some ⟨.identifier, name, pos⟩, ⟨'\x7d' :: behind, pos.advanceOver name.toList⟩⟩ with ht
  have hrescan : rescan ⟨s.current, s.cursor.past (text ++ TextEnd.interpolation.mark)
      (name.toList ++ '\x7d' :: behind)⟩ = .ok ((), t) :=
    run_rescan (Stream.ofCursor_of_next (Cursor.next_identifier hname behind pos))
  have hsize : t.size < n := by
    have hle := s.rest_length_le_size
    simp only [hrest, List.length_append, List.length_cons, String.length_toList] at hle
    simp only [ht, Stream.size, Option.elim_some, List.length_cons]
    omega
  have hexpr := (run_below hsize).trans
    (run_exprWith_identifier 0 rfl rfl (Cursor.next_rbrace behind (pos.advanceOver name.toList))
      (by simp) (by rfl))
  rw [templateParts, run_fix, run_bind hpiece]
  dsimp only
  rw [run_bind hrescan, run_bind hexpr, run_bind (run_expectKind rfl)]

/-- **The parts of a template string are cut out one by one**, if every text is read up to what
is behind it. -/
theorem run_templateParts {segments : List Segment} {last rest : List Char} {s' : Stream}
    (start : Position)
    (hsegments : ∀ segment ∈ segments, Opens segment.text ∧ isIdentifier segment.name = true)
    (hlast : Closes last) {n : Nat} (hn : s.size ≤ n)
    (hrest : s.cursor.rest = templateBody segments last ++ '\x60' :: rest)
    (hend : Stream.ofCursor (s.cursor.past (templateBody segments last ++ ['\x60']) rest) = .ok s') :
    templateParts start (below n (exprWith windowTest 0)) s =
      .ok (cutParts s.cursor.pos segments last, s') := by
  induction segments generalizing s with
  | nil =>
    have hpiece := run_templatePiece start (hrest ▸ hlast rest)
    have hrescan : rescan { s with cursor := s.cursor.past (last ++ TextEnd.backtick.mark) rest } =
        .ok ((), s') := run_rescan hend
    rw [templateParts, run_fix, run_bind hpiece]
    dsimp only
    rw [run_bind hrescan]
    rfl
  | cons segment segments ih =>
    obtain ⟨hopens, hname⟩ := hsegments segment (List.mem_cons_self ..)
    set behind := templateBody segments last ++ '\x60' :: rest with hbehind
    have hsplit : s.cursor.rest =
        segment.text ++ '$' :: '\x7b' :: (segment.name.toList ++ '\x7d' :: behind) := by
      rw [hrest, hbehind]
      simp [templateBody, Segment.interpolation]
    set brace := s.cursor.pos.advanceOver (segment.text ++ ['$', '\x7b'] ++ segment.name.toList) with hbrace
    set t : Stream := ⟨some ⟨.rbrace, "\x7d", brace⟩, ⟨behind, brace.advance '\x7d'⟩⟩ with ht
    have hsize : t.size < s.size := by
      have hle := s.rest_length_le_size
      have hsmall : t.size = "\x7d".length + behind.length := Stream.size_of_current (congrArg _ ht)
      have hone : "\x7d".length = 1 := rfl
      simp only [hsplit, List.length_append, List.length_cons] at hle
      omega
    have hbody : t.cursor.past (templateBody segments last ++ ['\x60']) rest =
        s.cursor.past (templateBody (segment :: segments) last ++ ['\x60']) rest := by
      simp [ht, hbrace, Cursor.past, templateBody, Segment.interpolation]
    have hagain := ih (s := t) (fun other hother => hsegments other (List.mem_cons_of_mem _ hother))
      (by omega) rfl (hbody ▸ hend)
    rw [run_templateParts_cons start hopens hname hn hsplit, run_bind ((run_below hsize).trans hagain)]
    simp [cutParts, ht, hbrace, Segment.interpolation]
    rfl

/-- A template string with nothing behind it is an expression. -/
theorem run_exprWith_template {segments : List Segment} {last : List Char} {pos : Position}
    (hsegments : ∀ segment ∈ segments, Opens segment.text ∧ isIdentifier segment.name = true)
    (hlast : Closes last) (hcurrent : s.current = some ⟨.backtick, "\x60", pos⟩)
    (hrest : s.cursor.rest = templateBody segments last ++ ['\x60']) :
    ∃ s', exprWith windowTest 0 s = .ok (.template pos (cutParts s.cursor.pos segments last), s') ∧
      s'.current = none := by
  set cur := s.cursor.past (templateBody segments last ++ ['\x60']) [] with hcur
  have hend : Stream.ofCursor cur = .ok ⟨none, cur⟩ := by
    simp [Stream.ofCursor, Cursor.next, hcur, Cursor.past, gap]
  have hparts := run_templateParts (n := s.size) pos hsegments hlast (Nat.le_refl _) hrest hend
  refine ⟨⟨none, cur⟩, ?_, rfl⟩
  have hprimary : primary windowTest (fun least => below s.size (exprWith windowTest least)) s =
      .ok (.template pos (cutParts s.cursor.pos segments last), ⟨none, cur⟩) := by
    rw [primary, run_get, hcurrent]
    simp only [if_true]
    rw [run_bind hparts]
    rfl
  rw [exprWith, run_fix]
  rw [exprWith] at hprimary
  rw [run_bind hprimary, operatorTail, run_fix, run_get]
  rfl

end Parser

/-- A template string is parsed into the parts that regrouping leaves. -/
theorem parseExpr_templateSource {segments : List Segment} {last : List Char}
    (hsegments : ∀ segment ∈ segments, segment.WellFormed) (hlast : Plain last) :
    parseExpr (templateSource segments last) =
      .ok (.template Position.start (cutParts (Position.start.advance '\x60')
        (regrouped [] segments last).1 (regrouped [] segments last).2)) := by
  set groups := regrouped [] segments last with hgroups
  have hbody : templateBody groups.1 groups.2 = templateBody segments last :=
    templateBody_regrouped [] segments last
  set cur : Cursor := ⟨templateBody segments last ++ ['\x60'], Position.start.advance '\x60'⟩ with hcur
  have hstart : Stream.ofString (templateSource segments last) =
      .ok ⟨some ⟨.backtick, "\x60", Position.start⟩, cur⟩ := by
    rw [Stream.ofString, Cursor.ofString, templateSource, String.toList_ofList, List.cons_append]
    exact Stream.ofCursor_of_next (Cursor.next_backtick _ _)
  obtain ⟨s', hrun, hnone⟩ := Parser.run_exprWith_template
    (s := ⟨some ⟨.backtick, "\x60", Position.start⟩, cur⟩)
    (opens_of_mem_regrouped passes_nil hsegments) (closes_regrouped passes_nil hsegments hlast) rfl
    (congrArg (· ++ ['\x60']) hbody.symm)
  rw [parseExpr, hstart]
  change (Parser.wholeExpr Parser.windowTest _ >>= _) = _
  rw [Parser.wholeExpr, Parser.run_bind hrun, Parser.run_get, hnone]
  rfl

/-- **A template string is cut at all of its interpolations unless a text in front of one ends
in an odd number of dollar signs.**  In any case it is parsed, and it is cut where the
interpolation stands behind an even number of dollar signs; what is written for the other ones
is text. -/
theorem parseExpr_templateSource_iff {segments : List Segment} {last : List Char}
    (hsegments : ∀ segment ∈ segments, segment.WellFormed) (hlast : Plain last) :
    parseExpr (templateSource segments last) =
      .ok (.template Position.start (cutParts (Position.start.advance '\x60')
        (regrouped [] segments last).1 (regrouped [] segments last).2)) ∧
    (parseExpr (templateSource segments last) =
        .ok (.template Position.start (cutParts (Position.start.advance '\x60') segments last)) ↔
      ∀ segment ∈ segments, endsOddly segment.text = false) := by
  have hparse := parseExpr_templateSource hsegments hlast
  refine ⟨hparse, ?_, ?_⟩
  · intro hcut
    -- a swallowed interpolation is missing among the parts
    have hparts := hparse.symm.trans hcut
    injection hparts with hparts
    injection hparts with _ hparts
    have hlength := congrArg List.length hparts
    rw [length_cutParts, length_cutParts, length_regrouped] at hlength
    have hcount : segments.countP (fun segment => !endsOddly segment.text) = segments.length := by
      omega
    intro segment hsegment
    simpa using List.countP_eq_length.1 hcount segment hsegment
  · intro heven
    rw [hparse, regrouped_eq_self heven]

/-- Two interpolations, behind two dollar signs and behind one. -/
def dollarSegments : List Segment := [⟨"a$$".toList, "x"⟩, ⟨"$ b$".toList, "y"⟩]

theorem parseExpr_dollarSegments :
    (∀ segment ∈ dollarSegments, segment.WellFormed) ∧ Plain "$".toList ∧
    parseExpr "\x60a$$$\x7bx\x7d$ b$$\x7by\x7d$\x60" =
      .ok (.template ⟨1, 1⟩ [.text "a$$", .expr (.ident ⟨1, 7⟩ "x"), .text "$ b$$\x7by\x7d$"]) ∧
    ¬ ∀ segment ∈ dollarSegments, endsOddly segment.text = false := by
  have hsegments : ∀ segment ∈ dollarSegments, segment.WellFormed := by decide
  have hlast : Plain "$".toList := by decide
  refine ⟨hsegments, hlast, ?_, by decide⟩
  exact (parseExpr_templateSource_iff hsegments hlast).1

/-- Behind one dollar sign an interpolation is not seen. -/
theorem parseExpr_swallows_interpolation :
    ∃ segments : List Segment, (∀ segment ∈ segments, segment.WellFormed) ∧
      templateSource segments [] = "\x60$$\x7bx\x7d\x60" ∧
      parseExpr (templateSource segments []) = .ok (.template ⟨1, 1⟩ [.text "$$\x7bx\x7d"]) ∧
      cutParts ⟨1, 2⟩ segments [] = [.text "$", .expr (.ident ⟨1, 5⟩ "x"), .text ""] := by
  refine ⟨[⟨['$'], "x"⟩], by decide, rfl, ?_, rfl⟩
  exact parseExpr_templateSource (by decide) (by decide)

end TypeForge
