import TypeForge.Proofs.Parser.Linearisation
import TypeForge.Proofs.Parser.Mirror.Syntax
import TypeForge.Proofs.Token.Extension
import TypeForge.Proofs.Token.Tiling

/-!
# Programs below each other

A program with another one below it is one program: its items are those of the first and those
of the second, which are only found further down.  The first text is mirrored by its copy in
front of the second, and the second one by its copy further down.

Template strings are left out of the first text.  Looking ahead reads the text of a template
string as tokens, and how far a quote in it reaches depends on what stands below.
-/

namespace TypeForge

/-! ## The second text -/

section

variable {n : Nat} {cur : Cursor} {s : Stream}

/-- The same item further down. -/
def Item.relocated (f : Position → Position) : Item → Item
  | .ok token => .ok (token.relocated f)
  | .error e => .error ⟨f e.pos, e.value⟩

theorem Cursor.past_lowered (cs rest : List Char) :
    (cur.relocated (Position.lowered n)).past cs rest =
      (cur.past cs rest).relocated (Position.lowered n) := by
  simp only [past, relocated, Position.lowered_advanceOver]

/-- Reading does not depend on where the text stands. -/
theorem Cursor.next_lowered (cur : Cursor) :
    (cur.relocated (Position.lowered n)).next =
      (cur.next.1.map (Item.relocated (Position.lowered n)),
        cur.next.2.relocated (Position.lowered n)) := by
  unfold next
  have hrest : (cur.relocated (Position.lowered n)).rest = cur.rest := rfl
  rw [hrest]
  split
  · simp only [past_lowered]
    rfl
  · simp only [past_lowered]
    rfl
  · next skipped c rest _ =>
    simp only [past_lowered, itemAt]
    cases (lexeme c rest).outcome <;> rfl

theorem Stream.ofCursor_lowered (h : ofCursor cur = .ok s) :
    ofCursor (cur.relocated (Position.lowered n)) = .ok (s.relocated (Position.lowered n)) := by
  unfold ofCursor at h ⊢
  rw [Cursor.next_lowered]
  rcases hnext : cur.next with ⟨_ | ⟨_ | token⟩, cur'⟩ <;> rw [hnext] at h <;> cases h <;> rfl

theorem Cursor.peek_lowered (cur : Cursor) (m : Nat) :
    (cur.relocated (Position.lowered n)).peek m =
      (cur.peek m).map (Token.relocated (Position.lowered n)) := by
  induction m generalizing cur with
  | zero => rfl
  | succ m ih =>
    rw [peek, peek, next_lowered]
    rcases cur.next with ⟨_ | ⟨_ | token⟩, cur'⟩
    · rfl
    · rfl
    · simp only [Option.map_some, Item.relocated, ih, List.map_cons]

theorem Stream.size_relocated (f : Position → Position) (s : Stream) :
    (s.relocated f).size = s.size := by
  rcases s with ⟨_ | token, cur⟩ <;> rfl

/-- A stream mirrors itself further down. -/
theorem mirroring_lowered (n : Nat) :
    Mirroring (Position.lowered n) fun s t => t = s.relocated (Position.lowered n) where
  current := by
    rintro s _ token rfl hs
    simp [Stream.relocated, hs]
  ended := by
    rintro s _ rfl hs kind hkind
    simp [Stream.kind?, Stream.relocated, hs] at hkind
  next := by
    rintro s _ s' token rfl _ hnext
    exact ⟨_, Stream.ofCursor_lowered hnext, rfl⟩
  peek := by
    rintro s _ token m rfl _
    refine ⟨[], ?_, itemAhead_nil⟩
    simp only [Stream.relocated, Cursor.peek_lowered, List.map_map, List.append_nil]
    rfl
  size := by
    rintro s _ s' _ rfl rfl hlt
    rwa [Stream.size_relocated, Stream.size_relocated]

end

namespace Parser

variable {n : Nat}

/-- A piece of template text is the same further down. -/
theorem mimics_templatePiece (start start' : Position) :
    Mimics (fun s t => t = s.relocated (Position.lowered n)) id (templatePiece start)
      (templatePiece start') := by
  rintro s _ rfl piece s' hrun -
  rw [templatePiece, run_get] at hrun ⊢
  have hrest : (s.relocated (Position.lowered n)).cursor.rest = s.cursor.rest := rfl
  rw [hrest]
  cases hcut : templateText s.cursor.rest with
  | none =>
    rw [hcut] at hrun
    cases hrun
  | some cut =>
    rw [hcut] at hrun
    cases hrun
    refine ⟨_, rfl, ?_⟩
    simp only [Stream.relocated, Cursor.past_lowered]

theorem mimics_rescan :
    Mimics (fun s t => t = s.relocated (Position.lowered n)) id rescan rescan := by
  rintro s _ rfl a s' hrun -
  unfold rescan at hrun ⊢
  cases hcursor : Stream.ofCursor s.cursor with
  | error e =>
    rw [hcursor] at hrun
    cases hrun
  | ok s₁ =>
    rw [hcursor] at hrun
    cases hrun
    refine ⟨_, ?_, rfl⟩
    change (Stream.ofCursor (s.cursor.relocated (Position.lowered n)) >>= _) = _
    rw [Stream.ofCursor_lowered hcursor]
    rfl

theorem mimicsTemplates_lowered :
    MimicsTemplates (Position.lowered n) fun s t => t = s.relocated (Position.lowered n) := by
  intro p q hp s t token hrel _ _
  refine mimicsTo_loop (mirroring_lowered n) (fun again again' hagain => ?_) hrel
  refine (mimics_templatePiece _ _).bind fun piece => mimics_rescan.bind fun _ => ?_
  rcases piece with ⟨text, _ | _⟩
  · exact mimicsTo_pure rfl
  · refine hp.bind fun e => (mimics_expectKind (mirroring_lowered n) .rbrace).bind fun _ => ?_
    exact hagain.map fun _ => rfl

/-- **A text gives the same items further down.** -/
theorem exists_run_topLevels_lowered {s s' : Stream} {items : List TopLevel}
    (h : topLevels (exprWith windowTest 0) s = .ok (items, s')) (n : Nat) :
    ∃ t', topLevels (exprWith windowTest 0) (s.relocated (Position.lowered n)) =
      .ok (items.map (TopLevel.relocated (Position.lowered n)), t') := by
  have hmirror := mirroring_lowered n
  have hended : ∀ s t : Stream, t = s.relocated (Position.lowered n) → s.current = none →
      ∃ t', topLevels (exprWith windowTest 0) t = .ok ([], t') := by
    rintro s _ rfl hs
    have hnone : (s.relocated (Position.lowered n)).current = none := by simp [Stream.relocated, hs]
    refine ⟨s.relocated (Position.lowered n), ?_⟩
    rw [topLevels, run_fix, run_get, hnone]
    rfl
  obtain ⟨t', ht'⟩ := exists_run_topLevels hmirror
    (mimics_exprWith hmirror mimicsTemplates_lowered 0) (needy_exprWith 0) hended rfl items s' h
  exact ⟨t', by rw [ht', List.append_nil]⟩

end Parser

/-! ## How a program starts -/

namespace Stream

variable {s s' : Stream} {token : Token} {m : Nat}

theorem window_ofCursor {cur : Cursor} (h : ofCursor cur = .ok s) (n : Nat) :
    (cur.peek (n + 1)).map Token.kind = s.window n := by
  unfold ofCursor at h
  rw [Cursor.peek]
  rcases hnext : cur.next with ⟨_ | ⟨_ | token⟩, cur'⟩ <;> rw [hnext] at h <;> cases h
  · have hrest := Cursor.rest_of_next_none hnext
    have hend : cur'.next = (none, cur'.past [] []) := by simp [Cursor.next, hrest, gap]
    cases n with
    | zero => rfl
    | succ n => simp [window, kind?, Cursor.peek, hend]
  · rfl

theorem window_of_advance (h : Parser.advance s = .ok (token, s')) (n : Nat) :
    s.window (n + 1) = token.kind :: s'.window n := by
  rw [← window_ofCursor (Parser.ofCursor_of_advance h), window, kind?, Parser.current_of_advance h]
  rfl

/-- There is no `in` among the first `m` tokens. -/
def Clears (m : Nat) (s : Stream) : Prop := ∀ n, .inKw ∉ (s.window n).take m

theorem clears_of_advance (h : Parser.advance s = .ok (token, s')) (hkind : token.kind ≠ .inKw)
    (hclears : Clears m s') : Clears (m + 1) s := by
  intro n
  cases n with
  | zero =>
    have hwindow : s.window 0 = [token.kind] := by
      simp [window, kind?, Parser.current_of_advance h, Cursor.peek]
    simp [hwindow, hkind.symm]
  | succ n =>
    rw [window_of_advance h, List.take_succ_cons, List.mem_cons]
    rintro (heq | hmem)
    · exact hkind heq.symm
    · exact hclears n hmem

theorem Clears.of_succ (h : Clears (m + 1) s) : Clears m s := by
  intro n hmem
  exact h n ((List.take_prefix_take_left (Nat.le_succ m)).subset hmem)

end Stream

namespace Parser

variable {α β : Type} {m : Nat}

/-- Where the parser succeeds there is no `in` among the first `m` tokens. -/
def Heads (m : Nat) (p : Parser α) : Prop := ∀ s r, p s = .ok r → Stream.Clears m s

theorem heads_zero (p : Parser α) : Heads 0 p := by
  intro s r _ n
  simp

theorem Heads.bind {p : Parser α} (hp : Heads m p) (k : α → Parser β) : Heads m (p >>= k) := by
  intro s r hrun
  obtain ⟨a, s₁, hrun₁, -⟩ := run_bind_eq_ok hrun
  exact hp s _ hrun₁

theorem heads_get {k : Stream → Parser α} (hk : ∀ s, Heads m (k s)) : Heads m (get >>= k) :=
  fun s r => hk s s r

theorem heads_consume_bind {kind : Kind} (hkind : kind ≠ .inKw) {k : Token → Parser α}
    (hk : ∀ token, Heads m (k token)) : Heads (m + 1) (consume kind >>= k) := by
  intro s r hrun
  obtain ⟨token, s₁, hrun₁, hrun₂⟩ := run_bind_eq_ok hrun
  obtain ⟨hat, hadvance⟩ := run_consume_eq_ok hrun₁
  rw [Stream.kind?, current_of_advance hadvance, Option.map_some, Option.some.injEq] at hat
  exact Stream.clears_of_advance hadvance (hat ▸ hkind) (hk token s₁ r hrun₂)

theorem heads_name_bind {k : String → Parser α} (hk : ∀ name, Heads m (k name)) :
    Heads (m + 1) (name >>= k) := by
  rw [name, bind_assoc]
  refine heads_consume_bind (by decide) fun token => ?_
  rw [pure_bind]
  exact hk token.text

/-- A token that may be there does not harm. -/
theorem heads_take_bind {kind : Kind} (hkind : kind ≠ .inKw) {k : Bool → Parser α}
    (hk : ∀ found, Heads m (k found)) : Heads m (take kind >>= k) := by
  intro s r hrun
  obtain ⟨found, s₁, hrun₁, hrun₂⟩ := run_bind_eq_ok hrun
  have hclears := hk found s₁ r hrun₂
  rw [take, run_get] at hrun₁
  cases hat : s.at? kind with
  | false =>
    rw [hat] at hrun₁
    cases hrun₁
    exact hclears
  | true =>
    rw [hat] at hrun₁
    obtain ⟨token, s₂, hadvance, hrun₃⟩ := run_bind_eq_ok hrun₁
    cases hrun₃
    obtain ⟨token', hcurrent, hkind'⟩ := current_of_at? hat
    rw [current_of_advance hadvance, Option.some.injEq] at hcurrent
    subst hcurrent
    exact (Stream.clears_of_advance hadvance (hkind' ▸ hkind) hclears).of_succ

theorem heads_definition (expr : Parser Expr) : Heads 3 (definition expr) := by
  refine heads_get fun start => heads_take_bind (by decide) fun isExported => ?_
  refine heads_consume_bind (by decide) fun _ => heads_name_bind fun name => heads_get fun s => ?_
  have hparams : Heads 1 (paramList expr) := heads_consume_bind (by decide) fun _ => heads_zero _
  have hbody : Heads 1 (do
      let _ ← consume .assign
      let body ← expr
      let _ ← take .semicolon
      return (⟨start.pos, isExported, name, [], body⟩ : Definition)) :=
    heads_consume_bind (by decide) fun _ => heads_zero _
  cases s.at? .lparen with
  | true => exact hparams.bind _
  | false => exact hbody

theorem heads_sectionOf (expr : Parser Expr) : Heads 3 (sectionOf expr) := by
  refine heads_get fun s => heads_consume_bind (by decide) fun _ => ?_
  exact heads_consume_bind (by decide) fun _ => heads_name_bind fun _ => heads_zero _

theorem heads_importOf : Heads 3 importOf := by
  refine heads_get fun s => heads_consume_bind (by decide) fun _ => ?_
  have hsymbols : Heads 1 (separated .comma name) := heads_name_bind fun _ => heads_zero _
  exact heads_consume_bind (by decide) fun _ => hsymbols.bind _

/-- The three tokens that an item starts with are known, up to a few choices. -/
theorem heads_topLevel (token : Token) (expr : Parser Expr) : Heads 3 (topLevel token expr) := by
  unfold topLevel
  cases token.kind with
  | typeKw | exportKw => exact (heads_definition expr).bind _
  | hash => exact (heads_sectionOf expr).bind _
  | importKw => exact heads_importOf.bind _
  | _ =>
    intro s r hrun
    cases hrun

theorem startsItem_of_topLevel {token : Token} {expr : Parser Expr} {s : Stream}
    {r : TopLevel × Stream} (h : topLevel token expr s = .ok r) : token.kind.startsItem = true := by
  unfold topLevel at h
  cases hkind : token.kind <;> rw [hkind] at h <;> first | rfl | cases h

/-- A program starts with an item. -/
theorem itemAhead_of_topLevels {expr : Parser Expr} {s s' : Stream} {items : List TopLevel}
    (h : topLevels expr s = .ok (items, s')) (hne : items ≠ []) (n : Nat) :
    ItemAhead (s.window n) := by
  rw [topLevels, run_fix, run_get] at h
  cases hs : s.current with
  | none =>
    rw [hs] at h
    cases h
    exact absurd rfl hne
  | some token =>
    rw [hs] at h
    obtain ⟨item, s₁, hitem, -⟩ := run_bind_eq_ok h
    constructor
    · intro kind hkind
      simp [Stream.window, Stream.kind?, hs] at hkind
      exact hkind ▸ startsItem_of_topLevel hitem
    · exact heads_topLevel token expr s _ hitem n

end Parser

/-! ## The first text -/

/-- A stream over a text, and the stream over the same text with `more` below it.  Where the
first one ends, the second one is at the stream `behind` of the text below. -/
inductive Stream.Above (more : List Char) (behind : Stream) : Stream → Stream → Prop
  | inside {token : Token} {cur : Cursor} (plain : cur.Plain) (kind_ne : token.kind ≠ .backtick)
      (behind_eq : Stream.ofCursor (cur.beneath more) = .ok behind) :
      Above more behind ⟨some token, cur⟩ ⟨some token, cur.extended more⟩
  | ended {cur : Cursor} (rest_eq : cur.rest = []) : Above more behind ⟨none, cur⟩ behind

section

variable {more : List Char} {behind : Stream}

theorem Stream.size_ofCursor_le {cur : Cursor} {s : Stream} (h : ofCursor cur = .ok s) :
    s.size ≤ cur.rest.length := by
  unfold ofCursor at h
  rcases hnext : cur.next with ⟨_ | ⟨_ | token⟩, cur'⟩ <;> rw [hnext] at h <;> cases h
  · simp [size, Cursor.rest_of_next_none hnext]
  · exact (Cursor.length_next_token hnext).2

/-- The step from a cursor in the first text. -/
theorem Stream.above_ofCursor {cur : Cursor} {s : Stream} (hplain : cur.Plain)
    (hbehind : ofCursor (cur.beneath more) = .ok behind) (h : ofCursor cur = .ok s) :
    ∃ t, ofCursor (cur.extended more) = .ok t ∧ Above more behind s t := by
  unfold ofCursor at h
  rcases hnext : cur.next with ⟨_ | ⟨_ | token⟩, cur'⟩ <;> rw [hnext] at h <;> cases h
  · refine ⟨behind, ?_, .ended (Cursor.rest_of_next_none hnext)⟩
    rw [← hbehind, ofCursor, ofCursor, Cursor.next_extended_of_none hnext]
  · obtain ⟨⟨token', htoken, hkind⟩, hplain'⟩ := hplain.next hnext
    cases htoken
    have hnext' : (cur.extended more).next = (some (.ok token), cur'.extended more) ∧
        cur'.beneath more = cur.beneath more := Cursor.next_extended hnext
    refine ⟨_, ?_, .inside hplain' hkind (hnext'.2 ▸ hbehind)⟩
    rw [ofCursor, hnext'.1]

theorem mirroring_above (hahead : ∀ n, ItemAhead (behind.window n)) :
    Mirroring id (Stream.Above more behind) where
  current := by
    rintro _ _ token (⟨_, _, _⟩ | _) hs <;> cases hs
    rfl
  ended := by
    rintro _ _ (⟨_, _, _⟩ | _) hs kind hkind
    · cases hs
    · exact (hahead 0).starts kind (by simpa [Stream.window, Cursor.peek] using hkind)
  next := by
    rintro _ _ s' token (⟨hplain, _, hbehind⟩ | _) hs hnext
    · exact Stream.above_ofCursor hplain hbehind hnext
    · cases hs
  peek := by
    rintro _ _ token n (⟨hplain, _, hbehind⟩ | _) hs
    · refine ⟨_, by rw [Cursor.peek_extended hplain, List.map_append], ?_⟩
      cases n - (Cursor.peek _ n).length with
      | zero => exact itemAhead_nil
      | succ n =>
        rw [Stream.window_ofCursor hbehind]
        exact hahead n
    · cases hs
  size := by
    rintro _ _ _ _ (⟨_, _, hbehind⟩ | hrest) (⟨_, _, _⟩ | hrest') hlt
    · simp only [Stream.size, Option.elim_some, Cursor.extended, List.length_append] at hlt ⊢
      omega
    · have hle := Stream.size_ofCursor_le hbehind
      simp only [Stream.size, Option.elim_some, Cursor.extended, Cursor.beneath, List.length_append,
        List.length_cons] at hle ⊢
      omega
    · simp [Stream.size, hrest] at hlt
    · simp [Stream.size, hrest] at hlt

end

namespace Parser

/-- No template string is in the first text. -/
theorem mimicsTemplates_above {more : List Char} {behind : Stream} :
    MimicsTemplates id (Stream.Above more behind) := by
  rintro p q _ _ _ token (⟨_, hkind, _⟩ | _) hs htick
  · cases hs
    exact absurd htick hkind
  · cases hs

/-- **A text gives its items in front of those of the text below it.** -/
theorem exists_run_topLevels_above {more : List Char} {behind behind' s s' t : Stream}
    {items tail : List TopLevel}
    (hbehind : topLevels (exprWith windowTest 0) behind = .ok (tail, behind')) (hne : tail ≠ [])
    (habove : Stream.Above more behind s t)
    (h : topLevels (exprWith windowTest 0) s = .ok (items, s')) :
    ∃ t', topLevels (exprWith windowTest 0) t = .ok (items ++ tail, t') := by
  have hmirror : Mirroring id (Stream.Above more behind) :=
    mirroring_above (itemAhead_of_topLevels hbehind hne)
  have hended : ∀ s t, Stream.Above more behind s t → s.current = none →
      ∃ t', topLevels (exprWith windowTest 0) t = .ok (tail, t') := by
    rintro _ _ (_ | _) hs
    · cases hs
    · exact ⟨behind', hbehind⟩
  obtain ⟨t', ht'⟩ := exists_run_topLevels hmirror
    (mimics_exprWith hmirror mimicsTemplates_above 0) (needy_exprWith 0) hended habove items s' h
  have hsame : items.map (TopLevel.relocated id) = items := by
    rw [List.map_congr_left fun item _ => TopLevel.relocated_id item, List.map_id']
  exact ⟨t', by rw [ht', hsame]⟩

end Parser

/-! ## Programs -/

theorem run_of_parseProgram {source : String} {program : Program}
    (h : parseProgram source = .ok program) :
    program.body ≠ [] ∧ ∃ s s', Stream.ofString source = .ok s ∧
      Parser.topLevels (Parser.exprWith Parser.windowTest 0) s = .ok (program.body, s') := by
  obtain ⟨s, s', hstream, hrun⟩ := Parser.run_of_parse h
  obtain ⟨items, s₁, hitems, hrest⟩ := Parser.run_bind_eq_ok hrun
  cases items with
  | nil => cases hrest
  | cons item items =>
    cases hrest
    exact ⟨List.cons_ne_nil _ _, s, s', hstream, hitems⟩

theorem parseProgram_of_run {source : String} {s s' : Stream} {items : List TopLevel}
    (hstream : Stream.ofString source = .ok s) (hne : items ≠ [])
    (hrun : Parser.topLevels (Parser.exprWith Parser.windowTest 0) s = .ok (items, s')) :
    parseProgram source = .ok ⟨items⟩ := by
  have hprogram : Parser.program Parser.windowTest s = .ok (⟨items⟩, s') := by
    refine (Parser.run_bind hrun _).trans ?_
    cases items with
    | nil => exact absurd rfl hne
    | cons item items => rfl
  refine (Parser.parse_of_ofString _ hstream).trans ?_
  rw [hprogram]
  rfl

/-- The characters of a token are characters of the text. -/
theorem Cursor.mem_rest_of_mem_items {cur : Cursor} {token : Token} {c : Char}
    (h : .ok token ∈ cur.items.1) (hc : c ∈ token.text.toList) : c ∈ cur.rest := by
  fun_induction items cur with
  | case1 cur cur' hnext => cases h
  | case2 cur item cur' hnext ih =>
    obtain ⟨gap, text, hstep⟩ := step_of_next hnext
    rw [hstep.rest_eq]
    rcases List.mem_cons.1 h with heq | hmem
    · subst heq
      have htext : text = token.text.toList := by
        cases hstep.covers
        rfl
      simp [htext, hc]
    · simp [ih hmem]

/-- A text that parses and has no backtick is made of tokens that open no template string. -/
theorem plain_of_parseProgram {source : String} {program : Program}
    (h : parseProgram source = .ok program) (htick : '\x60' ∉ source.toList) :
    (Cursor.ofString source).Plain := by
  obtain ⟨-, s, s', hstream, hrun⟩ := run_of_parseProgram h
  obtain ⟨hitems, hended⟩ := Stream.items_ofCursor hstream
  have hkind : ∀ token : Token, .ok token ∈ (Cursor.ofString source).items.1 →
      token.kind ≠ .backtick := by
    intro token hmem hkind
    have hgenuine := Cursor.genuine_of_mem_items hmem
    have htext := hgenuine "\x60" (by rw [hkind]; decide)
    exact htick (Cursor.mem_rest_of_mem_items hmem (by rw [htext]; decide))
  have hclean : s.Clean :=
    ⟨hended, fun t ht => Cursor.genuine_of_mem_items (hitems ▸ ht), fun t ht => hkind t (hitems ▸ ht)⟩
  obtain ⟨hclean', tokens, htokens, -⟩ :=
    Parser.keeps_topLevels (Parser.keeps_exprWith Parser.windowTest 0) s hclean program.body s' hrun
  have hall : (Cursor.ofString source).items.1 = tokens.map .ok := by
    rw [← hitems, htokens, hclean'.ended (Parser.ended_topLevels hrun), List.append_nil]
  intro item hitem
  obtain ⟨token, -, rfl⟩ := List.mem_map.1 (hall ▸ hitem)
  exact ⟨token, rfl, hkind token hitem⟩

/-- **A program with another one below it is both of them in turn**: if two texts parse and the
first has no backtick, then the first text, a line feed and the second text parse, and give the
items of the first and those of the second, moved down by the lines of the first. -/
theorem parseProgram_append {source₁ source₂ : String} {program₁ program₂ : Program}
    (h₁ : parseProgram source₁ = .ok program₁) (h₂ : parseProgram source₂ = .ok program₂)
    (htick : '\x60' ∉ source₁.toList) :
    parseProgram (source₁ ++ "\n" ++ source₂) = .ok ⟨program₁.body ++ program₂.body.map
      (TopLevel.relocated (Position.lowered (1 + source₁.toList.count '\n')))⟩ := by
  obtain ⟨hne₁, s₁, s₁', hstream₁, hrun₁⟩ := run_of_parseProgram h₁
  obtain ⟨hne₂, s₂, s₂', hstream₂, hrun₂⟩ := run_of_parseProgram h₂
  -- the second text stands that many lines down
  have hbeneath : (Cursor.ofString source₁).beneath source₂.toList =
      (Cursor.ofString source₂).relocated (Position.lowered (1 + source₁.toList.count '\n')) := by
    have hline := Position.line_advanceOver Position.start source₁.toList
    simp only [Cursor.beneath, Cursor.ofString, Cursor.relocated, Position.advance, if_true, hline,
      Position.lowered, Cursor.mk.injEq, Position.mk.injEq, true_and]
    exact ⟨by omega, rfl⟩
  have hbehind : Stream.ofCursor ((Cursor.ofString source₁).beneath source₂.toList) = .ok _ :=
    hbeneath ▸ Stream.ofCursor_lowered hstream₂
  obtain ⟨t', hrun₂'⟩ := Parser.exists_run_topLevels_lowered hrun₂ (1 + source₁.toList.count '\n')
  -- the first text is read in front of it
  obtain ⟨t, hstream, habove⟩ :=
    Stream.above_ofCursor (plain_of_parseProgram h₁ htick) hbehind hstream₁
  obtain ⟨t₁, hrun⟩ :=
    Parser.exists_run_topLevels_above hrun₂' (by simpa using hne₂) habove hrun₁
  have hjoined : Stream.ofString (source₁ ++ "\n" ++ source₂) = .ok t := by
    rw [← hstream, Stream.ofString, Cursor.ofString, Cursor.extended, Cursor.ofString]
    simp
  exact parseProgram_of_run hjoined (by simp [hne₁]) hrun

/-- A function over two lines, with no semicolon and a comment behind it. -/
def upperSource : String := "type f(a) =\n  \x7b k: a \x7d // no more"

/-- A section with a template string, and a definition. -/
def lowerSource : String := "#[s] :\x7b let x = \x60n$\x7bf(2)\x7d\x60 \x7d\ntype y = s"

theorem parseProgram_upper_append_lower :
    ∃ program₁ program₂, parseProgram upperSource = .ok program₁ ∧
      parseProgram lowerSource = .ok program₂ ∧ '\x60' ∉ upperSource.toList ∧
      parseProgram (upperSource ++ "\n" ++ lowerSource) = .ok ⟨program₁.body ++ program₂.body.map
        (TopLevel.relocated (Position.lowered (1 + upperSource.toList.count '\n')))⟩ ∧
      1 + upperSource.toList.count '\n' = 2 := by
  have hparses₁ : (parseProgram upperSource).toOption.isSome = true := by decide +kernel
  have hparses₂ : (parseProgram lowerSource).toOption.isSome = true := by decide +kernel
  have htick : '\x60' ∉ upperSource.toList := by decide +kernel
  cases h₁ : parseProgram upperSource with
  | error e =>
    rw [h₁] at hparses₁
    cases hparses₁
  | ok program₁ =>
    cases h₂ : parseProgram lowerSource with
    | error e =>
      rw [h₂] at hparses₂
      cases hparses₂
    | ok program₂ =>
      exact ⟨program₁, program₂, rfl, rfl, htick, parseProgram_append h₁ h₂ htick, by decide +kernel⟩

end TypeForge
