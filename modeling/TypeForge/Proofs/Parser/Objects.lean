import TypeForge.Proofs.Parser.Tracks.Syntax

/-!
# Which objects are parsed

The text from a brace on is an object literal by the grammar if it is made of properties with
commas or semicolons between them and possibly one behind the last.  The parser reads it as that
object unless it takes the brace of this object, or of an object inside of it, for the brace of a
mapped type; then it rejects the text.  It is misled only by what it should not look at: by `in`
in the text of a template string that opens among the first three tokens behind the brace, and by
`in` among the three tokens behind an empty object.
-/

namespace TypeForge

/-! ## The grammar of objects -/

/-- By the grammar, the expression `e` stands in the text from `s` up to `s'`. -/
def ExprAt (s : Stream) (e : Expr) (s' : Stream) : Prop :=
  Parser.exprBy opensMapped 0 s = .ok (e, s')

/-- A token of the given kind stands between `s` and `s'`. -/
structure TokenAt (kind : Kind) (s : Stream) (token : Token) (s' : Stream) : Prop where
  kind : s.kind? = some kind
  run : Parser.advance s = .ok (token, s')

/-- A question mark, or nothing. -/
inductive OptionalAt : Stream → Bool → Stream → Prop where
  | present {s s' : Stream} {token : Token} (mark : TokenAt .question s token s') : OptionalAt s true s'
  | absent (s : Stream) : OptionalAt s false s

/-- A name or an expression in brackets, a question mark or not, a colon and a value. -/
inductive PropertyAt : Stream → Property → Stream → Prop where
  | named {s s₁ s₂ s₃ s' : Stream} {name colon : Token} {optional : Bool} {value : Expr}
      (hname : TokenAt .identifier s name s₁) (hoptional : OptionalAt s₁ optional s₂)
      (hcolon : TokenAt .colon s₂ colon s₃) (hvalue : ExprAt s₃ value s') :
      PropertyAt s (.named s.pos name.text optional value) s'
  | computed {s s₁ s₂ s₃ s₄ s₅ s' : Stream} {lbracket rbracket colon : Token} {key value : Expr}
      {optional : Bool} (hlbracket : TokenAt .lbracket s lbracket s₁) (hkey : ExprAt s₁ key s₂)
      (hrbracket : TokenAt .rbracket s₂ rbracket s₃) (hoptional : OptionalAt s₃ optional s₄)
      (hcolon : TokenAt .colon s₄ colon s₅) (hvalue : ExprAt s₅ value s') :
      PropertyAt s (.computed s.pos key optional value) s'

/-- Properties with separators between them, possibly one behind the last, and a closing brace. -/
inductive PropertiesAt : Stream → List Property → Stream → Prop where
  | close {s s' : Stream} {rbrace : Token} (hrbrace : TokenAt .rbrace s rbrace s') : PropertiesAt s [] s'
  | last {s s₁ s' : Stream} {p : Property} {rbrace : Token} (hproperty : PropertyAt s p s₁)
      (hrbrace : TokenAt .rbrace s₁ rbrace s') : PropertiesAt s [p] s'
  | more {s s₁ s₂ s' : Stream} {p : Property} {ps : List Property} {separator : Token}
      (hproperty : PropertyAt s p s₁)
      (hseparator : TokenAt .comma s₁ separator s₂ ∨ TokenAt .semicolon s₁ separator s₂)
      (hproperties : PropertiesAt s₂ ps s') : PropertiesAt s (p :: ps) s'

/-- An object stands in the text from `s` up to `s'`. -/
def ObjectAt (s : Stream) (ps : List Property) (s' : Stream) : Prop :=
  ∃ lbrace t, TokenAt .lbrace s lbrace t ∧ PropertiesAt t ps s'

/-! ## Reading by the grammar -/

namespace TokenAt

variable {kind : Kind} {s s' : Stream} {token : Token}

theorem kind_eq (h : TokenAt kind s token s') : token.kind = kind := by
  have hkind := h.kind
  rw [Stream.kind?, Parser.current_of_advance h.run, Option.map_some, Option.some.injEq] at hkind
  exact hkind

theorem run_consume (h : TokenAt kind s token s') : Parser.consume kind s = .ok (token, s') := by
  rw [Parser.consume, Parser.run_bind (Parser.run_expectKind h.kind), h.run]

theorem run_take (h : TokenAt kind s token s') : Parser.take kind s = .ok (true, s') := by
  have hat : s.at? kind = true := by rw [Stream.at?, h.kind, beq_self_eq_true]
  rw [Parser.take, Parser.run_get, if_pos hat, Parser.run_bind h.run]
  rfl

theorem run_take_of_ne (h : TokenAt kind s token s') {other : Kind} (hne : kind ≠ other) :
    Parser.take other s = .ok (false, s) := by
  have hat : ¬ s.at? other = true := by simpa [Stream.at?, h.kind] using hne
  rw [Parser.take, Parser.run_get, if_neg hat]
  rfl

theorem ahead_eq (h : TokenAt kind s token s') (n : Nat) : s.ahead (n + 1) = kind :: s'.ahead n := by
  rw [Stream.ahead_of_advance h.run, h.kind_eq]

end TokenAt

namespace Parser

variable {source : List Char} {s s' : Stream}

theorem run_take_of_optionalAt {optional : Bool} {t : Stream} {token : Token} (h : OptionalAt s optional t)
    (hcolon : TokenAt .colon t token s') : take .question s = .ok (optional, t) := by
  cases h with
  | present hmark => exact hmark.run_take
  | absent => exact hcolon.run_take_of_ne (by decide)

/-- A property of the grammar is read. -/
theorem run_property {p : Property} (h : PropertyAt s p s') :
    property (exprBy opensMapped 0) s = .ok (p, s') := by
  cases h with
  | named hname hoptional hcolon hvalue =>
    have hrun : name s = .ok (_, _) := run_bind hname.run_consume _
    rw [property, run_get, run_bind (hname.run_take_of_ne (by decide))]
    simp only [Bool.false_eq_true, if_false]
    rw [run_bind hrun, run_bind (run_take_of_optionalAt hoptional hcolon), run_bind hcolon.run_consume,
      run_bind hvalue]
    rfl
  | computed hlbracket hkey hrbracket hoptional hcolon hvalue =>
    rw [property, run_get, run_bind hlbracket.run_take]
    simp only [if_true]
    rw [run_bind hkey, run_bind hrbracket.run_consume, run_bind (run_take_of_optionalAt hoptional hcolon),
      run_bind hcolon.run_consume, run_bind hvalue]
    rfl

theorem inBraces_of_propertyAt {p : Property} (h : PropertyAt s p s') : s.inBraces = true := by
  cases h with
  | named hname => rw [Stream.inBraces, hname.kind]; rfl
  | computed hlbracket => rw [Stream.inBraces, hlbracket.kind]; rfl

theorem run_takeSeparator {separator : Token}
    (h : TokenAt .comma s separator s' ∨ TokenAt .semicolon s separator s') :
    takeSeparator s = .ok (true, s') := by
  rcases h with hcomma | hsemicolon
  · rw [takeSeparator, run_bind hcomma.run_take]
    rfl
  · rw [takeSeparator, run_bind (hsemicolon.run_take_of_ne (by decide))]
    exact hsemicolon.run_take

/-- What a property takes, and what is ahead of it. -/
theorem stepsAt_property (s : Stream) : StepsAt source 4 3 s (property (exprBy opensMapped 0)) :=
  (tracks_property (tracks_exprBy 0) s).1

/-- Properties of the grammar are read up to the brace behind them. -/
theorem run_properties {ps : List Property} (hs : s.Scanned source) (h : PropertiesAt s ps s') :
    ∃ t rbrace, properties (exprBy opensMapped 0) s = .ok (ps, t) ∧ TokenAt .rbrace t rbrace s' := by
  induction h with
  | @close s s' rbrace hrbrace =>
    have hend : s.inBraces = false := by rw [Stream.inBraces, hrbrace.kind]; rfl
    refine ⟨s, rbrace, ?_, hrbrace⟩
    rw [properties, run_fix, run_get, hend]
    rfl
  | @last s s₁ s' p rbrace hproperty hrbrace =>
    have hnone : takeSeparator s₁ = .ok (false, s₁) := by
      rw [takeSeparator, run_bind (hrbrace.run_take_of_ne (by decide))]
      exact hrbrace.run_take_of_ne (by decide)
    refine ⟨s₁, rbrace, ?_, hrbrace⟩
    rw [properties, run_fix, run_get, if_pos (inBraces_of_propertyAt hproperty),
      run_bind (run_property hproperty), run_bind hnone]
    rfl
  | @more s s₁ s₂ s' p ps separator hproperty hseparator hproperties ih =>
    obtain ⟨hs₁, hsize₁, -⟩ := stepsAt_property s hs (run_property hproperty)
    have hadvance : advance s₁ = .ok (separator, s₂) := hseparator.elim TokenAt.run TokenAt.run
    obtain ⟨hs₂, hsize₂⟩ := scanned_of_advance hs₁ hadvance
    obtain ⟨t, rbrace, hrun, hrbrace⟩ := ih hs₂
    refine ⟨t, rbrace, ?_, hrbrace⟩
    rw [properties, run_fix, run_get, if_pos (inBraces_of_propertyAt hproperty),
      run_bind (run_property hproperty), run_bind (run_takeSeparator hseparator)]
    simp only [if_true]
    rw [properties] at hrun
    rw [run_bind ((run_below (by omega)).trans hrun)]
    rfl

/-- Behind the brace of an object there is no `in` to be seen, unless the object is empty. -/
theorem ahead_of_propertiesAt {ps : List Property} (hs : s.Scanned source) (h : PropertiesAt s ps s') :
    (ps = [] ∧ s.ahead 4 = .rbrace :: s'.ahead 3) ∨ (ps ≠ [] ∧ s.NoPlainIn 4) := by
  have hclear {s s₁ : Stream} {p : Property} (hs : s.Scanned source) (hproperty : PropertyAt s p s₁)
      (hend : s₁.NoPlainIn 1) : s.NoPlainIn 4 := by
    obtain ⟨-, -, hclear⟩ := stepsAt_property s hs (run_property hproperty)
    exact hclear 1 4 hend (Nat.le_refl 4) (Nat.le_refl 4)
  cases h with
  | close hrbrace => exact .inl ⟨rfl, hrbrace.ahead_eq 3⟩
  | last hproperty hrbrace =>
    exact .inr ⟨List.cons_ne_nil _ _, hclear hs hproperty (Stream.noPlainIn_of_kind? hrbrace.kind (by decide))⟩
  | more hproperty hseparator hproperties =>
    refine .inr ⟨List.cons_ne_nil _ _, hclear hs hproperty ?_⟩
    rcases hseparator with hcomma | hsemicolon
    · exact Stream.noPlainIn_of_kind? hcomma.kind (by decide)
    · exact Stream.noPlainIn_of_kind? hsemicolon.kind (by decide)

/-! ## What is read is of the grammar -/

theorem tokenAt_of_consume {kind : Kind} {token : Token} (h : consume kind s = .ok (token, s')) :
    TokenAt kind s token s' := by
  obtain ⟨hkind, hadvance⟩ := run_consume_eq_ok h
  exact ⟨hkind, hadvance⟩

/-- Either there is a token of the kind, or nothing is taken. -/
theorem tokenAt_of_take {kind : Kind} {taken : Bool} (h : take kind s = .ok (taken, s')) :
    (taken = true ∧ ∃ token, TokenAt kind s token s') ∨ (taken = false ∧ s' = s) := by
  rw [take, run_get] at h
  split at h
  · next hat =>
    obtain ⟨token, _, hadvance, hpure⟩ := run_bind_eq_ok h
    cases hpure
    rw [Stream.at?, beq_iff_eq] at hat
    exact .inl ⟨rfl, token, hat, hadvance⟩
  · cases h
    exact .inr ⟨rfl, rfl⟩

theorem optionalAt_of_take {optional : Bool} (h : take .question s = .ok (optional, s')) :
    OptionalAt s optional s' := by
  rcases tokenAt_of_take h with ⟨rfl, token, hmark⟩ | ⟨rfl, rfl⟩
  · exact .present hmark
  · exact .absent s'

theorem propertyAt_of_run {p : Property} (h : property (exprBy opensMapped 0) s = .ok (p, s')) :
    PropertyAt s p s' := by
  rw [property, run_get] at h
  obtain ⟨bracketed, s₁, htake, h⟩ := run_bind_eq_ok h
  rcases tokenAt_of_take htake with ⟨rfl, lbracket, hlbracket⟩ | ⟨rfl, rfl⟩
  · obtain ⟨key, s₂, hkey, h⟩ := run_bind_eq_ok h
    obtain ⟨rbracket, s₃, hrbracket, h⟩ := run_bind_eq_ok h
    obtain ⟨optional, s₄, hoptional, h⟩ := run_bind_eq_ok h
    obtain ⟨colon, s₅, hcolon, h⟩ := run_bind_eq_ok h
    obtain ⟨value, s₆, hvalue, hpure⟩ := run_bind_eq_ok h
    cases hpure
    exact .computed hlbracket hkey (tokenAt_of_consume hrbracket) (optionalAt_of_take hoptional)
      (tokenAt_of_consume hcolon) hvalue
  · obtain ⟨text, s₂, hname, h⟩ := run_bind_eq_ok h
    obtain ⟨token, _, htoken, hpure⟩ := run_bind_eq_ok hname
    cases hpure
    obtain ⟨optional, s₃, hoptional, h⟩ := run_bind_eq_ok h
    obtain ⟨colon, s₄, hcolon, h⟩ := run_bind_eq_ok h
    obtain ⟨value, s₅, hvalue, hpure⟩ := run_bind_eq_ok h
    cases hpure
    exact .named (tokenAt_of_consume htoken) (optionalAt_of_take hoptional) (tokenAt_of_consume hcolon) hvalue

/-- Either there is a separator, or nothing is taken. -/
theorem separatorAt_of_run {taken : Bool} (hrun : takeSeparator s = .ok (taken, s')) :
    (taken = true ∧ ∃ token, TokenAt .comma s token s' ∨ TokenAt .semicolon s token s') ∨
      (taken = false ∧ s' = s) := by
  obtain ⟨comma, s₁, hcomma, hrest⟩ := run_bind_eq_ok hrun
  rcases tokenAt_of_take hcomma with ⟨rfl, token, htoken⟩ | ⟨rfl, rfl⟩
  · cases hrest
    exact .inl ⟨rfl, token, .inl htoken⟩
  · rcases tokenAt_of_take hrest with ⟨rfl, token, htoken⟩ | ⟨rfl, rfl⟩
    · exact .inl ⟨rfl, token, .inr htoken⟩
    · exact .inr ⟨rfl, rfl⟩

/-- What is read up to a closing brace are properties of the grammar. -/
theorem propertiesAt_of_run {ps : List Property} {t : Stream} {rbrace : Token}
    (hrun : properties (exprBy opensMapped 0) s = .ok (ps, t)) (hrbrace : TokenAt .rbrace t rbrace s') :
    PropertiesAt s ps s' := by
  induction hsize : s.size using Nat.strong_induction_on generalizing s ps with
  | _ n ih =>
    rw [properties, run_fix, run_get] at hrun
    split at hrun
    · obtain ⟨p, s₁, hp, hafter⟩ := run_bind_eq_ok hrun
      obtain ⟨separated, s₂, hseparator, hmore⟩ := run_bind_eq_ok hafter
      rcases separatorAt_of_run hseparator with ⟨rfl, separator, htoken⟩ | ⟨rfl, rfl⟩
      · obtain ⟨rest, s₃, hrest, hpure⟩ := run_bind_eq_ok hmore
        cases hpure
        obtain ⟨hlt, hrest⟩ := run_below_eq_ok hrest
        exact .more (propertyAt_of_run hp) htoken (ih _ (hsize ▸ hlt) hrest rfl)
      · cases hmore
        exact .last (propertyAt_of_run hp) hrbrace
    · cases hrun
      exact .close hrbrace

end Parser

/-! ## Objects -/

section

variable {source : List Char} {s s' : Stream} {ps : List Property}

/-- **Where the brace of an object is taken for that of a mapped type.** -/
theorem ObjectAt.startsMapped_iff (hs : s.Scanned source) (h : ObjectAt s ps s') :
    startsMapped s = true ↔ (ps = [] ∧ .inKw ∈ s'.ahead 3) ∨
      ∃ front behind, (s.cursor.peek 4).map Token.kind = front ++ .backtick :: behind ∧ .inKw ∈ behind := by
  obtain ⟨lbrace, t, hlbrace, hproperties⟩ := h
  have hahead := Stream.map_kind_peek_of_ofCursor (Parser.ofCursor_of_advance hlbrace.run) 4
  obtain ⟨ht, -⟩ := Parser.scanned_of_advance hs hlbrace.run
  rw [TypeForge.startsMapped_iff, hahead]
  constructor
  · intro hmem
    rcases Parser.ahead_of_propertiesAt ht hproperties with ⟨hnil, hempty⟩ | ⟨-, hclear⟩
    · rw [hempty, List.mem_cons] at hmem
      exact .inl ⟨hnil, hmem.resolve_left (by decide)⟩
    · obtain ⟨front, behind, heq⟩ := List.append_of_mem hmem
      obtain ⟨outside, inside, rfl⟩ := List.append_of_mem (hclear front behind heq)
      exact .inr ⟨outside, inside ++ .inKw :: behind, by rw [heq, List.append_assoc]; rfl, by simp⟩
  · rintro (⟨hnil, hmem⟩ | ⟨front, behind, heq, hmem⟩)
    · rcases Parser.ahead_of_propertiesAt ht hproperties with ⟨-, hempty⟩ | ⟨hne, -⟩
      · rw [hempty]
        exact List.mem_cons_of_mem _ hmem
      · exact absurd hnil hne
    · rw [heq]
      exact List.mem_append_right _ (List.mem_cons_of_mem _ hmem)

/-- No object starts like a mapped type. -/
theorem ObjectAt.opensMapped_eq (hs : s.Scanned source) (h : ObjectAt s ps s') : opensMapped s = false := by
  obtain ⟨lbrace, t, hlbrace, hproperties⟩ := h
  have hahead := Stream.map_kind_peek_of_ofCursor (Parser.ofCursor_of_advance hlbrace.run)
  obtain ⟨ht, -⟩ := Parser.scanned_of_advance hs hlbrace.run
  rw [opensMapped, beq_eq_false_iff_ne, hahead]
  intro heq
  obtain ⟨more, hmore⟩ := t.ahead_prefix (show 3 ≤ 4 by decide)
  rw [heq] at hmore
  rcases Parser.ahead_of_propertiesAt ht hproperties with ⟨-, hempty⟩ | ⟨-, hclear⟩
  · rw [hempty] at hmore
    cases (List.cons.inj hmore).1
  · exact absurd (hclear [.lbracket, .identifier] more hmore.symm) (by decide)

/-- An object is read by the grammar. -/
theorem ObjectAt.run_bracedBy (hs : s.Scanned source) (h : ObjectAt s ps s') :
    Parser.bracedBy opensMapped s.pos (Parser.exprBy opensMapped 0) s = .ok (.object s.pos ps, s') := by
  have hopens := h.opensMapped_eq hs
  obtain ⟨lbrace, t, hlbrace, hproperties⟩ := h
  obtain ⟨ht, -⟩ := Parser.scanned_of_advance hs hlbrace.run
  obtain ⟨u, rbrace, hrun, hrbrace⟩ := Parser.run_properties ht hproperties
  have hbody : Parser.objectBody s.pos (Parser.exprBy opensMapped 0) t = .ok (.object s.pos ps, u) :=
    Parser.run_bind hrun _
  rw [Parser.bracedBy, Parser.run_get, hopens, Parser.run_bind hlbrace.run_consume]
  simp only [Bool.false_eq_true, if_false]
  rw [Parser.run_bind hbody, Parser.run_bind hrbrace.run_consume]
  rfl

/-- What is read by the grammar at a brace that opens no mapped type is an object. -/
theorem objectAt_of_bracedBy {e : Expr} (hopens : opensMapped s = false)
    (h : Parser.bracedBy opensMapped s.pos (Parser.exprBy opensMapped 0) s = .ok (e, s')) :
    ∃ ps, e = .object s.pos ps ∧ ObjectAt s ps s' := by
  rw [Parser.bracedBy, Parser.run_get, hopens] at h
  obtain ⟨lbrace, t, hlbrace, h⟩ := Parser.run_bind_eq_ok h
  obtain ⟨_, u, hbody, h⟩ := Parser.run_bind_eq_ok h
  obtain ⟨rbrace, _, hrbrace, hpure⟩ := Parser.run_bind_eq_ok h
  cases hpure
  obtain ⟨ps, _, hproperties, hpure⟩ := Parser.run_bind_eq_ok hbody
  cases hpure
  exact ⟨ps, rfl, lbrace, t, Parser.tokenAt_of_consume hlbrace,
    Parser.propertiesAt_of_run hproperties (Parser.tokenAt_of_consume hrbrace)⟩

/-- An object of the grammar by its nodes, which can be computed. -/
theorem objectAt_of_nodes {nodes : List Node} (hopens : opensMapped s = false)
    (h : ((Parser.bracedBy opensMapped s.pos (Parser.exprBy opensMapped 0) s).map fun r => r.1.nodes) = .ok nodes) :
    ∃ ps s', ObjectAt s ps s' ∧ (Expr.object s.pos ps).nodes = nodes := by
  cases hrun : Parser.bracedBy opensMapped s.pos (Parser.exprBy opensMapped 0) s with
  | error error =>
    rw [hrun] at h
    cases h
  | ok r =>
    obtain ⟨ps, hps, hobject⟩ := objectAt_of_bracedBy hopens hrun
    rw [hrun] at h
    exact ⟨ps, r.2, hobject, hps ▸ Except.ok.inj h⟩

end

theorem scanned_braceAt (before rest : List Char) :
    (braceAt before rest).Scanned (before ++ '\x7b' :: rest) :=
  ⟨⟨'\x7b' :: rest, Position.start.advanceOver before⟩, ⟨before, rfl, rfl⟩,
    Stream.ofCursor_of_next (Cursor.next_lbrace _ _)⟩

/-- Looking for `in` and then reading is what the parser does at a brace. -/
theorem braced_eq_bracedBy (pos : Position) :
    Parser.braced pos Parser.expr = Parser.bracedBy startsMapped pos (Parser.exprBy startsMapped 0) := by
  rw [Parser.expr, Parser.exprWith_eq_exprBy]
  rfl

/-- What is parsed as a mapped type starts like one. -/
theorem opensMapped_of_braced {s s' : Stream} {expr : Parser Expr} {pos : Position} {key : String}
    {union value : Expr} {renamed : Option Expr} {optional : Bool}
    (h : Parser.braced s.pos expr s = .ok (.mapped pos key union renamed optional value, s')) :
    opensMapped s = true := by
  rw [Parser.braced, Parser.run_get] at h
  obtain ⟨_, t, hlbrace, h⟩ := Parser.run_bind_eq_ok h
  cases hstarts : startsMapped s with
  | true =>
    rw [hstarts] at h
    obtain ⟨body, u, hbody, -⟩ := Parser.run_bind_eq_ok h
    exact Parser.opensMapped_of_mappedBody hlbrace hbody
  | false =>
    rw [hstarts] at h
    obtain ⟨body, u, hbody, h⟩ := Parser.run_bind_eq_ok h
    obtain ⟨_, _, _, hpure⟩ := Parser.run_bind_eq_ok h
    obtain ⟨ps, _, _, hobject⟩ := Parser.run_bind_eq_ok hbody
    cases hpure
    cases hobject

/-- **An object of the grammar is parsed as that object unless the brace of this object, or of one
in it, misleads, and then it is rejected.**  The brace of an object misleads if `in` is among the
four tokens behind it as the text is scanned, and that is so only if it stands behind a backtick,
in the text of a template string, or among the three tokens behind an empty object.  What is
parsed as a mapped type has a bracket, an identifier and `in` behind its brace. -/
theorem braced_object_iff (before rest : List Char) :
    (∀ ps s', ObjectAt (braceAt before rest) ps s' →
      (Parser.braced (braceAt before rest).pos Parser.expr (braceAt before rest) =
          .ok (.object (braceAt before rest).pos ps, s') ↔
        Upright (before ++ '\x7b' :: rest) (Expr.object (braceAt before rest).pos ps).nodes) ∧
      (¬ Upright (before ++ '\x7b' :: rest) (Expr.object (braceAt before rest).pos ps).nodes →
        ∃ error, Parser.braced (braceAt before rest).pos Parser.expr (braceAt before rest) = .error error) ∧
      (Misleads (before ++ '\x7b' :: rest) (braceAt before rest).pos ↔
        (ps = [] ∧ .inKw ∈ s'.ahead 3) ∨
          ∃ front behind, ((braceAt before rest).cursor.peek 4).map Token.kind =
            front ++ .backtick :: behind ∧ .inKw ∈ behind)) ∧
    ∀ pos key union renamed optional value s',
      Parser.braced (braceAt before rest).pos Parser.expr (braceAt before rest) =
          .ok (.mapped pos key union renamed optional value, s') →
        ((braceAt before rest).cursor.peek 3).map Token.kind = [.lbracket, .identifier, .inKw] := by
  have hs := scanned_braceAt before rest
  constructor
  · intro ps s' hobject
    obtain ⟨verdict, hverdict, hsame, hfails⟩ :=
      (Parser.tracksAt_bracedBy (Parser.tracks_exprBy 0) hs rfl).2 hs (hobject.run_bracedBy hs)
    rw [← braced_eq_bracedBy] at hsame hfails
    refine ⟨⟨fun hrun => ?_, fun hupright => hsame (hverdict.2 hupright)⟩, fun hnot => ?_, ?_⟩
    · by_contra hnot
      exact hfails (fun h => hnot (hverdict.1 h)) _ hrun
    · cases hrun : Parser.braced (braceAt before rest).pos Parser.expr (braceAt before rest) with
      | error error => exact ⟨error, rfl⟩
      | ok r => exact absurd hrun (hfails (fun h => hnot (hverdict.1 h)) r)
    · rw [misleads_iff, hobject.opensMapped_eq hs, ← hobject.startsMapped_iff hs]
      simp
  · intro pos key union renamed optional value s' hrun
    have hopens := opensMapped_of_braced hrun
    rwa [opensMapped, beq_iff_eq] at hopens

/-- An object in an object, behind a definition's name and in front of `in`. -/
def nestedObject : List Char × List Char :=
  ("type t = ".toList, " a?: \x7b b: x \x7d; \x7d in".toList)

theorem braced_nestedObject :
    ∃ ps s', ObjectAt (braceAt nestedObject.1 nestedObject.2) ps s' ∧
      Parser.braced (braceAt nestedObject.1 nestedObject.2).pos Parser.expr
        (braceAt nestedObject.1 nestedObject.2) =
          .ok (.object (braceAt nestedObject.1 nestedObject.2).pos ps, s') := by
  have hrun : ((Parser.bracedBy opensMapped (braceAt nestedObject.1 nestedObject.2).pos
      (Parser.exprBy opensMapped 0) (braceAt nestedObject.1 nestedObject.2)).map fun r => r.1.nodes) =
        .ok [⟨⟨1, 10⟩, .object⟩, ⟨⟨1, 12⟩, .property⟩, ⟨⟨1, 16⟩, .object⟩, ⟨⟨1, 18⟩, .property⟩,
          ⟨⟨1, 21⟩, .ident⟩] := by
    decide +kernel
  obtain ⟨ps, s', hobject, hnodes⟩ := objectAt_of_nodes (by decide +kernel) hrun
  refine ⟨ps, s', hobject, (((braced_object_iff _ _).1 ps s' hobject).1).2 ?_⟩
  have houter : ¬ Misleads (nestedObject.1 ++ '\x7b' :: nestedObject.2) ⟨1, 10⟩ := fun h =>
    absurd (misleads_iff.1 h).1 (by decide +kernel)
  have hinner : ¬ Misleads (nestedObject.1 ++ '\x7b' :: nestedObject.2) ⟨1, 16⟩ := fun h =>
    absurd ((@misleads_iff "type t = \x7b a?: ".toList " b: x \x7d; \x7d in".toList).1 h).1 (by decide +kernel)
  rw [hnodes]
  simp [houter, hinner]

/-- An object whose value is a template string with the text `in`. -/
def quotedIn : List Char := " a: \x60in\x60 \x7d".toList

/-- The object is one of the grammar, and it is not parsed. -/
theorem braced_rejects_quotedIn :
    (∃ ps s', ObjectAt (braceAt [] quotedIn) ps s' ∧ (Expr.object (braceAt [] quotedIn).pos ps).nodes =
      [⟨⟨1, 1⟩, .object⟩, ⟨⟨1, 3⟩, .property⟩, ⟨⟨1, 6⟩, .template⟩]) ∧
    Parser.braced (braceAt [] quotedIn).pos Parser.expr (braceAt [] quotedIn) =
      .error ⟨⟨1, 3⟩, .unexpected .identifier .lbracket⟩ := by
  refine ⟨objectAt_of_nodes (by decide +kernel) (by decide +kernel), ?_⟩
  have hrejected : ((Parser.braced (braceAt [] quotedIn).pos Parser.expr (braceAt [] quotedIn)).map fun _ => ()) =
      .error ⟨⟨1, 3⟩, .unexpected .identifier .lbracket⟩ := by
    decide +kernel
  cases hrun : Parser.braced (braceAt [] quotedIn).pos Parser.expr (braceAt [] quotedIn) with
  | error error =>
    rw [hrun] at hrejected
    cases hrejected
    rfl
  | ok r =>
    rw [hrun] at hrejected
    cases hrejected

end TypeForge
