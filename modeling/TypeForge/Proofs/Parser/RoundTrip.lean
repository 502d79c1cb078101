import TypeForge.Proofs.Parser.Precedence

/-!
# Parsing undoes printing

Top-level items are read back one by one, so the text of a program parses to the program that
was printed, except that nothing stands where it stood.
-/

namespace TypeForge

namespace Parser

variable {n : Nat} {rest : List Word}

theorem accepts_definition {d : Definition} (h : (TopLevel.definition d).isPrintable = true)
    (hrest : isClear rest = true) :
    Accepts n (definition (exprWith windowTest 0)) (TopLevel.definition d).words rest
      fun a => (TopLevel.definition a).unlocated = (TopLevel.definition d).unlocated := by
  simp only [TopLevel.isPrintable, Bool.and_eq_true] at h
  obtain ⟨⟨hname, hparams⟩, hbody⟩ := h
  have hbody' := parses d.body hbody
  have hend : Follows 0 (Kind.semicolon.word :: rest) := follows_cons rfl (by decide) hrest
  have hlast : ∀ s : Stream, ∀ ps, unlocatedParams ps = unlocatedParams d.params → ∀ k,
      Accepts k (do
        let _ ← consume .assign
        let body ← exprWith windowTest 0
        let _ ← take .semicolon
        return (⟨s.pos, d.isExported, d.name, ps, body⟩ : Definition))
        (Kind.assign.word :: (d.body.words ++ [Kind.semicolon.word])) rest
        fun a => (TopLevel.definition a).unlocated = (TopLevel.definition d).unlocated := by
    intro s ps hps k
    refine accepts_consume.cons fun _ _ k₁ hk₁ => ?_
    refine (hbody'.takes.accepts k₁ hk₁ _ hend).bind fun body hbody k₂ hk₂ => ?_
    exact accepts_take.map fun _ _ => by simp [TopLevel.unlocated, hps, hbody]
  refine accepts_get fun s _ => ?_
  refine (accepts_mark rfl).bind fun found hfound k₁ hk₁ => ?_
  subst hfound
  refine accepts_consume.cons fun _ _ k₂ hk₂ => ?_
  refine (accepts_name d.name).cons fun found hfound k₃ hk₃ => ?_
  subst hfound
  refine accepts_get fun s' hshows => ?_
  cases hempty : d.params with
  | nil =>
    have hlparen : s'.at? .lparen = false := by
      rw [hempty] at hshows
      exact at?_eq_startsWith hshows .lparen
    rw [if_neg (by rw [hlparen]; exact Bool.false_ne_true)]
    refine (accepts_return []).silent fun ps hps => ?_
    exact hlast s ps (by rw [hps, hempty]) k₃
  | cons q qs =>
    have hlparen : s'.at? .lparen = true := by
      rw [hempty] at hshows
      exact at?_eq_startsWith hshows .lparen
    rw [if_pos hlparen]
    have hparams' : ∀ q ∈ d.params, Takes k₃ (param (exprWith windowTest 0)) q.words
        fun a => a.unlocated = q.unlocated :=
      fun q hq => (parses_params d.params hparams q hq).takes Parses.takes
    rw [hempty] at hparams'
    have hclear : isClear (Kind.assign.word :: (d.body.words ++ [Kind.semicolon.word] ++ rest)) = true := by
      rw [List.append_assoc]
      exact isClear_cons (by decide) (hbody'.clear hend.clear)
    refine (accepts_paramList (by simp) hparams' hclear).bind fun ps hps k₄ hk₄ => ?_
    exact hlast s ps (by rw [hps, hempty]) k₄

theorem accepts_sectionOf {s : Section} (h : (TopLevel.sectionOf s).isPrintable = true)
    (hrest : isClear rest = true) :
    Accepts n (sectionOf (exprWith windowTest 0)) (TopLevel.sectionOf s).words rest
      fun a => (TopLevel.sectionOf a).unlocated = (TopLevel.sectionOf s).unlocated := by
  simp only [TopLevel.isPrintable, Bool.and_eq_true, Bool.not_eq_true', List.isEmpty_eq_false_iff] at h
  obtain ⟨⟨-, hne⟩, hbody⟩ := h
  refine accepts_get fun start _ => ?_
  refine accepts_consume.cons fun _ _ k₁ hk₁ => accepts_consume.cons fun _ _ k₂ hk₂ => ?_
  refine (accepts_name s.name).cons fun found hfound k₃ hk₃ => ?_
  subst hfound
  refine accepts_consume.cons fun _ _ k₄ hk₄ => ?_
  have hstmts : ∀ t ∈ s.body, TakesStmt k₄ (exprWith windowTest 0) t :=
    fun t ht => (parses_stmts s.body hbody t ht).takes Parses.takes
  exact (accepts_stmtBlock hne hstmts hrest).map fun ss hss => by simp [TopLevel.unlocated, hss]

theorem accepts_importOf {i : Import} (h : (TopLevel.importOf i).isPrintable = true) :
    Accepts n importOf (TopLevel.importOf i).words rest
      fun a => (TopLevel.importOf a).unlocated = (TopLevel.importOf i).unlocated := by
  simp only [TopLevel.isPrintable, Bool.and_eq_true, Bool.not_eq_true', List.isEmpty_eq_false_iff] at h
  obtain ⟨⟨hne, -⟩, -⟩ := h
  refine accepts_get fun start _ => ?_
  refine accepts_consume.cons fun _ _ k₁ hk₁ => accepts_consume.cons fun _ _ k₂ hk₂ => ?_
  have hnames : Accepts k₂ (separated .comma name) (commaWords (i.symbols.map fun name => [nameWord name]))
      (Kind.rbrace.word :: Kind.fromKw.word :: stringWord i.source :: Kind.semicolon.word :: rest)
      fun found => found.map id = i.symbols.map id :=
    accepts_separated (fun _ => True) rfl trivial hne
      (fun name _ _ _ _ _ => accepts_name name) fun _ _ _ _ => trivial
  refine hnames.bind fun symbols hsymbols k₃ hk₃ => ?_
  rw [List.map_id, List.map_id] at hsymbols
  subst hsymbols
  refine accepts_consume.cons fun _ _ k₄ hk₄ => accepts_consume.cons fun _ _ k₅ hk₅ => ?_
  refine (accepts_stringLiteral i.source).cons fun found hfound k₆ hk₆ => ?_
  subst hfound
  exact accepts_take.map fun _ _ => rfl

/-- A top-level item is told by its first word. -/
theorem accepts_topLevel {item : TopLevel} (h : item.isPrintable = true) (hrest : isClear rest = true)
    {t : Token} (ht : item.words.head? = some t.word) :
    Accepts n (topLevel t (exprWith windowTest 0)) item.words rest
      fun a => a.unlocated = item.unlocated := by
  cases item with
  | definition d =>
    have hkind : t.kind = .exportKw ∨ t.kind = .typeKw := by
      cases hexported : d.isExported <;> rw [TopLevel.words, hexported] at ht
      · exact .inr (congrArg Word.kind (Option.some.inj ht).symm)
      · exact .inl (congrArg Word.kind (Option.some.inj ht).symm)
    rcases hkind with hkind | hkind <;> simp only [topLevel, hkind]
    · exact (accepts_definition h hrest).map fun a ha => ha
    · exact (accepts_definition h hrest).map fun a ha => ha
  | sectionOf s =>
    have hkind : t.kind = .hash := congrArg Word.kind (Option.some.inj ht).symm
    simp only [topLevel, hkind]
    exact (accepts_sectionOf h hrest).map fun a ha => ha
  | importOf i =>
    have hkind : t.kind = .importKw := congrArg Word.kind (Option.some.inj ht).symm
    simp only [topLevel, hkind]
    exact (accepts_importOf h).map fun a ha => ha

theorem topLevel_words_ne_nil (item : TopLevel) : item.words ≠ [] := by
  cases item <;> simp [TopLevel.words]

/-- The items of a program, up to the end of the text. -/
theorem accepts_topLevels {items : List TopLevel} (h : ∀ item ∈ items, item.isPrintable = true) :
    Accepts n (topLevels (exprWith windowTest 0)) (items.map TopLevel.words).flatten []
      fun as => as.map TopLevel.unlocated = items.map TopLevel.unlocated := by
  induction items generalizing n with
  | nil =>
    refine accepts_fix fun m _ => accepts_get fun s hshows => ?_
    have hcurrent : s.current = none := hshows
    simp only [hcurrent]
    exact accepts_pure rfl
  | cons item items ih =>
    have hitems : ∀ i ∈ items, i.isPrintable = true := fun i hi => h i (List.mem_cons_of_mem _ hi)
    have hclear : isClear ((items.map TopLevel.words).flatten ++ []) = true :=
      follow_flatten (isClear · = true) rfl fun i hi vs hvs => inherited_isClear.topLevel_words (hitems i hi) vs hvs
    have hitem := h item (List.mem_cons_self ..)
    have hlength := List.length_pos_iff.2 (topLevel_words_ne_nil item)
    refine accepts_fix fun m _ => accepts_get fun s hshows => ?_
    obtain ⟨t, hcurrent, hhead⟩ : ∃ t, s.current = some t ∧ item.words.head? = some t.word := by
      cases hwords : item.words with
      | nil => exact absurd hwords (topLevel_words_ne_nil item)
      | cons w ws =>
        rw [List.map_cons, List.flatten_cons, hwords] at hshows
        obtain ⟨t, hcurrent, rfl, -⟩ := hshows
        exact ⟨t, hcurrent, rfl⟩
    simp only [hcurrent]
    refine (accepts_topLevel hitem hclear hhead).bind fun a ha k hk => ?_
    exact Accepts.map (Accepts.below (ih hitems) (by omega)) fun as has => by simp [ha, has]

theorem accepts_program {program : Program} (h : program.isPrintable = true) :
    Accepts n (Parser.program windowTest) program.words [] fun a => a.unlocated = program.unlocated := by
  simp only [Program.isPrintable, Bool.and_eq_true, Bool.not_eq_true', List.isEmpty_eq_false_iff,
    List.all_eq_true] at h
  rw [← List.append_nil program.words]
  refine Accepts.bind (accepts_topLevels h.2) fun items hitems k _ => ?_
  cases items with
  | nil => exact absurd (List.map_eq_nil_iff.1 hitems.symm) h.1
  | cons item items => exact accepts_pure (by rw [Program.unlocated, Program.unlocated, hitems])

end Parser

/-- **Parsing undoes printing**: the text of a program parses to that program up to positions. -/
theorem parse_text (program : Program) (h : program.isPrintable = true) :
    ∃ parsed, parseProgram program.text = .ok parsed ∧ parsed.unlocated = program.unlocated := by
  have hlegible := inherited_legible.program_words h
  obtain ⟨s, hstream, hshows, -⟩ := Stream.shows_ofCursor (Cursor.shows_intercalate hlegible)
  rw [← List.append_nil program.words] at hshows
  obtain ⟨parsed, s', hrun, -, -, hparsed⟩ := Parser.accepts_program h (Nat.le_refl s.size) hshows
  refine ⟨parsed, ?_, hparsed⟩
  unfold parseProgram
  change (Stream.ofString program.text >>= fun s => Parser.program Parser.windowTest s >>= fun r => pure r.1) = _
  rw [show Stream.ofString program.text = .ok s from hstream]
  change (Parser.program Parser.windowTest s >>= fun r => pure r.1) = _
  rw [hrun]
  rfl

/-- Operands with and without parentheses, lambdas, a mapped type in a computed key, and strings
with either quote. -/
def nestedSyntax : Program :=
  let at0 := Position.start
  let a := Expr.ident at0 "a"
  let b := Expr.ident at0 "b"
  ⟨[.importOf ⟨at0, ["list", "pair"], "say \"hi\""⟩,
    .definition ⟨at0, true, "f", [.mk at0 "a" (some (.numberType at0)), .mk at0 "b" none],
      .binary at0 .mul
        (.binary at0 .sub a (.binary at0 .sub b (.number at0 "1")))
        (.unary at0 .negate (.call at0 (.lambda at0 [.mk at0 "x" none] (.field at0 a "y")) [b]))⟩,
    .sectionOf ⟨at0, "tests",
      [.letDecl at0 "o" (.object at0
        [.computed at0 (.mapped at0 "k" a (some b) true (.index at0 a b)) false (.string at0 "it's")]),
       .assertEqual at0 (.assignment at0 a (.assignment at0 b (.tuple at0 [])))
        (.matching at0 a [.mk at0 (.infer at0 "t" (some (.stringType at0)))
          (.logical at0 .and (.conditional at0 a b a) (.lambda at0 [] b))])]⟩]⟩

theorem parse_nestedSyntax :
    nestedSyntax.isPrintable = true ∧
      nestedSyntax.text =
        "import \x7b list , pair \x7d from 'say \"hi\"' ; " ++
        "export type f ( a : number , b ) = ( a - ( b - 1 ) ) * - ( x => a . y ) ( b ) ; " ++
        "# [ tests ] : \x7b let o = \x7b [ \x7b [ k in a as b ] ? : a [ b ] \x7d ] : \"it's\" \x7d ; " ++
        "AssertEqual ( a = b = [ ] , match a \x7b infer t extends string -> " ++
        "( if a then b else a ) && ( ( ) => b ) \x7d ) ; \x7d" ∧
      ∃ parsed, parseProgram nestedSyntax.text = .ok parsed ∧
        parsed.unlocated = nestedSyntax.unlocated :=
  ⟨by decide, by decide +kernel, parse_text nestedSyntax (by decide)⟩

end TypeForge
