import TypeForge.Proofs.Parser.Coincide
import TypeForge.Proofs.Parser.Concatenation
import TypeForge.Proofs.Parser.Objects

/-!
# A window is enough to tell lambdas

A lambda is told by the tokens up to the third one behind the current token.  The other way to
tell it is to parse its head, however long that is, and to see whether an arrow stands behind it.
Wherever a head can be parsed the window tells a lambda too.  The window tells more lambdas: it is
content with `(a:` and with `(a,`.  If no head can be parsed there, neither the lambda nor the
parenthesised expression can be, so both tests lead to the same results.
-/

namespace TypeForge

namespace Parser

variable {α : Type} {expr expr' : Parser Expr} {s s' : Stream}

/-! ## Parsing the head of a lambda -/

/-- Whether a parser succeeds on a stream, from which nothing is taken. -/
def succeeds (p : Parser α) (s : Stream) : Bool := (p s).toOption.isSome

/-- A bare parameter in front of an arrow. -/
def bareHead : Parser Unit := do
  let _ ← consume .identifier
  expectKind .fatArrow

/-- No parameters, in front of an arrow. -/
def emptyHead : Parser Unit := do
  let _ ← consume .lparen
  let _ ← consume .rparen
  expectKind .fatArrow

/-- Parameters between parentheses in front of an arrow. -/
def listHead (expr : Parser Expr) : Parser Unit := do
  let _ ← paramList expr
  expectKind .fatArrow

/-- The test that parses the whole head of a lambda. -/
def headTest : LambdaTest := fun expr s =>
  succeeds bareHead s || succeeds emptyHead s || succeeds (listHead expr) s

theorem succeeds_iff {p : Parser α} : succeeds p s = true ↔ ∃ a t, p s = .ok (a, t) := by
  unfold succeeds
  cases p s with
  | error e => simp [Except.toOption]
  | ok r => simp [Except.toOption, Prod.ext_iff]

theorem headTest_iff : headTest expr s = true ↔
    succeeds bareHead s = true ∨ succeeds emptyHead s = true ∨ succeeds (listHead expr) s = true := by
  rw [headTest, Bool.or_eq_true, Bool.or_eq_true, or_assoc]

/-- The test depends on the results of the parser for expressions only. -/
theorem headTest_eq_of_coincide (hexpr : Coincide expr expr') (hneedy : Needy expr) (s : Stream) :
    headTest expr s = headTest expr' s := by
  have hlist : Coincide (listHead expr) (listHead expr') :=
    (coincide_paramList (fun _ => hexpr) fun _ => hneedy).before _
  rw [headTest, headTest, succeeds, succeeds, succeeds, hlist s]
  rfl

/-! ## The window tells a lambda wherever a head can be parsed -/

theorem window_of_tokenAt {kind : Kind} {token : Token} (h : TokenAt kind s token s') (n : Nat) :
    s.window (n + 1) = kind :: s'.window n := by
  rw [Stream.window_of_advance h.run, h.kind_eq]

theorem prefix_window {kind : Kind} (h : s.kind? = some kind) (n : Nat) : [kind] <+: s.window n := by
  rw [Stream.window, h]
  exact List.prefix_append _ _

theorem at?_eq_true_iff {kind : Kind} : s.at? kind = true ↔ s.kind? = some kind := by
  rw [Stream.at?, beq_iff_eq]

theorem run_take_of_not_at? {kind : Kind} (h : ¬ s.at? kind = true) : take kind s = .ok (false, s) := by
  rw [take, run_get, if_neg h]
  rfl

/-- Behind the first name of a list of parameters there is a bound, another parameter or the end of
the list. -/
theorem tokens_of_paramList {params : List Param} (h : paramList expr s = .ok (params, s')) :
    ∃ lparen s₁ name s₂, TokenAt .lparen s lparen s₁ ∧ TokenAt .identifier s₁ name s₂ ∧
      (s₂.kind? = some .colon ∨ s₂.kind? = some .comma ∨ ∃ rparen, TokenAt .rparen s₂ rparen s') := by
  obtain ⟨lparen, s₁, hlparen, hrest⟩ := run_bind_eq_ok h
  obtain ⟨params, s₃, hparams, hclose⟩ := run_bind_eq_ok hrest
  obtain ⟨rparen, s₄, hrparen, hend⟩ := run_bind_eq_ok hclose
  cases hend
  obtain ⟨first, t, hfirst, hmore⟩ := run_bind_eq_ok hparams
  rw [param, run_get] at hfirst
  obtain ⟨text, s₂, hname, hbound⟩ := run_bind_eq_ok hfirst
  obtain ⟨name, s₂', hidentifier, htext⟩ := run_bind_eq_ok hname
  cases htext
  refine ⟨lparen, s₁, name, s₂, tokenAt_of_consume hlparen, tokenAt_of_consume hidentifier, ?_⟩
  by_cases hcolon : s₂.at? .colon = true
  · exact .inl (at?_eq_true_iff.1 hcolon)
  · rw [takeThen, bind_assoc, run_bind (run_take_of_not_at? hcolon)] at hbound
    cases hbound
    by_cases hcomma : t.at? .comma = true
    · exact .inr (.inl (at?_eq_true_iff.1 hcomma))
    · obtain ⟨rest, t', hnone, hparams'⟩ := run_bind_eq_ok hmore
      cases hparams'
      rw [moreSeparated, run_fix, run_bind (run_take_of_not_at? hcomma)] at hnone
      cases hnone
      exact .inr (.inr ⟨rparen, tokenAt_of_consume hrparen⟩)

theorem startsLambda_of_bareHead (h : succeeds bareHead s = true) : startsLambda s = true := by
  obtain ⟨_, t, hrun⟩ := succeeds_iff.1 h
  obtain ⟨name, s₁, hname, harrow⟩ := run_bind_eq_ok hrun
  refine startsLambda_iff.2 ⟨[.identifier, .fatArrow], by decide, ?_⟩
  rw [window_of_tokenAt (tokenAt_of_consume hname)]
  exact List.cons_prefix_cons.2 ⟨rfl, prefix_window (run_expectKind_eq_ok harrow).1 2⟩

theorem startsLambda_of_emptyHead (h : succeeds emptyHead s = true) : startsLambda s = true := by
  obtain ⟨_, t, hrun⟩ := succeeds_iff.1 h
  obtain ⟨lparen, s₁, hlparen, hrest⟩ := run_bind_eq_ok hrun
  obtain ⟨rparen, s₂, hrparen, harrow⟩ := run_bind_eq_ok hrest
  refine startsLambda_iff.2 ⟨[.lparen, .rparen, .fatArrow], by decide, ?_⟩
  rw [window_of_tokenAt (tokenAt_of_consume hlparen), window_of_tokenAt (tokenAt_of_consume hrparen),
    List.cons_prefix_cons, List.cons_prefix_cons]
  exact ⟨rfl, rfl, prefix_window (run_expectKind_eq_ok harrow).1 1⟩

theorem startsLambda_of_listHead (h : succeeds (listHead expr) s = true) : startsLambda s = true := by
  obtain ⟨_, t, hrun⟩ := succeeds_iff.1 h
  obtain ⟨params, s₃, hparams, harrow⟩ := run_bind_eq_ok hrun
  obtain ⟨lparen, s₁, name, s₂, hlparen, hname, hbehind⟩ := tokens_of_paramList hparams
  have hwindow : s.window 3 = .lparen :: .identifier :: s₂.window 1 := by
    rw [window_of_tokenAt hlparen, window_of_tokenAt hname]
  rcases hbehind with hcolon | hcomma | ⟨rparen, hrparen⟩
  · refine startsLambda_iff.2 ⟨[.lparen, .identifier, .colon], by decide, ?_⟩
    rw [hwindow, List.cons_prefix_cons, List.cons_prefix_cons]
    exact ⟨rfl, rfl, prefix_window hcolon 1⟩
  · refine startsLambda_iff.2 ⟨[.lparen, .identifier, .comma], by decide, ?_⟩
    rw [hwindow, List.cons_prefix_cons, List.cons_prefix_cons]
    exact ⟨rfl, rfl, prefix_window hcomma 1⟩
  · refine startsLambda_iff.2 ⟨[.lparen, .identifier, .rparen, .fatArrow], by decide, ?_⟩
    rw [hwindow, window_of_tokenAt hrparen]
    simp only [List.cons_prefix_cons, true_and]
    exact prefix_window (run_expectKind_eq_ok harrow).1 0

theorem startsLambda_of_headTest (h : headTest expr s = true) : startsLambda s = true := by
  rcases headTest_iff.1 h with hbare | hempty | hlist
  · exact startsLambda_of_bareHead hbare
  · exact startsLambda_of_emptyHead hempty
  · exact startsLambda_of_listHead hlist

/-! ## Where the window tells more -/

/-- Of two tokens in the window the first can be taken, and the second comes next. -/
theorem tokenAt_of_window {token : Token} {kind next : Kind} {kinds : List Kind} {n : Nat}
    (hcurrent : s.current = some token) (h : kind :: next :: kinds <+: s.window (n + 1)) :
    ∃ token' cur, TokenAt kind s token ⟨some token', cur⟩ ∧ token'.kind = next ∧
      s.cursor.next = (some (.ok token'), cur) ∧
      next :: kinds <+: (⟨some token', cur⟩ : Stream).window n := by
  have hwindow : s.window (n + 1) = token.kind :: (s.cursor.peek (n + 1)).map Token.kind := by
    simp [Stream.window, Stream.kind?, hcurrent]
  rw [hwindow, List.cons_prefix_cons] at h
  obtain ⟨rfl, hpeek⟩ := h
  rw [Cursor.peek] at hpeek
  split at hpeek
  · next token' cur hnext =>
    have hcursor := Stream.ofCursor_of_next hnext
    refine ⟨token', cur, ⟨by rw [Stream.kind?, hcurrent]; rfl, ?_⟩, ?_, hnext, ?_⟩
    · rw [advance, hcursor, hcurrent]
      rfl
    · rw [List.map_cons, List.cons_prefix_cons] at hpeek
      exact hpeek.1.symm
    · simpa [Stream.window, Stream.kind?] using hpeek
  · simp at hpeek

theorem run_expectKind_current {token : Token} {kind : Kind} {cur : Cursor} (h : token.kind = kind) :
    expectKind kind ⟨some token, cur⟩ = .ok ((), ⟨some token, cur⟩) :=
  run_expectKind (congrArg some h)

/-- A name behind a parenthesis, in front of a colon or a comma. -/
structure OpensParam (s s₁ : Stream) (name next : Token) (cur : Cursor) : Prop where
  opens : ∃ lparen, TokenAt .lparen s lparen s₁
  current : s₁.current = some name
  isName : name.kind = .identifier
  behind : s₁.cursor.next = (some (.ok next), cur)
  goesOn : next.kind = .colon ∨ next.kind = .comma

theorem run_name_of_tokenAt {name : Token} (h : TokenAt .identifier s name s') :
    Parser.name s = .ok (name.text, s') := by
  rw [Parser.name, run_bind h.run_consume]
  rfl

/-- A list of one parameter without a bound is parsed. -/
theorem run_paramList_one {s₁ s₂ s₃ : Stream} {lparen name rparen : Token}
    (hlparen : TokenAt .lparen s lparen s₁) (hname : TokenAt .identifier s₁ name s₂)
    (hrparen : TokenAt .rparen s₂ rparen s₃) (expr : Parser Expr) :
    paramList expr s = .ok ([.mk s₁.pos name.text none], s₃) := by
  have hparam : param expr s₁ = .ok (.mk s₁.pos name.text none, s₂) := by
    rw [param, run_get, run_bind (run_name_of_tokenAt hname), takeThen, bind_assoc,
      run_bind (hrparen.run_take_of_ne (by decide))]
    rfl
  have hmore : moreSeparated .comma (param expr) s₂ = .ok ([], s₂) := by
    rw [moreSeparated, run_fix, run_bind (hrparen.run_take_of_ne (by decide))]
    rfl
  have hparams : separated .comma (param expr) s₁ = .ok ([.mk s₁.pos name.text none], s₂) := by
    rw [separated, run_bind hparam, run_bind hmore]
    rfl
  rw [paramList, run_bind hlparen.run_consume, run_bind hparams, run_bind hrparen.run_consume]
  rfl

/-- Where the window tells a lambda but no head can be parsed, there is `(a:` or `(a,`. -/
theorem opensParam_of_startsLambda {token : Token} (hcurrent : s.current = some token)
    (hwindow : startsLambda s = true) (hhead : ¬ headTest expr s = true) :
    ∃ s₁ name next cur, OpensParam s s₁ name next cur := by
  rw [headTest_iff, succeeds_iff, succeeds_iff, succeeds_iff] at hhead
  obtain ⟨head, hmem, hpre⟩ := startsLambda_iff.1 hwindow
  simp only [lambdaHeads, List.mem_cons, List.not_mem_nil, or_false] at hmem
  rcases hmem with rfl | rfl | rfl | rfl | rfl
  · obtain ⟨arrow, cur, hname, harrow, -, -⟩ := tokenAt_of_window hcurrent hpre
    refine absurd (.inl ⟨(), ⟨some arrow, cur⟩, ?_⟩) hhead
    rw [bareHead, run_bind hname.run_consume, run_expectKind_current harrow]
  · obtain ⟨rparen, cur, hlparen, -, -, hpre'⟩ := tokenAt_of_window hcurrent hpre
    obtain ⟨arrow, cur', hrparen, harrow, -, -⟩ := tokenAt_of_window rfl hpre'
    refine absurd (.inr (.inl ⟨(), ⟨some arrow, cur'⟩, ?_⟩)) hhead
    rw [emptyHead, run_bind hlparen.run_consume, run_bind hrparen.run_consume,
      run_expectKind_current harrow]
  · obtain ⟨name, cur, hlparen, -, -, hpre'⟩ := tokenAt_of_window hcurrent hpre
    obtain ⟨rparen, cur', hname, -, -, hpre''⟩ := tokenAt_of_window rfl hpre'
    obtain ⟨arrow, cur'', hrparen, harrow, -, -⟩ := tokenAt_of_window rfl hpre''
    refine absurd (.inr (.inr ⟨(), ⟨some arrow, cur''⟩, ?_⟩)) hhead
    rw [listHead, run_bind (run_paramList_one hlparen hname hrparen expr),
      run_expectKind_current harrow]
  · obtain ⟨name, cur, hlparen, hname, -, hpre'⟩ := tokenAt_of_window hcurrent hpre
    obtain ⟨colon, cur', -, hcolon, hnext, -⟩ := tokenAt_of_window rfl hpre'
    exact ⟨_, name, colon, cur', ⟨token, hlparen⟩, rfl, hname, hnext, .inl hcolon⟩
  · obtain ⟨name, cur, hlparen, hname, -, hpre'⟩ := tokenAt_of_window hcurrent hpre
    obtain ⟨comma, cur', -, hcomma, hnext, -⟩ := tokenAt_of_window rfl hpre'
    exact ⟨_, name, comma, cur', ⟨token, hlparen⟩, rfl, hname, hnext, .inr hcomma⟩

theorem toOption_eq_none {p : Parser α} (h : ∀ a t, p s ≠ .ok (a, t)) : (p s).toOption = none := by
  cases hrun : p s with
  | error e => rfl
  | ok r => exact absurd hrun (h r.1 r.2)

theorem eq_ok_of_toOption {p : Parser α} {r : α × Stream} (h : (p s).toOption = some r) :
    p s = .ok r := by
  cases hrun : p s with
  | error e =>
    rw [hrun] at h
    cases h
  | ok r' =>
    rw [hrun] at h
    cases h
    rfl

namespace OpensParam

variable {s₁ : Stream} {token name next : Token} {cur : Cursor}

/-- There no parenthesised expression can be parsed: the name is an expression, and no
parenthesis closes behind it. -/
theorem atom_fails (h : OpensParam s s₁ name next cur) {n : Nat}
    (hexpr : Coincide (below n (exprWith windowTest 0)) expr) (hcurrent : s.current = some token) :
    (atom token expr s).toOption = none := by
  obtain ⟨lparen, hlparen⟩ := h.opens
  have hkind : token.kind = .lparen := by
    simpa [Stream.kind?, hcurrent] using hlparen.kind
  have hstop : next.kind ≠ .fatArrow ∧ infixPower next.kind = none ∧ next.kind ≠ .rparen := by
    rcases h.goesOn with hcolon | hcomma
    · rw [hcolon]
      decide
    · rw [hcomma]
      decide
  refine toOption_eq_none fun e t hrun => ?_
  rw [atom] at hrun
  simp only [hkind] at hrun
  rw [run_bind hlparen.run] at hrun
  obtain ⟨inner, s₂, hinner, hclose⟩ := run_bind_eq_ok hrun
  obtain ⟨rparen, s₃, hrparen, -⟩ := run_bind_eq_ok hclose
  have hsame : (below n (exprWith windowTest 0) s₁).toOption = some (inner, s₂) := by
    rw [hexpr s₁, hinner]
    rfl
  have hident : exprWith windowTest 0 s₁ = .ok (inner, s₂) :=
    (run_below_eq_ok (eq_ok_of_toOption hsame)).2
  rw [run_exprWith_identifier 0 h.current h.isName h.behind hstop.1 hstop.2.1] at hident
  cases hident
  exact hstop.2.2 (Option.some.inj (run_consume_eq_ok hrparen).1)

/-- There no lambda can be parsed either, unless its head can be. -/
theorem lambda_fails (h : OpensParam s s₁ name next cur) (hhead : ¬ headTest expr s = true)
    (pos : Position) : (lambda pos expr s).toOption = none := by
  obtain ⟨lparen, hlparen⟩ := h.opens
  have hat : (!s.at? .lparen) = false := by
    rw [at?_eq_true_iff.2 hlparen.kind]
    rfl
  have hnotEmpty : ¬ ((s.cursor.peek 1).any fun token => token.kind == .rparen) = true := by
    rw [any_peek_one_iff, Stream.window_ofCursor (ofCursor_of_advance hlparen.run), Stream.window,
      Stream.kind?, h.current]
    simp [h.isName]
  refine toOption_eq_none fun e t hrun => hhead ?_
  rw [lambda, run_get] at hrun
  simp only [hat, Bool.false_eq_true, if_false, if_neg hnotEmpty] at hrun
  obtain ⟨params, s₂, hparams, hbody⟩ := run_bind_eq_ok hrun
  obtain ⟨arrow, s₃, harrow, -⟩ := run_bind_eq_ok hbody
  refine headTest_iff.2 (.inr (.inr (succeeds_iff.2 ⟨(), s₂, ?_⟩)))
  rw [listHead, run_bind hparams, run_expectKind (run_consume_eq_ok harrow).1]

end OpensParam

/-! ## The tests lead to the same results -/

theorem coincide_primary {n : Nat} {expr : Nat → Parser Expr}
    (hexpr : ∀ least, Coincide (below n (exprWith windowTest least)) (expr least)) :
    Coincide (primary windowTest fun least => below n (exprWith windowTest least))
      (primary headTest expr) := by
  have hneedy (least : Nat) : Needy (below n (exprWith windowTest least)) := (needy_exprWith least).below
  intro s
  rw [primary, primary, run_get, run_get]
  cases hcurrent : s.current with
  | none => rfl
  | some token =>
    by_cases hbacktick : token.kind = .backtick
    · simp only [hbacktick, if_true]
      exact (coincide_templateParts (hexpr 0) token.pos).before _ s
    · simp only [hbacktick, if_false]
      by_cases hwindow : windowTest (below n (exprWith windowTest 0)) s = true
      · rw [if_pos hwindow]
        by_cases hhead : headTest (expr 0) s = true
        · rw [if_pos hhead]
          exact coincide_lambda hexpr hneedy token.pos s
        · -- where the tests differ, both ways fail
          rw [if_neg hhead]
          obtain ⟨s₁, name, next, cur, hopens⟩ := opensParam_of_startsLambda hcurrent hwindow hhead
          obtain ⟨lparen, hlparen⟩ := hopens.opens
          have hunary : unaryOp? token.kind = none := by
            have hkind : token.kind = .lparen := by simpa [Stream.kind?, hcurrent] using hlparen.kind
            rw [hkind]
            rfl
          rw [← headTest_eq_of_coincide (hexpr 0) (hneedy 0)] at hhead
          simp only [hunary]
          rw [hopens.lambda_fails hhead, hopens.atom_fails (hexpr 0) hcurrent]
      · have hhead : ¬ headTest (expr 0) s = true := fun h => hwindow (startsLambda_of_headTest h)
        rw [if_neg hwindow, if_neg hhead]
        cases unaryOp? token.kind with
        | some op => exact coincide_behind _ (fun _ => (hexpr prefixPower).before _) s
        | none => exact coincide_atom hexpr hneedy token s

/-- **A window of tokens and the whole head of a lambda lead to the same expressions.** -/
theorem coincide_exprWith (least : Nat) : Coincide (exprWith windowTest least) (exprWith headTest least) := by
  refine coincide_fix (fun n hexpr least => ?_) least
  have hneedy (least : Nat) : Needy (below n (exprWith windowTest least)) := (needy_exprWith least).below
  exact (coincide_primary hexpr).bind fun lhs => coincide_operatorTail hexpr hneedy least lhs

theorem coincide_wholeExpr : Coincide (wholeExpr windowTest) (wholeExpr headTest) :=
  (coincide_exprWith 0).before _

theorem coincide_program : Coincide (program windowTest) (program headTest) :=
  (coincide_topLevels coincide_exprWith needy_exprWith).before _

end Parser

/-! ## Texts -/

/-- Parses a text that is one expression, with the given test for lambdas. -/
def parseExprBy (isLambda : Parser.LambdaTest) (source : String) :
    Except (Located SyntaxError) Expr := do
  let (e, _) ← Parser.wholeExpr isLambda (← Stream.ofString source)
  return e

/-- Parses the text of a program, with the given test for lambdas. -/
def parseProgramBy (isLambda : Parser.LambdaTest) (source : String) :
    Except (Located SyntaxError) Program := do
  let (program, _) ← Parser.program isLambda (← Stream.ofString source)
  return program

theorem Parser.Coincide.toOption_parse {α : Type} {p q : Parser α} (h : Coincide p q) (source : String) :
    (do let (a, _) ← p (← Stream.ofString source); return a :
        Except (Located SyntaxError) α).toOption =
      (do let (a, _) ← q (← Stream.ofString source); return a).toOption := by
  cases Stream.ofString source with
  | error e => rfl
  | ok s =>
    have hsame := h s
    change (p s >>= fun r => pure r.1).toOption = (q s >>= fun r => pure r.1).toOption
    cases hp : p s with
    | error e =>
      cases hq : q s with
      | error e' => rfl
      | ok r => simp [hp, hq, Except.toOption] at hsame
    | ok r =>
      rw [hp] at hsame
      rw [Parser.eq_ok_of_toOption hsame.symm]

/-- **A text is accepted, and as the same expression or program, whether lambdas are told by a
window of tokens or by parsing their whole heads.** -/
theorem lookahead_is_enough (source : String) :
    (parseExpr source).toOption = (parseExprBy Parser.headTest source).toOption ∧
      (parseProgram source).toOption = (parseProgramBy Parser.headTest source).toOption :=
  ⟨Parser.coincide_wholeExpr.toOption_parse source, Parser.coincide_program.toOption_parse source⟩

end TypeForge
