import TypeForge.Proofs.Parser.Lockstep
import TypeForge.Proofs.Printing.Laws

/-!
# Parsing does not depend on layout

Texts of the same words are parsed alike: into syntax trees that are the same but for their
positions, or not at all and then for the same reason.  Every production behaves alike on
streams that are alike if its subparsers do; that of template strings is left out, since the
text of a template string is not made of words.
-/

namespace TypeForge

theorem unlocatedOption_eq_map (e : Option Expr) : unlocatedOption e = e.map Expr.unlocated := by
  cases e <;> rfl

namespace Parser

section

variable {s t : Stream} {p q : Parser Expr}

section

variable (h : Lockstep s t (Same Expr.unlocated) p q)

include h

/-! ## Lists of parts -/

theorem lockstep_param : Lockstep s t (Same Param.unlocated) (param p) (param q) := by
  refine lockstep_get fun u v _ => lockstep_name.bind ?_
  rintro name _ rfl
  exact (lockstep_takeThen h).map fun a b hab => by simp [Same, unlocatedOption_eq_map, hab]

theorem lockstep_paramList :
    Lockstep s t (Same (List.map Param.unlocated)) (paramList p) (paramList q) :=
  (lockstep_consume _).bind fun _ _ _ => (lockstep_separated (lockstep_param h)).bind
    fun _ _ hparams => (lockstep_consume _).map fun _ _ _ => hparams

theorem lockstep_exprList {close : Kind} :
    Lockstep s t (Same (List.map Expr.unlocated)) (exprList close p) (exprList close q) := by
  refine lockstep_get fun u v halike => ?_
  rw [halike.at?_eq]
  cases v.at? close with
  | true =>
    exact (lockstep_pure (R := Same (List.map Expr.unlocated)) rfl).bind
      fun _ _ hes => (lockstep_consume _).map fun _ _ _ => hes
  | false =>
    exact (lockstep_separated h).bind fun _ _ hes => (lockstep_consume _).map fun _ _ _ => hes

theorem lockstep_bareStmt : Lockstep s t (Same Stmt.unlocated) (bareStmt p) (bareStmt q) := by
  refine lockstep_get fun u v halike => ?_
  rw [halike.startsAssertion_eq]
  cases startsAssertion v with
  | true =>
    exact lockstep_advance.bind fun _ _ _ => (lockstep_consume _).bind fun _ _ _ =>
      h.bind fun _ _ hleft => (lockstep_consume _).bind fun _ _ _ => h.bind fun _ _ hright =>
        (lockstep_consume _).map fun _ _ _ => by simp [Same, hleft, hright]
  | false =>
    refine (lockstep_take _).bind ?_
    rintro found _ rfl
    cases found with
    | true =>
      refine lockstep_name.bind ?_
      rintro name _ rfl
      exact (lockstep_consume _).bind fun _ _ _ => h.map fun a b hab => by simp [Same, hab]
    | false => exact h.map fun a b hab => by simp [Same, hab]

theorem lockstep_stmt : Lockstep s t (Same Stmt.unlocated) (stmt p) (stmt q) :=
  (lockstep_bareStmt h).bind fun _ _ hstmt => (lockstep_take _).map fun _ _ _ => hstmt

theorem lockstep_stmtBlock :
    Lockstep s t (Same (List.map Stmt.unlocated)) (stmtBlock p) (stmtBlock q) :=
  (lockstep_consume _).bind fun _ _ _ => (lockstep_consume _).bind fun _ _ _ =>
    (lockstep_stmt h).bind fun _ _ hfirst => (lockstep_whileInBraces (lockstep_stmt h)).bind
      fun _ _ hmore => (lockstep_consume _).map fun _ _ _ => hfirst.cons hmore

theorem lockstep_arm : Lockstep s t (Same Arm.unlocated) (arm p) (arm q) :=
  lockstep_get fun _ _ _ => h.bind fun _ _ hpattern => (lockstep_consume _).bind fun _ _ _ =>
    h.map fun _ _ hresult => by simp [Same, hpattern, hresult]

theorem lockstep_property : Lockstep s t (Same Property.unlocated) (property p) (property q) := by
  refine lockstep_get fun u v _ => (lockstep_take _).bind ?_
  rintro found _ rfl
  cases found with
  | true =>
    refine h.bind fun _ _ hkey => (lockstep_consume _).bind fun _ _ _ => (lockstep_take _).bind ?_
    rintro optional _ rfl
    exact (lockstep_consume _).bind fun _ _ _ => h.map fun _ _ hvalue => by simp [Same, hkey, hvalue]
  | false =>
    refine lockstep_name.bind ?_
    rintro name _ rfl
    refine (lockstep_take _).bind ?_
    rintro optional _ rfl
    exact (lockstep_consume _).bind fun _ _ _ => h.map fun _ _ hvalue => by simp [Same, hvalue]

omit h in
theorem lockstep_takeSeparator : Lockstep s t Eq takeSeparator takeSeparator := by
  refine (lockstep_take _).bind ?_
  rintro found _ rfl
  cases found with
  | true => exact lockstep_pure rfl
  | false => exact lockstep_take _

theorem lockstep_properties :
    Lockstep s t (Same (List.map Property.unlocated)) (properties p) (properties q) := by
  refine lockstep_loop fun u v huv again again' hagain => lockstep_get fun u' v' halike => ?_
  rw [halike.inBraces_eq]
  cases v'.inBraces with
  | false => exact lockstep_pure rfl
  | true =>
    refine (lockstep_property (h.mono huv)).bind fun a b hab => lockstep_takeSeparator.bind ?_
    rintro found _ rfl
    cases found with
    | true => exact hagain.map fun as bs hrest => hab.cons hrest
    | false => exact lockstep_pure (hab.cons rfl)

/-! ## Primary expressions -/

variable {pos pos' : Position}

theorem lockstep_lambda : Lockstep s t (Same Expr.unlocated) (lambda pos p) (lambda pos' q) := by
  have hbody : ∀ ps ps' : List Param, Same (List.map Param.unlocated) ps ps' →
      Lockstep s t (Same Expr.unlocated)
        (do
          let _ ← consume .fatArrow
          return .lambda pos ps (← p))
        (do
          let _ ← consume .fatArrow
          return .lambda pos' ps' (← q)) := by
    intro ps ps' hps
    exact (lockstep_consume _).bind fun _ _ _ => h.map fun _ _ hab => by
      simp [Same, unlocatedParams_eq_map, hps, hab]
  refine lockstep_get fun u v halike => ?_
  rw [halike.at?_eq, halike.any_peek_eq]
  cases v.at? .lparen with
  | false =>
    exact (lockstep_param h).bind fun a b hab => (lockstep_pure (hab.cons rfl)).bind hbody
  | true =>
    cases (v.cursor.peek 1).any fun token => token.kind == .rparen with
    | true =>
      exact (lockstep_consume _).bind fun _ _ _ => (lockstep_consume _).bind fun _ _ _ =>
        (lockstep_pure (R := Same (List.map Param.unlocated)) rfl).bind hbody
    | false => exact (lockstep_paramList h).bind hbody

theorem lockstep_mappedBody :
    Lockstep s t (Same Expr.unlocated) (mappedBody pos p) (mappedBody pos' q) := by
  refine (lockstep_consume _).bind fun _ _ _ => lockstep_name.bind ?_
  rintro key _ rfl
  refine (lockstep_consume _).bind fun _ _ _ => h.bind fun _ _ hunion =>
    (lockstep_takeThen h).bind fun _ _ hrenamed => (lockstep_consume _).bind fun _ _ _ =>
      (lockstep_take _).bind ?_
  rintro optional _ rfl
  exact (lockstep_consume _).bind fun _ _ _ => h.map fun _ _ hvalue => by
    simp [Same, unlocatedOption_eq_map, hunion, hrenamed, hvalue]

theorem lockstep_braced : Lockstep s t (Same Expr.unlocated) (braced pos p) (braced pos' q) := by
  refine lockstep_get fun u v halike => (lockstep_consume _).bind fun _ _ _ => ?_
  rw [halike.startsMapped_eq]
  cases startsMapped v with
  | true =>
    exact (lockstep_mappedBody h).bind fun _ _ hab => (lockstep_consume _).map fun _ _ _ => hab
  | false =>
    have hobject : Lockstep s t (Same Expr.unlocated) (objectBody pos p) (objectBody pos' q) :=
      (lockstep_properties h).map fun _ _ hab => by simp [Same, unlocatedProperties_eq_map, hab]
    exact hobject.bind fun _ _ hab => (lockstep_consume _).map fun _ _ _ => hab

theorem lockstep_conditional :
    Lockstep s t (Same Expr.unlocated) (conditional pos p) (conditional pos' q) :=
  lockstep_advance.bind fun _ _ _ => h.bind fun _ _ htest => (lockstep_consume _).bind fun _ _ _ =>
    h.bind fun _ _ hyes => (lockstep_consume _).bind fun _ _ _ => h.map fun _ _ hno => by
      simp [Same, htest, hyes, hno]

theorem lockstep_matching : Lockstep s t (Same Expr.unlocated) (matching pos p) (matching pos' q) :=
  lockstep_advance.bind fun _ _ _ => h.bind fun _ _ hscrutinee =>
    (lockstep_consume _).bind fun _ _ _ => (lockstep_separated (lockstep_arm h)).bind
      fun _ _ harms => (lockstep_consume _).map fun _ _ _ => by
        simp [Same, unlocatedArms_eq_map, hscrutinee, harms]

theorem lockstep_atom {a b : Token} (hab : Same Token.word a b) :
    Lockstep s t (Same Expr.unlocated) (atom a p) (atom b q) := by
  have hkind : a.kind = b.kind := congrArg Word.kind hab
  unfold atom
  rw [hkind]
  cases b.kind with
  | identifier | number =>
    refine lockstep_advance.map fun c d hcd => ?_
    have htext : c.text = d.text := congrArg Word.text hcd
    simp [Same, htext]
  | string =>
    refine lockstep_stringLiteral.map ?_
    rintro text _ rfl
    rfl
  | numberKw | stringKw => exact lockstep_advance.map fun _ _ _ => rfl
  | lparen =>
    exact lockstep_advance.bind fun _ _ _ => h.bind fun _ _ he =>
      (lockstep_consume _).map fun _ _ _ => he
  | lbracket =>
    exact lockstep_advance.bind fun _ _ _ => (lockstep_exprList h).map fun _ _ hes => by
      simp [Same, unlocatedExprs_eq_map, hes]
  | lbrace => exact lockstep_braced h
  | colon =>
    exact (lockstep_stmtBlock h).map fun _ _ hbody => by simp [Same, unlocatedStmts_eq_map, hbody]
  | inferKw =>
    refine lockstep_advance.bind fun _ _ _ => lockstep_name.bind ?_
    rintro name _ rfl
    exact (lockstep_takeThen h).map fun _ _ hbound => by simp [Same, unlocatedOption_eq_map, hbound]
  | ifKw => exact lockstep_conditional h
  | matchKw => exact lockstep_matching h
  | _ => exact lockstep_fail _

end

/-! ## Operators -/

variable {f g : Nat → Parser Expr}

theorem lockstep_primary (h : ∀ n, Lockstep s t (Same Expr.unlocated) (f n) (g n)) :
    Lockstep s t (Same Expr.unlocated) (primary windowTest f) (primary windowTest g) := by
  refine lockstep_get fun u v halike => ?_
  rcases halike.current with ⟨hu, hv⟩ | ⟨a, b, hu, hv, hab, hplain⟩
  · rw [hu, hv]
    exact lockstep_fail _
  · have hkind : a.kind = b.kind := congrArg Word.kind hab
    have htest : windowTest (f 0) u = windowTest (g 0) v := halike.startsLambda_eq
    rw [hkind] at hplain
    simp only [hu, hv, htest, hkind, hplain, if_false]
    cases windowTest (g 0) v with
    | true => exact lockstep_lambda (h 0)
    | false =>
      cases unaryOp? b.kind with
      | some op =>
        exact lockstep_advance.bind fun _ _ _ => (h _).map fun _ _ he => by simp [Same, he]
      | none => exact lockstep_atom (h 0) hab

theorem lockstep_operation (h : ∀ n, Lockstep s t (Same Expr.unlocated) (f n) (g n)) {a b : Token}
    (hab : Same Token.word a b) {lhs lhs' : Expr} (hlhs : Same Expr.unlocated lhs lhs')
    (power : Nat) :
    Lockstep s t (Same Expr.unlocated) (operation f a lhs power) (operation g b lhs' power) := by
  have hkind : a.kind = b.kind := congrArg Word.kind hab
  unfold operation
  rw [hkind]
  split
  · have htarget : lhs.isTarget = lhs'.isTarget := by
      rw [← lhs.isTarget_unlocated, ← lhs'.isTarget_unlocated, hlhs]
    rw [htarget]
    cases lhs'.isTarget with
    | true => exact (h power).map fun _ _ he => by simp [Same, hlhs, he]
    | false => exact lockstep_fail _
  · refine lockstep_name.map ?_
    rintro name _ rfl
    simp [Same, hlhs]
  · exact (h 0).bind fun _ _ hkey => (lockstep_consume _).map fun _ _ _ => by
      simp [Same, hlhs, hkey]
  · exact (lockstep_exprList (h 0)).map fun _ _ hargs => by
      simp [Same, unlocatedExprs_eq_map, hlhs, hargs]
  · split
    · exact (h power).map fun _ _ he => by simp [Same, hlhs, he]
    · exact (h power).map fun _ _ he => by simp [Same, hlhs, he]
    · exact lockstep_fail _

theorem lockstep_operatorTail (h : ∀ n, Lockstep s t (Same Expr.unlocated) (f n) (g n))
    (least : Nat) {lhs lhs' : Expr} (hlhs : Same Expr.unlocated lhs lhs') :
    Lockstep s t (Same Expr.unlocated) (operatorTail f least lhs) (operatorTail g least lhs') := by
  refine lockstep_fix (fun u v huv again again' hagain e e' he => ?_) hlhs
  refine lockstep_get fun u' v' halike => ?_
  rw [halike.kind?_eq]
  cases v'.kind?.bind infixPower with
  | none => exact lockstep_pure he
  | some power =>
    by_cases hless : power.1 < least
    · simp only [hless, if_true]
      exact lockstep_pure he
    · simp only [hless, if_false]
      exact lockstep_advance.bind fun a b hab =>
        (lockstep_operation (fun n => (h n).mono huv) hab he power.2).bind hagain

theorem lockstep_exprWith (least : Nat) :
    Lockstep s t (Same Expr.unlocated) (exprWith windowTest least) (exprWith windowTest least) := by
  refine lockstep_fix (R := Eq) (fun u v _ again again' hagain n m hnm => ?_) rfl
  subst hnm
  have hcall : ∀ k, Lockstep u v (Same Expr.unlocated) (again k) (again' k) :=
    fun k => hagain k k rfl
  exact (lockstep_primary hcall).bind fun _ _ hlhs => lockstep_operatorTail hcall n hlhs

/-! ## Programs -/

section

variable (h : Lockstep s t (Same Expr.unlocated) p q)

include h

theorem lockstep_definition :
    Lockstep s t (Same fun d => (TopLevel.definition d).unlocated) (definition p)
      (definition q) := by
  refine lockstep_get fun u v _ => (lockstep_take _).bind ?_
  rintro isExported _ rfl
  refine (lockstep_consume _).bind fun _ _ _ => lockstep_name.bind ?_
  rintro name _ rfl
  have hbody : ∀ ps ps' : List Param, Same (List.map Param.unlocated) ps ps' →
      Lockstep s t (Same fun d => (TopLevel.definition d).unlocated)
        (do
          let _ ← consume .assign
          let body ← p
          let _ ← take .semicolon
          return ⟨u.pos, isExported, name, ps, body⟩)
        (do
          let _ ← consume .assign
          let body ← q
          let _ ← take .semicolon
          return ⟨v.pos, isExported, name, ps', body⟩) := by
    intro ps ps' hps
    exact (lockstep_consume _).bind fun _ _ _ => h.bind fun _ _ he => (lockstep_take _).map
      fun _ _ _ => by simp [Same, TopLevel.unlocated, unlocatedParams_eq_map, hps, he]
  refine lockstep_get fun u' v' halike => ?_
  rw [halike.at?_eq]
  cases v'.at? .lparen with
  | true => exact (lockstep_paramList h).bind hbody
  | false => exact (lockstep_pure (R := Same (List.map Param.unlocated)) rfl).bind hbody

theorem lockstep_sectionOf :
    Lockstep s t (Same fun group => (TopLevel.sectionOf group).unlocated) (sectionOf p)
      (sectionOf q) := by
  refine lockstep_get fun u v _ => (lockstep_consume _).bind fun _ _ _ =>
    (lockstep_consume _).bind fun _ _ _ => lockstep_name.bind ?_
  rintro name _ rfl
  exact (lockstep_consume _).bind fun _ _ _ => (lockstep_stmtBlock h).map fun _ _ hbody => by
    simp [Same, TopLevel.unlocated, unlocatedStmts_eq_map, hbody]

omit h in
theorem lockstep_importOf :
    Lockstep s t (Same fun names => (TopLevel.importOf names).unlocated) importOf importOf := by
  have hname : Lockstep s t (Same id) name name := lockstep_name
  refine lockstep_get fun u v _ => (lockstep_consume _).bind fun _ _ _ =>
    (lockstep_consume _).bind fun _ _ _ => (lockstep_separated hname).bind fun symbols _ h => ?_
  obtain rfl := by simpa [Same] using h
  refine (lockstep_consume _).bind fun _ _ _ => (lockstep_consume _).bind fun _ _ _ =>
    lockstep_stringLiteral.bind ?_
  rintro source _ rfl
  exact (lockstep_take _).map fun _ _ _ => rfl

theorem lockstep_topLevel {a b : Token} (hab : Same Token.word a b) :
    Lockstep s t (Same TopLevel.unlocated) (topLevel a p) (topLevel b q) := by
  have hkind : a.kind = b.kind := congrArg Word.kind hab
  unfold topLevel
  rw [hkind]
  cases b.kind with
  | typeKw | exportKw => exact (lockstep_definition h).map fun _ _ hd => hd
  | hash => exact (lockstep_sectionOf h).map fun _ _ hgroup => hgroup
  | importKw => exact lockstep_importOf.map fun _ _ hnames => hnames
  | _ => exact lockstep_fail _

theorem lockstep_topLevels :
    Lockstep s t (Same (List.map TopLevel.unlocated)) (topLevels p) (topLevels q) := by
  refine lockstep_loop fun u v huv again again' hagain => lockstep_get fun u' v' halike => ?_
  rcases halike.current with ⟨hu, hv⟩ | ⟨a, b, hu, hv, hab, -⟩
  · simp only [hu, hv]
    exact lockstep_pure rfl
  · simp only [hu, hv]
    exact (lockstep_topLevel (h.mono huv) hab).bind fun _ _ hitem =>
      hagain.map fun _ _ hitems => hitem.cons hitems

end

theorem lockstep_program :
    Lockstep s t (Same Program.unlocated) (program windowTest) (program windowTest) := by
  refine (lockstep_topLevels (lockstep_exprWith 0)).bind fun items items' hitems => ?_
  cases items with
  | nil =>
    obtain rfl : items' = [] := by simpa [Same] using hitems.symm
    exact lockstep_fail _
  | cons item items =>
    cases items' with
    | nil => simp [Same] at hitems
    | cons item' items' =>
      exact lockstep_pure (by rw [Same, Program.unlocated, Program.unlocated, hitems])

end

end Parser

/-- The text is made of tokens, in this order. -/
def Tokenizes (source : String) (ts : List Token) : Prop :=
  (Cursor.ofString source).items.1 = ts.map .ok

/-- The tokens of a text. -/
def tokensOf (source : String) : List Token :=
  (Cursor.ofString source).items.1.filterMap Except.toOption

/-- A text without errors is made of its tokens. -/
theorem tokenizes_tokensOf {source : String}
    (h : (Cursor.ofString source).items.1.all Except.isOk = true) :
    Tokenizes source (tokensOf source) := by
  unfold Tokenizes tokensOf
  generalize (Cursor.ofString source).items.1 = items at h ⊢
  induction items with
  | nil => rfl
  | cons item items ih =>
    rw [List.all_cons, Bool.and_eq_true] at h
    cases item with
    | error e => cases h.1
    | ok token => exact congrArg (.ok token :: ·) (ih h.2)

/-- The syntax tree of a text without its positions, or what is wrong with the text. -/
def parseUnlocated (source : String) : Except SyntaxError Program :=
  ((parseProgram source).map Program.unlocated).mapError Located.value

theorem parseProgram_of_ofString {source : String} {s : Stream} (h : Stream.ofString source = .ok s) :
    parseProgram source = (Parser.program Parser.windowTest s).map Prod.fst :=
  Parser.parse_of_ofString _ h

/-- **Programs of the same words are parsed alike.** -/
theorem parseUnlocated_eq_of_words {source source' : String} {ts ts' : List Token}
    (h : Tokenizes source ts) (h' : Tokenizes source' ts')
    (hwords : ts.map Token.word = ts'.map Token.word) (hplain : ∀ t ∈ ts, t.kind ≠ .backtick) :
    parseUnlocated source = parseUnlocated source' := by
  obtain ⟨s, hs, htells, -⟩ := Stream.tells_ofCursor ⟨ts, h, rfl⟩
  obtain ⟨t, ht, htells', -⟩ := Stream.tells_ofCursor ⟨ts', h', rfl⟩
  have halike : s.Alike t := by
    refine ⟨_, htells, hwords ▸ htells', fun w hw => ?_⟩
    obtain ⟨token, htoken, rfl⟩ := List.mem_map.1 hw
    exact hplain token htoken
  have hmatched := Parser.lockstep_program halike (.refl s t)
  unfold parseUnlocated
  rw [parseProgram_of_ofString hs, parseProgram_of_ofString ht]
  revert hmatched
  generalize Parser.program Parser.windowTest s = x
  generalize Parser.program Parser.windowTest t = y
  rintro (⟨hsame, -, -⟩ | ⟨hvalue⟩)
  · exact congrArg Except.ok hsame
  · exact congrArg Except.error hvalue

end TypeForge
