import TypeForge.Proofs.Parser.Positions.Syntax

/-!
# Parsing makes progress

What is left to parse is measured in characters, from the start of the current token to the end of
the text.  A production that succeeds leaves less than it found, and so does a round of a loop with
another one behind it.  In the middle of a template string the current token stays while the cursor
goes on; there it is the token together with what is behind the cursor that gets shorter.

A recursive call is made with less to parse than its caller has, or else it is refused.  Since that
never happens, the parser is the one solution of its equation without such a check.
-/

namespace TypeForge

/-- The size of a stream is the number of characters from its current token to the end of the text. -/
theorem Stream.Scanned.exists_behind {source : List Char} {s : Stream} (h : s.Scanned source) :
    ∃ before behind, source = before ++ behind ∧ s.pos = Position.start.advanceOver before ∧
      s.size = behind.length := by
  unfold Stream.pos Stream.size
  cases hcurrent : s.current with
  | none =>
    obtain ⟨before, hsource, hpos⟩ := h.within.cursor
    exact ⟨before, s.cursor.rest, hsource, hpos, Nat.zero_add _⟩
  | some token =>
    obtain ⟨before, hsource, hpos, -⟩ := h.split hcurrent
    exact ⟨before, _, hsource, hpos, by rw [List.length_append, String.length_toList]; rfl⟩

namespace Parser

variable {α β : Type} {source : List Char} {k k₁ : Nat} {s s' : Stream} {p q : Parser α} {f g : α → Parser β}
  {P : α → Prop}

/-! ## Productions -/

/-- A run of `p` that succeeds leaves at least `k` characters less to parse. -/
def Shortens (source : List Char) (k : Nat) (p : Parser α) : Prop :=
  ∀ ⦃s : Stream⦄ ⦃a : α⦄ ⦃s' : Stream⦄, s.Scanned source → p s = .ok (a, s') →
    s'.Scanned source ∧ s'.size + k ≤ s.size

theorem scanned_of_run {a : α} {K : α → Record} (hdiagnoses : DiagnosesAt source (s.size + 1) s k p q P)
    (hlays : LaysAt source s p ⟨[], []⟩ K) (hs : s.Scanned source) (hrun : p s = .ok (a, s')) :
    s'.Scanned source ∧ s'.size + k ≤ s.size := by
  have hfits := (hdiagnoses hs.within (Nat.lt_succ_self _)).1
  rw [hrun] at hfits
  exact ⟨(hlays hs ⟨by simp, .nil, by simp⟩ a s' hrun).1, hfits.2.1⟩

theorem shortens_of {K : α → Record} (hdiagnoses : ∀ n, Diagnoses source (n + 1) k p q P)
    (hlays : ∀ s, LaysAt source s p ⟨[], []⟩ K) : Shortens source k p :=
  fun s _ _ => scanned_of_run (hdiagnoses s.size s) (hlays s)

theorem inherits_true : Inherits fun _ => True := fun _ _ _ => trivial

theorem shortens_exprWith (least : Nat) : Shortens source 1 (exprWith windowTest least) :=
  shortens_of (fun _ => diagnoses_exprWith inherits_true least) fun s => lays_exprWith _ least s _

/-- **What every production takes**, if it succeeds. -/
structure ProductionsShorten (source : List Char) : Prop where
  expressions (least : Nat) : Shortens source 1 (exprWith windowTest least)
  operands : Shortens source 1 (primary windowTest (exprWith windowTest))
  statements : Shortens source 1 (stmt expr)
  parameters : Shortens source 1 (param expr)
  arms : Shortens source 1 (arm expr)
  properties : Shortens source 1 (property expr)
  definitions : Shortens source 1 (definition expr)
  sections : Shortens source 1 (sectionOf expr)
  imports : Shortens source 1 importOf

theorem productions_shorten (source : List Char) : ProductionsShorten source := by
  have hexpr (n least : Nat) : ExprDiagnoses source n (fun _ => True) (exprWith windowTest least) _ :=
    diagnoses_exprWith inherits_true least
  have hlays (least : Nat) : Lays source (exprWith windowTest least) Expr.nodes fun e => [e] :=
    lays_exprWith windowTest least
  exact {
    expressions := shortens_exprWith
    operands := shortens_of (fun n => diagnoses_primary inherits_true (hexpr n)) (lays_primary hlays · _)
    statements := shortens_of (fun n => diagnoses_stmt (hexpr (n + 1) 0)) (lays_stmt (hlays 0) · _)
    parameters := shortens_of (fun n => diagnoses_param (hexpr n 0)) (lays_param (hlays 0) · _)
    arms := shortens_of (fun n => diagnoses_arm (hexpr (n + 1) 0)) (lays_arm (hlays 0) · _)
    properties := shortens_of (fun n => diagnoses_property (hexpr n 0)) (lays_property (hlays 0) · _)
    definitions := shortens_of (fun n => diagnoses_definition (hexpr (n + 1) 0)) (lays_definition (hlays 0) · _)
    sections := shortens_of (fun n => diagnoses_sectionOf (hexpr (n + 1) 0)) (lays_sectionOf (hlays 0) · _)
    imports := shortens_of (P := fun d => (TopLevel.importOf d).FitsIn source fun _ => True)
      (fun _ => diagnoses_importOf) (lays_importOf · _) }

/-! ## Loops -/

/-- The loop goes through rounds: whatever is done in further rounds, it is done with less to parse.
So the loop does not need to be told to stop. -/
structure LoopsBy (source : List Char) (round : (α → Parser β) → α → Parser β) (loop : α → Parser β) : Prop where
  eq_fix : loop = fix round
  descends : ∀ again a s, s.Scanned source → round again a s = round (fun b => below s.size (again b)) a s
  unrolls : ∀ a s, s.Scanned source → loop a s = round loop a s

theorem loopsBy_fix {round : (α → Parser β) → α → Parser β}
    (h : ∀ again a s, s.Scanned source → round again a s = round (fun b => below s.size (again b)) a s) :
    LoopsBy source round (fix round) where
  eq_fix := rfl
  descends := h
  unrolls a s hs := by rw [run_fix, ← h _ a s hs]

/-- Parsers that are not told apart behind a run. -/
theorem run_bind_congr (h : ∀ a t, p s = .ok (a, t) → f a t = g a t) : (p >>= f) s = (p >>= g) s := by
  change (p s >>= fun r => f r.1 r.2) = (p s >>= fun r => g r.1 r.2)
  cases hp : p s with
  | error e => rfl
  | ok r => exact h r.1 r.2 hp

theorem run_bind_below {n : Nat} (h : s.size < n) : (p >>= f) s = (below n p >>= f) s := by
  change (p s >>= fun r => f r.1 r.2) = (below n p s >>= fun r => f r.1 r.2)
  rw [run_below h]

theorem shortens_pure {a : α} : Shortens source 0 (pure a) := by
  intro s _ s' hs hrun
  cases hrun
  exact ⟨hs, Nat.le_refl _⟩

theorem Shortens.bind (hp : Shortens source k p) (hf : ∀ a, Shortens source 0 (f a)) :
    Shortens source 0 (p >>= f) := by
  intro s b s' hs hrun
  obtain ⟨a, t, hrun₁, hrun₂⟩ := run_bind_eq_ok hrun
  obtain ⟨ht, hle⟩ := hp hs hrun₁
  obtain ⟨hs', hle'⟩ := hf a ht hrun₂
  exact ⟨hs', by omega⟩

theorem shortens_take (kind : Kind) : Shortens source 0 (take kind) :=
  shortens_of (fun _ => diagnoses_take kind) (nodeless_take kind · _)

/-- A round of `moreSeparated`. -/
def separatedRound (separator : Kind) (item : Parser α) (again : Unit → Parser (List α)) (_ : Unit) :
    Parser (List α) := do
  if ← take separator then
    let a ← item
    return a :: (← again ())
  else
    return []

theorem loopsBy_separatedRound (separator : Kind) {item : Parser α} (hitem : Shortens source 1 item) :
    LoopsBy source (separatedRound separator item) fun _ => moreSeparated separator item := by
  refine loopsBy_fix fun again _ s hs => run_bind_congr fun found t htake => ?_
  obtain ⟨ht, hle⟩ := shortens_take separator hs htake
  cases found with
  | false => rfl
  | true =>
    refine run_bind_congr fun a u hrun => run_bind_below ?_
    have hlt := (hitem ht hrun).2
    omega

/-- A round of `whileInBraces`. -/
def bracesRound (item : Parser α) (again : Unit → Parser (List α)) (_ : Unit) : Parser (List α) := do
  if (← get).inBraces then
    let a ← item
    return a :: (← again ())
  else
    return []

theorem loopsBy_bracesRound {item : Parser α} (hitem : Shortens source 1 item) :
    LoopsBy source (bracesRound item) fun _ => whileInBraces item := by
  refine loopsBy_fix fun again _ s hs => ?_
  rw [bracesRound, bracesRound, run_get, run_get]
  split
  · exact run_bind_congr fun a t hrun => run_bind_below (hitem hs hrun).2
  · rfl

/-- A round of `properties`. -/
def propertiesRound (expr : Parser Expr) (again : Unit → Parser (List Property)) (_ : Unit) :
    Parser (List Property) := do
  if (← get).inBraces then
    let p ← property expr
    if ← takeSeparator then
      return p :: (← again ())
    else
      return [p]
  else
    return []

theorem shortens_takeSeparator : Shortens source 0 takeSeparator := by
  refine (shortens_take .comma).bind fun found => ?_
  cases found with
  | true => exact shortens_pure
  | false => exact shortens_take .semicolon

theorem loopsBy_propertiesRound : LoopsBy source (propertiesRound expr) fun _ => properties expr := by
  refine loopsBy_fix fun again _ s hs => ?_
  rw [propertiesRound, propertiesRound, run_get, run_get]
  split
  · refine run_bind_congr fun p t hrun => run_bind_congr fun found u hseparator => ?_
    obtain ⟨ht, hlt⟩ := (productions_shorten source).properties hs hrun
    cases found with
    | false => rfl
    | true =>
      refine run_bind_below ?_
      have hle := (shortens_takeSeparator ht hseparator).2
      omega
  · rfl

/-- A round of `operatorTail`. -/
def operatorRound (expr : Nat → Parser Expr) (least : Nat) (again : Expr → Parser Expr) (lhs : Expr) :
    Parser Expr := do
  match (← get).kind?.bind infixPower with
  | none => return lhs
  | some (left, right) =>
    if left < least then
      return lhs
    else
      let op ← advance
      again (← operation expr op lhs right)

theorem shortens_operation (op : Token) (lhs : Expr) (power : Nat) :
    Shortens source 0 (operation (exprWith windowTest) op lhs power) := by
  have hfail {pos : Position} {error : SyntaxError} : Shortens source 0 (fail pos error : Parser Expr) := by
    intro s _ s' _ hrun
    cases hrun
  have hexpr (least : Nat) : Shortens source 1 (exprWith windowTest least) := shortens_exprWith least
  unfold operation
  split
  · split
    · exact (hexpr power).bind fun _ => shortens_pure
    · exact hfail
  · have hname : Shortens source 1 name := shortens_of (fun _ => diagnoses_name) (nodeless_name · _)
    exact hname.bind fun _ => shortens_pure
  · have hclose : Shortens source 1 (consume .rbracket) :=
      shortens_of (fun _ => diagnoses_consume .rbracket) (nodeless_consume .rbracket · _)
    exact (hexpr 0).bind fun _ => hclose.bind fun _ => shortens_pure
  · have hargs : Shortens source 0 (exprList .rparen (exprWith windowTest 0)) :=
      shortens_of (fun _ => diagnoses_exprList (diagnoses_exprWith inherits_true 0) .rparen)
        (lays_exprList (lays_exprWith windowTest 0) .rparen · _)
    exact hargs.bind fun _ => shortens_pure
  · split
    · exact (hexpr power).bind fun _ => shortens_pure
    · exact (hexpr power).bind fun _ => shortens_pure
    · exact hfail

theorem loopsBy_operatorRound (least : Nat) :
    LoopsBy source (operatorRound (exprWith windowTest) least) (operatorTail (exprWith windowTest) least) := by
  refine loopsBy_fix fun again lhs s hs => ?_
  rw [operatorRound, operatorRound, run_get, run_get]
  cases s.kind?.bind infixPower with
  | none => rfl
  | some power =>
    obtain ⟨left, right⟩ := power
    dsimp only
    split
    · rfl
    · refine run_bind_congr fun op t hadvance => run_bind_congr fun e u hrun => ?_
      obtain ⟨ht, hlt⟩ := scanned_of_advance hs hadvance
      have hle := (shortens_operation op lhs right ht hrun).2
      exact (run_below (by omega)).symm

/-- A round of `templateParts`: a piece of text, and possibly an expression behind it. -/
def templateRound (start : Position) (expr : Parser Expr) (again : Unit → Parser (List Part)) (_ : Unit) :
    Parser (List Part) := do
  let (text, ending) ← templatePiece start
  rescan
  match ending with
  | .backtick => return [.text text]
  | .interpolation =>
    let e ← expr
    expectKind .rbrace
    return .text text :: .expr e :: (← again ())

theorem loopsBy_templateRound (start : Position) :
    LoopsBy source (templateRound start expr) fun _ => templateParts start expr := by
  refine loopsBy_fix fun again _ s hs => ?_
  refine run_bind_congr fun piece t hpiece => run_bind_congr fun _ u hrescan => ?_
  obtain ⟨hu, hlt, -⟩ := stepsAt_piece start s hs ((run_bind hpiece _).trans (run_bind hrescan _))
  obtain ⟨text, ending⟩ := piece
  cases ending with
  | backtick => rfl
  | interpolation =>
    refine run_bind_congr fun e v hrun => run_bind_congr fun _ w hexpect => ?_
    obtain ⟨-, rfl⟩ := run_expectKind_eq_ok hexpect
    have hle := (shortens_exprWith 0 hu hrun).2
    exact run_bind_below (by omega)

/-- A piece of text takes the characters it is made of, one by one, and its mark. -/
theorem size_templatePiece {start : Position} {piece : String × TextEnd}
    (h : templatePiece start s = .ok (piece, s')) :
    s'.size + (piece.1.length + piece.2.mark.length) = s.size := by
  rw [templatePiece, run_get] at h
  cases hcut : templateText s.cursor.rest with
  | none =>
    rw [hcut] at h
    cases h
  | some cut =>
    rw [hcut] at h
    cases h
    have hlength := congrArg List.length (templateText_append hcut)
    simp only [List.length_append] at hlength
    simp only [Stream.size, Cursor.past, String.length_ofList]
    omega

/-- A round of `topLevels`. -/
def itemsRound (expr : Parser Expr) (again : Unit → Parser (List TopLevel)) (_ : Unit) :
    Parser (List TopLevel) := do
  match (← get).current with
  | none => return []
  | some token =>
    let item ← topLevel token expr
    return item :: (← again ())

theorem loopsBy_itemsRound : LoopsBy source (itemsRound expr) fun _ => topLevels expr := by
  refine loopsBy_fix fun again _ s hs => ?_
  rw [itemsRound, itemsRound, run_get, run_get]
  cases hcurrent : s.current with
  | none => rfl
  | some token =>
    refine run_bind_congr fun item t hrun => run_bind_below ?_
    have hexpr : ExprDiagnoses source (s.size + 1) (fun _ => True) expr expr := diagnoses_exprWith inherits_true 0
    exact (scanned_of_run (diagnosesAt_topLevel hexpr hcurrent)
      (lays_topLevel (lays_exprWith windowTest 0) token s _) hs hrun).2

/-- **What the loops of the parser do**, round by round. -/
structure LoopsDescend (source : List Char) : Prop where
  items : LoopsBy source (itemsRound expr) fun _ => topLevels expr
  block : LoopsBy source (bracesRound (stmt expr)) fun _ => whileInBraces (stmt expr)
  object : LoopsBy source (propertiesRound expr) fun _ => properties expr
  separated {α : Type} (separator : Kind) (item : Parser α) : Shortens source 1 item →
    LoopsBy source (separatedRound separator item) fun _ => moreSeparated separator item
  operators (least : Nat) :
    LoopsBy source (operatorRound (exprWith windowTest) least) (operatorTail (exprWith windowTest) least)
  template (start : Position) : LoopsBy source (templateRound start expr) fun _ => templateParts start expr
  /-- Inside of a round, the text of a template string is taken character by character. -/
  templateText (start : Position) (s : Stream) (piece : String × TextEnd) (s' : Stream) :
    templatePiece start s = .ok (piece, s') → s'.size + (piece.1.length + piece.2.mark.length) = s.size

theorem loops_descend (source : List Char) : LoopsDescend source where
  items := loopsBy_itemsRound
  block := loopsBy_bracesRound (productions_shorten source).statements
  object := loopsBy_propertiesRound
  separated separator _ hitem := loopsBy_separatedRound separator hitem
  operators := loopsBy_operatorRound
  template := loopsBy_templateRound
  templateText _ _ _ _ h := size_templatePiece h

/-! ## Recursion -/

/-- **The parser for expressions is the one that does what a round of it does**, on the streams of a
text. -/
theorem eq_descent_iff (source : List Char) (e : Nat → Parser Expr) :
    (∀ least s, s.Within source → e least s = descent e least s) ↔
      ∀ least s, s.Within source → e least s = exprWith windowTest least s := by
  constructor
  · intro he least s hs
    have hsame : ExprDiagnoses source (s.size + 1) (fun _ => True) (exprWith windowTest least) (e least) :=
      diagnoses_fix_of (P := fun _ => True) (fun least s hs => ⟨e, he least s hs, fun _ _ _ => rfl⟩)
        (fun _ _ _ _ hagain least _ => diagnoses_descent inherits_true (fun least => hagain least trivial) least)
        trivial
    exact (hsame s hs (Nat.lt_succ_self _)).2
  · intro he least s hs
    have hcalls (least : Nat) : ExprDiagnoses source s.size (fun _ => True)
        (below s.size (exprWith windowTest least)) (e least) := by
      intro t ht hlt
      rw [run_below hlt, he least t ht]
      exact diagnoses_exprWith inherits_true least t ht hlt
    have hsame := diagnoses_descent inherits_true hcalls least
    rw [he least s hs, (hsame s hs (Nat.lt_succ_self _)).2, exprWith, run_fix]
    rfl

end Parser

/-- No call is refused while an expression is parsed. -/
theorem parseExpr_ne_noProgress {source : String} {e : Located SyntaxError} (h : parseExpr source = .error e) :
    e.value ≠ .noProgress := by
  intro hvalue
  obtain ⟨s, hok, hs, -⟩ | ⟨pos, error, herror, -⟩ := Stream.ofCursor_cases (Cursor.within_ofString source)
  · have hfits := (Parser.diagnoses_exprWith Parser.inherits_true 0 s hs (Nat.lt_succ_self _)).1
    rw [parseExpr, Parser.parse_of_ofString _ hok, Parser.wholeExpr] at h
    cases hrun : Parser.exprWith Parser.windowTest 0 s with
    | error e' =>
      change (Parser.exprWith Parser.windowTest 0 s >>= _).map Prod.fst = _ at h
      rw [hrun] at h
      cases h
      rw [hrun] at hfits
      have hfits : e.value.Fits source.toList e.pos := hfits
      rwa [hvalue] at hfits
    | ok r =>
      rw [Parser.run_bind hrun, Parser.run_get] at h
      cases hcurrent : r.2.current with
      | none =>
        rw [hcurrent] at h
        cases h
      | some token =>
        rw [hcurrent] at h
        cases h
        cases hvalue
  · rw [parseExpr, Stream.ofString, herror] at h
    cases h
    cases hvalue

/-- **Parsing makes progress**, and so it terminates.  What is left to parse are the characters from the
current token on.  A production that succeeds leaves less, and so does a round of a loop with another one
behind it.  The parser for expressions is the one solution of its recursive equation, where no call has
to be checked for having less to parse; and parsing a text, whatever it is, never meets such a check. -/
theorem parsing_makes_progress (source : String) :
    (∀ s, Stream.ofString source = .ok s → s.Scanned source.toList) ∧
    (∀ s : Stream, s.Scanned source.toList → ∃ before behind, source.toList = before ++ behind ∧
      s.pos = Position.start.advanceOver before ∧ s.size = behind.length) ∧
    Parser.ProductionsShorten source.toList ∧ Parser.LoopsDescend source.toList ∧
    (∀ e : Nat → Parser Expr, (∀ least s, s.Within source.toList → e least s = Parser.descent e least s) ↔
      ∀ least s, s.Within source.toList → e least s = Parser.exprWith Parser.windowTest least s) ∧
    (∀ e, parseExpr source = .error e → e.value ≠ .noProgress) ∧
    ∀ e, parseProgram source = .error e → e.value ≠ .noProgress := by
  refine ⟨?_, fun s hs => hs.exists_behind, Parser.productions_shorten _, Parser.loops_descend _,
    Parser.eq_descent_iff _, fun e => parseExpr_ne_noProgress, ?_⟩
  · intro s hs
    exact ⟨_, Cursor.within_ofString source, hs⟩
  · intro e herror hvalue
    have hfits := parseProgram_fits source
    rw [herror] at hfits
    have hfits : e.value.Fits source.toList e.pos := hfits
    rwa [hvalue] at hfits

end TypeForge
