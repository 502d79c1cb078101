import TypeForge.Ast.Nodes
import TypeForge.Proofs.Parser.Diagnoses

/-!
# Every syntax error points into the source

The productions one by one: each takes a token before it calls itself, takes a token only if there
is one, and builds nodes at positions of the text.  So parsing a text reports errors that fit it,
and the nodes of a program stand in its text.
-/

namespace TypeForge

/-! ## Nodes -/

/-- The nodes stand in the text. -/
def NodesIn (source : List Char) (nodes : List Node) : Prop := ∀ node ∈ nodes, node.pos.InText source

section

variable {source : List Char} {nodes : List Node}

@[simp] theorem nodesIn_nil : NodesIn source [] := fun _ h => absurd h List.not_mem_nil

@[simp] theorem nodesIn_cons {pos : Position} {kind : NodeKind} :
    NodesIn source (⟨pos, kind⟩ :: nodes) ↔ pos.InText source ∧ NodesIn source nodes :=
  List.forall_mem_cons

@[simp] theorem nodesIn_append {nodes' : List Node} :
    NodesIn source (nodes ++ nodes') ↔ NodesIn source nodes ∧ NodesIn source nodes' :=
  List.forall_mem_append

theorem nodesIn_flatMap {α : Type} {as : List α} {f : α → List Node} :
    NodesIn source (as.flatMap f) ↔ ∀ a ∈ as, NodesIn source (f a) := by
  induction as with
  | nil => simp
  | cons a as ih => simp [List.flatMap_cons, ih]

theorem exprNodes_eq_flatMap (es : List Expr) : exprNodes es = es.flatMap Expr.nodes := by
  induction es with
  | nil => rfl
  | cons e es ih => rw [exprNodes, ih, List.flatMap_cons]

theorem paramNodes_eq_flatMap (ps : List Param) : paramNodes ps = ps.flatMap fun p => paramNodes [p] := by
  induction ps with
  | nil => rfl
  | cons p ps ih =>
    obtain ⟨pos, name, _ | bound⟩ := p <;> simp [paramNodes, ih]

theorem stmtNodes_eq_flatMap (ss : List Stmt) : stmtNodes ss = ss.flatMap fun s => stmtNodes [s] := by
  induction ss with
  | nil => rfl
  | cons s ss ih => cases s <;> simp [stmtNodes, ih]

theorem armNodes_eq_flatMap (as : List Arm) : armNodes as = as.flatMap fun a => armNodes [a] := by
  induction as with
  | nil => rfl
  | cons a as ih =>
    obtain ⟨pos, pattern, result⟩ := a
    simp [armNodes, ih]

theorem propertyNodes_eq_flatMap (ps : List Property) :
    propertyNodes ps = ps.flatMap fun p => propertyNodes [p] := by
  induction ps with
  | nil => rfl
  | cons p ps ih => cases p <;> simp [propertyNodes, ih]

/-- An expression is at the position of its first node. -/
theorem Expr.nodes_eq_cons (e : Expr) : ∃ kind rest, e.nodes = ⟨e.pos, kind⟩ :: rest := by
  cases e with
  | mapped pos key union renamed optional value => cases renamed <;> exact ⟨_, _, rfl⟩
  | infer pos name bound => cases bound <;> exact ⟨_, _, rfl⟩
  | _ => exact ⟨_, _, rfl⟩

theorem inText_pos_of_nodesIn {e : Expr} (h : NodesIn source e.nodes) : e.pos.InText source := by
  obtain ⟨kind, rest, hnodes⟩ := e.nodes_eq_cons
  rw [hnodes, nodesIn_cons] at h
  exact h.1

end

/-- Template text, its end and what is behind it make up the text. -/
theorem templateText_append {cs text rest : List Char} {ending : TextEnd}
    (h : templateText cs = some (text, ending, rest)) : cs = (text ++ ending.mark) ++ rest := by
  fun_induction templateText cs generalizing text with
  | case1 => cases h
  | case2 => cases h; rfl
  | case3 => cases h; rfl
  | case4 => cases h; rfl
  | case5 c cs hbrace hbacktick ih =>
    obtain ⟨⟨text', ending', rest'⟩, hcut, heq⟩ := Option.map_eq_some_iff.1 h
    cases heq
    rw [ih hcut]
    rfl
  | case6 c cs hbacktick hbrace hmark hdollar ih =>
    obtain ⟨⟨text', ending', rest'⟩, hcut, heq⟩ := Option.map_eq_some_iff.1 h
    cases heq
    rw [ih hcut]
    rfl

theorem TextEnd.mark_length_pos (ending : TextEnd) : 0 < ending.mark.length := by
  cases ending <;> decide

/-! ## Results -/

section

variable (source : List Char) (P : Expr → Prop)

/-- The nodes of an expression stand in the text, and it has the property `P`. -/
def Expr.FitsIn (e : Expr) : Prop := NodesIn source e.nodes ∧ P e

/-- The nodes of a parameter stand in the text, its name is one, and its bound has the property. -/
def Param.FitsIn (p : Param) : Prop :=
  NodesIn source (paramNodes [p]) ∧ isIdentifier p.name = true ∧ ∀ e ∈ p.bound, P e

/-- The nodes of a statement stand in the text, and its expressions have the property. -/
def Stmt.FitsIn (s : Stmt) : Prop :=
  NodesIn source (stmtNodes [s]) ∧ s.WellMade ∧ ∀ c ∈ s.children, P c

/-- The nodes of a top-level item stand in the text, and its expressions have the property. -/
def TopLevel.FitsIn (item : TopLevel) : Prop := NodesIn source item.nodes ∧ item.Has P

end

namespace Parser

/-- One round of the recursion of expressions, with `expr` for the others. -/
def descent (expr : Nat → Parser Expr) (least : Nat) : Parser Expr := do
  let lhs ← primary windowTest expr
  operatorTail expr least lhs

end Parser

namespace Parser

attribute [local simp] Expr.nodes

variable {α β : Type} {source : List Char} {n k : Nat} {s : Stream}

/-! ## Lists -/

theorem diagnoses_takeSeparator :
    Diagnoses source n 0 takeSeparator takeSeparator fun _ => True := by
  refine (diagnoses_take .comma).bind fun found _ => ?_
  cases found with
  | true => exact diagnoses_pure trivial
  | false => exact diagnoses_take .semicolon

section

variable {p q item item' : Parser α} {P : α → Prop}

theorem diagnoses_takeThen {kind : Kind} (hp : Diagnoses source n k p q P) :
    Diagnoses source (n + 1) 0 (takeThen kind p) (takeThen kind q) fun found => ∀ a ∈ found, P a := by
  refine diagnoses_take_bind ?_ (diagnoses_pure fun _ h => (nomatch h))
  refine hp.bind fun a ha => diagnoses_pure ?_
  rintro _ ⟨⟩
  exact ha

theorem diagnoses_moreSeparated {separator : Kind} (hitem : Diagnoses source n k item item' P) :
    Diagnoses source (n + 1) 0 (moreSeparated separator item) (moreSeparated separator item')
      fun as => ∀ a ∈ as, P a := by
  refine diagnoses_loop fun m hm again again' hagain => diagnoses_take_bind ?_ (diagnoses_pure (by simp))
  refine (hitem.mono (Nat.le_of_lt_succ hm) (Nat.zero_le _)).bind fun a ha => ?_
  refine hagain.bind fun as has => diagnoses_pure ?_
  exact List.forall_mem_cons.2 ⟨ha, has⟩

theorem diagnoses_separated {separator : Kind} (hitem : Diagnoses source n 1 item item' P) :
    Diagnoses source n 1 (separated separator item) (separated separator item') fun as => ∀ a ∈ as, P a := by
  refine hitem.lead fun a ha => ?_
  refine ((diagnoses_moreSeparated hitem).mono (Nat.le_succ _) (Nat.le_refl _)).bind fun as has =>
    diagnoses_pure ?_
  exact List.forall_mem_cons.2 ⟨ha, has⟩

theorem diagnoses_whileInBraces (hitem : Diagnoses source n 1 item item' P) :
    Diagnoses source n 0 (whileInBraces item) (whileInBraces item') fun as => ∀ a ∈ as, P a := by
  refine diagnoses_loop fun m hm again again' hagain => diagnoses_get fun s hs => ?_
  split
  · have hfirst : Diagnoses source (m + 1) 1 item item' P := hitem.mono hm (Nat.le_refl _)
    refine ((hfirst s).first fun a ha => ?_).mono (Nat.le_refl _) (Nat.zero_le _) fun _ h => h
    refine hagain.bind fun as has => diagnoses_pure ?_
    exact List.forall_mem_cons.2 ⟨ha, has⟩
  · exact diagnosesAt_pure (by simp)

end

/-! ## Productions -/

variable {P : Expr → Prop}

/-- The parsers for subexpressions, on streams with less than `n` characters. -/
def ExprDiagnoses (source : List Char) (n : Nat) (P : Expr → Prop) (expr expr' : Parser Expr) : Prop :=
  Diagnoses source n 1 expr expr' (Expr.FitsIn source P)

section

variable {expr expr' : Parser Expr} (hexpr : ExprDiagnoses source n P expr expr')

include hexpr

/-- An optional part behind a token. -/
theorem diagnoses_behind (kind : Kind) : Diagnoses source n 0 (takeThen kind expr) (takeThen kind expr')
    fun found => ∀ e ∈ found, e.FitsIn source P :=
  (diagnoses_takeThen hexpr).mono (Nat.le_succ _) (Nat.le_refl _)

theorem diagnoses_param :
    Diagnoses source (n + 1) 1 (param expr) (param expr') (Param.FitsIn source P) := by
  refine diagnoses_get fun s hs => (diagnoses_name s).first fun name hname => ?_
  refine (diagnoses_behind hexpr _).bind fun bound hbound => diagnoses_pure ?_
  refine ⟨?_, hname, fun e he => (hbound e he).2⟩
  cases bound with
  | none => simp [paramNodes, hs.pos]
  | some bound => simp [paramNodes, hs.pos, (hbound bound rfl).1]

theorem diagnoses_paramList : Diagnoses source (n + 1) 1 (paramList expr) (paramList expr')
    fun ps => ∀ p ∈ ps, p.FitsIn source P := by
  refine (diagnoses_consume _).lead fun _ _ => ?_
  exact (diagnoses_separated (diagnoses_param hexpr)).bind fun ps hps => diagnoses_closed hps

theorem diagnoses_exprList (close : Kind) :
    Diagnoses source n 0 (exprList close expr) (exprList close expr') fun es => ∀ e ∈ es, e.FitsIn source P := by
  refine diagnoses_get fun s _ => ?_
  split
  · exact (diagnosesAt_pure (by simp)).bind fun es hes => diagnoses_closed hes
  · exact (diagnoses_separated hexpr s).bind fun es hes => diagnoses_closed hes

theorem diagnoses_bareStmt : Diagnoses source n 1 (bareStmt expr) (bareStmt expr') (Stmt.FitsIn source P) := by
  refine diagnoses_get fun s hs => ?_
  split
  · next hassertion =>
    obtain ⟨token, hcurrent, -⟩ := (Option.any_eq_true _ _).1 hassertion
    refine (diagnosesAt_advance hcurrent).lead fun _ _ => (diagnoses_consume _).bind fun _ _ => ?_
    refine hexpr.bind fun left hleft => (diagnoses_consume _).bind fun _ _ => ?_
    refine hexpr.bind fun right hright => diagnoses_closed ⟨?_, trivial, ?_⟩
    · simp [stmtNodes, hs.pos, hleft.1, hright.1]
    · simp [Stmt.children, hleft.2, hright.2]
  · refine ((diagnoses_take .letKw).skip fun found _ => ?_) s
    cases found with
    | true =>
      refine diagnoses_name.lead fun name hname => (diagnoses_consume _).bind fun _ _ => ?_
      refine hexpr.bind fun value hvalue => diagnoses_pure ⟨?_, hname, List.forall_mem_singleton.2 hvalue.2⟩
      simp [stmtNodes, hs.pos, hvalue.1]
    | false =>
      refine hexpr.lead fun value hvalue => diagnoses_pure ⟨?_, trivial, List.forall_mem_singleton.2 hvalue.2⟩
      simp [stmtNodes, hs.pos, hvalue.1]

theorem diagnoses_stmt : Diagnoses source n 1 (stmt expr) (stmt expr') (Stmt.FitsIn source P) := by
  refine (diagnoses_bareStmt hexpr).lead fun s hs => ?_
  exact (diagnoses_take _).bind fun _ _ => diagnoses_pure hs

theorem diagnoses_stmtBlock : Diagnoses source (n + 1) 1 (stmtBlock expr) (stmtBlock expr')
    fun ss => ∀ s ∈ ss, s.FitsIn source P := by
  refine (diagnoses_consume _).first fun _ _ => (diagnoses_consume _).bind fun _ _ => ?_
  refine (diagnoses_stmt hexpr).bind fun first hfirst => ?_
  refine (diagnoses_whileInBraces (diagnoses_stmt hexpr)).bind fun more hmore => ?_
  exact diagnoses_closed (List.forall_mem_cons.2 ⟨hfirst, hmore⟩)

theorem diagnoses_arm : Diagnoses source n 1 (arm expr) (arm expr')
    fun a => NodesIn source (armNodes [a]) ∧ ∀ c ∈ a.children, P c := by
  refine diagnoses_get fun s hs => (hexpr s).lead fun pattern hpattern => ?_
  refine (diagnoses_consume _).bind fun _ _ => hexpr.bind fun result hresult => diagnoses_pure ⟨?_, ?_⟩
  · simp [armNodes, hs.pos, hpattern.1, hresult.1]
  · simp [Arm.children, hpattern.2, hresult.2]

theorem diagnoses_property : Diagnoses source (n + 1) 1 (property expr) (property expr')
    fun p => NodesIn source (propertyNodes [p]) ∧ ∀ c ∈ p.children, P c := by
  refine diagnoses_get fun s hs => diagnoses_take_bind ?_ ?_ s
  · refine hexpr.bind fun key hkey => (diagnoses_consume _).bind fun _ _ => ?_
    refine (diagnoses_take _).bind fun optional _ => (diagnoses_consume _).bind fun _ _ => ?_
    refine hexpr.bind fun value hvalue => diagnoses_pure ⟨?_, ?_⟩
    · simp [propertyNodes, hs.pos, hkey.1, hvalue.1]
    · simp [Property.children, hkey.2, hvalue.2]
  · refine diagnoses_name.first fun name _ => (diagnoses_take _).bind fun optional _ => ?_
    refine (diagnoses_consume _).bind fun _ _ => hexpr.bind fun value hvalue => diagnoses_pure ?_
    refine ⟨?_, List.forall_mem_singleton.2 hvalue.2⟩
    simp [propertyNodes, hs.pos, hvalue.1]

theorem diagnoses_properties : Diagnoses source (n + 1) 0 (properties expr) (properties expr')
    fun ps => ∀ p ∈ ps, NodesIn source (propertyNodes [p]) ∧ ∀ c ∈ p.children, P c := by
  refine diagnoses_loop fun m hm again again' hagain => diagnoses_get fun s _ => ?_
  split
  · have hproperty := (diagnoses_property hexpr).mono hm (Nat.le_refl 1)
    refine ((hproperty s).first fun p hp => ?_).mono (Nat.le_refl _) (Nat.zero_le _) fun _ h => h
    refine diagnoses_takeSeparator.bind fun found _ => ?_
    cases found with
    | true => exact hagain.bind fun ps hps => diagnoses_pure (List.forall_mem_cons.2 ⟨hp, hps⟩)
    | false => exact diagnoses_pure (List.forall_mem_singleton.2 hp)
  · exact diagnosesAt_pure (by simp)

end

/-! ## Template strings -/

theorem diagnoses_templatePiece {start : Position} (hstart : start.InText source) :
    Diagnoses source n 1 (templatePiece start) (templatePiece start) fun piece => CutText piece.1.toList := by
  refine diagnoses_get fun s hs => ?_
  cases hcut : templateText s.cursor.rest with
  | none => exact diagnosesAt_fail fun _ => hstart
  | some cut =>
    obtain ⟨text, ending, rest⟩ := cut
    have hrest := templateText_append hcut
    have hlength := congrArg List.length hrest
    have hmark := ending.mark_length_pos
    rw [List.length_append, List.length_append] at hlength
    intro _ _
    refine ⟨⟨⟨hs.cursor.past hrest, hs.current, fun hnone => ?_⟩, ?_, ?_⟩, rfl⟩
    · -- text at the end of a text does not end
      rw [hs.ended hnone] at hcut
      cases hcut
    · simp only [Stream.size, Cursor.past]
      omega
    · simpa using cutText_of_templateText hcut

/-- A template string is cut into texts and expressions in turn. -/
theorem diagnoses_templateParts {expr expr' : Parser Expr} (hexpr : ExprDiagnoses source n P expr expr')
    {start : Position} (hstart : start.InText source) :
    Diagnoses source (n + 1) 1 (templateParts start expr) (templateParts start expr')
      fun ps => NodesIn source (partNodes ps) ∧ CutParts ps ∧ ∀ c ∈ ps.filterMap Part.child?, P c := by
  refine diagnoses_loop fun m hm again again' hagain => ?_
  refine (diagnoses_templatePiece hstart).first fun piece htext => diagnoses_rescan.bind fun _ _ => ?_
  obtain ⟨text, ending⟩ := piece
  cases ending with
  | backtick => exact diagnoses_pure ⟨by simp [partNodes], .last htext, List.forall_mem_nil _⟩
  | interpolation =>
    refine (hexpr.mono (Nat.le_of_lt_succ hm) (Nat.zero_le _)).bind fun e he => ?_
    refine (diagnoses_expectKind _).bind fun _ _ => hagain.bind fun ps hps => diagnoses_pure ?_
    exact ⟨by simp [partNodes, he.1, hps.1], .more htext hps.2.1, List.forall_mem_cons.2 ⟨he.2, hps.2.2⟩⟩

/-! ## Primary expressions -/

section

variable (hP : Inherits P)

include hP

section

variable {expr expr' : Parser Expr} (hexpr : ExprDiagnoses source n P expr expr')

include hexpr

theorem diagnoses_lambda {pos : Position} (hpos : pos.InText source) :
    ExprDiagnoses source (n + 1) P (lambda pos expr) (lambda pos expr') := by
  have hlast (ps : List Param) (hps : ∀ p ∈ ps, p.FitsIn source P) :
      Diagnoses source n 0 (do let _ ← consume .fatArrow; return Expr.lambda pos ps (← expr))
        (do let _ ← consume .fatArrow; return Expr.lambda pos ps (← expr')) (Expr.FitsIn source P) := by
    refine (diagnoses_consume _).bind fun _ _ => hexpr.bind fun body hbody => diagnoses_pure ⟨?_, ?_⟩
    · rw [Expr.nodes, nodesIn_cons, nodesIn_append, paramNodes_eq_flatMap, nodesIn_flatMap]
      exact ⟨hpos, fun p hp => (hps p hp).1, hbody.1⟩
    · refine hP _ (fun p hp => (hps p hp).2.1) (List.forall_mem_append.2 ⟨fun c hc => ?_, by simpa using hbody.2⟩)
      obtain ⟨p, hp, hc⟩ := List.mem_filterMap.1 hc
      exact (hps p hp).2.2 c hc
  refine diagnoses_get fun s _ => ?_
  split
  · refine (diagnoses_param hexpr s).first fun p hp => ?_
    exact (diagnoses_pure (P := fun ps => ∀ p ∈ ps, p.FitsIn source P) (List.forall_mem_singleton.2 hp)).bind hlast
  · split
    · refine (diagnoses_consume _ s).first fun _ _ => (diagnoses_consume _).bind fun _ _ => ?_
      exact (diagnoses_pure (List.forall_mem_nil _)).bind hlast
    · exact (diagnoses_paramList hexpr s).first hlast

theorem diagnoses_mappedBody {pos : Position} (hpos : pos.InText source) :
    Diagnoses source n 0 (mappedBody pos expr) (mappedBody pos expr') (Expr.FitsIn source P) := by
  refine (diagnoses_consume _).bind fun _ _ => diagnoses_name.bind fun key hkey => ?_
  refine (diagnoses_consume _).bind fun _ _ => hexpr.bind fun union hunion => ?_
  refine (diagnoses_behind hexpr _).bind fun renamed hrenamed => (diagnoses_consume _).bind fun _ _ => ?_
  refine (diagnoses_take _).bind fun optional _ => (diagnoses_consume _).bind fun _ _ => ?_
  refine hexpr.bind fun value hvalue => diagnoses_pure ⟨?_, hP _ hkey ?_⟩
  · cases renamed with
    | none => simp [hpos, hunion.1, hvalue.1]
    | some renamed => simp [hpos, hunion.1, hvalue.1, (hrenamed renamed rfl).1]
  · cases renamed with
    | none => simp [Expr.children, hunion.2, hvalue.2]
    | some renamed => simp [Expr.children, hunion.2, hvalue.2, (hrenamed renamed rfl).2]

theorem diagnoses_objectBody {pos : Position} (hpos : pos.InText source) :
    Diagnoses source n 0 (objectBody pos expr) (objectBody pos expr') (Expr.FitsIn source P) := by
  refine ((diagnoses_properties hexpr).mono (Nat.le_succ _) (Nat.le_refl _)).bind fun ps hps =>
    diagnoses_pure ⟨?_, hP _ trivial (List.forall_mem_flatMap.2 fun p hp => (hps p hp).2)⟩
  rw [Expr.nodes, nodesIn_cons, propertyNodes_eq_flatMap, nodesIn_flatMap]
  exact ⟨hpos, fun p hp => (hps p hp).1⟩

theorem diagnoses_braced {pos : Position} (hpos : pos.InText source) :
    ExprDiagnoses source (n + 1) P (braced pos expr) (braced pos expr') := by
  refine diagnoses_get fun s _ => (diagnoses_consume _ s).first fun _ _ => ?_
  split
  · exact (diagnoses_mappedBody hP hexpr hpos).bind fun e he => diagnoses_closed he
  · exact (diagnoses_objectBody hP hexpr hpos).bind fun e he => diagnoses_closed he

variable {token : Token} (hcurrent : s.current = some token)

include hcurrent

theorem diagnosesAt_conditional {pos : Position} (hpos : pos.InText source) :
    DiagnosesAt source (n + 1) s 1 (conditional pos expr) (conditional pos expr') (Expr.FitsIn source P) := by
  refine (diagnosesAt_advance hcurrent).first fun _ _ => hexpr.bind fun test htest => ?_
  refine (diagnoses_consume _).bind fun _ _ => hexpr.bind fun consequent hconsequent => ?_
  refine (diagnoses_consume _).bind fun _ _ => hexpr.bind fun alternate halternate => ?_
  refine diagnoses_pure ⟨?_, hP _ trivial ?_⟩
  · simp [hpos, htest.1, hconsequent.1, halternate.1]
  · simp [Expr.children, htest.2, hconsequent.2, halternate.2]

theorem diagnosesAt_matching {pos : Position} (hpos : pos.InText source) :
    DiagnosesAt source (n + 1) s 1 (matching pos expr) (matching pos expr') (Expr.FitsIn source P) := by
  refine (diagnosesAt_advance hcurrent).first fun _ _ => hexpr.bind fun scrutinee hscrutinee => ?_
  refine (diagnoses_consume _).bind fun _ _ => ?_
  refine (diagnoses_separated (diagnoses_arm hexpr)).bind fun arms harms => diagnoses_closed ⟨?_, hP _ trivial ?_⟩
  · rw [Expr.nodes, nodesIn_cons, nodesIn_append, armNodes_eq_flatMap, nodesIn_flatMap]
    exact ⟨hpos, hscrutinee.1, fun a ha => (harms a ha).1⟩
  · exact List.forall_mem_cons.2 ⟨hscrutinee.2, List.forall_mem_flatMap.2 fun a ha => (harms a ha).2⟩

/-- An atom takes the token it starts with; a token that starts none is reported where it stands. -/
theorem diagnosesAt_atom (hpos : token.pos.InText source) :
    DiagnosesAt source (n + 1) s 1 (atom token expr) (atom token expr') (Expr.FitsIn source P) := by
  have hleaf {e : Expr} {kind : NodeKind} (hwell : e.WellMade) (hnodes : e.nodes = [⟨token.pos, kind⟩])
      (hchildren : e.children = []) : e.FitsIn source P :=
    ⟨by simp [hnodes, hpos], hP e hwell (by simp [hchildren])⟩
  have hadvance : DiagnosesAt source (n + 1) s 1 advance advance fun t => t = token ∧ t.Spelled :=
    diagnosesAt_advance hcurrent
  unfold atom
  cases hkind : token.kind with
  | identifier =>
    refine hadvance.lead ?_
    rintro _ ⟨rfl, hspelled⟩
    exact diagnoses_pure (hleaf (hspelled.name hkind) rfl rfl)
  | number =>
    refine hadvance.lead ?_
    rintro _ ⟨rfl, hspelled⟩
    exact diagnoses_pure (hleaf (hspelled.number hkind) rfl rfl)
  | string => exact (diagnoses_stringLiteral s).lead fun _ _ => diagnoses_pure (hleaf trivial rfl rfl)
  | numberKw | stringKw => exact hadvance.lead fun _ _ => diagnoses_pure (hleaf trivial rfl rfl)
  | lparen => exact hadvance.first fun _ _ => hexpr.bind fun e he => diagnoses_closed he
  | lbracket =>
    refine hadvance.first fun _ _ => (diagnoses_exprList hexpr _).bind fun es hes => ?_
    refine diagnoses_pure ⟨?_, hP _ trivial fun e he => (hes e he).2⟩
    rw [Expr.nodes, nodesIn_cons, exprNodes_eq_flatMap, nodesIn_flatMap]
    exact ⟨hpos, fun e he => (hes e he).1⟩
  | lbrace => exact diagnoses_braced hP hexpr hpos s
  | colon =>
    refine (diagnoses_stmtBlock hexpr s).lead fun ss hss => diagnoses_pure ⟨?_, hP _ ?_ ?_⟩
    · rw [Expr.nodes, nodesIn_cons, stmtNodes_eq_flatMap, nodesIn_flatMap]
      exact ⟨hpos, fun s hs => (hss s hs).1⟩
    · exact fun s hs => (hss s hs).2.1
    · exact List.forall_mem_flatMap.2 fun s hs => (hss s hs).2.2
  | inferKw =>
    refine hadvance.first fun _ _ => diagnoses_name.bind fun name hname => ?_
    refine (diagnoses_behind hexpr _).bind fun bound hbound => diagnoses_pure ⟨?_, hP _ hname ?_⟩
    · cases bound with
      | none => simp [hpos]
      | some bound => simp [hpos, (hbound bound rfl).1]
    · exact fun c hc => (hbound c (Option.mem_toList.1 hc)).2
  | ifKw => exact diagnosesAt_conditional hP hexpr hcurrent hpos
  | matchKw => exact diagnosesAt_matching hP hexpr hcurrent hpos
  | _ => exact diagnosesAt_fail fun hs => ⟨token, hs.current token hcurrent, hkind, rfl⟩

end

/-! ## Operators -/

omit hP in
/-- Every token with a power stands for an operator. -/
theorem isSome_op_of_infixPower {kind : Kind} (h : (infixPower kind).isSome = true)
    (hspecial : kind ∉ [.assign, .dot, .lbracket, .lparen]) :
    (logicalOp? kind).isSome = true ∨ (binaryOp? kind).isSome = true := by
  revert h hspecial
  cases kind <;> decide

section

variable {exprAt exprAt' : Nat → Parser Expr}
  (hexpr : ∀ least, ExprDiagnoses source n P (exprAt least) (exprAt' least))

include hexpr

theorem diagnoses_primary :
    ExprDiagnoses source (n + 1) P (primary windowTest exprAt) (primary windowTest exprAt') := by
  refine diagnoses_get fun s hs => ?_
  cases hcurrent : s.current with
  | none => exact diagnosesAt_fail fun _ => hs.cursor_pos hcurrent
  | some token =>
    have hpos := (hs.current token hcurrent).inText
    have htest : windowTest (exprAt' 0) s = windowTest (exprAt 0) s := rfl
    simp only [htest]
    split
    · refine (diagnoses_templateParts (hexpr 0) hpos s).lead fun parts hparts => diagnoses_pure ?_
      exact ⟨by simp [hpos, hparts.1], hP _ hparts.2.1 hparts.2.2⟩
    · split
      · exact diagnoses_lambda hP (hexpr 0) hpos s
      · cases unaryOp? token.kind with
        | some op =>
          refine (diagnosesAt_advance hcurrent).first fun _ _ => (hexpr prefixPower).bind fun e he => ?_
          refine diagnoses_pure ⟨?_, hP _ trivial (List.forall_mem_singleton.2 he.2)⟩
          simp [hpos, he.1]
        | none => exact diagnosesAt_atom hP (hexpr 0) hcurrent hpos

/-- What stands behind an operator; only a target that is none is reported at the left operand. -/
theorem diagnoses_operation {op : Token} (hop : (infixPower op.kind).isSome = true) {lhs : Expr}
    (hlhs : lhs.FitsIn source P) (power : Nat) :
    Diagnoses source n 0 (operation exprAt op lhs power) (operation exprAt' op lhs power)
      (Expr.FitsIn source P) := by
  have hpos := inText_pos_of_nodesIn hlhs.1
  have hpair {rhs : Expr} (hrhs : rhs.FitsIn source P) : ∀ c ∈ [lhs, rhs], P c := by simp [hlhs.2, hrhs.2]
  unfold operation
  split
  · split
    · refine (hexpr power).bind fun value hvalue => diagnoses_pure ⟨?_, hP _ trivial (hpair hvalue)⟩
      simp [hpos, hlhs.1, hvalue.1]
    · exact fun _ => diagnosesAt_fail fun _ => hpos
  · refine diagnoses_name.bind fun name _ => diagnoses_pure ⟨?_, hP _ trivial ?_⟩
    · simp [hpos, hlhs.1]
    · exact List.forall_mem_singleton.2 hlhs.2
  · refine (hexpr 0).bind fun key hkey => diagnoses_closed ⟨?_, hP _ trivial (hpair hkey)⟩
    simp [hpos, hlhs.1, hkey.1]
  · refine (diagnoses_exprList (hexpr 0) _).bind fun args hargs => diagnoses_pure ⟨?_, hP _ trivial ?_⟩
    · rw [Expr.nodes, nodesIn_cons, nodesIn_append, exprNodes_eq_flatMap, nodesIn_flatMap]
      exact ⟨hpos, hlhs.1, fun e he => (hargs e he).1⟩
    · exact List.forall_mem_cons.2 ⟨hlhs.2, fun e he => (hargs e he).2⟩
  · next hassign hdot hlbracket hlparen =>
    split
    · refine (hexpr power).bind fun rhs hrhs => diagnoses_pure ⟨?_, hP _ trivial (hpair hrhs)⟩
      simp [hpos, hlhs.1, hrhs.1]
    · refine (hexpr power).bind fun rhs hrhs => diagnoses_pure ⟨?_, hP _ trivial (hpair hrhs)⟩
      simp [hpos, hlhs.1, hrhs.1]
    · next hlogical hbinary =>
      have hsome := isSome_op_of_infixPower hop (by simpa using ⟨hassign, hdot, hlbracket, hlparen⟩)
      rw [hlogical, hbinary] at hsome
      simp at hsome

theorem diagnoses_operatorTail (least : Nat) {lhs : Expr} (hlhs : lhs.FitsIn source P) :
    Diagnoses source (n + 1) 0 (operatorTail exprAt least lhs) (operatorTail exprAt' least lhs)
      (Expr.FitsIn source P) := by
  refine diagnoses_fix (P := Expr.FitsIn source P) (fun m hm again again' hagain lhs hlhs => ?_) hlhs
  refine diagnoses_get fun s _ => ?_
  split
  · exact diagnosesAt_pure hlhs
  · next left right hpower =>
    split
    · exact diagnosesAt_pure hlhs
    · obtain ⟨kind, hkind, hpower⟩ := Option.bind_eq_some_iff.1 hpower
      obtain ⟨token, hcurrent, rfl⟩ := Option.map_eq_some_iff.1 hkind
      have hexpr' (least : Nat) : ExprDiagnoses source m P (exprAt least) (exprAt' least) :=
        (hexpr least).mono (Nat.le_of_lt_succ hm) (Nat.le_refl _)
      refine ((diagnosesAt_advance hcurrent).first fun op hop => ?_).mono (Nat.le_refl _) (Nat.zero_le _)
        fun _ h => h
      obtain ⟨rfl, -⟩ := hop
      exact (diagnoses_operation hP hexpr' (by rw [hpower]; rfl) hlhs right).bind hagain

/-- One round of the recursion of expressions. -/
theorem diagnoses_descent (least : Nat) :
    ExprDiagnoses source (n + 1) P (descent exprAt least) (descent exprAt' least) :=
  (diagnoses_primary hP hexpr).lead fun _ hlhs => diagnoses_operatorTail hP hexpr least hlhs

end

/-- **The errors of expressions fit**, their nodes stand in the text, and they have what is
inherited. -/
theorem diagnoses_exprWith (least : Nat) :
    ExprDiagnoses source n P (exprWith windowTest least) (exprWith windowTest least) := by
  refine diagnoses_fix (P := fun _ => True) (fun m hm expr expr' hexpr least _ => ?_) trivial
  exact diagnoses_descent hP (fun least => hexpr least trivial) least

end

/-! ## Programs -/

section

variable {expr expr' : Parser Expr} (hexpr : ExprDiagnoses source n P expr expr')

include hexpr

theorem diagnoses_definition : Diagnoses source n 1 (definition expr) (definition expr')
    fun d => (TopLevel.definition d).FitsIn source P := by
  have hlast (pos : Position) (isExported : Bool) (name : String) (hpos : pos.InText source)
      (hname : isIdentifier name = true) (ps : List Param) (hps : ∀ p ∈ ps, p.FitsIn source P) :
      Diagnoses source n 0
        (do
          let _ ← consume .assign
          let body ← expr
          let _ ← take .semicolon
          return (⟨pos, isExported, name, ps, body⟩ : Definition))
        (do
          let _ ← consume .assign
          let body ← expr'
          let _ ← take .semicolon
          return (⟨pos, isExported, name, ps, body⟩ : Definition))
        fun d => (TopLevel.definition d).FitsIn source P := by
    refine (diagnoses_consume _).bind fun _ _ => hexpr.bind fun body hbody => ?_
    refine (diagnoses_take _).bind fun _ _ => diagnoses_pure ⟨?_, hname, fun p hp => (hps p hp).2, hbody.2⟩
    rw [TopLevel.nodes, nodesIn_cons, nodesIn_append, paramNodes_eq_flatMap, nodesIn_flatMap]
    exact ⟨hpos, fun p hp => (hps p hp).1, hbody.1⟩
  refine diagnoses_get fun s hs => ((diagnoses_take .exportKw).skip fun isExported _ => ?_) s
  refine (diagnoses_consume _).lead fun _ _ => diagnoses_name.bind fun name hname => ?_
  refine diagnoses_get fun t _ => ?_
  split
  · have hparams := (diagnoses_paramList hexpr).mono (Nat.le_succ _) (Nat.zero_le _)
    exact (hparams t).bind (hlast s.pos isExported name hs.pos hname)
  · exact (diagnosesAt_pure (List.forall_mem_nil _)).bind (hlast s.pos isExported name hs.pos hname)

theorem diagnoses_sectionOf : Diagnoses source n 1 (sectionOf expr) (sectionOf expr')
    fun d => (TopLevel.sectionOf d).FitsIn source P := by
  refine diagnoses_get fun s hs => (diagnoses_consume _ s).lead fun _ _ => ?_
  refine (diagnoses_consume _).bind fun _ _ => diagnoses_name.bind fun name hname => ?_
  refine (diagnoses_consume _).bind fun _ _ => ?_
  refine ((diagnoses_stmtBlock hexpr).mono (Nat.le_succ _) (Nat.zero_le _)).bind fun ss hss =>
    diagnoses_pure ⟨?_, hname, fun s hs => (hss s hs).2⟩
  rw [TopLevel.nodes, nodesIn_cons, stmtNodes_eq_flatMap, nodesIn_flatMap]
  exact ⟨hs.pos, fun s hs => (hss s hs).1⟩

omit hexpr in
theorem diagnoses_importOf :
    Diagnoses source n 1 importOf importOf fun d => (TopLevel.importOf d).FitsIn source P := by
  refine diagnoses_get fun s hs => (diagnoses_consume _ s).lead fun _ _ => ?_
  refine (diagnoses_consume _).bind fun _ _ => ?_
  refine (diagnoses_separated diagnoses_name).bind fun symbols hsymbols => ?_
  refine (diagnoses_consume _).bind fun _ _ => (diagnoses_consume _).bind fun _ _ => ?_
  refine diagnoses_stringLiteral.bind fun text _ => (diagnoses_take _).bind fun _ _ => diagnoses_pure ?_
  exact ⟨by simp [TopLevel.nodes, hs.pos], hsymbols⟩

/-- An item takes a token; a token that starts none is reported where it stands. -/
theorem diagnosesAt_topLevel {token : Token} (hcurrent : s.current = some token) :
    DiagnosesAt source n s 1 (topLevel token expr) (topLevel token expr') (TopLevel.FitsIn source P) := by
  unfold topLevel
  cases hkind : token.kind with
  | typeKw | exportKw => exact (diagnoses_definition hexpr s).lead fun d hd => diagnoses_pure hd
  | hash => exact (diagnoses_sectionOf hexpr s).lead fun d hd => diagnoses_pure hd
  | importKw => exact (diagnoses_importOf s).lead fun d hd => diagnoses_pure hd
  | _ => exact diagnosesAt_fail fun hs => ⟨token, hs.current token hcurrent, hkind, rfl⟩

theorem diagnoses_topLevels : Diagnoses source n 0 (topLevels expr) (topLevels expr')
    fun items => ∀ item ∈ items, item.FitsIn source P := by
  refine diagnoses_loop fun m hm again again' hagain => diagnoses_get fun s _ => ?_
  cases hcurrent : s.current with
  | none => exact diagnosesAt_pure (by simp)
  | some token =>
    have hexpr' : ExprDiagnoses source (m + 1) P expr expr' := hexpr.mono hm (Nat.le_refl _)
    refine ((diagnosesAt_topLevel hexpr' hcurrent).first fun item hitem => ?_).mono (Nat.le_refl _)
      (Nat.zero_le _) fun _ h => h
    exact hagain.bind fun items hitems => diagnoses_pure (List.forall_mem_cons.2 ⟨hitem, hitems⟩)

end

/-- Every property that is inherited is one of all expressions of a program. -/
theorem diagnoses_program (hP : Inherits P) : Diagnoses source n 0 (program windowTest) (program windowTest)
    fun program => NodesIn source program.nodes ∧ ∀ item ∈ program.body, item.Has P := by
  refine (diagnoses_topLevels (diagnoses_exprWith hP 0)).bind fun items hitems => ?_
  cases items with
  | nil => exact fun _ => diagnosesAt_fail fun _ => ⟨[], List.nil_prefix, rfl⟩
  | cons item items =>
    exact diagnoses_pure ⟨nodesIn_flatMap.2 fun a ha => (hitems a ha).1, fun a ha => (hitems a ha).2⟩

end Parser

/-- What parsing a text reports fits the text, and what it builds stands in it and has what
expressions inherit. -/
theorem parseProgram_fits_of_inherits (source : String) {P : Expr → Prop} (hP : Inherits P) :
    match parseProgram source with
    | .ok program => NodesIn source.toList program.nodes ∧ ∀ item ∈ program.body, item.Has P
    | .error e => e.value.Fits source.toList e.pos := by
  obtain ⟨s, hok, hs, -⟩ | ⟨pos, error, herror, hpos⟩ :=
    Stream.ofCursor_cases (Cursor.within_ofString source)
  · have hrun := (Parser.diagnoses_program hP s hs (Nat.lt_succ_self _)).1
    rw [parseProgram, Parser.parse_of_ofString _ hok]
    cases hp : Parser.program Parser.windowTest s with
    | error e =>
      rw [hp] at hrun
      exact hrun
    | ok r =>
      rw [hp] at hrun
      exact hrun.2.2
  · rw [parseProgram, Stream.ofString, herror]
    exact hpos

/-- **What parsing a text reports fits the text, and what it builds stands in it.** -/
theorem parseProgram_fits (source : String) :
    match parseProgram source with
    | .ok program => NodesIn source.toList program.nodes
    | .error e => e.value.Fits source.toList e.pos := by
  have hfits := parseProgram_fits_of_inherits source (P := fun _ => True) fun _ _ _ => trivial
  cases hparse : parseProgram source with
  | error e => simpa only [hparse] using hfits
  | ok program =>
    rw [hparse] at hfits
    exact hfits.1

end TypeForge
