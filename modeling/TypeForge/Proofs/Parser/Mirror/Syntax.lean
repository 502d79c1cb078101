import TypeForge.Proofs.Parser.Mirror

/-!
# Syntax inside another text

Every production follows itself from a stream to one that mirrors it, and gives the same syntax
tree at other positions.  Each one only has to be known not to stop at the end of the first
text for want of a token that the second text may have.

Template strings are read character by character, so that mirroring tokens is not enough for
them; what is needed of them is assumed.
-/

namespace TypeForge

namespace Parser

/-- Template strings are followed by their parts, given that expressions are. -/
def MimicsTemplates (f : Position → Position) (rel : Stream → Stream → Prop) : Prop :=
  ∀ ⦃p q : Parser Expr⦄, Mimics rel (Expr.relocated f) p q → ∀ ⦃s t : Stream⦄ ⦃token : Token⦄,
    rel s t → s.current = some token → token.kind = .backtick →
    MimicsAt rel Anywhere (List.map (Part.relocated f)) s t (templateParts token.pos p)
      (templateParts (f token.pos) q)

variable {f : Position → Position} {rel : Stream → Stream → Prop} {p q : Parser Expr}

section

variable (hmirror : Mirroring f rel) (hp : Mimics rel (Expr.relocated f) p q)

include hmirror hp

/-! ## Lists of parts -/

theorem mimics_param : Mimics rel (Param.relocated f) (param p) (param q) := by
  refine mimicsTo_get_needy (fun s t token hrel hs => ?_) (needy_get fun s => needy_name.bind _)
  rw [hmirror.pos_eq hrel hs]
  refine (mimics_name hmirror hrel).bind fun name => ?_
  exact (mimics_takeThen hmirror rfl hp).map fun _ => by simp

theorem mimics_paramList :
    Mimics rel (List.map (Param.relocated f)) (paramList p) (paramList q) := by
  refine (mimics_consume hmirror .lparen).bind fun _ => ?_
  refine (mimics_separated hmirror rfl (mimics_param hmirror hp)).bind fun params => ?_
  exact (mimics_consume hmirror .rparen).map fun _ => rfl

theorem mimics_exprList {close : Kind} (hclose : close.startsItem = false) :
    Mimics rel (List.map (Expr.relocated f)) (exprList close p) (exprList close q) := by
  refine mimicsTo_get fun s t hrel => ?_
  rw [hmirror.at?_eq hrel hclose]
  have hclosed (es : List Expr) : Mimics rel (List.map (Expr.relocated f))
      (do let _ ← consume close; return es)
      (do let _ ← consume close; return es.map (Expr.relocated f)) :=
    (mimics_consume hmirror close).map fun _ => rfl
  cases s.at? close with
  | true => exact hclosed [] hrel
  | false => exact (mimics_separated hmirror rfl hp hrel).bind hclosed

theorem mimics_bareStmt (hneedy : Needy p) :
    Mimics rel (Stmt.relocated f) (bareStmt p) (bareStmt q) := by
  refine mimicsTo_get_needy (fun s t token hrel hs => ?_) (needy_get fun s => ?_)
  · rw [hmirror.pos_eq hrel hs, hmirror.startsAssertion_eq hrel hs]
    cases startsAssertion s with
    | true =>
      refine (mimics_advance hmirror hrel).bind fun _ => ?_
      refine (mimics_consume hmirror .lparen).bind fun _ => hp.bind fun left => ?_
      refine (mimics_consume hmirror .comma).bind fun _ => hp.bind fun right => ?_
      exact (mimics_consume hmirror .rparen).map fun _ => rfl
    | false =>
      refine (mimics_take hmirror rfl hrel).bind fun found => ?_
      cases found with
      | true =>
        refine (mimics_name hmirror).bind fun name => ?_
        exact (mimics_consume hmirror .assign).bind fun _ => hp.map fun _ => rfl
      | false => exact hp.map fun _ => rfl
  · cases startsAssertion s with
    | true => exact needy_advance.bind _
    | false => exact needy_take_bind (hneedy.bind _)

theorem mimics_stmt (hneedy : Needy p) : Mimics rel (Stmt.relocated f) (stmt p) (stmt q) :=
  (mimics_bareStmt hmirror hp hneedy).bind fun _ => (mimics_take hmirror rfl).map fun _ => rfl

theorem mimics_stmtBlock (hneedy : Needy p) :
    Mimics rel (List.map (Stmt.relocated f)) (stmtBlock p) (stmtBlock q) := by
  have hstmt := mimics_stmt hmirror hp hneedy
  refine (mimics_consume hmirror .colon).bind fun _ => ?_
  refine (mimics_consume hmirror .lbrace).bind fun _ => hstmt.bind fun first => ?_
  refine (mimicsTo_whileInBraces hmirror hstmt).bind_needy (fun more => ?_)
    fun _ => (needy_consume .rbrace).bind _
  exact (mimics_consume hmirror .rbrace).map fun _ => rfl

theorem mimics_arm (hneedy : Needy p) : Mimics rel (Arm.relocated f) (arm p) (arm q) := by
  refine mimicsTo_get_needy (fun s t token hrel hs => ?_) (needy_get fun s => hneedy.bind _)
  rw [hmirror.pos_eq hrel hs]
  refine (hp hrel).bind fun pattern => ?_
  exact (mimics_consume hmirror .thinArrow).bind fun _ => hp.map fun _ => rfl

theorem mimics_property : Mimics rel (Property.relocated f) (property p) (property q) := by
  refine mimicsTo_get_needy (fun s t token hrel hs => ?_)
    (needy_get fun s => needy_take_bind (needy_name.bind _))
  rw [hmirror.pos_eq hrel hs]
  refine (mimics_take hmirror rfl hrel).bind fun found => ?_
  cases found with
  | true =>
    refine hp.bind fun key => (mimics_consume hmirror .rbracket).bind fun _ => ?_
    refine (mimics_take hmirror rfl).bind fun optional => ?_
    exact (mimics_consume hmirror .colon).bind fun _ => hp.map fun _ => rfl
  | false =>
    refine (mimics_name hmirror).bind fun name => (mimics_take hmirror rfl).bind fun optional => ?_
    exact (mimics_consume hmirror .colon).bind fun _ => hp.map fun _ => rfl

omit hp in
theorem mimics_takeSeparator : Mimics rel id takeSeparator takeSeparator := by
  refine (mimics_take hmirror rfl).bind fun found => ?_
  cases found with
  | true => exact mimicsTo_pure rfl
  | false => exact mimics_take hmirror rfl

/-- Properties are followed if there is a brace that closes them. -/
theorem mimicsTo_properties :
    MimicsTo rel HasToken (List.map (Property.relocated f)) (properties p) (properties q) := by
  refine mimicsTo_loop hmirror fun again again' hagain => mimicsTo_inBraces hmirror ?_
  refine (mimics_property hmirror hp).bind fun property => ?_
  refine (mimics_takeSeparator hmirror).bind fun found => ?_
  cases found with
  | true => exact hagain.map fun _ => rfl
  | false => exact mimicsTo_pure rfl

/-! ## Primary expressions -/

theorem mimics_lambda (pos : Position) :
    Mimics rel (Expr.relocated f) (lambda pos p) (lambda (f pos) q) := by
  have hbody (params : List Param) : Mimics rel (Expr.relocated f)
      (do let _ ← consume .fatArrow; return .lambda pos params (← p))
      (do let _ ← consume .fatArrow
          return .lambda (f pos) (params.map (Param.relocated f)) (← q)) :=
    (mimics_consume hmirror .fatArrow).bind fun _ => hp.map fun _ => by simp
  refine mimicsTo_get fun s t hrel => ?_
  have hat : t.at? .lparen = s.at? .lparen := hmirror.at?_eq hrel rfl
  rw [hat]
  cases hopen : s.at? .lparen with
  | false => exact (mimics_param hmirror hp hrel).bind fun param => hbody [param]
  | true =>
    obtain ⟨token, hs, -⟩ := current_of_at? hopen
    rw [hmirror.any_peek_rparen_eq hrel hs]
    cases (s.cursor.peek 1).any fun token => token.kind == .rparen with
    | true =>
      refine (mimics_consume hmirror .lparen hrel).bind fun _ => ?_
      exact (mimics_consume hmirror .rparen).bind fun _ => hbody []
    | false => exact (mimics_paramList hmirror hp hrel).bind hbody

omit hmirror hp in
/-- At the end of the text there are no properties. -/
theorem run_properties_of_ended {s : Stream} (hs : s.current = none) :
    properties p s = .ok ([], s) := by
  have hout : s.inBraces = false := by simp [Stream.inBraces, Stream.kind?, hs]
  rw [properties, run_fix, run_get, hout]
  rfl

theorem mimics_mappedBody (pos : Position) :
    Mimics rel (Expr.relocated f) (mappedBody pos p) (mappedBody (f pos) q) := by
  refine (mimics_consume hmirror .lbracket).bind fun _ => (mimics_name hmirror).bind fun key => ?_
  refine (mimics_consume hmirror .inKw).bind fun _ => hp.bind fun union => ?_
  refine (mimics_takeThen hmirror rfl hp).bind fun renamed => ?_
  refine (mimics_consume hmirror .rbracket).bind fun _ => ?_
  refine (mimics_take hmirror rfl).bind fun optional => ?_
  exact (mimics_consume hmirror .colon).bind fun _ => hp.map fun _ => by simp

theorem mimicsTo_objectBody (pos : Position) :
    MimicsTo rel HasToken (Expr.relocated f) (objectBody pos p) (objectBody (f pos) q) :=
  (mimicsTo_properties hmirror hp).map fun _ => by simp

omit hmirror hp in
/-- Nothing to be seen behind a cursor is the end of the text. -/
theorem current_of_peek_eq_nil {cur : Cursor} {s : Stream} {n : Nat}
    (h : Stream.ofCursor cur = .ok s) (hpeek : cur.peek (n + 1) = []) : s.current = none := by
  unfold Stream.ofCursor at h
  rw [Cursor.peek] at hpeek
  rcases hnext : cur.next with ⟨_ | ⟨_ | token⟩, cur'⟩ <;> rw [hnext] at h hpeek <;> cases h
  · rfl
  · cases hpeek

omit hmirror hp in
/-- What is in braces is closed by one. -/
theorem needy_inBraces (isMapped : Bool) (pos : Position) (p : Parser Expr) :
    Needy (do
      let e ← if isMapped then mappedBody pos p else objectBody pos p
      let _ ← consume .rbrace
      return e) := by
  cases isMapped with
  | true => exact ((needy_consume .lbracket).bind _).bind _
  | false =>
    intro s hs r hrun
    obtain ⟨e, s₁, hbody, hclose⟩ := run_bind_eq_ok hrun
    obtain ⟨properties, s₂, hproperties, hrest⟩ := run_bind_eq_ok hbody
    rw [run_properties_of_ended hs] at hproperties
    cases hproperties
    cases hrest
    exact (needy_consume .rbrace).bind _ s hs r hclose

theorem mimics_braced (pos : Position) :
    Mimics rel (Expr.relocated f) (braced pos p) (braced (f pos) q) := by
  refine mimicsTo_get_needy (fun s t token hrel hs => ?_)
    (needy_get fun s => (needy_consume .lbrace).bind _)
  by_cases hpeek : s.cursor.peek 4 = []
  · intro e s' hrun
    obtain ⟨_, s₁, hrun₁, hrun₂⟩ := run_bind_eq_ok hrun
    obtain ⟨-, hadvance⟩ := run_consume_eq_ok hrun₁
    have hended := current_of_peek_eq_nil (ofCursor_of_advance hadvance) hpeek
    exact absurd hrun₂ (needy_inBraces _ pos p s₁ hended _)
  · rw [hmirror.startsMapped_eq hrel hs hpeek]
    refine (mimics_consume hmirror .lbrace hrel).bind fun _ => ?_
    cases startsMapped s with
    | true =>
      refine (mimics_mappedBody hmirror hp pos).bind fun e => ?_
      exact (mimics_consume hmirror .rbrace).map fun _ => rfl
    | false =>
      refine (mimicsTo_objectBody hmirror hp pos).bind_needy (fun e => ?_)
        fun _ => (needy_consume .rbrace).bind _
      exact (mimics_consume hmirror .rbrace).map fun _ => rfl

theorem mimics_conditional (pos : Position) :
    Mimics rel (Expr.relocated f) (conditional pos p) (conditional (f pos) q) := by
  refine (mimics_advance hmirror).bind fun _ => hp.bind fun test => ?_
  refine (mimics_consume hmirror .thenKw).bind fun _ => hp.bind fun consequent => ?_
  exact (mimics_consume hmirror .elseKw).bind fun _ => hp.map fun _ => rfl

theorem mimics_matching (hneedy : Needy p) (pos : Position) :
    Mimics rel (Expr.relocated f) (matching pos p) (matching (f pos) q) := by
  refine (mimics_advance hmirror).bind fun _ => hp.bind fun scrutinee => ?_
  refine (mimics_consume hmirror .lbrace).bind fun _ => ?_
  refine (mimics_separated hmirror rfl (mimics_arm hmirror hp hneedy)).bind fun arms => ?_
  exact (mimics_consume hmirror .rbrace).map fun _ => by simp

theorem mimics_atom (hneedy : Needy p) (token : Token) :
    Mimics rel (Expr.relocated f) (atom token p) (atom (token.relocated f) q) := by
  unfold atom
  rw [Token.kind_relocated]
  cases token.kind with
  | identifier | number => exact (mimics_advance hmirror).map fun _ => rfl
  | string => exact (mimics_stringLiteral hmirror).map fun _ => rfl
  | numberKw | stringKw => exact (mimics_advance hmirror).map fun _ => rfl
  | lparen =>
    refine (mimics_advance hmirror).bind fun _ => hp.bind fun e => ?_
    exact (mimics_consume hmirror .rparen).map fun _ => rfl
  | lbracket =>
    refine (mimics_advance hmirror).bind fun _ => ?_
    exact (mimics_exprList hmirror hp rfl).map fun _ => by simp
  | lbrace => exact mimics_braced hmirror hp token.pos
  | colon => exact (mimics_stmtBlock hmirror hp hneedy).map fun _ => by simp
  | inferKw =>
    refine (mimics_advance hmirror).bind fun _ => (mimics_name hmirror).bind fun name => ?_
    exact (mimics_takeThen hmirror rfl hp).map fun _ => by simp
  | ifKw => exact mimics_conditional hmirror hp token.pos
  | matchKw => exact mimics_matching hmirror hp hneedy token.pos
  | _ => exact mimicsTo_fail

end

/-! ## Operators -/

variable {e e' : Nat → Parser Expr}

theorem needy_primary (e : Nat → Parser Expr) : Needy (primary windowTest e) := by
  intro s hs r hrun
  rw [primary, run_get, hs] at hrun
  cases hrun

theorem mimics_primary (hmirror : Mirroring f rel) (htemplates : MimicsTemplates f rel)
    (he : ∀ n, Mimics rel (Expr.relocated f) (e n) (e' n)) (hneedy : ∀ n, Needy (e n)) :
    Mimics rel (Expr.relocated f) (primary windowTest e) (primary windowTest e') := by
  refine mimicsTo_get_needy (fun s t token hrel hs => ?_) (needy_primary e)
  have htest : windowTest (e' 0) t = windowTest (e 0) s := hmirror.startsLambda_eq hrel hs
  rw [hs, hmirror.current hrel hs]
  simp only [htest, Token.kind_relocated]
  by_cases htick : token.kind = .backtick
  · simp only [htick, if_true]
    refine (htemplates (he 0) hrel hs htick).bind fun parts => mimicsTo_pure ?_
    simp
  · simp only [htick, if_false]
    cases windowTest (e 0) s with
    | true => exact mimics_lambda hmirror (he 0) token.pos hrel
    | false =>
      cases unaryOp? token.kind with
      | some op =>
        exact (mimics_advance hmirror hrel).bind fun _ => (he prefixPower).map fun _ => rfl
      | none => exact mimics_atom hmirror (he 0) (hneedy 0) token hrel

theorem mimics_operation (hmirror : Mirroring f rel)
    (he : ∀ n, Mimics rel (Expr.relocated f) (e n) (e' n)) (op : Token) (lhs : Expr) (power : Nat) :
    Mimics rel (Expr.relocated f) (operation e op lhs power)
      (operation e' (op.relocated f) (lhs.relocated f) power) := by
  unfold operation
  rw [Token.kind_relocated, Expr.isTarget_relocated, Expr.pos_relocated]
  split
  · by_cases htarget : lhs.isTarget = true
    · simp only [htarget, if_true]
      exact (he power).map fun _ => rfl
    · simp only [htarget]
      exact mimicsTo_fail
  · exact (mimics_name hmirror).map fun _ => rfl
  · refine (he 0).bind fun key => ?_
    exact (mimics_consume hmirror .rbracket).map fun _ => rfl
  · exact (mimics_exprList hmirror (he 0) rfl).map fun _ => by simp
  · split
    · exact (he power).map fun _ => rfl
    · exact (he power).map fun _ => rfl
    · exact mimicsTo_fail

theorem mimics_operatorTail (hmirror : Mirroring f rel)
    (he : ∀ n, Mimics rel (Expr.relocated f) (e n) (e' n)) (least : Nat) (lhs : Expr) :
    Mimics rel (Expr.relocated f) (operatorTail e least lhs)
      (operatorTail e' least (lhs.relocated f)) := by
  refine mimicsTo_fix hmirror (fun again again' hagain _ lhs => ?_) lhs
  refine mimicsTo_get fun s t hrel => ?_
  rw [hmirror.infixPower_eq hrel]
  cases s.kind?.bind infixPower with
  | none => exact mimicsTo_pure rfl hrel
  | some power =>
    by_cases hless : power.1 < least
    · simp only [hless, if_true]
      exact mimicsTo_pure rfl hrel
    · simp only [hless, if_false]
      refine (mimics_advance hmirror hrel).bind fun op => ?_
      exact (mimics_operation hmirror he op lhs power.2).bind hagain

theorem needy_exprWith (least : Nat) : Needy (exprWith windowTest least) := by
  intro s hs r hrun
  rw [exprWith, run_fix] at hrun
  exact (needy_primary _).bind _ s hs r hrun

/-- **Expressions are read alike inside another text.** -/
theorem mimics_exprWith (hmirror : Mirroring f rel) (htemplates : MimicsTemplates f rel)
    (least : Nat) :
    Mimics rel (Expr.relocated f) (exprWith windowTest least) (exprWith windowTest least) := by
  refine mimicsTo_fix hmirror (g := id) (fun again again' hagain hneedy n => ?_) least
  have hcalls (m : Nat) : Needy (again m) := hneedy m (needy_exprWith m)
  refine (mimics_primary hmirror htemplates hagain hcalls).bind fun lhs => ?_
  exact mimics_operatorTail hmirror hagain n lhs

/-! ## Items -/

section

variable (hmirror : Mirroring f rel) (hp : Mimics rel (Expr.relocated f) p q)

include hmirror hp

theorem mimics_definition : Mimics rel (Definition.relocated f) (definition p) (definition q) := by
  refine mimicsTo_get_needy (fun s t token hrel hs => ?_)
    (needy_get fun s => needy_take_bind ((needy_consume .typeKw).bind _))
  rw [hmirror.pos_eq hrel hs]
  have hat : t.at? .exportKw = s.at? .exportKw := by
    rw [Stream.at?, Stream.at?, hmirror.kind?_eq hrel hs]
  refine (mimicsAt_take hmirror hrel hat).bind fun isExported => ?_
  refine (mimics_consume hmirror .typeKw).bind fun _ => (mimics_name hmirror).bind fun name => ?_
  have hbody (params : List Param) : Mimics rel (Definition.relocated f)
      (do let _ ← consume .assign
          let body ← p
          let _ ← take .semicolon
          return ⟨s.pos, isExported, name, params, body⟩)
      (do let _ ← consume .assign
          let body ← q
          let _ ← take .semicolon
          return ⟨f s.pos, isExported, name, params.map (Param.relocated f), body⟩) := by
    refine (mimics_consume hmirror .assign).bind fun _ => hp.bind fun body => ?_
    exact (mimics_take hmirror rfl).map fun _ => rfl
  refine mimicsTo_get fun s₁ t₁ hrel₁ => ?_
  have hopen : t₁.at? .lparen = s₁.at? .lparen := hmirror.at?_eq hrel₁ rfl
  rw [hopen]
  cases s₁.at? .lparen with
  | true => exact (mimics_paramList hmirror hp hrel₁).bind hbody
  | false => exact hbody [] hrel₁

theorem mimics_sectionOf (hneedy : Needy p) :
    Mimics rel (Section.relocated f) (sectionOf p) (sectionOf q) := by
  refine mimicsTo_get_needy (fun s t token hrel hs => ?_)
    (needy_get fun s => (needy_consume .hash).bind _)
  rw [hmirror.pos_eq hrel hs]
  refine (mimics_consume hmirror .hash hrel).bind fun _ => ?_
  refine (mimics_consume hmirror .lbracket).bind fun _ => (mimics_name hmirror).bind fun name => ?_
  refine (mimics_consume hmirror .rbracket).bind fun _ => ?_
  exact (mimics_stmtBlock hmirror hp hneedy).map fun _ => rfl

omit hp in
theorem mimics_importOf : Mimics rel (Import.relocated f) importOf importOf := by
  refine mimicsTo_get_needy (fun s t token hrel hs => ?_)
    (needy_get fun s => (needy_consume .importKw).bind _)
  rw [hmirror.pos_eq hrel hs]
  refine (mimics_consume hmirror .importKw hrel).bind fun _ => ?_
  refine (mimics_consume hmirror .lbrace).bind fun _ => ?_
  refine (mimics_separated hmirror rfl (mimics_name hmirror)).bind fun symbols => ?_
  refine (mimics_consume hmirror .rbrace).bind fun _ => ?_
  refine (mimics_consume hmirror .fromKw).bind fun _ => ?_
  refine (mimics_stringLiteral hmirror).bind fun source => ?_
  exact (mimics_take hmirror rfl).map fun _ => by simp [Import.relocated]

theorem mimics_topLevel (hneedy : Needy p) (token : Token) :
    Mimics rel (TopLevel.relocated f) (topLevel token p) (topLevel (token.relocated f) q) := by
  unfold topLevel
  rw [Token.kind_relocated]
  cases token.kind with
  | typeKw | exportKw => exact (mimics_definition hmirror hp).map fun _ => rfl
  | hash => exact (mimics_sectionOf hmirror hp hneedy).map fun _ => rfl
  | importKw => exact (mimics_importOf hmirror).map fun _ => rfl
  | _ => exact mimicsTo_fail

/-- **The items of a text are read alike inside another one**, in front of what that one gives
behind the end of the text. -/
theorem exists_run_topLevels (hneedy : Needy p) {tail : List TopLevel}
    (hended : ∀ s t, rel s t → s.current = none → ∃ t', topLevels q t = .ok (tail, t')) :
    ∀ ⦃s t : Stream⦄, rel s t → ∀ items s', topLevels p s = .ok (items, s') →
      ∃ t', topLevels q t = .ok (items.map (TopLevel.relocated f) ++ tail, t') := by
  intro s
  induction hn : s.size using Nat.strongRecOn generalizing s with
  | ind n ih =>
    intro t hrel items s' hrun
    cases hs : s.current with
    | none =>
      rw [topLevels, run_fix, run_get, hs] at hrun
      cases hrun
      exact hended s t hrel hs
    | some token =>
      rw [topLevels, run_fix, run_get, hs] at hrun
      rw [topLevels, run_fix, run_get, hmirror.current hrel hs]
      obtain ⟨item, s₁, hitem, hrun₁⟩ := run_bind_eq_ok hrun
      obtain ⟨more, s₂, hmore, hrun₂⟩ := run_bind_eq_ok hrun₁
      cases hrun₂
      obtain ⟨hlt, hmore'⟩ := run_below_eq_ok hmore
      obtain ⟨t₁, hitem', hrel₁⟩ := mimics_topLevel hmirror hp hneedy token hrel item s₁ hitem trivial
      obtain ⟨t₂, hmore''⟩ := ih s₁.size (hn ▸ hlt) rfl hrel₁ more s' hmore'
      have hagain := (run_below (hmirror.size hrel hrel₁ hlt)).trans hmore''
      exact ⟨t₂, (run_bind hitem' _).trans ((run_bind hagain _).trans rfl)⟩

end

end Parser

end TypeForge
