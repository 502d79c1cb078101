import TypeForge.Proofs.Parser.Positions
import TypeForge.Proofs.Parser.Spelling

/-!
# Nodes are in order, and leaves are where they say

Every production adds the nodes of its result to what has been listed, if its subparsers do.  A node
is listed when its first token is the current one, before anything of it is read; an operator is listed
when its left operand has been, in front of the nodes of that.
-/

namespace TypeForge

/-- The positions of the nodes never decrease, and those of the leaves increase. -/
structure InOrder (nodes : List Node) : Prop where
  positions : nodes.Pairwise fun a b => ¬ b.pos.Before a.pos
  leaves : (nodes.filter fun node => node.value.isLeaf).Pairwise fun a b => a.pos.Before b.pos

theorem Laid.inOrder {source : List Char} {p : Position} {record : Record} (h : Laid source p record) :
    InOrder record.nodes := by
  refine ⟨h.sorted.imp fun hab => hab.1, ?_⟩
  refine (h.sorted.filter _).imp_of_mem fun ha _ hab => hab.2 ?_
  exact (List.mem_filter.1 ha).2

/-- The expressions that a top-level item consists of. -/
def TopLevel.children : TopLevel → List Expr
  | .definition d => d.params.filterMap Param.bound ++ [d.body]
  | .sectionOf s => s.body.flatMap Stmt.children
  | .importOf _ => []

namespace Parser

attribute [local simp] Expr.nodes

variable {source : List Char} {s : Stream} {k : Record} {expr : Parser Expr}

/-! ## Parts of expressions -/

section

variable (hexpr : Lays source expr Expr.nodes fun e => [e])

include hexpr

theorem lays_takeThen (kind : Kind) :
    Lays source (takeThen kind expr) (fun found => found.toList.flatMap Expr.nodes) Option.toList := by
  intro s k
  refine (nodeless_take kind s k).bind fun found t => ?_
  split
  · refine (hexpr t k).bind fun e u => laysAt_pure fun h => ?_
    simpa using h
  · refine laysAt_pure fun h => ?_
    simpa using h

theorem lays_param : Lays source (param expr) (fun p => paramNodes [p]) fun p => p.bound.toList := by
  intro s k
  refine laysAt_get (.push .param rfl rfl ?_)
  refine (nodeless_name s _).bind fun name t => (lays_takeThen hexpr .colon t _).bind fun bound u => ?_
  refine laysAt_pure fun h => ?_
  cases bound with
  | none => simpa [paramNodes, Param.bound] using h
  | some bound => simpa [paramNodes, Param.bound] using h

theorem lays_paramList : Lays source (paramList expr) paramNodes (List.filterMap Param.bound) := by
  intro s k
  refine (nodeless_consume .lparen s k).bind fun _ t => ?_
  refine (lays_separated (lays_param hexpr) .comma t k).bind fun params u => ?_
  refine (nodeless_consume .rparen u _).bind fun _ v => laysAt_pure fun h => ?_
  rwa [paramNodes_eq_flatMap, List.filterMap_eq_flatMap_toList]

theorem lays_exprList (close : Kind) : Lays source (exprList close expr) exprNodes id := by
  intro s k
  have hlast (es : List Expr) (t : Stream) : LaysAt source t (do let _ ← consume close; return es)
      (k.add (es.flatMap Expr.nodes) (es.flatMap fun e => [e])) fun es => k.add (exprNodes es) es := by
    refine (nodeless_consume close t _).bind fun _ u => laysAt_pure fun h => ?_
    rw [exprNodes_eq_flatMap]
    simpa using h
  refine laysAt_get ?_
  split
  · exact (lays_nil s k).bind hlast
  · exact (lays_separated hexpr .comma s k).bind hlast

theorem lays_bareStmt : Lays source (bareStmt expr) (fun s => stmtNodes [s]) Stmt.children := by
  intro s k
  refine laysAt_get ?_
  split
  · refine .push .assertEqual rfl rfl ((nodeless_advance s _).bind fun _ s₁ => ?_)
    refine (nodeless_consume .lparen s₁ _).bind fun _ s₂ => (hexpr s₂ _).bind fun left s₃ => ?_
    refine (nodeless_consume .comma s₃ _).bind fun _ s₄ => (hexpr s₄ _).bind fun right s₅ => ?_
    refine (nodeless_consume .rparen s₅ _).bind fun _ s₆ => laysAt_pure fun h => ?_
    simpa [stmtNodes, Stmt.children] using h
  · -- the node is that of a let if `let` is there
    have hfirst : LaysAt source s (take .letKw) k fun found =>
        k.add [⟨s.pos, if found then .letDecl else .exprStmt⟩] [] :=
      (nodeless_take .letKw).push _ (fun found => by cases found <;> rfl) s k
    refine hfirst.bind fun found s₁ => ?_
    split
    · next hfound =>
      refine (nodeless_name s₁ _).bind fun name s₂ => (nodeless_consume .assign s₂ _).bind fun _ s₃ => ?_
      refine (hexpr s₃ _).bind fun value s₄ => laysAt_pure fun h => ?_
      simpa [stmtNodes, Stmt.children, hfound] using h
    · next hfound =>
      refine (hexpr s₁ _).bind fun value s₂ => laysAt_pure fun h => ?_
      simpa [stmtNodes, Stmt.children, hfound] using h

theorem lays_stmt : Lays source (stmt expr) (fun s => stmtNodes [s]) Stmt.children := by
  intro s k
  refine (lays_bareStmt hexpr s k).bind fun stmt t => (nodeless_take .semicolon t _).bind fun _ u => ?_
  exact laysAt_pure id

theorem lays_stmtBlock : Lays source (stmtBlock expr) stmtNodes (List.flatMap Stmt.children) := by
  intro s k
  refine (nodeless_consume .colon s k).bind fun _ s₁ => (nodeless_consume .lbrace s₁ k).bind fun _ s₂ => ?_
  refine (lays_stmt hexpr s₂ k).bind fun first s₃ => ?_
  refine (lays_whileInBraces (lays_stmt hexpr) s₃ _).bind fun more s₄ => ?_
  refine (nodeless_consume .rbrace s₄ _).bind fun _ s₅ => laysAt_pure fun h => ?_
  rw [stmtNodes_eq_flatMap]
  simpa using h

theorem lays_arm : Lays source (arm expr) (fun a => armNodes [a]) Arm.children := by
  intro s k
  refine laysAt_get (.push .arm rfl rfl ?_)
  refine (hexpr s _).bind fun pattern s₁ => (nodeless_consume .thinArrow s₁ _).bind fun _ s₂ => ?_
  refine (hexpr s₂ _).bind fun result s₃ => laysAt_pure fun h => ?_
  simpa [armNodes, Arm.children] using h

theorem lays_property : Lays source (property expr) (fun p => propertyNodes [p]) Property.children := by
  intro s k
  refine laysAt_get (.push .property rfl rfl ?_)
  refine (nodeless_take .lbracket s _).bind fun found s₁ => ?_
  split
  · refine (hexpr s₁ _).bind fun key s₂ => (nodeless_consume .rbracket s₂ _).bind fun _ s₃ => ?_
    refine (nodeless_take .question s₃ _).bind fun optional s₄ => ?_
    refine (nodeless_consume .colon s₄ _).bind fun _ s₅ => (hexpr s₅ _).bind fun value s₆ => ?_
    refine laysAt_pure fun h => ?_
    simpa [propertyNodes, Property.children] using h
  · refine (nodeless_name s₁ _).bind fun name s₂ => (nodeless_take .question s₂ _).bind fun optional s₃ => ?_
    refine (nodeless_consume .colon s₃ _).bind fun _ s₄ => (hexpr s₄ _).bind fun value s₅ => ?_
    refine laysAt_pure fun h => ?_
    simpa [propertyNodes, Property.children] using h

theorem lays_properties :
    Lays source (properties expr) propertyNodes (List.flatMap Property.children) := by
  refine lays_loop fun again hagain s k => laysAt_get ?_
  split
  · refine (lays_property hexpr s k).bind fun p s₁ => ?_
    have hseparator : Nodeless source takeSeparator := by
      intro s k
      refine (nodeless_take .comma s k).bind fun found t => ?_
      split
      · exact laysAt_pure id
      · exact nodeless_take .semicolon t k
    refine (hseparator s₁ _).bind fun found s₂ => ?_
    split
    · refine (hagain s₂ _).bind fun ps s₃ => laysAt_pure fun h => ?_
      rw [propertyNodes_eq_flatMap] at h ⊢
      simpa using h
    · refine laysAt_pure fun h => ?_
      simpa using h
  · refine laysAt_pure fun h => ?_
    simpa [propertyNodes] using h

theorem lays_templateParts (start : Position) :
    Lays source (templateParts start expr) partNodes (List.filterMap Part.child?) := by
  refine lays_loop fun again hagain s k => laysAt_templatePiece fun piece s₁ => ?_
  split
  · refine laysAt_pure fun h => ?_
    simpa [partNodes, Part.child?, List.filterMap_cons] using h
  · refine (hexpr s₁ k).bind fun e s₂ => (nodeless_expectKind .rbrace s₂ _).bind fun _ s₃ => ?_
    refine (hagain s₃ _).bind fun parts s₄ => laysAt_pure fun h => ?_
    simpa [partNodes, Part.child?, List.filterMap_cons] using h

/-! ## Primary expressions -/

variable {pos : Position}

theorem laysAt_lambda (hpos : s.pos = pos) :
    LaysAt source s (lambda pos expr) k fun e => k.add e.nodes [e] := by
  have hlast (params : List Param) (t : Stream) : LaysAt source t
      (do let _ ← consume .fatArrow; return Expr.lambda pos params (← expr))
      ((k.add [⟨pos, .lambda⟩] []).add (paramNodes params) (params.filterMap Param.bound))
      fun e => k.add e.nodes [e] := by
    refine (nodeless_consume .fatArrow t _).bind fun _ t₁ => (hexpr t₁ _).bind fun body t₂ => ?_
    exact laysAt_pure fun h => h.build (by simp) (by simp [Expr.children]) trivial
  refine .push .lambda hpos rfl (laysAt_get ?_)
  split
  · refine (lays_param hexpr s _).bind fun p t => ?_
    have hone := hlast [p] t
    rwa [List.filterMap_eq_flatMap_toList, List.flatMap_singleton] at hone
  · split
    · refine (nodeless_consume .lparen s _).bind fun _ t => (nodeless_consume .rparen t _).bind fun _ u => ?_
      have hnone := hlast [] u
      rwa [paramNodes, List.filterMap_nil, Record.add_nil] at hnone
    · exact (lays_paramList hexpr s _).bind hlast

/-- The inside of a mapped type, whose node has been listed at the brace. -/
theorem laysAt_mappedBody (s : Stream) (k : Record) (pos : Position) :
    LaysAt source s (mappedBody pos expr) (k.add [⟨pos, .mapped⟩] []) fun e => k.add e.nodes [e] := by
  refine (nodeless_consume .lbracket s _).bind fun _ s₁ => (nodeless_name s₁ _).bind fun key s₂ => ?_
  refine (nodeless_consume .inKw s₂ _).bind fun _ s₃ => (hexpr s₃ _).bind fun union s₄ => ?_
  refine (lays_takeThen hexpr .asKw s₄ _).bind fun renamed s₅ => ?_
  refine (nodeless_consume .rbracket s₅ _).bind fun _ s₆ => ?_
  refine (nodeless_take .question s₆ _).bind fun optional s₇ => ?_
  refine (nodeless_consume .colon s₇ _).bind fun _ s₈ => (hexpr s₈ _).bind fun value s₉ => ?_
  refine laysAt_pure fun h => h.build ?_ (by simp [Expr.children]) trivial
  cases renamed with
  | none => simp
  | some renamed => simp

/-- The inside of an object, whose node has been listed at the brace. -/
theorem laysAt_objectBody (s : Stream) (k : Record) (pos : Position) :
    LaysAt source s (objectBody pos expr) (k.add [⟨pos, .object⟩] []) fun e => k.add e.nodes [e] := by
  refine (lays_properties hexpr s _).bind fun properties t => laysAt_pure fun h => ?_
  exact h.build (by simp) (by simp [Expr.children]) trivial

theorem laysAt_braced (hpos : s.pos = pos) :
    LaysAt source s (braced pos expr) k fun e => k.add e.nodes [e] := by
  have hclose (e : Expr) (t : Stream) : LaysAt source t (do let _ ← consume .rbrace; return e)
      (k.add e.nodes [e]) fun e => k.add e.nodes [e] :=
    (nodeless_consume .rbrace t _).bind fun _ u => laysAt_pure id
  refine laysAt_get ?_
  cases startsMapped s with
  | true =>
    refine .push .mapped hpos rfl ((nodeless_consume .lbrace s _).bind fun _ t => ?_)
    exact (laysAt_mappedBody hexpr t k pos).bind hclose
  | false =>
    refine .push .object hpos rfl ((nodeless_consume .lbrace s _).bind fun _ t => ?_)
    exact (laysAt_objectBody hexpr t k pos).bind hclose

theorem laysAt_conditional (hpos : s.pos = pos) :
    LaysAt source s (conditional pos expr) k fun e => k.add e.nodes [e] := by
  refine .push .conditional hpos rfl ((nodeless_advance s _).bind fun _ s₁ => ?_)
  refine (hexpr s₁ _).bind fun test s₂ => (nodeless_consume .thenKw s₂ _).bind fun _ s₃ => ?_
  refine (hexpr s₃ _).bind fun consequent s₄ => (nodeless_consume .elseKw s₄ _).bind fun _ s₅ => ?_
  refine (hexpr s₅ _).bind fun alternate s₆ => laysAt_pure fun h => ?_
  exact h.build (by simp) (by simp [Expr.children]) trivial

theorem laysAt_matching (hpos : s.pos = pos) :
    LaysAt source s (matching pos expr) k fun e => k.add e.nodes [e] := by
  refine .push .matching hpos rfl ((nodeless_advance s _).bind fun _ s₁ => ?_)
  refine (hexpr s₁ _).bind fun scrutinee s₂ => (nodeless_consume .lbrace s₂ _).bind fun _ s₃ => ?_
  refine (lays_separated (lays_arm hexpr) .comma s₃ _).bind fun arms s₄ => ?_
  refine (nodeless_consume .rbrace s₄ _).bind fun _ s₅ => laysAt_pure fun h => ?_
  exact h.build (by simp [← armNodes_eq_flatMap]) (by simp [Expr.children]) trivial

/-- Atoms: single tokens are leaves, and all others start with a token of their own. -/
theorem laysAt_atom {token : Token} (hcurrent : s.current = some token) :
    LaysAt source s (atom token expr) k fun e => k.add e.nodes [e] := by
  have hpos := Stream.pos_of_current hcurrent
  unfold atom
  cases hkind : token.kind with
  | identifier =>
    exact laysAt_leaf (F := fun t => .ident token.pos t.text) hcurrent (fun _ _ h => h) rfl rfl
      fun hstands => hstands.standsAlone_word (.inl hkind)
  | number =>
    exact laysAt_leaf (F := fun t => .number token.pos t.text) hcurrent (fun _ _ h => h) rfl rfl
      fun hstands => hstands.standsAlone_number hkind
  | string =>
    simp only [stringLiteral, bind_assoc, pure_bind]
    exact laysAt_leaf (F := fun t => .string token.pos (unquoted t.text)) hcurrent
      (fun _ _ h => (run_consume_eq_ok h).2) rfl rfl fun hstands => hstands.reads_string hkind
  | numberKw =>
    exact laysAt_leaf (F := fun _ => .numberType token.pos) hcurrent (fun _ _ h => h) rfl rfl
      fun hstands => hstands.standsAlone_keyword (.inl hkind) (by rw [hkind]; rfl)
  | stringKw =>
    exact laysAt_leaf (F := fun _ => .stringType token.pos) hcurrent (fun _ _ h => h) rfl rfl
      fun hstands => hstands.standsAlone_keyword (.inr hkind) (by rw [hkind]; rfl)
  | lparen =>
    refine (nodeless_advance s k).bind fun _ s₁ => (hexpr s₁ k).bind fun e s₂ => ?_
    exact (nodeless_consume .rparen s₂ _).bind fun _ s₃ => laysAt_pure id
  | lbracket =>
    refine .push .tuple hpos rfl ((nodeless_advance s _).bind fun _ s₁ => ?_)
    refine (lays_exprList hexpr .rbracket s₁ _).bind fun es s₂ => laysAt_pure fun h => ?_
    exact h.build (by simp) (by simp [Expr.children]) trivial
  | lbrace => exact laysAt_braced hexpr hpos
  | colon =>
    refine .push .block hpos rfl ((lays_stmtBlock hexpr s _).bind fun body s₁ => ?_)
    exact laysAt_pure fun h => h.build (by simp) (by simp [Expr.children]) trivial
  | inferKw =>
    refine .push .infer hpos rfl ((nodeless_advance s _).bind fun _ s₁ => ?_)
    refine (nodeless_name s₁ _).bind fun name s₂ => (lays_takeThen hexpr .extendsKw s₂ _).bind fun bound s₃ => ?_
    refine laysAt_pure fun h => h.build ?_ (by simp [Expr.children]) trivial
    cases bound with
    | none => simp
    | some bound => simp
  | ifKw => exact laysAt_conditional hexpr hpos
  | matchKw => exact laysAt_matching hexpr hpos
  | _ => exact laysAt_fail

end

/-! ## Operators -/

section

variable {isLambda : LambdaTest} {expr : Nat → Parser Expr}
  (hexpr : ∀ least, Lays source (expr least) Expr.nodes fun e => [e])

include hexpr

theorem lays_primary : Lays source (primary isLambda expr) Expr.nodes fun e => [e] := by
  intro s k
  refine laysAt_get ?_
  cases hcurrent : s.current with
  | none => exact laysAt_fail
  | some token =>
    have hpos := Stream.pos_of_current hcurrent
    simp only
    split
    · refine .push .template hpos rfl ?_
      refine (lays_templateParts (hexpr 0) token.pos s _).bind fun parts t => laysAt_pure fun h => ?_
      exact h.build (by simp) (by simp [Expr.children]) trivial
    · split
      · exact laysAt_lambda (hexpr 0) hpos
      · split
        · refine .push .unary hpos rfl ((nodeless_advance s _).bind fun _ t => ?_)
          refine (hexpr prefixPower t _).bind fun operand u => laysAt_pure fun h => ?_
          exact h.build (by simp) (by simp [Expr.children]) trivial
        · exact laysAt_atom (hexpr 0) hcurrent

theorem laysAt_operation (op : Token) (lhs : Expr) (power : Nat) (s : Stream) (k : Record) :
    LaysAt source s (operation expr op lhs power) (k.add lhs.nodes [lhs]) fun e => k.add e.nodes [e] := by
  unfold operation
  split
  · split
    · refine .operator .assignment rfl ((hexpr power s _).bind fun value t => ?_)
      exact laysAt_pure fun h => h.build (by simp) (by simp [Expr.children]) trivial
    · exact laysAt_fail
  · refine .operator .member rfl ((nodeless_name s _).bind fun name t => ?_)
    exact laysAt_pure fun h => h.build (by simp) (by simp [Expr.children]) trivial
  · refine .operator .member rfl ((hexpr 0 s _).bind fun key t => ?_)
    refine (nodeless_consume .rbracket t _).bind fun _ u => laysAt_pure fun h => ?_
    exact h.build (by simp) (by simp [Expr.children]) trivial
  · refine .operator .call rfl ((lays_exprList (hexpr 0) .rparen s _).bind fun args t => ?_)
    exact laysAt_pure fun h => h.build (by simp) (by simp [Expr.children]) trivial
  · split
    · refine .operator .logical rfl ((hexpr power s _).bind fun rhs t => ?_)
      exact laysAt_pure fun h => h.build (by simp) (by simp [Expr.children]) trivial
    · refine .operator .binary rfl ((hexpr power s _).bind fun rhs t => ?_)
      exact laysAt_pure fun h => h.build (by simp) (by simp [Expr.children]) trivial
    · exact laysAt_fail

theorem laysAt_operatorTail (least : Nat) (lhs : Expr) (s : Stream) (k : Record) :
    LaysAt source s (operatorTail expr least lhs) (k.add lhs.nodes [lhs]) fun e => k.add e.nodes [e] := by
  refine lays_fix (B := fun lhs k => k.add lhs.nodes [lhs]) (fun again hagain lhs s k => ?_) lhs s k
  refine laysAt_get ?_
  split
  · exact laysAt_pure id
  · split
    · exact laysAt_pure id
    · refine (nodeless_advance s _).bind fun op t => (laysAt_operation hexpr op lhs _ t k).bind fun e u => ?_
      exact hagain e u k

end

/-- **Parsing an expression adds its nodes to what has been listed.** -/
theorem lays_exprWith (isLambda : LambdaTest) (least : Nat) :
    Lays source (exprWith isLambda least) Expr.nodes fun e => [e] := by
  refine lays_fix (B := fun _ k => k) (fun expr hexpr least s k => ?_) least
  exact (lays_primary hexpr s k).bind fun lhs t => laysAt_operatorTail hexpr least lhs t k

/-! ## Programs -/

section

variable (hexpr : Lays source expr Expr.nodes fun e => [e])

include hexpr

theorem lays_definition : Lays source (definition expr) (fun d => (TopLevel.definition d).nodes)
    fun d => (TopLevel.definition d).children := by
  intro s k
  have hlast (isExported : Bool) (name : String) (params : List Param) (t : Stream) : LaysAt source t
      (do
        let _ ← consume .assign
        let body ← expr
        let _ ← take .semicolon
        return ⟨s.pos, isExported, name, params, body⟩)
      ((k.add [⟨s.pos, .definition⟩] []).add (paramNodes params) (params.filterMap Param.bound))
      fun d => k.add (TopLevel.definition d).nodes (TopLevel.definition d).children := by
    refine (nodeless_consume .assign t _).bind fun _ t₁ => (hexpr t₁ _).bind fun body t₂ => ?_
    refine (nodeless_take .semicolon t₂ _).bind fun _ t₃ => laysAt_pure fun h => ?_
    simpa [TopLevel.nodes, TopLevel.children] using h
  refine laysAt_get (.push .definition rfl rfl ?_)
  refine (nodeless_take .exportKw s _).bind fun isExported s₁ => ?_
  refine (nodeless_consume .typeKw s₁ _).bind fun _ s₂ => (nodeless_name s₂ _).bind fun name s₃ => ?_
  refine laysAt_get ?_
  split
  · exact (lays_paramList hexpr s₃ _).bind fun params => hlast isExported name params
  · have hnone : Lays source (pure []) paramNodes (List.filterMap Param.bound) := fun t k =>
      laysAt_pure fun h => by simpa [paramNodes] using h
    exact (hnone s₃ _).bind fun params => hlast isExported name params

theorem lays_sectionOf : Lays source (sectionOf expr) (fun g => (TopLevel.sectionOf g).nodes)
    fun g => (TopLevel.sectionOf g).children := by
  intro s k
  refine laysAt_get (.push .sectionOf rfl rfl ?_)
  refine (nodeless_consume .hash s _).bind fun _ s₁ => (nodeless_consume .lbracket s₁ _).bind fun _ s₂ => ?_
  refine (nodeless_name s₂ _).bind fun name s₃ => (nodeless_consume .rbracket s₃ _).bind fun _ s₄ => ?_
  refine (lays_stmtBlock hexpr s₄ _).bind fun body s₅ => laysAt_pure fun h => ?_
  simpa [TopLevel.nodes, TopLevel.children] using h

omit hexpr in
theorem lays_importOf : Lays source importOf (fun i => (TopLevel.importOf i).nodes)
    fun i => (TopLevel.importOf i).children := by
  have hname : Lays source name (fun _ => []) fun _ => [] := fun s k => by
    simpa using nodeless_name s k
  intro s k
  refine laysAt_get (.push .importOf rfl rfl ?_)
  refine (nodeless_consume .importKw s _).bind fun _ s₁ => (nodeless_consume .lbrace s₁ _).bind fun _ s₂ => ?_
  refine (lays_separated hname .comma s₂ _).bind fun symbols s₃ => ?_
  refine (nodeless_consume .rbrace s₃ _).bind fun _ s₄ => (nodeless_consume .fromKw s₄ _).bind fun _ s₅ => ?_
  refine (nodeless_stringLiteral s₅ _).bind fun file s₆ => (nodeless_take .semicolon s₆ _).bind fun _ s₇ => ?_
  refine laysAt_pure fun h => ?_
  rw [List.flatMap_eq_nil_iff.2 fun _ _ => rfl, List.flatMap_eq_nil_iff.2 fun _ _ => rfl] at h
  simpa [TopLevel.nodes, TopLevel.children] using h

theorem lays_topLevel (token : Token) : Lays source (topLevel token expr) TopLevel.nodes TopLevel.children := by
  intro s k
  unfold topLevel
  split
  · exact (lays_definition hexpr s k).bind fun d t => laysAt_pure id
  · exact (lays_definition hexpr s k).bind fun d t => laysAt_pure id
  · exact (lays_sectionOf hexpr s k).bind fun g t => laysAt_pure id
  · exact (lays_importOf s k).bind fun i t => laysAt_pure id
  · exact laysAt_fail

theorem lays_topLevels :
    Lays source (topLevels expr) (List.flatMap TopLevel.nodes) (List.flatMap TopLevel.children) := by
  refine lays_loop fun again hagain s k => laysAt_get ?_
  split
  · exact lays_nil s k
  · exact lays_cons (lays_topLevel hexpr _) hagain s k

end

/-- A run from the start of a text finds nothing listed. -/
theorem Lays.laid {α : Type} {p : Parser α} {nodes : α → List Node} {parts : α → List Expr} {text : String}
    (h : Lays text.toList p nodes parts) {s s' : Stream} {a : α} (hs : Stream.ofString text = .ok s)
    (hrun : p s = .ok (a, s')) : Laid text.toList s'.pos ⟨nodes a, parts a⟩ := by
  have hscanned : s.Scanned text.toList := ⟨_, Cursor.within_ofString text, hs⟩
  have hstart : Laid text.toList s.pos ⟨[], []⟩ := ⟨by simp, .nil, by simp⟩
  exact (h s ⟨[], []⟩ hscanned hstart a s' hrun).2

end Parser

/-! ## Texts -/

/-- **The nodes of a text that is parsed are in order, and the text reads each leaf at its position**:
a name, a number or a keyword with nothing behind it that would extend it, a string between two equal
quotes. -/
theorem nodes_in_order (source : String) :
    (∀ e, parseExpr source = .ok e →
      InOrder e.nodes ∧ ∀ leaf, Expr.Within leaf e → leaf.ReadsIn source.toList) ∧
    ∀ program, parseProgram source = .ok program →
      InOrder program.nodes ∧
        ∀ item ∈ program.body, ∀ e ∈ item.children, ∀ leaf, Expr.Within leaf e → leaf.ReadsIn source.toList := by
  constructor
  · intro e hparse
    obtain ⟨s, s', hs, hrun⟩ := run_of_parseExpr hparse
    have hlaid := (Parser.lays_exprWith Parser.windowTest 0).laid hs hrun
    exact ⟨hlaid.inOrder, hlaid.reads e (List.mem_singleton_self e)⟩
  · intro program hparse
    obtain ⟨-, s, s', hs, hrun⟩ := run_of_parseProgram hparse
    have hlaid := (Parser.lays_topLevels (Parser.lays_exprWith Parser.windowTest 0)).laid hs hrun
    exact ⟨hlaid.inOrder, fun item hitem e he => hlaid.reads e (List.mem_flatMap.2 ⟨item, hitem, he⟩)⟩

/-- A lambda whose body is a union of a template string and a number, over two lines. -/
def unionOverLines : String := "(a: number) =>\n  \x60x $\x7b[a, 'b']\x7d\x60 | 12"

/-- A function and a section that calls it, with a comment between them. -/
def callBehindComment : String := "type F(a) = \"it\" // F\n#[s] :\x7b let b = F(string); b \x7d"

theorem exists_ok_of_map {ε α β : Type} {r : Except ε α} {f : α → β} {b : β} {P : α → Prop}
    (h : r.map f = .ok b) (hP : ∀ a, r = .ok a → P a) : ∃ a, r = .ok a ∧ f a = b ∧ P a := by
  cases r with
  | error e => cases h
  | ok a => exact ⟨a, rfl, Except.ok.inj h, hP a rfl⟩

theorem unionOverLines_in_order :
    (∃ e, parseExpr unionOverLines = .ok e ∧
      e.nodes = [⟨⟨1, 1⟩, .lambda⟩, ⟨⟨1, 2⟩, .param⟩, ⟨⟨1, 5⟩, .numberType⟩, ⟨⟨2, 3⟩, .binary⟩,
        ⟨⟨2, 3⟩, .template⟩, ⟨⟨2, 8⟩, .tuple⟩, ⟨⟨2, 9⟩, .ident⟩, ⟨⟨2, 12⟩, .string⟩, ⟨⟨2, 21⟩, .number⟩] ∧
      InOrder e.nodes ∧ ∀ leaf, Expr.Within leaf e → leaf.ReadsIn unionOverLines.toList) ∧
    ∃ program, parseProgram callBehindComment = .ok program ∧
      program.nodes = [⟨⟨1, 1⟩, .definition⟩, ⟨⟨1, 8⟩, .param⟩, ⟨⟨1, 13⟩, .string⟩, ⟨⟨2, 1⟩, .sectionOf⟩,
        ⟨⟨2, 9⟩, .letDecl⟩, ⟨⟨2, 17⟩, .call⟩, ⟨⟨2, 17⟩, .ident⟩, ⟨⟨2, 19⟩, .stringType⟩,
        ⟨⟨2, 28⟩, .exprStmt⟩, ⟨⟨2, 28⟩, .ident⟩] ∧
      InOrder program.nodes ∧ ∀ item ∈ program.body, ∀ e ∈ item.children, ∀ leaf, Expr.Within leaf e →
        leaf.ReadsIn callBehindComment.toList := by
  refine ⟨exists_ok_of_map (f := Expr.nodes) (by decide +kernel) (nodes_in_order unionOverLines).1, ?_⟩
  exact exists_ok_of_map (f := Program.nodes) (by decide +kernel) (nodes_in_order callBehindComment).2

end TypeForge
