import TypeForge.Proofs.Parser.Tracks
import TypeForge.Proofs.Parser.Templates

/-!
# Productions under the two ways to look ahead

The productions one by one.  All of them but the one for braces look ahead in the same way, so
they pass on what the runs of their parts tell.
-/

namespace TypeForge

namespace Parser

attribute [local simp] Expr.nodes

variable {α : Type} {source : List Char} {N k : Nat} {s : Stream}

/-! ## Lists -/

/-- The verdict on a result is that on its nodes. -/
def TracksNodes (source : List Char) (N k : Nat) (nodes : α → List Node) (p q : Parser α) : Prop :=
  Tracks source N k p q fun v a => v ↔ Upright source (nodes a)

section

variable {nodes : α → List Node} {item item' : Parser α}

theorem tracks_moreSeparated {separator : Kind} (hne : separator ≠ .inKw)
    (hitem : TracksNodes source N k nodes item item') :
    TracksNodes source N 0 (List.flatMap nodes) (moreSeparated separator item)
      (moreSeparated separator item') := by
  refine tracks_loop fun again again' hagain => ?_
  refine tracks_take_bind hne (Nat.le_succ N) ?_ (tracks_pure (by simp)) (Nat.zero_le 1)
  refine hitem.bind fun a v hv => hagain.bind fun as w hw => tracks_pure ?_
  simp [hv, hw]

theorem tracks_separated {separator : Kind} (hne : separator ≠ .inKw)
    (hitem : TracksNodes source N k nodes item item') :
    TracksNodes source N k (List.flatMap nodes) (separated separator item) (separated separator item') := by
  refine hitem.lead fun a v hv => (tracks_moreSeparated hne hitem).bind fun as w hw => tracks_pure ?_
  simp [hv, hw]

theorem tracks_whileInBraces (hitem : TracksNodes source N k nodes item item') :
    TracksNodes source N 0 (List.flatMap nodes) (whileInBraces item) (whileInBraces item') := by
  refine tracks_loop fun again again' hagain => tracks_get fun s _ => ?_
  split
  · refine (hitem.bind fun a v hv => hagain.bind fun as w hw => tracks_pure ?_) s
    simp [hv, hw]
  · exact tracksAt_pure (by simp)

end

/-! ## Productions -/

/-- The nodes of an optional part. -/
def optionNodes : Option Expr → List Node
  | none => []
  | some e => e.nodes

/-- Parsers for expressions: at least one token is taken, and the verdict is that on the nodes. -/
def TracksExpr (source : List Char) (p q : Parser Expr) : Prop := TracksNodes source 3 1 Expr.nodes p q

section

variable {expr expr' : Parser Expr} (hexpr : TracksExpr source expr expr')

include hexpr

/-- An optional part behind a token. -/
theorem tracks_behind {kind : Kind} (hne : kind ≠ .inKw) :
    TracksNodes source 3 0 optionNodes (takeThen kind expr) (takeThen kind expr') := by
  refine tracks_take_bind hne (Nat.le_succ 3) ?_ (tracks_pure (by simp [optionNodes])) (Nat.zero_le 1)
  refine hexpr.bind fun e v hv => tracks_pure ?_
  simp [optionNodes, hv]

theorem tracks_param :
    TracksNodes source 3 1 (fun p => paramNodes [p]) (param expr) (param expr') := by
  refine tracks_get fun s _ => (stepsAt_name s).lead fun name => ?_
  refine (tracks_behind hexpr (by decide)).bind fun bound v hv => tracks_pure ?_
  cases bound with
  | none => simpa [paramNodes, optionNodes] using hv
  | some bound => simpa [paramNodes, optionNodes] using hv

theorem tracks_paramList : TracksNodes source 3 1 paramNodes (paramList expr) (paramList expr') := by
  refine fun s => (stepsAt_consume (by decide) s).lead fun _ => ?_
  refine (tracks_separated (by decide) (tracks_param hexpr)).bind fun ps v hv => ?_
  refine fun s => (stepsAt_consume (by decide) s).bind fun _ => tracks_pure ?_
  rw [paramNodes_eq_flatMap, and_true, hv]

theorem tracks_exprList {close : Kind} (hne : close ≠ .inKw) :
    TracksNodes source 3 0 exprNodes (exprList close expr) (exprList close expr') := by
  have hlast (es : List Expr) (v : Prop) (hv : v ↔ Upright source (es.flatMap Expr.nodes)) :
      Tracks source 3 0 (do let _ ← consume close; return es) (do let _ ← consume close; return es)
        fun w es => v ∧ w ↔ Upright source (exprNodes es) := by
    refine fun s => (stepsAt_consume hne s).bind fun _ => tracks_pure ?_
    rw [exprNodes_eq_flatMap, and_true, hv]
  refine tracks_get fun s _ => ?_
  split
  · exact (tracksAt_pure (by simp)).lead hlast
  · exact ((tracks_separated (by decide) hexpr).bind hlast) s

theorem tracks_bareStmt :
    TracksNodes source 3 1 (fun s => stmtNodes [s]) (bareStmt expr) (bareStmt expr') := by
  refine tracks_get fun s _ => ?_
  split
  · next hassertion =>
    obtain ⟨token, hcurrent, hname⟩ := (Option.any_eq_true _ _).1 hassertion
    rw [Bool.and_eq_true, beq_iff_eq] at hname
    have hkind : s.kind? = some .identifier := by rw [Stream.kind?, hcurrent, Option.map_some, hname.1]
    refine (stepsAt_advance hkind (by decide)).lead fun _ s => ?_
    refine (stepsAt_consume (by decide) s).bind fun _ => hexpr.bind fun left v hv s => ?_
    refine (stepsAt_consume (by decide) s).bind fun _ => hexpr.bind fun right w hw s => ?_
    refine (stepsAt_consume (by decide) s).bind fun _ => tracks_pure ?_
    simp [stmtNodes, hv, hw]
  · refine (tracks_take_bind (by decide) (Nat.le_succ 3) (fun s => ?_) ?_ (Nat.le_refl 1)) s
    · refine (stepsAt_name s).bind fun name s => (stepsAt_consume (by decide) s).bind fun _ => ?_
      refine hexpr.bind fun value v hv => tracks_pure ?_
      simp [stmtNodes, hv]
    · refine hexpr.lead fun value v hv => tracks_pure ?_
      simp [stmtNodes, hv]

theorem tracks_stmt : TracksNodes source 3 1 (fun s => stmtNodes [s]) (stmt expr) (stmt expr') := by
  refine (tracks_bareStmt hexpr).lead fun stmt v hv s => ?_
  refine (stepsAt_take (by decide) s).bind fun _ => tracks_pure ?_
  rw [and_true, hv]

theorem tracks_stmtBlock : TracksNodes source 3 1 stmtNodes (stmtBlock expr) (stmtBlock expr') := by
  refine fun s => (stepsAt_consume (by decide) s).lead fun _ s => ?_
  refine (stepsAt_consume (by decide) s).bind fun _ => (tracks_stmt hexpr).bind fun first v hv => ?_
  refine (tracks_whileInBraces (tracks_stmt hexpr)).bind fun more w hw s => ?_
  refine (stepsAt_consume (by decide) s).bind fun _ => tracks_pure ?_
  rw [stmtNodes_eq_flatMap, List.flatMap_cons, upright_append, and_true, hv, hw]

theorem tracks_arm : TracksNodes source 3 1 (fun a => armNodes [a]) (arm expr) (arm expr') := by
  refine tracks_get fun s _ => (hexpr.lead fun pattern v hv t => ?_) s
  refine (stepsAt_consume (by decide) t).bind fun _ => hexpr.bind fun result w hw => tracks_pure ?_
  simp [armNodes, hv, hw]

/-- A property takes at least three tokens, and none of them is `in`. -/
theorem tracks_property :
    TracksNodes source 4 3 (fun p => propertyNodes [p]) (property expr) (property expr') := by
  refine tracks_get fun s _ => ?_
  refine (tracks_take_bind (by decide) (M := 3) (Nat.le_refl 4) ?_ (fun t => ?_) (Nat.le_refl 3)) s
  · refine hexpr.seq (Nat.le_succ 3) (fun key v hv t => ?_) (show 2 ≤ 1 + 1 by decide)
    refine (stepsAt_consume (by decide) t).lead fun _ t => ?_
    refine (stepsAt_take (by decide) t).bind fun optional t => ?_
    refine (stepsAt_consume (by decide) t).bind fun _ => hexpr.bind fun value w hw => tracks_pure ?_
    simp [propertyNodes, hv, hw]
  · refine (stepsAt_name t).seq (M := 3) (Nat.le_refl 4) (fun name t => ?_) (show 3 ≤ 1 + 2 by decide)
    refine (stepsAt_take (by decide) t).seq (Nat.le_refl 3) (fun optional t => ?_) (show 2 ≤ 0 + 2 by decide)
    refine (stepsAt_consume (by decide) t).seq (Nat.le_succ 3) (fun _ => ?_) (show 2 ≤ 1 + 1 by decide)
    refine hexpr.lead fun value v hv => tracks_pure ?_
    simp [propertyNodes, hv]

theorem tracks_properties : TracksNodes source 3 0 propertyNodes (properties expr) (properties expr') := by
  have hproperty := (tracks_property hexpr).mono (show 3 ≤ 4 by decide) (Nat.zero_le 3)
  refine tracks_loop fun again again' hagain => tracks_get fun s _ => ?_
  split
  · refine (hproperty.bind fun p v hv => ?_) s
    have hseparator (s : Stream) : StepsAt source 3 0 s takeSeparator := by
      intro hs found s' hrun
      obtain ⟨comma, t, htake, hrest⟩ := run_bind_eq_ok hrun
      obtain ⟨ht, hsize, hcomma⟩ := stepsAt_take (N := 3) (by decide) s hs htake
      cases comma with
      | true =>
        cases hrest
        exact ⟨ht, hsize, hcomma⟩
      | false =>
        obtain ⟨hs', hsize', hsemicolon⟩ := stepsAt_take (N := 3) (by decide) t ht hrest
        exact ⟨hs', by omega, fun n m hn hm hN => hcomma m m (hsemicolon n m hn hm hN) (Nat.le_refl m) hN⟩
    refine fun s => (hseparator s).bind fun found => ?_
    cases found with
    | true =>
      refine hagain.bind fun ps w hw => tracks_pure ?_
      rw [propertyNodes_eq_flatMap, List.flatMap_cons, ← propertyNodes_eq_flatMap, upright_append, hv, hw,
        and_true]
    | false =>
      refine tracks_pure ?_
      rw [and_true, hv]
  · exact tracksAt_pure (by simp [propertyNodes])

/-! ## Primary expressions -/

theorem tracks_lambda (pos : Position) : TracksExpr source (lambda pos expr) (lambda pos expr') := by
  have hlast (ps : List Param) (v : Prop) (hv : v ↔ Upright source (paramNodes ps)) :
      Tracks source 3 0 (do let _ ← consume .fatArrow; return Expr.lambda pos ps (← expr))
        (do let _ ← consume .fatArrow; return Expr.lambda pos ps (← expr'))
        fun w e => v ∧ w ↔ Upright source e.nodes := by
    refine fun s => (stepsAt_consume (by decide) s).bind fun _ => hexpr.bind fun body w hw => tracks_pure ?_
    simp [hv, hw]
  refine tracks_get fun s _ => ?_
  split
  · refine ((tracks_param hexpr).lead fun p v hv => ?_) s
    exact hlast [p] v hv
  · split
    · refine (stepsAt_consume (by decide) s).lead fun _ s => (stepsAt_consume (by decide) s).bind fun _ => ?_
      exact (tracks_pure (by simp [paramNodes])).bind hlast
    · exact ((tracks_paramList hexpr).lead hlast) s

/-- In a mapped type `in` is the third token behind the brace. -/
theorem tracks_mappedBody (pos : Position) :
    TracksNodes source 2 0 Expr.nodes (mappedBody pos expr) (mappedBody pos expr') := by
  have hexpr' : TracksNodes source 0 0 Expr.nodes expr expr' := hexpr.mono (Nat.zero_le 3) (Nat.zero_le 1)
  have hbehind := (tracks_behind hexpr (show Kind.asKw ≠ .inKw by decide)).mono (Nat.zero_le 3) (Nat.le_refl 0)
  refine fun s => (stepsAt_consume (by decide) s).seq (M := 1) (Nat.le_refl 2) (fun _ s => ?_) (Nat.zero_le (1 + 0))
  refine (stepsAt_name s).seq (M := 0) (Nat.le_refl 1) (fun key s => ?_) (Nat.zero_le (1 + 0))
  refine (stepsAt_consume_any _ s).bind fun _ => hexpr'.bind fun union v hv => ?_
  refine hbehind.bind fun renamed w hw s => (stepsAt_consume_any _ s).bind fun _ s => ?_
  refine (stepsAt_take (by decide) s).bind fun optional s => (stepsAt_consume_any _ s).bind fun _ => ?_
  refine hexpr'.bind fun value u hu => tracks_pure ?_
  cases renamed with
  | none => simp_all [optionNodes]
  | some renamed =>
    simp only [optionNodes] at hw
    simp [hv, hw, hu]

theorem tracks_objectBody (pos : Position) :
    Tracks source 3 0 (objectBody pos expr) (objectBody pos expr')
      fun v e => ∃ ps, e = .object pos ps ∧ (v ↔ Upright source (propertyNodes ps)) := by
  refine (tracks_properties hexpr).bind fun ps v hv => tracks_pure ⟨ps, rfl, ?_⟩
  rw [and_true, hv]

end

/-- A mapped type needs what the grammar asks for behind its brace. -/
theorem opensMapped_of_mappedBody {pos : Position} {expr : Parser Expr} {token : Token} {t : Stream}
    {r : Expr × Stream} (hbrace : consume .lbrace s = .ok (token, t)) (hbody : mappedBody pos expr t = .ok r) :
    opensMapped s = true := by
  have kind_of_run {kind : Kind} {t t' : Stream} {token : Token} (h : consume kind t = .ok (token, t')) (n : Nat) :
      t.ahead (n + 1) = kind :: t'.ahead n := by
    obtain ⟨hkind, hadvance⟩ := run_consume_eq_ok h
    rw [Stream.kind?, current_of_advance hadvance, Option.map_some, Option.some.injEq] at hkind
    rw [Stream.ahead_of_advance hadvance, hkind]
  obtain ⟨_, t₁, hlbracket, hbody⟩ := run_bind_eq_ok hbody
  obtain ⟨_, t₂, hname, hbody⟩ := run_bind_eq_ok hbody
  obtain ⟨_, t₃, hin, -⟩ := run_bind_eq_ok hbody
  obtain ⟨_, _, hname, hpure⟩ := run_bind_eq_ok hname
  cases hpure
  obtain ⟨-, hadvance⟩ := run_consume_eq_ok hbrace
  rw [opensMapped, Stream.map_kind_peek_of_ofCursor (ofCursor_of_advance hadvance), kind_of_run hlbracket,
    kind_of_run hname, kind_of_run hin]
  rfl

/-- **What a brace adds**: if looking for `in` misleads there, the object is not parsed. -/
theorem tracksAt_bracedBy {expr expr' : Parser Expr} (hexpr : TracksExpr source expr expr')
    (hs : s.Scanned source) (hat : s.at? .lbrace = true) :
    TracksAt source 3 1 s (bracedBy opensMapped s.pos expr) (bracedBy startsMapped s.pos expr')
      fun v e => v ↔ Upright source e.nodes := by
  obtain ⟨before, rest, rfl, hbrace⟩ := hs.eq_braceAt hat
  have hmisleads := @misleads_iff before rest
  rw [← hbrace] at hmisleads
  refine tracksAt_get ?_
  cases hopens : opensMapped s with
  | true =>
    rw [startsMapped_of_opensMapped hopens]
    refine (stepsAt_consume (by decide) s).seq (M := 2) (Nat.le_refl 3) (fun _ => ?_) (Nat.le_refl (1 + 0))
    refine (tracks_mappedBody hexpr s.pos).bind fun e v hv s => ?_
    exact (stepsAt_consume (by decide) s).bind fun _ => tracks_pure (by rw [and_true, hv])
  | false =>
    have hobject : TracksAt (before ++ '\x7b' :: rest) 3 1 s
        (do
          let _ ← consume .lbrace
          let e ← objectBody s.pos expr
          let _ ← consume .rbrace
          return e)
        (do
          let _ ← consume .lbrace
          let e ← objectBody s.pos expr'
          let _ ← consume .rbrace
          return e)
        fun v e => ∃ ps, e = .object s.pos ps ∧ (v ↔ Upright (before ++ '\x7b' :: rest) (propertyNodes ps)) := by
      refine (stepsAt_consume (by decide) s).lead fun _ => (tracks_objectBody hexpr s.pos).bind fun e v hv s => ?_
      refine (stepsAt_consume (by decide) s).bind fun _ => tracks_pure ?_
      rwa [and_true]
    cases hstarts : startsMapped s with
    | false =>
      refine hobject.imp ?_
      rintro v _ ⟨ps, rfl, hv⟩
      simp [hv, hmisleads, hstarts]
    | true =>
      refine ⟨hobject.1, fun hs e s' hrun => ?_⟩
      obtain ⟨_, ⟨ps, rfl, -⟩, -⟩ := hobject.2 hs hrun
      refine ⟨False, ?_, False.elim, fun _ r hr => ?_⟩
      · simp [hmisleads, hstarts, hopens]
      · obtain ⟨_, t, hlbrace, hr⟩ := run_bind_eq_ok hr
        obtain ⟨_, _, hbody, -⟩ := run_bind_eq_ok hr
        rw [opensMapped_of_mappedBody hlbrace hbody] at hopens
        cases hopens

/-! ## Templates and atoms -/

theorem run_templatePiece_eq_ok {start : Position} {piece : String × TextEnd} {t : Stream}
    (h : templatePiece start s = .ok (piece, t)) :
    ∃ cs rest, s.cursor.rest = cs ++ rest ∧ cs ≠ [] ∧ t.cursor = s.cursor.past cs rest := by
  rw [templatePiece, run_get] at h
  cases hcut : templateText s.cursor.rest with
  | none =>
    rw [hcut] at h
    cases h
  | some cut =>
    rw [hcut] at h
    cases h
    refine ⟨_, _, templateText_append hcut, ?_, rfl⟩
    exact List.append_ne_nil_of_right_ne_nil _ (List.length_pos_iff.1 (TextEnd.mark_length_pos _))

theorem ofCursor_of_rescan {u : Unit} {s' : Stream} (h : rescan s = .ok (u, s')) :
    Stream.ofCursor s.cursor = .ok s' := by
  rw [rescan] at h
  cases hscan : Stream.ofCursor s.cursor with
  | error e =>
    rw [hscan] at h
    cases h
  | ok t =>
    rw [hscan] at h
    cases h
    rfl

/-- Text of a template string, and the token that is scanned behind it. -/
theorem stepsAt_piece (start : Position) (s : Stream) :
    StepsAt source 0 1 s (do let piece ← templatePiece start; rescan; return piece) := by
  intro hs piece s' hrun
  obtain ⟨_, t, hpiece, hrun⟩ := run_bind_eq_ok hrun
  obtain ⟨_, u, hrescan, hpure⟩ := run_bind_eq_ok hrun
  cases hpure
  obtain ⟨cs, rest, hrest, hne, hcursor⟩ := run_templatePiece_eq_ok hpiece
  have hscan := ofCursor_of_rescan hrescan
  have hsize : s'.size ≤ rest.length := by
    have hle := Stream.size_ofCursor_le hscan
    rwa [hcursor] at hle
  have hlength := congrArg List.length hrest
  have hpos := List.length_pos_iff.2 hne
  have hle := s.rest_length_le_size
  rw [List.length_append] at hlength
  refine ⟨⟨t.cursor, ?_, hscan⟩, by omega, fun _ m _ _ hm => s.noPlainIn_zero.mono hm⟩
  rw [hcursor]
  exact hs.within.cursor.past hrest

theorem tracksAt_piece {β : Type} {R : Prop → β → Prop} {f g : String × TextEnd → Parser β} (start : Position)
    (h : ∀ piece, Tracks source 0 0 (f piece) (g piece) R) :
    TracksAt source 0 1 s (do let piece ← templatePiece start; rescan; f piece)
      (do let piece ← templatePiece start; rescan; g piece) R := by
  have hall := (stepsAt_piece start s).lead h
  simpa only [bind_assoc, pure_bind] using hall

section

variable {expr expr' : Parser Expr} (hexpr : TracksExpr source expr expr')

include hexpr

/-- The parts of a template string; what is ahead of its text are no tokens. -/
theorem tracks_templateParts (start : Position) :
    TracksNodes source 0 1 partNodes (templateParts start expr) (templateParts start expr') := by
  have hexpr' : TracksNodes source 0 0 Expr.nodes expr expr' := hexpr.mono (Nat.zero_le 3) (Nat.zero_le 1)
  refine tracks_loop fun again again' hagain s => tracksAt_piece start fun piece => ?_
  obtain ⟨text, ending⟩ := piece
  cases ending with
  | backtick => exact tracks_pure (by simp [partNodes])
  | interpolation =>
    refine hexpr'.bind fun e v hv s => (stepsAt_expectKind _ s).bind fun _ => ?_
    refine hagain.bind fun parts w hw => tracks_pure ?_
    simp [partNodes, hv, hw]

variable {token : Token} (hkind : s.kind? = some token.kind)

include hkind

theorem tracksAt_conditional (pos : Position) (hne : token.kind ≠ .inKw) :
    TracksAt source 3 1 s (conditional pos expr) (conditional pos expr') fun v e => v ↔ Upright source e.nodes := by
  refine (stepsAt_advance hkind hne).lead fun _ => hexpr.bind fun test u hu s => ?_
  refine (stepsAt_consume (by decide) s).bind fun _ => hexpr.bind fun consequent v hv s => ?_
  refine (stepsAt_consume (by decide) s).bind fun _ => hexpr.bind fun alternate w hw => tracks_pure ?_
  simp [hu, hv, hw]

theorem tracksAt_matching (pos : Position) (hne : token.kind ≠ .inKw) :
    TracksAt source 3 1 s (matching pos expr) (matching pos expr') fun v e => v ↔ Upright source e.nodes := by
  refine (stepsAt_advance hkind hne).lead fun _ => hexpr.bind fun scrutinee v hv s => ?_
  refine (stepsAt_consume (by decide) s).bind fun _ => ?_
  refine (tracks_separated (by decide) (tracks_arm hexpr)).bind fun arms w hw s => ?_
  refine (stepsAt_consume (by decide) s).bind fun _ => tracks_pure ?_
  rw [Expr.nodes, armNodes_eq_flatMap]
  simp [hv, hw]

/-- An atom that does not start with a brace. -/
theorem tracksAt_atom (hbrace : token.kind ≠ .lbrace) :
    TracksAt source 3 1 s (atom token expr) (atom token expr') fun v e => v ↔ Upright source e.nodes := by
  have hadvance (hne : token.kind ≠ .inKw) : StepsAt source 3 1 s advance := stepsAt_advance hkind hne
  unfold atom
  split
  · next h => exact (hadvance (by simp [h])).lead fun _ => tracks_pure (by simp)
  · next h => exact (hadvance (by simp [h])).lead fun _ => tracks_pure (by simp)
  · exact (stepsAt_stringLiteral s).lead fun _ => tracks_pure (by simp)
  · next h => exact (hadvance (by simp [h])).lead fun _ => tracks_pure (by simp)
  · next h => exact (hadvance (by simp [h])).lead fun _ => tracks_pure (by simp)
  · next h =>
    refine (hadvance (by simp [h])).lead fun _ => hexpr.bind fun e v hv s => ?_
    exact (stepsAt_consume (by decide) s).bind fun _ => tracks_pure (by rw [and_true, hv])
  · next h =>
    refine (hadvance (by simp [h])).lead fun _ => (tracks_exprList hexpr (by decide)).bind fun es v hv => ?_
    exact tracks_pure (by simp [hv])
  · next h => exact absurd h hbrace
  · refine ((tracks_stmtBlock hexpr).lead fun body v hv => tracks_pure ?_) s
    simp [hv]
  · next h =>
    refine (hadvance (by simp [h])).lead fun _ s => (stepsAt_name s).bind fun name => ?_
    refine (tracks_behind hexpr (by decide)).bind fun bound v hv => tracks_pure ?_
    cases bound with
    | none => simpa [optionNodes] using hv
    | some bound => simpa [optionNodes] using hv
  · next h => exact tracksAt_conditional hexpr hkind token.pos (by simp [h])
  · next h => exact tracksAt_matching hexpr hkind token.pos (by simp [h])
  · exact tracksAt_fail

end

/-! ## Operators -/

section

variable {expr expr' : Nat → Parser Expr} (hexpr : ∀ least, TracksExpr source (expr least) (expr' least))

include hexpr

theorem tracks_primary : TracksExpr source (primaryBy opensMapped expr) (primaryBy startsMapped expr') := by
  refine tracks_get fun s hs => ?_
  cases hat : s.at? .lbrace with
  | true => exact tracksAt_bracedBy (hexpr 0) hs hat
  | false =>
    refine tracksAt_get ?_
    cases hcurrent : s.current with
    | none => exact tracksAt_fail
    | some token =>
      have hkind : s.kind? = some token.kind := by rw [Stream.kind?, hcurrent, Option.map_some]
      simp only
      split
      · next hbacktick =>
        have hclear := Stream.noPlainIn_of_backtick (hbacktick ▸ hkind)
        refine TracksAt.of_noPlainIn ?_ hclear
        refine ((tracks_templateParts (hexpr 0) token.pos).lead fun parts v hv => tracks_pure ?_) s
        simp [hv]
      · have hlambda (p : Parser Expr) : windowTest p s = startsLambda s := rfl
        by_cases hstarts : startsLambda s = true
        · rw [if_pos ((hlambda _).trans hstarts), if_pos ((hlambda _).trans hstarts)]
          exact tracks_lambda (hexpr 0) token.pos s
        · rw [if_neg fun h => hstarts ((hlambda _).symm.trans h), if_neg fun h => hstarts ((hlambda _).symm.trans h)]
          cases hop : unaryOp? token.kind with
          | some op =>
            have hne : token.kind ≠ .inKw := by
              intro h
              rw [h] at hop
              cases hop
            refine (stepsAt_advance hkind hne).lead fun _ => (hexpr prefixPower).bind fun operand v hv => ?_
            exact tracks_pure (by simp [hv])
          | none =>
            refine tracksAt_atom (hexpr 0) hkind fun h => ?_
            simp [Stream.at?, hkind, h] at hat

theorem tracks_operation (op : Token) (lhs : Expr) (power : Nat) :
    Tracks source 3 0 (operation expr op lhs power) (operation expr' op lhs power)
      fun v e => Upright source lhs.nodes ∧ v ↔ Upright source e.nodes := by
  unfold operation
  split
  · split
    · exact (hexpr power).bind fun value v hv => tracks_pure (by simp [hv])
    · exact fun _ => tracksAt_fail
  · exact fun s => (stepsAt_name s).bind fun name => tracks_pure (by simp)
  · refine (hexpr 0).bind fun key v hv s => (stepsAt_consume (by decide) s).bind fun _ => tracks_pure ?_
    simp [hv]
  · exact (tracks_exprList (hexpr 0) (by decide)).bind fun args v hv => tracks_pure (by simp [hv])
  · split
    · exact (hexpr power).bind fun rhs v hv => tracks_pure (by simp [hv])
    · exact (hexpr power).bind fun rhs v hv => tracks_pure (by simp [hv])
    · exact fun _ => tracksAt_fail

theorem tracks_operatorTail (least : Nat) (lhs : Expr) :
    Tracks source 3 0 (operatorTail expr least lhs) (operatorTail expr' least lhs)
      fun v e => Upright source lhs.nodes ∧ v ↔ Upright source e.nodes := by
  refine tracks_fix (S := fun (lhs : Expr) v (e : Expr) => Upright source lhs.nodes ∧ v ↔ Upright source e.nodes)
    (fun again again' hagain lhs => tracks_get fun s _ => ?_) lhs
  split
  · exact tracksAt_pure (by simp)
  · next left right hpower =>
    split
    · exact tracksAt_pure (by simp)
    · obtain ⟨kind, hkind, hpower⟩ := Option.bind_eq_some_iff.1 hpower
      have hne : kind ≠ .inKw := by
        rintro rfl
        cases hpower
      refine ((stepsAt_advance hkind hne).lead fun op => ?_).mono (Nat.le_refl 3) (Nat.zero_le 1)
      refine (tracks_operation hexpr op lhs right).bind fun e v hv s => (hagain e s).imp fun w e' hw => ?_
      rw [← and_assoc, hv, hw]

end

/-- **What looking for `in` does to expressions**: it comes to the same result as the grammar unless
a brace of an object misleads, and then it fails. -/
theorem tracks_exprBy (least : Nat) :
    TracksExpr source (exprBy opensMapped least) (exprBy startsMapped least) := by
  refine tracks_fix (S := fun _ v (e : Expr) => v ↔ Upright source e.nodes) (fun expr expr' hexpr least => ?_) least
  refine (tracks_primary hexpr).lead fun lhs v hv s => ?_
  refine (tracks_operatorTail hexpr least lhs s).imp fun w e hw => ?_
  rw [hv, hw]

end Parser

end TypeForge
