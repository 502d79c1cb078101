import TypeForge.Proofs.Parser.Consumes
import TypeForge.Proofs.Printing.Laws

/-!
# The parser keeps what a text says

Parentheses, commas and semicolons group and separate; everything else in a text has a place
in the syntax tree.  What a text says is its words without the grouping ones, a string by its
content, since the tree does not tell which quotes were around it.  A text that parses says
exactly what the printed tree says: the parser drops no word, invents none and keeps their
order.
-/

namespace TypeForge

/-! ## What words say -/

/-- The kinds of words that only group and separate. -/
def Kind.isGrouping : Kind → Bool
  | .lparen | .rparen | .comma | .semicolon => true
  | _ => false

/-- What a word says: itself, unless it only groups or separates; a string says its content. -/
def Word.spoken (w : Word) : List Word :=
  if w.kind.isGrouping then []
  else if w.kind = .string then [⟨.string, Parser.unquoted w.text⟩]
  else [w]

/-- What words say. -/
def spoken (ws : List Word) : List Word := ws.flatMap Word.spoken

@[simp] theorem spoken_nil : spoken [] = [] := rfl

@[simp] theorem spoken_cons (w : Word) (ws : List Word) : spoken (w :: ws) = w.spoken ++ spoken ws := rfl

@[simp] theorem spoken_append (us vs : List Word) : spoken (us ++ vs) = spoken us ++ spoken vs :=
  List.flatMap_append ..

@[simp] theorem spoken_lparen : Kind.lparen.word.spoken = [] := rfl

@[simp] theorem spoken_rparen : Kind.rparen.word.spoken = [] := rfl

@[simp] theorem spoken_comma : Kind.comma.word.spoken = [] := rfl

@[simp] theorem spoken_semicolon : Kind.semicolon.word.spoken = [] := rfl

@[simp] theorem spoken_enclose (least power : Nat) (ws : List Word) :
    spoken (enclose least power ws) = spoken ws := by
  unfold enclose
  split <;> simp

@[simp] theorem spoken_commaWords (items : List (List Word)) :
    spoken (commaWords items) = spoken items.flatten := by
  have hmore (items : List (List Word)) :
      spoken (moreWords Kind.comma.word items) = spoken items.flatten := by
    induction items with
    | nil => rfl
    | cons ws items ih => simpa [moreWords] using ih
  cases items with
  | nil => rfl
  | cons ws items => simp [commaWords, separatedWords, hmore]

@[simp] theorem spoken_paramListWords (items : List (List Word)) :
    spoken (paramListWords items) = spoken items.flatten := by
  simp [paramListWords]

@[simp] theorem spoken_lambdaHead (items : List (List Word)) :
    spoken (lambdaHead items) = spoken items.flatten := by
  unfold lambdaHead
  split <;> simp

@[simp] theorem spoken_stmtWords (ss : List Stmt) :
    spoken (stmtWords ss).flatten = spoken (ss.map Stmt.words).flatten := by
  induction ss with
  | nil => rfl
  | cons s ss ih => simp [ih]

namespace Parser

/-! ## Parsers that keep what they take -/

/-- The result of `p`, printed as `words` does it, says what `p` has taken. -/
def Keeps {α : Type} (p : Parser α) (words : α → List Word) : Prop :=
  Consumes p fun us a => spoken us = spoken (words a)

section

variable {α : Type} {item : Parser α} {words : α → List Word}

theorem keeps_moreSeparated {separator : Kind} (h : separator.word.spoken = [])
    (hspelling : separator.spelling?.isSome = true) (hitem : Keeps item words) :
    Keeps (moreSeparated separator item) fun as => (as.map words).flatten := by
  refine consumes_loop fun again hagain => ?_
  refine (consumes_take hspelling).bind fun found us hus => ?_
  cases found with
  | false => exact consumes_pure (by simp [hus])
  | true =>
    refine hitem.bind fun a vs hvs => hagain.bind fun as ws hws => consumes_pure ?_
    simp [hus, hvs, hws, h]

/-- Items with grouping words between them. -/
theorem keeps_separated {separator : Kind} (h : separator.word.spoken = [])
    (hspelling : separator.spelling?.isSome = true) (hitem : Keeps item words) :
    Keeps (separated separator item) fun as => (as.map words).flatten := by
  refine hitem.bind fun a us hus => ?_
  refine (keeps_moreSeparated h hspelling hitem).bind fun as vs hvs => consumes_pure ?_
  simp [hus, hvs]

theorem keeps_commaList (hitem : Keeps item words) :
    Keeps (separated .comma item) fun as => (as.map words).flatten :=
  keeps_separated rfl (by decide) hitem

theorem keeps_whileInBraces (hitem : Keeps item words) :
    Keeps (whileInBraces item) fun as => (as.map words).flatten := by
  refine consumes_loop fun again hagain => consumes_get fun s => ?_
  split
  · refine (hitem s).bind fun a us hus => hagain.bind fun as vs hvs => consumes_pure ?_
    simp [hus, hvs]
  · exact from_pure rfl

end

variable {expr : Parser Expr}

/-- An optional expression behind a token. -/
theorem keeps_behind {kind : Kind} (hexpr : Keeps expr Expr.words)
    (hspelling : kind.spelling?.isSome = true) :
    Keeps (takeThen kind expr) (behindWords kind) := by
  refine (consumes_takeThen hexpr hspelling).imp fun us found h => ?_
  rcases h with ⟨rfl, rfl⟩ | ⟨vs, e, rfl, rfl, he⟩
  · rfl
  · simp [he]

theorem keeps_stringLiteral : Keeps stringLiteral fun text => [stringWord text] := by
  refine (consumes_consume_any .string).bind fun t us h => consumes_pure ?_
  have hspoken : t.word.spoken = [⟨.string, unquoted t.text⟩] := by
    simp [Word.spoken, Token.word, h.1, Kind.isGrouping]
  have hstring : (stringWord (unquoted t.text)).spoken = [⟨.string, unquoted t.text⟩] := by
    simp [Word.spoken, Kind.isGrouping, unquoted_stringWord, show ∀ text, (stringWord text).kind = .string from fun _ => rfl]
  simp [h.2.2, hspoken, hstring]

/-- A separator between properties says nothing. -/
theorem consumes_takeSeparator : Consumes takeSeparator fun us _ => spoken us = [] := by
  refine (consumes_take (by decide)).bind fun found us hus => ?_
  cases found with
  | true => exact consumes_pure (by simp [hus])
  | false => exact (consumes_take (by decide)).imp fun vs found hvs => by cases found <;> simp [hus, hvs]

section

variable (hexpr : Keeps expr Expr.words)

include hexpr

theorem keeps_param : Keeps (param expr) Param.words := by
  refine consumes_get fun s => (consumes_name s).bind fun name us hus => ?_
  refine (keeps_behind hexpr (by decide)).bind fun bound vs hvs => consumes_pure ?_
  simp [hus, hvs]

theorem keeps_paramList : Keeps (paramList expr) fun ps => (ps.map Param.words).flatten := by
  refine (consumes_consume (by decide)).bind fun _ us hus => ?_
  refine (keeps_commaList (keeps_param hexpr)).bind fun ps vs hvs => ?_
  refine (consumes_consume (by decide)).bind fun _ ws hws => consumes_pure ?_
  simp [hus, hvs, hws]

theorem keeps_exprList {close : Kind} (hspelling : close.spelling?.isSome = true) :
    Keeps (exprList close expr) fun es => (es.map Expr.words).flatten ++ [close.word] := by
  have hlast : ∀ es us, spoken us = spoken (es.map Expr.words).flatten →
      Consumes (do let _ ← consume close; return es) fun vs (as : List Expr) =>
        spoken (us ++ vs) = spoken ((as.map Expr.words).flatten ++ [close.word]) :=
    fun es us hus => (consumes_consume hspelling).bind fun _ vs hvs =>
      consumes_pure (by simp [hus, hvs])
  refine consumes_get fun s => ?_
  split
  · exact (consumes_return [] s).bind fun es us h => hlast es us (by simp [h])
  · exact (keeps_commaList hexpr s).bind hlast

theorem keeps_bareStmt : Keeps (bareStmt expr) Stmt.words := by
  refine consumes_get fun s => ?_
  split
  · next hassertion =>
    have hadvance : From s advance fun us _ => us = [nameWord assertionName] := by
      intro hclean t s' hrun
      obtain ⟨hclean', ts, hitems, hcurrent, -, hwords⟩ := from_advance hclean t s' hrun
      simp only [startsAssertion, hcurrent, Option.any_some, Bool.and_eq_true, beq_iff_eq] at hassertion
      refine ⟨hclean', ts, hitems, ?_⟩
      rw [hwords, Token.word, hassertion.1, hassertion.2, nameWord]
    refine hadvance.bind fun _ us₁ h₁ => (consumes_consume (by decide)).bind fun _ us₂ h₂ => ?_
    refine hexpr.bind fun left us₃ h₃ => (consumes_consume (by decide)).bind fun _ us₄ h₄ => ?_
    refine hexpr.bind fun right us₅ h₅ => ?_
    refine (consumes_consume (by decide)).bind fun _ us₆ h₆ => consumes_pure ?_
    simp [h₁, h₂, h₃, h₄, h₅, h₆]
  · refine (consumes_take (by decide) s).bind fun found us₁ h₁ => ?_
    cases found with
    | true =>
      refine consumes_name.bind fun name us₂ h₂ => (consumes_consume (by decide)).bind fun _ us₃ h₃ => ?_
      refine hexpr.bind fun value us₄ h₄ => consumes_pure ?_
      simp [h₁, h₂, h₃, h₄]
    | false =>
      refine hexpr.bind fun value us₂ h₂ => consumes_pure ?_
      simp [h₁, h₂]

theorem keeps_stmt : Keeps (stmt expr) Stmt.words := by
  refine (keeps_bareStmt hexpr).bind fun s us hus => ?_
  refine (consumes_take (by decide)).bind fun found vs hvs => ?_
  refine consumes_pure ?_
  cases found <;> simp [hus, hvs]

theorem keeps_stmtBlock : Keeps (stmtBlock expr) fun ss => blockWords (stmtWords ss) := by
  refine (consumes_consume (by decide)).bind fun _ us₁ h₁ => ?_
  refine (consumes_consume (by decide)).bind fun _ us₂ h₂ => ?_
  refine (keeps_stmt hexpr).bind fun first us₃ h₃ => ?_
  refine (keeps_whileInBraces (keeps_stmt hexpr)).bind fun more us₄ h₄ => ?_
  refine (consumes_consume (by decide)).bind fun _ us₅ h₅ => consumes_pure ?_
  simp [blockWords, h₁, h₂, h₃, h₄, h₅]

theorem keeps_arm : Keeps (arm expr) Arm.words := by
  refine consumes_get fun s => (hexpr s).bind fun pattern us₁ h₁ => ?_
  refine (consumes_consume (by decide)).bind fun _ us₂ h₂ => ?_
  refine hexpr.bind fun result us₃ h₃ => consumes_pure ?_
  simp [h₁, h₂, h₃]

theorem keeps_property : Keeps (property expr) Property.words := by
  refine consumes_get fun s => (consumes_take (by decide) s).bind fun found us₁ h₁ => ?_
  cases found with
  | true =>
    refine hexpr.bind fun key us₂ h₂ => (consumes_consume (by decide)).bind fun _ us₃ h₃ => ?_
    refine (consumes_take (by decide)).bind fun optional us₄ h₄ => ?_
    refine (consumes_consume (by decide)).bind fun _ us₅ h₅ => ?_
    refine hexpr.bind fun value us₆ h₆ => consumes_pure ?_
    simp [optionalWords, h₁, h₂, h₃, h₄, h₅, h₆]
  | false =>
    refine consumes_name.bind fun name us₂ h₂ => ?_
    refine (consumes_take (by decide)).bind fun optional us₃ h₃ => ?_
    refine (consumes_consume (by decide)).bind fun _ us₄ h₄ => ?_
    refine hexpr.bind fun value us₅ h₅ => consumes_pure ?_
    simp [optionalWords, h₁, h₂, h₃, h₄, h₅]

theorem keeps_properties : Keeps (properties expr) fun ps => (ps.map Property.words).flatten := by
  refine consumes_loop fun again hagain => consumes_get fun s => ?_
  split
  · refine (keeps_property hexpr s).bind fun p us₁ h₁ => ?_
    refine consumes_takeSeparator.bind fun found us₂ h₂ => ?_
    cases found with
    | true =>
      refine hagain.bind fun ps us₃ h₃ => consumes_pure ?_
      simp [h₁, h₂, h₃]
    | false => exact consumes_pure (by simp [h₁, h₂])
  · exact from_pure rfl

/-! ## Primary expressions -/

theorem keeps_lambda (pos : Position) : Keeps (lambda pos expr) Expr.words := by
  have hlast : ∀ ps us, spoken us = spoken (ps.map Param.words).flatten →
      Consumes (do let _ ← consume .fatArrow; return Expr.lambda pos ps (← expr)) fun vs e =>
        spoken (us ++ vs) = spoken e.words := by
    intro ps us hus
    refine (consumes_consume (by decide)).bind fun _ us₁ h₁ => ?_
    refine hexpr.bind fun body us₂ h₂ => consumes_pure ?_
    simp [paramWords_eq_map, hus, h₁, h₂]
  refine consumes_get fun s => ?_
  split
  · refine (keeps_param hexpr s).bind fun p us hus => (consumes_return [p]).bind fun ps vs hvs => ?_
    obtain ⟨rfl, rfl⟩ := hvs
    exact hlast [p] us (by simpa using hus)
  · split
    · refine (consumes_consume (by decide) s).bind fun _ us₁ h₁ => ?_
      refine (consumes_consume (by decide)).bind fun _ us₂ h₂ => ?_
      refine (consumes_return []).bind fun ps vs hvs => ?_
      obtain ⟨rfl, rfl⟩ := hvs
      subst h₁ h₂
      exact hlast [] [Kind.lparen.word, Kind.rparen.word] rfl
    · exact (keeps_paramList hexpr s).bind hlast

theorem keeps_mappedBody (pos : Position) :
    Consumes (mappedBody pos expr) fun us e =>
      Kind.lbrace.word.spoken ++ (spoken us ++ Kind.rbrace.word.spoken) = spoken e.words := by
  refine (consumes_consume (by decide)).bind fun _ us₁ h₁ => consumes_name.bind fun key us₂ h₂ => ?_
  refine (consumes_consume (by decide)).bind fun _ us₃ h₃ => hexpr.bind fun union us₄ h₄ => ?_
  refine (keeps_behind hexpr (by decide)).bind fun renamed us₅ h₅ => ?_
  refine (consumes_consume (by decide)).bind fun _ us₆ h₆ => ?_
  refine (consumes_take (by decide)).bind fun optional us₇ h₇ => ?_
  refine (consumes_consume (by decide)).bind fun _ us₈ h₈ => ?_
  refine hexpr.bind fun value us₉ h₉ => consumes_pure ?_
  simp [optionalWords, h₁, h₂, h₃, h₄, h₅, h₆, h₇, h₈, h₉]

theorem keeps_objectBody (pos : Position) :
    Consumes (objectBody pos expr) fun us e =>
      Kind.lbrace.word.spoken ++ (spoken us ++ Kind.rbrace.word.spoken) = spoken e.words := by
  refine (keeps_properties hexpr).bind fun ps us hus => consumes_pure ?_
  simp [propertyWords_eq_map, hus]

theorem keeps_braced (pos : Position) : Keeps (braced pos expr) Expr.words := by
  have hlast : ∀ us₁ e us₂, us₁ = [Kind.lbrace.word] →
      Kind.lbrace.word.spoken ++ (spoken us₂ ++ Kind.rbrace.word.spoken) = spoken e.words →
      Consumes (do let _ ← consume .rbrace; return e) fun vs (e : Expr) =>
        spoken (us₁ ++ (us₂ ++ vs)) = spoken e.words := by
    intro us₁ e us₂ h₁ h₂
    refine (consumes_consume (by decide)).bind fun _ us₃ h₃ => consumes_pure ?_
    simp [h₁, h₃, ← h₂]
  refine consumes_get fun s => (consumes_consume (by decide) s).bind fun _ us₁ h₁ => ?_
  split
  · exact (keeps_mappedBody hexpr pos).bind fun e us₂ h₂ => hlast us₁ e us₂ h₁ h₂
  · exact (keeps_objectBody hexpr pos).bind fun e us₂ h₂ => hlast us₁ e us₂ h₁ h₂

theorem from_conditional {s : Stream} (hs : s.kind? = some .ifKw) (pos : Position) :
    From s (conditional pos expr) fun us e => spoken us = spoken e.words := by
  refine (from_advance_kind hs (by decide)).bind fun _ us₁ h₁ => hexpr.bind fun test us₂ h₂ => ?_
  refine (consumes_consume (by decide)).bind fun _ us₃ h₃ => hexpr.bind fun consequent us₄ h₄ => ?_
  refine (consumes_consume (by decide)).bind fun _ us₅ h₅ => ?_
  refine hexpr.bind fun alternate us₆ h₆ => consumes_pure ?_
  simp [h₁, h₂, h₃, h₄, h₅, h₆]

theorem from_matching {s : Stream} (hs : s.kind? = some .matchKw) (pos : Position) :
    From s (matching pos expr) fun us e => spoken us = spoken e.words := by
  refine (from_advance_kind hs (by decide)).bind fun _ us₁ h₁ => hexpr.bind fun scrutinee us₂ h₂ => ?_
  refine (consumes_consume (by decide)).bind fun _ us₃ h₃ => ?_
  refine (keeps_commaList (keeps_arm hexpr)).bind fun arms us₄ h₄ => ?_
  refine (consumes_consume (by decide)).bind fun _ us₅ h₅ => consumes_pure ?_
  simp [armWords_eq_map, h₁, h₂, h₃, h₄, h₅]

theorem from_atom {s : Stream} {t : Token} (hs : s.current = some t) :
    From s (atom t expr) fun us e => spoken us = spoken e.words := by
  have hkind : s.kind? = some t.kind := by rw [Stream.kind?, hs]; rfl
  -- a token that is kept as it stands
  have hopen : ∀ {kind}, t.kind = kind → From s advance fun us u => us = [⟨kind, u.text⟩] := by
    intro kind ht hclean u s' hrun
    obtain ⟨hclean', ts, hitems, hcurrent, -, hwords⟩ := from_advance hclean u s' hrun
    rw [hs] at hcurrent
    cases hcurrent
    exact ⟨hclean', ts, hitems, hwords.trans (by rw [Token.word, ht])⟩
  unfold atom
  split
  · next ht => exact (hopen ht).bind fun u us h => consumes_pure (by simp [h, nameWord])
  · next ht => exact (hopen ht).bind fun u us h => consumes_pure (by simp [h])
  · exact (keeps_stringLiteral s).bind fun text us h => consumes_pure (by simpa using h)
  · next ht =>
    exact (from_advance_kind (ht ▸ hkind) (by decide)).bind fun _ us h => consumes_pure (by simp [h])
  · next ht =>
    exact (from_advance_kind (ht ▸ hkind) (by decide)).bind fun _ us h => consumes_pure (by simp [h])
  · next ht =>
    refine (from_advance_kind (ht ▸ hkind) (by decide)).bind fun _ us₁ h₁ => ?_
    refine hexpr.bind fun e us₂ h₂ => ?_
    exact (consumes_consume (by decide)).bind fun _ us₃ h₃ => consumes_pure (by simp [h₁, h₂, h₃])
  · next ht =>
    refine (from_advance_kind (ht ▸ hkind) (by decide)).bind fun _ us₁ h₁ => ?_
    refine (keeps_exprList hexpr (by decide)).bind fun es us₂ h₂ => consumes_pure ?_
    simp [exprWords_eq_map, h₁, h₂]
  · exact keeps_braced hexpr _ s
  · exact (keeps_stmtBlock hexpr s).bind fun body us h => consumes_pure (by simpa using h)
  · next ht =>
    refine (from_advance_kind (ht ▸ hkind) (by decide)).bind fun _ us₁ h₁ => ?_
    refine consumes_name.bind fun name us₂ h₂ => ?_
    refine (keeps_behind hexpr (by decide)).bind fun bound us₃ h₃ => consumes_pure ?_
    simp [h₁, h₂, h₃]
  · next ht => exact from_conditional hexpr (ht ▸ hkind) _
  · next ht => exact from_matching hexpr (ht ▸ hkind) _
  · exact consumes_fail s

end

/-! ## Operators -/

theorem kind_of_unaryOp? {kind : Kind} {op : UnaryOp} (h : unaryOp? kind = some op) : kind = op.kind := by
  unfold unaryOp? at h
  split at h <;> cases h <;> rfl

theorem kind_of_logicalOp? {kind : Kind} {op : LogicalOp} (h : logicalOp? kind = some op) :
    kind = op.kind := by
  unfold logicalOp? at h
  split at h <;> cases h <;> rfl

theorem kind_of_binaryOp? {kind : Kind} {op : BinaryOp} (h : binaryOp? kind = some op) :
    kind = op.kind := by
  unfold binaryOp? at h
  split at h <;> cases h <;> rfl

section

variable {exprAt : Nat → Parser Expr} (hexpr : ∀ least, Keeps (exprAt least) Expr.words)

include hexpr

theorem keeps_primary (isLambda : LambdaTest) : Keeps (primary isLambda exprAt) Expr.words := by
  refine consumes_get fun s => ?_
  split
  · exact consumes_fail s
  · next t hs =>
    split
    · next ht =>
      -- a clean stream holds no backtick
      intro hclean
      exact absurd ht (hclean.plain t (by simp [Stream.items, hs]))
    · split
      · exact keeps_lambda (hexpr 0) _ s
      · split
        · next op hop =>
          have hkind : s.kind? = some op.kind := by
            rw [Stream.kind?, hs, Option.map_some, kind_of_unaryOp? hop]
          refine (from_advance_kind hkind ?_).bind fun _ us₁ h₁ => ?_
          · cases op <;> decide
          · exact (hexpr prefixPower).bind fun operand us₂ h₂ => consumes_pure (by simp [h₁, h₂])
        · exact from_atom (hexpr 0) hs

/-- What an operator makes of its left operand says this operand, the operator and what comes
behind it. -/
theorem consumes_operation {op : Token} (hop : op.Genuine) (lhs : Expr) (power : Nat) :
    Consumes (operation exprAt op lhs power) fun us e =>
      spoken lhs.words ++ (op.word.spoken ++ spoken us) = spoken e.words := by
  unfold operation
  split
  · next hkind =>
    split
    · refine (hexpr power).bind fun value us h => consumes_pure ?_
      simp [hop.word_eq hkind (by decide), h]
    · exact consumes_fail
  · next hkind =>
    refine consumes_name.bind fun name us h => consumes_pure ?_
    simp [hop.word_eq hkind (by decide), h]
  · next hkind =>
    refine (hexpr 0).bind fun key us₁ h₁ => ?_
    refine (consumes_consume (by decide)).bind fun _ us₂ h₂ => consumes_pure ?_
    simp [hop.word_eq hkind (by decide), h₁, h₂]
  · next hkind =>
    refine (keeps_exprList (hexpr 0) (by decide)).bind fun args us h => consumes_pure ?_
    simp [hop.word_eq hkind (by decide), exprWords_eq_map, h]
  · split
    · next logical hlogical =>
      have hword := hop.word_eq (kind_of_logicalOp? hlogical) (by cases logical <;> decide)
      refine (hexpr power).bind fun rhs us h => consumes_pure ?_
      simp [hword, h]
    · next binary _ hbinary =>
      have hword := hop.word_eq (kind_of_binaryOp? hbinary) (by cases binary <;> decide)
      refine (hexpr power).bind fun rhs us h => consumes_pure ?_
      simp [hword, h]
    · exact consumes_fail

theorem consumes_operatorTail (least : Nat) (lhs : Expr) :
    Consumes (operatorTail exprAt least lhs) fun us e =>
      spoken lhs.words ++ spoken us = spoken e.words := by
  refine consumes_fix (S := fun lhs us (e : Expr) => spoken lhs.words ++ spoken us = spoken e.words)
    (fun again hagain lhs => consumes_get fun s => ?_) lhs
  split
  · exact from_pure (by simp)
  · split
    · exact from_pure (by simp)
    · refine from_advance.bind fun op us₁ h₁ => ?_
      obtain ⟨-, hgenuine, rfl⟩ := h₁
      refine (consumes_operation hexpr hgenuine lhs _).bind fun result us₂ h₂ => ?_
      refine (hagain result).imp fun us₃ e h₃ => ?_
      rw [← h₃, ← h₂]
      simp

end

/-- **An expression says what was read for it.** -/
theorem keeps_exprWith (isLambda : LambdaTest) (least : Nat) :
    Keeps (exprWith isLambda least) Expr.words := by
  refine consumes_fix (S := fun _ us (e : Expr) => spoken us = spoken e.words)
    (fun expr hexpr least => ?_) least
  refine (keeps_primary hexpr isLambda).bind fun lhs us₁ h₁ => ?_
  exact (consumes_operatorTail hexpr least lhs).imp fun us₂ e h₂ => by rw [spoken_append, h₁, h₂]

/-! ## Programs -/

section

variable {expr : Parser Expr} (hexpr : Keeps expr Expr.words)

include hexpr

theorem keeps_definition : Keeps (definition expr) fun d => (TopLevel.definition d).words := by
  refine consumes_get fun start => (consumes_take (by decide) start).bind fun isExported us₁ h₁ => ?_
  refine (consumes_consume (by decide)).bind fun _ us₂ h₂ => consumes_name.bind fun name us₃ h₃ => ?_
  have hlast : ∀ ps us₄, spoken us₄ = spoken (ps.map Param.words).flatten →
      Consumes (do
        let _ ← consume .assign
        let body ← expr
        let _ ← take .semicolon
        return (⟨start.pos, isExported, name, ps, body⟩ : Definition)) fun vs d =>
        spoken (us₁ ++ (us₂ ++ (us₃ ++ (us₄ ++ vs)))) = spoken (TopLevel.definition d).words := by
    intro ps us₄ h₄
    refine (consumes_consume (by decide)).bind fun _ us₅ h₅ => hexpr.bind fun body us₆ h₆ => ?_
    refine (consumes_take (by decide)).bind fun found us₇ h₇ => consumes_pure ?_
    have hparams : spoken (if ps.isEmpty then [] else paramListWords (paramWords ps)) = spoken us₄ := by
      rw [h₄]
      cases ps <;> simp [paramWords_eq_map]
    simp only [TopLevel.words, spoken_append, spoken_cons, hparams]
    cases found <;> simp [h₁, h₂, h₃, h₅, h₆, h₇]
  refine consumes_get fun s => ?_
  split
  · exact (keeps_paramList hexpr s).bind hlast
  · refine (consumes_return [] s).bind fun ps us₄ h₄ => hlast ps us₄ (by simp [h₄])

theorem keeps_sectionOf : Keeps (sectionOf expr) fun s => (TopLevel.sectionOf s).words := by
  refine consumes_get fun start => (consumes_consume (by decide) start).bind fun _ us₁ h₁ => ?_
  refine (consumes_consume (by decide)).bind fun _ us₂ h₂ => consumes_name.bind fun name us₃ h₃ => ?_
  refine (consumes_consume (by decide)).bind fun _ us₄ h₄ => ?_
  refine (keeps_stmtBlock hexpr).bind fun body us₅ h₅ => ?_
  exact consumes_pure (by simp [TopLevel.words, h₁, h₂, h₃, h₄, h₅])

end

theorem keeps_importOf : Keeps importOf fun i => (TopLevel.importOf i).words := by
  refine consumes_get fun start => (consumes_consume (by decide) start).bind fun _ us₁ h₁ => ?_
  have hname : Keeps name fun text => [nameWord text] := consumes_name.imp fun us text h => by rw [h]
  refine (consumes_consume (by decide)).bind fun _ us₂ h₂ => ?_
  refine (keeps_commaList hname).bind fun symbols us₃ h₃ => ?_
  refine (consumes_consume (by decide)).bind fun _ us₄ h₄ => ?_
  refine (consumes_consume (by decide)).bind fun _ us₅ h₅ => ?_
  refine keeps_stringLiteral.bind fun source us₆ h₆ => ?_
  refine (consumes_take (by decide)).bind fun found us₇ h₇ => ?_
  refine consumes_pure ?_
  cases found <;> simp [TopLevel.words, h₁, h₂, h₃, h₄, h₅, h₆, h₇]

theorem keeps_topLevel {expr : Parser Expr} (hexpr : Keeps expr Expr.words) (t : Token) :
    Keeps (topLevel t expr) TopLevel.words := by
  unfold topLevel
  split
  · exact (keeps_definition hexpr).bind fun d us h => consumes_pure (by simpa using h)
  · exact (keeps_definition hexpr).bind fun d us h => consumes_pure (by simpa using h)
  · exact (keeps_sectionOf hexpr).bind fun s us h => consumes_pure (by simpa using h)
  · exact keeps_importOf.bind fun i us h => consumes_pure (by simpa using h)
  · exact consumes_fail

theorem keeps_topLevels {expr : Parser Expr} (hexpr : Keeps expr Expr.words) :
    Keeps (topLevels expr) fun items => (items.map TopLevel.words).flatten := by
  refine consumes_loop fun again hagain => consumes_get fun s => ?_
  split
  · exact from_pure rfl
  · refine (keeps_topLevel hexpr _ s).bind fun item us₁ h₁ => hagain.bind fun items us₂ h₂ => ?_
    exact consumes_pure (by simp [h₁, h₂])

theorem keeps_program (isLambda : LambdaTest) : Keeps (program isLambda) Program.words := by
  refine (keeps_topLevels (keeps_exprWith isLambda 0)).bind fun items us h => ?_
  split
  · exact consumes_fail
  · exact consumes_pure (by simpa [Program.words] using h)

/-- The items of a program go up to the end of the text. -/
theorem ended_topLevels {expr : Parser Expr} {s s' : Stream} {items : List TopLevel}
    (h : topLevels expr s = .ok (items, s')) : s'.current = none := by
  induction hn : s.size using Nat.strongRecOn generalizing s items with
  | ind n ih =>
    rw [topLevels, run_fix, run_get] at h
    cases hcurrent : s.current with
    | none =>
      rw [hcurrent] at h
      cases h
      exact hcurrent
    | some t =>
      rw [hcurrent] at h
      obtain ⟨item, s₁, -, h₁⟩ := run_bind_eq_ok h
      obtain ⟨more, s₂, h₂, h₃⟩ := run_bind_eq_ok h₁
      cases h₃
      obtain ⟨hlt, hagain⟩ := run_below_eq_ok h₂
      exact ih s₁.size (hn ▸ hlt) hagain rfl

theorem ended_program {isLambda : LambdaTest} {s s' : Stream} {program : Program}
    (h : Parser.program isLambda s = .ok (program, s')) : s'.current = none := by
  obtain ⟨items, s₁, h₁, h₂⟩ := run_bind_eq_ok h
  cases items with
  | nil => cases h₂
  | cons item items =>
    cases h₂
    exact ended_topLevels h₁

end Parser

/-- What a program says, node by node in the order of the grammar. -/
def Program.linearisation (program : Program) : List Word := spoken program.words

/-- **The parser neither drops, invents nor reorders tokens**: a text without backticks that
parses is made of tokens which say exactly what the program says. -/
theorem spoken_of_parseProgram {source : String} {program : Program}
    (h : parseProgram source = .ok program)
    (hplain : ∀ t : Token, .ok t ∈ (Cursor.ofString source).items.1 → t.kind ≠ .backtick) :
    ∃ ts : List Token, (Cursor.ofString source).items.1 = ts.map .ok ∧
      spoken (ts.map Token.word) = program.linearisation := by
  obtain ⟨s, s', hstream, hrun⟩ : ∃ s s', Stream.ofString source = .ok s ∧
      Parser.program Parser.windowTest s = .ok (program, s') := by
    unfold parseProgram at h
    cases hstream : Stream.ofString source with
    | error e => rw [hstream] at h; cases h
    | ok s =>
      cases hrun : Parser.program Parser.windowTest s with
      | error e => simp [hstream, hrun, bind, Except.bind] at h
      | ok r =>
        obtain ⟨parsed, s'⟩ := r
        simp only [hstream, hrun, bind, Except.bind, pure, Except.pure, Except.ok.injEq] at h
        exact ⟨s, s', rfl, by rw [hrun, h]⟩
  obtain ⟨hitems, hended⟩ := Stream.items_ofCursor hstream
  have hclean : s.Clean :=
    ⟨hended, fun t ht => Cursor.genuine_of_mem_items (hitems ▸ ht), fun t ht => hplain t (hitems ▸ ht)⟩
  obtain ⟨hclean', ts, hts, hspoken⟩ := Parser.keeps_program _ s hclean program s' hrun
  refine ⟨ts, ?_, hspoken⟩
  rw [← hitems, hts, hclean'.ended (Parser.ended_program hrun), List.append_nil]

/-- A text with more parentheses and separators than needed, and with both kinds of quotes. -/
def groupedSource : String :=
  "export type f(a: number, b) = ((a)) - g('x', \x7b k?: \"y\"; [a]: (b), \x7d);"

theorem spoken_groupedSource :
    ∃ program, parseProgram groupedSource = .ok program ∧
      (∀ t : Token, .ok t ∈ (Cursor.ofString groupedSource).items.1 → t.kind ≠ .backtick) ∧
      (∃ ts : List Token, (Cursor.ofString groupedSource).items.1 = ts.map .ok ∧
        spoken (ts.map Token.word) = program.linearisation) ∧
      program.linearisation.map Word.text =
        ["export", "type", "f", "a", ":", "number", "b", "=", "a", "-", "g", "x", "\x7b", "k", "?", ":",
          "y", "[", "a", "]", ":", "b", "\x7d"] := by
  have hparses : (parseProgram groupedSource).toOption.isSome = true := by decide +kernel
  have hplain : ((Cursor.ofString groupedSource).items.1.all fun item =>
      item.toOption.all fun t => t.kind != .backtick) = true := by decide +kernel
  have htexts : ((spoken (((Cursor.ofString groupedSource).items.1.filterMap Except.toOption).map
      Token.word)).map Word.text) =
        ["export", "type", "f", "a", ":", "number", "b", "=", "a", "-", "g", "x", "\x7b", "k", "?", ":",
          "y", "[", "a", "]", ":", "b", "\x7d"] := by decide +kernel
  cases hprogram : parseProgram groupedSource with
  | error e => rw [hprogram] at hparses; cases hparses
  | ok program =>
    have hplain' : ∀ t : Token, .ok t ∈ (Cursor.ofString groupedSource).items.1 → t.kind ≠ .backtick := by
      intro t ht
      simpa [Except.toOption] using List.all_eq_true.1 hplain _ ht
    obtain ⟨ts, hts, hspoken⟩ := spoken_of_parseProgram hprogram hplain'
    refine ⟨program, rfl, hplain', ⟨ts, hts, hspoken⟩, ?_⟩
    rw [← hspoken, ← htexts, hts]
    simp [List.filterMap_map, Function.comp_def, Except.toOption]

end TypeForge
