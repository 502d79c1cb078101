import TypeForge.Proofs.Parser.Accepts
import TypeForge.Proofs.Printing.Laws

/-!
# Productions accept what is printed

Each production over a parser for expressions accepts the printed form of its construct, if
the parser for expressions accepts the expressions in it.  An expression is read as far as
possible, so what stands behind it must not continue it: no operator, no arrow and no bound.
-/

namespace TypeForge

namespace Parser

/-! ## What may stand behind an expression -/

/-- Whether words do not continue an expression that is read with the least power `least`. -/
def closes (least : Nat) : List Word → Bool
  | [] => true
  | w :: _ =>
    w.kind != .fatArrow && w.kind != .extendsKw && w.kind != .colon &&
      (infixPower w.kind).all fun power => power.1 < least

theorem startsWith_of_closes {least : Nat} {rest : List Word} {kind : Kind}
    (h : closes least rest = true) (hkind : kind = .fatArrow ∨ kind = .extendsKw ∨ kind = .colon) :
    startsWith kind rest = false := by
  cases rest with
  | nil => rfl
  | cons w rest =>
    simp only [closes, Bool.and_eq_true, bne_iff_ne] at h
    obtain ⟨⟨⟨harrow, hextends⟩, hcolon⟩, -⟩ := h
    rcases hkind with rfl | rfl | rfl
    · exact beq_eq_false_iff_ne.2 harrow
    · exact beq_eq_false_iff_ne.2 hextends
    · exact beq_eq_false_iff_ne.2 hcolon

/-- Words that can stand behind an expression that is read with the least power `least`. -/
structure Follows (least : Nat) (rest : List Word) : Prop where
  closes : closes least rest = true
  clear : isClear rest = true

theorem follows_cons {least : Nat} {w : Word} {vs : List Word} (h : Parser.closes least [w] = true)
    (hin : w.kind ≠ .inKw) (hvs : isClear vs = true) : Follows least (w :: vs) :=
  ⟨h, isClear_cons hin hvs⟩

variable {α β : Type} {n m : Nat} {rest : List Word}

/-- The parser `p` takes the words `ws` between others, with a result that satisfies `good`, on
streams smaller than `n`. -/
structure Takes (n : Nat) (p : Parser α) (ws : List Word) (good : α → Prop) : Prop where
  opens : opens ws = true
  clear : ∀ vs, isClear vs = true → isClear (ws ++ vs) = true
  accepts : ∀ k, k < n → ∀ rest, Follows 0 rest → Accepts k p ws rest good

theorem Takes.mono {p : Parser α} {ws : List Word} {good : α → Prop} {k : Nat}
    (h : Takes n p ws good) (hk : k ≤ n) : Takes k p ws good :=
  ⟨h.opens, h.clear, fun _ hlt => h.accepts _ (Nat.lt_of_lt_of_le hlt hk)⟩

/-- The parser `expr` takes the words of `e`. -/
abbrev TakesExpr (n : Nat) (expr : Parser Expr) (e : Expr) : Prop :=
  Takes n expr e.words fun a => a.unlocated = e.unlocated

/-- Words that can start an expression do not start with a word of another kind. -/
theorem startsWith_eq_false {kind : Kind} {ws : List Word} (h : opens ws = true)
    (hkind : ∀ text, Word.opens ⟨kind, text⟩ = false) : startsWith kind ws = false := by
  cases ws with
  | nil => rfl
  | cons w ws =>
    rw [startsWith, beq_eq_false_iff_ne]
    rintro rfl
    have hw : w.opens = true := h
    rw [hkind w.text] at hw
    cases hw

theorem startsWith_append {kind : Kind} {us vs : List Word} (h : us ≠ []) :
    startsWith kind (us ++ vs) = startsWith kind us := by
  cases us with
  | nil => exact absurd rfl h
  | cons w us => rfl

theorem any_take_one (kind : Kind) (ws : List Word) :
    ((ws.take 1).any fun w => w.kind == kind) = startsWith kind ws := by
  cases ws with
  | nil => rfl
  | cons w ws => simp [startsWith]

/-! ## Lists -/

section

variable {item : Parser α} {words : α → List Word} {view : α → β} {cs : List α}

theorem Takes.follows {p : Parser α} {ws : List Word} {good : α → Prop} (h : Takes n p ws good)
    {vs : List Word} (hvs : isClear vs = true) : Follows 0 (Kind.comma.word :: (ws ++ vs)) :=
  follows_cons rfl (by decide) (h.clear vs hvs)

/-- Items with commas between them. -/
theorem accepts_commaList (hitem : ∀ c ∈ cs, Takes m item (words c) fun a => view a = view c)
    (hm : n < m) (hne : cs ≠ []) (hend : startsWith .comma rest = false) (hrest : Follows 0 rest) :
    Accepts n (separated .comma item) (commaWords (cs.map words)) rest
      fun as => as.map view = cs.map view :=
  accepts_separated (Follows 0) hend hrest hne
    (fun c hc k hk vs hvs => (hitem c hc).accepts k (Nat.lt_of_le_of_lt hk hm) vs hvs)
    fun c hc _ hvs => (hitem c hc).follows hvs.clear

theorem isClear_commaList (hitem : ∀ c ∈ cs, Takes n item (words c) fun a => view a = view c)
    {vs : List Word} (hvs : isClear vs = true) : isClear (commaWords (cs.map words) ++ vs) = true := by
  refine inherited_isClear.commaWords (fun ws hws => ?_) vs hvs
  obtain ⟨c, hc, rfl⟩ := List.mem_map.1 hws
  exact (hitem c hc).clear

end

variable {expr : Parser Expr}

/-- Expressions up to a closing token. -/
theorem accepts_exprList {close : Kind} (hclose : close = .rparen ∨ close = .rbracket)
    {es : List Expr} (hes : ∀ e ∈ es, TakesExpr m expr e) (hm : n < m) (hrest : isClear rest = true) :
    Accepts n (exprList close expr) (commaWords (exprWords es) ++ [close.word]) rest
      fun as => unlocatedExprs as = unlocatedExprs es := by
  rw [exprWords_eq_map]
  simp only [unlocatedExprs_eq_map]
  refine accepts_get fun s hshows => ?_
  cases es with
  | nil =>
    have hat : s.at? close = true := by
      rw [at?_eq_startsWith hshows]
      rcases hclose with rfl | rfl <;> rfl
    rw [if_pos hat]
    refine (accepts_return []).silent fun as has => ?_
    subst has
    exact accepts_consume.map fun _ _ => rfl
  | cons e es =>
    have hopens := (hes e (List.mem_cons_self ..)).opens
    have hat : s.at? close = false := by
      rw [at?_eq_startsWith hshows]
      refine startsWith_eq_false ?_ fun text => ?_
      · rw [commaWords, List.map_cons, separatedWords, List.append_assoc, List.append_assoc]
        exact opens_append _ hopens
      · rcases hclose with rfl | rfl <;> rfl
    rw [if_neg (by rw [hat]; exact Bool.false_ne_true)]
    have hfollows : Follows 0 (close.word :: rest) := by
      rcases hclose with rfl | rfl <;> exact follows_cons rfl (by decide) hrest
    have hend : startsWith .comma (close.word :: rest) = false := by
      rcases hclose with rfl | rfl <;> rfl
    refine (accepts_commaList hes hm (by simp) hend hfollows).bind fun as has k hk => ?_
    exact accepts_consume.map fun _ _ => has

/-- An optional expression behind a token. -/
theorem accepts_behind {kind : Kind} {e : Option Expr} (he : ∀ a, e = some a → TakesExpr n expr a)
    (hrest : Follows 0 rest) (hend : startsWith kind rest = false) :
    Accepts n (takeThen kind expr) (behindWords kind e) rest
      fun found => unlocatedOption found = unlocatedOption e := by
  cases e with
  | none =>
    refine (accepts_takeThen_none hend).imp fun found hfound => ?_
    rw [hfound]
  | some a =>
    refine (accepts_takeThen fun k hk => (he a rfl).accepts k (by omega) rest hrest).imp ?_
    rintro found ⟨b, rfl, hb⟩
    rw [unlocatedOption, unlocatedOption, hb]

theorem isClear_behind {kind : Kind} {e : Option Expr} (he : ∀ a, e = some a → TakesExpr n expr a)
    (hkind : kind ≠ .inKw) {vs : List Word} (hvs : isClear vs = true) :
    isClear (behindWords kind e ++ vs) = true := by
  cases e with
  | none => exact hvs
  | some a => exact isClear_cons hkind ((he a rfl).clear vs hvs)

/-! ## Parameters -/

theorem accepts_param {p : Position} {name : String} {bound : Option Expr}
    (hbound : Accepts n (takeThen .colon expr) (behindWords .colon bound) rest
      fun found => unlocatedOption found = unlocatedOption bound) :
    Accepts n (param expr) (Param.mk p name bound).words rest
      fun a => a.unlocated = (Param.mk p name bound).unlocated := by
  refine accepts_get fun s _ => (accepts_name name).cons fun found hfound k hk => ?_
  subst hfound
  exact (hbound.mono (Nat.le_of_lt hk)).map fun b hb => by simp [hb]

theorem takes_param {p : Position} {name : String} {bound : Option Expr} (hname : isName name = true)
    (hbound : ∀ e, bound = some e → TakesExpr n expr e) :
    Takes n (param expr) (Param.mk p name bound).words
      fun a => a.unlocated = (Param.mk p name bound).unlocated where
  opens := opens_nameWord hname _
  clear vs hvs := isClear_cons (by simp [nameWord]) (isClear_behind hbound (by decide) hvs)
  accepts k hk rest hrest :=
    accepts_param (accepts_behind (fun e he => (hbound e he).mono (Nat.le_of_lt hk)) hrest
      (startsWith_of_closes hrest.closes (.inr (.inr rfl))))

/-- Parameters between parentheses. -/
theorem accepts_paramList {ps : List Param} (hne : ps ≠ [])
    (hps : ∀ p ∈ ps, Takes n (param expr) p.words fun a => a.unlocated = p.unlocated)
    (hrest : isClear rest = true) :
    Accepts n (paramList expr) (paramListWords (paramWords ps)) rest
      fun as => unlocatedParams as = unlocatedParams ps := by
  rw [paramWords_eq_map]
  simp only [unlocatedParams_eq_map]
  refine accepts_consume.cons fun _ _ k hk => ?_
  have hlist := accepts_commaList hps hk hne rfl
    (follows_cons (w := Kind.rparen.word) rfl (by decide) hrest)
  exact hlist.bind fun as has k' _ => accepts_consume.map fun _ _ => has

/-! ## Statements -/

/-- The parser takes a statement in front of a semicolon. -/
structure TakesStmt (n : Nat) (expr : Parser Expr) (s : Stmt) : Prop where
  ne_nil : s.words ≠ []
  start : startsWith .rbrace s.words = false
  clear : ∀ vs, isClear vs = true → isClear (s.words ++ vs) = true
  accepts : ∀ k, k < n → ∀ rest, Follows 0 rest →
    Accepts k (bareStmt expr) s.words rest fun a => a.unlocated = s.unlocated

theorem startsAssertion_of_shows {s : Stream} {w : Word} {ws : List Word} (h : s.Shows (w :: ws)) :
    startsAssertion s = (w.kind == .identifier && w.text == assertionName) := by
  obtain ⟨t, hcurrent, rfl, -, -⟩ := h
  simp [startsAssertion, hcurrent, Token.word]

theorem takesStmt_letDecl {p : Position} {name : String} {value : Expr}
    (hvalue : TakesExpr n expr value) : TakesStmt n expr (.letDecl p name value) where
  ne_nil := by simp
  start := rfl
  clear vs hvs := isClear_cons (by decide) (isClear_cons (by simp [nameWord])
    (isClear_cons (by decide) (hvalue.clear vs hvs)))
  accepts k hk rest hrest := by
    refine accepts_get fun s hshows => ?_
    have hassertion : startsAssertion s = false := startsAssertion_of_shows hshows
    rw [if_neg (by rw [hassertion]; exact Bool.false_ne_true)]
    refine accepts_take.cons fun found hfound k₁ hk₁ => ?_
    subst hfound
    refine (accepts_name name).cons fun found hfound k₂ hk₂ => ?_
    subst hfound
    refine accepts_consume.cons fun _ _ k₃ hk₃ => ?_
    exact (hvalue.accepts k₃ (by omega) rest hrest).map fun a ha => by simp [ha]

theorem takesStmt_assertEqual {p : Position} {left right : Expr} (hleft : TakesExpr n expr left)
    (hright : TakesExpr n expr right) : TakesStmt n expr (.assertEqual p left right) where
  ne_nil := by simp
  start := rfl
  clear vs hvs := by
    have hright' := isClear_cons (w := Kind.comma.word) (by decide)
      (hright.clear _ (isClear_cons (w := Kind.rparen.word) (by decide) hvs))
    have hleft' := isClear_cons (w := Kind.lparen.word) (by decide) (hleft.clear _ hright')
    simpa using isClear_cons (w := nameWord assertionName) (by decide) hleft'
  accepts k hk rest hrest := by
    refine accepts_get fun s hshows => ?_
    have hassertion : startsAssertion s = true := startsAssertion_of_shows hshows
    rw [if_pos hassertion]
    have hend : Follows 0 (Kind.rparen.word :: rest) := follows_cons rfl (by decide) hrest.clear
    have hcomma : Follows 0 (Kind.comma.word :: (right.words ++ (Kind.rparen.word :: rest))) :=
      hright.follows hend.clear
    refine (accepts_advance _).cons fun _ _ k₁ hk₁ => ?_
    refine accepts_consume.cons fun _ _ k₂ hk₂ => ?_
    refine Accepts.bind (hleft.accepts k₂ (by omega) _ (by simpa using hcomma)) fun a ha k₃ hk₃ => ?_
    refine accepts_consume.cons fun _ _ k₄ hk₄ => ?_
    refine (hright.accepts k₄ (by omega) _ hend).bind fun b hb k₅ hk₅ => ?_
    exact accepts_consume.map fun _ _ => by simp [ha, hb]

theorem takesStmt_expr {p : Position} {value : Expr} (hvalue : TakesExpr n expr value) :
    TakesStmt n expr (.expr p value) where
  ne_nil := by
    intro h
    have hopens := hvalue.opens
    rw [Stmt.words] at h
    rw [h] at hopens
    cases hopens
  start := startsWith_eq_false hvalue.opens fun _ => rfl
  clear := hvalue.clear
  accepts k hk rest hrest := by
    refine accepts_get fun s hshows => ?_
    have hopens := opens_append rest hvalue.opens
    have hassertion : startsAssertion s = false := by
      cases hwords : value.words ++ rest with
      | nil => rw [hwords] at hopens; cases hopens
      | cons w ws =>
        rw [Stmt.words, hwords] at hshows
        rw [hwords] at hopens
        rw [startsAssertion_of_shows hshows, Bool.and_eq_false_imp]
        intro hkind
        simpa [opens, Word.opens, beq_iff_eq.1 hkind] using hopens
    rw [if_neg (by rw [hassertion]; exact Bool.false_ne_true)]
    refine (accepts_take_none (startsWith_eq_false hopens fun _ => rfl)).silent fun found hfound => ?_
    subst hfound
    exact (hvalue.accepts k hk rest hrest).map fun a ha => by simp [ha]

theorem TakesStmt.accepts_stmt {s : Stmt} (h : TakesStmt n expr s) {k : Nat} (hk : k < n)
    (hrest : isClear rest = true) :
    Accepts k (stmt expr) (s.words ++ [Kind.semicolon.word]) rest
      fun a => a.unlocated = s.unlocated := by
  have hfollows : Follows 0 (Kind.semicolon.word :: rest) := follows_cons rfl (by decide) hrest
  refine (h.accepts k hk _ hfollows).bind fun a ha k' _ => ?_
  exact accepts_take.map fun _ _ => ha

/-- Statements between braces behind a colon. -/
theorem accepts_stmtBlock {ss : List Stmt} (hne : ss ≠ []) (hss : ∀ s ∈ ss, TakesStmt n expr s)
    (hrest : isClear rest = true) :
    Accepts n (stmtBlock expr) (blockWords (stmtWords ss)) rest
      fun as => unlocatedStmts as = unlocatedStmts ss := by
  cases ss with
  | nil => exact absurd rfl hne
  | cons s ss =>
    rw [stmtWords_eq_map, blockWords, List.map_cons, List.flatten_cons, List.append_assoc]
    simp only [unlocatedStmts_eq_map]
    have hclose : isClear (Kind.rbrace.word :: rest) = true := isClear_cons (by decide) hrest
    have hclear : ∀ t ∈ ss, ∀ vs, isClear vs = true →
        isClear (t.words ++ [Kind.semicolon.word] ++ vs) = true := by
      intro t ht vs hvs
      rw [List.append_assoc]
      exact (hss t (List.mem_cons_of_mem _ ht)).clear _ (isClear_cons (by decide) hvs)
    refine accepts_consume.cons fun _ _ k₁ hk₁ => ?_
    refine accepts_consume.cons fun _ _ k₂ hk₂ => ?_
    have hmore := follow_flatten (isClear · = true) hclose hclear
    refine ((hss s (List.mem_cons_self ..)).accepts_stmt (by omega) ?_).bind fun a ha k₃ hk₃ => ?_
    · simpa using hmore
    have hitem : ∀ t ∈ ss, ∀ k, k ≤ k₃ → ∀ vs, isClear vs = true →
        Accepts k (stmt expr) (t.words ++ [Kind.semicolon.word]) vs
          fun a => a.unlocated = t.unlocated :=
      fun t ht k hk vs hvs => (hss t (List.mem_cons_of_mem _ ht)).accepts_stmt (by omega) hvs
    refine (accepts_whileInBraces (isClear · = true) rfl hclose hitem hclear fun t ht => ?_).bind fun as has k₄ hk₄ => ?_
    · have htakes := hss t (List.mem_cons_of_mem _ ht)
      exact ⟨by simp, by rw [startsWith_append htakes.ne_nil, htakes.start]⟩
    · exact accepts_consume.map fun _ _ => by simp [ha, has]

/-! ## Arms and properties -/

theorem takes_arm {p : Position} {pattern result : Expr} (hpattern : TakesExpr n expr pattern)
    (hresult : TakesExpr n expr result) :
    Takes n (arm expr) (Arm.mk p pattern result).words
      fun a => a.unlocated = (Arm.mk p pattern result).unlocated where
  opens := opens_append _ hpattern.opens
  clear vs hvs := by
    rw [Arm.words, List.append_assoc]
    exact hpattern.clear _ (isClear_cons (by decide) (hresult.clear vs hvs))
  accepts k hk rest hrest := by
    refine accepts_get fun s _ => ?_
    have harrow : Follows 0 (Kind.thinArrow.word :: (result.words ++ rest)) :=
      follows_cons rfl (by decide) (hresult.clear rest hrest.clear)
    refine (hpattern.accepts k hk _ harrow).bind fun a ha k₁ hk₁ => ?_
    refine accepts_consume.cons fun _ _ k₂ hk₂ => ?_
    exact (hresult.accepts k₂ (by omega) rest hrest).map fun b hb => by simp [ha, hb]

/-- A token that is there or not. -/
theorem accepts_mark {kind : Kind} {present : Bool} (hrest : startsWith kind rest = false) :
    Accepts n (take kind) (if present then [kind.word] else []) rest fun found => found = present := by
  cases present with
  | false => exact accepts_take_none hrest
  | true => exact accepts_take

theorem isClear_optionalWords (optional : Bool) {vs : List Word} (hvs : isClear vs = true) :
    isClear (optionalWords optional ++ vs) = true :=
  inherited_isClear.optionalWords optional vs hvs

theorem takes_property_named {p : Position} {name : String} {optional : Bool} {value : Expr}
    (hname : isName name = true) (hvalue : TakesExpr n expr value) :
    Takes n (property expr) (Property.named p name optional value).words
      fun a => a.unlocated = (Property.named p name optional value).unlocated where
  opens := opens_nameWord hname _
  clear vs hvs := by
    rw [Property.words, List.cons_append, List.append_assoc]
    exact isClear_cons (by simp [nameWord])
      (isClear_optionalWords _ (isClear_cons (by decide) (hvalue.clear vs hvs)))
  accepts k hk rest hrest := by
    refine accepts_get fun s _ => ?_
    refine (accepts_take_none rfl).silent fun found hfound => ?_
    subst hfound
    refine (accepts_name name).cons fun found hfound k₁ hk₁ => ?_
    subst hfound
    refine (accepts_mark rfl).bind fun found hfound k₂ hk₂ => ?_
    subst hfound
    refine accepts_consume.cons fun _ _ k₃ hk₃ => ?_
    exact (hvalue.accepts k₃ (by omega) rest hrest).map fun a ha => by simp [ha]

theorem takes_property_computed {p : Position} {key : Expr} {optional : Bool} {value : Expr}
    (hkey : TakesExpr n expr key) (hvalue : TakesExpr n expr value) :
    Takes n (property expr) (Property.computed p key optional value).words
      fun a => a.unlocated = (Property.computed p key optional value).unlocated where
  opens := rfl
  clear vs hvs := by
    have hvalue' := isClear_cons (w := Kind.colon.word) (by decide) (hvalue.clear vs hvs)
    have hbracket := isClear_cons (w := Kind.rbracket.word) (by decide)
      (isClear_optionalWords optional hvalue')
    simpa using isClear_cons (w := Kind.lbracket.word) (by decide) (hkey.clear _ hbracket)
  accepts k hk rest hrest := by
    refine accepts_get fun s _ => ?_
    have hbracket : Follows 0 (Kind.rbracket.word :: (optionalWords optional ++
        Kind.colon.word :: (value.words ++ rest))) :=
      follows_cons rfl (by decide)
        (isClear_optionalWords _ (isClear_cons (by decide) (hvalue.clear rest hrest.clear)))
    refine accepts_take.cons fun found hfound k₁ hk₁ => ?_
    subst hfound
    refine Accepts.bind (hkey.accepts k₁ (by omega) _ (by simpa using hbracket)) fun a ha k₂ hk₂ => ?_
    refine accepts_consume.cons fun _ _ k₃ hk₃ => ?_
    refine (accepts_mark rfl).bind fun found hfound k₄ hk₄ => ?_
    subst hfound
    refine accepts_consume.cons fun _ _ k₅ hk₅ => ?_
    exact (hvalue.accepts k₅ (by omega) rest hrest).map fun b hb => by simp [ha, hb]

theorem accepts_takeSeparator :
    Accepts n takeSeparator [Kind.comma.word] rest fun found => found = true := by
  refine accepts_take.cons fun found hfound k _ => ?_
  subst hfound
  exact accepts_pure rfl

theorem accepts_takeSeparator_none (hcomma : startsWith .comma rest = false)
    (hsemicolon : startsWith .semicolon rest = false) :
    Accepts n takeSeparator [] rest fun found => found = false := by
  refine (accepts_take_none hcomma).silent fun found hfound => ?_
  subst hfound
  exact accepts_take_none hsemicolon

/-- Properties with commas between them, up to a closing brace. -/
theorem accepts_properties {ps : List Property} (hrest : isClear rest = true) (hn : n < m)
    (hps : ∀ p ∈ ps, Takes m (property expr) p.words fun a => a.unlocated = p.unlocated) :
    Accepts n (properties expr) (commaWords (propertyWords ps)) (Kind.rbrace.word :: rest)
      fun as => unlocatedProperties as = unlocatedProperties ps := by
  rw [propertyWords_eq_map]
  simp only [unlocatedProperties_eq_map]
  induction ps generalizing n with
  | nil =>
    refine accepts_fix fun k _ => accepts_get fun s hshows => ?_
    have hbraces : s.inBraces = false := inBraces_of_shows hshows (by simp)
    rw [if_neg (by rw [hbraces]; exact Bool.false_ne_true)]
    exact accepts_pure rfl
  | cons p ps ih =>
    have hp := hps p (List.mem_cons_self ..)
    have hclose : Follows 0 (Kind.rbrace.word :: rest) := follows_cons rfl (by decide) hrest
    refine accepts_fix fun k hk => accepts_get fun s hshows => ?_
    have hbraces : s.inBraces = true := by
      have hstart : opens (commaWords ((p :: ps).map Property.words) ++ Kind.rbrace.word :: rest) = true :=
        opens_append _ (opens_append _ hp.opens)
      rw [inBraces_of_shows hshows (by simp), startsWith_eq_false hstart fun _ => rfl]
      rfl
    rw [if_pos hbraces]
    cases ps with
    | nil =>
      refine (hp.accepts k (by omega) _ hclose).bind fun a ha k₁ hk₁ => ?_
      refine (accepts_takeSeparator_none rfl rfl).silent fun found hfound => ?_
      subst hfound
      exact accepts_pure (by simp [ha])
    | cons q qs =>
      have hqs : ∀ r ∈ q :: qs, Takes m (property expr) r.words fun a => a.unlocated = r.unlocated :=
        fun r hr => hps r (List.mem_cons_of_mem _ hr)
      have hcomma : Follows 0 (Kind.comma.word :: (commaWords ((q :: qs).map Property.words) ++
          Kind.rbrace.word :: rest)) :=
        follows_cons rfl (by decide) (isClear_commaList hqs hclose.clear)
      refine (hp.accepts k (by omega) _ hcomma).bind fun a ha k₁ hk₁ => ?_
      refine accepts_takeSeparator.cons fun found hfound k₂ hk₂ => ?_
      subst hfound
      have hagain := ih (n := k₂) (by omega) hqs
      exact Accepts.map (Accepts.below hagain (by omega)) fun as has => by simp [ha, has]

/-! ## Objects and mapped types -/

theorem startsMapped_of_shows {s : Stream} {w : Word} {ws : List Word} (h : s.Shows (w :: ws)) :
    startsMapped s = (ws.take 4).any fun v => v.kind == .inKw :=
  Stream.any_peek_of_shows h 4 .inKw

theorem accepts_mappedBody (p pos : Position) (key : String) (optional : Bool) {union : Expr}
    {renamed : Option Expr} {value : Expr} (hunion : TakesExpr n expr union)
    (hrenamed : ∀ e, renamed = some e → TakesExpr n expr e) (hvalue : TakesExpr n expr value)
    (hrest : Follows 0 rest) :
    Accepts n (mappedBody pos expr) (Kind.lbracket.word :: nameWord key :: Kind.inKw.word ::
      (union.words ++ (behindWords .asKw renamed ++ Kind.rbracket.word ::
        (optionalWords optional ++ Kind.colon.word :: value.words)))) rest
      fun a => a.unlocated = (Expr.mapped p key union renamed optional value).unlocated := by
  have hbracket : Follows 0 (Kind.rbracket.word :: (optionalWords optional ++
      Kind.colon.word :: (value.words ++ rest))) :=
    follows_cons rfl (by decide)
      (isClear_optionalWords _ (isClear_cons (by decide) (hvalue.clear rest hrest.clear)))
  have hbehind : Follows 0 (behindWords .asKw renamed ++ Kind.rbracket.word ::
      (optionalWords optional ++ Kind.colon.word :: (value.words ++ rest))) := by
    refine ⟨?_, isClear_behind hrenamed (by decide) hbracket.clear⟩
    cases renamed <;> rfl
  refine accepts_consume.cons fun _ _ k₁ hk₁ => ?_
  refine (accepts_name key).cons fun found hfound k₂ hk₂ => ?_
  subst hfound
  refine accepts_consume.cons fun _ _ k₃ hk₃ => ?_
  refine Accepts.bind (hunion.accepts k₃ (by omega) _ (by simpa using hbehind)) fun a ha k₄ hk₄ => ?_
  have hrenamed' : ∀ e, renamed = some e → TakesExpr k₄ expr e :=
    fun e he => (hrenamed e he).mono (by omega)
  refine Accepts.bind (accepts_behind hrenamed' (by simpa using hbracket) rfl) fun b hb k₅ hk₅ => ?_
  refine accepts_consume.cons fun _ _ k₆ hk₆ => ?_
  refine (accepts_mark rfl).bind fun found hfound k₇ hk₇ => ?_
  subst hfound
  refine accepts_consume.cons fun _ _ k₈ hk₈ => ?_
  exact (hvalue.accepts k₈ (by omega) rest hrest).map fun c hc => by simp [ha, hb, hc]

/-- What stands between braces is a mapped type if and only if its mark comes early. -/
theorem accepts_braced {pos : Position} {ws : List Word} {good : Expr → Prop} (isMapped : Bool)
    (hmapped : (((ws ++ Kind.rbrace.word :: rest).take 4).any fun v => v.kind == .inKw) = isMapped)
    (hbody : ∀ k, k < n → Accepts k (if isMapped then mappedBody pos expr else objectBody pos expr) ws
      (Kind.rbrace.word :: rest) good) :
    Accepts n (braced pos expr) (Kind.lbrace.word :: (ws ++ [Kind.rbrace.word])) rest good := by
  refine accepts_get fun s hshows => ?_
  have hshows' : s.Shows (Kind.lbrace.word :: (ws ++ Kind.rbrace.word :: rest)) := by
    simpa using hshows
  rw [startsMapped_of_shows hshows', hmapped]
  refine accepts_consume.cons fun _ _ k hk => ?_
  have hlast : ∀ e, good e → ∀ k', Accepts k' (do let _ ← consume .rbrace; return e)
      [Kind.rbrace.word] rest good :=
    fun e he k' => accepts_consume.map fun _ _ => he
  cases isMapped with
  | false => exact (hbody k hk).bind fun e he k' _ => hlast e he k'
  | true => exact (hbody k hk).bind fun e he k' _ => hlast e he k'

theorem accepts_mapped {p pos : Position} {key : String} {union : Expr} {renamed : Option Expr}
    {optional : Bool} {value : Expr} (hunion : TakesExpr n expr union)
    (hrenamed : ∀ e, renamed = some e → TakesExpr n expr e) (hvalue : TakesExpr n expr value)
    (hrest : isClear rest = true) :
    Accepts n (braced pos expr) (Expr.mapped p key union renamed optional value).words rest
      fun a => a.unlocated = (Expr.mapped p key union renamed optional value).unlocated := by
  have hclose : Follows 0 (Kind.rbrace.word :: rest) := follows_cons rfl (by decide) hrest
  have hbraced := accepts_braced (n := n) true rfl fun k hk =>
    accepts_mappedBody p pos key optional
      (hunion.mono (Nat.le_of_lt hk)) (fun e he => (hrenamed e he).mono (Nat.le_of_lt hk))
      (hvalue.mono (Nat.le_of_lt hk)) hclose
  simpa using hbraced

theorem any_inKw_eq_false {w : Word} {ws : List Word} (hw : w.kind ≠ .inKw) (h : isClear ws = true) :
    (((w :: ws).take 4).any fun v => v.kind == .inKw) = false := by
  rw [isClear, List.all_eq_true] at h
  rw [List.take_succ_cons, List.any_cons, Bool.or_eq_false_iff, beq_eq_false_iff_ne, List.any_eq_false]
  exact ⟨hw, fun v hv => by simpa using h v hv⟩

theorem accepts_object {p pos : Position} {ps : List Property} (hprintable : printableProperties ps = true)
    (hps : ∀ q ∈ ps, Takes n (property expr) q.words fun a => a.unlocated = q.unlocated)
    (hrest : isClear rest = true) :
    Accepts n (braced pos expr) (Expr.object p ps).words rest
      fun a => a.unlocated = (Expr.object p ps).unlocated := by
  refine accepts_braced false ?_ fun k hk => ?_
  · cases ps with
    | nil => exact any_inKw_eq_false (by decide) hrest
    | cons q ps =>
      simp only [printableProperties, Bool.and_eq_true] at hprintable
      have hmore := inherited_isClear.moreWords (inherited_isClear.words_properties ps hprintable.2)
        (Kind.rbrace.word :: rest) (isClear_cons (by decide) hrest)
      have hopens := (hps q (List.mem_cons_self ..)).opens
      have htail := isClear_tail_property hprintable.1 hmore
      rw [propertyWords, commaWords, separatedWords, List.append_assoc]
      cases hwords : q.words with
      | nil => rw [hwords] at hopens; cases hopens
      | cons w ws =>
        rw [hwords] at hopens htail
        refine any_inKw_eq_false (fun hw => ?_) htail
        simp [opens, Word.opens, hw] at hopens
  · exact (accepts_properties hrest hk hps).map fun as has => by simp [has]

/-! ## Keywords -/

theorem accepts_conditional {p pos : Position} {test consequent alternate : Expr}
    (htest : TakesExpr n expr test) (hconsequent : TakesExpr n expr consequent)
    (halternate : TakesExpr n expr alternate) (hrest : Follows 0 rest) :
    Accepts n (conditional pos expr) (Expr.conditional p test consequent alternate).words rest
      fun a => a.unlocated = (Expr.conditional p test consequent alternate).unlocated := by
  have helse : Follows 0 (Kind.elseKw.word :: (alternate.words ++ rest)) :=
    follows_cons rfl (by decide) (halternate.clear rest hrest.clear)
  have hthen : Follows 0 (Kind.thenKw.word :: (consequent.words ++
      Kind.elseKw.word :: (alternate.words ++ rest))) :=
    follows_cons rfl (by decide) (hconsequent.clear _ helse.clear)
  refine (accepts_advance _).cons fun _ _ k₁ hk₁ => ?_
  refine Accepts.bind (htest.accepts k₁ (by omega) _ (by simpa using hthen)) fun a ha k₂ hk₂ => ?_
  refine accepts_consume.cons fun _ _ k₃ hk₃ => ?_
  refine Accepts.bind (hconsequent.accepts k₃ (by omega) _ helse) fun b hb k₄ hk₄ => ?_
  refine accepts_consume.cons fun _ _ k₅ hk₅ => ?_
  exact (halternate.accepts k₅ (by omega) rest hrest).map fun c hc => by simp [ha, hb, hc]

theorem accepts_matching {p pos : Position} {scrutinee : Expr} {arms : List Arm}
    (hscrutinee : TakesExpr n expr scrutinee) (hne : arms ≠ [])
    (harms : ∀ b ∈ arms, Takes n (arm expr) b.words fun a => a.unlocated = b.unlocated)
    (hrest : isClear rest = true) :
    Accepts n (matching pos expr) (Expr.matching p scrutinee arms).words rest
      fun a => a.unlocated = (Expr.matching p scrutinee arms).unlocated := by
  have hclose : Follows 0 (Kind.rbrace.word :: rest) := follows_cons rfl (by decide) hrest
  have hopen : Follows 0 (Kind.lbrace.word :: (commaWords (arms.map Arm.words) ++
      Kind.rbrace.word :: rest)) :=
    follows_cons rfl (by decide) (isClear_commaList harms hclose.clear)
  rw [Expr.words, armWords_eq_map]
  refine (accepts_advance _).cons fun _ _ k₁ hk₁ => ?_
  refine Accepts.bind (hscrutinee.accepts k₁ (by omega) _ (by simpa using hopen)) fun a ha k₂ hk₂ => ?_
  refine accepts_consume.cons fun _ _ k₃ hk₃ => ?_
  have hlist := accepts_commaList (n := k₃) harms (by omega) hne rfl hclose
  refine hlist.bind fun as has k₄ hk₄ => ?_
  exact accepts_consume.map fun _ _ => by simp [ha, has, unlocatedArms_eq_map]

/-- The parameters of a lambda and its body. -/
theorem accepts_lambda {p pos : Position} {params : List Param} {body : Expr}
    (hparams : ∀ q ∈ params, Takes n (param expr) q.words fun a => a.unlocated = q.unlocated)
    (hbody : TakesExpr n expr body) (hrest : Follows 0 rest) :
    Accepts n (lambda pos expr) (Expr.lambda p params body).words rest
      fun a => a.unlocated = (Expr.lambda p params body).unlocated := by
  have hlast : ∀ ps, unlocatedParams ps = unlocatedParams params → ∀ k, k ≤ n →
      Accepts k (do let _ ← consume .fatArrow; return Expr.lambda pos ps (← expr))
        (Kind.fatArrow.word :: body.words) rest
        fun a => a.unlocated = (Expr.lambda p params body).unlocated := by
    intro ps hps k hk
    refine accepts_consume.cons fun _ _ k' hk' => ?_
    exact (hbody.accepts k' (by omega) rest hrest).map fun a ha => by simp [hps, ha]
  have hclear : isClear (Kind.fatArrow.word :: (body.words ++ rest)) = true :=
    isClear_cons (by decide) (hbody.clear rest hrest.clear)
  rw [Expr.words]
  refine accepts_get fun s hshows => ?_
  rcases lambdaHead_cases params with hhead | ⟨q, name, rfl, hhead⟩ <;> rw [hhead] at hshows ⊢
  · have hlparen : s.at? .lparen = true := at?_eq_startsWith hshows .lparen
    have hpeek := Stream.any_peek_of_shows hshows 1 .rparen
    cases params with
    | nil =>
      have hrparen : (s.cursor.peek 1).any (fun token => token.kind == .rparen) = true := hpeek
      simp only [hlparen, Bool.not_true, Bool.false_eq_true, if_false, hrparen, if_true]
      refine accepts_consume.cons fun _ _ k₁ hk₁ => accepts_consume.cons fun _ _ k₂ hk₂ => ?_
      refine (accepts_return []).silent fun ps hps => ?_
      exact hlast ps (congrArg unlocatedParams hps) k₂ (by omega)
    | cons q params =>
      have hrparen : (s.cursor.peek 1).any (fun token => token.kind == .rparen) = false := by
        rw [hpeek, any_take_one]
        refine startsWith_eq_false ?_ fun _ => rfl
        have hopens := (hparams q (List.mem_cons_self ..)).opens
        exact opens_append _ (opens_append _ (opens_append _ (opens_append _ hopens)))
      simp only [hlparen, Bool.not_true, Bool.false_eq_true, if_false, hrparen]
      refine (accepts_paramList (by simp) hparams hclear).bind fun ps hps k hk => ?_
      exact hlast ps hps k (by omega)
  · have hlparen : s.at? .lparen = false := at?_eq_startsWith hshows .lparen
    simp only [hlparen, Bool.not_false, if_true]
    have hparam : Accepts n (param expr) (Param.mk q name none).words
        (Kind.fatArrow.word :: (body.words ++ rest))
        fun a => a.unlocated = (Param.mk q name none).unlocated :=
      accepts_param ((accepts_takeThen_none rfl).imp fun found hfound => by rw [hfound])
    refine Accepts.bind hparam fun a ha k hk => (accepts_return [a]).silent fun ps hps => ?_
    exact hlast ps (by simp [hps, ha]) k (by omega)

end Parser

end TypeForge
