import TypeForge.Proofs.Printing

/-!
# What printed words look like

A property of word lists that every single word has, and that two lists joined inherit, holds
of everything that is printed; only the head of a mapped type counts as one piece, since the
parser finds mapped types by looking for the word in it.  Two such properties are used: all
words are legible, and the word that marks mapped types never comes among the first three.

What a parser sees first is found by following the left operands: an expression starts with
one of a few words, and what is printed in parentheses cannot be mistaken for the parameters
of a lambda.
-/

namespace TypeForge

/-! ## Lists -/

/-- A function that treats the items of a list one by one. -/
theorem eq_map_of_cons {α β : Type} {f : List α → List β} {g : α → β} (hnil : f [] = [])
    (hcons : ∀ a as, f (a :: as) = g a :: f as) (as : List α) : f as = as.map g := by
  induction as with
  | nil => exact hnil
  | cons a as ih => rw [hcons, ih, List.map_cons]

theorem exprWords_eq_map (es : List Expr) : exprWords es = es.map Expr.words :=
  eq_map_of_cons rfl (fun _ _ => rfl) es

theorem paramWords_eq_map (ps : List Param) : paramWords ps = ps.map Param.words :=
  eq_map_of_cons rfl (fun _ _ => rfl) ps

theorem stmtWords_eq_map (ss : List Stmt) :
    stmtWords ss = ss.map fun s => s.words ++ [Kind.semicolon.word] :=
  eq_map_of_cons rfl (fun _ _ => rfl) ss

theorem armWords_eq_map (as : List Arm) : armWords as = as.map Arm.words :=
  eq_map_of_cons rfl (fun _ _ => rfl) as

theorem propertyWords_eq_map (ps : List Property) : propertyWords ps = ps.map Property.words :=
  eq_map_of_cons rfl (fun _ _ => rfl) ps

theorem unlocatedExprs_eq_map (es : List Expr) : unlocatedExprs es = es.map Expr.unlocated :=
  eq_map_of_cons rfl (fun _ _ => rfl) es

theorem unlocatedParams_eq_map (ps : List Param) : unlocatedParams ps = ps.map Param.unlocated :=
  eq_map_of_cons rfl (fun _ _ => rfl) ps

theorem unlocatedStmts_eq_map (ss : List Stmt) : unlocatedStmts ss = ss.map Stmt.unlocated :=
  eq_map_of_cons rfl (fun _ _ => rfl) ss

theorem unlocatedArms_eq_map (as : List Arm) : unlocatedArms as = as.map Arm.unlocated :=
  eq_map_of_cons rfl (fun _ _ => rfl) as

theorem unlocatedProperties_eq_map (ps : List Property) :
    unlocatedProperties ps = ps.map Property.unlocated :=
  eq_map_of_cons rfl (fun _ _ => rfl) ps

/-! ## Inherited properties -/

/-- A property of word lists that holds of single words and of lists joined.  The word that
marks a mapped type comes only with what stands in front of it. -/
structure Inherited (P : List Word → Prop) : Prop where
  nil : P []
  append {us vs : List Word} : P us → P vs → P (us ++ vs)
  fixed {kind : Kind} : kind.spelling?.isSome = true → kind ≠ .inKw → P [kind.word]
  name {text : String} : isIdentifier text = true → P [nameWord text]
  number {digits : String} : isNumber digits = true → P [⟨.number, digits⟩]
  string {text : String} : isQuotable text = true → P [stringWord text]
  mappedKey {text : String} : isIdentifier text = true →
    P [Kind.lbrace.word, Kind.lbracket.word, nameWord text, Kind.inKw.word]

theorem isIdentifier_of_isName {text : String} (h : isName text = true) :
    isIdentifier text = true := by
  rw [isName, Bool.and_eq_true] at h
  exact h.1

namespace Inherited

variable {P : List Word → Prop} (law : Inherited P) {us vs : List Word}

include law

theorem cons {kind : Kind} (hvs : P vs) (h : kind.spelling?.isSome = true := by decide)
    (hin : kind ≠ .inKw := by decide) : P (kind.word :: vs) :=
  law.append (law.fixed h hin) hvs

theorem single {kind : Kind} (h : kind.spelling?.isSome = true := by decide)
    (hin : kind ≠ .inKw := by decide) : P [kind.word] :=
  law.fixed h hin

theorem name_cons {text : String} (h : isName text = true) (hvs : P vs) :
    P (nameWord text :: vs) :=
  law.append (law.name (isIdentifier_of_isName h)) hvs

theorem flatten {items : List (List Word)} (h : ∀ ws ∈ items, P ws) : P items.flatten := by
  induction items with
  | nil => exact law.nil
  | cons ws items ih =>
    exact law.append (h ws (List.mem_cons_self ..)) (ih fun vs hvs => h vs (List.mem_cons_of_mem _ hvs))

theorem moreWords {items : List (List Word)} (h : ∀ ws ∈ items, P ws) :
    P (TypeForge.moreWords Kind.comma.word items) := by
  refine law.flatten fun vs hvs => ?_
  obtain ⟨us, hus, rfl⟩ := List.mem_map.1 hvs
  exact law.cons (h us hus)

theorem commaWords {items : List (List Word)} (h : ∀ ws ∈ items, P ws) :
    P (TypeForge.commaWords items) := by
  cases items with
  | nil => exact law.nil
  | cons ws items =>
    exact law.append (h ws (List.mem_cons_self ..))
      (law.moreWords fun vs hvs => h vs (List.mem_cons_of_mem _ hvs))

theorem enclose (least power : Nat) (h : P us) : P (TypeForge.enclose least power us) := by
  unfold TypeForge.enclose
  split
  · exact law.cons (law.append h law.single)
  · exact h

theorem paramListWords {items : List (List Word)} (h : ∀ ws ∈ items, P ws) :
    P (TypeForge.paramListWords items) :=
  law.cons (law.append (law.commaWords h) law.single)

theorem lambdaHead {items : List (List Word)} (h : ∀ ws ∈ items, P ws) :
    P (TypeForge.lambdaHead items) := by
  unfold TypeForge.lambdaHead
  split
  · exact h _ (List.mem_cons_self ..)
  · exact law.paramListWords h

theorem blockWords {items : List (List Word)} (h : ∀ ws ∈ items, P ws) :
    P (TypeForge.blockWords items) :=
  law.cons (law.cons (law.append (law.flatten h) law.single))

theorem optionalWords (optional : Bool) : P (TypeForge.optionalWords optional) := by
  cases optional with
  | false => exact law.nil
  | true => exact law.single

theorem operator {kind : Kind} (h : kind.spelling?.isSome = true ∧ kind ≠ .inKw) (hvs : P vs) :
    P (kind.word :: vs) :=
  law.append (law.fixed h.1 h.2) hvs

omit law in
theorem binary_operator (op : BinaryOp) : op.kind.spelling?.isSome = true ∧ op.kind ≠ .inKw := by
  cases op <;> decide

omit law in
theorem logical_operator (op : LogicalOp) : op.kind.spelling?.isSome = true ∧ op.kind ≠ .inKw := by
  cases op <;> decide

omit law in
theorem unary_operator (op : UnaryOp) : op.kind.spelling?.isSome = true ∧ op.kind ≠ .inKw := by
  cases op <;> decide

-- The linter does not see that the lists use the law through the items in them.
set_option linter.unusedSectionVars false in
mutual

/-- **An inherited property holds of all printed expressions.** -/
theorem words : (e : Expr) → e.isPrintable = true → P e.words
  | .assignment _ target value, h => by
    simp only [Expr.isPrintable, Bool.and_eq_true] at h
    exact law.append (law.enclose _ _ (words target h.1.2)) (law.cons (law.enclose _ _ (words value h.2)))
  | .binary _ op lhs rhs, h => by
    simp only [Expr.isPrintable, Bool.and_eq_true] at h
    exact law.append (law.enclose _ _ (words lhs h.1))
      (law.operator (binary_operator op) (law.enclose _ _ (words rhs h.2)))
  | .logical _ op lhs rhs, h => by
    simp only [Expr.isPrintable, Bool.and_eq_true] at h
    exact law.append (law.enclose _ _ (words lhs h.1))
      (law.operator (logical_operator op) (law.enclose _ _ (words rhs h.2)))
  | .unary _ op operand, h => law.operator (unary_operator op) (law.enclose _ _ (words operand h))
  | .conditional _ test consequent alternate, h => by
    simp only [Expr.isPrintable, Bool.and_eq_true] at h
    exact law.cons (law.append (words test h.1.1)
      (law.cons (law.append (words consequent h.1.2) (law.cons (words alternate h.2)))))
  | .call _ callee args, h => by
    simp only [Expr.isPrintable, Bool.and_eq_true] at h
    exact law.append (law.enclose _ _ (words callee h.1))
      (law.cons (law.append (law.commaWords (words_exprs args h.2)) law.single))
  | .field _ object name, h => by
    simp only [Expr.isPrintable, Bool.and_eq_true] at h
    exact law.append (law.enclose _ _ (words object h.1)) (law.cons (law.name_cons h.2 law.nil))
  | .index _ object key, h => by
    simp only [Expr.isPrintable, Bool.and_eq_true] at h
    exact law.append (law.enclose _ _ (words object h.1))
      (law.cons (law.append (words key h.2) law.single))
  | .lambda _ params body, h => by
    simp only [Expr.isPrintable, Bool.and_eq_true] at h
    exact law.append (law.lambdaHead (words_params params h.1)) (law.cons (words body h.2))
  | .block _ body, h => by
    simp only [Expr.isPrintable, Bool.and_eq_true] at h
    exact law.blockWords (words_stmts body h.2)
  | .matching _ scrutinee arms, h => by
    simp only [Expr.isPrintable, Bool.and_eq_true] at h
    exact law.cons (law.append (words scrutinee h.1.1)
      (law.cons (law.append (law.commaWords (words_arms arms h.2)) law.single)))
  | .object _ properties, h =>
    law.cons (law.append (law.commaWords (words_properties properties h)) law.single)
  | .mapped _ key union renamed optional value, h => by
    simp only [Expr.isPrintable, Bool.and_eq_true] at h
    obtain ⟨⟨⟨hkey, hunion⟩, hrenamed⟩, hvalue⟩ := h
    refine law.append (law.mappedKey (isIdentifier_of_isName hkey)) ?_
    refine law.append (words union hunion) (law.append (words_behind renamed hrenamed) ?_)
    exact law.cons (law.append (law.optionalWords optional)
      (law.cons (law.append (words value hvalue) law.single)))
  | .tuple _ elements, h =>
    law.cons (law.append (law.commaWords (words_exprs elements h)) law.single)
  | .infer _ name bound, h => by
    simp only [Expr.isPrintable, Bool.and_eq_true] at h
    exact law.cons (law.name_cons h.1 (words_behind bound h.2))
  | .ident _ _, h => law.name_cons h law.nil
  | .number _ _, h => law.number h
  | .string _ _, h => law.string h
  | .numberType _, _ => law.single
  | .stringType _, _ => law.single

theorem words_behind {kind : Kind} : (e : Option Expr) → printableOption e = true →
    (h : kind.spelling?.isSome = true := by decide) → (hin : kind ≠ .inKw := by decide) →
    P (behindWords kind e)
  | none, _, _, _ => law.nil
  | some e, h, hkind, hin => law.cons (words e h) hkind hin

theorem words_exprs : (es : List Expr) → printableExprs es = true → ∀ ws ∈ exprWords es, P ws
  | [], _ => by simp
  | e :: es, h => by
    simp only [printableExprs, Bool.and_eq_true] at h
    rw [exprWords, List.forall_mem_cons]
    exact ⟨words e h.1, words_exprs es h.2⟩

theorem words_params : (ps : List Param) → printableParams ps = true → ∀ ws ∈ paramWords ps, P ws
  | [], _ => by simp
  | .mk _ name bound :: ps, h => by
    simp only [printableParams, Param.isPrintable, Bool.and_eq_true] at h
    rw [paramWords, List.forall_mem_cons]
    exact ⟨law.name_cons h.1.1 (words_behind bound h.1.2), words_params ps h.2⟩

theorem words_stmt : (s : Stmt) → s.isPrintable = true → P s.words
  | .letDecl _ name value, h => by
    simp only [Stmt.isPrintable, Bool.and_eq_true] at h
    exact law.cons (law.name_cons h.1 (law.cons (words value h.2)))
  | .assertEqual _ left right, h => by
    simp only [Stmt.isPrintable, Bool.and_eq_true] at h
    exact law.append (law.name (by decide)) (law.cons (law.append (words left h.1)
      (law.cons (law.append (words right h.2) law.single))))
  | .expr _ value, h => words value h

theorem words_stmts : (ss : List Stmt) → printableStmts ss = true → ∀ ws ∈ stmtWords ss, P ws
  | [], _ => by simp
  | s :: ss, h => by
    simp only [printableStmts, Bool.and_eq_true] at h
    rw [stmtWords, List.forall_mem_cons]
    exact ⟨law.append (words_stmt s h.1) law.single, words_stmts ss h.2⟩

theorem words_arms : (as : List Arm) → printableArms as = true → ∀ ws ∈ armWords as, P ws
  | [], _ => by simp
  | .mk _ pattern result :: as, h => by
    simp only [printableArms, Arm.isPrintable, Bool.and_eq_true] at h
    rw [armWords, List.forall_mem_cons]
    exact ⟨law.append (words pattern h.1.1) (law.cons (words result h.1.2)), words_arms as h.2⟩

theorem words_properties :
    (ps : List Property) → printableProperties ps = true → ∀ ws ∈ propertyWords ps, P ws
  | [], _ => by simp
  | .named _ name optional value :: ps, h => by
    simp only [printableProperties, Property.isPrintable, Bool.and_eq_true] at h
    rw [propertyWords, List.forall_mem_cons]
    refine ⟨?_, words_properties ps h.2⟩
    exact law.name_cons h.1.1 (law.append (law.optionalWords optional) (law.cons (words value h.1.2)))
  | .computed _ key optional value :: ps, h => by
    simp only [printableProperties, Property.isPrintable, Bool.and_eq_true] at h
    rw [propertyWords, List.forall_mem_cons]
    refine ⟨?_, words_properties ps h.2⟩
    exact law.cons (law.append (words key h.1.1)
      (law.cons (law.append (law.optionalWords optional) (law.cons (words value h.1.2)))))

end

theorem topLevel_words {item : TopLevel} (h : item.isPrintable = true) : P item.words := by
  cases item with
  | definition d =>
    simp only [TopLevel.isPrintable, Bool.and_eq_true] at h
    obtain ⟨⟨hname, hparams⟩, hbody⟩ := h
    refine law.append ?_ (law.cons (law.name_cons hname (law.append ?_ ?_)))
    · split
      · exact law.single
      · exact law.nil
    · split
      · exact law.nil
      · exact law.paramListWords (law.words_params _ hparams)
    · exact law.cons (law.append (law.words d.body hbody) law.single)
  | sectionOf s =>
    simp only [TopLevel.isPrintable, Bool.and_eq_true] at h
    exact law.cons (law.cons (law.name_cons h.1.1 (law.cons (law.blockWords (law.words_stmts _ h.2)))))
  | importOf i =>
    simp only [TopLevel.isPrintable, Bool.and_eq_true, List.all_eq_true] at h
    refine law.cons (law.cons (law.append (law.commaWords fun ws hws => ?_) ?_))
    · obtain ⟨name, hname, rfl⟩ := List.mem_map.1 hws
      exact law.name_cons (h.1.2 name hname) law.nil
    · exact law.cons (law.cons (law.append (law.string h.2) law.single))

/-- **An inherited property holds of all printed programs.** -/
theorem program_words {program : Program} (h : program.isPrintable = true) : P program.words := by
  simp only [Program.isPrintable, Bool.and_eq_true, List.all_eq_true] at h
  refine law.flatten fun ws hws => ?_
  obtain ⟨item, hitem, rfl⟩ := List.mem_map.1 hws
  exact law.topLevel_words (h.2 item hitem)

end Inherited

/-! ## Legibility -/

theorem legible_word {kind : Kind} (h : kind.spelling?.isSome = true) : kind.word.Legible := by
  obtain ⟨text, htext⟩ := Option.isSome_iff_exists.1 h
  rw [Kind.word_eq htext]
  exact .fixed htext

theorem legible_stringWord {text : String} (h : isQuotable text = true) :
    (stringWord text).Legible := by
  unfold stringWord
  refine .string ?_ ?_
  · unfold quoteFor
    split <;> decide
  · unfold quoteFor
    split
    · next hdouble =>
      intro hsingle
      simp [isQuotable, hdouble, hsingle] at h
    · assumption

theorem unquoted_stringWord (text : String) : Parser.unquoted (stringWord text).text = text := by
  simp [Parser.unquoted, stringWord]

theorem inherited_legible : Inherited fun ws => ∀ w ∈ ws, w.Legible where
  nil := by simp
  append hus hvs := List.forall_mem_append.2 ⟨hus, hvs⟩
  fixed h _ := by simpa using legible_word h
  name h := by simpa [nameWord] using Word.Legible.identifier h
  number h := by simpa using Word.Legible.number h
  string h := by simpa using legible_stringWord h
  mappedKey h := by
    simpa [nameWord] using ⟨legible_word (by decide), legible_word (by decide),
      Word.Legible.identifier h, legible_word (by decide)⟩

/-! ## Looking for mapped types -/

/-- Whether the first three words hold none that marks a mapped type. -/
def isClear (ws : List Word) : Bool := (ws.take 3).all fun w => w.kind != .inKw

theorem isClear_cons {w : Word} {ws : List Word} (hw : w.kind ≠ .inKw) (h : isClear ws = true) :
    isClear (w :: ws) = true := by
  have htwo : (ws.take 2).all (fun w => w.kind != .inKw) = true := by
    rw [isClear, List.all_eq_true] at h
    refine List.all_eq_true.2 fun v hv => h v ?_
    exact List.take_subset_take_left _ (by decide) hv
  simp only [isClear, List.take_succ_cons, List.all_cons, Bool.and_eq_true, bne_iff_ne, ne_eq]
  exact ⟨hw, htwo⟩

theorem inherited_isClear :
    Inherited fun ws => ∀ vs, isClear vs = true → isClear (ws ++ vs) = true where
  nil vs h := h
  append hus hvs us h := by
    rw [List.append_assoc]
    exact hus _ (hvs _ h)
  fixed _ hin vs h := isClear_cons hin h
  name _ vs h := isClear_cons (by simp [nameWord]) h
  number _ vs h := isClear_cons (by simp) h
  string _ vs h := isClear_cons (by simp [stringWord]) h
  mappedKey _ vs _ := rfl

/-- Behind the first word of a property, no mapped type comes any sooner. -/
theorem isClear_tail_property {p : Property} (h : p.isPrintable = true) {vs : List Word}
    (hvs : isClear vs = true) : isClear (p.words ++ vs).tail = true := by
  cases p with
  | named _ name optional value =>
    simp only [Property.isPrintable, Bool.and_eq_true] at h
    rw [Property.words, List.cons_append, List.tail_cons, List.append_assoc]
    refine inherited_isClear.optionalWords optional _ (isClear_cons (by decide) ?_)
    exact inherited_isClear.words value h.2 vs hvs
  | computed _ key optional value =>
    simp only [Property.isPrintable, Bool.and_eq_true] at h
    rw [Property.words, List.cons_append, List.tail_cons, List.append_assoc, List.cons_append,
      List.append_assoc]
    refine inherited_isClear.words key h.1 _ (isClear_cons (by decide) ?_)
    refine inherited_isClear.optionalWords optional _ (isClear_cons (by decide) ?_)
    exact inherited_isClear.words value h.2 vs hvs

/-! ## First words -/

/-- Whether a word can start an expression. -/
def Word.opens (w : Word) : Bool :=
  match w.kind with
  | .identifier => w.text != Parser.assertionName
  | .number | .string | .numberKw | .stringKw | .lparen | .lbracket | .lbrace | .colon | .inferKw
  | .ifKw | .matchKw | .minus | .plus | .bang => true
  | _ => false

/-- Whether the first of some words can start an expression. -/
def opens : List Word → Bool
  | [] => false
  | w :: _ => w.opens

theorem opens_append {us : List Word} (vs : List Word) (h : opens us = true) :
    opens (us ++ vs) = true := by
  cases us with
  | nil => cases h
  | cons w us => exact h

theorem opens_enclose {us : List Word} (least power : Nat) (h : opens us = true) :
    opens (enclose least power us) = true := by
  unfold enclose
  split
  · rfl
  · exact h

theorem opens_nameWord {text : String} (h : isName text = true) (vs : List Word) :
    opens (nameWord text :: vs) = true := by
  rw [isName, Bool.and_eq_true] at h
  exact h.2

/-- The parameters of a lambda stand in parentheses, or are a single name. -/
theorem lambdaHead_cases (params : List Param) :
    lambdaHead (paramWords params) = paramListWords (paramWords params) ∨
      ∃ p name, params = [.mk p name none] ∧ lambdaHead (paramWords params) = [nameWord name] := by
  match params with
  | [] => exact .inl rfl
  | [.mk p name none] => exact .inr ⟨p, name, rfl, rfl⟩
  | [.mk _ _ (some _)] => exact .inl rfl
  | _ :: _ :: _ => exact .inl (by simp [lambdaHead])

/-- **An expression starts with a word that can start one.** -/
theorem opens_words : (e : Expr) → e.isPrintable = true → opens e.words = true
  | .assignment _ target _, h => by
    simp only [Expr.isPrintable, Bool.and_eq_true] at h
    exact opens_append _ (opens_enclose _ _ (opens_words target h.1.2))
  | .binary _ _ lhs _, h => by
    simp only [Expr.isPrintable, Bool.and_eq_true] at h
    exact opens_append _ (opens_enclose _ _ (opens_words lhs h.1))
  | .logical _ _ lhs _, h => by
    simp only [Expr.isPrintable, Bool.and_eq_true] at h
    exact opens_append _ (opens_enclose _ _ (opens_words lhs h.1))
  | .unary _ op _, _ => by cases op <;> rfl
  | .call _ callee _, h => by
    simp only [Expr.isPrintable, Bool.and_eq_true] at h
    exact opens_append _ (opens_enclose _ _ (opens_words callee h.1))
  | .field _ object _, h => by
    simp only [Expr.isPrintable, Bool.and_eq_true] at h
    exact opens_append _ (opens_enclose _ _ (opens_words object h.1))
  | .index _ object _, h => by
    simp only [Expr.isPrintable, Bool.and_eq_true] at h
    exact opens_append _ (opens_enclose _ _ (opens_words object h.1))
  | .lambda _ params _, h => by
    simp only [Expr.isPrintable, Bool.and_eq_true] at h
    rw [Expr.words]
    rcases lambdaHead_cases params with hhead | ⟨p, name, rfl, hhead⟩ <;> rw [hhead]
    · rfl
    · simp only [printableParams, Param.isPrintable, Bool.and_eq_true] at h
      exact opens_nameWord h.1.1.1 _
  | .ident _ _, h => opens_nameWord h _
  | .conditional .., _ | .block .., _ | .matching .., _ | .object .., _ | .mapped .., _
  | .tuple .., _ | .infer .., _ | .number .., _ | .string .., _ | .numberType _, _
  | .stringType _, _ => rfl

/-! ## Looking for lambdas -/

/-- Whether words could go on a parameter list behind its first name. -/
def continuesParams : List Word → Bool
  | [] => false
  | w :: _ => w.kind == .rparen || w.kind == .colon || w.kind == .comma

/-- Whether words could be the parameters of a lambda behind their opening parenthesis. -/
def startsParams : List Word → Bool
  | [] => false
  | w :: ws => w.kind == .rparen || w.kind == .identifier && continuesParams ws

theorem startsParams_enclose {us vs : List Word} (least power : Nat)
    (h : startsParams (us ++ vs) = false) : startsParams (enclose least power us ++ vs) = false := by
  unfold enclose
  split
  · rfl
  · exact h

/-- An expression is not mistaken for parameters, unless it is an atom and what comes behind
it goes on a parameter list. -/
theorem startsParams_words : (e : Expr) → {vs : List Word} →
    e.power < 17 ∨ continuesParams vs = false → startsParams (e.words ++ vs) = false
  | .assignment _ target value, vs, h => by
    rw [Expr.words, List.append_assoc]
    exact startsParams_enclose _ _ (startsParams_words target (.inr rfl))
  | .binary _ op lhs rhs, vs, h => by
    rw [Expr.words, List.append_assoc]
    exact startsParams_enclose _ _ (startsParams_words lhs (.inr (by cases op <;> rfl)))
  | .logical _ op lhs rhs, vs, h => by
    rw [Expr.words, List.append_assoc]
    exact startsParams_enclose _ _ (startsParams_words lhs (.inr (by cases op <;> rfl)))
  | .unary _ op _, _, _ => by cases op <;> rfl
  | .call _ callee _, _, _ => by
    rw [Expr.words, List.append_assoc]
    exact startsParams_enclose _ _ (startsParams_words callee (.inr rfl))
  | .field _ object _, _, _ => by
    rw [Expr.words, List.append_assoc]
    exact startsParams_enclose _ _ (startsParams_words object (.inr rfl))
  | .index _ object _, _, _ => by
    rw [Expr.words, List.append_assoc]
    exact startsParams_enclose _ _ (startsParams_words object (.inr rfl))
  | .lambda _ params _, _, _ => by
    rw [Expr.words]
    rcases lambdaHead_cases params with hhead | ⟨p, name, rfl, hhead⟩ <;> rw [hhead] <;> rfl
  | .ident _ name, vs, h => by
    have hvs : continuesParams vs = false := h.resolve_left (by simp [Expr.power])
    simp [nameWord, startsParams, hvs]
  | .conditional .., _, _ | .block .., _, _ | .matching .., _, _ | .template .., _, _
  | .object .., _, _ | .mapped .., _, _ | .tuple .., _, _ | .infer .., _, _ | .number .., _, _
  | .string .., _, _ | .numberType _, _, _ | .stringType _, _, _ => rfl

end TypeForge
