import TypeForge.Parser.Program
import TypeForge.Proofs.Token.Words

/-!
# What expressions inherit from their parts

An expression is well made if its names are identifiers, its numbers are made of digits, and the
texts of a template string are cut by `templateText`, so that they and the expressions between them
stand in turn.  Such a property comes from the tokens; others an expression has whenever its parts
have them.
-/

namespace TypeForge

/-! ## Tokens -/

/-- An identifier is spelled as one, and so is a number. -/
structure Token.Spelled (t : Token) : Prop where
  name : t.kind = .identifier → isIdentifier t.text = true
  number : t.kind = .number → isNumber t.text = true

theorem wordKind_ne_number (word : List Char) : wordKind word ≠ .number := by
  intro h
  have hspelling := spelling?_wordKind word (by simp [h])
  rw [h] at hspelling
  cases hspelling

/-- The kinds of punctuation and operators. -/
theorem kind_of_symbolLexeme {c : Char} {cs : List Char} {kind : Kind}
    (h : (symbolLexeme c cs).outcome = .ok kind) : kind ≠ .identifier ∧ kind ≠ .number := by
  unfold symbolLexeme at h
  split at h
  · next text kind' hfind =>
    cases h
    have hkinds : ∀ entry ∈ symbols, entry.2 ≠ .identifier ∧ entry.2 ≠ .number := by decide
    exact hkinds _ (List.mem_of_find?_eq_some hfind)
  · cases h

theorem spelled_lexeme {c : Char} {cs : List Char} {kind : Kind} (pos : Position)
    (h : (lexeme c cs).outcome = .ok kind) :
    Token.Spelled ⟨kind, String.ofList (lexeme c cs).text, pos⟩ := by
  unfold lexeme at h ⊢
  split at h
  · -- a string
    have hkind : kind = .string := by
      unfold stringLexeme at h
      split at h <;> cases h
      rfl
    constructor <;> simp [hkind]
  · split at h
    · next hquote hdigit =>
      cases h
      simp only [hquote, hdigit, if_true]
      constructor
      · simp
      · simp [isNumber, hdigit]
    · split at h
      · next hquote hdigit hword =>
        cases h
        simp only [hquote, hdigit, hword, if_true]
        have hisWord : isWord (c :: cs.takeWhile isWordChar) = true := by
          simp [isWord, hdigit, hword]
        constructor
        · exact isIdentifier_of_wordKind hisWord
        · exact fun hnumber => absurd hnumber (wordKind_ne_number _)
      · obtain ⟨hname, hnumber⟩ := kind_of_symbolLexeme h
        exact ⟨fun hkind => absurd hkind hname, fun hkind => absurd hkind hnumber⟩

theorem Cursor.spelled_of_next {cur cur' : Cursor} {t : Token}
    (h : cur.next = (some (.ok t), cur')) : t.Spelled := by
  obtain ⟨_, c, cs, kind, -, hkind, rfl, -⟩ := lexeme_of_next h
  exact spelled_lexeme _ hkind

/-! ## Template strings -/

/-- A text that is cut out of a template string.  There is no backtick in it, and the mark of an
interpolation only behind another dollar sign. -/
structure CutText (text : List Char) : Prop where
  backtick : '\x60' ∉ text
  mark : ∀ before behind, text = before ++ '$' :: '\x7b' :: behind → before.getLast? = some '$'

theorem cutText_nil : CutText [] := ⟨List.not_mem_nil, by simp⟩

theorem CutText.cons {text : List Char} (h : CutText text) {c : Char} (hbacktick : c ≠ '\x60')
    (hdollar : c ≠ '$') : CutText (c :: text) where
  backtick := by simp [hbacktick.symm, h.backtick]
  mark before behind heq := by
    cases before with
    | nil => exact absurd (List.cons.inj heq).1 hdollar
    | cons x before =>
      rw [List.getLast?_cons, h.mark before behind (List.cons.inj heq).2]
      rfl

/-- A dollar sign is taken together with the character behind it. -/
theorem CutText.pair {text : List Char} (h : CutText text) {c : Char} (hbacktick : c ≠ '\x60')
    (hbrace : c ≠ '\x7b') : CutText ('$' :: c :: text) where
  backtick := by simp [hbacktick.symm, h.backtick]
  mark before behind heq := by
    rcases before with _ | ⟨x, _ | ⟨y, before⟩⟩
    · exact absurd (List.cons.inj (List.cons.inj heq).2).1 hbrace
    · rw [← (List.cons.inj heq).1]
      rfl
    · rw [List.getLast?_cons, List.getLast?_cons,
        h.mark before behind (List.cons.inj (List.cons.inj heq).2).2]
      rfl

theorem cutText_of_templateText {cs text rest : List Char} {ending : TextEnd}
    (h : templateText cs = some (text, ending, rest)) : CutText text := by
  fun_induction templateText cs generalizing text with
  | case1 => cases h
  | case2 | case3 =>
    cases h
    exact cutText_nil
  | case4 =>
    cases h
    refine ⟨by decide, fun before behind heq => ?_⟩
    have hlength := congrArg List.length heq
    simp only [List.length_append, List.length_cons, List.length_nil] at hlength
    omega
  | case5 c rest' hbrace hbacktick ih =>
    obtain ⟨⟨text', _, _⟩, hcut, heq⟩ := Option.map_eq_some_iff.1 h
    cases heq
    exact (ih hcut).pair hbacktick hbrace
  | case6 c rest' hbacktick hmark hend hpair ih =>
    obtain ⟨⟨text', _, _⟩, hcut, heq⟩ := Option.map_eq_some_iff.1 h
    cases heq
    refine (ih hcut).cons hbacktick fun hdollar => ?_
    -- a dollar sign with nothing behind it is in a text that does not end
    cases rest' with
    | nil => cases hcut
    | cons d rest' => exact hpair d rest' hdollar rfl

/-- The parts of a template string: texts with an expression between any two of them. -/
inductive CutParts : List Part → Prop where
  | last {text : String} (htext : CutText text.toList) : CutParts [.text text]
  | more {text : String} {e : Expr} {ps : List Part} (htext : CutText text.toList) (hps : CutParts ps) :
      CutParts (.text text :: .expr e :: ps)

/-! ## Parts of expressions -/

/-- The expressions that a statement consists of. -/
def Stmt.children : Stmt → List Expr
  | .letDecl _ _ value | .expr _ value => [value]
  | .assertEqual _ left right => [left, right]

/-- The expressions that an arm consists of. -/
def Arm.children : Arm → List Expr
  | .mk _ pattern result => [pattern, result]

/-- The expression that a part of a template string is. -/
def Part.child? : Part → Option Expr
  | .text _ => none
  | .expr value => some value

/-- The expressions that a property consists of. -/
def Property.children : Property → List Expr
  | .named _ _ _ value => [value]
  | .computed _ key _ value => [key, value]

/-- The expressions that an expression consists of. -/
def Expr.children : Expr → List Expr
  | .assignment _ lhs rhs | .binary _ _ lhs rhs | .logical _ _ lhs rhs | .index _ lhs rhs => [lhs, rhs]
  | .unary _ _ operand | .field _ operand _ => [operand]
  | .conditional _ test consequent alternate => [test, consequent, alternate]
  | .call _ callee args => callee :: args
  | .lambda _ params body => params.filterMap Param.bound ++ [body]
  | .block _ body => body.flatMap Stmt.children
  | .matching _ scrutinee arms => scrutinee :: arms.flatMap Arm.children
  | .template _ parts => parts.filterMap Part.child?
  | .object _ properties => properties.flatMap Property.children
  | .mapped _ _ union renamed _ value => union :: (renamed.toList ++ [value])
  | .tuple _ elements => elements
  | .infer _ _ bound => bound.toList
  | .ident .. | .number .. | .string .. | .numberType _ | .stringType _ => []

/-- An expression is found somewhere in another one. -/
inductive Expr.Within (e : Expr) : Expr → Prop where
  | self : Within e e
  | part {child whole : Expr} (hchild : child ∈ whole.children) (hwithin : Within e child) : Within e whole

/-- The name of a let is an identifier. -/
def Stmt.WellMade : Stmt → Prop
  | .letDecl _ name _ => isIdentifier name = true
  | .assertEqual .. | .expr .. => True

/-- The names of an expression itself are identifiers, a number is made of digits, and a template
string is cut into its parts. -/
def Expr.WellMade : Expr → Prop
  | .lambda _ params _ => ∀ p ∈ params, isIdentifier p.name = true
  | .block _ body => ∀ stmt ∈ body, stmt.WellMade
  | .template _ parts => CutParts parts
  | .mapped _ name .. | .infer _ name _ | .ident _ name => isIdentifier name = true
  | .number _ digits => isNumber digits = true
  | _ => True

/-- An expression that is well made has the property `P` if its parts have it. -/
def Inherits (P : Expr → Prop) : Prop := ∀ e : Expr, e.WellMade → (∀ c ∈ e.children, P c) → P e

/-- What is inherited is found all through an expression. -/
theorem Inherits.within {P : Expr → Prop} (hP : Inherits P) :
    Inherits fun e => ∀ sub, Expr.Within sub e → sub.WellMade ∧ P sub := by
  intro e he hchildren sub hsub
  cases hsub with
  | self => exact ⟨he, hP e he fun c hc => (hchildren c hc c .self).2⟩
  | part hchild hwithin => exact hchildren _ hchild sub hwithin

/-- The names of a top-level item are identifiers, and its expressions have the property `P`. -/
def TopLevel.Has (P : Expr → Prop) : TopLevel → Prop
  | .definition d =>
    isIdentifier d.name = true ∧ (∀ p ∈ d.params, isIdentifier p.name = true ∧ ∀ e ∈ p.bound, P e) ∧ P d.body
  | .sectionOf s =>
    isIdentifier s.name = true ∧ ∀ stmt ∈ s.body, stmt.WellMade ∧ ∀ c ∈ stmt.children, P c
  | .importOf i => ∀ name ∈ i.symbols, isIdentifier name = true

end TypeForge
