import TypeForge.Combinator
import TypeForge.Generate.Monad
import TypeForge.Proofs.Scoping.Source

/-!
# Well-formed programs

The grammar lets through programs that have no code.  What is asked of a program beyond the
grammar is asked of its expressions one by one: of each it only matters what it is and
whether it belongs to a pattern.  An expression belongs to the pattern of an arm if it lies
in that pattern and neither in a lambda nor in the result of an arm inside of it.
-/

namespace TypeForge

/-- An expression of a program, and whether it belongs to a pattern. -/
structure Place where
  inPattern : Bool
  expr : Expr

/-! ## The expressions of a program -/

mutual

/-- An expression and all expressions inside of it. -/
def Expr.places (inPattern : Bool) : Expr → List Place
  | .assignment pos target value =>
    ⟨inPattern, .assignment pos target value⟩ ::
      (target.places inPattern ++ value.places inPattern)
  | .binary pos op lhs rhs =>
    ⟨inPattern, .binary pos op lhs rhs⟩ :: (lhs.places inPattern ++ rhs.places inPattern)
  | .logical pos op lhs rhs =>
    ⟨inPattern, .logical pos op lhs rhs⟩ :: (lhs.places inPattern ++ rhs.places inPattern)
  | .unary pos op operand =>
    ⟨inPattern, .unary pos op operand⟩ :: operand.places inPattern
  | .conditional pos test consequent alternate =>
    ⟨inPattern, .conditional pos test consequent alternate⟩ ::
      (test.places inPattern ++ (consequent.places inPattern ++ alternate.places inPattern))
  | .call pos callee args =>
    ⟨inPattern, .call pos callee args⟩ ::
      (callee.places inPattern ++ placesOfExprs inPattern args)
  | .field pos object name =>
    ⟨inPattern, .field pos object name⟩ :: object.places inPattern
  | .index pos object key =>
    ⟨inPattern, .index pos object key⟩ :: (object.places inPattern ++ key.places inPattern)
  | .lambda pos params body =>
    ⟨inPattern, .lambda pos params body⟩ :: (placesOfBounds params ++ body.places false)
  | .block pos body => ⟨inPattern, .block pos body⟩ :: placesOfStmts inPattern body
  | .matching pos scrutinee arms =>
    ⟨inPattern, .matching pos scrutinee arms⟩ ::
      (scrutinee.places inPattern ++ placesOfArms arms)
  | .template pos parts => ⟨inPattern, .template pos parts⟩ :: placesOfParts inPattern parts
  | .object pos properties =>
    ⟨inPattern, .object pos properties⟩ :: placesOfProperties inPattern properties
  | .mapped pos key union none optional value =>
    ⟨inPattern, .mapped pos key union none optional value⟩ ::
      (union.places inPattern ++ value.places inPattern)
  | .mapped pos key union (some renamed) optional value =>
    ⟨inPattern, .mapped pos key union (some renamed) optional value⟩ ::
      (union.places inPattern ++ (renamed.places inPattern ++ value.places inPattern))
  | .tuple pos elements => ⟨inPattern, .tuple pos elements⟩ :: placesOfExprs inPattern elements
  | .infer pos name none => [⟨inPattern, .infer pos name none⟩]
  | .infer pos name (some bound) =>
    ⟨inPattern, .infer pos name (some bound)⟩ :: bound.places inPattern
  | .ident pos name => [⟨inPattern, .ident pos name⟩]
  | .number pos digits => [⟨inPattern, .number pos digits⟩]
  | .string pos text => [⟨inPattern, .string pos text⟩]
  | .numberType pos => [⟨inPattern, .numberType pos⟩]
  | .stringType pos => [⟨inPattern, .stringType pos⟩]

/-- The expressions of a list of expressions. -/
def placesOfExprs (inPattern : Bool) : List Expr → List Place
  | [] => []
  | e :: es => e.places inPattern ++ placesOfExprs inPattern es

/-- The expressions of the bounds of parameters, which belong to no pattern. -/
def placesOfBounds : List Param → List Place
  | [] => []
  | .mk _ _ none :: ps => placesOfBounds ps
  | .mk _ _ (some bound) :: ps => bound.places false ++ placesOfBounds ps

/-- The expressions of statements. -/
def placesOfStmts (inPattern : Bool) : List Stmt → List Place
  | [] => []
  | .letDecl _ _ value :: ss => value.places inPattern ++ placesOfStmts inPattern ss
  | .assertEqual _ left right :: ss =>
    left.places inPattern ++ (right.places inPattern ++ placesOfStmts inPattern ss)
  | .expr _ value :: ss => value.places inPattern ++ placesOfStmts inPattern ss

/-- The expressions of arms: the pattern of an arm is a pattern wherever the arm stands, and
its result belongs to none. -/
def placesOfArms : List Arm → List Place
  | [] => []
  | .mk _ pattern result :: as => pattern.places true ++ (result.places false ++ placesOfArms as)

/-- The expressions of the parts of a template string. -/
def placesOfParts (inPattern : Bool) : List Part → List Place
  | [] => []
  | .text _ :: ps => placesOfParts inPattern ps
  | .expr value :: ps => value.places inPattern ++ placesOfParts inPattern ps

/-- The expressions of the properties of an object. -/
def placesOfProperties (inPattern : Bool) : List Property → List Place
  | [] => []
  | .named _ _ _ value :: ps => value.places inPattern ++ placesOfProperties inPattern ps
  | .computed _ key _ value :: ps =>
    key.places inPattern ++ (value.places inPattern ++ placesOfProperties inPattern ps)

end

/-- The expressions of a top-level item. -/
def TopLevel.places : TopLevel → List Place
  | .definition d => placesOfBounds d.params ++ d.body.places false
  | .sectionOf s => placesOfStmts false s.body
  | .importOf _ => []

/-- The expressions of a program. -/
def Program.places (program : Program) : List Place := program.body.flatMap TopLevel.places

/-- Without bounds there are no expressions in them. -/
theorem placesOfBounds_eq_nil {params : List Param} (h : params.all (·.bound.isNone) = true) :
    placesOfBounds params = [] :=
  eq_nil_of_boundless (by rw [placesOfBounds]) (fun _ _ _ => by rw [placesOfBounds]) h

/-! ## Well-formedness -/

/-- Whether a statement is a let. -/
def Stmt.isLet : Stmt → Bool
  | letDecl .. => true
  | _ => false

/-- Whether a statement is an expression. -/
def Stmt.isExpr : Stmt → Bool
  | expr .. => true
  | _ => false

/-- Whether a statement is an assertion. -/
def Stmt.isAssertion : Stmt → Bool
  | assertEqual .. => true
  | _ => false

/-- The pattern of an arm. -/
def Arm.pattern : Arm → Expr
  | mk _ pattern _ => pattern

/-- The statements of a block: there are some, all but the last are lets and the last is an
expression. -/
def EndsInResult (body : List Stmt) : Prop :=
  (∀ stmt ∈ body.dropLast, stmt.isLet = true) ∧ ∃ stmt ∈ body.getLast?, stmt.isExpr = true

theorem endsInResult_letDecl (pos : Position) (name : String) (value : Expr) (stmt : Stmt)
    (rest : List Stmt) : EndsInResult (.letDecl pos name value :: stmt :: rest) ↔
      EndsInResult (stmt :: rest) := by
  simp [EndsInResult, Stmt.isLet]

/-- What is asked of a program beyond the grammar. -/
structure Program.WellFormed (program : Program) : Prop where
  /-- There are no assignments. -/
  no_assignment : ∀ inPattern pos target value,
    ⟨inPattern, .assignment pos target value⟩ ∉ program.places
  /-- A call of a member by its name calls a method. -/
  method_known : ∀ inPattern pos p object name args,
    ⟨inPattern, .call pos (.field p object name) args⟩ ∈ program.places →
      (method? name).isSome = true
  /-- A block consists of lets and an expression behind them. -/
  block_ends : ∀ inPattern pos body, ⟨inPattern, .block pos body⟩ ∈ program.places →
    EndsInResult body
  /-- There are no assertions but those that stand in a section themselves. -/
  no_assertion : ∀ inPattern pos body, ⟨inPattern, .block pos body⟩ ∈ program.places →
    ∀ stmt ∈ body, stmt.isAssertion = false
  /-- Pattern variables belong to patterns. -/
  infer_inPattern : ∀ inPattern pos name bound,
    ⟨inPattern, .infer pos name bound⟩ ∈ program.places → inPattern = true
  /-- No pattern binds too many variables. -/
  few_patternVars : ∀ inPattern pos scrutinee arms,
    ⟨inPattern, .matching pos scrutinee arms⟩ ∈ program.places →
      ∀ arm ∈ arms, arm.pattern.patternVars.length ≤ maxPatternVars

/-- What is asked of one expression. -/
def Place.Sound : Place → Prop
  | ⟨_, .assignment ..⟩ => False
  | ⟨_, .call _ (.field _ _ name) _⟩ => (method? name).isSome = true
  | ⟨_, .block _ body⟩ => EndsInResult body
  | ⟨_, .matching _ _ arms⟩ => ∀ arm ∈ arms, arm.pattern.patternVars.length ≤ maxPatternVars
  | ⟨inPattern, .infer ..⟩ => inPattern = true
  | _ => True

/-- Nothing is asked of a call of anything but a method. -/
theorem Place.sound_call {inPattern : Bool} {pos : Position} {callee : Expr} {args : List Expr}
    (h : ¬ ∃ p object method, callee = .field p object method) :
    (Place.mk inPattern (.call pos callee args)).Sound := by
  cases callee with
  | field p object method => exact absurd ⟨p, object, method, rfl⟩ h
  | _ => trivial

/-- What is asked of some expressions. -/
def AllSound (places : List Place) : Prop := ∀ place ∈ places, place.Sound

@[simp] theorem allSound_nil : AllSound [] := by simp [AllSound]

@[simp] theorem allSound_cons {place : Place} {places : List Place} :
    AllSound (place :: places) ↔ place.Sound ∧ AllSound places := by simp [AllSound]

@[simp] theorem allSound_append {places more : List Place} :
    AllSound (places ++ more) ↔ AllSound places ∧ AllSound more := by
  simp [AllSound, or_imp, forall_and]

/-- A block that ends in a result has no assertions. -/
theorem EndsInResult.isAssertion_eq_false {body : List Stmt} (h : EndsInResult body) {stmt : Stmt}
    (hstmt : stmt ∈ body) : stmt.isAssertion = false := by
  obtain ⟨hlets, last, hlast, hexpr⟩ := h
  obtain ⟨lets, rfl⟩ := List.getLast?_eq_some_iff.1 hlast
  rw [List.dropLast_concat] at hlets
  rcases List.mem_append.1 hstmt with hstmt | hstmt
  · have hlet := hlets stmt hstmt
    cases stmt <;> simp_all [Stmt.isLet, Stmt.isAssertion]
  · obtain rfl := List.mem_singleton.1 hstmt
    cases stmt <;> simp_all [Stmt.isExpr, Stmt.isAssertion]

/-- A program is well-formed if each of its expressions is what it has to be. -/
theorem Program.wellFormed_iff (program : Program) :
    program.WellFormed ↔ AllSound program.places := by
  constructor
  · rintro h ⟨inPattern, e⟩ hplace
    unfold Place.Sound
    split
    case h_6 => trivial
    all_goals rename_i heq; cases heq
    case h_1.refl => exact h.no_assignment _ _ _ _ hplace
    case h_2.refl => exact h.method_known _ _ _ _ _ _ hplace
    case h_3.refl => exact h.block_ends _ _ _ hplace
    case h_4.refl => exact h.few_patternVars _ _ _ _ hplace
    case h_5.refl => exact h.infer_inPattern _ _ _ _ hplace
  · intro h
    exact {
      no_assignment := fun _ _ _ _ hplace => h _ hplace
      method_known := fun _ _ _ _ _ _ hplace => h _ hplace
      block_ends := fun _ _ _ hplace => h _ hplace
      no_assertion := fun _ _ _ hplace _ hstmt =>
        EndsInResult.isAssertion_eq_false (h _ hplace) hstmt
      infer_inPattern := fun _ _ _ _ hplace => h _ hplace
      few_patternVars := fun _ _ _ _ hplace => h _ hplace }

end TypeForge
