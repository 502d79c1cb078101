import TypeForge.Proofs.Hygiene.Occurrences
import TypeForge.Proofs.Scoping.Conveys

/-!
# Names that code leaves to its surroundings

A name that an expression uses and that nothing around it binds stays a bare name in the code.
Outside of lambdas and arms it stays in the code of the expression itself.  Inside of them it
gets into a function that is lifted for the expression: no closure takes it along, since a
closure takes along what is bound around it and nothing else.
-/

namespace TypeForge

open TypeScript Scoping Gen

/-! ## Free names -/

mutual

/-- The names that an expression uses and does not bind, patterns left out: those inside of
lambdas and of results of arms if `lifted`, else those outside. -/
def Expr.free (lifted : Bool) : Expr → List String
  | .assignment _ target value => target.free lifted ++ value.free lifted
  | .binary _ _ lhs rhs | .logical _ _ lhs rhs => lhs.free lifted ++ rhs.free lifted
  | .unary _ _ operand => operand.free lifted
  | .conditional _ test consequent alternate =>
    test.free lifted ++ (consequent.free lifted ++ alternate.free lifted)
  | .call _ callee args => callee.free lifted ++ freeOfExprs lifted args
  | .field _ object _ => object.free lifted
  | .index _ object key => object.free lifted ++ key.free lifted
  | .lambda _ params body =>
    if lifted then
      ((freeOfBounds false params ++ body.free false) ++
        (freeOfBounds true params ++ body.free true)).filter (· ∉ params.map Param.name)
    else []
  | .block _ body => freeOfStmts lifted body
  | .matching _ scrutinee arms =>
    scrutinee.free lifted ++ if lifted then freeOfArms arms else []
  | .template _ parts => freeOfParts lifted parts
  | .object _ properties => freeOfProperties lifted properties
  | .mapped _ key union none _ value =>
    union.free lifted ++ (value.free lifted).filter (· ≠ key)
  | .mapped _ key union (some renamed) _ value =>
    union.free lifted ++ (renamed.free lifted ++ value.free lifted).filter (· ≠ key)
  | .tuple _ elements => freeOfExprs lifted elements
  | .infer _ _ none => []
  | .infer _ _ (some bound) => bound.free lifted
  | .ident _ name => if lifted then [] else [name]
  | .number .. | .string .. | .numberType _ | .stringType _ => []

/-- The names that expressions use and do not bind. -/
def freeOfExprs (lifted : Bool) : List Expr → List String
  | [] => []
  | e :: es => e.free lifted ++ freeOfExprs lifted es

/-- The names that the bounds of parameters use and do not bind. -/
def freeOfBounds (lifted : Bool) : List Param → List String
  | [] => []
  | .mk _ _ none :: ps => freeOfBounds lifted ps
  | .mk _ _ (some bound) :: ps => bound.free lifted ++ freeOfBounds lifted ps

/-- The names that statements use and do not bind; a let binds its name behind it. -/
def freeOfStmts (lifted : Bool) : List Stmt → List String
  | [] => []
  | .letDecl _ name value :: ss =>
    value.free lifted ++ (freeOfStmts lifted ss).filter (· ≠ name)
  | .assertEqual _ left right :: ss =>
    left.free lifted ++ (right.free lifted ++ freeOfStmts lifted ss)
  | .expr _ value :: ss => value.free lifted ++ freeOfStmts lifted ss

/-- The names that the results of arms use and that neither they nor the patterns bind. -/
def freeOfArms : List Arm → List String
  | [] => []
  | .mk _ pattern result :: as =>
    (result.free false ++ result.free true).filter (· ∉ pattern.patternVars) ++ freeOfArms as

/-- The names that the parts of a template string use and do not bind. -/
def freeOfParts (lifted : Bool) : List Part → List String
  | [] => []
  | .text _ :: ps => freeOfParts lifted ps
  | .expr value :: ps => value.free lifted ++ freeOfParts lifted ps

/-- The names that the properties of an object use and do not bind. -/
def freeOfProperties (lifted : Bool) : List Property → List String
  | [] => []
  | .named _ _ _ value :: ps => value.free lifted ++ freeOfProperties lifted ps
  | .computed _ key _ value :: ps =>
    key.free lifted ++ (value.free lifted ++ freeOfProperties lifted ps)

end

/-- The names that a statement uses and does not bind. -/
def Stmt.free (lifted : Bool) (stmt : Stmt) : List String := freeOfStmts lifted [stmt]

/-! ## Exposed names -/

/-- A word that brings up the name `x` of the source: the name itself, or a lifted function with
such a word in it, behind no binder of the source called `x`. -/
inductive Carries (table : List Lifted) (x : String) : Bool → BareWord → Prop where
  | bare : Carries table x false (.name (.user x))
  | lifted {f : Lifted} (mem : f ∈ table) {b : Bool} {o : Occurrence}
      (o_mem : o ∈ f.body.occurrences []) (notMem : .user x ∉ o.binders)
      (carries : Carries table x b o.word) : Carries table x true (.name f.name)

/-- Among bare words there is one that brings up `x`, by itself or by what it leads to, behind
no binder of the source called `x`. -/
def Exposes (table : List Lifted) (x : String) (lifted : Bool) (os : List Occurrence) : Prop :=
  ∃ o ∈ os, .user x ∉ o.binders ∧ Carries table x lifted o.word

section

variable {table : List Lifted} {x : String} {lifted : Bool}

@[simp] theorem not_exposes_nil : ¬ Exposes table x lifted [] := by simp [Exposes]

@[simp] theorem exposes_cons {o : Occurrence} {os : List Occurrence} :
    Exposes table x lifted (o :: os) ↔
      (.user x ∉ o.binders ∧ Carries table x lifted o.word) ∨ Exposes table x lifted os := by
  simp [Exposes]

@[simp] theorem exposes_append {os more : List Occurrence} :
    Exposes table x lifted (os ++ more) ↔
      Exposes table x lifted os ∨ Exposes table x lifted more := by
  simp only [Exposes, List.mem_append, or_and_right, exists_or]

/-- Binders of other names do not cover a name. -/
theorem Exposes.behind {t : Ty} (h : Exposes table x lifted (t.occurrences []))
    {names : List Name} (hnames : .user x ∉ names) :
    Exposes table x lifted (t.occurrences names) := by
  obtain ⟨o, ho, hbinders, hcarries⟩ := h
  rw [t.occurrences_eq_map]
  refine ⟨o.within names, List.mem_map_of_mem ho, ?_, hcarries⟩
  simp [Occurrence.within, hbinders, hnames]

theorem Exposes.of_lifted {f : Lifted} (hf : f ∈ table)
    (h : Exposes table x lifted (f.body.occurrences [])) : Carries table x true (.name f.name) := by
  obtain ⟨o, ho, hbinders, hcarries⟩ := h
  exact .lifted hf ho hbinders hcarries

/-! ## The constructs -/

theorem exposes_bindOperands (isNumeric : Bool) {operands : List (Nat × Ty)} {body : Ty}
    (h : Exposes table x lifted (occurrencesOfTys [] (operands.map Prod.snd))) :
    Exposes table x lifted
      ((bindOperands (operandBound isNumeric) operands body).occurrences []) := by
  induction operands with
  | nil => exact absurd h not_exposes_nil
  | cons operand operands ih =>
    obtain ⟨id, operand⟩ := operand
    have hinferred : (Ty.infer (.temp id) (operandBound isNumeric)).inferred = [.temp id] := by
      cases isNumeric <;> simp [operandBound]
    simp only [List.map_cons, occurrencesOfTys, exposes_append] at h
    simp only [bindOperands, Ty.bind, Ty.occurrences, exposes_append, hinferred]
    rcases h with h | h
    · exact .inl h
    · exact .inr (.inr (.inl ((ih h).behind (by simp))))

theorem exposes_combine (c : Combinator) (operands : List Ty) :
    Returns (fun t => Exposes table x lifted (occurrencesOfTys [] operands) →
      Exposes table x lifted (t.occurrences [])) (combine c operands) := by
  refine (returns_combine c operands).imp ?_
  rintro _ ⟨ids, hids, rfl⟩ h
  apply exposes_bindOperands
  rwa [List.map_snd_zip (by omega)]

theorem exposes_binary (op : BinaryOp) (lhs rhs : Ty) :
    Returns (fun t => Exposes table x lifted (lhs.occurrences [] ++ rhs.occurrences []) →
      Exposes table x lifted (t.occurrences [])) (binary op lhs rhs) := by
  unfold binary
  split
  · exact returns_pure fun h => by simpa using h
  · exact (exposes_combine _ _).imp fun t ht h => ht (by simpa using h)

theorem exposes_unary (op : UnaryOp) (operand : Ty) :
    Returns (fun t => Exposes table x lifted (operand.occurrences []) →
      Exposes table x lifted (t.occurrences [])) (unary op operand) := by
  unfold unary
  split
  · refine returns_skip fun id => returns_pure fun h => ?_
    exact exposes_bindOperands true (by simpa using h)
  · exact (exposes_combine _ _).imp fun t ht h => ht (by simpa using h)

/-- Binding a value that binds nothing itself, with the value repeated as the bound. -/
theorem exposes_bindExactly {name : Name} {value body : Ty} (hvalue : value.inferred = [])
    (h : Exposes table x lifted (value.occurrences [] ++ body.occurrences [name])) :
    Exposes table x lifted ((Ty.bindExactly name value body).occurrences []) := by
  simp only [Ty.bindExactly, Ty.bind, Ty.occurrences, Ty.inferred, hvalue, exposes_append] at h ⊢
  exact h.imp_right fun h => .inr (.inl h)

theorem exposes_bindArgs {args : List (Nat × Ty)} {body : Ty}
    (hargs : inferredOfTys (args.map Prod.snd) = [])
    (h : Exposes table x lifted (body.occurrences [] ++ occurrencesOfTys [] (args.map Prod.snd))) :
    Exposes table x lifted ((bindArgs args body).occurrences []) := by
  induction args with
  | nil => simpa [bindArgs] using h
  | cons arg args ih =>
    obtain ⟨id, arg⟩ := arg
    simp only [List.map_cons, inferredOfTys, List.append_eq_nil_iff] at hargs
    simp only [List.map_cons, occurrencesOfTys, exposes_append] at h ih
    refine exposes_bindExactly hargs.1 (exposes_append.2 ((or_left_comm.1 h).imp_right fun h => ?_))
    exact (ih hargs.2 h).behind (by simp)

theorem exposes_applyCall (arity : Option Nat) {callee : Ty} {args : List (Nat × Ty)}
    (hargs : inferredOfTys (args.map Prod.snd) = []) :
    Returns (fun t => Exposes table x lifted
        (callee.occurrences [] ++ occurrencesOfTys [] (args.map Prod.snd)) →
      Exposes table x lifted (t.occurrences [])) (applyCall arity callee args) := by
  unfold applyCall
  split
  · exact returns_pure fun h => exposes_bindArgs hargs h
  · refine (returns_application _ _ _).bind fun body hbody => returns_pure fun h => ?_
    refine exposes_bindArgs hargs (exposes_append.2 ((exposes_append.1 h).imp_left fun h => ?_))
    rcases hbody with rfl | rfl | rfl <;> simp [Ty.applied, h]

end

/-! ## Lifted functions -/

variable {vars : List String} {x : String}

theorem exposes_closure {table : List Lifted} {f : Lifted} (hf : f ∈ table) {lifted : Bool}
    (h : Exposes table x lifted (f.body.occurrences [])) (captured : List Ty) :
    Exposes table x true ((Ty.closure f.name captured).occurrences []) := by
  simp [Ty.closure, Ty.applied, h.of_lifted hf]

/-- The names that the pattern of an arm binds in its declaration are its variables. -/
theorem exposes_arm {table : List Lifted} {lifted : Bool} {check binder code no : Ty}
    {bound : List String} (hinfers : Infers binder.inferred bound) (hx : x ∉ bound)
    (h : Exposes table x lifted (code.occurrences [])) :
    Exposes table x lifted ((Ty.conditional check binder code no).occurrences []) := by
  have hnotMem : .user x ∉ binder.inferred := by
    intro hmem
    obtain ⟨y, hy, heq⟩ := List.mem_map.1 ((hinfers _).1 hmem)
    cases heq
    exact hx hy
  simp only [Ty.occurrences, exposes_append, List.append_nil]
  exact .inr (.inr (.inl (h.behind hnotMem)))

theorem freeOfBounds_eq_nil {params : List Param} (h : params.all (·.bound.isNone) = true)
    (lifted : Bool) : freeOfBounds lifted params = [] :=
  eq_nil_of_boundless (by rw [freeOfBounds]) (fun _ _ _ => by rw [freeOfBounds]) h

/-- No closure takes along a name that nothing binds where it is created. -/
theorem resolve_inside_unbound {scope : Scope} {own : List String}
    (hx : scope.resolve x = .unbound) (hvars : x ∉ vars) (hown : x ∉ own) :
    (Scope.closure (scope.captures vars own) own).resolve x = .unbound := by
  refine Scope.resolve_closure_eq_unbound_iff.2 ⟨?_, hown⟩
  rw [Scope.mem_captures_iff]
  rintro ⟨-, h | h⟩
  · exact hvars h
  · exact h hx

/-! ## Code that exposes names -/

/-- The bare words expose those of the free names that nothing binds around them. -/
def Exposing (table : List Lifted) (vars : List String) (scope : Scope) (free : Bool → List String)
    (os : List Occurrence) : Prop :=
  ∀ x, x ∉ vars → scope.resolve x = .unbound → ∀ lifted, x ∈ free lifted → Exposes table x lifted os

section

variable {table : List Lifted} {scope : Scope} {free more : Bool → List String} {os os' : List Occurrence}

theorem exposing_nil : Exposing table vars scope (fun _ => []) os :=
  fun _ _ _ _ hmem => absurd hmem List.not_mem_nil

theorem Exposing.append (h : Exposing table vars scope free os) (h' : Exposing table vars scope more os') :
    Exposing table vars scope (fun lifted => free lifted ++ more lifted) (os ++ os') := by
  intro x hvars hx lifted hmem
  exact exposes_append.2 ((List.mem_append.1 hmem).imp (h x hvars hx lifted) (h' x hvars hx lifted))

theorem Exposing.imp (h : Exposing table vars scope free os)
    (hos : ∀ {x lifted}, Exposes table x lifted os → Exposes table x lifted os') :
    Exposing table vars scope free os' :=
  fun x hvars hx lifted hmem => hos (h x hvars hx lifted hmem)

/-- Code behind a binder of a name of the source. -/
theorem Exposing.local {name : String} {t : Ty}
    (h : Exposing table vars (scope.bind name) free (t.occurrences [])) :
    Exposing table vars scope (fun lifted => (free lifted).filter (· ≠ name)) (t.occurrences [.user name]) := by
  intro x hvars hx lifted hmem
  rw [List.mem_filter, decide_eq_true_eq] at hmem
  have hunbound := (Scope.resolve_bind_of_ne hmem.2).trans hx
  exact (h x hvars hunbound lifted hmem.1).behind (by simpa using hmem.2)

/-- What is free inside of a lifted function is free where the function is created, unless the
construct it was lifted from binds it. -/
def freeOfLifted (bound : List String) (free : Bool → List String) (lifted : Bool) : List String :=
  if lifted then (free false ++ free true).filter (· ∉ bound) else []

theorem exposing_lifted {bound : List String}
    (h : ∀ x, x ∉ vars → scope.resolve x = .unbound → x ∉ bound → ∀ lifted, x ∈ free lifted →
      Exposes table x true os) : Exposing table vars scope (freeOfLifted bound free) os := by
  intro x hvars hx lifted hmem
  cases lifted with
  | false => cases hmem
  | true =>
    simp only [freeOfLifted, if_true, List.mem_filter, decide_eq_true_eq] at hmem
    exact (List.mem_append.1 hmem.1).elim (h x hvars hx hmem.2 _) (h x hvars hx hmem.2 _)

end

end TypeForge
