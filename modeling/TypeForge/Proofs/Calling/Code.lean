import TypeForge.Proofs.Calling.Calls
import TypeForge.Proofs.Generate.Runs

/-!
# The code of calls

A call with arguments becomes conditional types that bind the arguments to ids, one inside of the
other, around the application of the callee to these ids.  The code of a call tells everything
about it: how the callee is applied, the code of the callee, and the ids and values of the
arguments.  Nothing else that is generated looks alike, and no part of the code of a call that
binds only some of its arguments is the code of a call.
-/

namespace TypeForge.TypeScript

/-! ## Conditional types -/

mutual

/-- The conditional types in a piece of code, itself included. -/
@[simp] def Ty.conditionals : Ty → List Ty
  | .apply head args => head.conditionals ++ conditionalsOfTys args
  | .paren inner => inner.conditionals
  | .operation _ lhs rhs => lhs.conditionals ++ rhs.conditionals
  | .index object key => object.conditionals ++ key.conditionals
  | .conditional check pattern yes no =>
    .conditional check pattern yes no :: (check.conditionals ++ (pattern.conditionals ++
      (yes.conditionals ++ no.conditionals)))
  | .infer _ none => []
  | .infer _ (some bound) => bound.conditionals
  | .tuple elements => conditionalsOfTys elements
  | .object fields => conditionalsOfFields fields
  | .mapped _ union none _ value => union.conditionals ++ value.conditionals
  | .mapped _ union (some renamed) _ value =>
    union.conditionals ++ (renamed.conditionals ++ value.conditionals)
  | .template parts => conditionalsOfPieces parts
  | .name _ | .symbol .. | .arg _ | .param .. | .captured .. | .number _ | .string _
  | .keyword _ => []

/-- The conditional types in a list of types. -/
@[simp] def conditionalsOfTys : List Ty → List Ty
  | [] => []
  | t :: ts => t.conditionals ++ conditionalsOfTys ts

/-- The conditional types in the fields of an object type. -/
@[simp] def conditionalsOfFields : List Field → List Ty
  | [] => []
  | .named _ _ value :: fs => value.conditionals ++ conditionalsOfFields fs
  | .computed key _ value :: fs =>
    key.conditionals ++ (value.conditionals ++ conditionalsOfFields fs)

/-- The conditional types in the pieces of a template literal type. -/
@[simp] def conditionalsOfPieces : List Piece → List Ty
  | [] => []
  | .text _ :: ps => conditionalsOfPieces ps
  | .ty value :: ps => value.conditionals ++ conditionalsOfPieces ps

end

@[simp] theorem conditionals_never : Ty.never.conditionals = [] := by rw [Ty.never, Ty.conditionals]

theorem mem_conditionals_bindExactly {t : Ty} (name : Name) (value body : Ty) :
    t ∈ (Ty.bindExactly name value body).conditionals ↔
      t = .bindExactly name value body ∨ t ∈ value.conditionals ∨ t ∈ body.conditionals := by
  simp [Ty.bindExactly, Ty.bind]

@[simp] theorem conditionalsOfTys_append (ts us : List Ty) :
    conditionalsOfTys (ts ++ us) = conditionalsOfTys ts ++ conditionalsOfTys us := by
  induction ts with
  | nil => rfl
  | cons t ts ih => simp [ih]

theorem conditionalsOfTys_map_eq_nil {α : Type} {f : α → Ty} (h : ∀ a, (f a).conditionals = [])
    (as : List α) : conditionalsOfTys (as.map f) = [] := by
  induction as with
  | nil => rfl
  | cons a as ih => simp [h, ih]

/-- The types that a declaration gives names to. -/
def Declaration.codes : Declaration → List Ty
  | named _ type => [type.value]
  | group _ body => body.map Alias.value
  | importOf .. => []

/-- The conditional types in everything that is generated for a program. -/
def Module.conditionals (m : Module) : List Ty :=
  conditionalsOfTys (m.items.flatMap Declaration.codes ++ m.lifted.map Interface.body)

end TypeForge.TypeScript

namespace TypeForge.Calling

open TypeScript Gen

/-! ## Applications -/

/-- How a callee is applied to arguments. -/
inductive Manner where
  /-- To all that it has parameters for. -/
  | full
  /-- To some of them. -/
  | part
  /-- To all of them if that gives a result, else to some.  This is found out when the code is
  evaluated. -/
  | either
deriving DecidableEq

namespace Manner

/-- How a callee with the given number of parameters, if it is known, is applied. -/
def of (arity : Option Nat) (count : Nat) : Manner :=
  match arity with
  | none => either
  | some arity => if arity ≤ count then full else part

/-- The code of an application. -/
def ty (manner : Manner) (callee : Ty) (args : List Ty) : Ty :=
  let all := Ty.applied .applyAll [callee, .tuple args]
  let some := Ty.applied .applyPart [callee, .tuple args]
  match manner with
  | full => all
  | part => some
  | either => .conditional (.paren all) .never (.paren some) (.paren all)

variable {manner manner' : Manner} {callee callee' : Ty} {args args' : List Ty}

/-- The code of an application tells how the callee is applied, and to what. -/
theorem ty_inj (h : manner.ty callee args = manner'.ty callee' args') :
    manner = manner' ∧ callee = callee' ∧ args = args' := by
  cases manner <;> cases manner' <;>
    simp_all [ty, Ty.applied, Ty.ofSymbol, Symbol.applyAll, Symbol.applyPart]

theorem ty_ne_bindExactly (name : Name) (value body : Ty) :
    manner.ty callee args ≠ .bindExactly name value body := by
  cases manner <;> simp [ty, Ty.applied, Ty.bindExactly, Ty.bind, Ty.never]

end Manner

/-- An application of known arity is complete or partial, one of unknown arity tries both. -/
theorem returns_application_manner (arity : Option Nat) (callee : Ty) (args : List Ty) :
    Returns (fun t => t = (Manner.of arity args.length).ty callee args)
      (application arity callee args) := by
  unfold application
  cases arity with
  | none => exact returns_skip fun _ => returns_skip fun _ => returns_pure rfl
  | some arity =>
    by_cases h : arity ≤ args.length
    · simp only [Manner.of, h, if_true]
      exact returns_skip fun _ => returns_pure rfl
    · simp only [Manner.of, h, if_false]
      exact returns_skip fun _ => returns_pure rfl

/-! ## Calls -/

/-- What the code of a call consists of. -/
structure CallCode where
  manner : Manner
  callee : Ty
  /-- The id of the first argument. -/
  id : Nat
  /-- The code of the first argument. -/
  value : Ty
  /-- The ids and the code of the other arguments. -/
  others : List (Nat × Ty)

namespace CallCode

/-- The ids and the code of the arguments. -/
def args (x : CallCode) : List (Nat × Ty) := (x.id, x.value) :: x.others

/-- The application of the callee to the ids of the arguments. -/
def application (x : CallCode) : Ty :=
  x.manner.ty x.callee (x.args.map fun arg => .name (.temp arg.1))

/-- The code of a call. -/
def ty (x : CallCode) : Ty :=
  x.args.foldr (fun arg body => .bindExactly (.temp arg.1) arg.2 body) x.application

end CallCode

theorem bindArgs_eq_foldr (args : List (Nat × Ty)) (body : Ty) :
    bindArgs args body = args.foldr (fun arg body => .bindExactly (.temp arg.1) arg.2 body) body := by
  induction args with
  | nil => rfl
  | cons arg args ih => rw [bindArgs, ih, List.foldr_cons]

variable {manner manner' : Manner} {callee callee' : Ty} {args args' : List (Nat × Ty)}
  {temps temps' : List Ty} {x y : CallCode}

/-- An application behind arguments that are bound tells these arguments. -/
theorem bindArgs_manner_inj
    (h : bindArgs args (manner.ty callee temps) = bindArgs args' (manner'.ty callee' temps')) :
    args = args' ∧ manner = manner' ∧ callee = callee' ∧ temps = temps' := by
  induction args generalizing args' with
  | nil =>
    cases args' with
    | nil => exact ⟨rfl, Manner.ty_inj h⟩
    | cons arg' args' => exact absurd h (Manner.ty_ne_bindExactly _ _ _)
  | cons arg args ih =>
    cases args' with
    | nil => exact absurd h.symm (Manner.ty_ne_bindExactly _ _ _)
    | cons arg' args' =>
      obtain ⟨id, value⟩ := arg
      obtain ⟨id', value'⟩ := arg'
      simp only [bindArgs, Ty.bindExactly, Ty.bind, Ty.conditional.injEq, Ty.paren.injEq,
        Ty.infer.injEq, Name.temp.injEq] at h
      obtain ⟨rfl, ⟨rfl, -⟩, hbody, -⟩ := h
      obtain ⟨rfl, happlication⟩ := ih hbody
      exact ⟨rfl, happlication⟩

theorem CallCode.ty_eq_bindArgs (x : CallCode) : x.ty = bindArgs x.args x.application :=
  (bindArgs_eq_foldr _ _).symm

/-- **The code of a call tells what it consists of.** -/
theorem CallCode.ty_injective : Function.Injective CallCode.ty := by
  intro x y h
  rw [x.ty_eq_bindArgs, y.ty_eq_bindArgs] at h
  obtain ⟨hargs, hmanner, hcallee, -⟩ := bindArgs_manner_inj h
  obtain ⟨manner, callee, id, value, others⟩ := x
  cases hargs
  cases hmanner
  cases hcallee
  rfl

/-- The code of a call binds its first argument around the rest. -/
theorem CallCode.ty_eq (x : CallCode) :
    x.ty = .bindExactly (.temp x.id) x.value (bindArgs x.others x.application) := by
  rw [x.ty_eq_bindArgs, CallCode.args, bindArgs]

/-! ## The calls in code -/

section

variable {check pattern yes no : Ty}

theorem CallCode.ty_ne_of_check (h : ∀ t, check ≠ .paren t) :
    x.ty ≠ .conditional check pattern yes no := by
  rw [x.ty_eq]
  intro heq
  cases heq
  exact h _ rfl

theorem CallCode.ty_ne_of_pattern
    (h : ∀ id t, pattern ≠ .infer (.temp id) (some (.paren t))) :
    x.ty ≠ .conditional check pattern yes no := by
  rw [x.ty_eq]
  intro heq
  cases heq
  exact h _ _ rfl

/-- The calls in an application are those in its callee. -/
theorem mem_conditionals_manner (ids : List Nat) :
    x.ty ∈ (manner.ty callee (ids.map fun id => .name (.temp id))).conditionals ↔
      x.ty ∈ callee.conditionals := by
  have htemps : conditionalsOfTys (ids.map fun id => Ty.name (.temp id)) = [] :=
    conditionalsOfTys_map_eq_nil (fun _ => by rw [Ty.conditionals]) ids
  cases manner with
  | full | part => simp [Manner.ty, Ty.applied, Ty.ofSymbol, htemps]
  | either =>
    have hne (check yes no : Ty) : x.ty ≠ .conditional check .never yes no :=
      CallCode.ty_ne_of_pattern (by simp [Ty.never])
    simp [Manner.ty, Ty.applied, Ty.ofSymbol, hne, htemps]

/-- Behind some of the arguments, no code of a call begins. -/
theorem mem_conditionals_bindArgs_of_lt {ids : List Nat} (h : args.length < ids.length) :
    x.ty ∈ (bindArgs args (manner.ty callee (ids.map fun id => .name (.temp id)))).conditionals ↔
      x.ty ∈ conditionalsOfTys (args.map Prod.snd) ∨ x.ty ∈ callee.conditionals := by
  induction args with
  | nil => simp [bindArgs, mem_conditionals_manner]
  | cons arg args ih =>
    have hne : x.ty ≠
        bindArgs (arg :: args) (manner.ty callee (ids.map fun id => .name (.temp id))) := by
      intro heq
      rw [x.ty_eq_bindArgs] at heq
      obtain ⟨hargs, -, -, htemps⟩ := bindArgs_manner_inj heq
      have hlen := congrArg List.length htemps
      rw [List.length_map, List.length_map, hargs] at hlen
      omega
    obtain ⟨id, value⟩ := arg
    rw [bindArgs] at hne ⊢
    rw [mem_conditionals_bindExactly, or_iff_right hne, ih (Nat.lt_of_succ_lt h), List.map_cons,
      conditionalsOfTys, List.mem_append, or_assoc]

/-- The calls in the code of a call are itself, and those in its arguments and its callee. -/
theorem mem_conditionals_call (y : CallCode) :
    x.ty ∈ y.ty.conditionals ↔
      x = y ∨ x.ty ∈ conditionalsOfTys (y.args.map Prod.snd) ∨ x.ty ∈ y.callee.conditionals := by
  have hrest : x.ty ∈ (bindArgs y.others y.application).conditionals ↔
      x.ty ∈ conditionalsOfTys (y.others.map Prod.snd) ∨ x.ty ∈ y.callee.conditionals := by
    have happlication : y.application =
        y.manner.ty y.callee ((y.args.map Prod.fst).map fun id => .name (.temp id)) := by
      rw [List.map_map]
      rfl
    rw [happlication]
    exact mem_conditionals_bindArgs_of_lt (by simp [CallCode.args])
  have hself : x.ty = y.ty ↔ x = y := CallCode.ty_injective.eq_iff
  rw [y.ty_eq] at hself ⊢
  rw [mem_conditionals_bindExactly, hself, hrest, CallCode.args, List.map_cons, conditionalsOfTys,
    List.mem_append, or_assoc]

theorem mem_conditionals_bindExactly_user (name : String) (value body : Ty) :
    x.ty ∈ (Ty.bindExactly (.user name) value body).conditionals ↔
      x.ty ∈ value.conditionals ∨ x.ty ∈ body.conditionals := by
  have hne : x.ty ≠ .bindExactly (.user name) value body := CallCode.ty_ne_of_pattern (by simp)
  rw [mem_conditionals_bindExactly, or_iff_right hne]

theorem mem_conditionals_bindOperands (isNumeric : Bool) (operands : List (Nat × Ty)) (body : Ty) :
    x.ty ∈ (bindOperands (operandBound isNumeric) operands body).conditionals ↔
      x.ty ∈ conditionalsOfTys (operands.map Prod.snd) ∨ x.ty ∈ body.conditionals := by
  induction operands with
  | nil => simp [bindOperands]
  | cons operand operands ih =>
    obtain ⟨id, operand⟩ := operand
    have hne (check yes no : Ty) :
        x.ty ≠ .conditional check (.infer (.temp id) (operandBound isNumeric)) yes no := by
      refine CallCode.ty_ne_of_pattern fun id t heq => ?_
      cases isNumeric <;> simp [operandBound] at heq
    have hbound : (Ty.infer (.temp id) (operandBound isNumeric)).conditionals = [] := by
      cases isNumeric <;> simp [operandBound]
    simp [bindOperands, Ty.bind, hne, hbound, ih, Ty.never, or_assoc]

theorem mem_conditionals_combinatorResult (c : Combinator) (ids : List Nat) :
    x.ty ∉ (combinatorResult c ids).conditionals := by
  have htemps : conditionalsOfTys (ids.map fun id => Ty.name (.temp id)) = [] :=
    conditionalsOfTys_map_eq_nil (fun _ => by rw [Ty.conditionals]) ids
  have hcall : (combinatorCall c (ids.map fun id => .name (.temp id))).conditionals = [] := by
    unfold combinatorCall
    split <;> simp [Ty.applied, Ty.ofSymbol, htemps]
  have hne (check yes no : Ty) : x.ty ≠ .conditional check (.number "1") yes no :=
    CallCode.ty_ne_of_pattern (by simp)
  unfold combinatorResult truthOfBit
  split <;> simp [hcall, hne]

/-- The code of the same calls is in `ts` and in `us`. -/
def SameCalls (ts us : List Ty) : Prop :=
  ∀ x : CallCode, x.ty ∈ conditionalsOfTys ts ↔ x.ty ∈ conditionalsOfTys us

/-- A combinator adds no call to those in its operands. -/
theorem sameCalls_combine (c : Combinator) (operands : List Ty) :
    Returns (fun t => SameCalls [t] operands) (combine c operands) := by
  refine (returns_combine c operands).imp ?_
  rintro _ ⟨ids, hids, rfl⟩ x
  rw [conditionalsOfTys, conditionalsOfTys, List.append_nil, Ty.conditionals,
    mem_conditionals_bindOperands, List.map_snd_zip (by omega),
    or_iff_left (mem_conditionals_combinatorResult c ids)]

theorem sameCalls_binary (op : BinaryOp) (lhs rhs : Ty) :
    Returns (fun t => SameCalls [t] [lhs, rhs]) (binary op lhs rhs) := by
  unfold binary
  split
  · exact returns_pure fun x => by simp
  · exact sameCalls_combine _ _

theorem sameCalls_unary (op : UnaryOp) (operand : Ty) :
    Returns (fun t => SameCalls [t] [operand]) (unary op operand) := by
  unfold unary
  split
  · refine returns_skip fun id => returns_pure fun x => ?_
    simp [mem_conditionals_bindOperands]
  · exact sameCalls_combine _ _

theorem conditionals_reference (vars : List String) (scope : Scope) (name : String) :
    (reference vars scope name).conditionals = [] := by
  unfold reference
  split
  · rw [Ty.conditionals]
  · split <;> rw [Ty.conditionals]

theorem conditionals_closure (name : Name) (vars : List String) (scope : Scope)
    (names : List String) :
    (Ty.closure name (names.map (reference vars scope))).conditionals = [] := by
  simp [Ty.closure, Ty.applied, Ty.ofSymbol,
    conditionalsOfTys_map_eq_nil (conditionals_reference vars scope)]

end

end TypeForge.Calling
