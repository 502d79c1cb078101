import TypeForge.Proofs.Generate.Patterns
import TypeForge.Proofs.Scoping.Agreement
import Mathlib.Data.List.Forall2

/-!
# Code that conveys the identifiers of the source

Code conveys some identifiers of the source if, read wherever the reading agrees with the
scope it was generated in, its references are these identifiers: each with the frames around
it in the source, and standing for what the identifier stands for there.  The rules below
follow the constructs of the target language: code next to code, code behind a binder, and
a closure that leads to a declaration.
-/

namespace TypeForge.Scoping

open TypeScript Gen

/-- An identifier as a reference that stands for its innermost binder. -/
def Use.mention (u : Use) : Mention := ⟨u.frames, u.name, some (referent u.frames u.name)⟩

/-- Where a reading agrees with the scope, the references reached from the sites are the
identifiers that the source uses inside of the frames around the place. -/
def Conveys (table : List Lifted) (vars : List String) (scope : Scope)
    (uses : List Frame → List Use) (sites : Reading → List Site) : Prop :=
  Distinct table → ∀ ⦃r : Reading⦄, Agrees r vars scope →
    (∀ u ∈ uses r.frames, ¬ IsGenerated u.name) →
      ∀ m, Reached table (sites r) m ↔ ∃ u ∈ uses r.frames, m = u.mention

/-- The code `t` conveys the identifiers of the expression `e` and binds nothing around
itself. -/
structure Translates (table : List Lifted) (vars : List String) (scope : Scope) (e : Expr)
    (t : Ty) : Prop where
  conveys : Conveys table vars scope (fun frames => e.uses frames) fun r => t.sites r
  inferred_eq : t.inferred = []

section

variable {table : List Lifted} {vars own : List String} {scope : Scope}
  {uses more : List Frame → List Use} {sites sites' : Reading → List Site}

theorem conveys_nil : Conveys table vars scope (fun _ => []) fun _ => [] := by
  intro _ r _ _ m
  simp

theorem Conveys.append (h : Conveys table vars scope uses sites)
    (h' : Conveys table vars scope more sites') :
    Conveys table vars scope (fun frames => uses frames ++ more frames)
      fun r => sites r ++ sites' r := by
  intro htable r hr hplain m
  rw [reached_append, h htable hr (fun u hu => hplain u (List.mem_append_left _ hu)),
    h' htable hr (fun u hu => hplain u (List.mem_append_right _ hu))]
  simp only [List.mem_append, or_and_right, exists_or]

/-- The order of the sites and of the identifiers does not matter, nor does repetition. -/
theorem Conveys.congr (h : Conveys table vars scope uses sites)
    (huses : ∀ frames u, u ∈ more frames ↔ u ∈ uses frames)
    (hsites : ∀ r m, Reached table (sites' r) m ↔ Reached table (sites r) m) :
    Conveys table vars scope more sites' := by
  intro htable r hr hplain m
  rw [hsites, h htable hr (fun u hu => hplain u ((huses _ u).2 hu))]
  simp only [huses]

theorem Conveys.congr_sites (h : Conveys table vars scope uses sites)
    (hsites : ∀ r m, Reached table (sites' r) m ↔ Reached table (sites r) m) :
    Conveys table vars scope uses sites' :=
  h.congr (fun _ _ => Iff.rfl) hsites

/-! ## Binders -/

theorem binding_nil (r : Reading) : r.binding [] = r := rfl

/-- Code behind a binder of a generated name. -/
theorem Conveys.temp (h : Conveys table vars scope uses sites) (id : Nat) :
    Conveys table vars scope uses fun r => sites (r.binding [.temp id]) := by
  intro htable r hr
  have hid : ∀ n ∈ [Name.temp id], n.source? = none := by simp [Name.source?]
  have h' := h htable (hr.generated hid)
  rwa [frames_binding_generated hid] at h'

/-- Code behind a binder of a name of the source. -/
theorem Conveys.local {bound : String} (h : Conveys table vars (scope.bind bound) uses sites) :
    Conveys table vars scope (fun frames => uses (.locals [bound] :: frames))
      fun r => sites (r.binding [.user bound]) :=
  fun htable _ hr => h htable (hr.local bound)

/-! ## Closures -/

theorem conveys_lambda {f : Lifted} (hf : f ∈ table) {id : Nat} (hname : f.name = .lambda id)
    (h : Conveys table [] (.closure (scope.captures vars f.binds) f.binds) uses
      fun r => f.body.sites r) :
    Conveys table vars scope (fun frames => uses (.params f.binds :: frames))
      fun r => [.closure r (.lambda id) ((scope.captures vars f.binds).map (reference vars scope))] := by
  intro htable r hr hplain m
  rw [reached_lambda htable hf hname]
  exact h htable (hr.enterLambda f.binds) hplain m

theorem conveys_arm {f : Lifted} (hf : f ∈ table) {id : Nat} (hname : f.name = .arm id)
    {check pattern yes no : Ty} (hbody : f.body = .conditional check pattern yes no)
    (hpattern : Infers pattern.inferred f.binds)
    (h : Conveys table f.binds (.closure (scope.captures vars []) []) uses fun r => yes.sites r) :
    Conveys table vars scope (fun frames => uses (.locals f.binds :: frames))
      fun r => [.closure r (.arm id) ((scope.captures vars []).map (reference vars scope))] := by
  intro htable r hr hplain m
  rw [reached_arm htable hf hname hbody]
  exact h htable (hr.enterArm hpattern) hplain m

theorem sites_closure {name : Name} (h : name.isLifted) (r : Reading) (captured : List Ty) :
    (Ty.closure name captured).sites r = [.closure r name captured] := by
  rw [Ty.closure, Ty.applied, Ty.ofSymbol, Ty.sites, closure?, if_pos ⟨rfl, h⟩]

/-- The pattern of an arm is left out. -/
theorem sites_arm (member : String) (pattern t : Ty) (r : Reading) :
    (Ty.apply (.symbol .matching (some member)) [pattern, t]).sites r = t.sites r := by
  rw [Ty.sites, closure?, isArmHead]
  · simp [sitesOfTail, sitesOfTys]
  · simp

/-! ## References -/

/-- **A reference stands for the innermost binder of its name.** -/
theorem conveys_reference (name : String) :
    Conveys table vars scope (fun frames => [⟨frames, name⟩])
      fun r => (reference vars scope name).sites r := by
  intro _ r hr hplain m
  have hsites : (reference vars scope name).sites r =
      [r.mention name (reference vars scope name)] := by
    unfold reference
    split
    · rw [Ty.sites]
    · split <;> rw [Ty.sites]
  have hreferent := hr.referent_eq name (hplain ⟨r.frames, name⟩ (List.mem_singleton_self _))
  simp only [hsites, Reading.mention, reached_mention, hreferent, List.mem_singleton]
  simp [Use.mention]

/-! ## Operators and calls -/

variable {es : List Expr}

theorem sites_apply {head : Ty} {args : List Ty} (h : closure? head args = none)
    (hhead : isArmHead head = false) (r : Reading) :
    (Ty.apply head args).sites r = head.sites r ++ sitesOfTys r args := by
  rw [Ty.sites, h, hhead]
  rfl

/-- Only partial application makes a closure. -/
theorem closure?_of_ne {symbol : Symbol} (h : symbol ≠ .applyPart) (args : List Ty) :
    closure? (.symbol symbol none) args = none := by
  unfold closure?
  split
  · next heq =>
    cases heq
    exact if_neg fun h' => h h'.1
  · rfl

theorem sites_applied {symbol : Symbol} (h : symbol ≠ .applyPart) (r : Reading)
    (args : List Ty) : (Ty.applied symbol args).sites r = sitesOfTys r args := by
  rw [Ty.applied, Ty.ofSymbol, sites_apply (closure?_of_ne h args) rfl, Ty.sites]
  rfl

@[simp] theorem sites_temp (r : Reading) (id : Nat) : (Ty.name (.temp id)).sites r = [] := by
  rw [Ty.sites]
  simp

theorem sitesOfTys_map_eq_nil {α : Type} {f : α → Ty} {r : Reading} (h : ∀ a, (f a).sites r = [])
    (as : List α) : sitesOfTys r (as.map f) = [] := by
  induction as with
  | nil => rfl
  | cons a as ih => rw [List.map_cons, sitesOfTys, h, ih, List.append_nil]

theorem sitesOfTys_temps (r : Reading) (ids : List Nat) :
    sitesOfTys r (ids.map fun id => .name (.temp id)) = [] :=
  sitesOfTys_map_eq_nil (sites_temp r) ids

/-- Nor does the application of anything to generated names. -/
theorem closure?_temps (head : Ty) (ids : List Nat) :
    closure? head (ids.map fun id => .name (.temp id)) = none := by
  unfold closure?
  split
  · next heq => rcases ids with _ | ⟨i, _ | ⟨j, ids⟩⟩ <;> simp at heq
  · rfl

/-- A call is no closure, even if it applies a function to some of its arguments. -/
theorem closure?_call_temps (head callee : Ty) (ids : List Nat) :
    closure? head [callee, .tuple (ids.map fun id => .name (.temp id))] = none := by
  unfold closure?
  split
  · next heq => rcases ids with _ | ⟨i, ids⟩ <;> simp at heq
  · rfl

/-- The application of a combinator holds no references of its own, whatever it is. -/
theorem sites_apply_temps (symbol : Symbol) (member : Option String) (ids : List Nat)
    (r : Reading) :
    (Ty.apply (.symbol symbol member) (ids.map fun id => .name (.temp id))).sites r = [] := by
  have htail : sitesOfTail r (ids.map fun id => .name (.temp id)) = [] := by
    cases ids with
    | nil => rfl
    | cons id ids => exact sitesOfTys_temps r ids
  rw [Ty.sites, closure?_temps]
  simp [htail, sitesOfTys_temps, Ty.sites]

theorem sites_combinatorResult (c : Combinator) (ids : List Nat) (r : Reading) :
    (combinatorResult c ids).sites r = [] := by
  have hcall : (combinatorCall c (ids.map fun id => .name (.temp id))).sites r = [] := by
    unfold combinatorCall
    split
    · exact sites_apply_temps _ _ _ _
    · rw [sites_applied (by decide), sitesOfTys, sitesOfTys_temps, Ty.sites]
      rfl
    · rw [sites_applied (by decide), sitesOfTys, sites_apply_temps, sitesOfTys]
      rfl
  unfold combinatorResult
  split
  · simp [truthOfBit, Ty.sites, hcall]
  · exact hcall

theorem sites_bind_operand (isNumeric : Bool) (id : Nat) (operand body : Ty) (r : Reading) :
    (Ty.bind (.temp id) operand (operandBound isNumeric) body).sites r =
      operand.sites r ++ body.sites (r.binding [.temp id]) := by
  cases isNumeric <;> simp [Ty.bind, operandBound, Ty.sites, Ty.inferred, Ty.never]

/-- Binding a value that binds nothing itself, with the value repeated as the bound. -/
theorem reached_bindExactly {value : Ty} (h : value.inferred = []) (name : Name) (body : Ty)
    {r : Reading} {m : Mention} :
    Reached table ((Ty.bindExactly name value body).sites r) m ↔
      Reached table (value.sites r) m ∨ Reached table (body.sites (r.binding [name])) m := by
  simp [Ty.bindExactly, Ty.bind, Ty.sites, Ty.inferred, Ty.never, h]

/-- Operands that are bound to generated names in turn. -/
theorem conveys_bindOperands (isNumeric : Bool) {operands : List (Nat × Ty)} {body : Ty}
    (h : List.Forall₂ (fun e operand => Translates table vars scope e operand.2) es operands)
    (hbody : ∀ r, body.sites r = []) :
    Conveys table vars scope (fun frames => usesOfExprs frames es)
      fun r => (bindOperands (operandBound isNumeric) operands body).sites r := by
  induction h with
  | nil =>
    refine conveys_nil.congr_sites fun r m => ?_
    rw [bindOperands, Ty.sites, hbody]
  | @cons e operand es operands he hes ih =>
    obtain ⟨id, operand⟩ := operand
    refine (he.conveys.append (ih.temp id)).congr ?_ ?_
    · intro frames u
      rw [usesOfExprs]
    · intro r m
      rw [bindOperands, sites_bind_operand]

theorem conveys_bindArgs {args : List (Nat × Ty)} {body : Ty}
    (h : List.Forall₂ (fun e arg => Translates table vars scope e arg.2) es args)
    (hbody : Conveys table vars scope uses fun r => body.sites r) :
    Conveys table vars scope (fun frames => uses frames ++ usesOfExprs frames es)
      fun r => (bindArgs args body).sites r := by
  induction h with
  | nil =>
    refine hbody.congr ?_ fun r m => Iff.rfl
    simp [usesOfExprs]
  | @cons e arg es args he hes ih =>
    obtain ⟨id, arg⟩ := arg
    refine (he.conveys.append (ih.temp id)).congr ?_ ?_
    · intro frames u
      simp only [usesOfExprs, List.mem_append]
      exact or_left_comm
    · intro r m
      rw [bindArgs, reached_bindExactly he.inferred_eq, reached_append]

theorem conveys_combine (c : Combinator) {operands : List Ty}
    (h : List.Forall₂ (Translates table vars scope) es operands) :
    Returns (fun t => Conveys table vars scope (fun frames => usesOfExprs frames es)
      fun r => t.sites r) (combine c operands) := by
  refine (returns_combine c operands).imp ?_
  rintro _ ⟨ids, hids, rfl⟩
  rw [← List.map_snd_zip (Nat.le_of_eq hids.symm), List.forall₂_map_right_iff] at h
  refine (conveys_bindOperands c.isNumeric h (sites_combinatorResult c ids)).congr_sites fun r m => ?_
  rw [Ty.sites]

theorem conveys_binary (op : BinaryOp) {lhs rhs : Expr} {l r : Ty}
    (hl : Translates table vars scope lhs l) (hr : Translates table vars scope rhs r) :
    Returns (fun t => Conveys table vars scope (fun frames => lhs.uses frames ++ rhs.uses frames)
      fun r => t.sites r) (binary op l r) := by
  unfold binary
  split
  · refine returns_pure ((hl.conveys.append hr.conveys).congr_sites fun r m => ?_)
    rw [Ty.sites, Ty.sites]
  · next c _ => simpa [usesOfExprs] using conveys_combine c (.cons hl (.cons hr .nil))

theorem conveys_unary (op : UnaryOp) {operand : Expr} {t : Ty}
    (h : Translates table vars scope operand t) :
    Returns (fun t => Conveys table vars scope (fun frames => operand.uses frames)
      fun r => t.sites r) (unary op t) := by
  unfold unary
  split
  · refine returns_skip fun id => returns_pure ?_
    have hone : List.Forall₂ (fun e op => Translates table vars scope e op.2) [operand] [(id, t)] :=
      .cons h .nil
    refine (conveys_bindOperands true hone (sites_temp · id)).congr ?_ fun r m => ?_
    · simp [usesOfExprs]
    · rw [Ty.sites]
  · next c _ => simpa [usesOfExprs] using conveys_combine c (.cons h .nil)

theorem sites_applyAll_temps (callee : Ty) (ids : List Nat) (r : Reading) :
    (Ty.applied .applyAll [callee, .tuple (ids.map fun id => .name (.temp id))]).sites r =
      callee.sites r := by
  rw [sites_applied (by decide)]
  simp [sitesOfTys, Ty.sites, sitesOfTys_temps]

theorem sites_applyPart_temps (callee : Ty) (ids : List Nat) (r : Reading) :
    (Ty.applied .applyPart [callee, .tuple (ids.map fun id => .name (.temp id))]).sites r =
      callee.sites r := by
  rw [Ty.applied, sites_apply (closure?_call_temps _ callee ids) rfl]
  simp [Ty.ofSymbol, sitesOfTys, Ty.sites, sitesOfTys_temps]

/-- The code of a call conveys the callee and the arguments. -/
theorem conveys_applyCall (arity : Option Nat) {callee : Expr} {t : Ty} {args : List (Nat × Ty)}
    (ht : Translates table vars scope callee t)
    (hargs : List.Forall₂ (fun e arg => Translates table vars scope e arg.2) es args) :
    Returns (fun t => Conveys table vars scope
      (fun frames => callee.uses frames ++ usesOfExprs frames es) fun r => t.sites r)
      (applyCall arity t args) := by
  have hfull := sites_applyAll_temps t (args.map Prod.fst)
  have hpart := sites_applyPart_temps t (args.map Prod.fst)
  simp only [List.map_map, Function.comp_def] at hfull hpart
  unfold applyCall
  split
  · refine returns_pure ((conveys_bindArgs hargs ht.conveys).congr_sites fun r m => ?_)
    rw [Ty.sites]
  · refine (returns_application _ _ _).bind fun body hbody => returns_pure ?_
    have hbody' : Conveys table vars scope (fun frames => callee.uses frames) fun r => body.sites r := by
      refine ht.conveys.congr_sites fun r m => ?_
      rcases hbody with rfl | rfl | rfl
      · rw [hfull]
      · rw [hpart]
      · simp [Ty.sites, Ty.inferred, Ty.never, binding_nil, hfull, hpart]
    refine (conveys_bindArgs hargs hbody').congr_sites fun r m => ?_
    rw [Ty.sites]

end

end TypeForge.Scoping
