import TypeForge.Proofs.Scoping.Conveys
import TypeForge.Proofs.Scoping.Meetings

/-!
# References to one name

All references to a name `x` of the source in a piece of code, patterns included, that no binder
of `x` in the code covers; and what they stand for, followed through the declarations that the code
leads to.  Code resolves `x` if all of them stand for what `x` stands for at the place of the code,
and if there is one whenever `x` is met in the source.  The rules below follow the constructs of the
target language.
-/

namespace TypeForge

namespace TypeScript

open Scoping

/-! ## References and closures -/

/-- The reading of the declaration of an arm in front of its pattern. -/
def Reading.enterPattern (r : Reading) (captured : List Ty) : Reading :=
  ⟨r.frames, [], captured.map r.referent?, []⟩

/-- A place of interest in a piece of code, with its reading. -/
inductive Spot where
  | reference (reading : Reading) (t : Ty)
  /-- A lifted function, partially applied to a tuple of captured values. -/
  | closure (reading : Reading) (name : Name) (captured : List Ty)

/-- What is seen of `x` behind binders of the given names. -/
def uncovered (x : String) (names : List Name) (spots : List Spot) : List Spot :=
  if x ∈ names.map Name.render then [] else spots

mutual

/-- The references to `x` and the closures in a piece of code, behind no binder of `x` in it. -/
@[simp] def Ty.spots (x : String) (r : Reading) : Ty → List Spot
  | .name (.user text) => if text = x then [.reference r (.name (.user text))] else []
  | .param number origin => if origin = x then [.reference r (.param number origin)] else []
  | .captured slot origin => if origin = x then [.reference r (.captured slot origin)] else []
  | .apply head args =>
    match closure? head args with
    | some (name, captured) => [.closure r name captured]
    | none => head.spots x r ++ spotsOfTys x r args
  | .paren inner => inner.spots x r
  | .operation _ lhs rhs => lhs.spots x r ++ rhs.spots x r
  | .index object key => object.spots x r ++ key.spots x r
  | .conditional check pattern yes no =>
    check.spots x r ++ (pattern.spots x r ++
      (uncovered x pattern.inferred (yes.spots x (r.binding pattern.inferred)) ++ no.spots x r))
  | .infer _ none => []
  | .infer _ (some bound) => bound.spots x r
  | .tuple elements => spotsOfTys x r elements
  | .object fields => spotsOfFields x r fields
  | .mapped key union none _ value =>
    union.spots x r ++ uncovered x [.user key] (value.spots x (r.binding [.user key]))
  | .mapped key union (some renamed) _ value =>
    union.spots x r ++ (uncovered x [.user key] (renamed.spots x (r.binding [.user key])) ++
      uncovered x [.user key] (value.spots x (r.binding [.user key])))
  | .template parts => spotsOfPieces x r parts
  | .name _ | .symbol .. | .arg _ | .number _ | .string _ | .keyword _ => []

/-- The spots in a list of types. -/
@[simp] def spotsOfTys (x : String) (r : Reading) : List Ty → List Spot
  | [] => []
  | t :: ts => t.spots x r ++ spotsOfTys x r ts

/-- The spots in the fields of an object type. -/
@[simp] def spotsOfFields (x : String) (r : Reading) : List Field → List Spot
  | [] => []
  | .named _ _ value :: fs => value.spots x r ++ spotsOfFields x r fs
  | .computed key _ value :: fs => key.spots x r ++ (value.spots x r ++ spotsOfFields x r fs)

/-- The spots in the pieces of a template literal type. -/
@[simp] def spotsOfPieces (x : String) (r : Reading) : List Piece → List Spot
  | [] => []
  | .text _ :: ps => spotsOfPieces x r ps
  | .ty value :: ps => value.spots x r ++ spotsOfPieces x r ps

end

/-! ## Across declarations -/

/-- What a reference stands for, at a spot or in the declaration of the closure that is made there. -/
inductive Spot.Leads (table : List Lifted) (x : String) : Spot → Option Referent → Prop where
  | reference (r : Reading) (t : Ty) : Leads table x (.reference r t) (r.referent? t)
  | lambda {r : Reading} {id : Nat} {captured : List Ty} {f : Lifted} {spot : Spot}
      {o : Option Referent} (mem : f ∈ table) (name : f.name = .lambda id) (notMem : x ∉ f.binds)
      (spot_mem : spot ∈ f.body.spots x (r.enterLambda captured f.binds))
      (leads : Leads table x spot o) : Leads table x (.closure r (.lambda id) captured) o
  | arm {r : Reading} {id : Nat} {captured : List Ty} {f : Lifted} {spot : Spot}
      {o : Option Referent} (mem : f ∈ table) (name : f.name = .arm id)
      (spot_mem : spot ∈ f.body.spots x (r.enterPattern captured))
      (leads : Leads table x spot o) : Leads table x (.closure r (.arm id) captured) o

/-- What the references to `x` stand for, at some spots or in declarations that they lead to. -/
def Denote (table : List Lifted) (x : String) (spots : List Spot) (o : Option Referent) : Prop :=
  ∃ spot ∈ spots, spot.Leads table x o

section

variable {table : List Lifted} {x : String} {o : Option Referent} {spots more : List Spot}

@[simp] theorem denote_nil : ¬ Denote table x [] o := by simp [Denote]

@[simp] theorem denote_append :
    Denote table x (spots ++ more) o ↔ Denote table x spots o ∨ Denote table x more o := by
  simp only [Denote, List.mem_append, or_and_right, exists_or]

@[simp] theorem denote_reference {r : Reading} {t : Ty} :
    Denote table x [.reference r t] o ↔ o = r.referent? t := by
  constructor
  · rintro ⟨spot, hspot, hleads⟩
    cases List.mem_singleton.1 hspot
    cases hleads
    rfl
  · rintro rfl
    exact ⟨_, List.mem_singleton_self _, .reference r t⟩

/-- The closure of a lambda leads to its declaration. -/
theorem denote_lambda (htable : Distinct table) {f : Lifted} (hf : f ∈ table) {id : Nat}
    (hname : f.name = .lambda id) {r : Reading} {captured : List Ty} :
    Denote table x [.closure r (.lambda id) captured] o ↔
      x ∉ f.binds ∧ Denote table x (f.body.spots x (r.enterLambda captured f.binds)) o := by
  constructor
  · rintro ⟨spot, hspot, hleads⟩
    cases List.mem_singleton.1 hspot
    cases hleads with
    | lambda mem name notMem spot_mem leads =>
      cases htable _ mem f hf (name.trans hname.symm)
      exact ⟨notMem, _, spot_mem, leads⟩
  · rintro ⟨hx, spot, hspot, hleads⟩
    exact ⟨_, List.mem_singleton_self _, .lambda hf hname hx hspot hleads⟩

/-- The closure of an arm leads to its declaration. -/
theorem denote_arm (htable : Distinct table) {f : Lifted} (hf : f ∈ table) {id : Nat}
    (hname : f.name = .arm id) {r : Reading} {captured : List Ty} :
    Denote table x [.closure r (.arm id) captured] o ↔
      Denote table x (f.body.spots x (r.enterPattern captured)) o := by
  constructor
  · rintro ⟨spot, hspot, hleads⟩
    cases List.mem_singleton.1 hspot
    cases hleads with
    | arm mem name spot_mem leads =>
      cases htable _ mem f hf (name.trans hname.symm)
      exact ⟨_, spot_mem, leads⟩
  · rintro ⟨spot, hspot, hleads⟩
    exact ⟨_, List.mem_singleton_self _, .arm hf hname hspot hleads⟩

end

end TypeScript

namespace Scoping

open TypeScript Gen

/-! ## What a name stands for -/

/-- In the reading `r`, the name `x` becomes a reference that stands for `ρ` at a place with the given
scope and pattern variables; and if nothing binds `x` there, it is global. -/
structure Sees (r : Reading) (vars : List String) (scope : Scope) (x : String) (ρ : Referent) :
    Prop where
  referent_eq : r.referent? (reference vars scope x) = some ρ
  eq_global : x ∉ vars → scope.resolve x = .unbound → ρ = .global x

section

variable {r : Reading} {vars vars' own : List String} {scope : Scope} {x : String} {ρ : Referent}

theorem Agrees.sees (h : Agrees r vars scope) (hx : ¬ IsGenerated x) :
    Sees r vars scope x (referent r.frames x) :=
  ⟨h.referent_eq x hx, h.eq_global x hx⟩

/-- Only the membership of the name among the pattern variables matters. -/
theorem reference_congr (h : x ∈ vars ↔ x ∈ vars') :
    reference vars scope x = reference vars' scope x := by
  simp only [reference, h]

theorem Sees.congr (hsees : Sees r vars scope x ρ) (h : x ∈ vars ↔ x ∈ vars') :
    Sees r vars' scope x ρ :=
  ⟨reference_congr h ▸ hsees.referent_eq, fun hx => hsees.eq_global (mt h.1 hx)⟩

theorem reference_bind_of_ne {name : String} (h : x ≠ name) :
    reference vars (scope.bind name) x = reference vars scope x := by
  rw [reference, Scope.resolve_bind_of_ne h, reference]

/-- A local binder of another name does not matter. -/
theorem Sees.bind (hsees : Sees r vars scope x ρ) {name : String} (h : x ≠ name) :
    Sees r vars (scope.bind name) x ρ := by
  refine ⟨?_, ?_⟩
  · rw [reference_bind_of_ne h]
    exact hsees.referent_eq
  · rw [Scope.resolve_bind_of_ne h]
    exact hsees.eq_global

/-- Nor do binders of other names in the code. -/
theorem Sees.binding (hsees : Sees r vars scope x ρ) {names : List Name}
    (h : x ∉ names.map Name.render) :
    Sees (r.binding names) vars scope x ρ := by
  refine ⟨?_, hsees.eq_global⟩
  rw [referent?_binding_of_notMem]
  · exact hsees.referent_eq
  · exact fun n hn heq => h (List.mem_map.2 ⟨n, hn, heq⟩)

/-- **Entering a lifted function**: a captured name is read from the tuple, and what is not captured
is global. -/
theorem Sees.enter (hsees : Sees r vars scope x ρ) (hown : x ∉ own) {inner : Reading}
    (htuple : inner.tuple = ((scope.captures vars own).map (reference vars scope)).map r.referent?)
    (hnames : inner.names = []) : Sees inner [] (.closure (scope.captures vars own) own) x ρ := by
  have hfree (hcaptures : x ∉ scope.captures vars own) : ρ = .global x := by
    rw [Scope.mem_captures_iff, not_and, not_or, Decidable.not_not] at hcaptures
    obtain ⟨hvars, hresolve⟩ := hcaptures hown
    exact hsees.eq_global hvars hresolve
  refine ⟨?_, fun _ hresolve => hfree (Scope.resolve_closure_eq_unbound_iff.1 hresolve).1⟩
  rw [reference_of_resolve (by simp)]
  by_cases hcaptures : x ∈ scope.captures vars own
  · obtain ⟨slot, hresolve, hslot⟩ := Scope.resolve_closure_of_mem hcaptures
    rw [hresolve]
    simp only [Reading.referent?]
    rw [htuple, List.map_map, List.getElem?_map, hslot]
    exact hsees.referent_eq
  · rw [Scope.resolve_closure_eq_unbound_iff.2 ⟨hcaptures, hown⟩, hfree hcaptures]
    simp [Reading.referent?, Reading.bare, hnames, Name.render]

end

/-! ## Code that resolves a name -/

/-- The references to `x` at the spots are what `x` becomes there; they, and those in the declarations
that the spots lead to, stand for what `x` stands for, and there is one exactly if `x` is met. -/
structure Resolves (table : List Lifted) (x : String) (vars : List String) (scope : Scope)
    (met : List Meeting)
    (spots : Reading → List Spot) : Prop where
  written : ∀ r place t, .reference place t ∈ spots r → t = reference vars scope x
  denotes : ∀ ⦃r : Reading⦄ ⦃ρ : Referent⦄, (Meets x met → Sees r vars scope x ρ) →
    ∀ o, Denote table x (spots r) o ↔ Meets x met ∧ o = some ρ

section

variable {table : List Lifted} {x : String} {vars vars' own : List String} {scope : Scope}
  {met more : List Meeting} {spots spots' : Reading → List Spot}

theorem resolves_nil : Resolves table x vars scope [] fun _ => [] where
  written r place t h := by cases h
  denotes r ρ _ o := by simp

theorem Resolves.append (h : Resolves table x vars scope met spots)
    (h' : Resolves table x vars scope more spots') :
    Resolves table x vars scope (met ++ more) fun r => spots r ++ spots' r where
  written r place t hmem :=
    (List.mem_append.1 hmem).elim (h.written r place t) (h'.written r place t)
  denotes r ρ hsees o := by
    rw [meets_append] at hsees
    rw [denote_append, h.denotes (fun hmeets => hsees (.inl hmeets)) o,
      h'.denotes (fun hmeets => hsees (.inr hmeets)) o, meets_append, or_and_right]

/-- The order of the spots does not matter, nor does repetition. -/
theorem Resolves.congr (h : Resolves table x vars scope met spots)
    (hspots : ∀ r spot, spot ∈ spots' r ↔ spot ∈ spots r) :
    Resolves table x vars scope met spots' where
  written r place t hmem := h.written r place t ((hspots r _).1 hmem)
  denotes r ρ hsees o := by
    rw [← h.denotes hsees o]
    simp only [Denote, hspots]

/-- What is met in another order. -/
theorem Resolves.congr_met (h : Resolves table x vars scope met spots)
    (hmet : Meets x more ↔ Meets x met) :
    Resolves table x vars scope more spots where
  written := h.written
  denotes r ρ hsees o := by
    rw [hmet] at hsees ⊢
    exact h.denotes hsees o

/-- A name that is not met has no references, wherever the code stands. -/
theorem Resolves.of_not_meets (h : Resolves table x vars scope met spots) (hmet : ¬ Meets x met)
    (vars' : List String)
    (scope' : Scope) : Resolves table x vars' scope' met spots where
  written r place t hmem := by
    have hdenote : Denote table x (spots r) (place.referent? t) := ⟨_, hmem, .reference place t⟩
    rw [h.denotes (fun hmeets => absurd hmeets hmet) (ρ := .generated)] at hdenote
    exact absurd hdenote.1 hmet
  denotes r ρ _ o := h.denotes (fun hmeets => absurd hmeets hmet) o

theorem Resolves.congr_vars (h : Resolves table x vars scope met spots)
    (hvars : Meets x met → (x ∈ vars ↔ x ∈ vars')) : Resolves table x vars' scope met spots := by
  by_cases hmet : Meets x met
  · refine ⟨fun r place t hmem => ?_, fun r ρ hsees o => ?_⟩
    · rw [h.written r place t hmem, reference_congr (hvars hmet)]
    · exact h.denotes (fun hmeets => (hsees hmeets).congr (hvars hmet).symm) o
  · exact h.of_not_meets hmet vars' scope

/-! ## Binders -/

theorem resolves_uncovered_of_mem {names : List Name} (hx : x ∈ names.map Name.render)
    (hmet : ¬ Meets x met) :
    Resolves table x vars scope met fun r => uncovered x names (spots r) where
  written r place t hmem := by simp [uncovered, hx] at hmem
  denotes r ρ _ o := by simp [uncovered, hx, hmet]

/-- Code behind binders that leave the name alone, or cover it where it is not met. -/
theorem Resolves.behind (h : Resolves table x vars scope met spots) {names : List Name}
    (hnames : x ∈ names.map Name.render → ¬ Meets x met) :
    Resolves table x vars scope met fun r => uncovered x names (spots (r.binding names)) := by
  by_cases hx : x ∈ names.map Name.render
  · exact resolves_uncovered_of_mem hx (hnames hx)
  · simp only [uncovered, if_neg hx]
    refine ⟨fun r place t hmem => h.written _ place t hmem, fun r ρ hsees o => ?_⟩
    exact h.denotes (fun hmeets => (hsees hmeets).binding hx) o

/-- Code behind binders of the source.  The code may bind more than they do. -/
theorem Resolves.covered {names : List Name} {bound : List String}
    (h : x ∉ bound → Resolves table x vars scope met spots)
    (hbound : x ∈ bound → x ∈ names.map Name.render)
    (hnames : x ∉ bound → x ∈ names.map Name.render → ¬ Meets x met) :
    Resolves table x vars scope (without bound met) fun r =>
      uncovered x names (spots (r.binding names)) := by
  by_cases hx : x ∈ bound
  · exact resolves_uncovered_of_mem (hbound hx) (by simp [hx])
  · exact ((h hx).behind (hnames hx)).congr_met (by simp [hx])

theorem Resolves.of_bind {name : String} (h : Resolves table x vars (scope.bind name) met spots)
    (hx : x ∉ [name]) : Resolves table x vars scope met spots where
  written r place t hmem := by
    rw [h.written r place t hmem, reference_bind_of_ne (List.ne_of_not_mem_cons hx)]
  denotes r ρ hsees o :=
    h.denotes (fun hmeets => (hsees hmeets).bind (List.ne_of_not_mem_cons hx)) o

/-- Code behind the binder of a mapped type. -/
theorem Resolves.local {name : String}
    (h : x ∉ [name] → Resolves table x vars (scope.bind name) met spots) :
    Resolves table x vars scope (without [name] met) fun r =>
      uncovered x [.user name] (spots (r.binding [.user name])) :=
  .covered (fun hx => (h hx).of_bind hx) (by simp [Name.render])
    (by simp +contextual [Name.render])

/-- Code behind a binder of a generated name. -/
theorem Resolves.temp (h : Resolves table x vars scope met spots) (hx : ¬ IsGenerated x)
    (id : Nat) :
    Resolves table x vars scope met fun r =>
      uncovered x [.temp id] (spots (r.binding [.temp id])) := by
  refine h.behind fun hmem => ?_
  exact absurd ⟨.temp id, rfl, (by simpa using hmem : x = (Name.temp id).render).symm⟩ hx

/-! ## Closures -/

/-- The closure of a lambda resolves what the declaration resolves. -/
theorem resolves_lambda (htable : Distinct table) {f : Lifted} (hf : f ∈ table) {id : Nat}
    (hname : f.name = .lambda id)
    (h : x ∉ f.binds → Resolves table x [] (.closure (scope.captures vars f.binds) f.binds) met
      (f.body.spots x)) :
    Resolves table x vars scope (without f.binds met) fun r =>
      [.closure r (.lambda id) ((scope.captures vars f.binds).map (reference vars scope))] where
  written r place t hmem := by cases List.mem_singleton.1 hmem
  denotes r ρ hsees o := by
    rw [meets_without] at hsees
    rw [denote_lambda htable hf hname, meets_without, and_assoc]
    refine and_congr_right fun hown => (h hown).denotes (fun hmeets => ?_) o
    exact (hsees ⟨hown, hmeets⟩).enter hown rfl rfl

/-- So does the closure of an arm. -/
theorem resolves_arm (htable : Distinct table) {f : Lifted} (hf : f ∈ table) {id : Nat}
    (hname : f.name = .arm id)
    (h : Resolves table x [] (.closure (scope.captures vars []) []) met (f.body.spots x)) :
    Resolves table x vars scope met fun r =>
      [.closure r (.arm id) ((scope.captures vars []).map (reference vars scope))] where
  written r place t hmem := by cases List.mem_singleton.1 hmem
  denotes r ρ hsees o := by
    rw [denote_arm htable hf hname]
    exact h.denotes (fun hmeets => (hsees hmeets).enter List.not_mem_nil rfl rfl) o

theorem spots_closure {name : Name} (h : name.isLifted) (r : Reading) (captured : List Ty) :
    (Ty.closure name captured).spots x r = [.closure r name captured] := by
  rw [Ty.closure, Ty.applied, Ty.ofSymbol, Ty.spots, closure?, if_pos ⟨rfl, h⟩]

/-! ## References -/

/-- **A reference stands for what its name stands for.** -/
theorem resolves_reference (name : String) :
    Resolves table x vars scope [.name name false] ((reference vars scope name).spots x) := by
  have hspots (r : Reading) : (reference vars scope name).spots x r =
      if name = x then [.reference r (reference vars scope name)] else [] := by
    unfold reference
    split
    · rw [Ty.spots]
    · split <;> rw [Ty.spots]
  by_cases hx : name = x
  · subst hx
    refine ⟨fun r place t hmem => ?_, fun r ρ hsees o => ?_⟩
    · rw [hspots, if_pos rfl] at hmem
      cases List.mem_singleton.1 hmem
      rfl
    · have hmeets : Meets name [.name name false] := ⟨false, List.mem_singleton_self _⟩
      rw [hspots, if_pos rfl, denote_reference, (hsees hmeets).referent_eq, and_iff_right hmeets]
  · have hmeets : ¬ Meets x [.name name false] := by simp [Meets, Ne.symm hx]
    refine (resolves_nil.congr_met (iff_of_false hmeets meets_nil)).congr fun r spot => ?_
    rw [hspots, if_neg hx]

/-! ## Operators and calls -/

theorem spots_apply {head : Ty} {args : List Ty} (h : closure? head args = none) (r : Reading) :
    (Ty.apply head args).spots x r = head.spots x r ++ spotsOfTys x r args := by
  rw [Ty.spots, h]

theorem spots_applied {symbol : Symbol} (h : symbol ≠ .applyPart) (r : Reading) (args : List Ty) :
    (Ty.applied symbol args).spots x r = spotsOfTys x r args := by
  rw [Ty.applied, Ty.ofSymbol, spots_apply (closure?_of_ne h args), Ty.spots]
  rfl

theorem spotsOfTys_map_eq_nil {α : Type} {f : α → Ty} {r : Reading} (h : ∀ a, (f a).spots x r = [])
    (as : List α) : spotsOfTys x r (as.map f) = [] := by
  induction as with
  | nil => rfl
  | cons a as ih => rw [List.map_cons, spotsOfTys, h, ih, List.append_nil]

theorem spotsOfTys_temps (r : Reading) (ids : List Nat) :
    spotsOfTys x r (ids.map fun id => .name (.temp id)) = [] :=
  spotsOfTys_map_eq_nil (fun _ => by rw [Ty.spots]; simp) ids

theorem spots_apply_temps (symbol : Symbol) (member : Option String) (ids : List Nat)
    (r : Reading) :
    (Ty.apply (.symbol symbol member) (ids.map fun id => .name (.temp id))).spots x r = [] := by
  rw [spots_apply (closure?_temps _ ids), spotsOfTys_temps, Ty.spots]
  rfl

theorem spots_combinatorResult (c : Combinator) (ids : List Nat) (r : Reading) :
    (combinatorResult c ids).spots x r = [] := by
  have hcall : (combinatorCall c (ids.map fun id => .name (.temp id))).spots x r = [] := by
    unfold combinatorCall
    split
    · exact spots_apply_temps _ _ _ _
    · rw [spots_applied (by decide), spotsOfTys, spotsOfTys_temps, Ty.spots]
      rfl
    · rw [spots_applied (by decide), spotsOfTys, spots_apply_temps, spotsOfTys]
      rfl
  unfold combinatorResult
  split
  · simp [truthOfBit, uncovered, hcall]
  · exact hcall

theorem spots_bind_operand (isNumeric : Bool) (id : Nat) (operand body : Ty) (r : Reading) :
    (Ty.bind (.temp id) operand (operandBound isNumeric) body).spots x r =
      operand.spots x r ++ uncovered x [.temp id] (body.spots x (r.binding [.temp id])) := by
  cases isNumeric <;> simp [Ty.bind, operandBound, Ty.never]

/-- Operands that are bound to generated names in turn. -/
theorem resolves_bindOperands (hx : ¬ IsGenerated x) (isNumeric : Bool) {mets : List (List Meeting)}
    {operands : List (Nat × Ty)} {body : Ty}
    (h : List.Forall₂ (fun met operand => Resolves table x vars scope met (operand.2.spots x)) mets
      operands) (hbody : ∀ r, body.spots x r = []) :
    Resolves table x vars scope mets.flatten
      ((bindOperands (operandBound isNumeric) operands body).spots x) := by
  induction h with
  | nil =>
    refine resolves_nil.congr fun r spot => ?_
    rw [bindOperands, Ty.spots, hbody]
  | @cons met operand mets operands hfirst hrest ih =>
    obtain ⟨id, operand⟩ := operand
    refine (hfirst.append (ih.temp hx id)).congr fun r spot => ?_
    rw [bindOperands, spots_bind_operand]

theorem resolves_combine (hx : ¬ IsGenerated x) (c : Combinator) {mets : List (List Meeting)}
    {operands : List Ty}
    (h : List.Forall₂ (fun met operand => Resolves table x vars scope met (operand.spots x)) mets
      operands) :
    Returns (fun t => Resolves table x vars scope mets.flatten (t.spots x))
      (combine c operands) := by
  refine (returns_combine c operands).imp ?_
  rintro _ ⟨ids, hids, rfl⟩
  rw [← List.map_snd_zip (Nat.le_of_eq hids.symm), List.forall₂_map_right_iff] at h
  have hresult := spots_combinatorResult (x := x) c ids
  refine (resolves_bindOperands hx c.isNumeric h hresult).congr fun r spot => ?_
  rw [Ty.spots]

theorem resolves_combine_pair (hx : ¬ IsGenerated x) (c : Combinator) {l r : Ty}
    (hl : Resolves table x vars scope met (l.spots x))
    (hr : Resolves table x vars scope more (r.spots x)) :
    Returns (fun t => Resolves table x vars scope (met ++ more) (t.spots x))
      (combine c [l, r]) := by
  simpa using resolves_combine hx c (.cons hl (.cons hr .nil))

theorem resolves_binary (hx : ¬ IsGenerated x) (op : BinaryOp) {l r : Ty}
    (hl : Resolves table x vars scope met (l.spots x))
    (hr : Resolves table x vars scope more (r.spots x)) :
    Returns (fun t => Resolves table x vars scope (met ++ more) (t.spots x)) (binary op l r) := by
  unfold binary
  split
  · refine returns_pure ((hl.append hr).congr fun r spot => ?_)
    rw [Ty.spots, Ty.spots]
  · exact resolves_combine_pair hx _ hl hr

theorem resolves_unary (hx : ¬ IsGenerated x) (op : UnaryOp) {t : Ty}
    (h : Resolves table x vars scope met (t.spots x)) :
    Returns (fun t => Resolves table x vars scope met (t.spots x)) (unary op t) := by
  unfold unary
  split
  · refine returns_skip fun id => returns_pure ?_
    refine (h.append ((resolves_nil.temp hx id))).congr_met (by simp) |>.congr fun r spot => ?_
    rw [Ty.spots, bindOperands, spots_bind_operand, bindOperands]
    simp
  · simpa using resolves_combine hx _ (.cons h .nil)

/-- Binding a value, with the value repeated as the bound: what the value binds covers the body. -/
theorem mem_spots_bindExactly {name : Name} {value body : Ty} {r : Reading} {spot : Spot} :
    spot ∈ (Ty.bindExactly name value body).spots x r ↔
      spot ∈ value.spots x r ++ uncovered x (value.inferred ++ [name])
        (body.spots x (r.binding (value.inferred ++ [name]))) := by
  simp [Ty.bindExactly, Ty.bind, Ty.never]

/-- An argument that is bound to a generated name around a body. -/
theorem Resolves.bindExactly (hx : ¬ IsGenerated x) (id : Nat) {value body : Ty}
    (hvalue : Resolves table x vars scope met (value.spots x))
    (hbody : Resolves table x vars scope more (body.spots x))
    (hnames : x ∈ value.inferred.map Name.render → ¬ Meets x more) :
    Resolves table x vars scope (met ++ more) ((Ty.bindExactly (.temp id) value body).spots x) := by
  refine (hvalue.append (hbody.behind fun hmem => ?_)).congr fun r spot => mem_spots_bindExactly
  rw [List.map_append, List.mem_append] at hmem
  refine hmem.elim hnames fun hid => ?_
  exact absurd ⟨.temp id, rfl, (by simpa using hid : x = (Name.temp id).render).symm⟩ hx

/-- A let around a body. -/
theorem Resolves.letIn {name : String} {value body : Ty}
    (hvalue : Resolves table x vars scope met (value.spots x))
    (hbody : x ∉ [name] → Resolves table x vars (scope.bind name) more (body.spots x))
    (hnames : x ∈ value.inferred.map Name.render → ¬ Meets x (without [name] more)) :
    Resolves table x vars scope (met ++ without [name] more)
      ((Ty.bindExactly (.user name) value body).spots x) := by
  have hopen : x ∉ [name] → Resolves table x vars scope more (body.spots x) :=
    fun hx => (hbody hx).of_bind hx
  have hbound : x ∈ [name] → x ∈ (value.inferred ++ [Name.user name]).map Name.render := by
    simp +contextual [Name.render]
  refine (hvalue.append (Resolves.covered hopen hbound fun hx hmem => ?_)).congr
    fun r spot => mem_spots_bindExactly
  rw [List.map_append, List.mem_append] at hmem
  have hinferred := hmem.resolve_right (by simpa [Name.render] using hx)
  exact fun hmeets => hnames hinferred (meets_without.2 ⟨hx, hmeets⟩)

/-- The application of a callee refers to what the callee refers to. -/
theorem mem_spots_application (arity : Option Nat) (callee : Ty) (ids : List Nat) :
    Returns (fun t => ∀ r spot, spot ∈ t.spots x r ↔ spot ∈ callee.spots x r)
      (application arity callee (ids.map fun id => .name (.temp id))) := by
  have hfull (r : Reading) : (Ty.applied .applyAll
      [callee, .tuple (ids.map fun id => .name (.temp id))]).spots x r = callee.spots x r := by
    rw [spots_applied (by decide)]
    simp [spotsOfTys_temps]
  have hpart (r : Reading) : (Ty.applied .applyPart
      [callee, .tuple (ids.map fun id => .name (.temp id))]).spots x r = callee.spots x r := by
    rw [Ty.applied, spots_apply (closure?_call_temps _ callee ids)]
    simp [Ty.ofSymbol, spotsOfTys_temps]
  refine (returns_application _ _ _).imp fun t ht r spot => ?_
  rcases ht with rfl | rfl | rfl
  · rw [hfull]
  · rw [hpart]
  · simp [Ty.never, uncovered, binding_nil, hfull, hpart]

/-- The code of a call, given what binding its arguments does. -/
theorem resolves_applyCall (arity : Option Nat) {callee : Ty} {args : List (Nat × Ty)}
    (hcallee : Resolves table x vars scope met (callee.spots x))
    (hargs : ∀ body : Ty, Resolves table x vars scope met (body.spots x) →
      Resolves table x vars scope more ((bindArgs args body).spots x)) :
    Returns (fun t => Resolves table x vars scope more (t.spots x))
      (applyCall arity callee args) := by
  unfold applyCall
  split
  · refine returns_pure ((hargs callee hcallee).congr fun r spot => ?_)
    rw [Ty.spots]
  · have happlication := mem_spots_application (x := x) arity callee (args.map Prod.fst)
    rw [List.map_map] at happlication
    refine Returns.bind happlication fun body hbody => returns_pure ?_
    refine (hargs body (hcallee.congr hbody)).congr fun r spot => ?_
    rw [Ty.spots]

/-- An arm refers to what its pattern refers to where the match stands, and to its closure. -/
theorem spots_arm (member : String) (pattern t : Ty) (r : Reading) :
    (Ty.apply (.symbol .matching (some member)) [pattern, t]).spots x r =
      pattern.spots x r ++ t.spots x r := by
  rw [spots_apply]
  · simp
  · simp [closure?]

end

end Scoping

end TypeForge
