import TypeForge.Generate.Expr
import TypeForge.Proofs.Scope
import TypeForge.Proofs.Scoping.Target

/-!
# Scopes and readings

A scope decides what reference a name becomes; a reading decides what the reference stands
for.  The two agree at a place if every name becomes a reference to the binder that the
name stands for in the source.  Every step into the code keeps them in agreement: binding a
generated name, binding a name of the source, entering a lifted lambda and entering the
result of a lifted arm.  Names that are spelled like generated ones are left out, since
nothing protects them.
-/

namespace TypeForge.Scoping

open TypeScript Gen

/-- Spelled like a name that code generation makes up. -/
def IsGenerated (text : String) : Prop :=
  ∃ name : Name, name.source? = none ∧ name.render = text

/-- Every generated name has an underscore in it. -/
theorem IsGenerated.underscore_mem {text : String} (h : IsGenerated text) : '_' ∈ text.toList := by
  obtain ⟨name, hname, rfl⟩ := h
  cases name with
  | user text => cases hname
  | temp id => simp [Name.render]
  | lambda id => simp [Name.render]
  | arm id => simp [Name.render]

/-- Every name becomes a reference to what it stands for, and a name that no declaration
around the place binds is global. -/
structure Agrees (r : Reading) (vars : List String) (scope : Scope) : Prop where
  referent_eq : ∀ name, ¬ IsGenerated name →
    r.referent? (reference vars scope name) = some (referent r.frames name)
  eq_global : ∀ name, ¬ IsGenerated name → name ∉ vars → scope.resolve name = .unbound →
    referent r.frames name = .global name

theorem agrees_outermost : Agrees .outermost [] Scope.empty :=
  ⟨fun _ _ => rfl, fun _ _ _ _ => rfl⟩

section

variable {r : Reading} {vars own : List String} {scope : Scope} {name : String}

/-! ## Looking up names -/

theorem lookup_binders_append_of_notMem {depth : Nat} {names : List Name}
    {rest : List (String × Referent)} (h : ∀ n ∈ names, n.render ≠ name) :
    (Reading.binders depth names ++ rest).lookup name = rest.lookup name := by
  induction names with
  | nil => rfl
  | cons n names ih =>
    have hne : (name == n.render) = false := beq_false_of_ne (h n (by simp)).symm
    rw [Reading.binders, List.map_cons, List.cons_append, List.lookup_cons, hne]
    exact ih fun n' hn' => h n' (List.mem_cons_of_mem _ hn')

/-- Binders of other names change nothing about a reference. -/
theorem referent?_binding_of_notMem {names : List Name} (h : ∀ n ∈ names, n.render ≠ name) :
    (r.binding names).referent? (reference vars scope name) =
      r.referent? (reference vars scope name) := by
  have hname : (r.binding names).referent? (.name (.user name)) =
      r.referent? (.name (.user name)) := by
    simp only [Reading.referent?, Reading.bare, Reading.binding, Name.render]
    rw [lookup_binders_append_of_notMem h]
  unfold reference
  split
  · exact hname
  · split
    · rfl
    · rfl
    · exact hname
    · exact hname

/-- Names of the source are found under their own spelling. -/
theorem lookup_binders_of_mem {depth : Nat} {names : List Name} {bound : List String}
    (hnames : ∀ n, n ∈ names ↔ n ∈ bound.map Name.user) (h : name ∈ bound) :
    (Reading.binders depth names).lookup name = some (.binder depth (.local name)) := by
  have hmem : Name.user name ∈ names := (hnames _).2 (List.mem_map_of_mem h)
  have huser : ∀ n ∈ names, n.source? = some n.render := by
    intro n hn
    obtain ⟨text, -, rfl⟩ := List.mem_map.1 ((hnames n).1 hn)
    rfl
  clear hnames h
  induction names with
  | nil => cases hmem
  | cons n names ih =>
    rw [Reading.binders, List.map_cons, List.lookup_cons, huser n (by simp)]
    by_cases hn : name = n.render
    · simp [hn]
    · have hne : (name == n.render) = false := beq_false_of_ne hn
      rw [hne]
      refine ih ?_ fun n' hn' => huser n' (List.mem_cons_of_mem _ hn')
      rcases List.mem_cons.1 hmem with rfl | hmem
      · exact absurd rfl hn
      · exact hmem

/-! ## References -/

theorem reference_of_mem (h : name ∈ vars) : reference vars scope name = .name (.user name) :=
  if_pos h

theorem reference_of_resolve (h : name ∉ vars) :
    reference vars scope name = match scope.resolve name with
      | .captured slot => .captured slot name
      | .param slot => .param (slot + 1) name
      | .bound | .unbound => .name (.user name) :=
  if_neg h

theorem referent_cons_of_slot {frame : Frame} {frames : List Frame} {slot : Slot}
    (h : frame.slot? name = some slot) :
    referent (frame :: frames) name = .binder frames.length slot := by
  rw [referent, h]

theorem referent_cons_of_none {frame : Frame} {frames : List Frame} (h : frame.slot? name = none) :
    referent (frame :: frames) name = referent frames name := by
  rw [referent, h]

theorem slot?_locals_of_mem {names : List String} (h : name ∈ names) :
    (Frame.locals names).slot? name = some (.local name) := if_pos h

theorem slot?_locals_of_notMem {names : List String} (h : name ∉ names) :
    (Frame.locals names).slot? name = none := if_neg h

theorem slot?_params_of_notMem (h : name ∉ own) : (Frame.params own).slot? name = none := by
  rw [Frame.slot?, Option.map_eq_none_iff, List.findIdx?_eq_none_iff]
  intro other hother
  exact beq_false_of_ne fun heq => h (heq ▸ hother)

theorem slot?_params_of_findIdx? {index : Nat} (h : own.findIdx? (· == name) = some index) :
    (Frame.params own).slot? name = some (.param index) := by
  rw [Frame.slot?, h]
  rfl

/-! ## Steps into the code -/

theorem frames_binding_generated {names : List Name} (hnames : ∀ n ∈ names, n.source? = none) :
    (r.binding names).frames = r.frames :=
  if_pos (List.filterMap_eq_nil_iff.2 hnames)

theorem frames_binding_user (bound : String) :
    (r.binding [.user bound]).frames = .locals [bound] :: r.frames := rfl

theorem frames_enterLambda {captured : List Ty} :
    (r.enterLambda captured own).frames = .params own :: r.frames := rfl

theorem frames_enterArm {captured : List Ty} {bound : List String} {names : List Name} :
    (r.enterArm captured bound names).frames = .locals bound :: r.frames := rfl

/-- Generated names do not get into the way. -/
theorem Agrees.generated (h : Agrees r vars scope) {names : List Name}
    (hnames : ∀ n ∈ names, n.source? = none) : Agrees (r.binding names) vars scope := by
  refine ⟨fun name hname => ?_, fun name hname hvars hresolve => ?_⟩
  · rw [referent?_binding_of_notMem, frames_binding_generated hnames]
    · exact h.referent_eq name hname
    · intro n hn heq
      exact hname ⟨n, hnames n hn, heq⟩
  · rw [frames_binding_generated hnames]
    exact h.eq_global name hname hvars hresolve

/-- A local binder hides whatever had its name. -/
theorem Agrees.local (h : Agrees r vars scope) (bound : String) :
    Agrees (r.binding [.user bound]) vars (scope.bind bound) := by
  refine ⟨fun name hname => ?_, fun name hname hvars hresolve => ?_⟩
  · by_cases hbound : name = bound
    · subst hbound
      have href : reference vars (scope.bind name) name = .name (.user name) := by
        by_cases hvars : name ∈ vars
        · exact reference_of_mem hvars
        · rw [reference_of_resolve hvars, Scope.resolve_bind_self]
      rw [href]
      simp [Reading.referent?, Reading.bare, Reading.binding, Reading.binders, Name.render,
        Name.source?, referent, Frame.slot?]
    · have href : reference vars (scope.bind bound) name = reference vars scope name := by
        rw [reference, Scope.resolve_bind_of_ne hbound, reference]
      rw [href, referent?_binding_of_notMem (by simpa [Name.render] using Ne.symm hbound),
        h.referent_eq name hname, frames_binding_user,
        referent_cons_of_none (slot?_locals_of_notMem (by simpa using hbound))]
  · have hbound : name ≠ bound := by
      rintro rfl
      rw [Scope.resolve_bind_self] at hresolve
      cases hresolve
    rw [Scope.resolve_bind_of_ne hbound] at hresolve
    rw [frames_binding_user, referent_cons_of_none (slot?_locals_of_notMem (by simpa using hbound))]
    exact h.eq_global name hname hvars hresolve

/-- A name that a closure does not capture and that is not its own is global. -/
theorem Agrees.eq_global_of_notMem_captures (h : Agrees r vars scope) (hname : ¬ IsGenerated name)
    (hown : name ∉ own) (hcaptures : name ∉ scope.captures vars own) :
    referent r.frames name = .global name := by
  have hfree : ¬ (name ∈ vars ∨ scope.resolve name ≠ .unbound) := by
    intro hbound
    exact hcaptures (Scope.mem_captures_iff.2 ⟨hown, hbound⟩)
  rw [not_or, Decidable.not_not] at hfree
  exact h.eq_global name hname hfree.1 hfree.2

/-- The entry of the capture tuple that a name is read from holds what the name stands for. -/
theorem Agrees.captured_eq (h : Agrees r vars scope) (hname : ¬ IsGenerated name) {slot : Nat}
    {names : List String} (hslot : names[slot]? = some name) :
    ((names.map (reference vars scope)).map r.referent?)[slot]?.join =
      some (referent r.frames name) := by
  rw [List.map_map, List.getElem?_map, hslot]
  exact h.referent_eq name hname

/-- **Entering a lifted lambda**: captured names are read from the tuple, parameters from the
arguments, and nothing else is bound. -/
theorem Agrees.enterLambda (h : Agrees r vars scope) (own : List String) :
    Agrees (r.enterLambda ((scope.captures vars own).map (reference vars scope)) own) []
      (Scope.closure (scope.captures vars own) own) := by
  refine ⟨fun name hname => ?_, fun name hname _ hresolve => ?_⟩
  · rw [reference_of_resolve (by simp)]
    by_cases hcaptures : name ∈ scope.captures vars own
    · obtain ⟨slot, hresolve, hslot⟩ := Scope.resolve_closure_of_mem hcaptures
      have hown := (Scope.mem_captures_iff.1 hcaptures).1
      rw [hresolve, frames_enterLambda, referent_cons_of_none (slot?_params_of_notMem hown)]
      exact h.captured_eq hname hslot
    · by_cases hown : name ∈ own
      · obtain ⟨index, hlt, hresolve, hindex⟩ := Scope.resolve_closure_of_mem_own hcaptures hown
        rw [hresolve, frames_enterLambda, referent_cons_of_slot (slot?_params_of_findIdx? hindex)]
        simp [Reading.referent?, Reading.enterLambda, hlt]
      · rw [Scope.resolve_closure_eq_unbound_iff.2 ⟨hcaptures, hown⟩, frames_enterLambda,
          referent_cons_of_none (slot?_params_of_notMem hown),
          h.eq_global_of_notMem_captures hname hown hcaptures]
        rfl
  · obtain ⟨hcaptures, hown⟩ := Scope.resolve_closure_eq_unbound_iff.1 hresolve
    rw [frames_enterLambda, referent_cons_of_none (slot?_params_of_notMem hown)]
    exact h.eq_global_of_notMem_captures hname hown hcaptures

/-- **Entering the result of a lifted arm**: the variables of the pattern are bound by the
declaration, and all other names are read from the tuple. -/
theorem Agrees.enterArm (h : Agrees r vars scope) {bound : List String} {names : List Name}
    (hnames : ∀ n, n ∈ names ↔ n ∈ bound.map Name.user) :
    Agrees (r.enterArm ((scope.captures vars []).map (reference vars scope)) bound names) bound
      (Scope.closure (scope.captures vars []) []) := by
  refine ⟨fun name hname => ?_, fun name hname hbound hresolve => ?_⟩
  · by_cases hbound : name ∈ bound
    · rw [reference_of_mem hbound, frames_enterArm, referent_cons_of_slot (slot?_locals_of_mem hbound)]
      simp only [Reading.referent?, Reading.bare, Reading.enterArm, Name.render]
      rw [lookup_binders_of_mem hnames hbound]
      rfl
    · rw [reference_of_resolve hbound, frames_enterArm,
        referent_cons_of_none (slot?_locals_of_notMem hbound)]
      by_cases hcaptures : name ∈ scope.captures vars []
      · obtain ⟨slot, hresolve, hslot⟩ := Scope.resolve_closure_of_mem hcaptures
        rw [hresolve]
        exact h.captured_eq hname hslot
      · have hother : ∀ n ∈ names, n.render ≠ name := by
          intro n hn heq
          obtain ⟨text, htext, rfl⟩ := List.mem_map.1 ((hnames n).1 hn)
          exact hbound (heq ▸ htext)
        rw [Scope.resolve_closure_eq_unbound_iff.2 ⟨hcaptures, by simp⟩,
          h.eq_global_of_notMem_captures hname (by simp) hcaptures]
        simp only [Reading.referent?, Reading.bare, Reading.enterArm, Name.render]
        rw [← List.append_nil (Reading.binders _ names), lookup_binders_append_of_notMem hother]
        rfl
  · obtain ⟨hcaptures, -⟩ := Scope.resolve_closure_eq_unbound_iff.1 hresolve
    rw [frames_enterArm, referent_cons_of_none (slot?_locals_of_notMem hbound)]
    exact h.eq_global_of_notMem_captures hname (by simp) hcaptures

end

end TypeForge.Scoping
