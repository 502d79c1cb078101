import TypeForge.Scope

/-!
# Laws of scopes

What entering a closure and binding a name do to the place a name comes from.  Binding a
name makes it local and leaves all others where they are.  A closure finds a name among its
captures, else among its parameters, and it captures every name that is bound where it is
created, its own parameters excepted.
-/

namespace TypeForge.Scope

variable {scope : Scope} {name other : String} {names captures own vars : List String}

/-! ## Slots -/

theorem slot_eq_none_iff {slots : List (Option String)} :
    slots.findIdx? (· == some name) = none ↔ some name ∉ slots := by
  rw [List.findIdx?_eq_none_iff]
  constructor
  · intro h hmem
    simpa using h _ hmem
  · intro h slot hslot
    rw [beq_eq_false_iff_ne]
    rintro rfl
    exact h hslot

theorem not_mem_hide (slots : List (Option String)) : some name ∉ hide name slots := by
  intro hmem
  obtain ⟨slot, -, heq⟩ := List.mem_map.1 hmem
  split at heq <;> simp_all

/-- Hiding a name moves no other slot. -/
theorem slot_hide_of_ne (h : other ≠ name) (slots : List (Option String)) :
    (hide name slots).findIdx? (· == some other) = slots.findIdx? (· == some other) := by
  rw [hide, List.findIdx?_map]
  congr 1
  funext slot
  by_cases hslot : slot = some name
  · simp [hslot, h.symm]
  · simp [hslot]

theorem slot_map_some : (names.map some).findIdx? (· == some name) = names.findIdx? (· == name) := by
  rw [List.findIdx?_map]
  congr 1

/-! ## Binding a name -/

theorem resolve_bind_self : (scope.bind name).resolve name = .bound := by
  unfold resolve bind
  simp only [slot_eq_none_iff.2 (not_mem_hide _)]
  simp

theorem resolve_bind_of_ne (h : other ≠ name) :
    (scope.bind name).resolve other = scope.resolve other := by
  unfold resolve bind
  simp only [slot_hide_of_ne h]
  simp [h]

/-! ## Captures -/

/-- A name is unbound if no part of the scope has it. -/
theorem resolve_eq_unbound_iff :
    scope.resolve name = .unbound ↔
      name ∉ scope.locals ∧ some name ∉ scope.captured ∧ some name ∉ scope.params := by
  rw [← slot_eq_none_iff, ← slot_eq_none_iff]
  unfold resolve
  cases scope.captured.findIdx? (· == some name) with
  | some slot => simp
  | none =>
    cases scope.params.findIdx? (· == some name) with
    | some slot => simp
    | none => by_cases hlocal : name ∈ scope.locals <;> simp [hlocal]

theorem mem_firsts : name ∈ firsts names ↔ name ∈ names := by
  induction names with
  | nil => simp [firsts]
  | cons first names ih =>
    by_cases h : name = first <;> simp [firsts, h, ih]

/-- A closure captures the names that are bound where it is created, its parameters
excepted. -/
theorem mem_captures_iff :
    name ∈ scope.captures vars own ↔
      name ∉ own ∧ (name ∈ vars ∨ scope.resolve name ≠ .unbound) := by
  have hbound : scope.resolve name ≠ .unbound ↔
      name ∈ scope.locals ∨ some name ∈ scope.captured ∨ some name ∈ scope.params := by
    rw [ne_eq, resolve_eq_unbound_iff]
    by_cases h : name ∈ scope.locals <;> by_cases h' : some name ∈ scope.captured <;>
      simp [h, h']
  rw [hbound]
  simp [captures, mem_firsts, and_comm]

/-! ## Entering a closure -/

theorem resolve_closure_of_mem (h : name ∈ captures) :
    ∃ slot, (closure captures own).resolve name = .captured slot ∧ captures[slot]? = some name := by
  have hsome : captures.findIdx? (· == name) ≠ none := by
    rw [← slot_map_some, ne_eq, slot_eq_none_iff]
    simpa using h
  obtain ⟨slot, hslot⟩ := Option.ne_none_iff_exists'.1 hsome
  refine ⟨slot, ?_, ?_⟩
  · simp only [resolve, closure, slot_map_some, hslot]
  · obtain ⟨hlt, heq, -⟩ := List.findIdx?_eq_some_iff_getElem.1 hslot
    rw [List.getElem?_eq_getElem hlt, beq_iff_eq.1 heq]

theorem resolve_closure_of_mem_own (h : name ∉ captures) (hown : name ∈ own) :
    ∃ index < own.length, (closure captures own).resolve name = .param index ∧
      own.findIdx? (· == name) = some index := by
  have hnone : captures.findIdx? (· == name) = none := by
    rw [← slot_map_some, slot_eq_none_iff]
    simpa using h
  have hsome : own.findIdx? (· == name) ≠ none := by
    rw [← slot_map_some, ne_eq, slot_eq_none_iff]
    simpa using hown
  obtain ⟨index, hindex⟩ := Option.ne_none_iff_exists'.1 hsome
  obtain ⟨hlt, -, -⟩ := List.findIdx?_eq_some_iff_getElem.1 hindex
  refine ⟨index, hlt, ?_, hindex⟩
  simp only [resolve, closure, slot_map_some, hnone, hindex]

theorem resolve_closure_eq_unbound_iff :
    (closure captures own).resolve name = .unbound ↔ name ∉ captures ∧ name ∉ own := by
  rw [resolve_eq_unbound_iff]
  simp [closure]

end TypeForge.Scope
