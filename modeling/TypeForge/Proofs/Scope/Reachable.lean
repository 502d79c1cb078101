import TypeForge.Proofs.Scope

/-!
# Scopes that can be reached

A scope starts out empty, gets names bound in it, and is left for the scope of a closure that is
created in it.  Names repeat and shadow each other on the way.  Still a name stands in one part of
a scope only, and each captured name in one slot, so that the index of a slot is where the capture
tuple has the name.

The step is one binder or one closure; a run takes such steps from the empty scope.
-/

namespace TypeForge.Scope

variable {scope : Scope} {name other : String} {names vars own : List String}

/-- The scope of a closure with the parameters `own` that is created in this scope, inside of a
pattern that has bound `vars`. -/
def enter (scope : Scope) (vars own : List String) : Scope :=
  closure (scope.captures vars own) own

/-- The scopes that binding names and entering closures leads to. -/
inductive Reachable : Scope → Prop where
  | empty : Reachable empty
  | bind {scope : Scope} (h : Reachable scope) (name : String) : Reachable (scope.bind name)
  | enter {scope : Scope} (h : Reachable scope) (vars own : List String) :
      Reachable (scope.enter vars own)

/-- Every name stands in at most one part of the scope, and in one slot of the capture tuple. -/
structure Tidy (scope : Scope) : Prop where
  locals_captured : ∀ name ∈ scope.locals, some name ∉ scope.captured
  locals_params : ∀ name ∈ scope.locals, some name ∉ scope.params
  captured_params : ∀ name, some name ∈ scope.captured → some name ∉ scope.params
  captured_once : (scope.captured.filterMap id).Nodup

/-! ## Binding a name -/

/-- Hiding a name leaves the others where they are. -/
theorem some_mem_hide {slots : List (Option String)} :
    some other ∈ hide name slots ↔ other ≠ name ∧ some other ∈ slots := by
  constructor
  · intro hmem
    have hne : other ≠ name := by
      rintro rfl
      exact not_mem_hide slots hmem
    obtain ⟨slot, hslot, heq⟩ := List.mem_map.1 hmem
    by_cases hhidden : slot = some name
    · simp [hhidden] at heq
    · rw [if_neg hhidden] at heq
      exact ⟨hne, heq ▸ hslot⟩
  · rintro ⟨hne, hmem⟩
    refine List.mem_map.2 ⟨some other, hmem, ?_⟩
    rw [if_neg (by simpa using hne)]

/-- The names in the slots are those that were there before, without the hidden one. -/
theorem filterMap_hide (slots : List (Option String)) :
    (hide name slots).filterMap id = (slots.filterMap id).filter (· != name) := by
  induction slots with
  | nil => rfl
  | cons slot slots ih =>
    have htail : (hide name (slot :: slots)) =
        (if slot = some name then none else slot) :: hide name slots := rfl
    rw [htail]
    cases slot with
    | none => simpa using ih
    | some text =>
      by_cases h : text = name
      · simpa [h] using ih
      · simpa [h] using ih

theorem Tidy.bind (h : scope.Tidy) (name : String) : (scope.bind name).Tidy where
  locals_captured other hlocal hcaptured := by
    obtain ⟨hne, hmem⟩ := some_mem_hide.1 hcaptured
    rcases List.mem_append.1 hlocal with hold | hnew
    · exact h.locals_captured other hold hmem
    · exact hne (List.mem_singleton.1 hnew)
  locals_params other hlocal hparam := by
    obtain ⟨hne, hmem⟩ := some_mem_hide.1 hparam
    rcases List.mem_append.1 hlocal with hold | hnew
    · exact h.locals_params other hold hmem
    · exact hne (List.mem_singleton.1 hnew)
  captured_params other hcaptured hparam :=
    h.captured_params other (some_mem_hide.1 hcaptured).2 (some_mem_hide.1 hparam).2
  captured_once := by
    have hnames : (scope.bind name).captured.filterMap id =
        (scope.captured.filterMap id).filter (· != name) := filterMap_hide scope.captured
    rw [hnames]
    exact h.captured_once.filter _

/-! ## Entering a closure -/

theorem nodup_firsts (names : List String) : (firsts names).Nodup := by
  induction names with
  | nil => exact List.nodup_nil
  | cons name names ih =>
    rw [firsts, List.nodup_cons]
    exact ⟨by simp, ih.filter _⟩

theorem nodup_captures (scope : Scope) (vars own : List String) : (scope.captures vars own).Nodup :=
  (nodup_firsts _).filter _

theorem not_mem_captures_of_mem (h : name ∈ own) : name ∉ scope.captures vars own := by
  rw [mem_captures_iff]
  intro hcaptured
  exact hcaptured.1 h

/-- A closure is tidy wherever it is created: it captures no name twice, and none of its
parameters. -/
theorem tidy_enter (scope : Scope) (vars own : List String) : (scope.enter vars own).Tidy where
  locals_captured name hlocal := absurd hlocal List.not_mem_nil
  locals_params name hlocal := absurd hlocal List.not_mem_nil
  captured_params name hcaptured hparam := by
    have hcaptured' : name ∈ scope.captures vars own := by simpa [enter, closure] using hcaptured
    have hparam' : name ∈ own := by simpa [enter, closure] using hparam
    exact not_mem_captures_of_mem hparam' hcaptured'
  captured_once := by
    have hnames : (scope.enter vars own).captured.filterMap id = scope.captures vars own := by
      simp [enter, closure, List.filterMap_map]
    rw [hnames]
    exact nodup_captures scope vars own

/-- A name of a closure is its first parameter of that name, else the entry of the capture tuple
that holds it. -/
theorem resolve_enter (scope : Scope) (vars own : List String) (name : String) :
    (scope.enter vars own).resolve name =
      if name ∈ own then .param (own.idxOf name)
      else if name ∈ scope.captures vars own then .captured ((scope.captures vars own).idxOf name)
      else .unbound := by
  by_cases hown : name ∈ own
  · obtain ⟨index, -, hresolve, hindex⟩ :=
      resolve_closure_of_mem_own (not_mem_captures_of_mem hown) hown
    have hfirst : own.idxOf name = index := (List.findIdx?_eq_some_iff_findIdx_eq.1 hindex).2
    rw [if_pos hown, hfirst]
    exact hresolve
  · rw [if_neg hown]
    by_cases hcaptured : name ∈ scope.captures vars own
    · obtain ⟨slot, hresolve, hslot⟩ : ∃ slot, (scope.enter vars own).resolve name = .captured slot ∧
          (scope.captures vars own)[slot]? = some name := resolve_closure_of_mem hcaptured
      obtain ⟨hlt, heq⟩ := List.getElem?_eq_some_iff.1 hslot
      have hindex : (scope.captures vars own).idxOf name = slot := by
        rw [← heq]
        exact (nodup_captures scope vars own).idxOf_getElem slot hlt
      rw [if_pos hcaptured, hindex]
      exact hresolve
    · rw [if_neg hcaptured]
      exact resolve_closure_eq_unbound_iff.2 ⟨hcaptured, hown⟩

/-! ## Runs -/

theorem Reachable.tidy (h : scope.Reachable) : scope.Tidy := by
  induction h with
  | empty => exact ⟨by simp [Scope.empty], by simp [Scope.empty], by simp [Scope.empty], List.nodup_nil⟩
  | bind _ name ih => exact ih.bind name
  | enter _ vars own _ => exact tidy_enter _ vars own

/-- **The parts of a scope stay apart, and captures line up with their slots.**  In every scope that
binding names and entering closures leads to, a name stands in at most one part, and in at most one
slot of the capture tuple.  A closure that is created there captures each name once; it captures
the pattern variables and what is bound there, its own parameters excepted.  Inside of it a name is
the first parameter of that name, else the entry of the capture tuple that was made for it, else
unbound.  Binding a name makes it local and changes nothing about the others. -/
theorem reachable_scopes_line_up (h : scope.Reachable) :
    scope.Tidy ∧
    (∀ vars own, (scope.captures vars own).Nodup ∧ ∀ name,
      (name ∈ scope.captures vars own ↔
        name ∉ own ∧ (name ∈ vars ∨ scope.resolve name ≠ .unbound)) ∧
      (scope.enter vars own).resolve name =
        if name ∈ own then .param (own.idxOf name)
        else if name ∈ scope.captures vars own then
          .captured ((scope.captures vars own).idxOf name)
        else .unbound) ∧
    ∀ name, (scope.bind name).resolve name = .bound ∧
      ∀ other, other ≠ name → (scope.bind name).resolve other = scope.resolve other := by
  refine ⟨h.tidy, fun vars own => ⟨nodup_captures scope vars own, fun name => ?_⟩, fun name => ?_⟩
  · exact ⟨mem_captures_iff, resolve_enter scope vars own name⟩
  · exact ⟨resolve_bind_self, fun other hne => resolve_bind_of_ne hne⟩

/-- A closure in a block whose let hides a captured name, inside of a pattern that has bound a
name twice. -/
def shadowed : Scope := ((empty.enter ["p", "q", "p"] ["a", "b", "a"]).bind "q").bind "b"

theorem shadowed_lines_up :
    shadowed.Reachable ∧ shadowed.Tidy ∧ shadowed.captures ["p", "a"] ["q"] = ["p", "a", "b"] ∧
      (shadowed.enter ["p", "a"] ["q"]).resolve "b" = .captured 2 ∧
      (shadowed.bind "a").resolve "p" = .captured 0 := by
  have hreachable : shadowed.Reachable := ((Reachable.empty.enter _ _).bind _).bind _
  obtain ⟨htidy, henter, hbind⟩ := reachable_scopes_line_up hreachable
  refine ⟨hreachable, htidy, by decide, ?_, ?_⟩
  · rw [((henter ["p", "a"] ["q"]).2 "b").2]
    decide
  · rw [(hbind "a").2 "p" (by decide)]
    decide

end TypeForge.Scope
