import Mathlib.Data.List.Pairwise
import Mathlib.Tactic.ByContra
import TypeForge.Proofs.Hygiene.Accounting
import TypeForge.Proofs.Output.Text
import TypeForge.Proofs.Scoping.Conversion

/-!
# Fresh names

The ids of a run are handed out one after the other.  Each of them serves one purpose in the code
of the program: it is bound to one value, it names one declaration of a section, or it is the
number of one lifted function.  So a reference to a generated name means the one value that the
name was made for, even where code is repeated.
-/

namespace TypeForge

open TypeScript

namespace TypeScript

/-! ## What ids are used for -/

/-- The named types of a declaration. -/
def Declaration.aliases : Declaration → List Alias
  | .named _ type => [type]
  | .group _ body => body
  | .importOf .. => []

/-- The ids that name types. -/
def aliasIds (types : List Alias) : List Nat := tempIds (types.map Alias.name)

/-- The ids around the types of a declaration: the names of a section are bound in all of it. -/
def Declaration.around : Declaration → List Nat
  | .group _ body => aliasIds body
  | _ => []

/-- The generated names for values in a declaration. -/
def Declaration.temps (d : Declaration) : List Temp :=
  d.aliases.flatMap fun type => type.value.temps d.around

namespace Module

/-- The named types of a program. -/
def aliases (m : Module) : List Alias := m.items.flatMap Declaration.aliases

/-- The generated names for values in the code of a program. -/
def temps (m : Module) : List Temp :=
  m.lifted.flatMap (fun f => f.body.temps []) ++ m.items.flatMap Declaration.temps

end Module

end TypeScript

/-- While the code of the program is generated, ids are handed out, one after the other. -/
def Program.HandsOut (program : Program) (ids : List Nat) : Prop :=
  ∃ items s, Gen.Hands (Gen.topLevels program.context program.body) .initial items s ids

/-- It is determined which ids are handed out. -/
theorem Program.HandsOut.unique {program : Program} {ids more : List Nat} (h : program.HandsOut ids)
    (h' : program.HandsOut more) : ids = more := by
  obtain ⟨items, s, hhands⟩ := h
  obtain ⟨items', s', hhands'⟩ := h'
  obtain ⟨hids, hnext⟩ := hhands.eq_range
  obtain ⟨hmore, hnext'⟩ := hhands'.eq_range
  obtain ⟨-, rfl⟩ := Prod.mk.inj (hhands.yields.symm.trans hhands'.yields)
  have hlength : ids.length = more.length := by omega
  rw [hids, hmore, hlength]

/-! ## Programs keep the ledger -/

namespace Gen

end Gen

namespace TypeScript

namespace Module

variable {m : Module} {s : GenState} {x : Temp}

variable (hlifted : m.lifted = s.lifted)

include hlifted

variable (hs : s.Ledger (aliasIds m.aliases) (m.aliases.map Alias.value))

include hs

end Module

end TypeScript

end TypeForge
