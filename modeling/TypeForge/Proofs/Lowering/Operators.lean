import TypeForge.Combinator

/-!
# The library symbols of generated code

Operators become combinators and methods become symbols of the prelude; functions, matches
and assertions need a few symbols more.  These are all that generated code makes use of.
-/

namespace TypeForge

namespace Lowering

/-- The combinators that operators become. -/
def operators : List Combinator :=
  [.arithmetic "Add", .arithmetic "Subtract", .arithmetic "Multiply", .arithmetic "Divide",
    .arithmetic "Pow", .arithmetic "Mod", .arithmetic "Negate", .comparison "Lt",
    .comparison "LtOrEq", .comparison "Gt", .comparison "GtOrEq",
    ⟨⟨.prelude, "NotEquals"⟩, none, .direct, false, false⟩, .booleans "Equals" .deferred,
    .booleans "And" .curried, .booleans "Or" .curried, .booleans "Not" .curried]

/-- The library symbols in the code of operators. -/
def operatorSymbols : List Symbol := .call :: operators.map Combinator.symbol

theorem combinator_mem_operators {op : BinaryOp} {c : Combinator}
    (h : op.lowering = .combinator c) : c ∈ operators := by
  cases op <;> cases h <;> decide

theorem logical_mem_operators (op : LogicalOp) : op.lowering ∈ operators := by
  cases op <;> decide

theorem unary_mem_operators {op : UnaryOp} {c : Combinator} (h : op.lowering = .combinator c) :
    c ∈ operators := by
  cases op <;> cases h <;> decide

end Lowering

namespace Symbol

open Lowering

/-- The library symbols that generated code makes use of. -/
def emitted : List Symbol :=
  [.fn, .applyAll, .applyPart, .matching, .expect] ++
    (operatorSymbols ++ methods.map fun method => ⟨.prelude, method.2⟩)

theorem mem_emitted_of_operator {c : Combinator} (h : c ∈ operators) : c.symbol ∈ emitted :=
  List.mem_append_right _
    (List.mem_append_left _ (List.mem_cons_of_mem _ (List.mem_map_of_mem h)))

theorem mem_emitted_of_method {name : String} {symbol : Symbol} (h : method? name = some symbol) :
    symbol ∈ emitted := by
  obtain ⟨text, htext, rfl⟩ := Option.map_eq_some_iff.1 h
  obtain ⟨before, behind, hmethods, -⟩ := List.lookup_eq_some_iff.1 htext
  have hmem : (name, text) ∈ methods := by rw [hmethods]; simp
  exact List.mem_append_right _ (List.mem_append_right _ (List.mem_map.2 ⟨_, hmem, rfl⟩))

end Symbol

end TypeForge
