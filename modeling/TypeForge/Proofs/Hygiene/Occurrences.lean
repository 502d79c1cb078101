import TypeForge.Proofs.Scoping.Target

/-!
# Bare words in target code

Generated code refers to types by bare words: names of the source, generated names and
library symbols.  A word means the innermost binder of its spelling, whoever has chosen the
binder and the word, so it matters which binders stand around it.  The binders of a
declaration are the names that patterns of conditional types infer and the keys of mapped
types; around the declarations of a section there are also its own names.
-/

namespace TypeForge.TypeScript

/-- What a bare word is meant to be. -/
inductive BareWord where
  | name (name : Name)
  /-- A library symbol, or the head of a member of one. -/
  | symbol (symbol : Symbol)
deriving DecidableEq

namespace BareWord

/-- The spelling of a bare word. -/
def text : BareWord → String
  | name n => n.render
  | symbol s => s.name

end BareWord

/-- A bare word and the binders around it, the innermost first. -/
structure Occurrence where
  word : BareWord
  binders : List Name
deriving DecidableEq

mutual

/-- The bare words of a piece of code with the given binders around it. -/
@[simp] def Ty.occurrences (around : List Name) : Ty → List Occurrence
  | .name name => [⟨.name name, around⟩]
  | .symbol symbol _ => [⟨.symbol symbol, around⟩]
  | .apply head args => head.occurrences around ++ occurrencesOfTys around args
  | .paren inner => inner.occurrences around
  | .operation _ lhs rhs => lhs.occurrences around ++ rhs.occurrences around
  | .index object key => object.occurrences around ++ key.occurrences around
  | .conditional check pattern yes no =>
    check.occurrences around ++ (pattern.occurrences around ++
      (yes.occurrences (pattern.inferred ++ around) ++ no.occurrences around))
  | .infer _ none => []
  | .infer _ (some bound) => bound.occurrences around
  | .tuple elements => occurrencesOfTys around elements
  | .object fields => occurrencesOfFields around fields
  | .mapped key union none _ value =>
    union.occurrences around ++ value.occurrences (.user key :: around)
  | .mapped key union (some renamed) _ value =>
    union.occurrences around ++
      (renamed.occurrences (.user key :: around) ++ value.occurrences (.user key :: around))
  | .template parts => occurrencesOfPieces around parts
  | .arg _ | .param .. | .captured .. | .number _ | .string _ | .keyword _ => []

/-- The bare words of a list of types. -/
@[simp] def occurrencesOfTys (around : List Name) : List Ty → List Occurrence
  | [] => []
  | t :: ts => t.occurrences around ++ occurrencesOfTys around ts

/-- The bare words of the fields of an object type. -/
@[simp] def occurrencesOfFields (around : List Name) : List Field → List Occurrence
  | [] => []
  | .named _ _ value :: fs => value.occurrences around ++ occurrencesOfFields around fs
  | .computed key _ value :: fs =>
    key.occurrences around ++ (value.occurrences around ++ occurrencesOfFields around fs)

/-- The bare words of the pieces of a template literal type. -/
@[simp] def occurrencesOfPieces (around : List Name) : List Piece → List Occurrence
  | [] => []
  | .text _ :: ps => occurrencesOfPieces around ps
  | .ty value :: ps => value.occurrences around ++ occurrencesOfPieces around ps

end

/-- The bare words of a lifted function: its kind, and those of its body. -/
def Interface.occurrences (f : Interface) : List Occurrence :=
  ⟨.symbol .fn, []⟩ :: f.body.occurrences []

/-- The bare words of a declaration.  The names of a section are bound around all of its
declarations. -/
def Declaration.occurrences : Declaration → List Occurrence
  | .named _ type => type.value.occurrences []
  | .group _ body => body.flatMap fun type => type.value.occurrences (body.map Alias.name)
  | .importOf .. => []

/-- The bare words of everything that is generated for a program. -/
def Module.occurrences (m : Module) : List Occurrence :=
  m.lifted.flatMap Interface.occurrences ++ m.items.flatMap Declaration.occurrences

/-! ## Further binders around code -/

/-- A bare word with further binders around it. -/
def Occurrence.within (around : List Name) (o : Occurrence) : Occurrence :=
  ⟨o.word, o.binders ++ around⟩

mutual

/-- Binders around a piece of code are around all of its words. -/
theorem Ty.occurrences_append (inner around : List Name) : ∀ t : Ty,
    t.occurrences (inner ++ around) = (t.occurrences inner).map (Occurrence.within around)
  | .name _ | .symbol .. => by simp [Occurrence.within]
  | .apply head args => by
    simp [head.occurrences_append inner, occurrencesOfTys_append inner around args]
  | .paren t => by simp [t.occurrences_append inner]
  | .operation _ lhs rhs | .index lhs rhs => by
    simp [lhs.occurrences_append inner, rhs.occurrences_append inner]
  | .conditional check pattern yes no => by
    simp [check.occurrences_append inner, pattern.occurrences_append inner,
      no.occurrences_append inner, ← List.append_assoc, yes.occurrences_append (_ ++ inner)]
  | .infer _ none => by simp
  | .infer _ (some bound) => by simp [bound.occurrences_append inner]
  | .tuple elements => by simp [occurrencesOfTys_append inner around elements]
  | .object fields => by simp [occurrencesOfFields_append inner around fields]
  | .mapped key union none _ value => by
    have hvalue := value.occurrences_append (.user key :: inner) around
    rw [List.cons_append] at hvalue
    simp [union.occurrences_append inner, hvalue]
  | .mapped key union (some renamed) _ value => by
    have hrenamed := renamed.occurrences_append (.user key :: inner) around
    have hvalue := value.occurrences_append (.user key :: inner) around
    rw [List.cons_append] at hrenamed hvalue
    simp [union.occurrences_append inner, hrenamed, hvalue]
  | .template parts => by simp [occurrencesOfPieces_append inner around parts]
  | .arg _ | .param .. | .captured .. | .number _ | .string _ | .keyword _ => by simp

theorem occurrencesOfTys_append (inner around : List Name) : ∀ ts : List Ty,
    occurrencesOfTys (inner ++ around) ts =
      (occurrencesOfTys inner ts).map (Occurrence.within around)
  | [] => by simp
  | t :: ts => by simp [t.occurrences_append inner, occurrencesOfTys_append inner around ts]

theorem occurrencesOfFields_append (inner around : List Name) : ∀ fs : List Field,
    occurrencesOfFields (inner ++ around) fs =
      (occurrencesOfFields inner fs).map (Occurrence.within around)
  | [] => by simp
  | .named _ _ value :: fs => by
    simp [value.occurrences_append inner, occurrencesOfFields_append inner around fs]
  | .computed key _ value :: fs => by
    simp [key.occurrences_append inner, value.occurrences_append inner,
      occurrencesOfFields_append inner around fs]

theorem occurrencesOfPieces_append (inner around : List Name) : ∀ ps : List Piece,
    occurrencesOfPieces (inner ++ around) ps =
      (occurrencesOfPieces inner ps).map (Occurrence.within around)
  | [] => by simp
  | .text _ :: ps => by simp [occurrencesOfPieces_append inner around ps]
  | .ty value :: ps => by
    simp [value.occurrences_append inner, occurrencesOfPieces_append inner around ps]

end

/-- A piece of code behind binders. -/
theorem Ty.occurrences_eq_map (around : List Name) (t : Ty) :
    t.occurrences around = (t.occurrences []).map (Occurrence.within around) :=
  t.occurrences_append [] around

end TypeForge.TypeScript
