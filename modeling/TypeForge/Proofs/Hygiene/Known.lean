import TypeForge.Proofs.Hygiene.Occurrences
import TypeForge.Proofs.Lowering.Operators
import TypeForge.Proofs.WellFormed

/-!
# Code that is accounted for

A piece of code is known if its bare words are identifiers or local names of the program,
generated names or library symbols, and if its binders are local names of the program or
generated.  Known code has known words behind known binders only, wherever it stands.
-/

namespace TypeForge

open TypeScript

/-! ## The names of a program -/

/-- The name that a statement binds. -/
def Stmt.letName? : Stmt → Option String
  | letDecl _ name _ => some name
  | _ => none

/-- The name of an identifier. -/
def Place.identifiers : Place → List String
  | ⟨_, .ident _ name⟩ => [name]
  | _ => []

/-- The names that an expression itself binds by lets, as the key of a mapped type or as a
pattern variable. -/
def Place.locals : Place → List String
  | ⟨_, .block _ body⟩ => body.filterMap Stmt.letName?
  | ⟨_, .mapped _ key ..⟩ => [key]
  | ⟨_, .infer _ name _⟩ => [name]
  | _ => []

/-- The names that the lets of a section bind. -/
def TopLevel.lets : TopLevel → List String
  | .sectionOf s => s.body.filterMap Stmt.letName?
  | _ => []

namespace Program

variable {program : Program} {place : Place} {name : String}

/-- The identifiers of a program. -/
def identifiers (program : Program) : List String := program.places.flatMap Place.identifiers

/-- The names that a program binds by lets, as keys of mapped types and as pattern
variables. -/
def locals (program : Program) : List String :=
  program.places.flatMap Place.locals ++ program.body.flatMap TopLevel.lets

theorem mem_identifiers (h : place ∈ program.places) (hname : name ∈ place.identifiers) :
    name ∈ program.identifiers :=
  List.mem_flatMap.2 ⟨place, h, hname⟩

theorem mem_locals (h : place ∈ program.places) (hname : name ∈ place.locals) :
    name ∈ program.locals :=
  List.mem_append_left _ (List.mem_flatMap.2 ⟨place, h, hname⟩)

end Program

/-! ## Known code -/

namespace TypeScript

variable (program : Program)

/-- A word that comes from the program, is generated or belongs to a library. -/
def BareWord.Known : BareWord → Prop
  | .name (.user text) => text ∈ program.identifiers ∨ text ∈ program.locals
  | .name _ => True
  | .symbol s => s ∈ Symbol.emitted

/-- A binder that comes from the program or is generated. -/
def Name.Known : Name → Prop
  | .user text => text ∈ program.locals
  | _ => True

mutual

/-- Code all of whose words and binders are known. -/
@[simp] def Ty.Known : Ty → Prop
  | .name name => (BareWord.name name).Known program
  | .symbol symbol _ => symbol ∈ Symbol.emitted
  | .apply head args => head.Known ∧ KnownTys args
  | .paren inner => inner.Known
  | .operation _ lhs rhs => lhs.Known ∧ rhs.Known
  | .index object key => object.Known ∧ key.Known
  | .conditional check pattern yes no => check.Known ∧ pattern.Known ∧ yes.Known ∧ no.Known
  | .infer name none => name.Known program
  | .infer name (some bound) => name.Known program ∧ bound.Known
  | .tuple elements => KnownTys elements
  | .object fields => KnownFields fields
  | .mapped key union none _ value =>
    (Name.user key).Known program ∧ union.Known ∧ value.Known
  | .mapped key union (some renamed) _ value =>
    (Name.user key).Known program ∧ union.Known ∧ renamed.Known ∧ value.Known
  | .template parts => KnownPieces parts
  | .arg _ | .param .. | .captured .. | .number _ | .string _ | .keyword _ => True

/-- Types that are known. -/
@[simp] def KnownTys : List Ty → Prop
  | [] => True
  | t :: ts => t.Known ∧ KnownTys ts

/-- Fields of object types that are known. -/
@[simp] def KnownFields : List Field → Prop
  | [] => True
  | .named _ _ value :: fs => value.Known ∧ KnownFields fs
  | .computed key _ value :: fs => key.Known ∧ value.Known ∧ KnownFields fs

/-- Pieces of template literal types that are known. -/
@[simp] def KnownPieces : List Piece → Prop
  | [] => True
  | .text _ :: ps => KnownPieces ps
  | .ty value :: ps => value.Known ∧ KnownPieces ps

end

variable {program} {around : List Name} {o : Occurrence}

/-- A word that is known and stands behind known binders only. -/
structure Occurrence.Known (program : Program) (o : Occurrence) : Prop where
  word : o.word.Known program
  binders : ∀ b ∈ o.binders, b.Known program

mutual

theorem Ty.Known.inferred : ∀ {t : Ty}, t.Known program → ∀ n ∈ t.inferred, n.Known program
  | .apply head args, h => by
    simp only [Ty.inferred, List.forall_mem_append]
    exact ⟨h.1.inferred, inferred_of_knownTys _ h.2⟩
  | .paren inner, h => Ty.Known.inferred (t := inner) h
  | .operation _ lhs rhs, h | .index lhs rhs, h => by
    simp only [Ty.inferred, List.forall_mem_append]
    exact ⟨h.1.inferred, h.2.inferred⟩
  | .conditional check pattern yes no, h => by
    simp only [Ty.inferred, List.forall_mem_append]
    exact ⟨h.1.inferred, h.2.2.1.inferred, h.2.2.2.inferred⟩
  | .infer name none, h => by simpa using h
  | .infer name (some bound), h => by
    simp only [Ty.inferred, List.forall_mem_append, List.forall_mem_singleton]
    exact ⟨h.2.inferred, h.1⟩
  | .tuple elements, h => inferred_of_knownTys elements h
  | .object fields, h => inferred_of_knownFields fields h
  | .mapped key union none _ value, h => by
    simp only [Ty.inferred, List.forall_mem_append]
    exact ⟨h.2.1.inferred, h.2.2.inferred⟩
  | .mapped key union (some renamed) _ value, h => by
    simp only [Ty.inferred, List.forall_mem_append]
    exact ⟨h.2.1.inferred, h.2.2.1.inferred, h.2.2.2.inferred⟩
  | .template parts, h => inferred_of_knownPieces parts h
  | .name _, _ | .symbol .., _ | .arg _, _ | .param .., _ | .captured .., _ | .number _, _
  | .string _, _ | .keyword _, _ => by simp

theorem inferred_of_knownTys : ∀ ts : List Ty, KnownTys program ts →
    ∀ n ∈ inferredOfTys ts, n.Known program
  | [], _ => by simp
  | t :: ts, h => by
    simp only [inferredOfTys, List.forall_mem_append]
    exact ⟨h.1.inferred, inferred_of_knownTys _ h.2⟩

theorem inferred_of_knownFields : ∀ fs : List Field, KnownFields program fs →
    ∀ n ∈ inferredOfFields fs, n.Known program
  | [], _ => by simp
  | .named _ _ value :: fs, h => by
    simp only [inferredOfFields, List.forall_mem_append]
    exact ⟨h.1.inferred, inferred_of_knownFields _ h.2⟩
  | .computed key _ value :: fs, h => by
    simp only [inferredOfFields, List.forall_mem_append]
    exact ⟨h.1.inferred, h.2.1.inferred, inferred_of_knownFields _ h.2.2⟩

theorem inferred_of_knownPieces : ∀ ps : List Piece, KnownPieces program ps →
    ∀ n ∈ inferredOfPieces ps, n.Known program
  | [], _ => by simp
  | .text _ :: ps, h => inferred_of_knownPieces ps h
  | .ty value :: ps, h => by
    simp only [inferredOfPieces, List.forall_mem_append]
    exact ⟨h.1.inferred, inferred_of_knownPieces _ h.2⟩

end

mutual

/-- The words of known code are known, and so are the binders around them. -/
theorem Ty.Known.occurrences : ∀ {t : Ty}, t.Known program → ∀ {around : List Name},
    (∀ b ∈ around, b.Known program) → ∀ o ∈ t.occurrences around, o.Known program
  | .name name, h, _, ha => by
    simp only [Ty.occurrences, List.forall_mem_singleton]
    exact ⟨h, ha⟩
  | .symbol s _, h, _, ha => by
    simp only [Ty.occurrences, List.forall_mem_singleton]
    exact ⟨h, ha⟩
  | .apply head args, h, _, ha => by
    simp only [Ty.occurrences, List.forall_mem_append]
    exact ⟨h.1.occurrences ha, occurrences_of_knownTys _ h.2 ha⟩
  | .paren inner, h, _, ha => Ty.Known.occurrences (t := inner) h ha
  | .operation _ lhs rhs, h, _, ha | .index lhs rhs, h, _, ha => by
    simp only [Ty.occurrences, List.forall_mem_append]
    exact ⟨h.1.occurrences ha, h.2.occurrences ha⟩
  | .conditional check pattern yes no, h, _, ha => by
    simp only [Ty.occurrences, List.forall_mem_append]
    have hinner := List.forall_mem_append.2 ⟨h.2.1.inferred, ha⟩
    exact ⟨h.1.occurrences ha, h.2.1.occurrences ha, h.2.2.1.occurrences hinner,
      h.2.2.2.occurrences ha⟩
  | .infer name none, _, _, _ => by simp
  | .infer name (some bound), h, _, ha => h.2.occurrences ha
  | .tuple elements, h, _, ha => occurrences_of_knownTys elements h ha
  | .object fields, h, _, ha => occurrences_of_knownFields fields h ha
  | .mapped key union none _ value, h, _, ha => by
    simp only [Ty.occurrences, List.forall_mem_append]
    exact ⟨h.2.1.occurrences ha, h.2.2.occurrences (List.forall_mem_cons.2 ⟨h.1, ha⟩)⟩
  | .mapped key union (some renamed) _ value, h, _, ha => by
    simp only [Ty.occurrences, List.forall_mem_append]
    have hinner := List.forall_mem_cons.2 ⟨h.1, ha⟩
    exact ⟨h.2.1.occurrences ha, h.2.2.1.occurrences hinner, h.2.2.2.occurrences hinner⟩
  | .template parts, h, _, ha => occurrences_of_knownPieces parts h ha
  | .arg _, _, _, _ | .param .., _, _, _ | .captured .., _, _, _ | .number _, _, _, _
  | .string _, _, _, _ | .keyword _, _, _, _ => by simp

theorem occurrences_of_knownTys : ∀ ts : List Ty, KnownTys program ts → ∀ {around : List Name},
    (∀ b ∈ around, b.Known program) → ∀ o ∈ occurrencesOfTys around ts, o.Known program
  | [], _, _, _ => by simp
  | t :: ts, h, _, ha => by
    simp only [occurrencesOfTys, List.forall_mem_append]
    exact ⟨h.1.occurrences ha, occurrences_of_knownTys _ h.2 ha⟩

theorem occurrences_of_knownFields : ∀ fs : List Field, KnownFields program fs →
    ∀ {around : List Name}, (∀ b ∈ around, b.Known program) →
      ∀ o ∈ occurrencesOfFields around fs, o.Known program
  | [], _, _, _ => by simp
  | .named _ _ value :: fs, h, _, ha => by
    simp only [occurrencesOfFields, List.forall_mem_append]
    exact ⟨h.1.occurrences ha, occurrences_of_knownFields _ h.2 ha⟩
  | .computed key _ value :: fs, h, _, ha => by
    simp only [occurrencesOfFields, List.forall_mem_append]
    exact ⟨h.1.occurrences ha, h.2.1.occurrences ha, occurrences_of_knownFields _ h.2.2 ha⟩

theorem occurrences_of_knownPieces : ∀ ps : List Piece, KnownPieces program ps →
    ∀ {around : List Name}, (∀ b ∈ around, b.Known program) →
      ∀ o ∈ occurrencesOfPieces around ps, o.Known program
  | [], _, _, _ => by simp
  | .text _ :: ps, h, _, ha => occurrences_of_knownPieces ps h ha
  | .ty value :: ps, h, _, ha => by
    simp only [occurrencesOfPieces, List.forall_mem_append]
    exact ⟨h.1.occurrences ha, occurrences_of_knownPieces _ h.2 ha⟩

end

end TypeScript

end TypeForge
