import Mathlib.Data.List.Nodup
import TypeForge.Proofs.Generate.Patterns
import TypeForge.Proofs.Scoping.Target

/-!
# Generated names for values

Code binds the values of operands and arguments to generated names, in patterns of conditional
types, and refers to them where the value is needed.  Pieces of code may be repeated, and then so
are the binders in them; what matters is that a binder does not stand where the same name is
already bound, and that a reference stands where its name is bound once.
-/

namespace TypeForge.TypeScript

/-- The id of a generated name for a value. -/
def Name.tempId? : Name → Option Nat
  | temp id => some id
  | _ => none

/-- The ids of the generated names for values among names. -/
def tempIds (names : List Name) : List Nat := names.filterMap Name.tempId?

@[simp] theorem tempIds_append (names more : List Name) :
    tempIds (names ++ more) = tempIds names ++ tempIds more := List.filterMap_append

@[simp] theorem tempIds_nil : tempIds [] = [] := rfl

@[simp] theorem tempIds_user (text : String) : tempIds [.user text] = [] := rfl

/-- A generated name for a value, where it occurs in code, and the ids bound around it, the
innermost first. -/
inductive Temp where
  | use (id : Nat) (around : List Nat)
  /-- The pattern `pattern` of a conditional type, which checks `check`, binds the name. -/
  | binder (id : Nat) (check pattern : Ty) (around : List Nat)

namespace Temp

def id : Temp → Nat
  | use id _ | binder id .. => id

/-- A reference is to a name that is bound once, and a binder is of a name that is not bound. -/
def Proper : Temp → Prop
  | use id around => around.count id = 1
  | binder id _ _ around => id ∉ around

/-- The same occurrence with further ids bound around it. -/
def within (around : List Nat) : Temp → Temp
  | use id inner => use id (inner ++ around)
  | binder id check pattern inner => binder id check pattern (inner ++ around)

@[simp] theorem id_within (around : List Nat) (x : Temp) : (x.within around).id = x.id := by
  cases x <;> rfl

@[simp] theorem within_nil (x : Temp) : x.within [] = x := by
  cases x <;> simp [within]

/-- Other names around an occurrence do not matter. -/
theorem Proper.within {x : Temp} {around : List Nat} (h : x.Proper) (hx : x.id ∉ around) :
    (x.within around).Proper := by
  cases x with
  | use id inner =>
    have houter : around.count id = 0 := List.count_eq_zero.2 hx
    change (inner ++ around).count id = 1
    rw [List.count_append, houter, Nat.add_zero]
    exact h
  | binder id check pattern inner =>
    intro hmem
    obtain hmem | hmem := List.mem_append.1 hmem
    · exact h hmem
    · exact hx hmem

end Temp

mutual

/-- The occurrences of generated names for values in code, with the given ids bound around it. -/
@[simp] def Ty.temps (around : List Nat) : Ty → List Temp
  | .name name => name.tempId?.toList.map fun id => .use id around
  | .apply head args => head.temps around ++ tempsOfTys around args
  | .paren inner => inner.temps around
  | .operation _ lhs rhs => lhs.temps around ++ rhs.temps around
  | .index object key => object.temps around ++ key.temps around
  | .conditional check pattern yes no =>
    ((tempIds pattern.inferred).map fun id => .binder id check pattern around) ++
      (check.temps around ++ (pattern.temps around ++
        (yes.temps (tempIds pattern.inferred ++ around) ++ no.temps around)))
  | .infer _ none => []
  | .infer _ (some bound) => bound.temps around
  | .tuple elements => tempsOfTys around elements
  | .object fields => tempsOfFields around fields
  | .mapped _ union none _ value => union.temps around ++ value.temps around
  | .mapped _ union (some renamed) _ value =>
    union.temps around ++ (renamed.temps around ++ value.temps around)
  | .template parts => tempsOfPieces around parts
  | .symbol .. | .arg _ | .param .. | .captured .. | .number _ | .string _ | .keyword _ => []

/-- The occurrences in a list of types. -/
@[simp] def tempsOfTys (around : List Nat) : List Ty → List Temp
  | [] => []
  | t :: ts => t.temps around ++ tempsOfTys around ts

/-- The occurrences in the fields of an object type. -/
@[simp] def tempsOfFields (around : List Nat) : List Field → List Temp
  | [] => []
  | .named _ _ value :: fs => value.temps around ++ tempsOfFields around fs
  | .computed key _ value :: fs =>
    key.temps around ++ (value.temps around ++ tempsOfFields around fs)

/-- The occurrences in the pieces of a template literal type. -/
@[simp] def tempsOfPieces (around : List Nat) : List Piece → List Temp
  | [] => []
  | .text _ :: ps => tempsOfPieces around ps
  | .ty value :: ps => value.temps around ++ tempsOfPieces around ps

end

mutual

/-- Ids bound around code are bound around everything in it. -/
theorem Ty.temps_append (inner around : List Nat) : ∀ t : Ty,
    t.temps (inner ++ around) = (t.temps inner).map (Temp.within around)
  | .name name => by simp [Temp.within]
  | .apply head args => by simp [head.temps_append inner, tempsOfTys_append inner around args]
  | .paren t => by simp [t.temps_append inner]
  | .operation _ lhs rhs | .index lhs rhs => by
    simp [lhs.temps_append inner, rhs.temps_append inner]
  | .conditional check pattern yes no => by
    simp [check.temps_append inner, pattern.temps_append inner, no.temps_append inner,
      ← List.append_assoc, yes.temps_append (_ ++ inner), Temp.within]
  | .infer _ none => by simp
  | .infer _ (some bound) => by simp [bound.temps_append inner]
  | .tuple elements => by simp [tempsOfTys_append inner around elements]
  | .object fields => by simp [tempsOfFields_append inner around fields]
  | .mapped _ union none _ value => by simp [union.temps_append inner, value.temps_append inner]
  | .mapped _ union (some renamed) _ value => by
    simp [union.temps_append inner, renamed.temps_append inner, value.temps_append inner]
  | .template parts => by simp [tempsOfPieces_append inner around parts]
  | .symbol .. | .arg _ | .param .. | .captured .. | .number _ | .string _ | .keyword _ => by simp

theorem tempsOfTys_append (inner around : List Nat) : ∀ ts : List Ty,
    tempsOfTys (inner ++ around) ts = (tempsOfTys inner ts).map (Temp.within around)
  | [] => by simp
  | t :: ts => by simp [t.temps_append inner, tempsOfTys_append inner around ts]

theorem tempsOfFields_append (inner around : List Nat) : ∀ fs : List Field,
    tempsOfFields (inner ++ around) fs = (tempsOfFields inner fs).map (Temp.within around)
  | [] => by simp
  | .named _ _ value :: fs => by
    simp [value.temps_append inner, tempsOfFields_append inner around fs]
  | .computed key _ value :: fs => by
    simp [key.temps_append inner, value.temps_append inner, tempsOfFields_append inner around fs]

theorem tempsOfPieces_append (inner around : List Nat) : ∀ ps : List Piece,
    tempsOfPieces (inner ++ around) ps = (tempsOfPieces inner ps).map (Temp.within around)
  | [] => by simp
  | .text _ :: ps => by simp [tempsOfPieces_append inner around ps]
  | .ty value :: ps => by simp [value.temps_append inner, tempsOfPieces_append inner around ps]

end

/-- Code by itself, put where ids are bound. -/
theorem Ty.temps_eq_map (around : List Nat) (t : Ty) :
    t.temps around = (t.temps []).map (Temp.within around) := t.temps_append [] around

/-- The types in the fields of an object type. -/
def Field.tys : Field → List Ty
  | named _ _ value => [value]
  | computed key _ value => [key, value]

/-- The types in the pieces of a template literal type. -/
def Piece.tys : Piece → List Ty
  | text _ => []
  | ty value => [value]

section

variable {around : List Nat} {x : Temp}

theorem mem_tempsOfTys {ts : List Ty} :
    x ∈ tempsOfTys around ts ↔ ∃ t ∈ ts, x ∈ t.temps around := by
  induction ts with
  | nil => simp
  | cons t ts ih => simp [ih]

theorem mem_tempsOfFields {fs : List Field} :
    x ∈ tempsOfFields around fs ↔ ∃ t ∈ fs.flatMap Field.tys, x ∈ t.temps around := by
  induction fs with
  | nil => simp
  | cons f fs ih =>
    rw [List.flatMap_cons]
    simp only [List.mem_append, or_and_right, exists_or, ← ih]
    cases f <;> simp [Field.tys, or_assoc]

theorem mem_tempsOfPieces {ps : List Piece} :
    x ∈ tempsOfPieces around ps ↔ ∃ t ∈ ps.flatMap Piece.tys, x ∈ t.temps around := by
  induction ps with
  | nil => simp
  | cons p ps ih =>
    rw [List.flatMap_cons]
    simp only [List.mem_append, or_and_right, exists_or, ← ih]
    cases p <;> simp [Piece.tys]

end

/-! ## Hidden names -/

/-- No generated name for a value gets out of the code into a pattern around it. -/
def Ty.Hidden (t : Ty) : Prop := tempIds t.inferred = []

theorem tempIds_inferredOfTys {ts : List Ty} (h : ∀ t ∈ ts, t.Hidden) :
    tempIds (inferredOfTys ts) = [] := by
  induction ts with
  | nil => rfl
  | cons t ts ih =>
    rw [List.forall_mem_cons] at h
    rw [inferredOfTys, tempIds_append, h.1, ih h.2]
    rfl

theorem tempIds_inferredOfFields {fs : List Field} (h : ∀ t ∈ fs.flatMap Field.tys, t.Hidden) :
    tempIds (inferredOfFields fs) = [] := by
  induction fs with
  | nil => rfl
  | cons f fs ih =>
    rw [List.flatMap_cons, List.forall_mem_append] at h
    have hfs := ih h.2
    cases f with
    | named name optional value =>
      have hvalue : tempIds value.inferred = [] := h.1 value List.mem_cons_self
      rw [inferredOfFields, tempIds_append, hvalue, hfs]
      rfl
    | computed key optional value =>
      have hkey : tempIds key.inferred = [] := h.1 key List.mem_cons_self
      have hvalue : tempIds value.inferred = [] :=
        h.1 value (List.mem_cons_of_mem _ List.mem_cons_self)
      rw [inferredOfFields, tempIds_append, tempIds_append, hkey, hvalue, hfs]
      rfl

theorem tempIds_inferredOfPieces {ps : List Piece} (h : ∀ t ∈ ps.flatMap Piece.tys, t.Hidden) :
    tempIds (inferredOfPieces ps) = [] := by
  induction ps with
  | nil => rfl
  | cons p ps ih =>
    rw [List.flatMap_cons, List.forall_mem_append] at h
    have hps := ih h.2
    cases p with
    | text text => exact hps
    | ty value =>
      have hvalue : tempIds value.inferred = [] := h.1 value List.mem_cons_self
      rw [inferredOfPieces, tempIds_append, hvalue, hps]
      rfl

/-! ## Values bound one inside the other -/

/-- The occurrences in code that binds values to ids, each inside of those before it, around
`body`. -/
def tempsOfLayers (check : Ty → Ty) (pattern : Nat → Ty → Ty) (body : Ty) :
    List (Nat × Ty) → List Nat → List Temp
  | [], around => body.temps around
  | (id, value) :: layers, around =>
    .binder id (check value) (pattern id value) around ::
      (value.temps around ++ tempsOfLayers check pattern body layers (id :: around))

/-- A proper binder of a layer, or a proper reference to one. -/
inductive OfLayer (check : Ty → Ty) (pattern : Nat → Ty → Ty) (layers : List (Nat × Ty)) :
    Temp → Prop where
  | binder {id : Nat} {value : Ty} {around : List Nat} (mem : (id, value) ∈ layers)
      (fresh : id ∉ around) :
      OfLayer check pattern layers (.binder id (check value) (pattern id value) around)
  | use {id : Nat} {around : List Nat} (mem : id ∈ layers.map Prod.fst)
      (once : around.count id = 1) : OfLayer check pattern layers (.use id around)

theorem OfLayer.proper {check : Ty → Ty} {pattern : Nat → Ty → Ty} {layers : List (Nat × Ty)}
    {x : Temp} (h : OfLayer check pattern layers x) : x.Proper := by
  cases h with
  | binder _ fresh => exact fresh
  | use _ once => exact once

theorem OfLayer.id_mem {check : Ty → Ty} {pattern : Nat → Ty → Ty} {layers : List (Nat × Ty)}
    {x : Temp} (h : OfLayer check pattern layers x) : x.id ∈ layers.map Prod.fst := by
  cases h with
  | binder mem _ => exact List.mem_map_of_mem mem
  | use mem _ => exact mem

/-- The code binds the layers around its parts: it consists of proper binders of and references
to the layers, and of what is in its parts. -/
structure Wraps (check : Ty → Ty) (pattern : Nat → Ty → Ty) (layers : List (Nat × Ty))
    (parts : List Ty) (t : Ty) : Prop where
  binds : ∀ id value, (id, value) ∈ layers →
    ∃ around, .binder id (check value) (pattern id value) around ∈ t.temps []
  keeps : ∀ p ∈ parts, ∀ x ∈ p.temps [], ∃ around, x.within around ∈ t.temps []
  only : ∀ x ∈ t.temps [], OfLayer check pattern layers x ∨
    ∃ p ∈ parts, ∃ y ∈ p.temps [], ∃ around ⊆ layers.map Prod.fst, x = y.within around

theorem Wraps.paren {check : Ty → Ty} {pattern : Nat → Ty → Ty} {layers : List (Nat × Ty)}
    {parts : List Ty} {t : Ty} (h : Wraps check pattern layers parts t) :
    Wraps check pattern layers parts (.paren t) where
  binds := by simpa using h.binds
  keeps := by simpa using h.keeps
  only := by simpa using h.only

section

variable {check : Ty → Ty} {pattern : Nat → Ty → Ty} {body : Ty} {layers : List (Nat × Ty)}
  {around : List Nat} {x : Temp}

/-- What occurs in layers is the binder of a layer, something in its value, or something in the
code inside of all layers. -/
theorem mem_tempsOfLayers :
    x ∈ tempsOfLayers check pattern body layers around ↔
      (∃ before id value after, layers = before ++ (id, value) :: after ∧
        (x = .binder id (check value) (pattern id value) ((before.map Prod.fst).reverse ++ around) ∨
          x ∈ value.temps ((before.map Prod.fst).reverse ++ around))) ∨
      x ∈ body.temps ((layers.map Prod.fst).reverse ++ around) := by
  induction layers generalizing around with
  | nil => simp [tempsOfLayers]
  | cons layer layers ih =>
    obtain ⟨id, value⟩ := layer
    rw [tempsOfLayers, List.mem_cons, List.mem_append, ih]
    constructor
    · rintro (rfl | hvalue | ⟨before, id', value', after, rfl, hx⟩ | hbody)
      · exact .inl ⟨[], id, value, layers, rfl, .inl rfl⟩
      · exact .inl ⟨[], id, value, layers, rfl, .inr hvalue⟩
      · exact .inl ⟨(id, value) :: before, id', value', after, rfl, by simpa using hx⟩
      · exact .inr (by simpa using hbody)
    · rintro (⟨before, id', value', after, heq, hx⟩ | hbody)
      · cases before with
        | nil =>
          cases heq
          obtain hx | hx := hx
          · exact .inl hx
          · exact .inr (.inl hx)
        | cons first before =>
          obtain ⟨rfl, rfl⟩ := List.cons.inj heq
          exact .inr (.inr (.inl ⟨before, id', value', after, rfl, by simpa using hx⟩))
      · exact .inr (.inr (.inr (by simpa using hbody)))

/-- Layers with different ids are bound once each, whatever order they stand in. -/
theorem wraps_of_layers {inner : List Ty} {t : Ty} (hnodup : (layers.map Prod.fst).Nodup)
    (hbody : ∀ x ∈ body.temps [],
      (∃ id ∈ layers.map Prod.fst, x = .use id []) ∨ ∃ p ∈ inner, x ∈ p.temps [])
    (hinner : ∀ p ∈ inner, ∀ x ∈ p.temps [], x ∈ body.temps [])
    (ht : ∀ x, x ∈ t.temps [] ↔ x ∈ tempsOfLayers check pattern body layers []) :
    Wraps check pattern layers (inner ++ layers.map Prod.snd) t where
  binds := by
    intro id value hlayer
    obtain ⟨before, after, hsplit⟩ := List.append_of_mem hlayer
    exact ⟨_, (ht _).2 (mem_tempsOfLayers.2 (.inl ⟨before, id, value, after, hsplit, .inl rfl⟩))⟩
  keeps := by
    intro p hp x hx
    obtain hp | hp := List.mem_append.1 hp
    · refine ⟨(layers.map Prod.fst).reverse ++ [], (ht _).2 (mem_tempsOfLayers.2 (.inr ?_))⟩
      rw [body.temps_eq_map]
      exact List.mem_map_of_mem (hinner p hp x hx)
    · obtain ⟨layer, hlayer, rfl⟩ := List.mem_map.1 hp
      obtain ⟨before, after, hsplit⟩ := List.append_of_mem hlayer
      refine ⟨(before.map Prod.fst).reverse ++ [], (ht _).2 (mem_tempsOfLayers.2
        (.inl ⟨before, layer.1, layer.2, after, hsplit, .inr ?_⟩))⟩
      rw [Ty.temps_eq_map]
      exact List.mem_map_of_mem hx
  only := by
    intro x hx
    obtain ⟨before, id, value, after, rfl, rfl | hx⟩ | hx := mem_tempsOfLayers.1 ((ht x).1 hx)
    · refine .inl (.binder (by simp) ?_)
      rw [List.map_append, List.map_cons] at hnodup
      intro hid
      rw [List.append_nil, List.mem_reverse] at hid
      exact (List.nodup_append.1 hnodup).2.2 id hid id List.mem_cons_self rfl
    · rw [Ty.temps_eq_map] at hx
      obtain ⟨y, hy, rfl⟩ := List.mem_map.1 hx
      refine .inr ⟨value, by simp, y, hy, _, ?_, rfl⟩
      intro i hi
      rw [List.append_nil, List.mem_reverse] at hi
      rw [List.map_append]
      exact List.mem_append_left _ hi
    · rw [Ty.temps_eq_map] at hx
      obtain ⟨y, hy, rfl⟩ := List.mem_map.1 hx
      rw [List.append_nil]
      obtain ⟨id, hid, rfl⟩ | ⟨p, hp, hy⟩ := hbody y hy
      · refine .inl (.use hid ?_)
        exact List.count_eq_one_of_mem (List.nodup_reverse.2 hnodup) (List.mem_reverse.2 hid)
      · refine .inr ⟨p, List.mem_append_left _ hp, y, hy, _, ?_, rfl⟩
        exact fun i hi => List.mem_reverse.1 hi

end

end TypeForge.TypeScript

namespace TypeForge.Gen

open TypeScript

/-- Operands are bound one inside the other. -/
theorem mem_temps_bindOperands (isNumeric : Bool) (body : Ty) (operands : List (Nat × Ty))
    (around : List Nat) (x : Temp) :
    x ∈ (bindOperands (operandBound isNumeric) operands body).temps around ↔
      x ∈ tempsOfLayers (fun value => value)
        (fun id _ => .infer (.temp id) (operandBound isNumeric)) body operands around := by
  induction operands generalizing around with
  | nil => simp [bindOperands, tempsOfLayers]
  | cons operand operands ih =>
    obtain ⟨id, operand⟩ := operand
    have hpattern : tempIds (Ty.infer (.temp id) (operandBound isNumeric)).inferred = [id] ∧
        (Ty.infer (.temp id) (operandBound isNumeric)).temps around = [] := by
      cases isNumeric with
      | false => exact ⟨rfl, rfl⟩
      | true => exact ⟨rfl, rfl⟩
    rw [bindOperands, Ty.bind, tempsOfLayers, Ty.temps, hpattern.1, hpattern.2]
    simp only [List.map_cons, List.map_nil, List.singleton_append, List.nil_append, List.mem_cons,
      List.mem_append, ih, Ty.never, Ty.temps, List.append_nil]

/-- Arguments are bound one inside the other; each stands in its pattern as well. -/
theorem mem_temps_bindArgs (body : Ty) (args : List (Nat × Ty)) (hargs : ∀ arg ∈ args, arg.2.Hidden)
    (around : List Nat) (x : Temp) :
    x ∈ (bindArgs args body).temps around ↔
      x ∈ tempsOfLayers Ty.paren (fun id value => .infer (.temp id) (some (.paren value))) body
        args around := by
  induction args generalizing around with
  | nil => rfl
  | cons arg args ih =>
    obtain ⟨id, arg⟩ := arg
    rw [List.forall_mem_cons] at hargs
    have hpattern : tempIds (Ty.infer (.temp id) (some (.paren arg))).inferred = [id] := by
      rw [Ty.inferred, Ty.inferred, tempIds_append, hargs.1]
      rfl
    rw [bindArgs, Ty.bindExactly, Ty.bind, tempsOfLayers, Ty.temps, hpattern]
    simp only [List.map_cons, List.map_nil, List.singleton_append, List.mem_cons,
      List.mem_append, ih hargs.2, Ty.never, Ty.temps, List.append_nil, or_self_left]

end TypeForge.Gen
