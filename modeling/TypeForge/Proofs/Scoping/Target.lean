import TypeForge.TypeScript.Render
import TypeForge.Proofs.Scoping.Source

/-!
# Reading references in target code

What a reference in generated code stands for.  A declaration is read on its own: a bare
name is the innermost binder of that spelling inside of the declaration, or a global name;
an argument is a parameter of the function the declaration was lifted from; and an entry of
the capture tuple is what the tuple holds where the declaration is partially applied, read
in the declaration around it.  Names are compared by their spelling, as in the text.

Nothing here depends on how code is generated.  The only thing a declaration does not tell
is what the construct it was lifted from binds, so that is added to it (`Lifted`).
-/

namespace TypeForge.TypeScript

open Scoping

/-! ## Binders -/

mutual

/-- The names that the pattern of a conditional type binds.  The pattern of a conditional
type inside of it keeps its names to itself. -/
@[simp] def Ty.inferred : Ty → List Name
  | .apply head args => head.inferred ++ inferredOfTys args
  | .paren inner => inner.inferred
  | .operation _ lhs rhs => lhs.inferred ++ rhs.inferred
  | .index object key => object.inferred ++ key.inferred
  | .conditional check _ yes no => check.inferred ++ (yes.inferred ++ no.inferred)
  | .infer name none => [name]
  | .infer name (some bound) => bound.inferred ++ [name]
  | .tuple elements => inferredOfTys elements
  | .object fields => inferredOfFields fields
  | .mapped _ union none _ value => union.inferred ++ value.inferred
  | .mapped _ union (some renamed) _ value =>
    union.inferred ++ (renamed.inferred ++ value.inferred)
  | .template parts => inferredOfPieces parts
  | .name _ | .symbol .. | .arg _ | .param .. | .captured .. | .number _ | .string _
  | .keyword _ => []

/-- The names that a list of patterns binds. -/
@[simp] def inferredOfTys : List Ty → List Name
  | [] => []
  | t :: ts => t.inferred ++ inferredOfTys ts

/-- The names that the fields of an object type bind. -/
@[simp] def inferredOfFields : List Field → List Name
  | [] => []
  | .named _ _ value :: fs => value.inferred ++ inferredOfFields fs
  | .computed key _ value :: fs => key.inferred ++ (value.inferred ++ inferredOfFields fs)

/-- The names that the pieces of a template literal type bind. -/
@[simp] def inferredOfPieces : List Piece → List Name
  | [] => []
  | .text _ :: ps => inferredOfPieces ps
  | .ty value :: ps => value.inferred ++ inferredOfPieces ps

end

/-- The source name of a name, if it has one. -/
def Name.source? : Name → Option String
  | user text => some text
  | _ => none

/-- Whether a name is that of a lifted function. -/
def Name.isLifted : Name → Bool
  | lambda _ | arm _ => true
  | _ => false

/-! ## Readings -/

/-- What references stand for at a place in a declaration. -/
structure Reading where
  /-- The frames of the source around the place, the innermost first. -/
  frames : List Frame
  /-- The arguments, without the capture tuple. -/
  args : List Referent
  /-- The entries of the capture tuple. -/
  tuple : List (Option Referent)
  /-- The names bound in the declaration around the place, the innermost first. -/
  names : List (String × Referent)

namespace Reading

/-- The reading of a declaration that is not lifted. -/
def outermost : Reading := ⟨[], [], [], []⟩

/-- What a bare name stands for. -/
def bare (r : Reading) (text : String) : Referent := (r.names.lookup text).getD (.global text)

/-- What a reference stands for; none if there is no such argument or entry. -/
def referent? (r : Reading) : Ty → Option Referent
  | .name name => some (r.bare name.render)
  | .param number _ => if number = 0 then none else r.args[number - 1]?
  | .captured slot _ => r.tuple[slot]?.join
  | _ => none

/-- Names as binders of a frame with `depth` frames around it. -/
def binders (depth : Nat) (names : List Name) : List (String × Referent) :=
  names.map fun name =>
    (name.render, name.source?.elim .generated fun text => .binder depth (.local text))

/-- The reading behind binders of the given names.  Those that come from the source make up
a frame. -/
def binding (r : Reading) (names : List Name) : Reading :=
  { r with
    frames := if names.filterMap Name.source? = [] then r.frames
      else .locals (names.filterMap Name.source?) :: r.frames
    names := binders r.frames.length names ++ r.names }

/-- The reading of a lifted lambda with the given parameters whose closure is made here. -/
def enterLambda (r : Reading) (captured : List Ty) (params : List String) : Reading where
  frames := .params params :: r.frames
  args := (List.range params.length).map fun i => .binder r.frames.length (.param i)
  tuple := captured.map r.referent?
  names := []

/-- The reading of the result of a lifted arm whose closure is made here; `bound` are the
variables of its pattern, and `names` those that the pattern binds in the declaration. -/
def enterArm (r : Reading) (captured : List Ty) (bound : List String) (names : List Name) :
    Reading where
  frames := .locals bound :: r.frames
  args := []
  tuple := captured.map r.referent?
  names := binders r.frames.length names

end Reading

/-! ## Sites -/

/-- A reference: the frames around it, the name it has in the source and what it stands
for. -/
structure Mention where
  frames : List Frame
  name : String
  referent : Option Referent

/-- The places of interest in a piece of code. -/
inductive Site where
  | mention (mention : Mention)
  /-- A lifted function, partially applied to a tuple of captured values. -/
  | closure (reading : Reading) (name : Name) (captured : List Ty)

/-- The reference `t` to `name`, read by `r`. -/
def Reading.mention (r : Reading) (name : String) (t : Ty) : Site :=
  .mention ⟨r.frames, name, r.referent? t⟩

/-- The lifted function and the captured values of a closure. -/
def closure? : Ty → List Ty → Option (Name × List Ty)
  | .symbol symbol none, [.name name, .tuple [.tuple captured]] =>
    if symbol = .applyPart ∧ name.isLifted then some (name, captured) else none
  | _, _ => none

/-- Whether applying `head` makes an arm of a match; its first argument is a pattern. -/
def isArmHead : Ty → Bool
  | .symbol symbol (some _) => symbol == .matching
  | _ => false

mutual

/-- The references and closures in a piece of code, the patterns of arms left out. -/
@[simp] def Ty.sites (r : Reading) : Ty → List Site
  | .name (.user text) => [r.mention text (.name (.user text))]
  | .param number origin => [r.mention origin (.param number origin)]
  | .captured slot origin => [r.mention origin (.captured slot origin)]
  | .apply head args =>
    match closure? head args with
    | some (name, captured) => [.closure r name captured]
    | none =>
      if isArmHead head then sitesOfTail r args else head.sites r ++ sitesOfTys r args
  | .paren inner => inner.sites r
  | .operation _ lhs rhs => lhs.sites r ++ rhs.sites r
  | .index object key => object.sites r ++ key.sites r
  | .conditional check pattern yes no =>
    check.sites r ++ (pattern.sites r ++ (yes.sites (r.binding pattern.inferred) ++ no.sites r))
  | .infer _ none => []
  | .infer _ (some bound) => bound.sites r
  | .tuple elements => sitesOfTys r elements
  | .object fields => sitesOfFields r fields
  | .mapped key union none _ value => union.sites r ++ value.sites (r.binding [.user key])
  | .mapped key union (some renamed) _ value =>
    union.sites r ++ (renamed.sites (r.binding [.user key]) ++ value.sites (r.binding [.user key]))
  | .template parts => sitesOfPieces r parts
  | .name _ | .symbol .. | .arg _ | .number _ | .string _ | .keyword _ => []

/-- The sites in a list of types. -/
@[simp] def sitesOfTys (r : Reading) : List Ty → List Site
  | [] => []
  | t :: ts => t.sites r ++ sitesOfTys r ts

/-- The sites in a list of types behind the first. -/
@[simp] def sitesOfTail (r : Reading) : List Ty → List Site
  | [] => []
  | _ :: ts => sitesOfTys r ts

/-- The sites in the fields of an object type. -/
@[simp] def sitesOfFields (r : Reading) : List Field → List Site
  | [] => []
  | .named _ _ value :: fs => value.sites r ++ sitesOfFields r fs
  | .computed key _ value :: fs => key.sites r ++ (value.sites r ++ sitesOfFields r fs)

/-- The sites in the pieces of a template literal type. -/
@[simp] def sitesOfPieces (r : Reading) : List Piece → List Site
  | [] => []
  | .text _ :: ps => sitesOfPieces r ps
  | .ty value :: ps => value.sites r ++ sitesOfPieces r ps

end

/-! ## References across declarations -/

/-- A lifted function, and what the construct it was lifted from binds: the parameters of a
lambda, or the variables of the pattern of an arm. -/
structure Lifted extends Interface where
  binds : List String

/-- A reference at a site, or in the declaration of the closure that is made there. -/
inductive Leads (table : List Lifted) : Site → Mention → Prop where
  | mention (m : Mention) : Leads table (.mention m) m
  | lambda {r : Reading} {id : Nat} {captured : List Ty} {f : Lifted} {site : Site} {m : Mention}
      (mem : f ∈ table) (name : f.name = .lambda id)
      (site_mem : site ∈ f.body.sites (r.enterLambda captured f.binds)) (leads : Leads table site m) :
      Leads table (.closure r (.lambda id) captured) m
  | arm {r : Reading} {id : Nat} {captured : List Ty} {f : Lifted} {check pattern yes no : Ty}
      {site : Site} {m : Mention}
      (mem : f ∈ table) (name : f.name = .arm id)
      (body : f.body = .conditional check pattern yes no)
      (site_mem : site ∈ yes.sites (r.enterArm captured f.binds pattern.inferred))
      (leads : Leads table site m) :
      Leads table (.closure r (.arm id) captured) m

/-- A reference at one of some sites, or in a declaration that one of them leads to. -/
def Reached (table : List Lifted) (sites : List Site) (m : Mention) : Prop :=
  ∃ site ∈ sites, Leads table site m

/-- A reference in a piece of code, or in a declaration it leads to. -/
def Mentions (table : List Lifted) (r : Reading) (t : Ty) (m : Mention) : Prop :=
  Reached table (t.sites r) m

section

variable {table : List Lifted} {m : Mention}

@[simp] theorem reached_nil : ¬ Reached table [] m := by
  rintro ⟨site, hsite, -⟩
  cases hsite

@[simp] theorem reached_append {sites more : List Site} :
    Reached table (sites ++ more) m ↔ Reached table sites m ∨ Reached table more m := by
  simp only [Reached, List.mem_append, or_and_right, exists_or]

@[simp] theorem reached_mention {mention : Mention} :
    Reached table [.mention mention] m ↔ m = mention := by
  constructor
  · rintro ⟨site, hsite, hleads⟩
    rw [List.mem_singleton] at hsite
    subst hsite
    cases hleads
    rfl
  · rintro rfl
    exact ⟨_, List.mem_singleton_self _, .mention _⟩

/-- Lifted functions have one declaration each. -/
def Distinct (table : List Lifted) : Prop :=
  ∀ f ∈ table, ∀ g ∈ table, f.name = g.name → f = g

/-- The closure of a lambda leads to its declaration. -/
theorem reached_lambda (htable : Distinct table) {f : Lifted} (hf : f ∈ table) {id : Nat}
    (hname : f.name = .lambda id) {r : Reading} {captured : List Ty} :
    Reached table [.closure r (.lambda id) captured] m ↔
      Mentions table (r.enterLambda captured f.binds) f.body m := by
  constructor
  · rintro ⟨site, hsite, hleads⟩
    rw [List.mem_singleton] at hsite
    subst hsite
    cases hleads with
    | lambda mem name site_mem leads =>
      cases htable _ mem f hf (name.trans hname.symm)
      exact ⟨_, site_mem, leads⟩
  · rintro ⟨site, hsite, hleads⟩
    exact ⟨_, List.mem_singleton_self _, .lambda hf hname hsite hleads⟩

/-- The closure of an arm leads to the result in its declaration. -/
theorem reached_arm (htable : Distinct table) {f : Lifted} (hf : f ∈ table) {id : Nat}
    (hname : f.name = .arm id) {check pattern yes no : Ty}
    (hbody : f.body = .conditional check pattern yes no) {r : Reading} {captured : List Ty} :
    Reached table [.closure r (.arm id) captured] m ↔
      Mentions table (r.enterArm captured f.binds pattern.inferred) yes m := by
  constructor
  · rintro ⟨site, hsite, hleads⟩
    rw [List.mem_singleton] at hsite
    subst hsite
    cases hleads with
    | arm mem name body site_mem leads =>
      cases htable _ mem f hf (name.trans hname.symm)
      cases body.symm.trans hbody
      exact ⟨_, site_mem, leads⟩
  · rintro ⟨site, hsite, hleads⟩
    exact ⟨_, List.mem_singleton_self _, .arm hf hname hbody hsite hleads⟩

end

end TypeForge.TypeScript
