/-!
# Paths

A path is its text; what a path means is read off the pieces between its slashes.
Two spellings of one place are different paths, and a path keeps the spelling it was
given in everything that is printed.
-/

namespace TypeForge

/-- The text of a path. -/
structure Path where
  text : String
deriving DecidableEq

/-- A text cut at every occurrence of a separator. -/
def piecesBetween (separator : Char) : List Char → List (List Char)
  | [] => [[]]
  | c :: cs =>
    if c = separator then [] :: piecesBetween separator cs
    else
      match piecesBetween separator cs with
      | [] => [[c]]
      | piece :: pieces => (c :: piece) :: pieces

namespace Path

/-- The pieces of a path between its slashes, empty ones included. -/
def segments (p : Path) : List String := (piecesBetween '/' p.text.toList).map String.ofList

/-- Whether a path starts at the root of the file system. -/
def isAbsolute (p : Path) : Bool := p.text.toList.head? == some '/'

/-! ## Components -/

/-- The pieces of a path that count. -/
inductive Component where
  /-- The root of the file system. -/
  | root
  /-- The current directory, in front of a relative path. -/
  | here
  /-- The directory above. -/
  | up
  | name (name : String)
deriving DecidableEq

/-- The component of a segment that is not the first; empty segments and those of a single
dot do not count. -/
def componentOf? (segment : String) : Option Component :=
  if segment = "" ∨ segment = "." then none
  else if segment = ".." then some .up
  else some (.name segment)

/-- The components of a path. -/
def components (p : Path) : List Component :=
  match p.segments with
  | [] => []
  | first :: rest =>
    (if p.isAbsolute then [.root]
      else if first = "." then [.here]
      else (componentOf? first).toList) ++ rest.filterMap componentOf?

/-- The place of a kind of component in the order. -/
def Component.rank : Component → Nat
  | .root => 0
  | .here => 1
  | .up => 2
  | .name _ => 3

/-- The order of components: the special ones first, then names by their characters. -/
def Component.compare : Component → Component → Ordering
  | .name a, .name b => Ord.compare a b
  | a, b => Ord.compare a.rank b.rank

/-- The order of component lists; a list comes before its extensions. -/
def compareComponents : List Component → List Component → Ordering
  | [], [] => .eq
  | [], _ :: _ => .lt
  | _ :: _, [] => .gt
  | a :: as, b :: bs => (a.compare b).then (compareComponents as bs)

/-- The order of paths, component by component: what is in a directory comes before a file
whose name only extends the directory's. -/
def compare (p q : Path) : Ordering := compareComponents p.components q.components

/-! ## File names -/

/-- The name a path ends in; none if it ends in a special component. -/
def fileName? (p : Path) : Option String :=
  match p.components.getLast? with
  | some (.name name) => some name
  | _ => none

/-- The part of a file name behind its last dot; none if there is no dot, or none but at the
start. -/
def extensionOf? (name : String) : Option String :=
  match (piecesBetween '.' name.toList).reverse with
  | last :: before :: more => if before = [] ∧ more = [] then none else some (String.ofList last)
  | _ => none

/-- The extension of the file a path names. -/
def extension? (p : Path) : Option String := p.fileName?.bind extensionOf?

/-- The extension of source files. -/
def sourceExtension : String := "tartak"

/-- Whether a path names a source file. -/
def isSource (p : Path) : Bool := p.extension? == some sourceExtension

/-- Where the code generated for a source goes: next to it. -/
def output (p : Path) : Path := ⟨p.text ++ ".ts"⟩

/-- The path of the entry `name` of a directory. -/
def join (p : Path) (name : String) : Path :=
  match p.text.toList.getLast? with
  | none => ⟨name⟩
  | some c => if c = '/' then ⟨p.text ++ name⟩ else ⟨p.text ++ "/" ++ name⟩

end Path

end TypeForge
