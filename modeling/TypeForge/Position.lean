/-!
# Positions in a source text

A position is a line and a column, both counted from one.  A column counts
characters, not bytes, and only a line feed starts a new line: a carriage return
is one column like any other character.
-/

namespace TypeForge

/-- A line and a column of a source text, both counted from one. -/
structure Position where
  line : Nat
  column : Nat
deriving DecidableEq

namespace Position

/-- Where every source text begins. -/
def start : Position := ⟨1, 1⟩

/-- The position behind the character `c` standing at `p`. -/
def advance (p : Position) (c : Char) : Position :=
  if c = '\n' then ⟨p.line + 1, 1⟩ else ⟨p.line, p.column + 1⟩

/-- The position behind the text `cs` starting at `p`. -/
def advanceOver (p : Position) (cs : List Char) : Position :=
  cs.foldl advance p

@[simp] theorem advanceOver_nil (p : Position) : p.advanceOver [] = p := rfl

@[simp] theorem advanceOver_cons (p : Position) (c : Char) (cs : List Char) :
    p.advanceOver (c :: cs) = (p.advance c).advanceOver cs := rfl

@[simp] theorem advanceOver_append (p : Position) (cs ds : List Char) :
    p.advanceOver (cs ++ ds) = (p.advanceOver cs).advanceOver ds := by
  simp [advanceOver, List.foldl_append]

/-- The positions behind each character of a text, in order. -/
def trail (p : Position) : List Char → List Position
  | [] => []
  | c :: cs => p.advance c :: trail (p.advance c) cs

/-- Reading order: by line, then by column. -/
def compare (p q : Position) : Ordering :=
  (Ord.compare p.line q.line).then (Ord.compare p.column q.column)

/-- The text of a position, `line:column`. -/
def render (p : Position) : String :=
  toString p.line ++ ":" ++ toString p.column

end Position

/-- A value together with the position it was found at. -/
structure Located (α : Type) where
  pos : Position
  value : α
deriving DecidableEq

namespace Located

variable {α β : Type}

/-- Replaces the value and keeps the position. -/
def map (f : α → β) (a : Located α) : Located β :=
  ⟨a.pos, f a.value⟩

/-- The text of a located value: the position, a colon and the text of the value. -/
def render (text : α → String) (a : Located α) : String :=
  a.pos.render ++ ": " ++ text a.value

end Located

end TypeForge
