/-!
# External libraries

Generated code relies on three libraries: higher-order utilities (functions,
application, matching, truth values), arithmetic on number types, and a prelude of
tuple, string and object utilities.  A target says under which module names they are
found.
-/

namespace TypeForge

/-- The external libraries. -/
inductive Library where
  | hot
  | math
  | prelude
deriving DecidableEq

/-- All libraries, in the order in which they are imported. -/
def Library.all : List Library := [.hot, .math, .prelude]

/-- Where the generated code finds the libraries. -/
inductive Target where
  /-- The published packages. -/
  | published
  /-- The packages they are made from, and a prelude next to the sources. -/
  | inTree
deriving DecidableEq

namespace Target

/-- All targets, the default one first. -/
def all : List Target := [.published, .inTree]

/-- The target that is used when none is chosen. -/
def default : Target := .published

/-- The name of a target on the command line. -/
def name : Target → String
  | published => "published"
  | inTree => "local"

/-- The target of the given name. -/
def ofName? (name : String) : Option Target := all.find? fun target => target.name == name

end Target

/-- The module name of a library. -/
def Library.module (target : Target) : Library → String
  | hot => match target with
    | .published => "tartak/hot"
    | .inTree => "hotscript"
  | math => match target with
    | .published => "tartak/math"
    | .inTree => "ts-arithmetic"
  | prelude => match target with
    | .published => "tartak/prelude"
    | .inTree => "@/prelude"

/-- A name that a library exports. -/
structure Symbol where
  library : Library
  name : String
deriving DecidableEq

namespace Symbol

/-- The type of functions that can be applied later. -/
def fn : Symbol := ⟨.hot, "Fn"⟩

/-- Application of a function to all of its arguments. -/
def applyAll : Symbol := ⟨.hot, "Apply"⟩

/-- Application of a function to some of its arguments. -/
def applyPart : Symbol := ⟨.hot, "PartialApply"⟩

/-- Evaluation of a deferred application. -/
def call : Symbol := ⟨.hot, "Call"⟩

/-- Matching of a value against patterns. -/
def matching : Symbol := ⟨.hot, "Match"⟩

/-- Equality and the logical connectives. -/
def booleans : Symbol := ⟨.hot, "Booleans"⟩

/-- The assertion that a type is true. -/
def expect : Symbol := ⟨.prelude, "Expect"⟩

end Symbol

end TypeForge
