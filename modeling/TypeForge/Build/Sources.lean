import TypeForge.Disk

/-!
# Finding sources

The sources of a directory are the source files in it and below it.  Directories that
are hidden or hold foreign or generated files are not searched, except for the one
where the search starts.
-/

namespace TypeForge

/-- Whether a directory of the given name is left out of a search. -/
def isSkipped (name : String) : Bool :=
  name.toList.head? == some '.' || name == "node_modules" || name == "target"

/-- The sources among the entries of the directory `base`, in listing order. -/
def sourcesBelow (base : Path) : List (String × Entry) → List Path
  | [] => []
  | (name, .file ..) :: entries =>
    (if (base.join name).isSource then [base.join name] else []) ++ sourcesBelow base entries
  | (name, .dir inner) :: entries =>
    (if isSkipped name then [] else sourcesBelow (base.join name) inner)
      ++ sourcesBelow base entries

/-- Sorts paths. -/
def sortPaths (paths : List Path) : List Path :=
  paths.mergeSort fun p q => (p.compare q).isLE

/-- The sources at a path: the file itself if it is a source, or the sources of a
directory. -/
def Disk.sources (disk : Disk) (root : Path) : Except IoError (List Path) :=
  if disk.isFile root then
    .ok (if root.isSource then [root] else [])
  else do
    return sortPaths (sourcesBelow root (← disk.entries root))

end TypeForge
