import TypeForge.Disk.Path

/-!
# File systems

A file system is a tree of directories and files, with a working directory from which
relative paths start.  There are no links, so every place has one name: the list of
names that lead to it from the root.
-/

namespace TypeForge

/-- Why a file cannot be read or written. -/
inductive IoError where
  | notFound
  | notADirectory
  | isADirectory
  | notUtf8
deriving DecidableEq

/-- The text of an error. -/
def IoError.message : IoError → String
  | notFound => "No such file or directory (os error 2)"
  | notADirectory => "Not a directory (os error 20)"
  | isADirectory => "Is a directory (os error 21)"
  | notUtf8 => "stream did not contain valid UTF-8"

/-- A file with its contents and modification time, or a directory with its entries in the
order in which they are listed. -/
inductive Entry where
  | file (contents : ByteArray) (modified : Nat)
  | dir (entries : List (String × Entry))

namespace Entry

/-- The entry that the given names lead to. -/
def get? : List String → Entry → Option Entry
  | [], e => some e
  | name :: names, dir entries =>
    match entries.lookup name with
    | some e => get? names e
    | none => none
  | _ :: _, file .. => none

/-- Replaces the entry of the given name, or adds it behind the others. -/
def putNamed (name : String) (new : Entry) : List (String × Entry) → List (String × Entry)
  | [] => [(name, new)]
  | (n, e) :: entries =>
    if n = name then (name, new) :: entries else (n, e) :: putNamed name new entries

/-- Puts an entry where the given names lead to, making directories on the way. -/
def setAt (new : Entry) : List String → Entry → Entry
  | [], _ => new
  | name :: names, dir entries =>
    dir (putNamed name (setAt new names ((entries.lookup name).getD (dir []))) entries)
  | _ :: _, file contents modified => file contents modified

/-- Removes the entry that the given names lead to; the root stays. -/
def eraseAt : List String → Entry → Entry
  | [], e => e
  | [name], dir entries => dir (entries.filter fun entry => entry.1 != name)
  | name :: names, dir entries =>
    dir (entries.map fun entry =>
      if entry.1 = name then (name, eraseAt names entry.2) else entry)
  | _ :: _, file contents modified => file contents modified

/-- All files of a list of directory entries, with the paths that lead to them from the
directory `base`. -/
def filesBelow (base : List String) : List (String × Entry) → List (List String × ByteArray)
  | [] => []
  | (name, file contents _) :: entries => (base ++ [name], contents) :: filesBelow base entries
  | (name, dir inner) :: entries => filesBelow (base ++ [name]) inner ++ filesBelow base entries

end Entry

/-- A file system and the working directory in it. -/
structure Disk where
  tree : Entry
  cwd : List String

namespace Disk

/-- The file system that consists of an empty working directory. -/
def empty : Disk := ⟨.dir [], []⟩

/-- The entries of the directory at a place. -/
def entriesAt (disk : Disk) (place : List String) :
    Except IoError (List (String × Entry)) :=
  match disk.tree.get? place with
  | some (.dir entries) => .ok entries
  | some (.file ..) => .error .notADirectory
  | none => .error .notFound

/-- Where a segment of a path leads to from a directory. -/
def step (place : List String) (segment : String) : List String :=
  if segment = "" ∨ segment = "." then place
  else if segment = ".." then place.dropLast
  else place ++ [segment]

/-- Follows segments from a place; every place that is left has to be a directory. -/
def follow (disk : Disk) (place : List String) : List String → Except IoError (List String)
  | [] => .ok place
  | segment :: segments => do
    let _ ← disk.entriesAt place
    follow disk (step place segment) segments

/-- Where a path starts. -/
def origin (disk : Disk) (p : Path) : List String := if p.isAbsolute then [] else disk.cwd

/-- The place that a path leads to; there may be nothing at that place. -/
def locate (disk : Disk) (p : Path) : Except IoError (List String) :=
  if p.text = "" then .error .notFound else disk.follow (disk.origin p) p.segments

/-- What a path leads to. -/
def entry (disk : Disk) (p : Path) : Except IoError Entry := do
  match disk.tree.get? (← disk.locate p) with
  | some e => return e
  | none => throw .notFound

/-- Whether a path leads to a file. -/
def isFile (disk : Disk) (p : Path) : Bool :=
  match disk.entry p with
  | .ok (.file ..) => true
  | _ => false

/-- The entries of the directory that a path leads to. -/
def entries (disk : Disk) (p : Path) : Except IoError (List (String × Entry)) := do
  disk.entriesAt (← disk.locate p)

/-- The text of the file that a path leads to. -/
def readText (disk : Disk) (p : Path) : Except IoError String := do
  match ← disk.entry p with
  | .dir _ => throw .isADirectory
  | .file contents _ =>
    match String.fromUTF8? contents with
    | some text => return text
    | none => throw .notUtf8

/-- The modification time of the file that a path leads to. -/
def modified? (disk : Disk) (p : Path) : Option Nat :=
  match disk.entry p with
  | .ok (.file _ modified) => some modified
  | _ => none

/-- Puts an entry at a place. -/
def setAt (disk : Disk) (place : List String) (new : Entry) : Disk :=
  { disk with tree := Entry.setAt new place disk.tree }

/-- Writes a file into an existing directory.  Nothing asks for the modification time of
what was generated, so it is zero. -/
def writeText (disk : Disk) (p : Path) (text : String) : Except IoError Disk := do
  let place ← disk.locate p
  match disk.tree.get? place with
  | some (.dir _) => throw .isADirectory
  | _ => return disk.setAt place (.file text.toUTF8 0)

/-! ## Changes from outside -/

/-- The place that a path leads to if directories are made on the way. -/
def placeOf (disk : Disk) (p : Path) : List String := p.segments.foldl step (disk.origin p)

/-- Writes a file and makes the directories it needs. -/
def put (disk : Disk) (p : Path) (contents : ByteArray) (modified : Nat) : Disk :=
  disk.setAt (disk.placeOf p) (.file contents modified)

/-- Makes a directory, and those it needs, unless it is there. -/
def makeDir (disk : Disk) (p : Path) : Disk :=
  match disk.tree.get? (disk.placeOf p) with
  | some _ => disk
  | none => disk.setAt (disk.placeOf p) (.dir [])

/-- Sets the modification time of a file. -/
def touch (disk : Disk) (p : Path) (modified : Nat) : Except IoError Disk := do
  match ← disk.entry p with
  | .dir _ => return disk
  | .file contents _ => return disk.setAt (← disk.locate p) (.file contents modified)

/-- Removes a file, or a directory with everything in it. -/
def remove (disk : Disk) (p : Path) : Except IoError Disk := do
  let _ ← disk.entry p
  return { disk with tree := disk.tree.eraseAt (← disk.locate p) }

/-- The files below the working directory that have the given extension, with their paths
from there. -/
def filesWith (disk : Disk) (extension : String) : List (Path × ByteArray) :=
  match disk.entriesAt disk.cwd with
  | .error _ => []
  | .ok entries =>
    ((Entry.filesBelow [] entries).map fun file => (⟨"/".intercalate file.1⟩, file.2)).filter
      fun file => Path.extension? file.1 == some extension

end Disk

end TypeForge
