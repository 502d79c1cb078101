import TypeForge.Build.Sources
import TypeForge.Compile

/-!
# Compiling files

A source is read, compiled and written next to itself.  A source that cannot be read
or compiled leaves the file system as it was, and failures do not stop the other
sources.
-/

namespace TypeForge

/-- Why a source file was not compiled. -/
inductive FileError where
  | unreadable (path : Path) (cause : IoError)
  | rejected (error : CompileError)
  | unwritable (path : Path) (cause : IoError)

namespace FileError

/-- The texts of an error and of its causes, the outermost first. -/
def chain : FileError → List String
  | unreadable p cause => ["failed to read " ++ p.text, cause.message]
  | rejected e => [e.message]
  | unwritable p cause => ["failed to write " ++ p.text, cause.message]

/-- The outermost text of an error. -/
def message (e : FileError) : String := e.chain.headD ""

/-- The texts of an error and of its causes in one line. -/
def fullMessage (e : FileError) : String := ": ".intercalate e.chain

end FileError

namespace Disk

/-- Compiles a source; yields where the code went. -/
def build (disk : Disk) (target : Target) (source : Path) :
    Except FileError Path × Disk :=
  match disk.readText source with
  | .error cause => (.error (.unreadable source cause), disk)
  | .ok text =>
    match compile target text with
    | .error e => (.error (.rejected e), disk)
    | .ok code =>
      match disk.writeText source.output code with
      | .error cause => (.error (.unwritable source.output cause), disk)
      | .ok disk' => (.ok source.output, disk')

/-- Compiles sources in the given order; yields what became of each. -/
def buildAll (disk : Disk) (target : Target) :
    List Path → List (Path × Except FileError Path) × Disk
  | [] => ([], disk)
  | source :: sources =>
    let (result, disk') := disk.build target source
    let (results, disk'') := disk'.buildAll target sources
    ((source, result) :: results, disk'')

end Disk

/-- How many sources were compiled and how many were not. -/
structure Summary where
  compiled : Nat
  failed : Nat
deriving DecidableEq

/-- Whether a source was compiled. -/
def isCompiled (result : Path × Except FileError Path) : Bool := result.2.isOk

/-- Counts what became of sources. -/
def Summary.ofResults (results : List (Path × Except FileError Path)) : Summary :=
  ⟨results.countP isCompiled, results.countP fun result => !isCompiled result⟩

end TypeForge
