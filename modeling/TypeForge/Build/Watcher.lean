import TypeForge.Build.Sources

/-!
# Watching sources

A watcher remembers the modification time of every source.  A poll reports the sources
that are new or have another time than remembered; it forgets those that are gone, so
that they are new when they come back.
-/

namespace TypeForge

/-- The path that is watched, and the sources seen there with their modification times. -/
structure Watcher where
  root : Path
  seen : List (Path × Nat)

namespace Watcher

/-- The sources at a path with their modification times. -/
def timesAt (disk : Disk) (root : Path) : Except IoError (List (Path × Nat)) := do
  return (← disk.sources root).filterMap fun source =>
    (disk.modified? source).map fun modified => (source, modified)

/-- Whether a source is new or has another modification time than remembered. -/
def isChanged (w : Watcher) (source : Path × Nat) : Bool :=
  w.seen.lookup source.1 != some source.2

/-- The changed sources, and the watcher that has seen them. -/
def poll (w : Watcher) (disk : Disk) : Except IoError (List Path × Watcher) := do
  let times ← timesAt disk w.root
  return ((times.filter w.isChanged).map Prod.fst, { w with seen := times })

/-- A watcher that has seen everything that is there. -/
def start (disk : Disk) (root : Path) : Except IoError Watcher := do
  let (_, w) ← poll ⟨root, []⟩ disk
  return w

end Watcher

end TypeForge
