import TypeForge.CommandLine.Run

/-!
# The command

Reads the part of the file system that the arguments name, runs the command on it, and
carries out what it did.  In watch mode it goes on and compiles what changes.
-/

namespace TypeForge

/-- Reads a file, or a directory without the directories that are not searched.  Only sources
are read; other files stay empty. -/
partial def readEntry (path : String) : IO Entry := do
  let place := (← IO.currentDir) / path
  if ← place.isDir then
    let names : List String := (← place.readDir).toList.map (·.fileName)
    let entries ← names.filterMapM fun (name : String) => do
      let inner := (place / name).toString
      if isSkipped name && (← (place / name).isDir) then return none
      else return some (name, ← readEntry inner)
    return .dir entries
  else
    let time := (← place.metadata).modified
    let contents ← if (⟨path⟩ : Path).isSource then IO.FS.readBinFile place else pure .empty
    return .file contents (time.sec.toNat * 1000000000 + time.nsec.toNat)

/-- The paths that a path leads through, itself included. -/
def waypoints (path : Path) : List Path :=
  let segments := path.segments
  (List.range segments.length).map fun n => ⟨"/".intercalate (segments.take (n + 1))⟩

/-- Adds what stands at a path, without what is in it. -/
def withPlace (disk : Disk) (path : Path) : IO Disk := do
  let place := (← IO.currentDir) / path.text
  if ← place.isDir then return disk.makeDir path
  else if ← place.pathExists then return disk.put path .empty 0
  else return disk

/-- The part of the file system that a path leads to, around the working directory. -/
def snapshot (path : Path) : IO Disk := do
  let here ← IO.currentDir
  let cwd := ((⟨here.toString⟩ : Path).segments).filter (· ≠ "")
  let disk ← (waypoints path).foldlM withPlace ⟨Entry.setAt (.dir []) cwd (.dir []), cwd⟩
  if ← (here / path.text).pathExists then
    return disk.setAt (disk.placeOf path) (← readEntry path.text)
  else
    return disk

/-- Prints the log of a run and what it has to show, and writes the files it wrote. -/
def perform (outcome : Outcome) : IO Unit := do
  for path in outcome.written do
    if let .ok text := outcome.disk.readText path then
      IO.FS.writeFile path.text text
  for line in outcome.logs do
    IO.println line.render
  IO.print outcome.stdout
  if let error :: causes := outcome.errors then
    IO.eprintln ("Error: " ++ error)
    for cause in causes do
      IO.eprintln ("  caused by: " ++ cause)
  (← IO.getStdout).flush

/-- Compiles what changes, for ever. -/
partial def watch (options : Options) (watcher : Watcher) : IO Unit := do
  IO.sleep options.pollInterval.toUInt32
  let disk ← snapshot options.path
  match watcher.poll disk with
  | .error e =>
    let line := "failed to scan " ++ options.path.text ++ ": " ++ e.message
    perform ⟨0, "", [⟨.warn, line⟩], [], [], disk⟩
    watch options watcher
  | .ok (changed, watcher') =>
    let (results, disk') := disk.buildAll options.target changed
    let written := results.filterMap fun result => result.2.toOption
    let logs := compileLogs disk options.target options.isDebug results
    perform ⟨0, "", logs, [], written, disk'⟩
    watch options watcher'

/-- Runs the command and yields its exit status. -/
def command (args : List String) : IO UInt32 := do
  match Invocation.ofArgs (← IO.getEnv "TARTAK_TARGET") args with
  | .run options =>
    let disk ← snapshot options.path
    let outcome := options.run disk
    perform outcome
    if options.isWatching && outcome.exitCode == 0 && options.emit == .code then
      perform ⟨0, "", [⟨.info, "watching " ++ options.path.text ++ " for changes"⟩], [], [], disk⟩
      if let .ok watcher := Watcher.start (← snapshot options.path) options.path then
        watch options watcher
    return outcome.exitCode.toUInt32
  | invocation =>
    let outcome := invocation.outcome Disk.empty
    perform outcome
    return outcome.exitCode.toUInt32

end TypeForge

/-- The command line program. -/
def main (args : List String) : IO UInt32 := TypeForge.command args
