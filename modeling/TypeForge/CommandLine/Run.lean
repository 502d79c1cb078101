import TypeForge.Ast.Outline
import TypeForge.Build.Files
import TypeForge.Build.Watcher
import TypeForge.CommandLine.Options
import TypeForge.Text.Terminal
import TypeForge.Token.Listing

/-!
# Runs

What a run prints, logs and writes, as a function of the file system.
-/

namespace TypeForge

/-- How important a log line is. -/
inductive LogLevel where
  | debug
  | info
  | warn
  | error
deriving DecidableEq

/-- The name of a level in logs. -/
def LogLevel.name : LogLevel → String
  | debug => "DEBUG"
  | info => "INFO"
  | warn => "WARN"
  | error => "ERROR"

/-- A line of the log. -/
structure LogLine where
  level : LogLevel
  message : String
deriving DecidableEq

/-- The text of a log line.  Messages name files, and a file name may hold anything, so a
message is written for terminals. -/
def LogLine.render (line : LogLine) : String :=
  line.level.name ++ " " ++ Text.forTerminal line.message

/-- What a run leaves behind. -/
structure Outcome where
  exitCode : Nat
  stdout : String
  logs : List LogLine
  /-- The error that ended the run and its causes, the outermost first. -/
  errors : List String
  /-- The files that were written. -/
  written : List Path
  disk : Disk

namespace Outcome

/-- A run that ends with an error and does nothing else. -/
def failed (disk : Disk) (errors : List String) : Outcome := ⟨1, "", [], errors, [], disk⟩

/-- A run that only prints. -/
def printed (disk : Disk) (text : String) : Outcome := ⟨0, text, [], [], [], disk⟩

/-- A run whose arguments are wrong. -/
def invalid (disk : Disk) : Outcome := ⟨2, "", [], [], [], disk⟩

end Outcome

/-! ## Logs -/

/-- What is logged about the compilation of a source text when debugging. -/
def debugLines (target : Target) (source : String) : List LogLine :=
  match parseProgram source with
  | .error _ => []
  | .ok program =>
    ⟨.debug, "generating program target_env=\"" ++ target.name ++ "\" items="
      ++ toString program.body.length⟩ ::
    match program.generate with
    | .error _ => []
    | .ok code =>
      [⟨.debug, "generated program lifted=" ++ toString code.lifted.length ++ " bytes="
        ++ toString (code.render target).utf8ByteSize⟩]

/-- What is logged about a source. -/
def resultLine : Path × Except FileError Path → LogLine
  | (source, .ok output) => ⟨.info, "compiled " ++ source.text ++ " to " ++ output.text⟩
  | (source, .error e) =>
    ⟨.error, "failed to compile " ++ source.text ++ ": " ++ e.fullMessage⟩

/-- What is logged about the compilation of sources. -/
def compileLogs (disk : Disk) (target : Target) (isDebug : Bool)
    (results : List (Path × Except FileError Path)) : List LogLine :=
  results.flatMap fun result =>
    (match isDebug, disk.readText result.1 with
      | true, .ok text => debugLines target text
      | _, _ => []) ++ [resultLine result]

namespace Options

/-- A run that shows a source in another form. -/
def showSource (o : Options) (disk : Disk) : Outcome :=
  if !disk.isFile o.path then
    .failed disk ["--emit " ++ o.emit.name ++ " needs a single source file"]
  else
    match disk.readText o.path with
    | .error cause => .failed disk [cause.message]
    | .ok text =>
      match o.emit with
      | .ast =>
        match parseProgram text with
        | .error e => .failed disk [e.render SyntaxError.message]
        | .ok program => .printed disk program.outline
      | _ => .printed disk (tokenListing text)

/-- A run that compiles sources. -/
def compileSources (o : Options) (disk : Disk) : Outcome :=
  match disk.sources o.path with
  | .error cause => .failed disk [cause.message]
  | .ok sources =>
    let (results, disk') := disk.buildAll o.target sources
    let summary := Summary.ofResults results
    let logs :=
      ⟨.info, "compiling " ++ toString sources.length ++ " source(s) for " ++ o.target.name⟩ ::
      compileLogs disk o.target o.isDebug results ++
      [⟨.info, toString summary.compiled ++ " compiled, " ++ toString summary.failed ++ " failed"⟩]
    let written := results.filterMap fun result => result.2.toOption
    if summary.failed = 0 ∨ o.isWatching then
      ⟨0, "", logs, [], written, disk'⟩
    else
      ⟨1, "", logs, [toString summary.failed ++ " source(s) failed to compile"], written, disk'⟩

/-- A run with the given options. -/
def run (o : Options) (disk : Disk) : Outcome :=
  match disk.entry o.path with
  | .error cause => .failed disk ["can't read " ++ o.path.text, cause.message]
  | .ok _ =>
    if disk.isFile o.path && !o.path.isSource then
      .failed disk
        ["invalid file extension, only ." ++ Path.sourceExtension ++ " files can be compiled"]
    else if o.emit ≠ .code then o.showSource disk
    else o.compileSources disk

end Options

/-- The name and version of the command. -/
def versionText : String := "tartakc 0.0.1\n"

/-- What an invocation leaves behind. -/
def Invocation.outcome (disk : Disk) : Invocation → Outcome
  | .run options => options.run disk
  | .version => .printed disk versionText
  | .help => .printed disk ""
  | .invalid => .invalid disk

/-- A run with the given arguments. -/
def runCommand (environment : Option String) (args : List String) (disk : Disk) : Outcome :=
  (Invocation.ofArgs environment args).outcome disk

end TypeForge
