import TypeForge.Disk.Path
import TypeForge.Library

/-!
# Command line arguments

Arguments are read from left to right.  The first one that is wrong makes the command
line invalid, unless the version or the help text was asked for before it.
-/

namespace TypeForge

/-- What a run produces. -/
inductive Emit where
  | code
  | ast
  | tokens
deriving DecidableEq

namespace Emit

/-- The name of a product on the command line. -/
def name : Emit → String
  | code => "code"
  | ast => "ast"
  | tokens => "tokens"

/-- The product of the given name. -/
def ofName? (name : String) : Option Emit :=
  [code, ast, tokens].find? fun emit => emit.name == name

end Emit

/-- What a run is to do. -/
structure Options where
  path : Path
  target : Target
  emit : Emit
  isWatching : Bool
  pollInterval : Nat
  isDebug : Bool
deriving DecidableEq

/-- What a command line asks for. -/
inductive Invocation where
  | run (options : Options)
  | version
  | help
  | invalid
deriving DecidableEq

/-- Why reading arguments ends before the last one. -/
inductive Interruption where
  | version
  | help
  | invalid
deriving DecidableEq

/-- The invocation that an interruption stands for. -/
def Interruption.invocation : Interruption → Invocation
  | version => .version
  | help => .help
  | invalid => .invalid

/-- What the arguments read so far have set. -/
structure Settings where
  path : Option Path := none
  target : Option Target := none
  emit : Option Emit := none
  isWatching : Bool := false
  pollInterval : Option Nat := none
  isDebug : Bool := false
deriving DecidableEq

/-- A natural number below `2 ^ 64` in decimal digits, with a plus sign in front or not. -/
def interval? (text : String) : Option Nat :=
  let digits := match text.toList with
    | '+' :: rest => rest
    | cs => cs
  if digits ≠ [] ∧ digits.all Char.isDigit then
    let n := digits.foldl (fun n c => 10 * n + (c.toNat - '0'.toNat)) 0
    if n < UInt64.size then some n else none
  else none

namespace Settings

variable {α : Type}

/-- Something that may be set once. -/
def once (current : Option α) (new : Option α) : Except Interruption (Option α) :=
  match current, new with
  | none, some a => .ok (some a)
  | _, _ => .error .invalid

/-- Sets the path, which is not empty. -/
def setPath (s : Settings) (text : String) : Except Interruption Settings := do
  let path ← once s.path (if text = "" then none else some ⟨text⟩)
  return { s with path := path }

/-- The options that take a value. -/
inductive Key where
  | target
  | emit
  | pollInterval
deriving DecidableEq

/-- The option that takes a value and has the given name. -/
def Key.ofName? : String → Option Key
  | "target" => some .target
  | "emit" => some .emit
  | "poll-interval-ms" => some .pollInterval
  | _ => none

/-- Sets an option from the text of its value. -/
def setValue (s : Settings) (key : Key) (value : String) : Except Interruption Settings := do
  match key with
  | .target => return { s with target := ← once s.target (Target.ofName? value) }
  | .emit => return { s with emit := ← once s.emit (Emit.ofName? value) }
  | .pollInterval => return { s with pollInterval := ← once s.pollInterval (interval? value) }

/-- Sets an option without a value. -/
def setFlag (s : Settings) (name : String) : Except Interruption Settings :=
  match name with
  | "watch" => if s.isWatching then .error .invalid else .ok { s with isWatching := true }
  | "debug" => if s.isDebug then .error .invalid else .ok { s with isDebug := true }
  | "version" => .error .version
  | "help" => .error .help
  | _ => .error .invalid

/-- What a short option does. -/
def short (c : Char) : Interruption :=
  if c = 'V' then .version else if c = 'h' then .help else .invalid

/-- Whether an argument cannot be the value of the option in front of it. -/
def isOptionLike (arg : String) : Bool :=
  match arg.toList with
  | '-' :: _ :: _ => true
  | _ => false

/-- The name of a long option and the value attached to it. -/
def splitLong (cs : List Char) : String × Option String :=
  let name := String.ofList (cs.takeWhile (· != '='))
  match cs.dropWhile (· != '=') with
  | [] => (name, none)
  | _ :: value => (name, some (String.ofList value))

/-- Reads arguments that are all paths. -/
def readPaths (s : Settings) : List String → Except Interruption Settings
  | [] => .ok s
  | arg :: args => do readPaths (← s.setPath arg) args

/-- Reads arguments. -/
def read (s : Settings) : List String → Except Interruption Settings
  | [] => .ok s
  | arg :: args =>
    match arg.toList with
    | ['-', '-'] => s.readPaths args
    | '-' :: '-' :: cs =>
      match splitLong cs with
      | (name, some value) =>
        match Key.ofName? name with
        | some key => do read (← s.setValue key value) args
        | none => .error .invalid
      | (name, none) =>
        match Key.ofName? name, args with
        | some key, value :: args' =>
          if isOptionLike value then .error .invalid
          else do read (← s.setValue key value) args'
        | some _, [] => .error .invalid
        | none, args => do read (← s.setFlag name) args
    | '-' :: c :: _ => .error (short c)
    | _ => do read (← s.setPath arg) args

/-- The target that is chosen by an option or else by the environment. -/
def chosenTarget (s : Settings) (environment : Option String) : Except Interruption Target :=
  match s.target, environment with
  | some target, _ => .ok target
  | none, none => .ok Target.default
  | none, some name =>
    match Target.ofName? name with
    | some target => .ok target
    | none => .error .invalid

/-- The options of a run, with defaults for what is not set. -/
def options (s : Settings) (target : Target) : Options :=
  ⟨s.path.getD ⟨"."⟩, target, s.emit.getD .code, s.isWatching, s.pollInterval.getD 500, s.isDebug⟩

end Settings

/-- Reads a command line; `environment` is the target chosen by the environment. -/
def Invocation.ofArgs (environment : Option String) (args : List String) : Invocation :=
  let read : Except Interruption Options := do
    let settings ← Settings.read {} args
    return settings.options (← settings.chosenTarget environment)
  match read with
  | .ok options => .run options
  | .error interruption => interruption.invocation

end TypeForge
