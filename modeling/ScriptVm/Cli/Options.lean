import ScriptVm.Logging
import ScriptVm.Machine.State

/-!
# Command line options

Arguments are read from left to right. Some end the reading at once: the requests for help and
for the list of samples, and everything that cannot be understood.
-/

set_option autoImplicit false

namespace ScriptVm.Cli

/-- What to run, and how. -/
structure Options where
  config : Config := {}
  /-- Whether to print the bytecode of a sample before it runs. -/
  listing : Bool := false
  /-- Whether to print the statistics of the inline caches. -/
  stats : Bool := false
  level : Level := .warn
  logFiles : List Text := []
  samples : List Text := []

/-- What the arguments ask for. -/
inductive Request where
  | run (o : Options)
  | listSamples
  | help
  /-- The arguments are refused with a message, which the help may follow. -/
  | refuse (message : Text) (withHelp : Bool)

/-- The rest of `t` behind `start`, if it begins with `start`. -/
def behind? (start t : Text) : Option Text :=
  if start.isPrefixOf t then some (t.drop start.length) else none

/-- The path of an argument that names a log file. -/
def logFile? (arg : Text) : Option Text := behind? "--log-file=" arg

/-- Reads one argument: the options with it, or the request that it makes at once. -/
def readArgument (canOpen : Text → Bool) (o : Options) (arg : Text) : Options ⊕ Request :=
  if arg = Text.ofString "--disassemble" then .inl { o with listing := true }
  else if arg = Text.ofString "--no-ic" then
    .inl { o with config := { o.config with useCaches := false } }
  else if arg = Text.ofString "--quiet" then
    .inl { o with config := { o.config with echoPrint := false } }
  else if arg = Text.ofString "--stats" then .inl { o with stats := true }
  else match behind? "--log-level=" arg with
    | some name =>
      match Level.ofText? name with
      | some level => .inl { o with level }
      | none => .inr (.refuse ("Unknown log level: " ++ name ++ "\n") false)
    | none =>
      match logFile? arg with
      | some path =>
        if canOpen path then .inl { o with logFiles := o.logFiles ++ [path] }
        else .inr (.refuse ("Cannot open log file: " ++ path ++ "\n") false)
      | none =>
        if arg = Text.ofString "--list" then .inr .listSamples
        else if arg = Text.ofString "--help" || arg = Text.ofString "-h" then .inr .help
        else if arg.head? = some 45 then .inr (.refuse ("Unknown option: " ++ arg ++ "\n") true)
        else .inl { o with samples := o.samples ++ [arg] }

/-- Reads the arguments. `canOpen` tells which log files can be written. -/
def readArguments (canOpen : Text → Bool) (o : Options) : List Text → Request
  | [] => .run o
  | arg :: rest =>
    match readArgument canOpen o arg with
    | .inl o => readArguments canOpen o rest
    | .inr request => request

/-- The log files that are opened while the arguments are read. -/
def openedFiles (canOpen : Text → Bool) (o : Options) : List Text → List Text
  | [] => []
  | arg :: rest =>
    (logFile? arg).toList ++
      match readArgument canOpen o arg with
      | .inl o => openedFiles canOpen o rest
      | .inr _ => []

/-- The help text. -/
def helpText (program : Text) : Text :=
  "Usage: " ++ program ++ " [options] [sample...]\n"
    ++ "  --disassemble       Print bytecode before running\n"
    ++ "  --no-ic             Disable inline caches\n"
    ++ "  --quiet             Do not echo print output\n"
    ++ "  --stats             Print inline cache counters\n"
    ++ "  --log-level=LEVEL   trace, debug, info, warn, error, off\n"
    ++ "  --log-file=PATH     Also append log records to PATH\n"
    ++ "  --list              List the bundled samples\n"

end ScriptVm.Cli
