import ScriptVm.Bytecode.Listing
import ScriptVm.Cli.Options
import ScriptVm.Cli.Samples
import ScriptVm.Machine.Run

/-!
# The command line program

Runs samples, each in a new machine of one world, and gives the exit status and everything that
was written. An unknown sample and an uncaught error each set the status, and the latest of them
decides.
-/

set_option autoImplicit false

namespace ScriptVm.Cli

/-- What the program's surroundings decide. -/
structure Surroundings where
  /-- The name that the program was called by. -/
  program : Text
  /-- The time stamp of log lines. -/
  clock : Text
  /-- The location in log lines. -/
  here : Text
  /-- Which log files can be written. -/
  canOpen : Text → Bool
  /-- How many moves a sample may take. -/
  fuel : Nat

/-- The exit status and what was written. -/
structure Finished where
  status : Nat
  streams : Streams := {}

/-- The world between two samples, and the status so far. -/
structure Progress where
  world : World
  status : Nat := 0

namespace Progress

/-- Changes what has been written. -/
def write (p : Progress) (f : Streams → Streams) : Progress :=
  let log := p.world.log
  { p with world := { p.world with log := { log with streams := f log.streams } } }

def print (p : Progress) (t : Text) : Progress := p.write fun s => s.print t

def printError (p : Progress) (t : Text) : Progress := p.write fun s => s.printError t

end Progress

/-- A line of a stack trace. -/
def traceText (e : TraceEntry) : Text :=
  "    at " ++ e.function ++ " (line " ++ Text.ofNat e.line ++ ")\n"

/-- A recorded error with its stack trace. -/
def diagnosticText (d : Diagnostic) : Text :=
  d.error.cause.kind ++ ": " ++ d.error.message ++ "\n" ++ d.trace.flatMap traceText

/-- The statistics of the inline caches. -/
def statsText (sample : Text) (s : CacheStats) : Text :=
  "[" ++ sample ++ "] property hits=" ++ Text.ofNat s.propertyHits ++ " misses="
    ++ Text.ofNat s.propertyMisses ++ ", method hits=" ++ Text.ofNat s.methodHits ++ " misses="
    ++ Text.ofNat s.methodMisses ++ "\n"

/-- Reports how a sample ended. -/
def reportOutcome (p : Progress) (sample : Text) (r : Option (Outcome × Machine)) : Progress :=
  match r with
  | none => { p.printError ("[" ++ sample ++ "] did not finish\n") with status := 1 }
  | some (o, m) =>
    let p := { p with world := m.world }
    match o with
    | .value _ => p
    | _ =>
      let p := p.printError ("[" ++ sample ++ "] uncaught error\n")
      { p.printError (m.diagnostics.toList.flatMap diagnosticText) with status := 1 }

/-- Runs one sample. -/
def runBlueprint (fuel : Nat) (o : Options) (p : Progress) (sample : Text) (b : Blueprint) :
    Progress :=
  let log := p.world.log.logDefault .debug ("running sample " ++ sample) p.world.log.here
  let (script, nextProto) := Blueprint.build p.world.nextProto b
  let p := { p with world := { p.world with log, nextProto } }
  let p := if o.listing then p.print (Proto.listing script ++ "\n") else p
  let result := Machine.interpret fuel (Machine.fresh o.config [] p.world) script
  let p := reportOutcome p sample result
  if o.stats then
    p.printError (statsText sample ((result.map fun r => r.2.stats).getD {}))
  else p

/-- Runs the sample of a name. -/
def runSample (fuel : Nat) (o : Options) (p : Progress) (sample : Text) : Progress :=
  match Assoc.find sample samples with
  | some b => runBlueprint fuel o p sample b
  | none => { p.printError ("Unknown sample: " ++ sample ++ "\n") with status := 2 }

/-- Runs the samples that the options name, or all of them. -/
def runSamples (s : Surroundings) (o : Options) : Finished :=
  let sinks := Sink.console true :: o.logFiles.map fun path => Sink.file path []
  let log : Logging :=
    { level := o.level, sinks, started := true, clock := s.clock, here := s.here }
  let chosen := if o.samples.isEmpty then samples.map Prod.fst else o.samples
  let p := chosen.foldl (runSample s.fuel o) { world := { log := log } }
  ⟨p.status, p.world.log.shutdown.streams⟩

/-- The program. -/
def runProgram (s : Surroundings) (args : List Text) : Finished :=
  match readArguments s.canOpen {} args with
  | .run o => runSamples s o
  | .listSamples => ⟨0, { out := (samples.map fun e => e.1 ++ Text.ofString "\n").toArray }⟩
  | .help => ⟨0, { err := #[helpText s.program] }⟩
  | .refuse message withHelp =>
    ⟨2, { err := #[message, if withHelp then helpText s.program else []] }⟩

end ScriptVm.Cli
