import ScriptVm.Cli.Program

/-!
# The command

The outer layer of the command line program: it opens the log files that the arguments name,
lets `Cli.runProgram` decide everything else, and writes what came of it. Log lines carry the
uptime in milliseconds as their time stamp.
-/

set_option autoImplicit false

namespace ScriptVm.Cli

/-- How many moves a sample may take. -/
def moveLimit : Nat := 1000000000

/-- Opens a file for appending, if that is possible. -/
def openLog (path : Text) : IO (Option IO.FS.Handle) := do
  match String.fromUTF8? ⟨path.toArray⟩ with
  | none => return none
  | some name =>
    try
      return some (← IO.FS.Handle.mk name .append)
    catch _ =>
      return none

/-- Opens files in order, up to the first that cannot be opened. -/
def openLogs : List Text → IO (List (Text × IO.FS.Handle))
  | [] => return []
  | path :: rest => do
    match ← openLog path with
    | some handle => return (path, handle) :: (← openLogs rest)
    | none => return []

/-- Writes to each log file what the program has logged there. -/
def writeLogs (logs : List (Text × IO.FS.Handle)) (s : Streams) : IO Unit := do
  for (path, t) in s.files.entries do
    if let some handle := Assoc.find path logs then handle.write ⟨t.toArray⟩

end ScriptVm.Cli

open ScriptVm in
def main (args : List String) : IO UInt32 := do
  let args := args.map Text.ofString
  let logs ← Cli.openLogs (Cli.openedFiles (fun _ => true) {} args)
  let surroundings : Cli.Surroundings :=
    { program := "quartz_run"
      clock := Text.ofNat (← IO.monoMsNow)
      here := "machine"
      canOpen := fun path => (Assoc.find path logs).isSome
      fuel := Cli.moveLimit }
  let finished := Cli.runProgram surroundings args
  (← IO.getStdout).write ⟨finished.streams.outText.toArray⟩
  (← IO.getStderr).write ⟨finished.streams.errText.toArray⟩
  Cli.writeLogs logs finished.streams
  return UInt32.ofNat finished.status
