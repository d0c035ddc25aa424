import ScriptVm.Machine.Cells

/-!
# Throwing and recording errors

A thrown value goes to the innermost protected region of the current run; regions that an
enclosing run opened are out of its reach. Without a region it becomes a general error.

An error that leaves a run is recorded with the calls that were under way.
-/

set_option autoImplicit false

namespace ScriptVm

namespace Machine

/-- The name of a call in a stack trace. -/
def traceName (c : Closure) : Text :=
  if c.proto.name.isEmpty then "<script>"
  else if c.home.isEmpty then c.proto.name
  else c.home ++ "." ++ c.proto.name

/-- The calls under way, innermost first. -/
def trace (m : Machine) : List TraceEntry :=
  m.frames.map fun f => { function := traceName (m.heap.closures.get f.closure), line := m.lineOf f }

/-- Records an error. -/
def recordError (m : Machine) (e : RuntimeError) : Machine :=
  { m with diagnostics := m.diagnostics.push { error := e, trace := m.trace } }

/-- The message of a thrown value: a text itself, the field `message` of an instance, and else
the text of the value. -/
def thrownMessage (m : Machine) : Value → Text
  | .str t => t
  | .object r =>
    match m.world.namedField r "message" with
    | some v => m.text v
    | none => m.text (.object r)
  | v => m.text v

/-- Continues in a protected region, with the thrown value on the stack. -/
def enterCatch (m : Machine) (h : Handler) (v : Value) : Machine :=
  let m := (m.endFrames h.frameDepth m.frames).closeCells h.stackDepth
  { m with
    stack := (resized m.stack h.stackDepth).push v
    iterations := truncated m.iterations h.iterDepth
    frames := match m.frames with
      | [] => []
      | f :: rest => { f with ip := h.catchIp } :: rest
    lastUnwind := some h }

/-- The region that a throw reaches, and the regions outside it. -/
def reachable? (m : Machine) : Option (Handler × List Handler) :=
  match m.handlers with
  | h :: rest => if m.runBase < h.frameDepth then some (h, rest) else none
  | [] => none

end Machine

namespace Exec

/-- Throws a value. -/
def throwValue (v : Value) : Exec Unit := do
  let m ← get
  match m.reachable? with
  | some (h, rest) =>
    let before := m.frames.length
    modify fun m => { m with handlers := rest }.enterCatch h v
    let after := (← get).frames.length
    note .debug fun _ =>
      "unwound " ++ Text.ofNat (before - after) ++ " frame(s) to catch at ip " ++ Text.ofNat h.catchIp
  | none =>
    let message := m.thrownMessage v
    note .warn fun _ => "uncaught throw: " ++ message
    fail (.general message)

end Exec

end ScriptVm
