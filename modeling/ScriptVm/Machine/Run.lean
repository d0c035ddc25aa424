import ScriptVm.Machine.Instruction

/-!
# Running

A host enters the machine by running a script or by calling a value; a native function enters
it again by calling a value. Each entry that has not ended is a `Pending` call, and the machine
is always busy with the innermost one: executing instructions, beginning a call, asking the host
what a function of its own does, or handing a result or an error to whoever entered.

`Activity.step` makes one such move, and is the whole of the machine's behaviour. `Activity.run`
repeats it as long as the fuel lasts, so an answer never hides a run that was cut short.

What the host's own functions do is up to the `Host`. Without any other, the host is one whose
functions give null.
-/

set_option autoImplicit false

namespace ScriptVm

/-- What a function of the host's own does next. -/
inductive HostMove where
  /-- It returns. -/
  | value (v : Value)
  /-- It fails. -/
  | fail (e : RuntimeError)
  /-- It calls a value. -/
  | callValue (callee : Value) (args : List Value)
  /-- It calls a global. -/
  | callGlobal (name : Text) (args : List Value)
  deriving Inhabited

/-- What the functions of a host do: the next move of a call, and what it makes of the machine before
that move. A function is told of the result or the error of every call that it makes, but not of a
missing constant, which ends all entries at once. -/
class Host where
  act : HostCall → Machine → HostMove × Machine

/-- A host whose functions give null. -/
instance Host.idle : Host := ⟨fun _ m => (.value .null, m)⟩

/-- Who entered the machine. -/
inductive Caller where
  /-- The host, with a script. -/
  | script
  /-- The host, with a call. -/
  | host
  /-- A native function that an instruction called. -/
  | instruction (c : Callback)
  /-- A native function that was itself called by the entry outside. -/
  | entry (c : Callback)
  /-- A function of the host's own, called by the entry outside or by an instruction. -/
  | own (byEntry : Bool) (c : HostCall)
  deriving Inhabited

/-- An entry into the machine that has not ended. -/
structure Pending where
  caller : Caller
  /-- The depths to go back to if the entry fails. -/
  depths : Machine.Depths
  /-- The number of calls that belonged to the enclosing run. -/
  runBase : Nat
  deriving Inhabited

/-- What the machine does next. -/
inductive Control where
  /-- Execute an instruction. -/
  | execute
  /-- Begin the call of the innermost entry. -/
  | invoke (callee : Value) (args : List Value)
  /-- Ask the host how a function of its own goes on, which the innermost entry or an instruction
  called. -/
  | ask (byEntry : Bool) (c : HostCall)
  /-- Hand a result to whoever made the innermost entry. -/
  | deliver (v : Value)
  /-- Hand an error to whoever made the innermost entry. -/
  | raise (e : RuntimeError)
  deriving Inhabited

/-- How an entry of the host ended. -/
inductive Outcome where
  | value (v : Value)
  | error (e : RuntimeError)
  /-- An operand selected a constant past the end of the pool. The machine keeps its stack and
  calls. -/
  | missingConstant
  deriving Inhabited

/-- A machine at work, innermost entry first. -/
structure Activity where
  machine : Machine
  pending : List Pending
  control : Control
  deriving Inhabited

/-- One move: the machine goes on, or the host gets its answer. -/
inductive Move where
  | continue (a : Activity)
  | done (o : Outcome) (m : Machine)
  deriving Inhabited

namespace Activity

/-- The largest number of arguments of a call from outside. -/
def maxArguments : Nat := 255

/-- The number of enclosing calls before the outermost entry. -/
def outerBase (m : Machine) (pending : List Pending) : Nat :=
  match pending.getLast? with
  | some p => p.runBase
  | none => m.runBase

/-- A fault becomes an error for the innermost entry, or ends all entries. -/
def onFault (f : Fault) (m : Machine) (pending : List Pending) : Move :=
  match f with
  | .error e => .continue ⟨m, pending, .raise e⟩
  | .missingConstant => .done .missingConstant { m with runBase := outerBase m pending }

/-- Enters the machine again. -/
def enter (m : Machine) (pending : List Pending) (caller : Caller) (callee : Value) (args : List Value) : Move :=
  .continue ⟨m, ⟨caller, m.depths, m.runBase⟩ :: pending, .invoke callee args⟩

/-- Does what a native function has left to the machine. The innermost entry or an instruction called
the function. -/
def reenter (m : Machine) (pending : List Pending) (r : Reentry) (byEntry : Bool) : Move :=
  match r with
  | .call callback callee args =>
    enter m pending (if byEntry then .entry callback else .instruction callback) callee args
  | .own c => .continue ⟨m, pending, .ask byEntry c⟩

/-- Executes one instruction. -/
def stepExecute (m : Machine) (pending : List Pending) : Move :=
  match (do Exec.execute (← Exec.fetch) : Exec Progress).run m with
  | .ok .next m => .continue ⟨m, pending, .execute⟩
  | .ok (.returned v) m => .continue ⟨m, pending, .deliver v⟩
  | .ok (.reenter r) m => reenter m pending r false
  | .error f m => onFault f m pending

/-- Puts callee and arguments on the stack and begins the call. -/
def beginCall (callee : Value) (args : List Value) : Exec (Option Reentry) := do
  if maxArguments < args.length then Exec.fail (.tooManyArguments args.length)
  else
    modify fun m => { m with stack := m.stack.push callee ++ args.toArray }
    Exec.call args.length

/-- Begins the call of the innermost entry. A callee that got no frame has already left its
result on the stack. -/
def stepInvoke (m : Machine) (pending : List Pending) (callee : Value) (args : List Value) : Move :=
  let depth := m.frames.length
  match (beginCall callee args).run m with
  | .ok none m =>
    if depth < m.frames.length then .continue ⟨{ m with runBase := depth }, pending, .execute⟩
    else
      .continue ⟨{ m with stack := m.stack.pop }, pending, .deliver (m.stack.back?.getD .null)⟩
  | .ok (some r) m => reenter m pending r true
  | .error f m => onFault f m pending

/-- A native function returns to whoever called it. -/
def complete (m : Machine) (pending : List Pending) (byEntry : Bool) (v : Value) : Move :=
  if byEntry then .continue ⟨m, pending, .deliver v⟩
  else .continue ⟨{ m with stack := m.stack.push v }, pending, .execute⟩

/-- A native function gets the result of its entry. -/
def resume (m : Machine) (pending : List Pending) (caller : Caller) (v : Value) : Move :=
  match caller with
  | .instruction _ => complete m pending false v
  | .own byEntry c => .continue ⟨m, pending, .ask byEntry (c.answered (.ok v))⟩
  | _ => complete m pending true v

/-- A function of the host's own makes its next move. A global that is not there is recorded as an
error, and the function is told. -/
def stepAsk [Host] (m : Machine) (pending : List Pending) (byEntry : Bool) (c : HostCall) : Move :=
  match Host.act c m with
  | (.value v, m) => complete m pending byEntry v
  | (.fail e, m) => .continue ⟨m, pending, .raise e⟩
  | (.callValue callee args, m) => enter m pending (.own byEntry c) callee args
  | (.callGlobal name args, m) =>
    match m.globals.get? name with
    | some callee => enter m pending (.own byEntry c) callee args
    | none =>
      let e : RuntimeError := ⟨.undefinedVariable name, m.span⟩
      .continue ⟨m.recordError e, pending, .ask byEntry (c.answered (.error e))⟩

/-- Ends an entry with a result. -/
def stepDeliver (m : Machine) (pending : List Pending) (v : Value) : Move :=
  match pending with
  | [] => .done (.value v) m
  | p :: rest =>
    let m := { m with runBase := p.runBase }
    match p.caller with
    | .script => .done (.value v) { m with stack := #[] }
    | .host => .done (.value v) m
    | .instruction _ => resume m rest p.caller v
    | .entry _ => resume m rest p.caller v
    | .own _ _ => resume m rest p.caller v

/-- A native function deals with the error of its entry. -/
def stepCallbackError (m : Machine) (pending : List Pending) (p : Pending) (c : Callback)
    (e : RuntimeError) : Move :=
  match (Exec.callbackError c e).run ((m.recordError e).unwindTo p.depths) with
  | .ok v m => resume m pending p.caller v
  | .error f m => onFault f m pending

/-- Ends an entry with an error, which is recorded before the calls under way are dropped. -/
def stepRaise (m : Machine) (pending : List Pending) (e : RuntimeError) : Move :=
  match pending with
  | [] => .done (.error e) m
  | p :: rest =>
    let m := { m with runBase := p.runBase }
    match p.caller with
    | .script => .done (.error e) (m.recordError e).reset
    | .host => .done (.error e) ((m.recordError e).unwindTo p.depths)
    | .instruction c => stepCallbackError m rest p c e
    | .entry c => stepCallbackError m rest p c e
    | .own byEntry c =>
      .continue ⟨(m.recordError e).unwindTo p.depths, rest, .ask byEntry (c.answered (.error e))⟩

/-- One move of the machine. -/
def step [Host] (a : Activity) : Move :=
  match a.control with
  | .execute => stepExecute a.machine a.pending
  | .invoke callee args => stepInvoke a.machine a.pending callee args
  | .ask byEntry c => stepAsk a.machine a.pending byEntry c
  | .deliver v => stepDeliver a.machine a.pending v
  | .raise e => stepRaise a.machine a.pending e

/-- Moves until the host gets its answer, at most as often as the fuel says. -/
def run [Host] : Nat → Activity → Option (Outcome × Machine)
  | 0, _ => none
  | fuel + 1, a =>
    match a.step with
    | .continue a => run fuel a
    | .done o m => some (o, m)

end Activity

namespace Machine

/-- A machine with the given native functions as globals. -/
def fresh (config : Config) (natives : List Native) (world : World) : Machine :=
  natives.foldl
    (fun m n =>
      let (v, heap) := m.world.heap.allocNative n
      { m with globals := m.globals.insert n.name v, world := { m.world with heap } })
    { config, world }

/-- Begins to run a script: its function is in slot 0. -/
def startScript (m : Machine) (p : Proto) : Activity :=
  let m := { m.reset with lastUnwind := none }
  let (r, world) := m.world.newClosure p
  let m := { m with stack := #[.closure r], world }
  let entry : Pending := ⟨.script, m.depths, 0⟩
  match (Exec.pushFrame { closure := r }).run m with
  | .ok _ m => ⟨m, [entry], .execute⟩
  | .error (.error e) m => ⟨m, [entry], .raise e⟩
  | .error .missingConstant m => ⟨m, [entry], .execute⟩

/-- Begins to call a value. -/
def startCall (m : Machine) (callee : Value) (args : List Value) : Activity :=
  ⟨m, [⟨.host, m.depths, m.runBase⟩], .invoke callee args⟩

/-- Runs a script from a machine at rest. -/
def interpret [Host] (fuel : Nat) (m : Machine) (p : Proto) : Option (Outcome × Machine) :=
  (m.startScript p).run fuel

/-- Calls a value. If that fails, the machine goes back to where it was before. -/
def callValue [Host] (fuel : Nat) (m : Machine) (callee : Value) (args : List Value) :
    Option (Outcome × Machine) :=
  (m.startCall callee args).run fuel

/-- Calls a global. -/
def callGlobal [Host] (fuel : Nat) (m : Machine) (name : Text) (args : List Value) :
    Option (Outcome × Machine) :=
  match m.globals.get? name with
  | some callee => callValue fuel m callee args
  | none =>
    let e : RuntimeError := ⟨.undefinedVariable name, m.span⟩
    some (.error e, m.recordError e)

end Machine

end ScriptVm
