import ScriptVm.Machine.NamedArgs
import ScriptVm.Machine.Natives

/-!
# Calls

A call finds its callee below its arguments on the stack. Functions of the language get a frame
and run later; native functions and builtin methods run at once and leave their result in place
of callee and arguments; a class makes an instance and hands it to its constructor.

A call is refused before any frame is made.
-/

set_option autoImplicit false

namespace ScriptVm.Exec

/-- Begins a call. -/
def pushFrame (f : Frame) : Exec Unit := do
  let m ← get
  if m.config.maxFrames ≤ m.frames.length then fail .stackOverflow
  else
    note .trace fun _ =>
      "enter " ++ (m.protoOf f).title ++ " depth=" ++ Text.ofNat (m.frames.length + 1)
    modify fun m => { m with frames := { f with iterBase := m.iterations.length } :: m.frames }

/-- Calls a function whose callee slot and `argc` arguments are on top of the stack. Optional
parameters that were not given are null. -/
def callClosure (r : Ref .closure) (argc : Nat) (isConstructor : Bool) : Exec Unit := do
  let p := ((← heap).closures.get r).proto
  let total := p.totalParams
  if argc < p.arity || total < argc then fail (.wrongArity total argc)
  else
    modify fun m => { m with stack := m.stack ++ Array.replicate (total - argc) .null }
    let m ← get
    if m.config.maxStack < m.stack.size then fail .stackOverflow
    else pushFrame { closure := r, base := m.stack.size - total - 1, isConstructor }

/-- Calls a native function. The receiver of a method is its first argument. -/
def callNative (r : Ref .native) (argc : Nat) (withReceiver : Bool) : Exec (Option Reentry) := do
  let native := (← heap).natives.get r
  if native.arity.any (· ≠ argc) then fail (.wrongArity (native.arity.getD 0) argc)
  else
    let args ← popMany argc
    let receiver ← pop
    match ← runNative native.body (if withReceiver then receiver :: args else args) with
    | .value v =>
      push v
      return none
    | .reenter r => return some r

/-- Makes an instance in place of its class and calls the constructor. -/
def instantiate (r : Ref .cls) (argc : Nat) : Exec Unit := do
  let object ← withWorld fun w => w.newObject r
  setSlot ((← get).stack.size - argc - 1) (.object object)
  match (← heap).findConstructor r with
  | some init => callClosure init argc true
  | none => if 0 < argc then fail (.wrongArity 0 argc) else return

/-- The prototype whose parameter names a callee offers. -/
def targetProto (h : Heap) : Value → Option Proto
  | .closure r => some (h.closures.get r).proto
  | .bound r =>
    match (h.bounds.get r).target with
    | .closure f => some (h.closures.get f).proto
    | .native _ => none
  | .cls r => (h.findConstructor r).map fun f => (h.closures.get f).proto
  | _ => none

/-- Puts named arguments into the order of the parameters and gives the number of arguments. -/
def reorder (callee : Value) (argc : Nat) : Exec Nat := do
  let window ← peekMany argc
  if window.any Value.isNamedArg then
    match targetProto (← heap) callee with
    | none => fail (.namedUnsupported ((← get).typeName callee))
    | some p =>
      let start := (← get).stack.size - argc
      match NamedArgs.arrange p.params window with
      | .ok args =>
        modify fun m => { m with stack := m.stack.shrink start ++ args.toArray }
        return args.length
      | .error c =>
        modify fun m =>
          { m with stack := m.stack.shrink start ++ (NamedArgs.vacatedWindow window).toArray }
        fail c
  else return argc

/-- Calls the value below the top `argc` values. A native function may ask for another call
before it is done. -/
def call (argc : Nat) : Exec (Option Reentry) := do
  let callee ← peek argc
  let argc ← reorder callee argc
  match callee with
  | .closure r =>
    callClosure r argc false
    return none
  | .native r => callNative r argc false
  | .cls r =>
    instantiate r argc
    return none
  | .bound r =>
    let b := (← heap).bounds.get r
    setSlot ((← get).stack.size - argc - 1) b.receiver
    match b.target with
    | .closure f =>
      callClosure f argc false
      return none
    | .native f => callNative f argc true
  | .method r =>
    let method := (← heap).methods.get r
    let args ← popMany argc
    let _ ← pop
    push (← callMethod method.receiver method.name args)
    return none
  | _ => fail .notCallable

/-- Makes an instance of the class below the top `argc` values. -/
def new (argc : Nat) : Exec Unit := do
  match ← peek argc with
  | .cls r => instantiate r (← reorder (.cls r) argc)
  | v => fail (.notAClass ((← get).typeName v))

end ScriptVm.Exec
