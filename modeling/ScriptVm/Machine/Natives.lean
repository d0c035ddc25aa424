import ScriptVm.Machine.Methods
import ScriptVm.Machine.Throwing

/-!
# What native functions do

A native function gives a value, fails, or asks for a call back into the machine. When such a
call has ended, its `Callback` says what the native function makes of the result. A function of the
host's own is left to the host, which may ask for any number of calls before it is done.
-/

set_option autoImplicit false

namespace ScriptVm

/-- How a native function goes on after its call back into the machine. -/
inductive Callback where
  /-- Gives the result, and fails if the call failed. -/
  | apply
  /-- Gives the result, or the kind and message of the error. -/
  | attempt
  /-- Gives the result, or the text of the error. -/
  | callName
  deriving Repr, DecidableEq, Inhabited

/-- A call of a function of the host's own, with what its calls back into the machine have come to
so far, the latest first. -/
structure HostCall where
  function : Nat
  args : List Value
  answers : List (Except RuntimeError Value) := []
  deriving Inhabited

/-- The call after one more answer. -/
def HostCall.answered (c : HostCall) (answer : Except RuntimeError Value) : HostCall :=
  { c with answers := answer :: c.answers }

/-- What a native function leaves to the machine. -/
inductive Reentry where
  /-- A call of a value. -/
  | call (callback : Callback) (callee : Value) (args : List Value)
  /-- Asking the host, whose own function it is. -/
  | own (c : HostCall)
  deriving Inhabited

/-- What a native function comes to. -/
inductive NativeAnswer where
  | value (v : Value)
  | reenter (r : Reentry)
  deriving Inhabited

namespace Exec

/-- A native function fails with a message, which ends at a zero byte. -/
def nativeFail {α : Type} (message : Text) : Exec α := fail (.general message.beforeNul)

def expectObject (v : Value) : Exec (Ref .object) :=
  match v with
  | .object r => return r
  | _ => nativeFail "instance expected"

def expectClass (v : Value) : Exec (Ref .cls) :=
  match v with
  | .cls r => return r
  | _ => nativeFail "class expected"

def expectString (v : Value) : Exec Text :=
  match v with
  | .str t => return t
  | _ => nativeFail "string expected"

/-- The methods and fields that a class declares itself. -/
def classMembers (r : Ref .cls) : Exec Value := do
  let c := (← heap).classes.get r
  let fields ← c.fields.mapM fun d => newArray [.str d.name, d.initial, .bool d.isConst]
  newArray ((Text.sorted c.methods.keys).map .str ++ fields)

/-- The position that `raise` gives its error. -/
def raiseSpan : Span := ⟨77, 5⟩

/-- Looks a global up for `call_name`. An undefined global is recorded as an error. -/
def callNamed (name : Text) (args : List Value) : Exec NativeAnswer := do
  let m ← get
  match m.globals.get? name with
  | some callee => return .reenter (.call .callName callee args)
  | none =>
    let e : RuntimeError := ⟨.undefinedVariable name, m.span⟩
    modify fun m => m.recordError e
    return .value (.str e.report)

/-- A native function that needs no call back. -/
def plainNative (body : NativeBody) (args : List Value) : Exec Value := do
  let m ← get
  let first := args.headD .null
  let second := args.getD 1 .null
  match body with
  | .depth => return countValue m.frames.length
  | .stack => return countValue m.stack.size
  | .count => return countValue args.length
  | .args => newArray args
  | .pair => newArray args
  | .id => return first
  | .fail => nativeFail (m.text first)
  | .raise => throw (.error ⟨.typeError (m.text first), raiseSpan⟩)
  | .type => return .str (m.typeName first)
  | .text => return .str (m.text first)
  | .truthy => return .bool (m.isTruthy first)
  | .same => return .bool (Heap.same first second)
  | .shape => return countValue (m.heap.objects.get (← expectObject first)).fields.shape
  | .sealShape =>
    let shape := (m.heap.objects.get (← expectObject first)).fields.shape
    modify fun m => { m with world := { m.world with shapes := m.world.shapes.sealShape shape } }
    return .null
  | .field =>
    let r ← expectObject first
    return (m.world.namedField r (← expectString second)).getD (.str "<none>")
  | .table => return countValue (m.heap.classes.get (← expectClass first)).tableId
  | .superOf => return .superOf (← expectClass first)
  | .isSubclass =>
    let r ← expectClass first
    return .bool (m.heap.isSubclass r (← expectClass second))
  | .members => classMembers (← expectClass first)
  | .valueMethod =>
    let name ← expectString second
    withHeap fun h => h.allocMethod ⟨first, name⟩
  | .clearCaches =>
    modify fun m => { m with world := { m.world with caches := m.world.caches.clear } }
    return .null
  | _ => return .null

/-- Runs a native function. -/
def runNative (body : NativeBody) (args : List Value) : Exec NativeAnswer := do
  match body with
  | .apply =>
    match args with
    | [] => nativeFail "callee expected"
    | callee :: rest => return .reenter (.call .apply callee rest)
  | .attempt =>
    match args with
    | [] => nativeFail "callee expected"
    | callee :: rest => return .reenter (.call .attempt callee rest)
  | .callName =>
    match args with
    | [] => nativeFail "string expected"
    | v :: rest => callNamed (← expectString v) rest
  | .own function => return .reenter (.own { function, args })
  | body => return .value (← plainNative body args)

/-- What a native function makes of the error of its call. -/
def callbackError (c : Callback) (e : RuntimeError) : Exec Value :=
  match c with
  | .apply => nativeFail ("callback failed: " ++ e.message)
  | .attempt => newArray [.str e.cause.kind, .str e.message]
  | .callName => return .str e.report

end Exec

end ScriptVm
