import ScriptVm.Error
import ScriptVm.Heap.Rendering
import ScriptVm.Literal

/-!
# The state of the machine

A machine has a stack of values, a stack of calls, the protected regions and iterations that
are open, the captured variables that still live on the stack, globals, and what it has
recorded. Everything else belongs to the world it runs in.

Instructions are computations in `Exec`: they change the machine, and a fault leaves the
machine as it was when the fault arose.
-/

set_option autoImplicit false

namespace ScriptVm

/-- The limits and options of a machine. -/
structure Config where
  /-- The largest number of calls under way. -/
  maxFrames : Nat := 1024
  /-- The largest number of values on the stack when a call begins. -/
  maxStack : Nat := 1048576
  /-- The largest number of items of a range and of bytes of a repeated text. -/
  maxSequence : Nat := 16777216
  useCaches : Bool := true
  /-- Whether printed lines also go to the output stream. -/
  echoPrint : Bool := true
  deriving Repr, DecidableEq, Inhabited

/-- A call under way. -/
structure Frame where
  closure : Ref .closure
  /-- The index of the next instruction. -/
  ip : Nat := 0
  /-- The slot of the callee or receiver; the locals follow it. -/
  base : Nat := 0
  /-- Whether the call gives its receiver instead of its result. -/
  isConstructor : Bool := false
  /-- The number of open iterations when the call began. -/
  iterBase : Nat := 0
  deriving Repr, DecidableEq, Inhabited

/-- An open protected region, with the depths that a throw restores. -/
structure Handler where
  frameDepth : Nat
  stackDepth : Nat
  catchIp : Nat
  finallyIp : Nat
  iterDepth : Nat
  deriving Repr, DecidableEq, Inhabited

/-- An open iteration. An array is read as it is at each step; keys and characters are those at
the beginning. -/
inductive Iteration where
  | live (array : Ref .array) (index : Nat)
  | snapshot (rest : List Value)
  deriving Inhabited

/-- A captured variable that still lives in a slot of the stack. -/
structure OpenCell where
  slot : Nat
  cell : Ref .cell
  deriving Repr, DecidableEq, Inhabited

/-- How often the inline caches helped. -/
structure CacheStats where
  propertyHits : Nat := 0
  propertyMisses : Nat := 0
  methodHits : Nat := 0
  methodMisses : Nat := 0
  deriving Repr, DecidableEq, Inhabited

/-- A machine and the world it runs in. Calls, regions and iterations are listed innermost
first. -/
structure Machine where
  config : Config := {}
  stack : Array Value := #[]
  frames : List Frame := []
  handlers : List Handler := []
  iterations : List Iteration := []
  openCells : List OpenCell := []
  /-- The number of calls that belong to an enclosing run. -/
  runBase : Nat := 0
  globals : Assoc Text Value := Assoc.empty
  output : Array Text := #[]
  /-- The region that the latest throw ended in. -/
  lastUnwind : Option Handler := none
  stats : CacheStats := {}
  diagnostics : Array Diagnostic := #[]
  world : World := {}

namespace Machine

instance : Inhabited Machine := ⟨{}⟩

def heap (m : Machine) : Heap := m.world.heap

/-- The prototype that a call executes. -/
def protoOf (m : Machine) (f : Frame) : Proto := (m.heap.closures.get f.closure).proto

/-- The source line of the instruction that a call is executing. -/
def lineOf (m : Machine) (f : Frame) : Nat := (m.protoOf f).chunk.lineAt (f.ip - 1)

/-- The position of the instruction under way. -/
def span (m : Machine) : Span :=
  match m.frames with
  | [] => {}
  | f :: _ => ⟨m.lineOf f, 0⟩

/-- The value of a slot. -/
def slot (m : Machine) (i : Nat) : Value := m.stack.getD i .null

/-- The stack cut or filled up with nulls to `n` values. -/
def resized (stack : Array Value) (n : Nat) : Array Value :=
  if n ≤ stack.size then stack.shrink n else stack ++ Array.replicate (n - stack.size) .null

/-- The innermost entries that leave `depth` of them. -/
def truncated {α : Type} (xs : List α) (depth : Nat) : List α := xs.drop (xs.length - depth)

/-- The type name of a value. -/
def typeName (m : Machine) (v : Value) : Text := m.heap.typeName v

def text (m : Machine) (v : Value) : Text := m.heap.text v

def isTruthy (m : Machine) (v : Value) : Bool := m.heap.isTruthy v

/-- Drops calls, stack, regions, iterations and captured slots. -/
def reset (m : Machine) : Machine :=
  { m with stack := #[], frames := [], handlers := [], iterations := [], openCells := [], runBase := 0 }

end Machine

/-- Why an instruction did not complete. -/
inductive Fault where
  | error (e : RuntimeError)
  /-- An operand selects a constant past the end of the pool. -/
  | missingConstant
  deriving Repr, DecidableEq, Inhabited

/-- Computations on a machine that can fail. -/
abbrev Exec := EStateM Fault Machine

namespace Exec

/-- Fails at the instruction under way. -/
def fail {α : Type} (c : Cause) : Exec α := do
  throw (.error ⟨c, (← get).span⟩)

/-- Applies a change of the world. -/
@[inline] def withWorld {α : Type} (f : World → α × World) : Exec α :=
  modifyGet fun m =>
    let w := m.world
    let m := { m with world := {} }
    let (a, w) := f w
    (a, { m with world := w })

/-- Applies a change of the heap. -/
@[inline] def withHeap {α : Type} (f : Heap → α × Heap) : Exec α :=
  withWorld fun w =>
    let h := w.heap
    let w := { w with heap := {} }
    let (a, h) := f h
    (a, { w with heap := h })

@[inline] def modifyHeap (f : Heap → Heap) : Exec Unit := withHeap fun h => ((), f h)

def heap : Exec Heap := return (← get).heap

def config : Exec Config := return (← get).config

/-- Logs a message of the machine. -/
def note (level : Level) (message : Unit → Text) : Exec Unit :=
  withWorld fun w => ((), w.note "vm" level message)

/-! ## Stack -/

@[inline] def push (v : Value) : Exec Unit := modify fun m => { m with stack := m.stack.push v }

@[inline] def pop : Exec Value :=
  modifyGet fun m => (m.stack.back?.getD .null, { m with stack := m.stack.pop })

/-- The value `distance` below the top. -/
@[inline] def peek (distance : Nat) : Exec Value :=
  return (← get).slot ((← get).stack.size - 1 - distance)

/-- Replaces the value of a slot. -/
@[inline] def setSlot (i : Nat) (v : Value) : Exec Unit :=
  modify fun m => { m with stack := m.stack.setIfInBounds i v }

/-- Cuts the stack, or fills it up with nulls. -/
@[inline] def resize (n : Nat) : Exec Unit :=
  modify fun m => { m with stack := Machine.resized m.stack n }

/-- Takes the top `count` values off the stack, in order. -/
def popMany (count : Nat) : Exec (List Value) :=
  modifyGet fun m =>
    let n := m.stack.size - count
    ((m.stack.extract n m.stack.size).toList, { m with stack := m.stack.shrink n })

/-- The top `count` values, in order. -/
def peekMany (count : Nat) : Exec (List Value) :=
  return ((← get).stack.extract ((← get).stack.size - count) (← get).stack.size).toList

/-- A new array with the given items, as a value. -/
def newArray (items : List Value) : Exec Value := withHeap fun h => h.allocArray items.toArray

/-! ## The innermost call -/

/-- The innermost call. -/
def frame : Exec Frame := return (← get).frames.headD default

@[inline] def modifyFrame (f : Frame → Frame) : Exec Unit :=
  modify fun m =>
    match m.frames with
    | [] => m
    | top :: rest => { m with frames := f top :: rest }

/-- Jumps forward. -/
def jump (distance : Nat) : Exec Unit := modifyFrame fun f => { f with ip := f.ip + distance }

/-- The number of instruction indices, which have 64 bits. -/
def indexCount : Nat := 18446744073709551616

/-- Jumps backward. From before the first instruction it goes on at the largest index. -/
def loop (distance : Nat) : Exec Unit :=
  modifyFrame fun f =>
    { f with ip := if distance ≤ f.ip then f.ip - distance else indexCount + f.ip - distance }

/-- The prototype of the innermost call. -/
def proto : Exec Proto := do
  let f ← frame
  return (← get).protoOf f

/-- The constant that an operand selects. -/
def constant (index : Nat) : Exec Constant := do
  match (← proto).chunk.constants[index]? with
  | some k => return k
  | none => throw .missingConstant

/-- The name that an operand selects. -/
def constantName (index : Nat) : Exec Text := do
  match (← constant index).text? with
  | some t => return t
  | none => fail (.notAName index)

end Exec

end ScriptVm
