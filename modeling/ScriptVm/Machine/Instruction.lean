import ScriptVm.Machine.Calls
import ScriptVm.Machine.Properties

/-!
# Instructions

`execute` is the meaning of one instruction. Most of them just go on with the next one; a
return can end the run, and a call of a native function can ask for another call first.
-/

set_option autoImplicit false

namespace ScriptVm

/-- How a run goes on after an instruction. -/
inductive Progress where
  /-- With the next instruction. -/
  | next
  /-- The run has ended with a result. -/
  | returned (v : Value)
  /-- With a call that a native function asked for. -/
  | reenter (r : Reentry)
  deriving Inhabited

namespace Exec

/-- Takes two operands off the stack, the second one first, and pushes the result. -/
def binary (f : Value → Value → Exec Value) : Exec Progress := do
  let b ← pop
  let a ← pop
  push (← f a b)
  return .next

/-- Takes two operands off the stack and pushes the answer to a question. -/
def compare (f : Value → Value → Exec Bool) : Exec Progress :=
  binary fun a b => return .bool (← f a b)

/-- Pushes a value and goes on. -/
def pushed (v : Value) : Exec Progress := do
  push v
  return .next

/-- Does something and goes on. -/
def andNext (x : Exec Unit) : Exec Progress := do
  x
  return .next

/-- The value of a constant. A function becomes a closure without captured variables. -/
def constantValue (k : Constant) : Exec Value :=
  match k with
  | .null => return .null
  | .bool b => return .bool b
  | .int n => return .int n
  | .float x => return .float x
  | .decimal t => return .decimal t
  | .text t => return .str t
  | .function p => return .closure (← withWorld fun w => w.newClosure p)

def getGlobal (name : Text) : Exec Value := do
  match (← get).globals.get? name with
  | some v => return v
  | none => fail (.undefinedVariable name)

def setGlobal (name : Text) (v : Value) : Exec Unit := do
  if (← get).globals.contains name then
    modify fun m => { m with globals := m.globals.insert name v }
  else fail (.undefinedVariable name)

def defineGlobal (name : Text) (v : Value) : Exec Unit :=
  modify fun m => { m with globals := m.globals.insert name v }

/-- Makes a function of the prototype that an operand selects. -/
def makeClosure (index : Nat) : Exec Value := do
  match ← constant index with
  | .function proto =>
    let cells ← captureAll (← frame).base proto.captures
    return .closure (← withHeap fun h => h.allocClosure { proto, cells })
  | _ => fail (.notAFunction index)

/-- Ends the innermost call. Its regions, captured slots, stack and iterations go with it. -/
def returnFrom : Exec Progress := do
  let result ← pop
  let m ← get
  match m.frames with
  | [] => return .returned result
  | f :: rest =>
    let depth := rest.length + 1
    modify fun m =>
      { m with handlers := m.handlers.dropWhile fun h => depth ≤ h.frameDepth, frames := rest }.closeCells
        f.base
    let this := (← get).slot f.base
    let result := if f.isConstructor then this else result
    modify fun m =>
      { m with
        stack := Machine.resized m.stack f.base
        iterations := Machine.truncated m.iterations f.iterBase }
    if rest.length ≤ m.runBase then return .returned result
    else pushed result

/-- Opens a protected region. -/
def tryBegin (catchBy finallyBy : Nat) : Exec Unit :=
  modify fun m =>
    let ip := (m.frames.headD default).ip
    { m with
      handlers :=
        { frameDepth := m.frames.length
          stackDepth := m.stack.size
          catchIp := ip + catchBy
          finallyIp := ip + finallyBy
          iterDepth := m.iterations.length } :: m.handlers }

/-- Prints the top `count` values on a line. -/
def printLine (count : Nat) : Exec Unit := do
  let m ← get
  let line := Text.join " " ((← popMany count).map m.text)
  if m.config.echoPrint then
    withWorld fun w =>
      ((), { w with log := { w.log with streams := w.log.streams.print (line ++ "\n") } })
  modify fun m => { m with output := m.output.push line }

/-- Names a module for the log. The name is looked at only if it is logged. -/
def importModule (index : Nat) : Exec Unit := do
  if (← get).world.log.enabled "vm" .debug then
    let name ← constantName index
    note .debug fun _ => "import " ++ name

/-- A truth value decides a jump. -/
def jumpIf (condition : Bool) (distance : Nat) : Exec Progress :=
  andNext (if condition then jump distance else return)

/-- A call or the request of a native function. -/
def callProgress (argc : Nat) : Exec Progress := do
  match ← call argc with
  | none => return .next
  | some r => return .reenter r

/-- Executes one instruction. -/
def execute (i : Instruction) : Exec Progress := do
  let a := i.a.toNat
  match i.op with
  | .constant => pushed (← constantValue (← constant a))
  | .pushNull => pushed .null
  | .pushTrue => pushed (.bool true)
  | .pushFalse => pushed (.bool false)
  | .pop =>
    let _ ← pop
    return .next
  | .dup => pushed (← peek 0)
  | .getLocal => pushed ((← get).slot ((← frame).base + a))
  | .setLocal => andNext (do setSlot ((← frame).base + a) (← peek 0))
  | .getGlobal => pushed (← getGlobal (← constantName a))
  | .setGlobal => andNext (do setGlobal (← constantName a) (← peek 0))
  | .defineGlobal => andNext (do defineGlobal (← constantName a) (← pop))
  | .getUpvalue => pushed (← readCell (← ownCell a))
  | .setUpvalue => andNext (do writeCell (← ownCell a) (← peek 0))
  | .closeUpvalue =>
    closeCells ((← get).stack.size - 1)
    let _ ← pop
    return .next
  | .add => binary add
  | .subtract => binary subtract
  | .multiply => binary multiply
  | .divide => binary divide
  | .modulo => binary modulo
  | .negate => pushed (← negate (← pop))
  | .equal => compare fun x y => return (← heap).equals x y
  | .notEqual => compare fun x y => return !(← heap).equals x y
  | .less => compare less
  | .lessEqual => compare lessEqual
  | .greater => compare fun x y => less y x
  | .greaterEqual => compare fun x y => lessEqual y x
  | .not =>
    let v ← pop
    pushed (.bool !(← get).isTruthy v)
  | .jump => andNext (jump a)
  | .jumpIfFalse =>
    let v ← pop
    jumpIf (!(← get).isTruthy v) a
  | .loop => andNext (loop a)
  | .jumpIfFalseNoPop => jumpIf (!(← get).isTruthy (← peek 0)) a
  | .jumpIfTrueNoPop => jumpIf ((← get).isTruthy (← peek 0)) a
  | .nullishJump => jumpIf (!(← peek 0).isNull) a
  | .call => callProgress a
  | .closure => pushed (← makeClosure a)
  | .ret => returnFrom
  | .array => pushed (← newArray (← popMany a))
  | .hash => pushed (← hashLiteral a)
  | .range => binary range
  | .getIndex => binary getIndex
  | .setIndex =>
    let value ← pop
    let index ← pop
    let object ← pop
    setIndex object index value
    pushed value
  | .buildString =>
    let m ← get
    pushed (.str ((← popMany a).flatMap m.text))
  | .spread => return .next
  | .getProperty =>
    let name ← constantName a
    let object ← pop
    pushed (← getProperty object name (← site))
  | .setProperty =>
    let name ← constantName a
    let value ← pop
    let object ← pop
    setProperty object name value (← site)
    pushed value
  | .newClass =>
    let name ← constantName a
    pushed (.cls (← withWorld fun w => w.newClass name))
  | .inherit => andNext inherit
  | .method => andNext (do defineMethod (← constantName a) false)
  | .staticMethod => andNext (do defineMethod (← constantName a) true)
  | .new => andNext (new a)
  | .getThis => pushed ((← get).slot (← frame).base)
  | .getSuper =>
    let name ← constantName a
    let _ ← pop
    pushed (← getSuper name)
  | .field => andNext (do defineField (← constantName a) false false)
  | .staticField => andNext (do defineField (← constantName a) true false)
  | .constField => andNext (do defineField (← constantName a) false true)
  | .staticConstField => andNext (do defineField (← constantName a) true true)
  | .tryBegin => andNext (tryBegin a i.b.toNat)
  | .tryEnd => andNext (modify fun m => { m with handlers := m.handlers.tail })
  | .throwTop => andNext (do throwValue (← pop))
  | .getIter => andNext (do openIteration (← pop))
  | .forIter =>
    match ← nextItem with
    | some v => pushed v
    | none => andNext (jump a)
  | .print =>
    printLine a
    pushed .null
  | .namedArg => pushed (.namedArg (← constantName a))
  | .importModule => andNext (importModule a)
  | .unknown => fail .invalidOpcode

/-- The instruction to execute next. Behind the last one a call returns null. -/
def fetch : Exec Instruction := do
  let f ← frame
  match ((← get).protoOf f).chunk.code[f.ip]? with
  | some i =>
    modifyFrame fun f => { f with ip := f.ip + 1 }
    return i
  | none =>
    push .null
    return { op := .ret }

end Exec

end ScriptVm
