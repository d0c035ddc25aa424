import ScriptVm.Bytecode.Blueprint
import ScriptVm.Heap.Snapshot
import ScriptVm.Machine.Run

/-!
# Sessions

A host works with a machine in steps: it runs scripts, calls values, reads and writes globals,
builds classes, and looks at the state. `Session.perform` does one step and replies with its
result and with everything that the step has added or changed.
-/

set_option autoImplicit false

namespace ScriptVm

/-- A class for the host to build. Functions, classes and the superclass are named by the
globals that hold them. -/
structure ClassPlan where
  /-- The global that gets the class. -/
  global : Text
  name : Text := []
  /-- The class to start from. -/
  base : Option Text := none
  superclass : Option Text := none
  fields : List (Text × Literal × Bool) := []
  methods : List (Text × Text) := []
  staticMethods : List (Text × Text) := []
  nativeMethods : List (Text × Text) := []
  nativeStatics : List (Text × Text) := []
  nested : List Text := []
  statics : List (Text × Literal × Bool) := []

/-- What a host can ask for. -/
inductive Command where
  /-- Runs a script, and keeps it under a name. -/
  | interpret (script : Blueprint) (keepAs : Option Text)
  /-- Runs a script that was kept. -/
  | interpretKept (name : Text)
  | callGlobal (name : Text) (args : List Literal)
  | callValue (callee : Literal) (args : List Literal)
  /-- Calls a value with `count` copies of one argument. -/
  | callMany (callee : Literal) (count : Nat) (arg : Literal)
  | setGlobal (name : Text) (value : Literal)
  | getGlobal (name : Text)
  | reset
  | clearOutput
  | clearDiagnostics
  /-- Starts over with a new machine in the same world. -/
  | newMachine (config : Config)
  | state
  | recordProperty (site : Site) (name : Text) (shape : ShapeId) (offset : Nat)
  | recordMethod (site : Site) (name : Text) (table : ShapeId) (owner : Text) (method : Literal)
  | buildClass (plan : ClassPlan)
  deriving Inhabited

/-- The numbers that `Command.state` asks for. -/
structure StateReport where
  symbols : Nat
  shapes : Nat
  propertySites : Nat
  methodSites : Nat
  output : Nat
  diagnostics : Nat
  config : Config

/-- The result of a step. -/
inductive Answer where
  | value (v : Snapshot) (text : Option Text)
  | done
  | flag (b : Bool)
  | state (r : StateReport)
  /-- There is no such global. -/
  | undefined
  | error (e : RuntimeError)
  | missingConstant
  /-- The fuel ran out. -/
  | unfinished
  deriving Inhabited

/-- The result of a step and what it has added. -/
structure Reply where
  answer : Answer
  output : List Text
  frameDepth : Nat
  stackDepth : Nat
  lastUnwind : Option Handler
  stats : CacheStats
  diagnostics : List Diagnostic
  echoed : Text
  echoes : Bool
  log : List Captured
  deriving Inhabited

/-- A machine with the scripts that the host has kept. -/
structure Session where
  machine : Machine
  kept : Assoc Text Proto := Assoc.empty
  fuel : Nat

namespace Session

/-- A session whose log goes to a capturing sink. -/
def start (config : Config) (level : Level) (fuel : Nat) : Session :=
  let log : Logging := { level, sinks := [.capture], started := true }
  { machine := Machine.fresh config preludeNatives { log := log }, fuel }

/-- What literals of the session can refer to. -/
def scope (s : Session) : Literal.Scope := { globals := s.machine.globals }

/-- The values of literals. -/
def realise (s : Session) (ls : List Literal) : List Value × Session :=
  let (vs, world) := realiseAll s.scope s.machine.world ls
  (vs, { s with machine := { s.machine with world } })

/-- The answer for a value. -/
def answerValue (m : Machine) (v : Value) : Answer :=
  .value (m.heap.snapshot m.world.symbols v) (m.heap.text? v)

/-- Takes the outcome of an entry over into the session. -/
def conclude (s : Session) (r : Option (Outcome × Machine)) : Answer × Session :=
  match r with
  | none => (.unfinished, s)
  | some (o, machine) =>
    let s := { s with machine }
    match o with
    | .value v => (answerValue machine v, s)
    | .error e => (.error e, s)
    | .missingConstant => (.missingConstant, s)

/-- Defines a global. -/
def define (s : Session) (name : Text) (v : Value) : Session :=
  { s with machine := { s.machine with globals := s.machine.globals.insert name v } }

/-- The value of a global, null if there is none. -/
def globalValue (s : Session) (name : Text) : Value := (s.machine.globals.get? name).getD .null

def globalClass? (s : Session) (name : Text) : Option (Ref .cls) := (s.globalValue name).cls?

def globalClosure? (s : Session) (name : Text) : Option (Ref .closure) :=
  match s.globalValue name with
  | .closure r => some r
  | _ => none

def globalNative? (s : Session) (name : Text) : Option (Ref .native) :=
  match s.globalValue name with
  | .native r => some r
  | _ => none

/-- The members of a table with functions added under their names. -/
def withFunctions {k : Kind} (find : Text → Option (Ref k)) (table : Assoc Text (Ref k))
    (named : List (Text × Text)) : Assoc Text (Ref k) :=
  named.foldl
    (fun table (name, global) =>
      match find global with
      | some r => table.insert name r
      | none => table)
    table

/-- The class with methods added under their names. -/
def withMethods (find : Text → Option (Ref .closure)) (draft : Class) (named : List (Text × Text)) : Class :=
  named.foldl
    (fun draft (name, global) =>
      match find global with
      | some f => draft.withMethod name f
      | none => draft)
    draft

/-- Adds fields to a class under construction. -/
def withFields (s : Session) (draft : Class) (fields : List (Text × Literal × Bool)) :
    Class × World :=
  fields.foldl
    (fun (draft, w) (name, initial, isConst) =>
      let (v, w) := Literal.realise s.scope w initial
      w.draftField draft name v isConst)
    (draft, s.machine.world)

/-- Declares static fields of a class. -/
def withStatics (s : Session) (w : World) (r : Ref .cls) (statics : List (Text × Literal × Bool)) :
    World :=
  statics.foldl
    (fun w (name, initial, isConst) =>
      let (v, w) := Literal.realise s.scope w initial
      { w with heap := w.heap.defineStatic r name v isConst })
    w

/-- The class that a plan starts from. -/
def startDraft (s : Session) (plan : ClassPlan) : Class × World :=
  let w := s.machine.world
  match plan.base.bind s.globalClass? with
  | some r => (w.heap.classes.get r, w)
  | none => w.draftClass plan.name

/-- Builds a class and stores it in its global. -/
def buildClass (s : Session) (plan : ClassPlan) : Session :=
  let (draft, world) := s.startDraft plan
  let s := { s with machine := { s.machine with world } }
  let draft :=
    match plan.superclass.bind s.globalClass? with
    | some r => { draft with superclass := some r }
    | none => draft
  let (draft, w) := s.withFields draft plan.fields
  let draft :=
    { withMethods s.globalClosure? draft plan.methods with
      staticMethods := withFunctions s.globalClosure? draft.staticMethods plan.staticMethods
      nativeMethods := withFunctions s.globalNative? draft.nativeMethods plan.nativeMethods
      nativeStatics := withFunctions s.globalNative? draft.nativeStatics plan.nativeStatics
      nested := (plan.nested.filterMap s.globalClass?).foldl
        (fun table r => table.insert (w.heap.classes.get r).name r) draft.nested }
  let (r, w) := w.publish draft
  let world := s.withStatics w r plan.statics
  { s with machine := { s.machine with world } }.define plan.global (.cls r)

/-- The numbers of the state. -/
def report (m : Machine) : StateReport :=
  { symbols := m.world.symbols.size
    shapes := m.world.shapes.size
    propertySites := m.world.caches.properties.size
    methodSites := m.world.caches.methods.size
    output := m.output.size
    diagnostics := m.diagnostics.size
    config := m.config }

/-- Runs a script. -/
def runScript (s : Session) (p : Proto) : Answer × Session :=
  s.conclude (Machine.interpret s.fuel s.machine p)

/-- Does what a command asks for. -/
def dispatch (s : Session) : Command → Answer × Session
  | .interpret script keepAs =>
    let (p, nextProto) := Blueprint.build s.machine.world.nextProto script
    let kept := match keepAs with
      | some name => s.kept.insert name p
      | none => s.kept
    { s with kept, machine := { s.machine with world := { s.machine.world with nextProto } } }.runScript p
  | .interpretKept name =>
    match s.kept.get? name with
    | some p => s.runScript p
    | none => (.undefined, s)
  | .callGlobal name args =>
    let (vs, s) := s.realise args
    s.conclude (Machine.callGlobal s.fuel s.machine name vs)
  | .callValue callee args =>
    let (vs, s) := s.realise (callee :: args)
    s.conclude (Machine.callValue s.fuel s.machine (vs.headD .null) vs.tail)
  | .callMany callee count arg =>
    let (vs, s) := s.realise [callee, arg]
    s.conclude (Machine.callValue s.fuel s.machine (vs.headD .null) (List.replicate count (vs.getD 1 .null)))
  | .setGlobal name value =>
    let (vs, s) := s.realise [value]
    (.done, s.define name (vs.headD .null))
  | .getGlobal name =>
    match s.machine.globals.get? name with
    | some v => (answerValue s.machine v, s)
    | none => (.undefined, s)
  | .reset => (.done, { s with machine := s.machine.reset })
  | .clearOutput => (.done, { s with machine := { s.machine with output := #[] } })
  | .clearDiagnostics => (.done, { s with machine := { s.machine with diagnostics := #[] } })
  | .newMachine config =>
    (.done, { s with machine := Machine.fresh config preludeNatives s.machine.world })
  | .state => (.state (report s.machine), s)
  | .recordProperty site name shape offset =>
    let (symbol, w) := s.machine.world.intern name
    let (inserted, world) := w.recordProperty site ⟨symbol, shape⟩ offset
    (.flag inserted, { s with machine := { s.machine with world } })
  | .recordMethod site name table owner method =>
    let (vs, s) := s.realise [method]
    let (symbol, w) := s.machine.world.intern name
    let (inserted, world) := w.recordMethod site ⟨symbol, table⟩ ⟨owner, vs.headD .null⟩
    (.flag inserted, { s with machine := { s.machine with world } })
  | .buildClass plan => (.done, s.buildClass plan)

/-- The session with everything written so far taken away. -/
def withoutStreams (s : Session) : Session :=
  let w := s.machine.world
  { s with machine := { s.machine with world := { w with log := { w.log with streams := {} } } } }

/-- One step of the session. -/
def perform (s : Session) (c : Command) : Reply × Session :=
  let s := s.withoutStreams
  let lines := s.machine.output.size
  let errors := s.machine.diagnostics.size
  let (answer, s) := s.dispatch c
  let m := s.machine
  let streams := m.world.log.streams
  ({ answer
     output := m.output.toList.drop lines
     frameDepth := m.frames.length
     stackDepth := m.stack.size
     lastUnwind := m.lastUnwind
     stats := m.stats
     diagnostics := m.diagnostics.toList.drop errors
     echoed := streams.outText
     echoes := m.config.echoPrint
     log := streams.captured.toList },
    s)

end Session

end ScriptVm
