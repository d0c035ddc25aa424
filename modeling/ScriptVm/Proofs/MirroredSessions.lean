import Mathlib.Data.List.Forall2
import ScriptVm.Proofs.CacheTransparency
import ScriptVm.Proofs.MirroredRuns

/-!
# Sessions that are the same on related backings

What hosts do between runs: making the values of literals, numbering scripts, starting machines. A
`HostBisimulation` promises that this keeps backings related as well. Two sessions whose machines
differ in related backings then give the same replies, statistics and log records apart, as long as
every activity moves together with its twin.

`Session.twin_history` is the main result. The commands of `Command.isSpecial`, which look at the
registries or change them from outside, are left to the relation at hand.
-/

set_option autoImplicit false

namespace ScriptVm

open Exec World

/-! ## Operations of the world -/

namespace World

variable {R : Backing → Backing → Prop} {α β : Type}

/-- An operation that gives the same value in related worlds and keeps them related. -/
def Parallel (R : Backing → Backing → Prop) (f : World → α × World) : Prop :=
  ∀ b b', R b b' →
    (f b'.world).1 = (f b.world).1 ∧ R { b with world := (f b.world).2 } { b' with world := (f b'.world).2 }

namespace Parallel

theorem pure (a : α) : Parallel R fun w => (a, w) := fun _ _ hb => ⟨rfl, hb⟩

/-- One after the other, two operations that go in parallel do so. -/
theorem bind {f : World → α × World} {g : α → World → β × World} (first : Parallel R f)
    (next : ∀ a, Parallel R (g a)) : Parallel R fun w => g (f w).1 (f w).2 := by
  intro b b' hb
  obtain ⟨value, hb₁⟩ := first b b' hb
  simp only [value]
  exact next _ _ _ hb₁

/-- The result may be used in any way. -/
theorem map {f : World → α × World} (h : Parallel R f) (g : α → β) :
    Parallel R fun w => (g (f w).1, (f w).2) := h.bind (g := fun a w => (g a, w)) fun _ => pure _

/-- As a computation it does the same on related backings. -/
theorem same {f : World → α × World} (h : Parallel R f) (m : Machine) : Same R (withWorld f) m :=
  same_withWorld fun _ hb => ⟨(h _ _ hb).1.symm, (h _ _ hb).2⟩

end Parallel

end World

/-- A bisimulation that operations of the host respect as well. -/
structure HostBisimulation (K : Constant → Constant → Prop) (R : Backing → Backing → Prop) : Prop
    extends Bisimulation K R where
  bareObject : ∀ {b b'}, R b b' → ∀ cls,
    R { b with world := (b.world.bareObject cls).2 } { b' with world := (b'.world.bareObject cls).2 }
  /-- Prototypes get their numbers on both sides. -/
  build : ∀ {b b'}, R b b' → ∀ s : Blueprint,
    K (.function (s.build b.world.nextProto).1) (.function (s.build b'.world.nextProto).1) ∧
      R { b with world := { b.world with nextProto := (s.build b.world.nextProto).2 } }
        { b' with world := { b'.world with nextProto := (s.build b'.world.nextProto).2 } }
  /-- Everything written so far may be taken away. -/
  withoutStreams : ∀ {b b'}, R b b' →
    R { b with world := { b.world with log := { b.world.log with streams := {} } } }
      { b' with world := { b'.world with log := { b'.world.log with streams := {} } } }
  /-- A new machine starts with new statistics. -/
  fresh : ∀ {b b'}, R b b' → R { b with stats := {} } { b' with stats := {} }
  /-- Both have printed the same. -/
  printed : ∀ {b b'}, R b b' → b'.world.log.streams.out = b.world.log.streams.out

section

variable {K : Constant → Constant → Prop} {R : Backing → Backing → Prop} (hH : HostBisimulation K R)
include hH

/-- An operation on what is the same in both worlds goes in parallel. -/
theorem parallel_onPools {α : Type} {g : Heap → α × Heap} (k : Pools → α × Pools)
    (plain : ∀ h : Heap, g h = ((k h.pools).1, h.withPools (k h.pools).2)) : Parallel R (onHeap g) := by
  intro b b' hb
  have pools : b'.world.heap.pools = b.world.heap.pools := (hH.resembles hb).pools
  unfold onHeap
  rw [plain b.world.heap, plain b'.world.heap, pools]
  exact ⟨rfl, hH.pools hb _⟩

theorem parallel_newClass (name : Text) : Parallel R fun w => w.newClass name :=
  fun _ _ hb => ⟨congrArg Ref.mk (hH.resembles hb).classes.size, hH.newClass hb name⟩

theorem parallel_bareObject (cls : Ref .cls) : Parallel R fun w => w.bareObject cls :=
  fun _ _ hb => ⟨congrArg (fun n => Value.object ⟨n⟩) (hH.resembles hb).objects.size, hH.bareObject hb cls⟩

theorem parallel_bind (receiver method : Value) : Parallel R fun w => w.bind receiver method := by
  unfold World.bind
  cases Callable.ofValue? method with
  | none => exact .pure method
  | some target =>
    exact parallel_onPools (g := fun h => h.allocBound { receiver, target }) hH
      (fun p => (.bound (p.bounds.alloc { receiver, target }).1,
        { p with bounds := (p.bounds.alloc { receiver, target }).2 }))
      fun _ => rfl

omit hH in

/-- An operation on a class goes in parallel if it does so for every class. -/
theorem parallel_ofClass {f : Ref .cls → World → Value × World} (h : ∀ r, Parallel R (f r)) (v : Value) :
    Parallel R (ofClass f v) := by
  unfold ofClass
  cases v.cls? with
  | some r => exact h r
  | none => exact .pure _

/-- A function with an empty body is numbered like a script. -/
theorem parallel_newFunction (name : Text) :
    Parallel R fun w =>
      (Value.closure ((w.drawProtoId.2).newClosure { id := w.drawProtoId.1, name }).1,
        ((w.drawProtoId.2).newClosure { id := w.drawProtoId.1, name }).2) := by
  intro b b' hb
  obtain ⟨related, hb₁⟩ := hH.build hb (.function name 0 0 [] [] [] [])
  exact ⟨congrArg (fun n => Value.closure ⟨n⟩) (hH.resembles hb).closures.size, hH.newClosure hb₁ related []⟩

end

mutual

/-- A literal has the same value in related worlds. -/
theorem parallel_realise {K : Constant → Constant → Prop} {R : Backing → Backing → Prop}
    (hH : HostBisimulation K R) (scope : Literal.Scope) (l : Literal) :
    Parallel R fun w => l.realise scope w := by
  cases l with
  | null | bool | int | float | decimal | str | namedArg | global | earlier =>
    simp only [Literal.realise]
    exact .pure _
  | array items =>
    simp only [Literal.realise]
    exact (parallel_realiseAll hH scope items).bind (g := fun vs => onHeap fun h => h.allocArray vs.toArray)
      fun vs => parallel_onPools hH
        (fun p => (.array (p.arrays.alloc vs.toArray).1, { p with arrays := (p.arrays.alloc vs.toArray).2 }))
        fun _ => rfl
  | hash keys values =>
    simp only [Literal.realise]
    exact (parallel_realiseAll hH scope values).bind
      (g := fun vs => onHeap fun h => h.allocTable (Table.ofList (keys.zip vs)))
      fun vs => parallel_onPools hH
        (fun p => (.hash (p.tables.alloc (Table.ofList (keys.zip vs))).1,
          { p with tables := (p.tables.alloc (Table.ofList (keys.zip vs))).2 }))
        fun _ => rfl
  | cls name =>
    simp only [Literal.realise]
    exact (parallel_newClass hH name).map Value.cls
  | object className =>
    simp only [Literal.realise]
    exact (parallel_newClass hH className).bind (g := fun r w => w.bareObject r) (parallel_bareObject hH)
  | objectOf cls =>
    simp only [Literal.realise]
    exact (parallel_realise hH scope cls).bind (g := ofClass fun r w => w.bareObject r)
      (parallel_ofClass (parallel_bareObject hH))
  | superNamed name =>
    simp only [Literal.realise]
    exact (parallel_newClass hH name).map Value.superOf
  | superOf cls =>
    simp only [Literal.realise]
    exact (parallel_realise hH scope cls).bind (g := ofClass fun r w => (Value.superOf r, w))
      (parallel_ofClass fun r => .pure (Value.superOf r))
  | native name =>
    simp only [Literal.realise]
    exact parallel_onPools (g := fun h => h.allocNative ⟨name, none, .nothing⟩) hH
      (fun p => (.native (p.natives.alloc ⟨name, none, .nothing⟩).1,
        { p with natives := (p.natives.alloc ⟨name, none, .nothing⟩).2 }))
      fun _ => rfl
  | closure name =>
    simp only [Literal.realise]
    exact parallel_newFunction hH name
  | method name receiver =>
    simp only [Literal.realise]
    exact (parallel_realise hH scope receiver).bind (g := fun v => onHeap fun h => h.allocMethod ⟨v, name⟩)
      fun v => parallel_onPools hH
        (fun p => (.method (p.methods.alloc ⟨v, name⟩).1, { p with methods := (p.methods.alloc ⟨v, name⟩).2 }))
        fun _ => rfl
  | bound function receiver =>
    simp only [Literal.realise]
    refine (parallel_realise hH scope function).bind
      (g := fun f w => World.bind (receiver.realise scope w).2 (receiver.realise scope w).1 f) fun f => ?_
    exact (parallel_realise hH scope receiver).bind (g := fun v w => w.bind v f) fun v => parallel_bind hH v f

/-- A host makes the same values in both worlds. -/
theorem parallel_realiseAll {K : Constant → Constant → Prop} {R : Backing → Backing → Prop}
    (hH : HostBisimulation K R) (scope : Literal.Scope) (ls : List Literal) :
    Parallel R fun w => realiseAll scope w ls := by
  cases ls with
  | nil =>
    simp only [realiseAll]
    exact .pure _
  | cons l rest =>
    simp only [realiseAll]
    exact (parallel_realise hH scope l).bind
      (g := fun v w => (v :: (realiseAll scope w rest).1, (realiseAll scope w rest).2))
      fun v => (parallel_realiseAll hH scope rest).map fun vs => v :: vs

end

section

variable {K : Constant → Constant → Prop} {R : Backing → Backing → Prop} (hH : HostBisimulation K R)
include hH

/-- A static field is declared in the same way. -/
theorem parallel_defineStatic (r : Ref .cls) (name : Text) (v : Value) (isConst : Bool) :
    Parallel R (onHeap fun h => ((), h.defineStatic r name v isConst)) := by
  intro b b' hb
  have statics : b'.world.heap.statics = b.world.heap.statics := (hH.resembles hb).statics
  have cell : (b'.world.heap.classes.get r).statics = (b.world.heap.classes.get r).statics :=
    (hH.resembles hb).class_statics r
  have pools : b'.world.heap.pools = b.world.heap.pools := (hH.resembles hb).pools
  have changed : b'.world.heap.defineStatic r name v isConst =
      b'.world.heap.withPools (b.world.heap.defineStatic r name v isConst).pools := by
    have own : (b.world.heap.defineStatic r name v isConst).pools =
        { b.world.heap.pools with statics := (b.world.heap.defineStatic r name v isConst).statics } := rfl
    rw [own, ← pools]
    unfold Heap.defineStatic Heap.putStatic
    rw [← statics, ← cell]
    rfl
  have rel := hH.pools hb (b.world.heap.defineStatic r name v isConst).pools
  rw [← changed] at rel
  exact ⟨rfl, rel⟩

/-- A host declares the same static fields. -/
theorem Session.parallel_declareStatics (scope : Literal.Scope) (r : Ref .cls)
    (statics : List (Text × Literal × Bool)) : Parallel R (declareStatics scope r statics) := by
  induction statics with
  | nil => exact .pure ()
  | cons f rest ih =>
    obtain ⟨name, initial, isConst⟩ := f
    refine (parallel_realise hH scope initial).bind
      (g := fun v w => declareStatics scope r rest { w with heap := w.heap.defineStatic r name v isConst })
      fun v => ?_
    exact (parallel_defineStatic hH r name v isConst).bind (g := fun _ => declareStatics scope r rest) fun _ => ih

/-- A script starts in the same way on related backings. -/
theorem Machine.Twin.startScript {m m' : Machine} (h : m.Twin R m') {p p' : Proto}
    (related : K (.function p) (.function p')) :
    ∃ b, m'.startScript p' = (m.startScript p).on b ∧ R (m.startScript p).machine.backing b := by
  obtain ⟨b, rfl, hb⟩ := h
  have ref : ((m.on b).world.newClosure p').1 = (m.world.newClosure p).1 :=
    congrArg Ref.mk (hH.resembles hb).closures.size
  have laid : (m.on b).laidOut p' =
      (m.laidOut p).on (b.withHeap (b.world.heap.allocClosure { proto := p' }).2) := by
    unfold Machine.laidOut
    rw [ref]
    rfl
  have rel : R (m.laidOut p).backing (b.withHeap (b.world.heap.allocClosure { proto := p' }).2) :=
    hH.newClosure hb related []
  have ends := same_pushFrame hH.toBisimulation { closure := (m.world.newClosure p).1 } _ rel
  rw [Machine.startScript_eq, Machine.startScript_eq, laid, ref]
  generalize (pushFrame { closure := (m.world.newClosure p).1 }).run (m.laidOut p) = r at ends ⊢
  generalize (pushFrame { closure := (m.world.newClosure p).1 }).run
    ((m.laidOut p).on (b.withHeap (b.world.heap.allocClosure { proto := p' }).2)) = r' at ends ⊢
  cases ends with
  | ok _ rel => exact ⟨_, rfl, rel⟩
  | error f rel => cases f <;> exact ⟨_, rfl, rel⟩

end

/-! ## Commands -/

/-- Commands that look at the registries, or change them or classes from outside. -/
def Command.isSpecial : Command → Bool
  | .state | .recordProperty .. | .recordMethod .. | .buildClass _ => true
  | _ => false

/-- What a reply says of anything but statistics and log records. -/
def Reply.unlogged (r : Reply) : Reply := { r with stats := {}, log := [] }

namespace Session

/-- The session with a script numbered, and kept under a name. -/
def keeping (s : Session) (keepAs : Option Text) (built : Proto × Nat) : Session :=
  { s with
    kept := match keepAs with
      | some name => s.kept.insert name built.1
      | none => s.kept
    machine := { s.machine with world := { s.machine.world with nextProto := built.2 } } }

/-- A script is built, kept under a name if there is one, and run. -/
theorem dispatch_interpret (s : Session) (script : Blueprint) (keepAs : Option Text) :
    s.dispatch (.interpret script keepAs) =
      (s.keeping keepAs (script.build s.machine.world.nextProto)).runScript
        (script.build s.machine.world.nextProto).1 := rfl

/-- The activity that a command sets going. -/
def entry? (s : Session) : Command → Option Activity
  | .interpret script _ =>
    let built := script.build s.machine.world.nextProto
    some ((s.keeping none built).machine.startScript built.1)
  | .interpretKept name => (s.kept.get? name).map s.machine.startScript
  | .callGlobal name args =>
    let r := s.realise args
    (r.2.machine.globals.get? name).map fun callee => r.2.machine.startCall callee r.1
  | .callValue callee args =>
    let r := s.realise (callee :: args)
    some (r.2.machine.startCall (r.1.headD .null) r.1.tail)
  | .callMany callee count arg =>
    let r := s.realise [callee, arg]
    some (r.2.machine.startCall (r.1.headD .null) (List.replicate count (r.1.getD 1 .null)))
  | _ => none

/-- The activities that a command leads to. -/
def movesOf (s : Session) (c : Command) : List Activity :=
  match s.entry? c with
  | some a => a.moves s.fuel
  | none => []

/-- Everything that the machine goes through in a session, latest first. -/
def activities (s : Session) : List Command → List Activity
  | [] => []
  | c :: rest => (s.perform c).2.activities rest ++ s.withoutStreams.movesOf c

/-- Two sessions whose machines differ in related backings, with corresponding scripts. -/
structure Twin (K : Constant → Constant → Prop) (R : Backing → Backing → Prop) (s s' : Session) : Prop where
  machine : s.machine.Twin R s'.machine
  kept : ∀ name, Option.Rel (fun p p' => K (.function p) (.function p')) (s.kept.get? name) (s'.kept.get? name)
  fuel : s'.fuel = s.fuel

/-- The same answers, and sessions that are twins. -/
def Corresponds (K : Constant → Constant → Prop) (R : Backing → Backing → Prop) (r r' : Answer × Session) : Prop :=
  r'.1 = r.1 ∧ r.2.Twin K R r'.2

/-- Two steps with the same replies, statistics and log records apart, that leave twins. -/
structure StepTwin (K : Constant → Constant → Prop) (R : Backing → Backing → Prop) (r r' : Reply × Session) :
    Prop where
  reply : r'.1.unlogged = r.1.unlogged
  stats : r.1.stats = r.2.machine.stats ∧ r'.1.stats = r'.2.machine.stats
  session : r.2.Twin K R r'.2

variable {K : Constant → Constant → Prop} {R : Backing → Backing → Prop} {s s' : Session}

theorem kept_refl (hK : Likeness K) (kept : Assoc Text Proto) (name : Text) :
    Option.Rel (fun p p' => K (.function p) (.function p')) (kept.get? name) (kept.get? name) := by
  cases kept.get? name with
  | none => exact .none
  | some p => exact .some (hK.refl _)

/-- A change of the machine that takes twins to twins. -/
theorem Twin.withMachine (h : s.Twin K R s') {m m' : Machine} (twin : m.Twin R m') :
    Twin K R { s with machine := m } { s' with machine := m' } := ⟨twin, h.kept, h.fuel⟩

/-- An operation of the world that gives the same value in related worlds. -/
theorem Twin.onWorld {α : Type} {f : World → α × World} (h : s.Twin K R s') (parallel : Parallel R f) :
    (f s'.machine.world).1 = (f s.machine.world).1 ∧
      Twin K R { s with machine := { s.machine with world := (f s.machine.world).2 } }
        { s' with machine := { s'.machine with world := (f s'.machine.world).2 } } := by
  obtain ⟨b, machine, hb⟩ := h.machine
  obtain ⟨value, rel⟩ := parallel _ _ hb
  rw [machine]
  exact ⟨value, h.withMachine ⟨{ b with world := (f b.world).2 }, rfl, rel⟩⟩

/-- Twins define the same global. -/
theorem Twin.define (h : s.Twin K R s') (name : Text) (v : Value) : (s.define name v).Twin K R (s'.define name v) :=
  h.withMachine (h.machine.map (g := fun m => { m with globals := m.globals.insert name v }) (fun _ _ => rfl) rfl)

section

variable (hH : HostBisimulation K R)
include hH

theorem Twin.answerValue (h : s.Twin K R s') (v : Value) : answerValue s'.machine v = answerValue s.machine v := by
  obtain ⟨b, machine, hb⟩ := h.machine
  have snapshot : b.world.heap.snapshot b.world.symbols = s.machine.heap.snapshot s.machine.world.symbols :=
    (hH.resembles hb).snapshot hH.likeness
  have text : b.world.heap.text? = s.machine.heap.text? := (hH.resembles hb).text? hH.likeness
  rw [machine]
  show Answer.value (b.world.heap.snapshot b.world.symbols v) (b.world.heap.text? v) = _
  rw [snapshot, text]
  rfl

theorem Twin.realise (h : s.Twin K R s') (ls : List Literal) :
    (s'.realise ls).1 = (s.realise ls).1 ∧ (s.realise ls).2.Twin K R (s'.realise ls).2 := by
  have scope : s'.scope = s.scope := by
    obtain ⟨b, machine, -⟩ := h.machine
    unfold Session.scope
    rw [machine]
    rfl
  unfold Session.realise
  rw [scope]
  exact h.onWorld (parallel_realiseAll hH s.scope ls)

/-- Twins conclude corresponding runs with the same answer. -/
theorem Twin.conclude (h : s.Twin K R s') {r r' : Option (Outcome × Machine)} (ended : Activity.Concludes R r r') :
    Corresponds K R (s.conclude r) (s'.conclude r') := by
  cases ended with
  | unfinished => exact ⟨rfl, h⟩
  | @finished o m b rel =>
    have twin : Twin K R { s with machine := m } { s' with machine := m.on b } := h.withMachine ⟨b, rfl, rel⟩
    cases o with
    | value v => exact ⟨congrArg id (twin.answerValue hH v), twin⟩
    | error e => exact ⟨rfl, twin⟩
    | missingConstant => exact ⟨rfl, twin⟩

/-- Twins run scripts that correspond with corresponding answers, if all moves go together. -/
theorem Twin.runScript (h : s.Twin K R s') {p p' : Proto} (related : K (.function p) (.function p'))
    (together : ∀ a ∈ (s.machine.startScript p).moves s.fuel, a.Together R) :
    Corresponds K R (s.runScript p) (s'.runScript p') := by
  obtain ⟨b, started, rel⟩ := h.machine.startScript hH related
  have ended := Activity.run_together together rel
  rw [← started, ← h.fuel] at ended
  have own : (s.machine.startScript p).run s'.fuel = Machine.interpret s.fuel s.machine p := by
    rw [h.fuel]
    rfl
  rw [own] at ended
  exact h.conclude hH ended

/-- So do calls of a value. -/
theorem Twin.callValue (h : s.Twin K R s') (callee : Value) (args : List Value)
    (together : ∀ a ∈ (s.machine.startCall callee args).moves s.fuel, a.Together R) :
    Corresponds K R (s.conclude (Machine.callValue s.fuel s.machine callee args))
      (s'.conclude (Machine.callValue s'.fuel s'.machine callee args)) := by
  obtain ⟨b, machine, hb⟩ := h.machine
  have started : s'.machine.startCall callee args = (s.machine.startCall callee args).on b := by
    rw [machine]
    rfl
  refine h.conclude hH ?_
  unfold Machine.callValue
  rw [started, h.fuel]
  exact Activity.run_together together hb

/-- So do calls of a global. -/
theorem Twin.callGlobal (h : s.Twin K R s') (name : Text) (args : List Value)
    (together : ∀ callee, s.machine.globals.get? name = some callee →
      ∀ a ∈ (s.machine.startCall callee args).moves s.fuel, a.Together R) :
    Corresponds K R (s.conclude (Machine.callGlobal s.fuel s.machine name args))
      (s'.conclude (Machine.callGlobal s'.fuel s'.machine name args)) := by
  have globals : s'.machine.globals = s.machine.globals := by
    obtain ⟨b, machine, -⟩ := h.machine
    rw [machine]
    rfl
  unfold Machine.callGlobal
  rw [globals]
  cases found : s.machine.globals.get? name with
  | some callee => exact h.callValue hH callee args (together callee found)
  | none =>
    obtain ⟨b, machine, hb⟩ := h.machine
    refine h.conclude hH ?_
    have span : s'.machine.span = s.machine.span := by
      rw [machine]
      exact on_span hH.toBisimulation hb
    obtain ⟨b₁, recorded, hb₁⟩ :=
      h.machine.recordError hH.toBisimulation ⟨.undefinedVariable name, s.machine.span⟩
    simp only [span, recorded]
    exact .finished _ hb₁

/-- New machines in related worlds. -/
theorem twin_fresh {b b' : Backing} (hb : R b b') (config : Config) (natives : List Native) :
    (Machine.fresh config natives b.world).Twin R (Machine.fresh config natives b'.world) := by
  have added : ∀ m m' : Machine, m.Twin R m' →
      (natives.foldl Machine.withNative m).Twin R (natives.foldl Machine.withNative m') := by
    induction natives with
    | nil => exact fun _ _ h => h
    | cons n rest ih =>
      rintro m _ ⟨b, rfl, hb⟩
      refine ih _ _ ?_
      obtain ⟨value, rel⟩ := parallel_onPools (g := fun h => h.allocNative n) hH
        (fun p => (.native (p.natives.alloc n).1, { p with natives := (p.natives.alloc n).2 })) (fun _ => rfl) _ _ hb
      refine ⟨b.withHeap (b.world.heap.allocNative n).2, ?_, rel⟩
      have value : ((m.on b).world.heap.allocNative n).1 = (m.world.heap.allocNative n).1 := value
      unfold Machine.withNative
      rw [value]
      rfl
  rw [Machine.fresh_eq, Machine.fresh_eq]
  exact added _ _ ⟨{ b' with stats := {} }, rfl, hH.fresh hb⟩

/-- Scripts are numbered and kept in the same way. -/
theorem Twin.keeping (h : s.Twin K R s') (script : Blueprint) (keepAs : Option Text) :
    K (.function (script.build s.machine.world.nextProto).1) (.function (script.build s'.machine.world.nextProto).1) ∧
      Twin K R (s.keeping keepAs (script.build s.machine.world.nextProto))
        (s'.keeping keepAs (script.build s'.machine.world.nextProto)) := by
  obtain ⟨b, machine, hb⟩ := h.machine
  obtain ⟨related, rel⟩ := hH.build hb script
  have world : s'.machine.world = b.world := by
    rw [machine]
    rfl
  rw [world]
  refine ⟨related, ⟨_, ?_, rel⟩, fun name => ?_, h.fuel⟩
  · unfold Session.keeping
    rw [machine]
    rfl
  · unfold Session.keeping
    cases keepAs with
    | none => exact h.kept name
    | some key =>
      simp only [Assoc.get?_insert]
      split
      · exact .some related
      · exact h.kept name

/-- Twins carry out a command alike, but for the special ones. -/
theorem Twin.dispatch (h : s.Twin K R s') (c : Command) (together : ∀ a ∈ s.movesOf c, a.Together R)
    (special : c.isSpecial = true → Corresponds K R (s.dispatch c) (s'.dispatch c)) :
    Corresponds K R (s.dispatch c) (s'.dispatch c) := by
  cases c with
  | state | recordProperty | recordMethod | buildClass => exact special rfl
  | interpret script keepAs =>
    obtain ⟨related, twin⟩ := h.keeping hH script keepAs
    rw [dispatch_interpret, dispatch_interpret]
    exact twin.runScript hH related together
  | interpretKept name =>
    have kept := h.kept name
    simp only [Session.dispatch]
    simp only [movesOf, entry?] at together
    generalize s.kept.get? name = p at kept together ⊢
    generalize s'.kept.get? name = p' at kept ⊢
    cases kept with
    | none => exact ⟨rfl, h⟩
    | some related => exact h.runScript hH related together
  | callGlobal name args =>
    obtain ⟨values, twin⟩ := h.realise hH args
    simp only [Session.dispatch, values]
    refine twin.callGlobal hH name _ fun callee found => ?_
    simp only [movesOf, entry?, found] at together
    exact together
  | callValue callee args =>
    obtain ⟨values, twin⟩ := h.realise hH (callee :: args)
    simp only [Session.dispatch, values]
    exact twin.callValue hH _ _ together
  | callMany callee count arg =>
    obtain ⟨values, twin⟩ := h.realise hH [callee, arg]
    simp only [Session.dispatch, values]
    exact twin.callValue hH _ _ together
  | setGlobal name value =>
    obtain ⟨values, twin⟩ := h.realise hH [value]
    simp only [Session.dispatch, values]
    exact ⟨rfl, twin.define name _⟩
  | getGlobal name =>
    have globals : s'.machine.globals = s.machine.globals := by
      obtain ⟨b, machine, -⟩ := h.machine
      rw [machine]
      rfl
    simp only [Session.dispatch, globals]
    cases s.machine.globals.get? name with
    | some v => exact ⟨h.answerValue hH v, h⟩
    | none => exact ⟨rfl, h⟩
  | reset => exact ⟨rfl, h.withMachine (h.machine.map (fun _ _ => rfl) rfl)⟩
  | clearOutput =>
    exact ⟨rfl, h.withMachine (h.machine.map (g := fun m => { m with output := #[] }) (fun _ _ => rfl) rfl)⟩
  | clearDiagnostics =>
    exact ⟨rfl, h.withMachine (h.machine.map (g := fun m => { m with diagnostics := #[] }) (fun _ _ => rfl) rfl)⟩
  | newMachine config =>
    obtain ⟨b, machine, hb⟩ := h.machine
    have world : s'.machine.world = b.world := by
      rw [machine]
      rfl
    simp only [Session.dispatch, world]
    exact ⟨rfl, h.withMachine (twin_fresh hH hb config preludeNatives)⟩

/-- The activity that a command sets going has a related backing. -/
theorem Twin.entry (h : s.Twin K R s') {c : Command} {a : Activity} (entry : s.entry? c = some a) :
    ∃ b, R a.machine.backing b := by
  have called : ∀ {s s' : Session} (callee : Value) (args : List Value), s.Twin K R s' →
      ∃ b, R (s.machine.startCall callee args).machine.backing b := by
    rintro s s' callee args ⟨⟨b, -, hb⟩, -, -⟩
    exact ⟨b, hb⟩
  cases c with
  | interpret script keepAs =>
    cases entry
    obtain ⟨related, twin⟩ := h.keeping hH script none
    obtain ⟨b, -, rel⟩ := twin.machine.startScript hH related
    exact ⟨b, rel⟩
  | interpretKept name =>
    obtain ⟨p, known, rfl⟩ := Option.map_eq_some_iff.1 entry
    have kept := h.kept name
    rw [known] at kept
    generalize s'.kept.get? name = q at kept
    cases kept with
    | some related =>
      obtain ⟨b, -, rel⟩ := h.machine.startScript hH related
      exact ⟨b, rel⟩
  | callGlobal name args =>
    obtain ⟨callee, -, rfl⟩ := Option.map_eq_some_iff.1 entry
    exact called _ _ (h.realise hH args).2
  | callValue callee args =>
    cases entry
    exact called _ _ (h.realise hH (callee :: args)).2
  | callMany callee count arg =>
    cases entry
    exact called _ _ (h.realise hH [callee, arg]).2
  | _ => cases entry

/-! ## Steps of a session -/

/-- Twins forget their log records alike. -/
theorem Twin.withoutStreams (h : s.Twin K R s') : s.withoutStreams.Twin K R s'.withoutStreams := by
  obtain ⟨b, machine, hb⟩ := h.machine
  refine ⟨⟨_, ?_, hH.withoutStreams hb⟩, h.kept, h.fuel⟩
  unfold Session.withoutStreams
  rw [machine]
  rfl

/-- Twins give the same reply, apart from log records. -/
theorem unlogged_replyOf {m m' : Machine} (h : m.Twin R m') (lines errors : Nat) (a : Answer) :
    (replyOf lines errors a m').unlogged = (replyOf lines errors a m).unlogged := by
  obtain ⟨b, rfl, hb⟩ := h
  have printed : b.world.log.streams.outText = m.world.log.streams.outText := by
    unfold Streams.outText
    rw [hH.printed hb]
    rfl
  have echoed : (m.on b).world.log.streams.outText = m.world.log.streams.outText := printed
  unfold replyOf Reply.unlogged
  rw [echoed]
  rfl

/-- One step of two sessions. -/
theorem Twin.perform (h : s.Twin K R s') (c : Command)
    (together : ∀ a ∈ s.withoutStreams.movesOf c, a.Together R)
    (special : c.isSpecial = true → ∀ s s' : Session, s.Twin K R s' → Corresponds K R (s.dispatch c) (s'.dispatch c)) :
    StepTwin K R (s.perform c) (s'.perform c) := by
  have cleared := h.withoutStreams hH
  obtain ⟨answer, twin⟩ := cleared.dispatch hH c together fun sp => special sp _ _ cleared
  have output : s'.machine.output = s.machine.output := by
    obtain ⟨b, machine, -⟩ := h.machine
    rw [machine]
    rfl
  have diagnostics : s'.machine.diagnostics = s.machine.diagnostics := by
    obtain ⟨b, machine, -⟩ := h.machine
    rw [machine]
    rfl
  refine ⟨?_, ⟨rfl, rfl⟩, twin⟩
  rw [perform_eq, perform_eq, answer, output, diagnostics]
  exact unlogged_replyOf hH twin.machine _ _ _

/-- Two sessions whose activities move together reply in the same way to commands one after the other,
statistics and log records apart, and are twins after each. -/
theorem twin_history {cs : List Command} (h : s.Twin K R s') (together : ∀ a ∈ s.activities cs, a.Together R)
    (special : ∀ c ∈ cs, c.isSpecial = true →
      ∀ s s' : Session, s.Twin K R s' → Corresponds K R (s.dispatch c) (s'.dispatch c)) :
    List.Forall₂ (StepTwin K R) (s.history cs) (s'.history cs) := by
  induction cs generalizing s s' with
  | nil => exact .nil
  | cons c rest ih =>
    have first := h.perform hH c (fun a ha => together a (List.mem_append_right _ ha))
      (special c List.mem_cons_self)
    exact .cons first (ih first.session (fun a ha => together a (List.mem_append_left _ ha))
      fun c hc => special c (List.mem_cons_of_mem _ hc))

/-- Every activity of a session that moves together with a twin has a related backing. -/
theorem related_of_activities {cs : List Command} (h : s.Twin K R s')
    (together : ∀ a ∈ s.activities cs, a.Together R)
    (special : ∀ c ∈ cs, c.isSpecial = true →
      ∀ s s' : Session, s.Twin K R s' → Corresponds K R (s.dispatch c) (s'.dispatch c)) :
    ∀ a ∈ s.activities cs, ∃ b, R a.machine.backing b := by
  induction cs generalizing s s' with
  | nil => exact fun a ha => nomatch ha
  | cons c rest ih =>
    intro a ha
    have here := fun a ha => together a (List.mem_append_right _ ha)
    rcases List.mem_append.1 ha with ha | ha
    · have first := h.perform hH c here (special c List.mem_cons_self)
      exact ih first.session (fun a ha => together a (List.mem_append_left _ ha))
        (fun c hc => special c (List.mem_cons_of_mem _ hc)) a ha
    · unfold movesOf at ha here
      cases entry : s.withoutStreams.entry? c with
      | none =>
        rw [entry] at ha
        cases ha
      | some first =>
        rw [entry] at ha here
        obtain ⟨b, hb⟩ := (h.withoutStreams hH).entry hH entry
        exact Activity.related_of_moves here hb a ha

end

end Session

end ScriptVm
