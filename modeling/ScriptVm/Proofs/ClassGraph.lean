import ScriptVm.Proofs.ClassChains
import ScriptVm.Proofs.GroundedRuns

/-!
# The graph of classes

Classes are built by programs, one instruction after the other, and by hosts, which have builders for
that. A builder has a draft. It starts from a name or from a copy of any class, and goes on with its draft
when it has built a class from it. A `Workshop` has any number of builders and of machines, which all work
in one world, and its steps can come in any order: a move of the machine in use, a change of machines, an
edit of a draft.

`Workshop.Sound` says that classes are numbered in order and that all references to classes lead to classes.
Every step keeps it and leaves the classes that there are alone: `Workshop.Sound.step`.
-/

set_option autoImplicit false

namespace ScriptVm

open Referring

/-! ## Builders -/

/-- What a builder can do to its draft. -/
inductive Edit where
  | superclass (s : Option (Ref .cls))
  | method (name : Text) (f : Ref .closure)
  | staticMethod (name : Text) (f : Ref .closure)
  | nativeMethod (name : Text) (f : Ref .native)
  | nativeStatic (name : Text) (f : Ref .native)
  | field (name : Text) (initial : Value) (isConst : Bool)
  /-- Nests a class under its own name. -/
  | nestedClass (r : Ref .cls)

namespace Edit

/-- The draft after an edit. -/
def apply (e : Edit) (draft : Class) (w : World) : Class × World :=
  match e with
  | superclass s => ({ draft with superclass := s }, w)
  | method name f => (draft.withMethod name f, w)
  | staticMethod name f => ({ draft with staticMethods := draft.staticMethods.insert name f }, w)
  | nativeMethod name f => ({ draft with nativeMethods := draft.nativeMethods.insert name f }, w)
  | nativeStatic name f => ({ draft with nativeStatics := draft.nativeStatics.insert name f }, w)
  | field name initial isConst => w.draftField draft name initial isConst
  | nestedClass r => ({ draft with nested := draft.nested.insert (w.heap.classes.get r).name r }, w)

/-- The classes that an edit refers to are among the first `n`. -/
def Known (n : Nat) : Edit → Prop
  | superclass s => Below n s
  | field _ initial _ => Below n initial
  | nestedClass r => Below n r
  | _ => True

variable {n : Nat} {e : Edit} {draft : Class}

theorem grounds_apply (known : e.Known n) (h : Class.Bounded n draft) : World.Grounds n (e.apply draft) := by
  cases e with
  | superclass s => exact World.grounds_pure ⟨known, h.fields, h.nested⟩
  | field name initial isConst => exact World.grounds_draftField h name known isConst
  | nestedClass r =>
    exact World.grounds_of_classes (fun _ => rfl) fun w k le hw =>
      ⟨hw, mono le h.superclass, mono le h.fields, below_insert (mono le h.nested) _ (mono le known)⟩
  | _ => exact World.grounds_pure ⟨h.superclass, h.fields, h.nested⟩

theorem evolves_apply (e : Edit) (draft : Class) (w : World) : World.Evolves w (e.apply draft w).2 := by
  cases e with
  | field name initial isConst => exact .single (.intern w name)
  | _ => exact .refl

end Edit

/-! ## Workshops -/

/-- A machine, with what it is about to do if it is at work. -/
structure Worker where
  machine : Machine
  busy : Option (List Pending × Control) := none

/-- A host with machines and builders in one world. -/
structure Workshop where
  /-- The session of the machine in use, which has the world. -/
  session : Session
  busy : Option (List Pending × Control) := none
  /-- The machines that are not in use. -/
  parked : List Worker := []
  /-- The drafts of the builders. -/
  builders : List Class := []

/-- What a host does besides running its machines. -/
inductive Act where
  | drawId
  | addProperty (id : ShapeId) (s : Symbol)
  | sealShape (id : ShapeId)
  | setGlobal (name : Text) (v : Value)
  /-- Keeps a script under a name. -/
  | keep (name : Text) (p : Proto)
  /-- Makes one more machine. -/
  | addMachine (config : Config)
  /-- Goes over to another machine, from whatever the one in use is doing. -/
  | useMachine (i : Nat)
  | startBuilder (name : Text)
  /-- Starts a builder from a copy of a class. -/
  | startFrom (r : Ref .cls)
  | edit (i : Nat) (e : Edit)
  | build (i : Nat)

namespace Workshop

/-- The world that all work in. -/
def world (w : Workshop) : World := w.session.machine.world

/-- The workshop in another state of its world. -/
def inWorld (w : Workshop) (world : World) : Workshop :=
  { w with session := { w.session with machine := { w.session.machine with world } } }

/-- The workshop after a move of the machine in use. -/
def moved (w : Workshop) : Move → Workshop
  | .continue a =>
    { w with session := { w.session with machine := a.machine }, busy := some (a.pending, a.control) }
  | .done _ machine => { w with session := { w.session with machine }, busy := none }

/-- The workshop after an act of the host. -/
def act (w : Workshop) : Act → Workshop
  | .drawId => w.inWorld w.world.drawId.2
  | .addProperty id s => w.inWorld { w.world with shapes := (w.world.shapes.addProperty id s).2 }
  | .sealShape id => w.inWorld { w.world with shapes := w.world.shapes.sealShape id }
  | .setGlobal name v => { w with session := w.session.define name v }
  | .keep name p => { w with session := { w.session with kept := w.session.kept.insert name p } }
  | .addMachine config =>
    let machine := Machine.fresh config preludeNatives w.world
    { w.inWorld machine.world with parked := w.parked ++ [{ machine }] }
  | .useMachine i =>
    match w.parked[i]? with
    | some p =>
      { w with
        session := { w.session with machine := { p.machine with world := w.world } }
        busy := p.busy
        parked := w.parked.set i { machine := w.session.machine, busy := w.busy } }
    | none => w
  | .startBuilder name =>
    let (draft, world) := w.world.draftClass name
    { w.inWorld world with builders := w.builders ++ [draft] }
  | .startFrom r => { w with builders := w.builders ++ [w.world.heap.classes.get r] }
  | .edit i e =>
    match w.builders[i]? with
    | some draft =>
      let (draft, world) := e.apply draft w.world
      { w.inWorld world with builders := w.builders.set i draft }
    | none => w
  | .build i =>
    match w.builders[i]? with
    | some draft =>
      let (r, world) := w.world.publish draft
      -- The builder goes on with a copy of the class.
      { w.inWorld world with builders := w.builders.set i (world.heap.classes.get r) }
    | none => w

/-- The classes that an act refers to exist. -/
def Knows (w : Workshop) : Act → Prop
  | .setGlobal _ v => Below w.world.classCount v
  | .startFrom r => w.world.heap.classes.has r
  | .edit _ e => e.Known w.world.classCount
  | _ => True

/-- What can happen next: a command to a machine that is not at work, the first move of a script or call, a
move of a machine that is at work, or an act of the host at any time. -/
inductive Step : Workshop → Workshop → Prop
  | perform {w : Workshop} (idle : w.busy = none) (c : Command) :
      Step w { w with session := (w.session.perform c).2 }
  | enter {w : Workshop} (idle : w.busy = none) {c : Command} {a : Activity}
      (entry : w.session.withoutStreams.entry? c = some a) : Step w (w.moved (.continue a))
  | move {w : Workshop} {pending : List Pending} {control : Control} (busy : w.busy = some (pending, control)) :
      Step w (w.moved (Activity.step ⟨w.session.machine, pending, control⟩))
  | act {w : Workshop} {a : Act} (known : w.Knows a) : Step w (w.act a)

/-- What can come after any number of steps. -/
abbrev Later : Workshop → Workshop → Prop := Relation.ReflTransGen Step

/-- A workshop that comes from the start of a session. -/
def Reachable (w : Workshop) : Prop :=
  ∃ config level fuel, Later { session := Session.start config level fuel } w

end Workshop

/-! ## What a workshop keeps -/

instance : Referring Pending := nowhere

instance : Referring Worker :=
  ⟨fun n p => Below n p.machine ∧ Below n p.busy, fun le h => ⟨mono le h.1, mono le h.2⟩⟩

/-- A machine may be put into a later world. -/
theorem Machine.Bounded.inWorld {n : Nat} {m : Machine} {w : World} (h : m.Bounded n) (grounded : w.Grounded)
    (le : n ≤ w.classCount) : Machine.Grounded { m with world := w } :=
  ⟨grounded, mono le h.stack, mono le h.iterations, mono le h.globals⟩

theorem evolves_fresh (config : Config) (natives : List Native) (w : World) :
    World.Evolves w (Machine.fresh config natives w).world :=
  (Session.evolves_foldl_withNative natives { config, world := w }).1

namespace Workshop

variable {w w' : Workshop} {world : World}

/-- Classes are numbered in order, and all references to classes in the workshop lead to classes. -/
structure Sound (w : Workshop) : Prop where
  numbered : w.world.Numbered
  machine : w.session.Grounded
  busy : Below w.world.classCount w.busy
  parked : Below w.world.classCount w.parked
  builders : Below w.world.classCount w.builders

/-- The workshop `w'` is sound, and has the classes of `w` and maybe more. -/
structure Follows (w w' : Workshop) : Prop where
  sound : w'.Sound
  extend : w.world.Extends w'.world

namespace Sound

theorem inWorld (h : w.Sound) (numbered : world.Numbered) (grounded : world.Grounded)
    (extend : w.world.Extends world) : w.Follows (w.inWorld world) where
  sound :=
    { numbered
      machine := Machine.Bounded.inWorld h.machine grounded extend.count
      busy := mono extend.count h.busy
      parked := mono extend.count h.parked
      builders := mono extend.count h.builders }
  extend := extend

/-- An operation that only changes the world. -/
theorem evolved {α : Type} [Referring α] {f : World → α × World} (h : w.Sound)
    (grounds : World.Grounds w.world.classCount f) (evolves : World.Evolves w.world (f w.world).2) :
    w.Follows (w.inWorld (f w.world).2) ∧ Below (f w.world).2.classCount (f w.world).1 := by
  obtain ⟨grounded, -, result⟩ := grounds w.world h.machine.world (Nat.le_refl _)
  exact ⟨h.inWorld (Session.law_numbered.evolves evolves h.numbered) grounded
    ((Session.law_extends w.world).evolves evolves (.refl _)), result⟩

end Sound

/-- Builders may get other drafts. -/
theorem Follows.withBuilders (h : w.Follows w') {drafts : List Class} (known : Below w'.world.classCount drafts) :
    w.Follows { w' with builders := drafts } := ⟨{ h.sound with builders := known }, h.extend⟩

/-- Shapes may be made. -/
theorem Sound.withShapes (h : w.Sound) {shapes : ShapeRegistry} (trie : shapes.Trie)
    (grows : w.world.shapes.Grows shapes) (spares : w.world.shapes.Spares shapes) :
    w.Follows (w.inWorld { w.world with shapes }) := by
  have regular := h.numbered.regular.withRows trie grows (h.numbered.regular.rows_grown grows) w.world.log
  exact h.inWorld (h.numbered.withShapes regular rfl spares) { h.machine.world with } (.of_classes rfl)

/-- Another state of the session in the same world. -/
theorem Sound.withSession (h : w.Sound) {session : Session} (same : session.machine.world = w.world)
    (grounded : session.Grounded) : w.Follows { w with session } := by
  have world : ({ w with session } : Workshop).world = w.world := same
  exact ⟨⟨world ▸ h.numbered, grounded, world ▸ h.busy, world ▸ h.parked, world ▸ h.builders⟩,
    .of_classes (congrArg (fun v : World => v.heap.classes) world)⟩

/-- One more machine, which has changed the world. -/
theorem Sound.park (h : w.Sound) {machine : Machine} (grounded : machine.Grounded)
    (evolves : World.Evolves w.world machine.world) :
    w.Follows { w.inWorld machine.world with parked := w.parked ++ [{ machine }] } := by
  obtain ⟨sound, extend⟩ := h.inWorld (Session.law_numbered.evolves evolves h.numbered) grounded.world
    ((Session.law_extends w.world).evolves evolves (.refl _))
  exact ⟨{ sound with parked := below_append sound.parked (below_cons ⟨grounded, below_none⟩ below_nil) }, extend⟩

theorem Sound.useMachine (h : w.Sound) (i : Nat) : w.Follows (w.act (.useMachine i)) := by
  unfold act
  simp only
  split
  next p found =>
    obtain ⟨machine, busy⟩ := h.parked p (List.mem_of_getElem? found)
    exact ⟨⟨h.numbered, Machine.Bounded.inWorld machine h.machine.world (Nat.le_refl _), busy,
      below_set h.parked i ⟨h.machine, h.busy⟩, h.builders⟩, .refl _⟩
  next => exact ⟨h, .refl _⟩

/-- A builder publishes a class and goes on with a copy of it. -/
theorem Sound.build (h : w.Sound) (i : Nat) : w.Follows (w.act (.build i)) := by
  unfold act
  simp only
  split
  next draft found =>
    have known : Below w.world.classCount draft := h.builders draft (List.mem_of_getElem? found)
    obtain ⟨grounded, -, -⟩ := World.grounds_publish known w.world h.machine.world (Nat.le_refl _)
    have built := h.inWorld (h.numbered.publish draft) grounded (.publish w.world draft)
    exact built.withBuilders (below_set built.sound.builders i (grounded.heap.classes _))
  next => exact ⟨h, .refl _⟩

theorem Sound.edit (h : w.Sound) (i : Nat) {e : Edit} (known : e.Known w.world.classCount) :
    w.Follows (w.act (.edit i e)) := by
  unfold act
  simp only
  split
  next draft found =>
    have drafted : Below w.world.classCount draft := h.builders draft (List.mem_of_getElem? found)
    obtain ⟨evolved, edited⟩ := h.evolved (Edit.grounds_apply known drafted) (e.evolves_apply draft w.world)
    exact evolved.withBuilders (below_set evolved.sound.builders i edited)
  next => exact ⟨h, .refl _⟩

/-- Whatever a host does besides running its machines keeps the workshop sound. -/
theorem Sound.act (h : w.Sound) {a : Act} (known : w.Knows a) : w.Follows (w.act a) := by
  have trie := h.numbered.regular.shapes
  cases a with
  | drawId => exact h.withShapes trie.drawId (ShapeRegistry.grows_drawId _) (ShapeRegistry.spares_drawId _)
  | addProperty id s =>
    exact h.withShapes (trie.addProperty id s) (trie.grows_addProperty id s) (ShapeRegistry.spares_addProperty _ id s)
  | sealShape id =>
    exact h.withShapes (trie.sealShape id) (ShapeRegistry.grows_sealShape _ id) (ShapeRegistry.spares_sealShape _ id)
  | setGlobal name v => exact h.withSession rfl (Session.grounded_define h.machine name known)
  | keep name p => exact h.withSession rfl h.machine
  | addMachine config =>
    exact h.park (Session.grounded_fresh config preludeNatives h.machine.world) (evolves_fresh config _ w.world)
  | useMachine i => exact h.useMachine i
  | startBuilder name =>
    obtain ⟨evolved, drafted⟩ := h.evolved (World.grounds_draftClass name) (.single (.newStatics w.world))
    exact evolved.withBuilders (below_append evolved.sound.builders (below_cons drafted below_nil))
  | startFrom r =>
    exact ⟨{ h with builders := below_append h.builders (below_cons (h.machine.world.heap.classes r) below_nil) },
      .refl _⟩
  | edit i e => exact h.edit i known
  | build i => exact h.build i

/-! ## Steps and runs -/

/-- A machine that has been at work is put back. -/
theorem Sound.moved (h : w.Sound) {v : Move} (numbered : v.machine.world.Numbered) (grounded : v.Grounded)
    (extend : w.world.Extends v.machine.world) : w.Follows (w.moved v) := by
  have le := extend.count
  cases v with
  | «continue» a =>
    exact ⟨⟨numbered, grounded.machine, below_some ⟨fun _ _ => trivial, grounded.control⟩, mono le h.parked,
      mono le h.builders⟩, extend⟩
  | done o m => exact ⟨⟨numbered, grounded, below_none, mono le h.parked, mono le h.builders⟩, extend⟩

/-- What one step keeps. -/
theorem Sound.step (h : w.Sound) (step : w.Step w') : w.Follows w' := by
  have law := Session.law_extends w.world
  cases step with
  | perform idle c =>
    have more : w.world.Extends (w.session.perform c).2.machine.world :=
      law.performed (fun _ h => h.trans (.of_classes rfl)) (.refl _) c
    have numbered := Session.law_numbered.performed (fun caches h => h.withCaches caches) h.numbered c
    exact ⟨⟨numbered, h.machine.perform c, mono more.count h.busy, mono more.count h.parked,
      mono more.count h.builders⟩, more⟩
  | enter idle entry =>
    exact h.moved (Session.law_numbered.entry (Session.law_numbered.cleared h.numbered) entry)
      (h.machine.withoutStreams.entry entry) (law.entry (law.cleared (.refl _)) entry)
  | @move pending control busy =>
    obtain ⟨-, control⟩ := h.busy _ busy
    exact h.moved (v := Activity.step _) (Session.law_numbered.step h.numbered)
      (Activity.Grounded.step ⟨h.machine, control⟩) (law.step (.refl _))
  | act known => exact h.act known

/-- What a run keeps. -/
theorem Sound.later (h : w.Sound) (later : w.Later w') : w.Follows w' := by
  induction later with
  | refl => exact ⟨h, .refl _⟩
  | tail _ step ih =>
    have next := ih.sound.step step
    exact ⟨next.sound, ih.extend.trans next.extend⟩

theorem sound_start (config : Config) (level : Level) (fuel : Nat) :
    Sound { session := Session.start config level fuel } where
  numbered := Session.law_numbered.evolves (evolves_fresh config preludeNatives _) (World.numbered_initial _)
  machine := Session.grounded_start config level fuel
  busy := below_none
  parked := below_nil
  builders := below_nil

end Workshop

end ScriptVm
