import ScriptVm.Proofs.StaticHistory
import ScriptVm.Proofs.WorkshopLaws

/-!
# Static fields of reachable classes

Hosts build classes, rebuild them and derive other ones from them, and so do programs. A class that is rebuilt
shares its cell of static fields with the class that it is rebuilt from, so a cell can come several times along
one chain.

`Workshop.static_fields_are_one_store` is the main result: in every class graph that can be reached, each cell is
one store for the fields that it declares.
-/

set_option autoImplicit false

namespace ScriptVm

/-! ## Assignments by programs -/

namespace Exec

variable {m : Machine} {c : Ref .cls} {name : Text} {v : Value}

/-- An assignment to a static field that is refused is an error of the program, and leaves the machine as it is. -/
theorem run_setProperty_refused (site : Site) (refused : m.heap.setStatic? c name v = none) :
    (setProperty (.cls c) name v site).run m = .error (.error ⟨.constantField name, m.span⟩) m := by
  unfold setProperty
  dsimp only
  rw [run_bind_of_ok (run_heap m), refused]
  rfl

/-- Any other one writes the heap and nothing else. -/
theorem run_setProperty_done (site : Site) {h : Heap} (done : m.heap.setStatic? c name v = some h) :
    (setProperty (.cls c) name v site).run m = .ok () { m with world := { m.world with heap := h } } := by
  unfold setProperty
  dsimp only
  rw [run_bind_of_ok (run_heap m), done]
  rfl

end Exec

/-! ## Workshops -/

theorem World.get_publish (w : World) (draft : Class) :
    (w.publish draft).2.heap.classes.get (w.publish draft).1 = { draft with tableId := w.drawId.1 } :=
  Pool.get_alloc_self w.heap.classes _

/-- An edit leaves the draft its cell. -/
theorem Edit.statics_apply (e : Edit) (draft : Class) (w : World) : (e.apply draft w).1.statics = draft.statics := by
  cases e <;> rfl

theorem Edit.heap_apply (e : Edit) (draft : Class) (w : World) : (e.apply draft w).2.heap = w.heap := by
  cases e <;> rfl

namespace Workshop

open Heap

variable {w w' : Workshop} {anew : Ref .statics → Text → Prop} {c : Ref .cls} {cell : Ref .statics} {name : Text}

/-- Every class has a cell for its static fields, and so does every draft. -/
structure Celled (w : Workshop) : Prop where
  classes : w.world.heap.Celled
  drafts : ∀ draft ∈ w.builders, w.world.heap.statics.has draft.statics

/-- The step from `w` to `w'` is a move that declares the static field in the cell, or a command that does. -/
def Declares (w w' : Workshop) (cell : Ref .statics) (name : Text) : Prop :=
  (∃ pending control, w.busy = some (pending, control) ∧
    w' = w.moved (Activity.step ⟨w.session.machine, pending, control⟩) ∧
      Activity.Declares ⟨w.session.machine, pending, control⟩ cell name) ∨
  ∃ command, w.busy = none ∧ w' = { w with session := (w.session.perform command).2 } ∧
    w.session.withoutStreams.Declares command cell name

/-- What can come after steps that do not declare the static field in the cell. -/
abbrev Sparing (cell : Ref .statics) (name : Text) : Workshop → Workshop → Prop :=
  Relation.ReflTransGen fun w w' => w.Step w' ∧ ¬w.Declares w' cell name

/-- What is left of the static fields of `w` in `w'`. -/
structure Continues (anew : Ref .statics → Text → Prop) (w w' : Workshop) : Prop where
  heap : w.world.heap.Preserves anew w'.world.heap
  drafts : ∀ draft ∈ w'.builders, w'.world.heap.statics.has draft.statics

theorem Celled.continue (h : w.Celled) (heap : w.world.heap.Preserves anew w'.world.heap)
    (builders : w'.builders = w.builders) : w.Continues anew w' := by
  refine ⟨heap, fun draft mem => heap.cells _ (h.drafts draft ?_)⟩
  rwa [builders] at mem

/-- A builder publishes a class with the cell of its draft, and goes on with this cell. -/
theorem Celled.build (h : w.Celled) (i : Nat) : w.Continues anew (w.act (.build i)) := by
  unfold act
  dsimp only
  split
  next draft found =>
    have cell := h.drafts draft (List.mem_of_getElem? found)
    refine ⟨.publish _ fun _ => cell, fun other mem => ?_⟩
    rcases List.mem_or_eq_of_mem_set mem with before | rfl
    · exact h.drafts other before
    · rw [w.world.get_publish draft]
      exact cell
  next => exact h.continue (.refl _) rfl

theorem Celled.edit (h : w.Celled) (i : Nat) (e : Edit) : w.Continues anew (w.act (.edit i e)) := by
  unfold act
  dsimp only
  split
  next draft found =>
    have heap : (w.inWorld (e.apply draft w.world).2).world.heap = w.world.heap := e.heap_apply draft w.world
    refine ⟨.of_classState (congrArg classState heap), fun other mem => ?_⟩
    show (w.inWorld (e.apply draft w.world).2).world.heap.statics.has other.statics
    rw [heap]
    rcases List.mem_or_eq_of_mem_set mem with before | rfl
    · exact h.drafts other before
    · rw [e.statics_apply draft w.world]
      exact h.drafts draft (List.mem_of_getElem? found)
  next => exact h.continue (.refl _) rfl

/-- Whatever a host does besides running its machines declares no static fields. -/
theorem Celled.act (h : w.Celled) {a : Act} (known : w.Knows a) : w.Continues anew (w.act a) := by
  cases a with
  | drawId | addProperty | sealShape | setGlobal | keep => exact h.continue (.of_classState rfl) rfl
  | addMachine config =>
    have fresh := Session.classState_fresh config preludeNatives w.world
    have builders : (w.act (.addMachine config)).builders = w.builders := by simp only [Workshop.act, inWorld]
    exact h.continue (.of_classState fresh) builders
  | useMachine i =>
    unfold Workshop.act
    dsimp only
    split <;> exact h.continue (.of_classState rfl) rfl
  | startBuilder name =>
    refine ⟨.newCell w.world.heap, fun draft mem => ?_⟩
    rcases List.mem_append.1 mem with before | new
    · exact Pool.has_alloc.2 (.inl (h.drafts draft before))
    · cases List.mem_singleton.1 new
      exact Pool.has_alloc.2 (.inr rfl)
  | startFrom r =>
    refine ⟨.refl _, fun draft mem => ?_⟩
    rcases List.mem_append.1 mem with before | new
    · exact h.drafts draft before
    · cases List.mem_singleton.1 new
      exact h.classes r known
  | edit i e => exact h.edit i e
  | build i => exact h.build i

/-- What one step keeps. -/
theorem Celled.step (h : w.Celled) (sound : w.Sound) (step : w.Step w') : w.Continues (w.Declares w') w' := by
  cases step with
  | perform idle command =>
    have kept := Session.preserves_perform sound.machine h.classes command
    exact h.continue (kept.mono fun cell name declares => .inr ⟨command, idle, rfl, declares⟩) rfl
  | enter idle entry =>
    exact h.continue (Session.preserves_entry (s := w.session.withoutStreams) entry) rfl
  | @move pending control busy =>
    obtain ⟨-, grounded⟩ := sound.busy _ busy
    have kept := Activity.preserves_step (a := ⟨w.session.machine, pending, control⟩) ⟨sound.machine, grounded⟩
    have moved : (w.moved (Activity.step ⟨w.session.machine, pending, control⟩)).world.heap =
        (Activity.step ⟨w.session.machine, pending, control⟩).machine.heap := by
      cases Activity.step ⟨w.session.machine, pending, control⟩ <;> rfl
    rw [← moved] at kept
    refine h.continue (kept.mono fun cell name declares => .inl ⟨pending, control, busy, rfl, declares⟩) ?_
    cases Activity.step ⟨w.session.machine, pending, control⟩ <;> rfl
  | act known => exact h.act known

theorem Continues.celled (kept : w.Continues anew w') (h : w.Celled) : w'.Celled :=
  ⟨kept.heap.celled h.classes, kept.drafts⟩

theorem Celled.later (h : w.Celled) (sound : w.Sound) (later : w.Later w') : w'.Celled := by
  induction later with
  | refl => exact h
  | tail earlier step ih => exact (ih.step (sound.later earlier).sound step).celled ih

theorem celled_start (config : Config) (level : Level) (fuel : Nat) :
    Celled { session := Session.start config level fuel } := by
  refine ⟨?_, List.forall_mem_nil _⟩
  have none : Heap.Celled {} := fun r known => absurd known (Nat.not_lt_zero _)
  have fresh : (Session.start config level fuel).machine.heap.classState = Heap.classState {} :=
    Session.classState_fresh config preludeNatives _
  have kept : Heap.Preserves (fun _ _ => False) {} (Session.start config level fuel).machine.heap :=
    .of_classState fresh
  exact kept.celled none

theorem Reachable.celled (reachable : w.Reachable) : w.Celled := by
  obtain ⟨config, level, fuel, later⟩ := reachable
  exact (celled_start config level fuel).later (sound_start config level fuel) later

/-- A constant entry stays as it is until it is declared anew. -/
theorem Celled.constant (h : w.Celled) (sound : w.Sound) {old : Value}
    (entry : w.world.heap.fieldIn? cell name = some ⟨old, true⟩) (sparing : Sparing cell name w w') :
    w'.world.heap.fieldIn? cell name = some ⟨old, true⟩ := by
  have kept : w'.Celled ∧ w'.Sound ∧ w'.world.heap.fieldIn? cell name = some ⟨old, true⟩ := by
    induction sparing with
    | refl => exact ⟨h, sound, entry⟩
    | tail _ step ih =>
      obtain ⟨celled, sound, entry⟩ := ih
      have next := celled.step sound step.1
      refine ⟨next.celled celled, (sound.step step.1).sound, ?_⟩
      exact (next.heap.constant cell name old entry).resolve_right step.2
  exact kept.2.2

/-- The cells along the chain of a class never change. -/
theorem Sound.staticCells (h : w.Sound) (known : w.world.heap.classes.has c) (later : w.Later w') :
    w'.world.heap.staticCells c = w.world.heap.staticCells c := by
  have next := h.later later
  unfold Heap.staticCells
  rw [(next.extend.keeps h.machine.world next.sound.machine.world known).chain]
  refine List.map_congr_left fun k mem => ?_
  rw [next.extend.same k (h.machine.world.heap.ordered.has_of_mem_chain known k mem)]

/-- A builder starts from the class, edits its draft, and builds. -/
def rebuild (w : Workshop) (r : Ref .cls) (es : List Edit) : Workshop :=
  (es.foldl (fun w e => w.act (.edit i e)) (w.act (.startFrom r))).act (.build i)
where i := w.builders.length

/-- Edits make no class, and leave the draft its cell. -/
theorem edited {i : Nat} {draft : Class} (es : List Edit) (found : w.builders[i]? = some draft) :
    (es.foldl (fun w e => w.act (.edit i e)) w).world.heap = w.world.heap ∧
      ∃ draft', (es.foldl (fun w e => w.act (.edit i e)) w).builders[i]? = some draft' ∧
        draft'.statics = draft.statics := by
  induction es generalizing w draft with
  | nil => exact ⟨rfl, draft, found, rfl⟩
  | cons e rest ih =>
    have act : w.act (.edit i e) =
        { w.inWorld (e.apply draft w.world).2 with builders := w.builders.set i (e.apply draft w.world).1 } := by
      simp only [Workshop.act, found]
    have found' : (w.act (.edit i e)).builders[i]? = some (e.apply draft w.world).1 := by
      rw [act]
      exact List.getElem?_set_self (List.getElem?_eq_some_iff.1 found).1
    obtain ⟨heap, draft', later, cell⟩ := ih found'
    refine ⟨heap.trans ?_, draft', later, cell.trans (e.statics_apply draft w.world)⟩
    rw [act]
    exact e.heap_apply draft w.world

/-- The class that is rebuilt from another one shares its cell. -/
theorem statics_rebuild (w : Workshop) (r : Ref .cls) (es : List Edit) :
    (w.rebuild r es).world.heap.classes.has ⟨w.world.classCount⟩ ∧
      ((w.rebuild r es).world.heap.classes.get ⟨w.world.classCount⟩).statics =
        (w.world.heap.classes.get r).statics := by
  have found : (w.act (.startFrom r)).builders[w.builders.length]? = some (w.world.heap.classes.get r) :=
    List.getElem?_concat_length
  obtain ⟨heap, draft, edited, cell⟩ := edited es found
  unfold rebuild rebuild.i
  generalize es.foldl (fun w' e => w'.act (.edit w.builders.length e)) (w.act (.startFrom r)) = u at heap edited ⊢
  have count : w.world.classCount = u.world.classCount := congrArg (fun h : Heap => h.classes.size) heap.symm
  have built : (u.act (.build w.builders.length)).world = (u.world.publish draft).2 := by
    simp only [Workshop.act, edited]
    rfl
  rw [built, count, ← cell]
  refine ⟨Pool.has_alloc.2 (.inr rfl), ?_⟩
  show ((u.world.publish draft).2.heap.classes.get (u.world.publish draft).1).statics = draft.statics
  rw [u.world.get_publish draft]

/-- **Static fields are one store for each cell.** In every workshop that comes from the start of a session,
whatever classes have been built, rebuilt and derived, a class that is rebuilt from another one shares its cell, and
the cells along the chain of a class never change. Assigning to a static field is refused, and changes nothing, if
and only if the first cell along the chain that declares the field marks it constant; else it comes to what
`Heap.Assigns` says. Declaring a static field writes this entry of the class's own cell, and a constant field keeps
its value until it is declared in the same cell again. -/
theorem static_fields_are_one_store (reachable : w.Reachable) (known : w.world.heap.classes.has c) (name : Text)
    (v : Value) (site : Site) :
    let h := w.world.heap
    let m := w.session.machine
    (∀ es, (w.rebuild c es).world.heap.classes.has ⟨w.world.classCount⟩ ∧
      ((w.rebuild c es).world.heap.classes.get ⟨w.world.classCount⟩).statics = (h.classes.get c).statics) ∧
    (∀ w', w.Later w' → w'.world.heap.staticCells c = h.staticCells c) ∧
    (h.setStatic? c name v = none ↔ h.Fixed c name) ∧
    (h.Fixed c name → (Exec.setProperty (.cls c) name v site).run m = .error (.error ⟨.constantField name, m.span⟩) m) ∧
    (∀ h', h.setStatic? c name v = some h' → h.Assigns c name v h' ∧
      (Exec.setProperty (.cls c) name v site).run m = .ok () { m with world := { m.world with heap := h' } }) ∧
    (∀ isConst cell n, (h.defineStatic c name v isConst).fieldIn? cell n =
      if cell = (h.classes.get c).statics ∧ n = name then some ⟨v, isConst⟩ else h.fieldIn? cell n) ∧
    ∀ cell old w', h.fieldIn? cell name = some ⟨old, true⟩ → Sparing cell name w w' →
      w'.world.heap.fieldIn? cell name = some ⟨old, true⟩ := by
  intro h m
  have sound := reachable.sound
  have celled := reachable.celled
  have assigned := celled.classes.has_assignedCell sound.machine.world.heap.ordered known name
  refine ⟨w.statics_rebuild c, fun w' => sound.staticCells known, setStatic?_eq_none_iff, fun fixed => ?_,
    fun h' done => ⟨assigns_of_setStatic? assigned done, ?_⟩, fun isConst cell n => ?_,
    fun cell old w' entry sparing => celled.constant sound entry sparing⟩
  · exact Exec.run_setProperty_refused site (setStatic?_eq_none_iff.2 fixed)
  · exact Exec.run_setProperty_done site done
  · exact fieldIn?_putEntry (celled.classes c known) cell n

/-- A session in which a class declares a constant static field. -/
def limiting : Session :=
  ((Session.start {} .off 100).perform
    (.buildClass { global := "Base", name := "Base", statics := [("limit", .int 3, true)] })).2

/-- The session with a class that inherits from this one. -/
def limited : Workshop :=
  { session := (limiting.perform (.buildClass { global := "Sub", name := "Sub", superclass := some "Base" })).2 }

/-- The limit cannot be assigned to in the subclass, and stays as it is when a host starts a builder. -/
theorem limit_is_refused :
    limited.Reachable ∧ limited.world.heap.classes.has ⟨1⟩ ∧
      limited.world.heap.setStatic? ⟨1⟩ "limit" (.int 9) = none ∧
      ∃ cell old, limited.world.heap.fieldIn? cell "limit" = some ⟨old, true⟩ ∧
        (limited.act (.startFrom ⟨1⟩)).world.heap.fieldIn? cell "limit" = some ⟨old, true⟩ := by
  have reachable : limited.Reachable :=
    ⟨{}, .off, 100, (Relation.ReflTransGen.single (.perform rfl _)).tail
      (.perform (w := { session := limiting }) rfl _)⟩
  have known : limited.world.heap.classes.has ⟨1⟩ := by
    have count : 1 < limited.world.classCount := by decide +kernel
    exact count
  have declares : limited.world.heap.declaringCell? ⟨1⟩ "limit" = some ⟨0⟩ := by decide +kernel
  have const : (limited.world.heap.fieldIn? ⟨0⟩ "limit").map StaticField.isConst = some true := by decide +kernel
  obtain ⟨⟨old, isConst⟩, entry, rfl⟩ := Option.map_eq_some_iff.1 const
  obtain ⟨-, -, refused, -, -, -, kept⟩ := static_fields_are_one_store reachable known "limit" (.int 9) default
  refine ⟨reachable, known, refused.2 ⟨⟨0⟩, old, declares, entry⟩, ⟨0⟩, old, entry, ?_⟩
  refine kept ⟨0⟩ old _ entry (.single ⟨.act known, ?_⟩)
  rintro (⟨pending, control, busy, -⟩ | ⟨command, -, same, -⟩)
  · cases busy
  · cases congrArg Workshop.builders same

end Workshop

end ScriptVm
