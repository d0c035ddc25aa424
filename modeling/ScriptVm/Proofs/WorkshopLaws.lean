import ScriptVm.Proofs.ClassGraph
import ScriptVm.Proofs.ShapeHistory

/-!
# Laws of a workshop

A law of the world is kept by everything that machines do. For a workshop it has to be kept by the acts of
the host as well, which may draw numbers and place properties, and publish the drafts of builders.
`Workshop.Law.later` is the rule for such laws.

Two laws follow: every class and every draft is well made, and the registry of shapes only grows.

`Workshop.reachable_class_graph` says that the numbers of classes and shapes are never shared, that
superclasses form no cycle, that a class carries its own method `init` as its constructor, and that it never
changes again.
-/

set_option autoImplicit false

namespace ScriptVm

open World Referring

/-- No member that a host adds declares a field twice or leaves the constructor behind. -/
theorem Edit.wellMade_apply (e : Edit) {draft : Class} (made : draft.WellMade) (w : World) :
    (e.apply draft w).1.WellMade := by
  cases e with
  | field name initial isConst => exact wellMade_draftField made w name initial isConst
  | method name f => exact made.withMethod name f
  | _ => exact ⟨made.once, made.init⟩

namespace Workshop

variable {w w' : Workshop} {P : World → Prop}

/-- A law of the world that is kept by everything that machines and hosts do. -/
structure Law (P : World → Prop) : Prop extends Session.Law P where
  recorded : ∀ {w : World} (caches : CacheRegistry), P w → P { w with caches }
  drawn : ∀ {w : World}, P w → P w.drawId.2
  placed : ∀ {w : World} (id : ShapeId) (s : Symbol), P w → P { w with shapes := (w.shapes.addProperty id s).2 }

theorem world_moved (w : Workshop) (v : Move) : (w.moved v).world = v.machine.world := by cases v <;> rfl

/-- An act of the host keeps a law, if the drafts of the builders are well made. -/
theorem Law.act (law : Law P) (made : ∀ d ∈ w.builders, d.WellMade) (h : P w.world) (a : Act) :
    P (w.act a).world := by
  cases a with
  | drawId => exact law.drawn h
  | addProperty id s => exact law.placed id s h
  | sealShape id => exact law.change (.sealShape w.world id) h
  | addMachine config => exact law.evolves (evolves_fresh config preludeNatives w.world) h
  | useMachine i =>
    simp only [Workshop.act]
    split <;> exact h
  | startBuilder name => exact law.change (.newStatics w.world) h
  | edit i e =>
    simp only [Workshop.act]
    split
    next draft _ => exact law.evolves (e.evolves_apply draft w.world) h
    next => exact h
  | build i =>
    simp only [Workshop.act]
    split
    next draft found =>
      exact law.change (.publish w.world draft fun _ => made draft (List.mem_of_getElem? found)) h
    next => exact h
  | _ => exact h

/-- What one step keeps. -/
theorem Law.step (law : Law P) (made : ∀ d ∈ w.builders, d.WellMade) (h : P w.world) (step : w.Step w') :
    P w'.world := by
  cases step with
  | perform idle c => exact law.performed law.recorded h c
  | @enter idle c a entry => exact law.entry (law.cleared h) entry
  | @move pending control busy =>
    rw [world_moved]
    exact law.toLaw.step (a := ⟨w.session.machine, pending, control⟩) h
  | act known => exact law.act made h _

/-! ## Declarations -/

/-- Every class and every draft of a builder is well made. -/
structure Tidy (w : Workshop) : Prop where
  world : w.world.Tidy
  builders : ∀ d ∈ w.builders, d.WellMade

theorem law_tidy : Law World.Tidy where
  toLaw := Session.law_tidy
  recorded _ h := h.congr rfl rfl rfl rfl
  drawn {w} h := ⟨h.regular.withRows h.regular.shapes.drawId (ShapeRegistry.grows_drawId _)
    (h.regular.rows_grown (ShapeRegistry.grows_drawId _)) w.log, h.made⟩
  placed {w} id s h := by
    have grows := h.regular.shapes.grows_addProperty id s
    exact ⟨h.regular.withRows (h.regular.shapes.addProperty id s) grows (h.regular.rows_grown grows) w.log, h.made⟩

/-- Drafts are copies of classes, or have been edited. -/
theorem Tidy.act (h : w.Tidy) (a : Act) : (w.act a).Tidy := by
  refine ⟨law_tidy.act h.builders h.world a, ?_⟩
  have old := h.builders
  have written : ∀ (i : Nat) (c : Class), c.WellMade → ∀ d ∈ w.builders.set i c, d.WellMade := by
    intro i c made d mem
    rcases List.mem_or_eq_of_mem_set mem with mem | rfl
    · exact old d mem
    · exact made
  have added : ∀ c : Class, c.WellMade → ∀ d ∈ w.builders ++ [c], d.WellMade := by
    intro c made d mem
    rcases List.mem_append.1 mem with mem | mem
    · exact old d mem
    · rw [List.mem_singleton.1 mem]
      exact made
  cases a with
  | addMachine config =>
    simp only [Workshop.act, inWorld]
    exact old
  | useMachine i =>
    simp only [Workshop.act]
    split <;> exact old
  | startBuilder name => exact added _ (Class.wellMade_bare _ _)
  | startFrom r => exact added _ (h.world.made r)
  | edit i e =>
    simp only [Workshop.act]
    split
    next draft found =>
      exact written i _ (Edit.wellMade_apply e (old draft (List.mem_of_getElem? found)) w.world)
    next => exact old
  | build i =>
    have built := (law_tidy.act h.builders h.world (.build i)).made
    simp only [Workshop.act] at built ⊢
    split
    next draft found =>
      rw [found] at built
      exact written i _ (built _)
    next => exact old
  | _ => exact old

theorem Tidy.step (h : w.Tidy) (step : w.Step w') : w'.Tidy := by
  refine ⟨law_tidy.step h.builders h.world step, ?_⟩
  cases step with
  | perform idle c => exact h.builders
  | enter idle entry => exact h.builders
  | @move pending control busy =>
    unfold moved
    split <;> exact h.builders
  | act known => exact (h.act _).builders

theorem Tidy.later (h : w.Tidy) (later : w.Later w') : w'.Tidy := by
  induction later with
  | refl => exact h
  | tail _ step ih => exact ih.step step

/-- What a run keeps. -/
theorem Law.later (law : Law P) (tidy : w.Tidy) (h : P w.world) (later : w.Later w') : P w'.world := by
  induction later with
  | refl => exact h
  | tail earlier step ih => exact law.step (tidy.later earlier).builders ih step

theorem Reachable.tidy (reachable : w.Reachable) : w.Tidy := by
  obtain ⟨config, level, fuel, later⟩ := reachable
  have start : Session.Reaches (Session.start config level fuel).machine (Session.start config level fuel).machine := .refl
  refine Tidy.later ⟨?_, List.forall_mem_nil _⟩ later
  exact start.tidy

theorem Reachable.sound (reachable : w.Reachable) : w.Sound := by
  obtain ⟨config, level, fuel, later⟩ := reachable
  exact ((sound_start config level fuel).later later).sound

theorem Reachable.later (reachable : w.Reachable) (later : w.Later w') : w'.Reachable := by
  obtain ⟨config, level, fuel, earlier⟩ := reachable
  exact ⟨config, level, fuel, earlier.trans later⟩

/-! ## The graph of classes -/

/-- Numbers are never shared and the classes form no cycle: in every workshop that comes from the start of a
session, classes are as `World.WellFormed` says, and along every further run each class stays as it has been
published. -/
theorem reachable_class_graph (reachable : w.Reachable) :
    w.world.WellFormed ∧ ∀ w', w.Later w' → ∀ r, w.world.heap.classes.has r → w.world.Keeps w'.world r := by
  have sound := reachable.sound
  refine ⟨sound.numbered.wellFormed sound.machine.world reachable.tidy.world.made, fun w' later r known => ?_⟩
  have next := sound.later later
  exact next.extend.keeps sound.machine.world next.sound.machine.world known

/-- A session after a script that derives a class, and makes one instance. -/
def scripted : Workshop :=
  { session := ((Session.start {} .off 100).perform (.interpret Activity.fixingScript none)).2 }

/-- A builder starts from the last class of the script, makes this class the superclass, and builds twice. -/
def rebuilt : Workshop :=
  [.startFrom ⟨5⟩, .edit 0 (.superclass (some ⟨5⟩)), .build 0, .build 0].foldl act scripted

/-- A class may inherit from an older version of itself. The instance of the script has got number 7. -/
theorem class_graph_rebuilt :
    rebuilt.Reachable ∧ rebuilt.world.ids = [1, 2, 3, 4, 5, 6, 8, 9, 7] ∧
      (rebuilt.world.heap.classes.get ⟨6⟩).superclass = some ⟨5⟩ ∧ rebuilt.world.WellFormed ∧
      rebuilt.world.Keeps (rebuilt.act (.build 0)).world ⟨6⟩ := by
  have known : 5 < scripted.world.classCount := by decide +kernel
  have ran : Later { session := Session.start {} .off 100 } scripted := .single (.perform rfl _)
  have reachable : rebuilt.Reachable :=
    ⟨{}, .off, 100, (((ran.tail (.act (a := .startFrom ⟨5⟩) known)).tail
      (.act (a := .edit 0 (.superclass (some ⟨5⟩))) (below_some (a := (⟨5⟩ : Ref .cls)) known))).tail
      (.act (a := .build 0) trivial)).tail (.act (a := .build 0) trivial)⟩
  obtain ⟨wellFormed, keeps⟩ := reachable_class_graph reachable
  have built : 6 < rebuilt.world.classCount := by decide +kernel
  refine ⟨reachable, by decide +kernel, by decide +kernel, wellFormed, ?_⟩
  exact keeps _ (.single (.act (a := .build 0) trivial)) ⟨6⟩ built

end Workshop

/-! ## Shapes -/

theorem World.Change.grows {w w' : World} (c : Change w w') (h : w.Regular) : w.shapes.Grows w'.shapes := by
  cases c with
  | newObject cls =>
    rw [newObject_eq]
    exact (layOut_fits (w.heap.fieldDecls cls) h.shapes (ShapedObject.fits_empty h.shapes)).2.1
  | setField r s v =>
    rw [setField_eq]
    exact ((h.rows r).set h.shapes s v).2.1
  | setFieldAt r offset s v _ done =>
    obtain ⟨fields, -, rfl⟩ := (setFieldAt?_eq_some_iff ..).1 done
    exact .refl _
  | publish draft => exact ShapeRegistry.grows_drawId _
  | sealShape id => exact ShapeRegistry.grows_sealShape _ id
  | _ => exact .refl _

namespace Workshop

variable {w w' : Workshop}

/-- Shapes stay, whatever happens. -/
theorem law_grows (r : ShapeRegistry) : Law fun w => w.Tidy ∧ r.Grows w.shapes where
  change c h := ⟨c.tidy h.1, h.2.trans (c.grows h.1.regular)⟩
  cells cells h := ⟨Session.law_tidy.cells cells h.1, h.2⟩
  cleared h := ⟨Session.law_tidy.cleared h.1, h.2⟩
  recorded caches h := ⟨law_tidy.recorded caches h.1, h.2⟩
  drawn h := ⟨law_tidy.drawn h.1, h.2.trans (ShapeRegistry.grows_drawId _)⟩
  placed id s h := ⟨law_tidy.placed id s h.1, h.2.trans (h.1.regular.shapes.grows_addProperty id s)⟩

theorem Reachable.grows (reachable : w.Reachable) (later : w.Later w') : w.world.shapes.Grows w'.world.shapes :=
  ((law_grows w.world.shapes).later reachable.tidy ⟨reachable.tidy.world, .refl _⟩ later).2

end Workshop

end ScriptVm
