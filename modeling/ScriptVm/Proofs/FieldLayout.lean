import ScriptVm.Proofs.ObjectHistory
import ScriptVm.Proofs.WorkshopLaws

/-!
# How the fields of an instance are laid out

A new instance gets its declared fields one after the other, those of the base class first. A field that
is declared again, further down, keeps the place of its first declaration and takes the value of its last one.

Each field is a step in the tree of shapes. The steps are remembered, so the next instance of the class takes
the same ones, unless a shape on the way has been sealed (`World.layOut_again`).

The main result is `Workshop.instances_start_as_declared`.
-/

set_option autoImplicit false

namespace ScriptVm

/-! ## The same steps again -/

namespace ShapeRegistry

variable {r r' r'' : ShapeRegistry} {id parent child : ShapeId} {node : Shape} {s : Symbol}

/-- The registry has grown, and none of the shapes that it had has been sealed. -/
structure GrowsOpen (r r' : ShapeRegistry) : Prop where
  grows : r.Grows r'
  opened : ∀ id, (r.get? id).isSome → r'.isSealed id = true → r.isSealed id = true

theorem GrowsOpen.refl (r : ShapeRegistry) : r.GrowsOpen r := ⟨.refl r, fun _ _ sealing => sealing⟩

theorem GrowsOpen.trans (h : r.GrowsOpen r') (h' : r'.GrowsOpen r'') : r.GrowsOpen r'' := by
  refine ⟨h.grows.trans h'.grows, ?_⟩
  intro id known sealing
  apply h.opened id known
  exact h'.opened id (h.grows.isSome_get? known) sealing

theorem isSealed_of_get? (found : r.get? id = some node) : r.isSealed id = node.isSealed := by
  unfold isSealed
  rw [found]

theorem Trie.growsOpen_grow (t : r.Trie) (found : r.get? parent = some node) (s : Symbol) :
    r.GrowsOpen (r.grow parent node s).2 := by
  refine ⟨t.grows_grow found s, ?_⟩
  intro id known sealing
  have old : r.nextId ≠ id := by
    rintro rfl
    rw [t.get?_nextId] at known
    cases known
  have here := get?_grow r parent node s id
  rw [if_neg old] at here
  split at here
  next same =>
    subst same
    rw [isSealed_of_get? here] at sealing
    rw [isSealed_of_get? found]
    exact sealing
  next =>
    unfold isSealed at sealing ⊢
    rwa [here] at sealing

theorem Trie.growsOpen_addProperty (t : r.Trie) (id : ShapeId) (s : Symbol) :
    r.GrowsOpen (r.addProperty id s).2 := by
  obtain ⟨node, found, ⟨-, added⟩ | ⟨-, child, -, added⟩ | ⟨-, -, added⟩⟩ := t.addProperty_cases id s
  · rw [added]
    exact .refl r
  · rw [added]
    exact .refl r
  · rw [added]
    exact t.growsOpen_grow found s

/-- A remembered step from a shape that has not been sealed is taken again. -/
theorem Trie.addProperty_of_step (t : r.Trie) (t' : r'.Trie) (g : r.GrowsOpen r') (known : (r.get? id).isSome)
    (opened : r.isSealed id = false) (step : r.transitions.get? (id, s) = some child) :
    r'.addProperty id s = ({ shape := child, offset := r.total id }, r') := by
  have base : r'.base id = id := base_of_known (g.grows.isSome_get? known)
  have step' : r'.transitions.get? (id, s) = some child := by
    obtain ⟨n, found, parent, k, own⟩ := (t.edge id s child).1 step
    obtain ⟨n', found', parent', own', -⟩ := g.grows.node child n found
    exact (t'.edge id s child).2 ⟨n', found', parent'.trans parent, k, own'.trans own⟩
  obtain ⟨node, found, ways⟩ := t'.addProperty_cases id s
  rw [base] at found ways
  rw [step', g.grows.total_eq t known] at ways
  rcases ways with ⟨sealing, -⟩ | ⟨-, child', same, added⟩ | ⟨-, none, -⟩
  · have still := g.opened id known ((isSealed_of_get? found).trans sealing)
    rw [opened] at still
    cases still
  · cases same
    exact added
  · cases none

/-- A property that has been added is added at the same place again, and that changes nothing. -/
theorem Trie.addProperty_again (t : r.Trie) (t' : r'.Trie) (known : (r.get? id).isSome)
    (g : (r.addProperty id s).2.GrowsOpen r') :
    r'.addProperty id s = ({ (r.addProperty id s).1 with grownFrom := none }, r') := by
  have base := base_of_known known
  obtain ⟨node, found, ⟨sealing, added⟩ | ⟨opened, child, step, added⟩ | ⟨opened, new, added⟩⟩ :=
    t.addProperty_cases id s
  · rw [added, base] at g ⊢
    rw [base] at found
    have still := g.grows.isSealed ((isSealed_of_get? found).trans sealing)
    rw [t'.addProperty_of_sealed still, g.grows.total_eq t known]
  · rw [added, base] at g ⊢
    rw [base] at found step
    exact t.addProperty_of_step t' g known ((isSealed_of_get? found).trans opened) step
  · rw [added, base] at g ⊢
    rw [base] at found new
    have grows := t.growsOpen_grow found s
    have step : (r.grow id node s).2.transitions.get? (id, s) = some r.nextId := by
      show (r.transitions.insert (id, s) r.nextId).get? (id, s) = _
      rw [Assoc.get?_insert, if_pos rfl]
    have still : (r.grow id node s).2.isSealed id = false := by
      rw [Bool.eq_false_iff]
      intro sealing
      have before := grows.opened id known sealing
      rw [isSealed_of_get? found, opened] at before
      cases before
    rw [(t.grow found new).addProperty_of_step t' g (grows.grows.isSome_get? known) still step,
      grows.grows.total_eq t known]
    rfl

end ShapeRegistry

open ShapeRegistry

namespace ShapedObject

variable {r r' : ShapeRegistry} {o : ShapedObject} {s : Symbol} {v : Value}

theorem growsOpen_set (o : ShapedObject) (t : r.Trie) (s : Symbol) (v : Value) :
    r.GrowsOpen (o.set r s v).registry := by
  unfold set
  split
  · exact .refl r
  · split
    · exact .refl r
    · unfold append
      split
      · exact .refl r
      · simp only
        split <;> exact t.growsOpen_addProperty o.shape s

/-- A property that has been set on an object can be set on an object of the same shape and row again, and
gets the same place. -/
theorem Fits.set_again (h : Fits r o) (t : r.Trie) (t' : r'.Trie) (g : (o.set r s v).registry.GrowsOpen r') :
    (o.set r' s v).object = (o.set r s v).object ∧ (o.set r' s v).registry = r' := by
  have grows := ((o.growsOpen_set t s v).trans g).grows
  have offset : r'.offset? o.shape s = r.offset? o.shape s := by
    rw [offset?_eq, offset?_eq, grows.properties_eq t h.known]
  unfold ShapedObject.set at g ⊢
  rw [offset]
  split
  · exact ⟨rfl, rfl⟩
  next absent =>
    rw [absent] at g
    split
    · exact ⟨rfl, rfl⟩
    next missing =>
      simp only [missing] at g
      unfold ShapedObject.append at g ⊢
      rw [grows.total_eq t h.known]
      split
      · exact ⟨rfl, rfl⟩
      next full =>
        rw [if_neg full] at g
        have again : r'.addProperty o.shape s = ({ (r.addProperty o.shape s).1 with grownFrom := none }, r') := by
          apply t.addProperty_again t' h.known
          simp only at g
          split at g <;> exact g
        rw [again]
        simp only
        split <;> exact ⟨rfl, rfl⟩

end ShapedObject

namespace World

variable {w w' w'' : World} {o : Ref .object} {c : Ref .cls}

theorem growsOpen_layOut (decls : List FieldDecl) {o : ShapedObject} {r : ShapeRegistry} (t : r.Trie)
    (fits : ShapedObject.Fits r o) : r.GrowsOpen (layOut decls o r).2.1 := by
  induction decls generalizing o r with
  | nil => exact .refl r
  | cons d rest ih =>
    obtain ⟨t₁, -, fits₁, -⟩ := fits.set t d.symbol d.initial
    exact (o.growsOpen_set t d.symbol d.initial).trans (ih t₁ fits₁)

/-- Fields that have been laid out are laid out in the same way again, and that changes nothing. -/
theorem layOut_again (decls : List FieldDecl) {o : ShapedObject} {r r' : ShapeRegistry} (t : r.Trie) (t' : r'.Trie)
    (fits : ShapedObject.Fits r o) (g : (layOut decls o r).2.1.GrowsOpen r') :
    (layOut decls o r').1 = (layOut decls o r).1 ∧ (layOut decls o r').2.1 = r' := by
  induction decls generalizing o r with
  | nil => exact ⟨rfl, rfl⟩
  | cons d rest ih =>
    obtain ⟨t₁, -, fits₁, -⟩ := fits.set t d.symbol d.initial
    obtain ⟨object, registry⟩ := fits.set_again t t' ((growsOpen_layOut rest t₁ fits₁).trans g)
    show (layOut rest (o.set r' d.symbol d.initial).object (o.set r' d.symbol d.initial).registry).1 = _ ∧
      (layOut rest (o.set r' d.symbol d.initial).object (o.set r' d.symbol d.initial).registry).2.1 = _
    rw [object, registry]
    exact ih t₁ fits₁ g

end World

/-! ## The row of a new instance -/

/-- Fields that are put into an empty row one after the other stand in the order in which they came first. -/
theorem SymbolTable.map_fst_initialised (decls : List FieldDecl) :
    (initialised decls []).map Prod.fst = (decls.map FieldDecl.symbol).eraseDups := by
  have stores : initialised decls [] =
      History.toEntries (decls.map fun d => (d.symbol, d.initial)).reverse := by
    induction decls using List.reverseRecOn with
    | nil => rfl
    | append_singleton front d ih =>
      unfold initialised at ih ⊢
      rw [List.foldl_append, ih, List.map_append, List.reverse_append]
      rfl
  rw [stores, History.map_fst_toEntries, History.symbols, ← List.map_reverse, List.reverse_reverse, List.map_map]
  rfl

namespace Heap

/-- The fields that a class and its superclasses declare, in the order of the first declarations. -/
def fieldOrder (h : Heap) (c : Ref .cls) : List Symbol := ((h.fieldDecls c).map FieldDecl.symbol).eraseDups

theorem mem_fieldOrder {h : Heap} {c : Ref .cls} {s : Symbol} :
    s ∈ h.fieldOrder c ↔ ∃ k ∈ h.chain c, ∃ d ∈ (h.classes.get k).fields, d.symbol = s := by
  unfold fieldOrder fieldDecls
  rw [List.mem_eraseDups, List.mem_map]
  constructor
  · rintro ⟨d, declared, rfl⟩
    obtain ⟨k, mem, own⟩ := List.mem_flatMap.1 declared
    exact ⟨k, List.mem_reverse.1 mem, d, own, rfl⟩
  · rintro ⟨k, mem, d, own, rfl⟩
    exact ⟨d, List.mem_flatMap.2 ⟨k, List.mem_reverse.2 mem, own⟩, rfl⟩

end Heap

namespace World

variable {w w' : World} {o : Ref .object} {c : Ref .cls}

/-- From `w` to `w'` the instance `o` of the class `c` has been made, and its fields are as declared. -/
structure Starts (w : World) (o : Ref .object) (c : Ref .cls) (w' : World) : Prop where
  new : ¬w.heap.objects.has o
  made : w'.heap.objects.has o
  cls : (w'.heap.objects.get o).cls = c
  /-- The row is in the order of the first declarations, those of the base class first. -/
  order : (w'.heap.objects.get o).fields.entries.map Prod.fst = w.heap.fieldOrder c
  once : (w.heap.fieldOrder c).Nodup
  /-- A field is in the row if the class or a superclass declares it. -/
  declared : ∀ s, s ∈ w.heap.fieldOrder c ↔ ∃ k ∈ w.heap.chain c, ∃ d ∈ (w.heap.classes.get k).fields, d.symbol = s
  /-- The nearest declaration gives the value. -/
  values : ∀ s v, (s, v) ∈ (w'.heap.objects.get o).fields.entries →
    ∃ d, w.heap.declared? c s = some d ∧ v = d.initial
  /-- A look-up finds what the nearest declaration says. -/
  get : ∀ s, (w'.heap.objects.get o).fields.get w'.shapes s = (w.heap.declared? c s).map FieldDecl.initial

/-- A new instance and the registry that it leaves behind. -/
theorem get_newObject (w : World) (c : Ref .cls) :
    (w.newObject c).2.heap.objects.get (w.newObject c).1 =
        { cls := c, fields := (layOut (w.heap.fieldDecls c) {} w.shapes).1 } ∧
      (w.newObject c).2.shapes = (layOut (w.heap.fieldDecls c) {} w.shapes).2.1 := by
  rw [newObject_eq]
  exact ⟨Pool.get_alloc_self w.heap.objects _, rfl⟩

theorem Tidy.starts (h : w.Tidy) (c : Ref .cls) (log : Logging) :
    w.Starts (w.newObject c).1 c { (w.newObject c).2 with log } := by
  obtain ⟨made, shapes⟩ := w.get_newObject c
  have fits := (layOut_fits (w.heap.fieldDecls c) h.regular.shapes (ShapedObject.fits_empty h.regular.shapes)).2.2
  have entries : (layOut (w.heap.fieldDecls c) {} w.shapes).1.entries = _ :=
    Lawful.entries_layOut h.regular.shapes (ShapedObject.fits_empty h.regular.shapes)
  have order : (layOut (w.heap.fieldDecls c) {} w.shapes).1.entries.map Prod.fst = w.heap.fieldOrder c := by
    rw [entries]
    exact SymbolTable.map_fst_initialised _
  have find : ∀ s, Assoc.find s (layOut (w.heap.fieldDecls c) {} w.shapes).1.entries =
      (w.heap.declared? c s).map FieldDecl.initial := by
    intro s
    rw [entries, SymbolTable.find_initialised, ← Heap.declared?_eq h.made]
    exact Option.or_none
  refine ⟨?_, ?_, ?_, ?_, ?_, fun s => Heap.mem_fieldOrder, ?_, ?_⟩
  · rw [newObject_eq]
    exact Nat.lt_irrefl _
  · rw [newObject_eq]
    exact Pool.has_alloc.2 (.inr rfl)
  · rw [made]
  · rw [made]
    exact order
  · rw [← order]
    exact fits.distinct
  · intro s v mem
    rw [made] at mem
    obtain ⟨i, here⟩ := List.mem_iff_getElem?.1 mem
    have found := (find s).symm.trans (Assoc.find_of_getElem? fits.distinct here)
    obtain ⟨d, declared, rfl⟩ := Option.map_eq_some_iff.1 found
    exact ⟨d, declared, rfl⟩
  · intro s
    rw [made, shapes, fits.get_eq]
    exact find s

/-- A class that is known declares the same fields later on. -/
theorem Extends.fieldDecls_eq (h : w.Extends w') (grounded : w.Grounded) (grounded' : w'.Grounded)
    (known : w.heap.classes.has c) : w'.heap.fieldDecls c = w.heap.fieldDecls c := by
  unfold Heap.fieldDecls
  rw [(h.keeps grounded grounded' known).chain]
  refine List.flatMap_congr fun k mem => ?_
  rw [h.same k (grounded.heap.ordered.has_of_mem_chain known k (List.mem_reverse.1 mem))]

end World

/-! ## Instances in a workshop -/

/-- What a move that makes an instance does to the world. -/
theorem Activity.Makes.world_step {a : Activity} {o : Ref .object} {c : Ref .cls} (makes : a.Makes o c) :
    o = (a.machine.world.newObject c).1 ∧ Exec.Instantiated c a.machine.world a.step.machine.world := by
  have made := makes.made
  rcases attempted_step makes.instantiates with ⟨log, same⟩ | ⟨log, same⟩
  · rw [Machine.heap, same] at made
    exact absurd made makes.new
  · refine ⟨?_, log, same⟩
    rw [Machine.heap, same] at made
    have objects := World.newObject_eq a.machine.world c
    rw [objects] at made ⊢
    exact (Pool.has_alloc.1 made).resolve_left makes.new

namespace Workshop

variable {w w₁ w₂ w₃ : Workshop} {o o' : Ref .object} {c : Ref .cls}

/-- The next move of the machine in use makes the instance `o` of the class `c`, and leads to `w'`. -/
def Makes (w : Workshop) (o : Ref .object) (c : Ref .cls) (w' : Workshop) : Prop :=
  ∃ pending control, w.busy = some (pending, control) ∧
    Activity.Makes ⟨w.session.machine, pending, control⟩ o c ∧
    w' = w.moved (Activity.step ⟨w.session.machine, pending, control⟩)

theorem Makes.step (makes : w.Makes o c w₁) : w.Step w₁ := by
  obtain ⟨pending, control, busy, -, rfl⟩ := makes
  exact .move busy

theorem Makes.world_eq (makes : w.Makes o c w₁) :
    o = (w.world.newObject c).1 ∧ ∃ log, w₁.world = { (w.world.newObject c).2 with log } := by
  obtain ⟨pending, control, -, makes, rfl⟩ := makes
  rw [world_moved]
  exact makes.world_step

/-- Two instances of a class start with the same shape and the same row, if no shape has been sealed in between. -/
theorem Makes.again (reachable : w.Reachable) (known : w.world.heap.classes.has c) (makes : w.Makes o c w₁)
    (later : w₁.Later w₂) (makes' : w₂.Makes o' c w₃)
    (opened : ∀ id, (w₁.world.shapes.get? id).isSome → w₂.world.shapes.isSealed id = true →
      w₁.world.shapes.isSealed id = true) :
    (w₃.world.heap.objects.get o').fields = (w₁.world.heap.objects.get o).fields := by
  have reached := reachable.later (.single makes.step)
  have sound := reachable.sound
  have next := sound.later ((Relation.ReflTransGen.single makes.step).trans later)
  have trie := reachable.tidy.world.regular.shapes
  have trie' := (reached.later later).tidy.world.regular.shapes
  have grows : w₁.world.shapes.GrowsOpen w₂.world.shapes := ⟨reached.grows later, opened⟩
  obtain ⟨rfl, log, world⟩ := makes.world_eq
  obtain ⟨rfl, log', world'⟩ := makes'.world_eq
  obtain ⟨made, shapes⟩ := w.world.get_newObject c
  obtain ⟨made', -⟩ := w₂.world.get_newObject c
  rw [world] at grows
  rw [world, world', made, made', next.extend.fieldDecls_eq sound.machine.world next.sound.machine.world known]
  exact (World.layOut_again _ trie trie' (ShapedObject.fits_empty trie) (shapes ▸ grows)).1

/-- **Instances start as declared.** In every workshop that comes from the start of a session, whatever is in its
registry of shapes, an instance of a class gets each field that is declared anywhere from the class up to its base
class, once and nothing else, in the order of the first declarations from the base class down, with the value that
the nearest declaration gives. A later instance of the class starts with the same shape, and the same row, if none of
the shapes that there were has been sealed in between. -/
theorem instances_start_as_declared (reachable : w.Reachable) (known : w.world.heap.classes.has c) :
    Heap.Walk w.world.heap (some c) (w.world.heap.chain c) ∧
    (∀ (m : Machine) (argc : Nat), ∃ o,
      w.world.Starts o c ((Exec.instantiate c argc).after { m with world := w.world }).world) ∧
    ∀ o w₁, w.Makes o c w₁ → w.world.Starts o c w₁.world ∧
      ∀ w₂ o' w₃, w₁.Later w₂ → w₂.Makes o' c w₃ →
        (∀ id, (w₁.world.shapes.get? id).isSome → w₂.world.shapes.isSealed id = true →
          w₁.world.shapes.isSealed id = true) →
        (w₃.world.heap.objects.get o').fields = (w₁.world.heap.objects.get o).fields := by
  have tidy := reachable.tidy.world
  refine ⟨reachable.sound.machine.world.heap.ordered.walk c, ?_, ?_⟩
  · intro m argc
    obtain ⟨log, same⟩ := Exec.instantiated_instantiate (c := c) argc { m with world := w.world }
    refine ⟨(w.world.newObject c).1, ?_⟩
    rw [same]
    exact tidy.starts c log
  · intro o w₁ makes
    constructor
    · obtain ⟨rfl, log, same⟩ := makes.world_eq
      rw [same]
      exact tidy.starts c log
    · intro w₂ o' w₃ later makes' opened
      exact makes.again reachable known later makes' opened

/-- A builder derives a class from the last class of a script, with a new field `y` and a new declaration of `x`. -/
def redeclared : Workshop :=
  [.startFrom ⟨5⟩, .edit 0 (.superclass (some ⟨5⟩)), .edit 0 (.field "y" (.int 1) false),
    .edit 0 (.field "x" (.int 9) false), .build 0].foldl act scripted

/-- The field `x` keeps its place before `y`, and has the value of its last declaration. -/
theorem redeclared_instance_starts :
    redeclared.Reachable ∧ redeclared.world.heap.classes.has ⟨6⟩ ∧
      ∃ o, ∃ w : World, redeclared.world.Starts o ⟨6⟩ w ∧
        (w.heap.objects.get o).fields.entries.map Prod.fst = [0, 1] ∧
        ((w.heap.objects.get o).fields.get w.shapes 0).bind Key.ofValue? = some (.int 9) := by
  have known : 5 < scripted.world.classCount := by decide +kernel
  have ran : Later { session := Session.start {} .off 100 } scripted := .single (.perform rfl _)
  have reachable : redeclared.Reachable :=
    ⟨{}, .off, 100, ((((ran.tail (.act (a := .startFrom ⟨5⟩) known)).tail
      (.act (a := .edit 0 (.superclass (some ⟨5⟩))) (Referring.below_some (a := (⟨5⟩ : Ref .cls)) known))).tail
      (.act (a := .edit 0 (.field "y" (.int 1) false)) trivial)).tail
      (.act (a := .edit 0 (.field "x" (.int 9) false)) trivial)).tail (.act (a := .build 0) trivial)⟩
  have built : redeclared.world.heap.classes.has ⟨6⟩ := by
    show 6 < redeclared.world.classCount
    decide +kernel
  obtain ⟨-, made, -⟩ := instances_start_as_declared reachable built
  obtain ⟨o, starts⟩ := made redeclared.session.machine 0
  refine ⟨reachable, built, o, _, starts, ?_, ?_⟩
  · rw [starts.order]
    decide +kernel
  · rw [starts.get]
    decide +kernel

end Workshop

end ScriptVm
