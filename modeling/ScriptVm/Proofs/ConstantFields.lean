import ScriptVm.Proofs.Renumbering
import ScriptVm.Proofs.RequiredParameters
import ScriptVm.Proofs.SuperCalls

/-!
# Constant fields

An instance starts with the initial values of its declared fields, those of superclasses first, so
the nearest declaration of a field decides. The same declaration says whether the field is
constant, and it stays the nearest one: a class in the heap is never changed, and a class that is
built from another one is a new class. So a constant field has its initial value as long as the
instance lives, whatever programs and hosts do.

The main result is `Activity.constant_fields_never_change`.
-/

set_option autoImplicit false

namespace ScriptVm

open World

/-! ## Declarations -/

/-- A class that declares no field twice can be searched from either end. -/
theorem Class.WellMade.find?_reverse {c : Class} (made : c.WellMade) (s : Symbol) :
    (c.fields.reverse.find? fun d => d.symbol = s) = c.ownField? s := by
  have once : (c.fields.map FieldDecl.symbol).Nodup := made.once
  unfold ownField?
  generalize c.fields = fields at once ⊢
  induction fields with
  | nil => rfl
  | cons d rest ih =>
    rw [List.map_cons, List.nodup_cons] at once
    rw [List.reverse_cons, List.find?_append, ih once.2, List.find?_cons]
    by_cases same : d.symbol = s
    · have nowhere : (rest.find? fun d => d.symbol = s) = none := by
        refine List.find?_eq_none.2 fun e he found => once.1 ?_
        rw [same, ← of_decide_eq_true found]
        exact List.mem_map_of_mem he
      simp [nowhere, same]
    · simp [same]

namespace Heap

variable {h : Heap} {r : Ref .cls} {s : Symbol}

/-- The nearest declaration of a field, in the class or in its superclasses. -/
def declared? (h : Heap) (r : Ref .cls) (s : Symbol) : Option FieldDecl :=
  (h.chain r).findSome? fun c => (h.classes.get c).ownField? s

theorem isConstField_eq_true_iff :
    h.isConstField r s = true ↔ ∃ d, h.declared? r s = some d ∧ d.isConst = true := by
  have read : h.isConstField r s = (h.declared? r s).elim false FieldDecl.isConst := by
    unfold isConstField declared?
    split <;> simp [*]
  rw [read]
  cases h.declared? r s <;> simp

/-- The nearest declaration comes last in the order of initialisation. -/
theorem declared?_eq (made : ∀ c, (h.classes.get c).WellMade) :
    h.declared? r s = (h.fieldDecls r).reverse.find? fun d => d.symbol = s := by
  unfold declared? fieldDecls
  rw [List.reverse_flatMap, List.reverse_reverse, List.find?_flatMap]
  refine congrArg (fun f => (h.chain r).findSome? f) (funext fun c => ?_)
  exact ((made c).find?_reverse s).symm

/-- The nearest declaration stays the nearest one if classes are only added. -/
theorem declared?_of_classes {h' : Heap} {d : FieldDecl}
    (same : ∀ r, h.classes.has r → h'.classes.get r = h.classes.get r) (declared : h.declared? r s = some d) :
    h'.declared? r s = some d :=
  findSome?_chainFrom (fun c _ => c.ownField? s) same (fun _ => rfl) (r.index + 1) r declared

end Heap

/-- Of several values for a field the last one stays. -/
theorem SymbolTable.find_initialised (decls : List FieldDecl) (es : List (Symbol × Value)) (s : Symbol) :
    Assoc.find s (initialised decls es) =
      ((decls.reverse.find? fun d => d.symbol = s).map FieldDecl.initial).or (Assoc.find s es) := by
  induction decls generalizing es with
  | nil => rfl
  | cons d rest ih =>
    rw [show initialised (d :: rest) es = initialised rest (Assoc.put d.symbol d.initial es) from rfl, ih,
      Assoc.find_put, List.reverse_cons, List.find?_append]
    cases rest.reverse.find? fun d => d.symbol = s with
    | some e => rfl
    | none => by_cases same : d.symbol = s <;> simp [same]

/-! ## What the world keeps -/

namespace World

variable {w w' : World} {o : Ref .object} {c : Ref .cls} {s : Symbol} {d : FieldDecl}

/-- A regular world whose classes are well made. -/
structure Tidy (w : World) : Prop where
  regular : w.Regular
  made : ∀ r, (w.heap.classes.get r).WellMade

/-- Whether a world is tidy is a matter of symbols, shapes, classes and instances. -/
theorem Tidy.congr (h : w.Tidy) (symbols : w'.symbols = w.symbols) (shapes : w'.shapes = w.shapes)
    (classes : w'.heap.classes = w.heap.classes) (objects : w'.heap.objects = w.heap.objects) : w'.Tidy := by
  refine ⟨⟨?_, ?_, ?_, ?_, ?_⟩, ?_⟩
  · rw [symbols]
    exact h.regular.symbols
  · rw [shapes]
    exact h.regular.shapes
  · rw [shapes, objects]
    exact h.regular.rows
  · rw [shapes, classes]
    exact h.regular.tables
  · rw [classes]
    exact h.regular.distinct
  · rw [classes]
    exact h.made

/-- Every change of the world keeps it tidy. -/
theorem Change.tidy (change : Change w w') (h : w.Tidy) : w'.Tidy := by
  refine ⟨change.regular h.regular, ?_⟩
  rcases change.classes_cases with same | ⟨new, added, -, made⟩
  · rw [same]
    exact h.made
  · rw [added]
    exact Pool.forall_alloc (P := Class.WellMade) h.made (made h.made)

/-- The instance `o` of the class `c` has the initial value that `d` gives to the field `s`. -/
structure Frozen (o : Ref .object) (c : Ref .cls) (s : Symbol) (d : FieldDecl) (w : World) : Prop where
  known : w.heap.objects.has o
  cls : (w.heap.objects.get o).cls = c
  declared : w.heap.declared? c s = some d
  value : Assoc.find s (w.heap.objects.get o).fields.entries = some d.initial

/-- What is frozen depends on classes and instances only. -/
theorem Frozen.congr (h : w.Frozen o c s d) (classes : w'.heap.classes = w.heap.classes)
    (objects : w'.heap.objects = w.heap.objects) : w'.Frozen o c s d := by
  have declared := Heap.declared?_of_classes (fun r _ => by rw [classes]) h.declared
  refine ⟨?_, ?_, declared, ?_⟩ <;> rw [objects]
  · exact h.known
  · exact h.cls
  · exact h.value

/-- A new instance has the initial values of the nearest declarations. -/
theorem Tidy.frozen_newObject (h : w.Tidy) (declared : w.heap.declared? c s = some d) :
    (w.newObject c).2.Frozen (w.newObject c).1 c s d := by
  have later := Heap.declared?_of_classes (Change.newObject w c).class_eq declared
  have value : Assoc.find s (layOut (w.heap.fieldDecls c) {} w.shapes).1.entries = some d.initial := by
    rw [Lawful.entries_layOut h.regular.shapes (ShapedObject.fits_empty h.regular.shapes),
      SymbolTable.find_initialised, ← Heap.declared?_eq h.made, declared]
    rfl
  rw [newObject_eq] at later ⊢
  have made := Pool.get_alloc_self w.heap.objects { cls := c, fields := (layOut (w.heap.fieldDecls c) {} w.shapes).1 }
  exact ⟨Pool.has_alloc.2 (.inr rfl), congrArg Instance.cls made, later,
    (congrArg (fun i : Instance => Assoc.find s i.fields.entries) made).trans value⟩

/-- Rows may be written where they do not hold the field. -/
theorem Frozen.withRow (h : w.Frozen o c s d) (declared : w'.heap.declared? c s = some d) {r : Ref .object}
    {fields : ShapedObject}
    (objects : w'.heap.objects = w.heap.objects.set r { w.heap.objects.get r with fields })
    (kept : r = o → Assoc.find s fields.entries = some d.initial) : w'.Frozen o c s d := by
  by_cases same : r = o
  · subst same
    have row : w'.heap.objects.get r = { w.heap.objects.get r with fields } := by
      rw [objects, Pool.get_set _ _ _ _ h.known, if_pos rfl]
    refine ⟨?_, ?_, declared, ?_⟩
    · rw [objects]
      exact (Pool.has_set _ _ _ _).2 h.known
    · rw [row]
      exact h.cls
    · rw [row]
      exact kept rfl
  · have row : w'.heap.objects.get o = w.heap.objects.get o := by
      rw [objects, Pool.get_set_of_ne _ _ same]
    refine ⟨?_, row ▸ h.cls, declared, row ▸ h.value⟩
    rw [objects]
    exact (Pool.has_set _ _ _ _).2 h.known

/-- Fields are written only if they are not constant. -/
theorem Frozen.put (h : w.Frozen o c s d) (constant : d.isConst = true) {r : Ref .object} {s' : Symbol} {v : Value}
    (writable : w.heap.isConstField (w.heap.objects.get r).cls s' = false) (same : r = o) :
    Assoc.find s (Assoc.put s' v (w.heap.objects.get r).fields.entries) = some d.initial := by
  subst same
  have other : s' ≠ s := by
    rintro rfl
    rw [h.cls, Heap.isConstField_eq_true_iff.2 ⟨d, h.declared, constant⟩] at writable
    cases writable
  rw [Assoc.find_put, if_neg other]
  exact h.value

/-- No change of a regular world touches a field that is constant. -/
theorem Change.frozen (change : Change w w') (regular : w.Regular) (constant : d.isConst = true)
    (h : w.Frozen o c s d) : w'.Frozen o c s d := by
  have declared := Heap.declared?_of_classes change.class_eq h.declared
  have allocated : ∀ {i : Instance}, w'.heap.objects = (w.heap.objects.alloc i).2 → w'.Frozen o c s d := by
    intro i objects
    have row : w'.heap.objects.get o = w.heap.objects.get o := by
      rw [objects, Pool.get_alloc _ _ _ h.known]
    refine ⟨?_, row ▸ h.cls, declared, row ▸ h.value⟩
    rw [objects]
    exact Pool.has_alloc.2 (.inl h.known)
  cases change with
  | newObject cls =>
    have made := newObject_eq w cls
    exact allocated (congrArg (fun p => p.2.heap.objects) made)
  | bareObject cls => exact allocated rfl
  | setField r s' v writable =>
    refine h.withRow declared (r := r) (by rw [setField_eq]) fun same => ?_
    rw [((regular.rows r).set regular.shapes s' v).2.2.2]
    exact h.put constant writable same
  | setFieldAt r offset s' v writable done =>
    obtain ⟨fields, written, rfl⟩ := (setFieldAt?_eq_some_iff ..).1 done
    refine h.withRow declared (r := r) rfl fun same => ?_
    rw [((regular.rows r).setFieldAt? written).2]
    exact h.put constant writable same
  | _ => exact ⟨h.known, h.cls, declared, h.value⟩

end World

namespace Session

theorem law_tidy : Law Tidy where
  change change h := change.tidy h
  cells _ h := h.congr rfl rfl rfl rfl
  cleared h := h.congr rfl rfl rfl rfl

/-- A constant field keeps its initial value. -/
theorem law_frozen {d : FieldDecl} (constant : d.isConst = true) (o : Ref .object) (c : Ref .cls) (s : Symbol) :
    Law fun w => w.Tidy ∧ w.Frozen o c s d where
  change change h := ⟨change.tidy h.1, change.frozen h.1.regular constant h.2⟩
  cells _ h := ⟨h.1.congr rfl rfl rfl rfl, h.2.congr rfl rfl⟩
  cleared h := ⟨h.1.congr rfl rfl rfl rfl, h.2.congr rfl rfl⟩

/-! ## What comes later -/

/-- What can come next for a machine of a host: the host enters it, it makes a move, or a command has been
performed. -/
inductive Advances : Machine → Machine → Prop where
  | entry {s : Session} {c : Command} {a : Activity} (entry : s.withoutStreams.entry? c = some a) :
      Advances s.machine a.machine
  | move (a : Activity) : Advances a.machine a.step.machine
  | command (s : Session) (c : Command) : Advances s.machine (s.perform c).2.machine

/-- The second machine can come after the first one, or is the same. -/
def Reaches : Machine → Machine → Prop := Relation.ReflTransGen Advances

namespace Law

variable {P : World → Prop} (law : Law P) {s : Session} {m m' : Machine}
include law

/-- A law holds when a host enters the machine. -/
theorem entry {c : Command} {a : Activity} (h : P s.machine.world) (entry : s.entry? c = some a) :
    P a.machine.world := by
  cases c with
  | interpret script keepAs =>
    cases entry
    exact Activity.startScript_law law.change law.cells _ (law.change (.nextProto s.machine.world _) h)
  | interpretKept name =>
    obtain ⟨p, -, rfl⟩ := Option.map_eq_some_iff.1 entry
    exact Activity.startScript_law law.change law.cells p h
  | callGlobal name args =>
    obtain ⟨callee, -, rfl⟩ := Option.map_eq_some_iff.1 entry
    exact law.realise h args
  | callValue callee args =>
    cases entry
    exact law.realise h (callee :: args)
  | callMany callee count arg =>
    cases entry
    exact law.realise h [callee, arg]
  | _ => cases entry

/-- A law that says nothing about the caches holds from then on. -/
theorem reaches (recorded : ∀ {w : World} (caches : CacheRegistry), P w → P { w with caches }) (h : P m.world)
    (reaches : Reaches m m') : P m'.world := by
  induction reaches with
  | refl => exact h
  | tail _ advances ih =>
    cases advances with
    | entry entry => exact law.entry (law.cleared ih) entry
    | move a => exact law.step ih
    | command s c => exact law.performed recorded ih c

end Law

/-- Every world that a session leads to is tidy. -/
theorem Reaches.tidy {config : Config} {level : Level} {fuel : Nat} {m : Machine}
    (reached : Reaches (Session.start config level fuel).machine m) : m.world.Tidy := by
  have start : ∀ log : Logging, Tidy { log } := fun log => ⟨regular_initial log, fun _ => Class.wellMade_bare _ _⟩
  refine law_tidy.reaches (fun _ h => h.congr rfl rfl rfl rfl) ?_ reached
  exact law_tidy.evolves (evolves_foldl_withNative preludeNatives _).1 (start _)

end Session

/-! ## Making instances -/

theorem Value.eq_cls_of_cls? {v : Value} {c : Ref .cls} (h : v.cls? = some c) : v = .cls c := by
  cases v <;> cases h
  rfl

namespace Exec

variable {α β : Type} {c : Ref .cls}

/-- A computation that changes nothing of the world but its log. -/
def OnlyLogs (x : Exec α) : Prop := ∀ m, ∃ log, (x.after m).world = { m.world with log }

theorem onlyLogs_of_world {x : Exec α} (same : ∀ m, (x.after m).world = m.world) : OnlyLogs x :=
  fun m => ⟨m.world.log, same m⟩

theorem OnlyLogs.bind {x : Exec α} {f : α → Exec β} (hx : OnlyLogs x) (hf : ∀ v, OnlyLogs (f v)) :
    OnlyLogs (x >>= f) := by
  intro m
  obtain ⟨log, first⟩ := hx m
  cases run : x.run m with
  | ok v m₁ =>
    obtain ⟨log', second⟩ := hf v m₁
    rw [after_of_ok run] at first
    exact ⟨log', by rw [after_bind run, second, first]⟩
  | error e m₁ =>
    rw [after_of_error run] at first
    exact ⟨log, by rw [after_of_error (run_bind_of_error run), first]⟩

theorem onlyLogs_get : OnlyLogs get := onlyLogs_of_world fun _ => rfl

theorem onlyLogs_heap : OnlyLogs heap := onlyLogs_of_world fun _ => rfl

theorem onlyLogs_fail (cause : Cause) : OnlyLogs (fail cause : Exec α) := onlyLogs_of_world fun _ => rfl

theorem onlyLogs_pure (v : α) : OnlyLogs (Pure.pure v : Exec α) := onlyLogs_of_world fun _ => rfl

theorem onlyLogs_modify (f : Machine → Machine) (same : ∀ m, (f m).world = m.world := by exact fun _ => rfl) :
    OnlyLogs (modify f) :=
  onlyLogs_of_world same

theorem onlyLogs_note (level : Level) (message : Unit → Text) : OnlyLogs (note level message) := by
  intro m
  show ∃ log, m.world.note "vm" level message = _
  rw [note_eq]
  exact ⟨_, rfl⟩

theorem onlyLogs_pushFrame (f : Frame) : OnlyLogs (pushFrame f) := by
  refine onlyLogs_get.bind fun m => ?_
  split
  · exact onlyLogs_fail _
  · exact (onlyLogs_note _ _).bind fun _ => onlyLogs_modify _

theorem onlyLogs_callClosure (r : Ref .closure) (argc : Nat) (isConstructor : Bool) :
    OnlyLogs (callClosure r argc isConstructor) := by
  refine onlyLogs_heap.bind fun h => ?_
  dsimp only
  split
  · exact onlyLogs_fail _
  · refine (onlyLogs_modify _).bind fun _ => onlyLogs_get.bind fun m => ?_
    split
    · exact onlyLogs_fail _
    · exact onlyLogs_pushFrame _

theorem onlyLogs_reorder (callee : Value) (argc : Nat) : OnlyLogs (reorder callee argc) := by
  refine OnlyLogs.bind (onlyLogs_of_world fun _ => rfl) fun window => ?_
  split
  · refine onlyLogs_heap.bind fun h => ?_
    split
    · exact onlyLogs_get.bind fun _ => onlyLogs_fail _
    · refine onlyLogs_get.bind fun m => ?_
      dsimp only
      split
      · exact (onlyLogs_modify _).bind fun _ => onlyLogs_pure _
      · exact (onlyLogs_modify _).bind fun _ => onlyLogs_fail _
  · exact onlyLogs_pure _

/-- The world `w'` is `w` with a new instance of `c`, but for the log. -/
def Instantiated (c : Ref .cls) (w w' : World) : Prop := ∃ log, w' = { (w.newObject c).2 with log }

/-- What becomes of the world if an instance is to be made: it gets the instance, or stays as it is. -/
def Attempted (c : Ref .cls) (w w' : World) : Prop := (∃ log, w' = { w with log }) ∨ Instantiated c w w'

/-- An instance begins with the fields that its class declares, all set. -/
theorem instantiated_instantiate (argc : Nat) (m : Machine) :
    Instantiated c m.world ((instantiate c argc).after m).world := by
  have made : (withWorld fun w => w.newObject c).run m = .ok (m.world.newObject c).1
      { m with world := (m.world.newObject c).2 } := run_withWorld _ m
  unfold instantiate
  rw [after_bind made]
  -- The rest puts the instance on the stack and calls the constructor.
  refine OnlyLogs.bind onlyLogs_get (fun m₁ => OnlyLogs.bind (onlyLogs_modify _) fun _ =>
    onlyLogs_heap.bind fun h => ?_) { m with world := (m.world.newObject c).2 }
  split
  · exact onlyLogs_callClosure _ _ _
  · split
    · exact onlyLogs_fail _
    · exact onlyLogs_pure _

/-- Arguments are put in order before the instance is made, and that may fail. -/
theorem attempted_reorder {f : Nat → Exec α} (made : ∀ n m, Instantiated c m.world ((f n).after m).world)
    (callee : Value) (argc : Nat) (m : Machine) :
    Attempted c m.world ((reorder callee argc >>= f).after m).world := by
  obtain ⟨log, same⟩ := onlyLogs_reorder callee argc m
  cases run : (reorder callee argc).run m with
  | ok n m₁ =>
    rw [after_of_ok run] at same
    obtain ⟨log', instantiated⟩ := made n m₁
    refine .inr ⟨log', ?_⟩
    rw [after_bind run, instantiated, same, newObject_eq, newObject_eq]
  | error e m₁ =>
    rw [after_of_error run] at same
    rw [after_of_error (run_bind_of_error run)]
    exact .inl ⟨log, same⟩

variable {m : Machine} {argc : Nat}

/-- A construction makes an instance of the class, or nothing. -/
theorem attempted_new (callee : m.slot (m.stack.size - 1 - argc) = .cls c) :
    Attempted c m.world ((new argc).after m).world := by
  unfold new
  rw [after_bind (run_peek argc m), callee]
  exact attempted_reorder instantiated_instantiate _ argc m

/-- So does a call of the class. -/
theorem attempted_call (callee : m.slot (m.stack.size - 1 - argc) = .cls c) :
    Attempted c m.world ((call argc).after m).world := by
  unfold call
  rw [after_bind (run_peek argc m), callee]
  refine attempted_reorder (fun n m₁ => ?_) _ argc m
  have made := instantiated_instantiate (c := c) n m₁
  cases run : (instantiate c n).run m₁ with
  | ok v m₂ =>
    rw [after_of_ok run] at made
    rw [after_bind run]
    exact made
  | error e m₂ =>
    rw [after_of_error run] at made
    rw [after_of_error (run_bind_of_error run)]
    exact made

end Exec

namespace Activity

open Exec Session

variable {a : Activity} {o : Ref .object} {c : Ref .cls} {s : Symbol}

/-- The class that the next move makes an instance of: an instruction does so, or a call from outside. -/
def instantiates? (a : Activity) : Option (Ref .cls) :=
  match a.control with
  | .execute =>
    match fetch.run a.machine with
    | .ok i m => if i.op = .new ∨ i.op = .call then (m.slot (m.stack.size - 1 - i.a.toNat)).cls? else none
    | .error _ _ => none
  | .invoke callee _ => callee.cls?
  | _ => none

/-- So does the move that executes either of them. -/
theorem attempted_step (instantiates : a.instantiates? = some c) :
    Attempted c a.machine.world a.step.machine.world := by
  unfold instantiates? at instantiates
  split at instantiates
  next control =>
    split at instantiates
    next i m fetched =>
      split at instantiates
      next op =>
        have callee := Value.eq_cls_of_cls? instantiates
        obtain ⟨fs, -, rfl⟩ := fetched_eq fetched (by rcases op with op | op <;> rw [op] <;> nofun)
        rw [step_of_execute control, world_stepExecute fetched]
        rcases op with op | op
        · rw [show execute i = andNext (Exec.new i.a.toNat) by rw [execute, op], after_andNext]
          exact attempted_new callee
        · rw [show execute i = callProgress i.a.toNat by rw [execute, op], after_callProgress]
          exact attempted_call callee
      next => cases instantiates
    next => cases instantiates
  next callee args control =>
    cases Value.eq_cls_of_cls? instantiates
    obtain ⟨k, stack, moved⟩ := machine_stepInvoke a.machine a.pending (.cls c) args
    rw [step_of_invoke control, moved]
    unfold beginCall
    split
    · exact .inl ⟨a.machine.world.log, rfl⟩
    · obtain ⟨m, pushed⟩ : ∃ m : Machine,
          m = { a.machine with stack := a.machine.stack.push (.cls c) ++ args.toArray } := ⟨_, rfl⟩
      have callee : m.slot (m.stack.size - 1 - args.length) = .cls c := by
        rw [pushed]
        exact slot_of_callee a.machine (.cls c) args
      have called := attempted_call callee
      rw [pushed] at called
      exact called
  next => cases instantiates

/-- The next move makes the instance `o` of the class `c`. -/
structure Makes (a : Activity) (o : Ref .object) (c : Ref .cls) : Prop where
  instantiates : a.instantiates? = some c
  new : ¬ a.machine.heap.objects.has o
  made : a.step.machine.heap.objects.has o

/-- An instance has its initial values when it has been made. -/
theorem Makes.frozen (makes : a.Makes o c) (tidy : a.machine.world.Tidy) {d : FieldDecl}
    (declared : a.machine.heap.declared? c s = some d) : a.step.machine.world.Frozen o c s d := by
  have made := makes.made
  rcases attempted_step makes.instantiates with ⟨log, same⟩ | ⟨log, same⟩
  · rw [Machine.heap, same] at made
    exact absurd made makes.new
  · have frozen := tidy.frozen_newObject declared
    rw [Machine.heap, same] at made
    have ref : o = (a.machine.world.newObject c).1 := by
      have objects := newObject_eq a.machine.world c
      rw [objects] at made ⊢
      exact (Pool.has_alloc.1 made).resolve_left makes.new
    rw [same, ref]
    exact frozen.congr rfl rfl

/-! ## Assignments -/

/-- Assigning to a constant field fails, but the name has become a symbol. -/
theorem run_setObjectProperty {m : Machine} {name : Text}
    (constant : m.heap.isConstField (m.heap.objects.get o).cls (m.world.intern name).1 = true) (v : Value)
    (site : Site) :
    (setObjectProperty o name v site).run m =
      .error (.error ⟨.constantField name, m.span⟩) { m with world := (m.world.intern name).2 } := by
  have interned : (intern name).run m = .ok (m.world.intern name).1 { m with world := (m.world.intern name).2 } := rfl
  have same : Machine.heap { m with world := (m.world.intern name).2 } = m.heap := rfl
  unfold setObjectProperty
  rw [run_bind_of_ok interned, run_bind_of_ok (run_heap _), same, if_pos constant]
  rfl

/-- The value and the property that the next move assigns to. -/
def assigns? (a : Activity) : Option (Value × Text) :=
  match a.control with
  | .execute =>
    match fetch.run a.machine with
    | .ok i m =>
      if i.op = .setProperty then
        (m.nameAt? i.a.toNat).map fun name => (Machine.top { m with stack := m.stack.pop }, name)
      else none
    | .error _ _ => none
  | _ => none

/-- The next move assigns to a property if it executes this instruction. -/
theorem assigns?_eq_some_iff {v : Value} {name : Text} :
    a.assigns? = some (v, name) ↔ a.control = .execute ∧ ∃ i m, fetch.run a.machine = .ok i m ∧
      i.op = .setProperty ∧ m.nameAt? i.a.toNat = some name ∧ Machine.top { m with stack := m.stack.pop } = v := by
  unfold assigns?
  cases a.control with
  | execute =>
    cases fetch.run a.machine with
    | ok i m => simp [and_comm, and_assoc]
    | error e m => simp
  | _ => simp

/-- A move that assigns to a constant field fails. -/
theorem refuses_constantField {name : Text} (assigns : a.assigns? = some (.object o, name))
    (constant : a.machine.heap.isConstField (a.machine.heap.objects.get o).cls (a.machine.world.intern name).1 = true) :
    ∃ span, a.Refuses ⟨.constantField name, span⟩ := by
  obtain ⟨control, i, m, fetched, op, named, object⟩ := assigns?_eq_some_iff.1 assigns
  obtain ⟨fs, same, rfl⟩ := fetched_eq fetched (by rw [op]; nofun)
  -- The name has been read and both operands have been taken off the stack.
  let m : Machine := { a.machine with frames := fs, stack := a.machine.stack.pop.pop }
  have executed : (fetch >>= execute).run a.machine =
      .error (.error ⟨.constantField name, m.span⟩) { m with world := (m.world.intern name).2 } := by
    rw [run_bind_of_ok fetched]
    unfold execute
    simp only [op]
    rw [run_bind_of_ok (run_constantName named), run_bind_of_ok (run_pop _), run_bind_of_ok (run_pop _), object,
      run_bind_of_ok (show site.run m = .ok _ m from rfl)]
    exact run_bind_of_error (run_setObjectProperty (m := m) constant _ _)
  refine ⟨m.span, { m with world := (m.world.intern name).2 }, ?_, same⟩
  rw [step_of_execute control, stepExecute, executed]
  rfl

/-- Constant fields never change. Take any session from its start, and any move in it that makes an instance of a
class for which a field is constant. From then on the instance has this field with the initial value that its
nearest declaration gives to it, in every state that moves of the machine, entries and commands of the host lead
to, and every assignment to it is refused. The class and its declarations stay as they are, so the field stays
constant. -/
theorem constant_fields_never_change {config : Config} {level : Level} {fuel : Nat}
    (reached : Reaches (Session.start config level fuel).machine a.machine) (makes : a.Makes o c)
    (constant : a.machine.heap.isConstField c s = true) :
    ∃ d, a.machine.heap.declared? c s = some d ∧ ∀ m, Reaches a.step.machine m →
      m.heap.objects.has o ∧ (m.heap.objects.get o).cls = c ∧ m.heap.isConstField c s = true ∧
        m.heap.declared? c s = some d ∧ (m.heap.objects.get o).fields.get m.world.shapes s = some d.initial ∧
        ∀ (b : Activity) (name : Text), b.machine = m → b.assigns? = some (.object o, name) →
          (m.world.intern name).1 = s →
          ∃ span, b.Refuses ⟨.typeError ("Cannot assign to constant field '" ++ name ++ "'"), span⟩ := by
  obtain ⟨d, declared, isConst⟩ := Heap.isConstField_eq_true_iff.1 constant
  have tidy := reached.tidy
  refine ⟨d, declared, fun m later => ?_⟩
  obtain ⟨tidy, frozen⟩ := (law_frozen isConst o c s).reaches
    (fun _ h => ⟨h.1.congr rfl rfl rfl rfl, h.2.congr rfl rfl⟩)
    ⟨law_tidy.step tidy, makes.frozen tidy declared⟩ later
  have still : m.heap.isConstField c s = true := Heap.isConstField_eq_true_iff.2 ⟨d, frozen.declared, isConst⟩
  refine ⟨frozen.known, frozen.cls, still, frozen.declared, ?_, ?_⟩
  · exact ((tidy.regular.rows o).get_eq s).trans frozen.value
  · rintro b name rfl assigns rfl
    refine refuses_constantField assigns ?_
    rw [show (b.machine.heap.objects.get o).cls = c from frozen.cls]
    exact still

/-- Moves of the machine lead on. -/
theorem reaches_after (a : Activity) {k n : Nat} (le : k ≤ n) : Reaches (a.after k).machine (a.after n).machine := by
  induction le with
  | refl => exact .refl
  | @step n _ ih =>
    have next := Advances.move (a.after n)
    rw [Nat.succ_eq_add_one, Activity.after]
    split
    next b step =>
      rw [step] at next
      exact ih.tail next
    next => exact ih

/-- A script that derives a class from one with a field `x`, declares `x` anew as a constant, and makes an instance
whose constructor assigns to `x`. -/
def fixingScript : Blueprint :=
  .function "main" 0 0 [] []
    [.plain (.text "Fixed"), .plain (.text "Point"), .plain (.int 1), .plain (.text "x"), .plain (.int 5),
      .function (.function "init" 0 0 [] [] [.plain (.int 7), .plain (.text "x")]
        [({ op := .getThis }, 2), ({ op := .constant, a := 0 }, 2), ({ op := .setProperty, a := 1 }, 2),
          ({ op := .ret }, 2)]),
      .plain (.text "init")]
    [({ op := .newClass, a := 0 }, 1), ({ op := .newClass, a := 1 }, 1), ({ op := .constant, a := 2 }, 1),
      ({ op := .field, a := 3 }, 1), ({ op := .inherit }, 1), ({ op := .constant, a := 4 }, 1),
      ({ op := .constField, a := 3 }, 1), ({ op := .constant, a := 5 }, 1), ({ op := .method, a := 6 }, 1),
      ({ op := .new, a := 0 }, 3), ({ op := .ret }, 3)]

/-- A session that begins to run `fixingScript`. -/
def fixing : Activity :=
  ((Session.start {} .off 100).withoutStreams.entry? (.interpret fixingScript none)).getD default

/-- The instance that a value is. -/
def objectOf? : Value → Option (Ref .object)
  | .object r => some r
  | _ => none

/-- The constructor of `fixingScript` may not assign to `x`, although the superclass does not declare it constant. -/
theorem fixing_refuses_assignment :
    Reaches (Session.start {} .off 100).machine (fixing.after 9).machine ∧ (fixing.after 9).Makes ⟨0⟩ ⟨5⟩ ∧
      (fixing.after 9).machine.heap.isConstField ⟨5⟩ 0 = true ∧
      (fixing.after 9).machine.heap.isConstField ⟨2⟩ 0 = false ∧
      (((fixing.after 12).machine.heap.objects.get ⟨0⟩).fields.get (fixing.after 12).machine.world.shapes 0).bind
        Key.ofValue? = some (.int 5) ∧
      ∃ span, (fixing.after 12).Refuses ⟨.typeError "Cannot assign to constant field 'x'", span⟩ := by
  have begun : Advances (Session.start {} .off 100).machine fixing.machine :=
    .entry (c := .interpret fixingScript none) rfl
  have reached := (Relation.ReflTransGen.single begun).trans (reaches_after fixing (Nat.zero_le 9))
  have makes : (fixing.after 9).Makes ⟨0⟩ ⟨5⟩ := by
    refine ⟨by decide +kernel, ?_, ?_⟩
    · show ¬ 0 < (fixing.after 9).machine.heap.objects.size
      decide +kernel
    · show 0 < (fixing.after 9).step.machine.heap.objects.size
      decide +kernel
  have constant : (fixing.after 9).machine.heap.isConstField ⟨5⟩ 0 = true := by decide +kernel
  obtain ⟨d, declared, holds⟩ := constant_fields_never_change reached makes constant
  have later : Reaches (fixing.after 9).step.machine (fixing.after 12).machine := by
    rw [← machine_after_succ (by decide +kernel)]
    exact reaches_after fixing (by decide)
  obtain ⟨-, -, -, -, value, refuses⟩ := holds (fixing.after 12).machine later
  have initial : ((fixing.after 9).machine.heap.declared? ⟨5⟩ 0).bind (Key.ofValue? ∘ FieldDecl.initial) =
      some (.int 5) := by decide +kernel
  rw [declared] at initial
  rw [value]
  refine ⟨reached, makes, constant, by decide +kernel, initial, ?_⟩
  have assigned : (fixing.after 12).assigns?.map (fun p => (objectOf? p.1, p.2)) =
      some (some ⟨0⟩, Text.ofString "x") := by decide +kernel
  obtain ⟨⟨v, name⟩, assigns, same⟩ := Option.map_eq_some_iff.1 assigned
  obtain ⟨object, rfl⟩ := Prod.mk.inj same
  cases v with
  | object r =>
    cases object
    exact refuses (fixing.after 12) _ rfl assigns (by decide +kernel)
  | _ => cases object

end Activity

end ScriptVm
