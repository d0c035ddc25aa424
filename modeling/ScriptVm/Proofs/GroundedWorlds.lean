import ScriptVm.Proofs.ClassReferences

/-!
# Operations that keep the world grounded

One lemma for each operation of the world: if what it is given refers to classes that there are, so
does the world afterwards, and so does the result. `Literal.realise` is the largest of them.
-/

set_option autoImplicit false

namespace ScriptVm

open Referring

namespace World

variable {n : Nat}

theorem grounds_note (logger : Text) (level : Level) (message : Unit → Text) :
    Grounds n fun w => ((), w.note logger level message) :=
  grounds_aside (fun w => by rw [note_eq]) (fun w => by rw [note_eq]) fun _ _ _ => trivial

theorem grounds_intern (name : Text) : Grounds n fun w => w.intern name :=
  grounds_aside (fun _ => rfl) (fun _ => rfl) fun _ _ _ => trivial

theorem grounds_drawProtoId : Grounds n drawProtoId :=
  grounds_aside (fun _ => rfl) (fun _ => rfl) fun _ _ _ => trivial

theorem grounds_noteRefused (site : Site) (k : CacheKey) : Grounds n fun w => ((), w.noteRefused site k) :=
  grounds_note _ _ _

/-! ## Objects -/

theorem grounds_allocClosure {c : Closure} (h : Below n c) : Grounds n (onHeap fun h => h.allocClosure c) :=
  grounds_onHeap (fun _ => rfl) fun _ _ le hh =>
    ⟨{ hh with closures := below_alloc hh.closures (mono le h) }, trivial⟩

theorem grounds_newClosure (p : Proto) : Grounds n fun w => w.newClosure p :=
  grounds_allocClosure (c := { proto := p }) below_none

theorem grounds_allocArray {items : Array Value} (h : Below n items) :
    Grounds n (onHeap fun h => h.allocArray items) :=
  grounds_onHeap (fun _ => rfl) fun _ _ le hh => ⟨{ hh with arrays := below_alloc hh.arrays (mono le h) }, trivial⟩

theorem grounds_allocTable {t : Table} (h : Below n t) : Grounds n (onHeap fun h => h.allocTable t) :=
  grounds_onHeap (fun _ => rfl) fun _ _ le hh => ⟨{ hh with tables := below_alloc hh.tables (mono le h) }, trivial⟩

theorem grounds_allocNative (f : Native) : Grounds n (onHeap fun h => h.allocNative f) :=
  grounds_onHeap (fun _ => rfl) fun _ _ _ hh => ⟨{ hh with }, trivial⟩

theorem grounds_allocMethod {m : ValueMethod} (h : Below n m) : Grounds n (onHeap fun h => h.allocMethod m) :=
  grounds_onHeap (fun _ => rfl) fun _ _ le hh => ⟨{ hh with methods := below_alloc hh.methods (mono le h) }, trivial⟩

theorem grounds_allocBound {b : BoundMethod} (h : Below n b) : Grounds n (onHeap fun h => h.allocBound b) :=
  grounds_onHeap (fun _ => rfl) fun _ _ le hh => ⟨{ hh with bounds := below_alloc hh.bounds (mono le h) }, trivial⟩

theorem grounds_allocCell {c : Cell} (h : Below n c) : Grounds n (onHeap fun h => h.allocCell c) :=
  grounds_onHeap (fun _ => rfl) fun _ _ le hh => ⟨{ hh with cells := below_alloc hh.cells (mono le h) }, trivial⟩

theorem grounds_bind {receiver function : Value} (hr : Below n receiver) (hf : Below n function) :
    Grounds n fun w => w.bind receiver function := by
  unfold World.bind
  cases Callable.ofValue? function with
  | none => exact grounds_pure hf
  | some target => exact grounds_allocBound (b := ⟨receiver, target⟩) hr

theorem grounds_bareObject (cls : Ref .cls) : Grounds n fun w => w.bareObject cls :=
  grounds_of_classes (fun _ => rfl) fun w k _ hw =>
    have objects : Below k (w.heap.objects.alloc { cls }).2 := below_alloc hw.heap.objects below_nil
    ⟨⟨{ hw.heap with objects }, hw.caches⟩, trivial⟩

/-- A new instance has the values that its class declares. -/
theorem grounds_newObject (cls : Ref .cls) : Grounds n fun w => w.newObject cls := by
  refine grounds_of_classes (fun w => by rw [newObject_eq]; rfl) fun w k _ hw => ?_
  rw [newObject_eq]
  have row : Below k (layOut (w.heap.fieldDecls cls) {} w.shapes).1 :=
    below_layOut (below_fieldDecls hw.heap cls) (o := {}) below_nil w.shapes
  have objects : Below k (w.heap.objects.alloc ⟨cls, (layOut (w.heap.fieldDecls cls) {} w.shapes).1⟩).2 :=
    below_alloc hw.heap.objects row
  exact ⟨⟨{ hw.heap with objects }, hw.caches⟩, trivial⟩

/-- A field may be set to what refers to existing classes. -/
theorem grounds_setField (r : Ref .object) (s : Symbol) {v : Value} (h : Below n v) :
    Grounds n fun w => ((), w.setField r s v) := by
  refine grounds_of_classes (fun w => by rw [setField_eq]) fun w k le hw => ?_
  rw [setField_eq]
  have row := below_setField (hw.heap.objects r) w.shapes s (mono le h)
  exact ⟨⟨{ hw.heap with objects := below_replace hw.heap.objects r row }, hw.caches⟩, trivial⟩

/-! ## Classes -/

/-- A class that is put into the heap comes after all the classes that it refers to. -/
theorem grounds_publish {draft : Class} (h : Below n draft) : Grounds n fun w => w.publish draft := by
  intro w grounded enough
  show (w.publish draft).2.Grounded ∧ w.classCount ≤ (w.publish draft).2.classCount ∧
    (w.publish draft).1.index < (w.publish draft).2.classCount
  have count : (w.publish draft).2.classCount = w.classCount + 1 := Array.size_push ..
  have le : w.classCount ≤ (w.publish draft).2.classCount := Nat.le.intro count.symm
  have draft' : Class.Bounded (w.publish draft).2.classCount draft := mono (Nat.le_trans enough le) h
  have heap : Heap.Bounded (w.publish draft).2.classCount w.heap := mono le grounded.heap
  refine ⟨⟨{ heap with classes := ?_, ordered := fun r s super => ?_ }, mono le grounded.caches⟩, le,
    count ▸ Nat.lt_succ_self _⟩
  · exact below_alloc heap.classes (show Class.Bounded _ _ from ⟨draft'.superclass, draft'.fields, draft'.nested⟩)
  · have published := w.heap.classes.get_alloc_cases { draft with tableId := w.shapes.nextId } r
    change ((w.heap.classes.alloc { draft with tableId := w.shapes.nextId }).2.get r).superclass = some s at super
    rcases published with same | ⟨latest, same⟩
    · rw [same] at super
      exact grounded.heap.ordered r s super
    · rw [same] at super
      rw [latest]
      exact Nat.lt_of_lt_of_le (h.superclass s super) enough

theorem grounds_draftClass (name : Text) : Grounds n fun w => w.draftClass name :=
  grounds_of_classes (fun _ => rfl) fun _ _ _ hw =>
    ⟨⟨{ hw.heap with statics := below_alloc hw.heap.statics fun _ _ found => nomatch found }, hw.caches⟩,
      ⟨below_none, below_nil, fun _ _ found => nomatch found⟩⟩

theorem grounds_newClass (name : Text) : Grounds n fun w => w.newClass name :=
  (grounds_draftClass name).bind (g := fun draft w => w.publish draft) fun _ _ _ h => grounds_publish h

/-- A field may be declared with such a value. -/
theorem grounds_draftField {draft : Class} (h : Below n draft) (name : Text) {v : Value} (hv : Below n v)
    (isConst : Bool) : Grounds n fun w => w.draftField draft name v isConst := by
  refine grounds_aside (fun _ => rfl) (fun _ => rfl) fun w k le => ?_
  have draft' : Class.Bounded k draft := mono le h
  have v' : Below k v := mono le hv
  refine ⟨draft'.superclass, fun d hd => ?_, draft'.nested⟩
  simp only [draftField] at hd
  split at hd
  · obtain ⟨d', old, rfl⟩ := List.mem_map.1 hd
    split
    · exact v'
    · exact draft'.fields d' old
  · rcases List.mem_append.1 hd with old | new
    · exact draft'.fields d old
    · rw [List.mem_singleton.1 new]
      exact v'

/-- So may a static one. -/
theorem grounds_defineStatic (r : Ref .cls) (name : Text) {v : Value} (h : Below n v) (isConst : Bool) :
    Grounds n (onHeap fun h => ((), h.defineStatic r name v isConst)) :=
  grounds_onHeap (fun _ => rfl) fun _ _ le hh => ⟨below_putStatic hh r name (f := ⟨v, isConst⟩) (mono le h), trivial⟩

/-! ## Caches -/

theorem grounds_recordProperty (site : Site) (k : CacheKey) (offset : Nat) :
    Grounds n fun w => w.recordProperty site k offset := by
  have recorded : Grounds n fun w =>
      ((w.caches.recordProperty site k offset).1, { w with caches := (w.caches.recordProperty site k offset).2 }) :=
    grounds_aside (fun _ => rfl) (fun _ => rfl) fun _ _ _ => trivial
  refine recorded.bind (g := fun inserted w => (inserted, if inserted then w else w.noteRefused site k))
    fun _ inserted _ _ => ?_
  cases inserted with
  | true => exact grounds_pure trivial
  | false => exact (grounds_noteRefused site k).map (g := fun _ => false) fun _ _ _ => trivial

/-- A cache may remember such a method. -/
theorem grounds_recordMethod (site : Site) (k : CacheKey) {f : FoundMethod} (h : Below n f) :
    Grounds n fun w => w.recordMethod site k f := by
  have recorded : Grounds n fun w =>
      ((w.caches.recordMethod site k f).1, { w with caches := (w.caches.recordMethod site k f).2 }) :=
    grounds_of_classes (fun _ => rfl) fun w _ le hw =>
      ⟨⟨hw.heap, below_recordMethod hw.caches site k (mono le h)⟩, trivial⟩
  refine recorded.bind (g := fun inserted w => (inserted, if inserted then w else w.noteRefused site k))
    fun _ inserted _ _ => ?_
  cases inserted with
  | true => exact grounds_pure trivial
  | false => exact (grounds_noteRefused site k).map (g := fun _ => false) fun _ _ _ => trivial

/-! ## Literals -/

/-- An operation on a class keeps the world grounded if it does so for every class. -/
theorem grounds_ofClass {f : Ref .cls → World → Value × World} (h : ∀ r, Below n r → Grounds n (f r)) {v : Value}
    (hv : Below n v) : Grounds n (ofClass f v) := by
  unfold ofClass
  cases v with
  | cls r => exact h r hv
  | _ => exact grounds_pure trivial

end World

open World

/-- The references to classes in what literals can refer to are below the bound. -/
structure Literal.Scope.Bounded (n : Nat) (scope : Literal.Scope) : Prop where
  globals : Below n scope.globals
  earlier : Below n scope.earlier

instance : Referring Literal.Scope := ⟨Literal.Scope.Bounded, fun le h => ⟨mono le h.globals, mono le h.earlier⟩⟩

section

variable {n : Nat} {scope : Literal.Scope}

/-- A global refers to existing classes, and a missing one is null. -/
theorem below_global (h : Below n scope) (name : Text) : Below n ((scope.globals.get? name).getD .null) :=
  below_optionGetD (fun v found => h.globals name v found) trivial

mutual

/-- Literals are made from the classes that there are, and from new ones. -/
theorem grounds_realise (h : Below n scope) (l : Literal) : Grounds n fun w => l.realise scope w := by
  cases l with
  | null | bool | int | float | decimal | str | namedArg =>
    simp only [Literal.realise]
    exact grounds_pure trivial
  | «global» name =>
    simp only [Literal.realise]
    exact grounds_pure (below_global h name)
  | earlier index =>
    simp only [Literal.realise]
    exact grounds_pure (below_item h.earlier index trivial)
  | array items =>
    simp only [Literal.realise]
    exact (grounds_realiseAll h items).bind (g := fun vs => onHeap fun h => h.allocArray vs.toArray)
      fun _ _ _ hvs => grounds_allocArray hvs
  | hash keys values =>
    simp only [Literal.realise]
    refine (grounds_realiseAll h values).bind
      (g := fun vs => onHeap fun h => h.allocTable (Table.ofList (keys.zip vs))) fun _ vs _ hvs => ?_
    exact grounds_allocTable (below_ofList fun e he => ⟨trivial, hvs e.2 (List.of_mem_zip he).2⟩)
  | cls name =>
    simp only [Literal.realise]
    exact (grounds_newClass name).map (g := Value.cls) fun _ _ hr => hr
  | object className =>
    simp only [Literal.realise]
    exact (grounds_newClass className).bind (g := fun r w => w.bareObject r) fun _ _ _ _ => grounds_bareObject _
  | objectOf cls =>
    simp only [Literal.realise]
    exact (grounds_realise h cls).bind (g := ofClass fun r w => w.bareObject r) fun _ _ _ hv =>
      grounds_ofClass (fun r _ => grounds_bareObject r) hv
  | superNamed name =>
    simp only [Literal.realise]
    exact (grounds_newClass name).map (g := Value.superOf) fun _ _ hr => hr
  | superOf cls =>
    simp only [Literal.realise]
    exact (grounds_realise h cls).bind (g := ofClass fun r w => (Value.superOf r, w)) fun _ _ _ hv =>
      grounds_ofClass (fun r hr => grounds_pure (a := Value.superOf r) hr) hv
  | native name =>
    simp only [Literal.realise]
    exact grounds_allocNative _
  | closure name =>
    simp only [Literal.realise]
    exact grounds_drawProtoId.bind
      (g := fun id w => (Value.closure (w.newClosure { id, name }).1, (w.newClosure { id, name }).2))
      fun _ _ _ _ => (grounds_newClosure _).map (g := Value.closure) fun _ _ _ => trivial
  | method name receiver =>
    simp only [Literal.realise]
    exact (grounds_realise h receiver).bind (g := fun v => onHeap fun h => h.allocMethod ⟨v, name⟩)
      fun _ v _ hv => grounds_allocMethod (m := ⟨v, name⟩) hv
  | bound function receiver =>
    simp only [Literal.realise]
    refine (grounds_realise h function).bind
      (g := fun f w => World.bind (receiver.realise scope w).2 (receiver.realise scope w).1 f) fun k f le hf => ?_
    exact ((grounds_realise h receiver).mono le).bind (g := fun v w => w.bind v f) fun _ _ le' hv =>
      grounds_bind hv (mono le' hf)

theorem grounds_realiseAll (h : Below n scope) (ls : List Literal) : Grounds n fun w => realiseAll scope w ls := by
  cases ls with
  | nil =>
    simp only [realiseAll]
    exact grounds_pure below_nil
  | cons l rest =>
    simp only [realiseAll]
    refine (grounds_realise h l).bind
      (g := fun v w => (v :: (realiseAll scope w rest).1, (realiseAll scope w rest).2)) fun k v le hv => ?_
    exact ((grounds_realiseAll h rest).mono le).bind (g := fun vs w => (v :: vs, w)) fun _ _ le' hvs =>
      grounds_pure (below_cons (mono le' hv) hvs)

end

end

end ScriptVm
