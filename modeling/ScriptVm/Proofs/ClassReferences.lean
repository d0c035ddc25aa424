import ScriptVm.Proofs.HostOperations
import ScriptVm.Proofs.PlainInstructions

/-!
# References to classes

A class gets its reference when it is put into the heap, so whatever refers to a class must have got
the reference after that. `Referring` says of any data that its references to classes are below a
bound, and `World.Grounded` that those of a world are below the number of its classes. Apart from the
bound, a superclass is older than the classes that inherit from it.

The lemmas say that what the heap gives keeps the bound, and so does what is put into it.
-/

set_option autoImplicit false

namespace ScriptVm

/-- After an allocation a reference leads to the new object if it is the new reference, and else to where
it led before. -/
theorem Pool.get_alloc_cases {k : Kind} {α : Type} [Inhabited α] (p : Pool k α) (a : α) (r : Ref k) :
    (p.alloc a).2.get r = p.get r ∨ r = (p.alloc a).1 ∧ (p.alloc a).2.get r = a := by
  by_cases latest : r = (p.alloc a).1
  · subst latest
    exact .inr ⟨rfl, p.get_alloc_self a⟩
  · by_cases known : p.has r
    · exact .inl (p.get_alloc a r known)
    · have unknown : ¬(p.alloc a).2.has r := fun has => (Pool.has_alloc.1 has).elim known latest
      exact .inl (by rw [Pool.get_of_not_has unknown, Pool.get_of_not_has known])

/-- Data that may refer to classes. -/
class Referring (α : Type) where
  /-- The references to classes in the data are below the bound. -/
  Below : Nat → α → Prop
  mono : ∀ {n k : Nat} {a : α}, n ≤ k → Below n a → Below k a

namespace Referring

variable {α β κ ν : Type} {n : Nat}

/-- Data that refers to no class. -/
abbrev nowhere : Referring α := ⟨fun _ _ => True, fun _ _ => trivial⟩

instance : Referring Unit := nowhere
instance : Referring Bool := nowhere
instance : Referring Nat := nowhere
instance : Referring UInt8 := nowhere
instance : Referring Key := nowhere
instance : Referring Constant := nowhere
instance : Referring Proto := nowhere
instance : Referring Callable := nowhere
instance : Referring (Cache Nat) := nowhere
instance : Referring (Ref .object) := nowhere
instance : Referring (Ref .closure) := nowhere
instance : Referring (Ref .native) := nowhere
instance : Referring (Ref .cell) := nowhere
instance : Referring (Ref .statics) := nowhere

instance : Referring (Ref .cls) := ⟨fun n r => r.index < n, fun le h => Nat.lt_of_lt_of_le h le⟩

instance : Referring Value where
  Below n
    | .cls r => r.index < n
    | .superOf r => r.index < n
    | _ => True
  mono {n k v} le h := by
    cases v with
    | cls r => exact Nat.lt_of_lt_of_le h le
    | superOf r => exact Nat.lt_of_lt_of_le h le
    | _ => trivial

instance [Referring α] : Referring (Option α) :=
  ⟨fun n o => ∀ a ∈ o, Below n a, fun le h a ha => mono le (h a ha)⟩

instance [Referring α] : Referring (List α) :=
  ⟨fun n l => ∀ a ∈ l, Below n a, fun le h a ha => mono le (h a ha)⟩

instance [Referring α] : Referring (Array α) := ⟨fun n l => Below n l.toList, mono⟩

instance [Referring α] [Referring β] : Referring (α × β) :=
  ⟨fun n p => Below n p.1 ∧ Below n p.2, fun le h => ⟨mono le h.1, mono le h.2⟩⟩

instance [DecidableEq κ] [Referring ν] : Referring (Assoc κ ν) :=
  ⟨fun n m => ∀ k v, m.get? k = some v → Below n v, fun le h k v found => mono le (h k v found)⟩

instance {k : Kind} [Inhabited α] [Referring α] : Referring (Pool k α) :=
  ⟨fun n p => ∀ r, Below n (p.get r), fun le h r => mono le (h r)⟩

/-! ## Collections -/

section

variable [Referring α] {l l' : List α} {a b : α} {x : Array α}

theorem below_none : Below n (none : Option α) := fun _ h => nomatch h

theorem below_some (h : Below n a) : Below n (some a) := fun _ same => Option.some.inj same ▸ h

theorem below_optionGetD {o : Option α} (h : Below n o) (default : Below n b) : Below n (o.getD b) := by
  cases o with
  | none => exact default
  | some a => exact h a rfl

theorem below_nil : Below n ([] : List α) := fun _ h => nomatch h

theorem below_cons (h : Below n a) (rest : Below n l) : Below n (a :: l) := List.forall_mem_cons.2 ⟨h, rest⟩

/-- A part of a list refers to no more than the list does. -/
theorem below_subset (h : Below n l) (sub : l' ⊆ l) : Below n l' := fun a ha => h a (sub ha)

/-- Two lists refer to what both refer to. -/
theorem below_append (h : Below n l) (h' : Below n l') : Below n (l ++ l') := fun a ha =>
  (List.mem_append.1 ha).elim (h a) (h' a)

theorem below_replicate (k : Nat) (h : Below n a) : Below n (List.replicate k a) := fun _ hb =>
  List.eq_of_mem_replicate hb ▸ h

omit [Referring α] in

/-- What every item is turned into decides what the new list refers to. -/
theorem below_map [Referring β] {f : α → β} (h : ∀ a ∈ l, Below n (f a)) : Below n (l.map f) :=
  List.forall_mem_map.2 h

theorem below_headD (h : Below n l) (default : Below n b) : Below n (l.headD b) := by
  cases l with
  | nil => exact default
  | cons a _ => exact h a List.mem_cons_self

theorem below_getD (h : Below n l) (i : Nat) (default : Below n b) : Below n (l.getD i b) := by
  rw [List.getD_eq_getElem?_getD]
  exact below_optionGetD (fun a found => h a (List.mem_of_getElem? found)) default

theorem below_set (h : Below n l) (i : Nat) (new : Below n a) : Below n (l.set i a) := fun b hb =>
  (List.mem_or_eq_of_mem_set hb).elim (h b) fun same => same ▸ new

theorem below_push (h : Below n x) (new : Below n a) : Below n (x.push a) := by
  show Below n (x.push a).toList
  rw [Array.toList_push]
  exact below_append h (below_cons new below_nil)

theorem below_pop (h : Below n x) : Below n x.pop := by
  show Below n x.pop.toList
  rw [Array.toList_pop]
  exact below_subset h (List.dropLast_subset _)

theorem below_shrink (h : Below n x) (i : Nat) : Below n (x.shrink i) := by
  show Below n (x.shrink i).toList
  rw [Array.toList_shrink]
  exact below_subset h (List.take_subset _ _)

theorem below_extract (h : Below n x) (i j : Nat) : Below n (x.extract i j).toList := by
  rw [Array.toList_extract, List.extract_eq_take_drop]
  exact below_subset h (List.Subset.trans (List.take_subset _ _) (List.drop_subset _ _))

theorem below_setIfInBounds (h : Below n x) (i : Nat) (new : Below n a) : Below n (x.setIfInBounds i a) := by
  show Below n (x.setIfInBounds i a).toList
  rw [Array.toList_setIfInBounds]
  exact below_set h i new

theorem below_joined (h : Below n x) (new : Below n l) : Below n (x ++ l.toArray) := by
  show Below n (x ++ l.toArray).toList
  rw [Array.toList_append]
  exact below_append h new

theorem below_filled (h : Below n x) (k : Nat) (new : Below n a) : Below n (x ++ Array.replicate k a) := by
  show Below n (x ++ Array.replicate k a).toList
  rw [Array.toList_append, Array.toList_replicate]
  exact below_append h (below_replicate k new)

theorem below_getElem? (h : Below n x) {i : Nat} (found : x[i]? = some a) : Below n a :=
  h a (Array.mem_toList_iff.2 (Array.mem_of_getElem? found))

theorem below_item (h : Below n x) (i : Nat) (default : Below n b) : Below n (x.getD i b) := by
  rw [Array.getD_eq_getD_getElem?]
  exact below_optionGetD (fun _ found => below_getElem? h found) default

theorem below_last (h : Below n x) (default : Below n b) : Below n (x.back?.getD b) :=
  below_optionGetD (fun a found => h a (Array.mem_toList_iff.2 (Array.mem_of_back? found))) default

end

/-- An association list with one more entry refers to what the list and the new value refer to. -/
theorem below_insert [DecidableEq κ] [Referring ν] {m : Assoc κ ν} (h : Below n m) (k : κ) {v : ν}
    (new : Below n v) : Below n (m.insert k v) := by
  intro k' v' found
  rw [Assoc.get?_insert] at found
  split at found
  · exact Option.some.inj found ▸ new
  · exact h k' v' found

section

variable {k : Kind} [Inhabited α] [Referring α] {p : Pool k α} {a : α}

/-- A pool with a new object refers to what the pool and the object refer to. -/
theorem below_alloc (h : Below n p) (new : Below n a) : Below n (p.alloc a).2 := Pool.forall_alloc h new

/-- So does a pool with an object replaced. -/
theorem below_replace (h : Below n p) (r : Ref k) (new : Below n a) : Below n (p.set r a) := Pool.forall_set h new

/-- An empty pool refers to nothing, apart from the object that stands for missing ones. -/
theorem below_noObjects (default : Below n (default : α)) : Below n ({} : Pool k α) := fun r => by
  have missing : ¬({} : Pool k α).has r := Nat.not_lt_zero r.index
  rw [Pool.get_of_not_has missing]
  exact default

end

end Referring

open Referring

/-! ## What the heap holds -/

instance : Referring Table := ⟨fun n t => Below n t.entries, mono⟩

instance : Referring ShapedObject := ⟨fun n o => Below n o.fields, mono⟩

instance : Referring Closure := ⟨fun n c => Below n c.homeSuper, mono⟩

instance : Referring BoundMethod := ⟨fun n b => Below n b.receiver, mono⟩

instance : Referring ValueMethod := ⟨fun n m => Below n m.receiver, mono⟩

instance : Referring FieldDecl := ⟨fun n d => Below n d.initial, mono⟩

instance : Referring StaticField := ⟨fun n f => Below n f.value, mono⟩

/-- The class of an instance does not matter: no reference comes from it but those in its members. -/
instance : Referring Instance := ⟨fun n o => Below n o.fields, mono⟩

instance : Referring FoundMethod := ⟨fun n m => Below n m.method, mono⟩

instance : Referring (Cache FoundMethod) :=
  ⟨fun n c => ∀ k a, c.lookup k = some a → Below n a, fun le h k a found => mono le (h k a found)⟩

instance : Referring CacheRegistry := ⟨fun n c => Below n c.methods, mono⟩

instance : Referring Cell where
  Below n
    | .onStack _ => True
    | .closed v => Below n v
  mono {n k c} le h := by
    cases c with
    | onStack s => trivial
    | closed v => exact mono le (show Below n v from h)

/-- The references to classes in a class are below the bound. -/
structure Class.Bounded (n : Nat) (c : Class) : Prop where
  superclass : Below n c.superclass
  fields : Below n c.fields
  nested : Below n c.nested

instance : Referring Class := ⟨Class.Bounded, fun le h => ⟨mono le h.superclass, mono le h.fields, mono le h.nested⟩⟩

/-- All superclasses come before the classes that inherit from them. -/
def Heap.Ordered (h : Heap) : Prop := ∀ r s, (h.classes.get r).superclass = some s → s.index < r.index

/-- The references to classes in the heap are below the bound, and superclasses are older than the
classes that inherit from them. -/
structure Heap.Bounded (n : Nat) (h : Heap) : Prop where
  arrays : Below n h.arrays
  tables : Below n h.tables
  closures : Below n h.closures
  classes : Below n h.classes
  statics : Below n h.statics
  objects : Below n h.objects
  bounds : Below n h.bounds
  methods : Below n h.methods
  cells : Below n h.cells
  ordered : h.Ordered

instance : Referring Heap :=
  ⟨Heap.Bounded, fun le h =>
    ⟨mono le h.arrays, mono le h.tables, mono le h.closures, mono le h.classes, mono le h.statics, mono le h.objects,
      mono le h.bounds, mono le h.methods, mono le h.cells, h.ordered⟩⟩

/-! ## Tables and rows -/

section

variable {n : Nat}

theorem below_entry {t : Table} (h : Below n t) {k : Key} {v : Value} (found : t.get? k = some v) : Below n v := by
  unfold Table.get? at found
  split at found
  · obtain ⟨e, entry, rfl⟩ := Option.map_eq_some_iff.1 found
    exact (below_getElem? h entry).2
  · cases found

theorem below_values {t : Table} (h : Below n t) : Below n t.values := below_map fun e he => (h e he).2

theorem below_keyValues (ks : List Key) : Below n (ks.map Key.toValue) :=
  below_map fun k _ => by cases k <;> trivial

/-- A table with an entry set refers to what the table and the new value refer to. -/
theorem below_setEntry {t : Table} (h : Below n t) (k : Key) {v : Value} (new : Below n v) :
    Below n (t.set k v) := by
  unfold Table.set
  split
  · show Below n (t.entries.modify _ _).toList
    rw [Array.toList_modify]
    intro e he
    obtain ⟨i, found⟩ := List.mem_iff_getElem?.1 he
    rw [List.getElem?_modify] at found
    obtain ⟨e', old, rfl⟩ := Option.map_eq_some_iff.1 found
    have old := h e' (List.mem_of_getElem? old)
    split
    · exact ⟨trivial, new⟩
    · exact old
  · exact below_push h ⟨trivial, new⟩

/-- Removing an entry adds no reference. -/
theorem below_removeEntry {t : Table} (h : Below n t) (k : Key) : Below n (t.remove k).2 := by
  unfold Table.remove
  split
  · show Below n (t.entries.eraseIdxIfInBounds _).toList
    rw [Array.toList_eraseIdxIfInBounds]
    exact below_subset h List.eraseIdx_subset
  · exact h

theorem below_ofList {es : List (Key × Value)} (h : Below n es) : Below n (Table.ofList es) := by
  have sets : ∀ t : Table, Below n t → Below n (es.foldl (fun t e => t.set e.1 e.2) t) := by
    induction es with
    | nil => exact fun t ht => ht
    | cons e rest ih =>
      exact fun t ht => ih (fun e' he' => h e' (List.mem_cons_of_mem _ he')) _
        (below_setEntry ht e.1 (h e List.mem_cons_self).2)
  exact sets {} below_nil

theorem below_search {o : ShapedObject} (h : Below n o) {s : Symbol} {v : Value} (found : o.search s = some v) :
    Below n v := by
  obtain ⟨e, entry, rfl⟩ := Option.map_eq_some_iff.1 found
  exact (h e (Array.mem_toList_iff.2 (Array.mem_of_find?_eq_some entry))).2

theorem below_fieldAt {o : ShapedObject} (h : Below n o) {offset : Nat} {s : Symbol} {v : Value}
    (found : o.fieldAt offset s = some v) : Below n v := by
  unfold ShapedObject.fieldAt at found
  split at found
  next t u field =>
    split at found
    · exact Option.some.inj found ▸ (below_getElem? h field).2
    · cases found
  next => cases found

/-- A field has been set by someone, so its value refers to what the instance refers to. -/
theorem below_field {o : ShapedObject} (h : Below n o) {r : ShapeRegistry} {s : Symbol} {v : Value}
    (found : o.get r s = some v) : Below n v := by
  unfold ShapedObject.get at found
  split at found
  next u placed =>
    obtain ⟨offset, -, at_offset⟩ := Option.bind_eq_some_iff.1 placed
    exact Option.some.inj found ▸ below_fieldAt h at_offset
  next => exact below_search h found

/-- Setting a field in place adds the references of the new value only. -/
theorem below_setFieldAt? {o o' : ShapedObject} (h : Below n o) {offset : Nat} {s : Symbol} {v : Value}
    (new : Below n v) (set : o.setFieldAt? offset s v = some o') : Below n o' := by
  unfold ShapedObject.setFieldAt? at set
  split at set
  · split at set
    · cases set
      exact below_setIfInBounds h offset ⟨trivial, new⟩
    · cases set
  · cases set

theorem below_appendField {o : ShapedObject} (h : Below n o) (r : ShapeRegistry) (s : Symbol) {v : Value}
    (new : Below n v) : Below n (o.append r s v).object := by
  have behind : Below n (o.fields.push (s, v)) := below_push h ⟨trivial, new⟩
  unfold ShapedObject.append
  simp only
  split
  · exact behind
  · split
    · exact behind
    · exact below_setIfInBounds (below_filled (a := (s, Value.null)) h _ ⟨trivial, trivial⟩) _ ⟨trivial, new⟩

/-- Setting a field adds the references of the new value only, whether the field is new or not. -/
theorem below_setField {o : ShapedObject} (h : Below n o) (r : ShapeRegistry) (s : Symbol) {v : Value}
    (new : Below n v) : Below n (o.set r s v).object := by
  unfold ShapedObject.set
  split
  next o' placed =>
    obtain ⟨offset, -, set⟩ := Option.bind_eq_some_iff.1 placed
    exact below_setFieldAt? h new set
  next =>
    split
    · exact below_setIfInBounds h _ ⟨trivial, new⟩
    · exact below_appendField h r s new

/-- The fields of a new instance refer to what the declarations refer to. -/
theorem below_layOut {decls : List FieldDecl} {o : ShapedObject} (declared : Below n decls) (h : Below n o)
    (r : ShapeRegistry) : Below n (World.layOut decls o r).1 := by
  induction decls generalizing o r with
  | nil => exact h
  | cons d rest ih =>
    exact ih (fun d' hd' => declared d' (List.mem_cons_of_mem _ hd'))
      (below_setField h r d.symbol (declared d List.mem_cons_self)) _

/-! ## Caches -/

/-- Asking for a cache adds an empty one at most. -/
theorem below_openedMethods {caches : CacheRegistry} (h : Below n caches) (site : Site) :
    Below n (caches.methodCache site).1 ∧ Below n (caches.methodCache site).2 := by
  unfold CacheRegistry.methodCache CacheRegistry.opened
  cases found : caches.methods.get? site with
  | some c => exact ⟨h site c found, h⟩
  | none =>
    have empty : Below n ({} : Cache FoundMethod) := fun _ _ found => nomatch found
    exact ⟨empty, below_insert (m := caches.methods) h site empty⟩

/-- Recording a method adds the references of that method only. -/
theorem below_recordMethod {caches : CacheRegistry} (h : Below n caches) (site : Site) (k : CacheKey)
    {found : FoundMethod} (new : Below n found) : Below n (caches.recordMethod site k found).2 := by
  intro site' c known k' a held
  rcases CacheRegistry.lookup_record known held with ⟨-, rfl⟩ | ⟨c₀, known₀, held₀⟩
  · exact new
  · exact h site' c₀ known₀ k' a held₀

/-! ## The heap -/

/-- The value of a static field is in some cell of the heap. -/
theorem below_findStaticField {h : Heap} (below : Below n h) {r : Ref .cls} {name : Text} {v : Value}
    (found : h.findStaticField r name = some v) : Below n v := by
  obtain ⟨c, -, own⟩ := List.exists_of_findSome?_eq_some found
  obtain ⟨f, field, rfl⟩ := Option.map_eq_some_iff.1 own
  exact below.statics _ name f field

/-- A nested class is an entry of some class of the heap. -/
theorem below_findNested {h : Heap} (below : Below n h) {r s : Ref .cls} {name : Text}
    (found : h.findNested r name = some s) : Below n s := (below.classes r).nested name s found

/-- The declarations along the chain are those of classes of the heap. -/
theorem below_fieldDecls {h : Heap} (below : Below n h) (r : Ref .cls) : Below n (h.fieldDecls r) := by
  intro d hd
  obtain ⟨c, -, declared⟩ := List.mem_flatMap.1 hd
  exact (below.classes c).fields d declared

/-- Declaring a static field adds the references of its value only. -/
theorem below_putStatic {h : Heap} (below : Below n h) (r : Ref .cls) (name : Text) {f : StaticField}
    (new : Below n f) : Below n (h.putStatic r name f) :=
  { below with statics := below_replace below.statics _ (below_insert (below.statics _) name new) }

/-- Assigning to a static field adds the references of the new value only. -/
theorem below_setStatic? {h h' : Heap} (below : Below n h) {r : Ref .cls} {name : Text} {v : Value}
    (new : Below n v) (set : h.setStatic? r name v = some h') : Below n h' := by
  obtain ⟨c, rfl⟩ := Exec.setStatic?_eq_some set
  exact below_putStatic below c name new

end

/-- The references to classes in the world are below the bound. -/
structure World.Bounded (n : Nat) (w : World) : Prop where
  heap : Below n w.heap
  caches : Below n w.caches

instance : Referring World := ⟨World.Bounded, fun le h => ⟨mono le h.heap, mono le h.caches⟩⟩

namespace World

variable {α β : Type} {n k : Nat} {w w' : World}

/-- The number of classes. -/
def classCount (w : World) : Nat := w.heap.classes.size

/-- All references to classes lead to classes, and superclasses come before the classes that inherit
from them. -/
def Grounded (w : World) : Prop := Below w.classCount w

/-- An operation that keeps the world grounded and gives a result that is grounded too, if all that it
uses refers to no class beyond the first `n`. -/
def Grounds [Referring α] (n : Nat) (f : World → α × World) : Prop :=
  ∀ w, w.Grounded → n ≤ w.classCount →
    (f w).2.Grounded ∧ w.classCount ≤ (f w).2.classCount ∧ Below (f w).2.classCount (f w).1

/-- A bound can be raised: there are as many classes or more when the operation begins. -/
theorem Grounds.mono [Referring α] {f : World → α × World} (h : Grounds n f) (le : n ≤ k) : Grounds k f :=
  fun w grounded enough => h w grounded (Nat.le_trans le enough)

theorem grounds_pure [Referring α] {a : α} (h : Below n a) : Grounds n fun w => (a, w) :=
  fun _ grounded enough => ⟨grounded, Nat.le_refl _, mono enough h⟩

/-- One operation after the other. -/
theorem Grounds.bind [Referring α] [Referring β] {f : World → α × World} {g : α → World → β × World}
    (first : Grounds n f) (next : ∀ k a, n ≤ k → Below k a → Grounds k (g a)) :
    Grounds n fun w => g (f w).1 (f w).2 := by
  intro w grounded enough
  obtain ⟨grounded', more, below⟩ := first w grounded enough
  obtain ⟨grounded'', more', below'⟩ :=
    next _ _ (Nat.le_trans enough more) below _ grounded' (Nat.le_refl _)
  exact ⟨grounded'', Nat.le_trans more more', below'⟩

/-- The result may be wrapped. -/
theorem Grounds.map [Referring α] [Referring β] {f : World → α × World} (h : Grounds n f) {g : α → β}
    (wrap : ∀ k a, Below k a → Below k (g a)) : Grounds n fun w => (g (f w).1, (f w).2) :=
  h.bind (g := fun a w => (g a, w)) fun k a _ ha => grounds_pure (wrap k a ha)

/-- An operation that makes no class. -/
theorem grounds_of_classes [Referring α] {f : World → α × World}
    (same : ∀ w, (f w).2.heap.classes = w.heap.classes)
    (below : ∀ w k, n ≤ k → Below k w → Below k (f w).2 ∧ Below k (f w).1) :
    Grounds n f := by
  intro w grounded enough
  have count : (f w).2.classCount = w.classCount := congrArg Pool.size (same w)
  obtain ⟨kept, result⟩ := below w _ enough grounded
  unfold Grounded
  rw [count]
  exact ⟨kept, Nat.le_refl _, result⟩

/-- An operation of the heap that makes no class. -/
theorem grounds_onHeap [Referring α] {g : Heap → α × Heap} (same : ∀ h, (g h).2.classes = h.classes)
    (below : ∀ h k, n ≤ k → Below k h → Below k (g h).2 ∧ Below k (g h).1) :
    Grounds n (onHeap g) :=
  grounds_of_classes (fun w => same w.heap) fun w k le hw =>
    ⟨⟨(below w.heap k le hw.heap).1, hw.caches⟩, (below w.heap k le hw.heap).2⟩

/-- An operation that leaves the heap and the method caches alone. -/
theorem grounds_aside [Referring α] {f : World → α × World} (heap : ∀ w, (f w).2.heap = w.heap)
    (caches : ∀ w, (f w).2.caches.methods = w.caches.methods) (result : ∀ w k, n ≤ k → Below k (f w).1) :
    Grounds n f :=
  grounds_of_classes (fun w => congrArg Heap.classes (heap w)) fun w k le hw =>
    ⟨⟨(heap w).symm ▸ hw.heap, (congrArg (Below k) (caches w)).mpr hw.caches⟩, result w k le⟩

end World

end ScriptVm
