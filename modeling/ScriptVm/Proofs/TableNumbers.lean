import Mathlib.Data.List.Nodup
import ScriptVm.Proofs.ConstantFields

/-!
# Numbers of method tables

Shapes and method tables are numbered from one counter. `World.Numbered` says that a class has a larger
number than all classes before it, and that no shape has the number of a class. It is a law of the world:
`Session.law_numbered`.

`World.nodup_ids` is what follows for the numbers of all classes and shapes together.
-/

set_option autoImplicit false

namespace ScriptVm

namespace ShapeRegistry

variable {r r' r'' : ShapeRegistry} {id parent : ShapeId} {node : Shape} {s : Symbol}

/-- Shapes that `r'` has and `r` has not got numbers that `r` had not given out. -/
structure Spares (r r' : ShapeRegistry) : Prop where
  nextId : r.nextId ≤ r'.nextId
  free : ∀ id, id < r.nextId → r.get? id = none → r'.get? id = none
  keys : r.nodes.keys.Nodup → r'.nodes.keys.Nodup

/-- Nothing has been drawn. -/
theorem Spares.refl (r : ShapeRegistry) : Spares r r := ⟨Nat.le_refl _, fun _ _ free => free, fun keys => keys⟩

/-- Numbers are drawn one after the other. -/
theorem Spares.trans (h : Spares r r') (h' : Spares r' r'') : Spares r r'' where
  nextId := Nat.le_trans h.nextId h'.nextId
  free id given free := h'.free id (Nat.lt_of_lt_of_le given h.nextId) (h.free id given free)
  keys keys := h'.keys (h.keys keys)

/-- A drawn number belongs to no shape. -/
theorem spares_drawId (r : ShapeRegistry) : Spares r r.drawId.2 :=
  ⟨Nat.le_succ _, fun _ _ free => free, fun keys => keys⟩

theorem spares_sealShape (r : ShapeRegistry) (id : ShapeId) : Spares r (r.sealShape id) where
  nextId := Nat.le_of_eq (transitions_sealShape r id).2.symm
  free j _ free := by
    rw [get?_sealShape, free]
    exact ite_self none
  keys keys := by
    unfold sealShape
    split
    · exact Assoc.nodup_put keys
    · exact keys

/-- A new shape has a number that nobody had. -/
theorem spares_grow (known : r.get? parent = some node) (s : Symbol) : Spares r (r.grow parent node s).2 where
  nextId := Nat.le_succ _
  free j given free := by
    have other : parent ≠ j := fun same => by
      rw [same, free] at known
      cases known
    rw [get?_grow, if_neg (Nat.ne_of_gt given), if_neg other]
    exact free
  keys keys := Assoc.nodup_put (Assoc.nodup_put keys)

/-- Adding a property uses new numbers only. -/
theorem spares_addProperty (r : ShapeRegistry) (id : ShapeId) (s : Symbol) : Spares r (r.addProperty id s).2 := by
  unfold addProperty
  simp only
  split
  · exact .refl r
  next node known =>
    split
    · exact .refl r
    · split
      · exact .refl r
      · exact spares_grow known s

end ShapeRegistry

open ShapeRegistry

theorem ShapedObject.spares_append (o : ShapedObject) (r : ShapeRegistry) (s : Symbol) (v : Value) :
    Spares r (o.append r s v).registry := by
  unfold append
  simp only
  split
  · exact .refl r
  · split <;> exact spares_addProperty r o.shape s

theorem ShapedObject.spares_set (o : ShapedObject) (r : ShapeRegistry) (s : Symbol) (v : Value) :
    Spares r (o.set r s v).registry := by
  unfold set
  split
  · exact .refl r
  · split
    · exact .refl r
    · exact o.spares_append r s v

namespace World

variable {w w' : World}

/-- So does laying out an instance. -/
theorem spares_layOut (decls : List FieldDecl) (o : ShapedObject) (r : ShapeRegistry) :
    Spares r (layOut decls o r).2.1 := by
  induction decls generalizing o r with
  | nil => exact .refl r
  | cons d rest ih => exact (o.spares_set r d.symbol d.initial).trans (ih _ _)

/-- No change of a world gives a shape the number of a class. -/
theorem Change.spares (c : Change w w') : Spares w.shapes w'.shapes := by
  cases c with
  | newObject cls =>
    rw [newObject_eq]
    exact spares_layOut _ _ _
  | setField r s v =>
    rw [setField_eq]
    exact ShapedObject.spares_set _ _ s v
  | setFieldAt r offset s v _ done =>
    obtain ⟨fields, -, rfl⟩ := (setFieldAt?_eq_some_iff ..).1 done
    exact .refl _
  | publish draft => exact spares_drawId _
  | sealShape id => exact spares_sealShape _ id
  | _ => exact .refl _

/-- A change makes no class, or publishes one. -/
theorem Change.publish_cases (c : Change w w') :
    w'.heap.classes = w.heap.classes ∨ ∃ draft, w' = (w.publish draft).2 := by
  cases c with
  | newObject cls =>
    rw [newObject_eq]
    exact .inl rfl
  | setField r s v =>
    rw [setField_eq]
    exact .inl rfl
  | setFieldAt r offset s v _ done =>
    obtain ⟨fields, -, rfl⟩ := (setFieldAt?_eq_some_iff ..).1 done
    exact .inl rfl
  | publish draft => exact .inr ⟨draft, rfl⟩
  | _ => exact .inl rfl

/-- Classes are numbered in the order in which they were published, apart from shapes. -/
structure Numbered (w : World) : Prop where
  regular : w.Regular
  increasing : ∀ r r', w.heap.classes.has r' → r.index < r'.index →
    (w.heap.classes.get r).tableId < (w.heap.classes.get r').tableId
  apart : ∀ r, w.heap.classes.has r → w.shapes.get? (w.heap.classes.get r).tableId = none
  keys : w.shapes.nodes.keys.Nodup

namespace Numbered

/-- The world may change as long as its classes stay and new shapes get new numbers. -/
theorem withShapes (h : w.Numbered) (regular : w'.Regular) (classes : w'.heap.classes = w.heap.classes)
    (spares : Spares w.shapes w'.shapes) : w'.Numbered where
  regular := regular
  increasing := classes ▸ h.increasing
  apart := by
    rw [classes]
    exact fun r hr => spares.free _ (h.regular.tables r hr).2 (h.apart r hr)
  keys := spares.keys h.keys

/-- A new class gets a number that nothing has. -/
theorem publish (h : w.Numbered) (draft : Class) : (w.publish draft).2.Numbered := by
  have new := Pool.get_alloc_self w.heap.classes { draft with tableId := w.shapes.nextId }
  have old := Pool.get_alloc w.heap.classes { draft with tableId := w.shapes.nextId }
  refine ⟨h.regular.publish draft, fun r r' hr' lt => ?_, fun r hr => ?_, h.keys⟩
  · change Class.tableId (Pool.get (Pool.alloc _ _).2 r) < Class.tableId (Pool.get (Pool.alloc _ _).2 r')
    rcases Pool.has_alloc.1 hr' with hr' | rfl
    · rw [old r' hr', old r (Nat.lt_trans lt hr')]
      exact h.increasing r r' hr' lt
    · rw [new, old r lt]
      exact (h.regular.tables r lt).2
  · change w.shapes.get? (Class.tableId (Pool.get (Pool.alloc _ _).2 r)) = none
    rcases Pool.has_alloc.1 hr with hr | rfl
    · rw [old r hr]
      exact h.apart r hr
    · rw [new]
      exact h.regular.shapes.get?_nextId

end Numbered

/-- Every change keeps the numbers of classes apart from those of shapes. -/
theorem Change.numbered (c : Change w w') (h : w.Numbered) : w'.Numbered := by
  rcases c.publish_cases with classes | ⟨draft, rfl⟩
  · exact h.withShapes (c.regular h.regular) classes c.spares
  · exact h.publish draft

/-- A new world has one number in use, that of the root. -/
theorem numbered_initial (log : Logging) : ({ log } : World).Numbered where
  regular := regular_initial log
  increasing _ _ has := absurd has (Nat.not_lt_zero _)
  apart _ has := absurd has (Nat.not_lt_zero _)
  keys := List.pairwise_singleton _ root

/-! ## All numbers together -/

/-- The numbers of the method tables, in the order of the classes. -/
def tableIds (w : World) : List ShapeId := w.heap.classes.items.toList.map Class.tableId

/-- The numbers of the shapes but for the root. -/
def shapeIds (w : World) : List ShapeId := w.shapes.nodes.keys.filter (· ≠ root)

/-- All numbers of classes and shapes. -/
def ids (w : World) : List ShapeId := w.tableIds ++ w.shapeIds

theorem getElem_tableIds {i : Nat} (bound : i < w.tableIds.length) :
    w.heap.classes.has ⟨i⟩ ∧ (w.heap.classes.get ⟨i⟩).tableId = w.tableIds[i] := by
  unfold tableIds at bound ⊢
  rw [List.length_map, Array.length_toList] at bound
  refine ⟨bound, ?_⟩
  rw [List.getElem_map, Array.getElem_toList, Pool.get, Array.getD_eq_getD_getElem?, Array.getElem?_eq_getElem bound]
  rfl

theorem mem_tableIds {id : ShapeId} (h : id ∈ w.tableIds) :
    ∃ r, w.heap.classes.has r ∧ (w.heap.classes.get r).tableId = id := by
  obtain ⟨i, bound, rfl⟩ := List.mem_iff_getElem.1 h
  exact ⟨⟨i⟩, getElem_tableIds bound⟩

theorem mem_shapeIds (keys : w.shapes.nodes.keys.Nodup) {id : ShapeId} (h : id ∈ w.shapeIds) :
    id ≠ root ∧ ∃ node, w.shapes.get? id = some node := by
  obtain ⟨key, other⟩ := List.mem_filter.1 h
  obtain ⟨⟨id, node⟩, entry, rfl⟩ := List.mem_map.1 key
  obtain ⟨i, found⟩ := List.mem_iff_getElem?.1 entry
  exact ⟨of_decide_eq_true other, node, Assoc.find_of_getElem? keys found⟩

namespace Numbered

/-- Later classes have larger numbers. -/
theorem tableIds (h : w.Numbered) : w.tableIds.Pairwise (· < ·) := by
  refine List.pairwise_iff_getElem.2 fun i j hi hj lt => ?_
  rw [← (getElem_tableIds hi).2, ← (getElem_tableIds hj).2]
  exact h.increasing _ _ (getElem_tableIds hj).1 lt

/-- No two classes or shapes share a number. -/
theorem nodup_ids (h : w.Numbered) : w.ids.Nodup := by
  refine List.nodup_append.2 ⟨h.tableIds.imp Nat.ne_of_lt, h.keys.filter _, fun id table _ shape same => ?_⟩
  subst same
  obtain ⟨r, hr, rfl⟩ := mem_tableIds table
  obtain ⟨-, node, known⟩ := mem_shapeIds h.keys shape
  rw [h.apart r hr] at known
  cases known

/-- The numbers of classes and shapes have been drawn, so none is zero. -/
theorem drawn_ids (h : w.Numbered) {id : ShapeId} (mem : id ∈ w.ids) : 0 < id ∧ id < w.shapes.nextId := by
  rcases List.mem_append.1 mem with table | shape
  · obtain ⟨r, hr, rfl⟩ := mem_tableIds table
    exact h.regular.tables r hr
  · obtain ⟨other, node, known⟩ := mem_shapeIds h.keys shape
    exact ⟨Nat.pos_of_ne_zero other, h.regular.shapes.bounded id node known⟩

/-- While fewer than `2 ^ 32` numbers have been drawn, all numbers fit into words of 32 bits. -/
theorem nodup_words (h : w.Numbered) (few : w.shapes.nextId ≤ UInt32.size) :
    (w.ids.map UInt32.ofNat).Nodup ∧ 0 ∉ w.ids.map UInt32.ofNat := by
  have fits : ∀ id ∈ w.ids, (UInt32.ofNat id).toNat = id := fun id mem =>
    UInt32.toNat_ofNat_of_lt (Nat.lt_of_lt_of_le (h.drawn_ids mem).2 few)
  refine ⟨h.nodup_ids.map_on fun i hi j hj same => ?_, fun zero => ?_⟩
  · rw [← fits i hi, same, fits j hj]
  · obtain ⟨id, mem, cut⟩ := List.mem_map.1 zero
    have none : id = 0 := by rw [← fits id mem, cut, UInt32.toNat_zero]
    exact Nat.ne_of_gt (h.drawn_ids mem).1 none

end Numbered

end World

/-- Numbers are given out as `World.Numbered` says, whatever programs and hosts do. -/
theorem Session.law_numbered : Session.Law World.Numbered where
  change change h := change.numbered h
  cells _ h :=
    ⟨⟨h.regular.symbols, h.regular.shapes, h.regular.rows, h.regular.tables, h.regular.distinct⟩, h.increasing,
      h.apart, h.keys⟩
  cleared h :=
    ⟨⟨h.regular.symbols, h.regular.shapes, h.regular.rows, h.regular.tables, h.regular.distinct⟩, h.increasing,
      h.apart, h.keys⟩

theorem World.Numbered.withCaches {w : World} (h : w.Numbered) (caches : CacheRegistry) :
    World.Numbered { w with caches } :=
  ⟨⟨h.regular.symbols, h.regular.shapes, h.regular.rows, h.regular.tables, h.regular.distinct⟩, h.increasing,
    h.apart, h.keys⟩

end ScriptVm
