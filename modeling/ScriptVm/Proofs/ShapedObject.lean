import ScriptVm.Proofs.ShapeTrie
import ScriptVm.ShapedObject

/-!
# Shaped objects as insertion-ordered maps

The row of a shaped object, read as a list of entries, is an association list: a look-up finds
the entry of its symbol, and setting a property is `Assoc.put`. Both hold whether the property
stands where the shape says, behind a sealed shape, or is new.

`Fits` is the invariant that ties a row to its shape. It survives every change of the registry,
so objects that share shapes do not disturb each other.
-/

set_option autoImplicit false

namespace ScriptVm

namespace Assoc

variable {κ ν : Type} [DecidableEq κ]

theorem find_eq_find? (k : κ) (es : List (κ × ν)) :
    find k es = (es.find? fun e => e.1 = k).map Prod.snd := by
  induction es with
  | nil => rfl
  | cons e rest ih => by_cases h : e.1 = k <;> simp [find, h, ih]

/-- Among distinct keys, any entry of a key is the one that a look-up finds. -/
theorem find_of_getElem? {k : κ} {v : ν} {es : List (κ × ν)} (hd : (es.map Prod.fst).Nodup) {i : Nat}
    (h : es[i]? = some (k, v)) : find k es = some v := by
  induction es generalizing i with
  | nil => cases h
  | cons e rest ih =>
    obtain ⟨a, w⟩ := e
    rw [List.map_cons, List.nodup_cons] at hd
    cases i with
    | zero =>
      cases h
      simp [find]
    | succ i =>
      have hk : k ∈ rest.map Prod.fst := List.mem_map.2 ⟨(k, v), List.mem_of_getElem? h, rfl⟩
      have hne : a ≠ k := fun e => hd.1 (e ▸ hk)
      simp [find, hne, ih hd.2 h]

/-- Among distinct keys, putting a value is replacing the entry of the key. -/
theorem put_of_getElem? {k : κ} {v w : ν} {es : List (κ × ν)} (hd : (es.map Prod.fst).Nodup) {i : Nat}
    (h : es[i]? = some (k, w)) : put k v es = es.set i (k, v) := by
  induction es generalizing i with
  | nil => cases h
  | cons e rest ih =>
    obtain ⟨a, w'⟩ := e
    rw [List.map_cons, List.nodup_cons] at hd
    cases i with
    | zero =>
      cases h
      simp [put]
    | succ i =>
      have hk : k ∈ rest.map Prod.fst := List.mem_map.2 ⟨(k, w), List.mem_of_getElem? h, rfl⟩
      have hne : a ≠ k := fun e => hd.1 (e ▸ hk)
      simp [put, hne, ih hd.2 h]

theorem put_of_not_mem {k : κ} {v : ν} {es : List (κ × ν)} (h : k ∉ es.map Prod.fst) :
    put k v es = es ++ [(k, v)] := by
  induction es with
  | nil => rfl
  | cons e rest ih =>
    rw [List.map_cons, List.mem_cons, not_or] at h
    simp [put, Ne.symm h.1, ih h.2]

/-- Putting a value adds its key at the end, if it is new. -/
theorem map_fst_put (k : κ) (v : ν) (es : List (κ × ν)) :
    (put k v es).map Prod.fst =
      es.map Prod.fst ++ if k ∈ es.map Prod.fst then [] else [k] := by
  induction es with
  | nil => rfl
  | cons e rest ih =>
    by_cases h : e.1 = k
    · simp [put, h]
    · have h' : ¬ k = e.1 := fun e' => h e'.symm
      simp only [put, h, ↓reduceIte, List.map_cons, ih, List.cons_append, List.mem_cons, h', false_or]

theorem nodup_put {k : κ} {v : ν} {es : List (κ × ν)} (hd : (es.map Prod.fst).Nodup) :
    ((put k v es).map Prod.fst).Nodup := by
  rw [map_fst_put]
  split
  · simpa using hd
  · rename_i h
    rw [List.nodup_append]
    refine ⟨hd, by simp, fun a ha b hb => ?_⟩
    rw [List.mem_singleton] at hb
    exact fun e => h (hb ▸ e ▸ ha)

end Assoc

namespace ShapedObject

open ShapeRegistry

variable {r r' : ShapeRegistry} {o o' : ShapedObject} {s : Symbol} {v w : Value} {k : Nat}

/-- The row of an object as a list. -/
def entries (o : ShapedObject) : List (Symbol × Value) := o.fields.toList

/-- The row of an object starts as its shape says and has every symbol once. -/
structure Fits (r : ShapeRegistry) (o : ShapedObject) : Prop where
  known : (r.get? o.shape).isSome
  room : r.total o.shape ≤ o.fields.size
  layout : ∀ e ∈ r.properties o.shape, ∃ v, o.entries[e.2]? = some (e.1, v)
  distinct : (o.entries.map Prod.fst).Nodup

theorem fits_empty (t : r.Trie) : Fits r {} := by
  obtain ⟨n, hn, -⟩ := t.root
  refine ⟨by simp only [hn]; rfl, ?_, ?_, List.nodup_nil⟩
  · rw [total_eq_length, t.properties_root]
    exact Nat.le_refl _
  · rw [t.properties_root]
    intro e he
    cases he

/-- An object fits its shape whatever happens to the registry. -/
theorem Fits.grow (h : Fits r o) (t : r.Trie) (g : Grows r r') : Fits r' o := by
  refine ⟨g.isSome_get? h.known, ?_, ?_, h.distinct⟩
  · rw [g.total_eq t h.known]
    exact h.room
  · rw [g.properties_eq t h.known]
    exact h.layout

/-! ## Reading -/

theorem fieldAt_eq_some_iff : o.fieldAt k s = some v ↔ o.entries[k]? = some (s, v) := by
  unfold fieldAt entries
  rw [Array.getElem?_toList]
  cases o.fields[k]? with
  | none => simp
  | some e =>
    obtain ⟨t, w⟩ := e
    by_cases h : t = s <;> simp [h]

theorem search_eq (o : ShapedObject) (s : Symbol) : o.search s = Assoc.find s o.entries := by
  rw [Assoc.find_eq_find?, search, entries, Array.find?_toList]

/-- Every offset that leads to a property leads to the one that a search finds. -/
theorem Fits.fieldAt_eq (h : Fits r o) (hk : o.fieldAt k s = some v) :
    Assoc.find s o.entries = some v :=
  Assoc.find_of_getElem? h.distinct (fieldAt_eq_some_iff.1 hk)

/-- A look-up is a search in the row. -/
theorem Fits.get_eq (h : Fits r o) (s : Symbol) : o.get r s = Assoc.find s o.entries := by
  unfold get
  split
  · rename_i hv
    obtain ⟨k, -, hk⟩ := Option.bind_eq_some_iff.1 hv
    exact (h.fieldAt_eq hk).symm
  · exact search_eq o s

/-- What the shape places is there. -/
theorem Fits.fieldAt_offset? (h : Fits r o) (hk : r.offset? o.shape s = some k) :
    ∃ v, o.fieldAt k s = some v := by
  obtain ⟨v, hv⟩ := h.layout _ (mem_properties_of_offset? hk)
  exact ⟨v, fieldAt_eq_some_iff.2 hv⟩

/-! ## Writing -/

theorem setFieldAt?_eq_some_iff :
    o.setFieldAt? k s v = some o' ↔
      (∃ w, o.entries[k]? = some (s, w)) ∧ o' = { o with fields := o.fields.setIfInBounds k (s, v) } := by
  unfold setFieldAt? entries
  rw [Array.getElem?_toList]
  cases o.fields[k]? with
  | none => simp
  | some e =>
    obtain ⟨t, w⟩ := e
    by_cases h : t = s
    · subst h
      simp [eq_comm]
    · simp [h]

/-- Replacing the value of a property in its place. -/
theorem Fits.entries_replace (h : Fits r o) (hk : o.entries[k]? = some (s, w)) (v : Value) :
    ({ o with fields := o.fields.setIfInBounds k (s, v) } : ShapedObject).entries =
      Assoc.put s v o.entries := by
  rw [Assoc.put_of_getElem? h.distinct hk, entries, Array.toList_setIfInBounds]
  rfl

theorem Fits.replace (h : Fits r o) (hk : o.entries[k]? = some (s, w)) (v : Value) :
    Fits r { o with fields := o.fields.setIfInBounds k (s, v) } := by
  refine ⟨h.known, ?_, fun e he => ?_, ?_⟩
  · rw [Array.size_setIfInBounds]
    exact h.room
  · obtain ⟨u, hu⟩ := h.layout e he
    simp only [entries, Array.toList_setIfInBounds] at hu hk ⊢
    by_cases hi : k = e.2
    · subst hi
      rw [hk] at hu
      cases hu
      exact ⟨v, List.getElem?_set_self (List.getElem?_eq_some_iff.1 hk).1⟩
    · exact ⟨u, by rw [List.getElem?_set_ne hi, hu]⟩
  · rw [h.entries_replace hk]
    exact Assoc.nodup_put h.distinct

theorem Fits.setFieldAt? (h : Fits r o) (hs : o.setFieldAt? k s v = some o') :
    Fits r o' ∧ o'.entries = Assoc.put s v o.entries := by
  obtain ⟨⟨w, hw⟩, rfl⟩ := setFieldAt?_eq_some_iff.1 hs
  exact ⟨h.replace hw v, h.entries_replace hw v⟩

theorem placeAt_size (fields : Array (Symbol × Value)) (s : Symbol) (v : Value) :
    placeAt fields fields.size s v = fields.push (s, v) := by
  unfold placeAt
  rw [show fields.size + 1 - fields.size = 1 by omega]
  apply Array.ext'
  simp

/-- A property behind the row, under a shape that places at most it beside the properties of the
old shape. -/
theorem Fits.push {shape : ShapeId} (h : Fits r o) (hs : s ∉ o.entries.map Prod.fst) (v : Value)
    (known : (r'.get? shape).isSome)
    (placed : r'.properties shape = r.properties o.shape ∨
      r.total o.shape = o.fields.size ∧ r'.properties shape = (s, r.total o.shape) :: r.properties o.shape) :
    Fits r' { shape, fields := o.fields.push (s, v) } := by
  have hsize := h.room
  rw [total_eq_length] at hsize placed
  have old : ∀ e ∈ r.properties o.shape, ∃ u, (o.fields.push (s, v)).toList[e.2]? = some (e.1, u) := by
    intro e he
    obtain ⟨u, hu⟩ := h.layout e he
    rw [entries] at hu
    exact ⟨u, by rw [Array.toList_push, List.getElem?_append_left (List.getElem?_eq_some_iff.1 hu).1, hu]⟩
  refine ⟨known, ?_, ?_, ?_⟩
  · rw [total_eq_length, Array.size_push]
    rcases placed with hp | ⟨hfull, hp⟩
    · rw [hp]
      exact Nat.le_succ_of_le hsize
    · rw [hp, List.length_cons]
      exact Nat.succ_le_succ hsize
  · rcases placed with hp | ⟨hfull, hp⟩
    · rw [hp]
      exact old
    · rw [hp]
      intro e he
      rcases List.mem_cons.1 he with rfl | he
      · refine ⟨v, ?_⟩
        simp only [entries, Array.toList_push, hfull]
        simp
      · exact old e he
  · have he : ({ shape, fields := o.fields.push (s, v) } : ShapedObject).entries =
        Assoc.put s v o.entries := by
      rw [Assoc.put_of_not_mem hs, entries, entries, Array.toList_push]
    rw [he]
    exact Assoc.nodup_put h.distinct

theorem Fits.append (h : Fits r o) (t : r.Trie) (hs : s ∉ o.entries.map Prod.fst) (v : Value) :
    (o.append r s v).registry.Trie ∧ Grows r (o.append r s v).registry ∧
      Fits (o.append r s v).registry (o.append r s v).object ∧
      (o.append r s v).object.entries = Assoc.put s v o.entries := by
  have behind : ∀ shape, ({ shape, fields := o.fields.push (s, v) } : ShapedObject).entries =
      Assoc.put s v o.entries := by
    intro shape
    rw [Assoc.put_of_not_mem hs, entries, entries, Array.toList_push]
  unfold ShapedObject.append
  split
  · exact ⟨t, Grows.refl r, h.push hs v h.known (.inl rfl), behind _⟩
  · rename_i hfull
    have g := t.grows_addProperty o.shape s
    have hsize : r.total o.shape = o.fields.size := Nat.le_antisymm h.room (Nat.le_of_not_lt hfull)
    simp only
    split
    · exact ⟨t.addProperty _ s, g,
        h.push hs v (g.isSome_get? h.known) (.inl (g.properties_eq t h.known)), behind _⟩
    · rename_i hne
      obtain ⟨hoff, hk, hp⟩ := (t.placement h.known s).resolve_left hne
      simp only [hoff, hsize, placeAt_size]
      exact ⟨t.addProperty _ s, g, h.push hs v hk (.inr ⟨hsize, hp⟩), behind _⟩

theorem entries_of_findIdx? {i : Nat} (hi : (o.fields.findIdx? fun f => f.1 = s) = some i) :
    ∃ w, o.entries[i]? = some (s, w) := by
  obtain ⟨hlt, hs, -⟩ := Array.findIdx?_eq_some_iff_getElem.1 hi
  refine ⟨o.fields[i].2, ?_⟩
  rw [entries, Array.getElem?_toList, Array.getElem?_eq_getElem hlt, ← of_decide_eq_true hs]

theorem not_mem_of_findIdx? (hi : (o.fields.findIdx? fun f => f.1 = s) = none) :
    s ∉ o.entries.map Prod.fst := by
  intro hm
  obtain ⟨e, he, rfl⟩ := List.mem_map.1 hm
  have := Array.findIdx?_eq_none_iff.1 hi e (Array.mem_toList_iff.1 he)
  simp at this

/-- Setting a property is putting it into the row, and leaves everything in order. -/
theorem Fits.set (h : Fits r o) (t : r.Trie) (s : Symbol) (v : Value) :
    (o.set r s v).registry.Trie ∧ Grows r (o.set r s v).registry ∧
      Fits (o.set r s v).registry (o.set r s v).object ∧
      (o.set r s v).object.entries = Assoc.put s v o.entries := by
  unfold ShapedObject.set
  split
  · rename_i o' ho'
    obtain ⟨k, -, hk⟩ := Option.bind_eq_some_iff.1 ho'
    obtain ⟨hf, he⟩ := h.setFieldAt? hk
    exact ⟨t, Grows.refl r, hf, he⟩
  · split
    · rename_i i hi
      obtain ⟨w, hk⟩ := entries_of_findIdx? hi
      exact ⟨t, Grows.refl r, h.replace hk v, h.entries_replace hk v⟩
    · rename_i hi
      exact h.append t (not_mem_of_findIdx? hi) v

/-- A write at any offset of the property is the same as setting it. -/
theorem Fits.set_of_setFieldAt? (h : Fits r o) (written : o.setFieldAt? k s v = some o') :
    o.set r s v = { object := o', registry := r } := by
  obtain ⟨⟨w, hk⟩, rfl⟩ := setFieldAt?_eq_some_iff.1 written
  -- Whichever offset is written, the row becomes the same.
  have same : ∀ j u, o.entries[j]? = some (s, u) →
      o.fields.setIfInBounds j (s, v) = o.fields.setIfInBounds k (s, v) := by
    intro j u hj
    exact Array.ext' ((h.entries_replace hj v).trans (h.entries_replace hk v).symm)
  unfold ShapedObject.set
  split
  · rename_i o'' found
    obtain ⟨j, -, hj⟩ := Option.bind_eq_some_iff.1 found
    obtain ⟨⟨u, hu⟩, rfl⟩ := setFieldAt?_eq_some_iff.1 hj
    rw [same j u hu]
  · split
    · rename_i i hi
      obtain ⟨u, hu⟩ := entries_of_findIdx? hi
      rw [same i u hu]
    · rename_i hi
      exact absurd (List.mem_map.2 ⟨_, List.mem_of_getElem? hk, rfl⟩) (not_mem_of_findIdx? hi)

/-- Setting one property changes no other. -/
theorem Fits.get_set (h : Fits r o) (t : r.Trie) (s : Symbol) (v : Value) (s' : Symbol) :
    (o.set r s v).object.get (o.set r s v).registry s' = if s = s' then some v else o.get r s' := by
  obtain ⟨-, -, hf, he⟩ := h.set t s v
  rw [hf.get_eq, he, Assoc.find_put, h.get_eq]

end ShapedObject

end ScriptVm
