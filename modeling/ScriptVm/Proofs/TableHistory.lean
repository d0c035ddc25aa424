import ScriptVm.Proofs.CacheTransparency
import ScriptVm.Proofs.Operands
import ScriptVm.Proofs.Transcripts

/-!
# Tables as insertion-ordered maps

A table keeps its entries in a row and, beside it, an index from keys to positions. `Indexed` says
that the two belong together: the index leads from a key to a position exactly when the entry there
has that key. Then the row alone says everything, and each operation is the plain one on the list of
entries: setting replaces in place or appends, removing closes the gap.

Removing is where the index can go wrong, since it renumbers the positions of all later keys;
`Indexed.remove` is the lemma about it.

Programs and hosts make tables from lists of entries and change them by setting and removing keys, and
in no other way, so all this holds of every table that a session ever has. The entries that a literal makes
a table from are the pairs on the stack: `Exec.run_literal`.
-/

set_option autoImplicit false

namespace ScriptVm

/-- Looking up in a list whose values have been mapped. -/
theorem Assoc.find_map_snd {κ ν : Type} [DecidableEq κ] (f : ν → ν) (k : κ) (es : List (κ × ν)) :
    Assoc.find k (es.map fun e => (e.1, f e.2)) = (Assoc.find k es).map f := by
  induction es with
  | nil => rfl
  | cons e rest ih => by_cases h : e.1 = k <;> simp [Assoc.find, h, ih]

/-- Values may be changed before or after a look-up. -/
theorem Assoc.get?_mapValues {κ ν : Type} [DecidableEq κ] (m : Assoc κ ν) (f : ν → ν) (k : κ) :
    (m.mapValues f).get? k = (m.get? k).map f := Assoc.find_map_snd f k m.entries

/-- Different values make different keys. -/
theorem Key.ofValue?_inj {v w : Value} {k : Key} (hv : Key.ofValue? v = some k)
    (hw : Key.ofValue? w = some k) : v = w := by
  have back : ∀ {u : Value}, Key.ofValue? u = some k → u = k.toValue := by
    intro u hu
    cases u <;> cases hu <;> rfl
  rw [back hv, back hw]

/-! ## The list of entries -/

namespace Listing

/-- The entries with a value set: in place if the key is there, and else at the end. -/
def set (k : Key) (v : Value) (l : List (Key × Value)) : List (Key × Value) :=
  if k ∈ l.map Prod.fst then l.map fun e => if e.1 = k then (k, v) else e else l ++ [(k, v)]

/-- The entries without those of a key. -/
def remove (k : Key) (l : List (Key × Value)) : List (Key × Value) := l.filter fun e => e.1 ≠ k

/-- The value of a key. -/
def get? (k : Key) (l : List (Key × Value)) : Option Value :=
  (l.find? fun e => e.1 = k).map Prod.snd

end Listing

namespace Table

/-- The index leads from a key to a position exactly when the entry there has this key. -/
def Indexed (t : Table) : Prop :=
  ∀ k i, t.index.get? k = some i ↔ ∃ v, t.entries[i]? = some (k, v)

namespace Indexed

variable {t : Table} {k : Key} {v : Value} {i : Nat}

/-- The index leads to entries with the key. -/
theorem entry (h : t.Indexed) (hk : t.index.get? k = some i) :
    i < t.entries.size ∧ ∃ v, t.entries[i]? = some (k, v) := by
  obtain ⟨v, hv⟩ := (h k i).1 hk
  exact ⟨(Array.getElem?_eq_some_iff.1 hv).1, v, hv⟩

/-- A key stands at one position only. -/
theorem position_unique (h : t.Indexed) {w : Value} {j : Nat} (hi : t.entries[i]? = some (k, v))
    (hj : t.entries[j]? = some (k, w)) : i = j := by
  have at_i := (h k i).2 ⟨v, hi⟩
  rw [(h k j).2 ⟨w, hj⟩] at at_i
  exact (Option.some.inj at_i).symm

/-- No key is in the row twice. -/
theorem nodup (h : t.Indexed) : (t.entries.toList.map Prod.fst).Nodup := by
  refine List.pairwise_iff_getElem.2 fun i j hi hj less same => ?_
  simp only [List.length_map, Array.length_toList] at hi hj
  simp only [List.getElem_map, Array.getElem_toList] at same
  have at_i : t.entries[i]? = some (t.entries[i].1, t.entries[i].2) := Array.getElem?_eq_getElem hi
  have at_j : t.entries[j]? = some (t.entries[i].1, t.entries[j].2) := by
    rw [same]
    exact Array.getElem?_eq_getElem hj
  exact Nat.ne_of_lt less (h.position_unique at_i at_j)

/-- The keys in the row are those in the index. -/
theorem mem_keys (h : t.Indexed) : k ∈ t.entries.toList.map Prod.fst ↔ (t.index.get? k).isSome := by
  constructor
  · intro mem
    obtain ⟨⟨k', v⟩, hm, rfl⟩ := List.mem_map.1 mem
    obtain ⟨i, hi⟩ := List.mem_iff_getElem?.1 hm
    rw [Array.getElem?_toList] at hi
    rw [(h k' i).2 ⟨v, hi⟩]
    rfl
  · intro known
    obtain ⟨i, hi⟩ := Option.isSome_iff_exists.1 known
    obtain ⟨-, v, hv⟩ := h.entry hi
    rw [← Array.getElem?_toList] at hv
    exact List.mem_map.2 ⟨(k, v), List.mem_of_getElem? hv, rfl⟩

/-! ## Looking up -/

/-- A table says that it has the keys in its row. -/
theorem contains_eq (h : t.Indexed) (k : Key) :
    t.contains k = decide (k ∈ t.entries.toList.map Prod.fst) := by
  rw [Bool.eq_iff_iff, decide_eq_true_iff, h.mem_keys]
  rfl

/-- A table gives the value that the row has for the key. -/
theorem get?_eq (h : t.Indexed) (k : Key) : t.get? k = Listing.get? k t.entries.toList := by
  rw [Listing.get?, ← Assoc.find_eq_find?]
  unfold get?
  cases hk : t.index.get? k with
  | some i =>
    obtain ⟨-, v, hv⟩ := h.entry hk
    rw [Assoc.find_of_getElem? h.nodup (Array.getElem?_toList.trans hv)]
    simp only [hv, Option.map_some]
  | none =>
    have absent : k ∉ t.entries.toList.map Prod.fst := fun mem => by
      have known := h.mem_keys.1 mem
      rw [hk] at known
      cases known
    rw [Assoc.find_eq_find?, List.find?_eq_none.2]
    · rfl
    · intro e he same
      exact absent (List.mem_map.2 ⟨e, he, of_decide_eq_true same⟩)

/-! ## Setting -/

/-- Replacing the value at the position of a key. -/
theorem entries_modify (h : t.Indexed) (hk : t.index.get? k = some i) (v : Value) :
    (t.entries.modify i fun e => (e.1, v)).toList = Listing.set k v t.entries.toList := by
  obtain ⟨-, w, hw⟩ := h.entry hk
  have present : k ∈ t.entries.toList.map Prod.fst := h.mem_keys.2 (by rw [hk]; rfl)
  rw [Listing.set, if_pos present]
  apply List.ext_getElem?
  intro j
  rw [Array.getElem?_toList, Array.getElem?_modify, List.getElem?_map, Array.getElem?_toList]
  cases hj : t.entries[j]? with
  | none => simp
  | some e =>
    obtain ⟨k', u⟩ := e
    by_cases same : k' = k
    · subst same
      rw [if_pos (h.position_unique hw hj)]
      simp
    · have ne : ¬i = j := by
        rintro rfl
        rw [hw] at hj
        cases hj
        exact same rfl
      simp [ne, same]

/-- Setting a key replaces its entry in place or appends one. -/
theorem entries_set (h : t.Indexed) (k : Key) (v : Value) :
    (t.set k v).entries.toList = Listing.set k v t.entries.toList := by
  unfold set
  cases hk : t.index.get? k with
  | some i => exact h.entries_modify hk v
  | none =>
    have absent : k ∉ t.entries.toList.map Prod.fst := fun mem => by
      have known := h.mem_keys.1 mem
      rw [hk] at known
      cases known
    rw [Listing.set, if_neg absent]
    exact Array.toList_push

/-- The index is right again after setting a key. -/
theorem set (h : t.Indexed) (k : Key) (v : Value) : (t.set k v).Indexed := by
  intro k' j
  unfold Table.set
  cases hk : t.index.get? k with
  | some i =>
    -- The keys stay where they are.
    simp only [Array.getElem?_modify]
    rw [h k' j]
    split
    next same =>
      subst same
      cases t.entries[i]? with
      | none => simp
      | some e => simp [Prod.ext_iff]
    next => exact Iff.rfl
  | none =>
    simp only [Assoc.get?_insert, Array.getElem?_push]
    by_cases new : k = k'
    · subst new
      rw [if_pos rfl]
      constructor
      · intro same
        cases same
        exact ⟨v, if_pos rfl⟩
      · rintro ⟨w, hw⟩
        split at hw
        next last => rw [last]
        next =>
          rw [(h k j).2 ⟨w, hw⟩] at hk
          cases hk
    · rw [if_neg new, h k' j]
      split
      next last =>
        subst last
        rw [Array.getElem?_eq_none (Nat.le_refl _)]
        simp [new]
      next => exact Iff.rfl

/-! ## Removing -/

theorem entries_eraseIdx (h : t.Indexed) (hk : t.index.get? k = some i) :
    (t.entries.eraseIdxIfInBounds i).toList = Listing.remove k t.entries.toList := by
  obtain ⟨bound, v, hv⟩ := h.entry hk
  rw [Array.eraseIdxIfInBounds, dif_pos bound, Array.toList_eraseIdx, Listing.remove]
  have bound' : i < t.entries.toList.length := by
    rw [Array.length_toList]
    exact bound
  have here : t.entries.toList[i] = (k, v) := by
    rw [Array.getElem?_eq_getElem bound] at hv
    rw [Array.getElem_toList]
    exact Option.some.inj hv
  have others : ∀ e ∈ t.entries.toList.take i ++ t.entries.toList.drop (i + 1), e.1 ≠ k := by
    intro e he same
    obtain ⟨j, ne, hj⟩ : ∃ j, j ≠ i ∧ t.entries.toList[j]? = some e := by
      rcases List.mem_append.1 he with he | he
      · obtain ⟨j, hj⟩ := List.mem_iff_getElem?.1 he
        rw [List.getElem?_take] at hj
        split at hj
        next less => exact ⟨j, Nat.ne_of_lt less, hj⟩
        next => cases hj
      · obtain ⟨j, hj⟩ := List.mem_iff_getElem?.1 he
        rw [List.getElem?_drop] at hj
        exact ⟨i + 1 + j, by omega, hj⟩
    obtain ⟨k', w⟩ := e
    cases same
    exact ne (h.position_unique (Array.getElem?_toList ▸ hj) hv)
  have parts : t.entries.toList =
      t.entries.toList.take i ++ (k, v) :: t.entries.toList.drop (i + 1) := by
    rw [← here, ← List.drop_eq_getElem_cons bound', List.take_append_drop]
  calc t.entries.toList.eraseIdx i
      = t.entries.toList.take i ++ t.entries.toList.drop (i + 1) := List.eraseIdx_eq_take_drop_succ _ _
    _ = (t.entries.toList.take i ++ t.entries.toList.drop (i + 1)).filter fun e => e.1 ≠ k :=
      (List.filter_eq_self.2 fun e he => decide_eq_true (others e he)).symm
    _ = (t.entries.toList.take i ++ (k, v) :: t.entries.toList.drop (i + 1)).filter fun e => e.1 ≠ k := by
      rw [List.filter_append, List.filter_append, List.filter_cons_of_neg (by simp)]
    _ = t.entries.toList.filter fun e => e.1 ≠ k := by rw [← parts]

/-- Removing renumbers exactly the positions behind the gap. -/
theorem remove (h : t.Indexed) (k : Key) : (t.remove k).2.Indexed := by
  unfold Table.remove
  cases hk : t.index.get? k with
  | none => exact h
  | some i =>
    obtain ⟨bound, v, hv⟩ := h.entry hk
    intro k' j
    simp only [Assoc.get?_mapValues, Assoc.get?_erase, Array.eraseIdxIfInBounds, dif_pos bound,
      Array.getElem?_eraseIdx]
    by_cases gone : k = k'
    · subst gone
      rw [if_pos rfl]
      constructor
      · intro none
        cases none
      · rintro ⟨w, hw⟩
        split at hw
        next less => exact absurd (h.position_unique hw hv) (Nat.ne_of_lt less)
        next => exact absurd (h.position_unique hw hv) (by omega)
    · rw [if_neg gone, Option.map_eq_some_iff]
      constructor
      · rintro ⟨p, hp, rfl⟩
        obtain ⟨-, w, hw⟩ := h.entry hp
        have ne : p ≠ i := by
          rintro rfl
          rw [hv] at hw
          cases hw
          exact gone rfl
        refine ⟨w, ?_⟩
        by_cases behind : i < p
        · rw [if_pos behind, if_neg (by omega), show p - 1 + 1 = p by omega]
          exact hw
        · rw [if_neg behind, if_pos (by omega)]
          exact hw
      · rintro ⟨w, hw⟩
        split at hw
        next less => exact ⟨j, (h k' j).2 ⟨w, hw⟩, if_neg (by omega)⟩
        next => exact ⟨j + 1, (h k' (j + 1)).2 ⟨w, hw⟩, if_pos (by omega)⟩

/-- Removing a key closes the gap. -/
theorem entries_remove (h : t.Indexed) (k : Key) :
    (t.remove k).2.entries.toList = Listing.remove k t.entries.toList := by
  unfold Table.remove
  cases hk : t.index.get? k with
  | some i => exact h.entries_eraseIdx hk
  | none =>
    rw [Listing.remove, List.filter_eq_self.2]
    intro e he
    refine decide_eq_true fun same => ?_
    have known := h.mem_keys.1 (List.mem_map.2 ⟨e, he, same⟩)
    rw [hk] at known
    cases known

/-- Removing tells whether the key was there. -/
theorem remove_fst (h : t.Indexed) (k : Key) :
    (t.remove k).1 = decide (k ∈ t.entries.toList.map Prod.fst) := by
  rw [Bool.eq_iff_iff, decide_eq_true_iff, h.mem_keys]
  unfold Table.remove
  cases t.index.get? k <;> simp

end Indexed

/-- A new table has no entries and no index. -/
theorem indexed_empty : ({} : Table).Indexed := by
  intro k i
  constructor
  · intro h
    cases h
  · rintro ⟨v, h⟩
    cases h

/-! ## Any number of steps -/

/-- A change of a table. -/
inductive Step where
  | set (k : Key) (v : Value)
  | remove (k : Key)

/-- Setting or removing, on a table. -/
def step (t : Table) : Step → Table
  | .set k v => t.set k v
  | .remove k => (t.remove k).2

/-- A table that was made with the given entries and then changed step by step. -/
def run (es : List (Key × Value)) (steps : List Step) : Table := steps.foldl step (ofList es)

end Table

namespace Listing

def step (l : List (Key × Value)) : Table.Step → List (Key × Value)
  | .set k v => set k v l
  | .remove k => remove k l

/-- What the steps make of the plain list of entries. -/
def run (es : List (Key × Value)) (steps : List Table.Step) : List (Key × Value) :=
  steps.foldl step (es.foldl (fun l e => set e.1 e.2 l) [])

end Listing

namespace Table

/-- A table shows a list of entries. -/
structure Shows (t : Table) (l : List (Key × Value)) : Prop where
  indexed : t.Indexed
  entries : t.entries.toList = l

variable {t : Table} {l : List (Key × Value)}

theorem Shows.step (h : t.Shows l) (c : Step) : (t.step c).Shows (Listing.step l c) := by
  obtain ⟨indexed, rfl⟩ := h
  cases c with
  | set k v => exact ⟨indexed.set k v, indexed.entries_set k v⟩
  | remove k => exact ⟨indexed.remove k, indexed.entries_remove k⟩

/-- Whatever is done to both, they stay alike. -/
theorem Shows.steps (h : t.Shows l) (steps : List Step) :
    (steps.foldl Table.step t).Shows (steps.foldl Listing.step l) := by
  induction steps generalizing t l with
  | nil => exact h
  | cons c rest ih => exact ih (h.step c)

/-- A table made from entries shows what setting them one after the other gives. -/
theorem shows_ofList (es : List (Key × Value)) :
    (ofList es).Shows (es.foldl (fun l e => Listing.set e.1 e.2 l) []) := by
  have filled : ∀ {t : Table} {l : List (Key × Value)}, t.Shows l →
      (es.foldl (fun t e => t.set e.1 e.2) t).Shows (es.foldl (fun l e => Listing.set e.1 e.2 l) l) := by
    induction es with
    | nil => exact fun h => h
    | cons e rest ih => exact fun h => ih (h.step (.set e.1 e.2))
  exact filled ⟨indexed_empty, rfl⟩

/-- A table shows what the plain list of entries has come to. -/
theorem shows_run (es : List (Key × Value)) (steps : List Step) :
    (run es steps).Shows (Listing.run es steps) := (shows_ofList es).steps steps

/-! ## The tables of a session -/

/-- A table that was made from entries and changed by steps. -/
def Made (t : Table) : Prop := ∃ es steps, t = run es steps

/-- A table that has been set or removed from was made by steps. -/
theorem Made.step (h : t.Made) (c : Step) : (t.step c).Made := by
  obtain ⟨es, steps, rfl⟩ := h
  refine ⟨es, steps ++ [c], ?_⟩
  unfold run
  rw [List.foldl_append]
  rfl

end Table

/-- Every table was made from entries and changed by steps. -/
def World.TablesMade (w : World) : Prop := ∀ r, (w.heap.tables.get r).Made

/-- Every change of the world makes its tables by steps. -/
theorem World.TablesMade.change {w w' : World} (c : Change w w') (h : w.TablesMade) : w'.TablesMade := by
  cases c with
  | newTable es => exact Pool.forall_alloc h ⟨es, [], rfl⟩
  | setEntry r k v => exact Pool.forall_set h ((h r).step (.set k v))
  | removeEntry r k => exact Pool.forall_set h ((h r).step (.remove k))
  | newObject cls =>
    rw [newObject_eq]
    exact h
  | setField r s v =>
    rw [setField_eq]
    exact h
  | setFieldAt r offset s v _ done =>
    obtain ⟨fields, -, rfl⟩ := (setFieldAt?_eq_some_iff ..).1 done
    exact h
  | _ => exact h

/-- So it is in every session that a host can get to. -/
theorem Session.Reachable.tablesMade {s : Session} (reachable : s.Reachable) : s.machine.world.TablesMade := by
  have law : Session.Law World.TablesMade := ⟨World.TablesMade.change, fun _ h => h, fun h => h⟩
  exact law.reachable (fun _ h => h) (fun _ _ => ⟨[], [], rfl⟩) reachable

/-! ## Literals -/

namespace Listing

variable {l : List (Key × Value)}

/-- Setting a key adds it behind the others, if it is new. -/
theorem keys_set (k : Key) (v : Value) (l : List (Key × Value)) :
    (set k v l).map Prod.fst = l.map Prod.fst ++ if k ∈ l.map Prod.fst then [] else [k] := by
  unfold set
  split
  · rw [List.map_map, List.append_nil]
    refine List.map_congr_left fun e _ => ?_
    rw [Function.comp_apply]
    split
    next same => exact same.symm
    next => rfl
  · exact List.map_append

theorem get?_set (k k' : Key) (v : Value) (l : List (Key × Value)) :
    get? k' (set k v l) = if k = k' then some v else get? k' l := by
  unfold set get?
  split
  next present =>
    -- Replacing a value leaves the keys alone, so the search stops at the same entry.
    have keys : ((fun e : Key × Value => decide (e.1 = k')) ∘ fun e => if e.1 = k then (k, v) else e) =
        fun e => decide (e.1 = k') := by
      funext e
      by_cases here : e.1 = k <;> simp [here]
    rw [List.find?_map, keys]
    cases found : l.find? fun e => e.1 = k' with
    | none =>
      obtain ⟨e, he, rfl⟩ := List.mem_map.1 present
      have other : e.1 ≠ k' := fun same => List.find?_eq_none.1 found e he (decide_eq_true same)
      rw [if_neg other]
      rfl
    | some e =>
      have here : e.1 = k' := by simpa using List.find?_some found
      by_cases same : k = k'
      · simp [here, same]
      · simp [here, same, Ne.symm same]
  next absent =>
    rw [List.find?_append]
    by_cases same : k = k'
    · subst same
      have nowhere : (l.find? fun e => e.1 = k) = none :=
        List.find?_eq_none.2 fun e he here => absent (List.mem_map.2 ⟨e, he, of_decide_eq_true here⟩)
      simp [nowhere]
    · simp [same]

/-- A list of entries set one after the other has every key once, in the order in which the keys came first,
with the value that came last. -/
theorem entered (es : List (Key × Value)) :
    (run es []).map Prod.fst = (es.map Prod.fst).eraseDups ∧ ∀ k, get? k (run es []) = get? k es.reverse := by
  induction es using List.reverseRecOn with
  | nil => exact ⟨rfl, fun _ => rfl⟩
  | append_singleton front e ih =>
    obtain ⟨keys, values⟩ := ih
    have last : run (front ++ [e]) [] = set e.1 e.2 (run front []) := List.foldl_append
    rw [last]
    refine ⟨?_, fun k => ?_⟩
    · rw [keys_set, keys, List.map_append, List.map_singleton, eraseDups_concat]
      simp only [List.mem_eraseDups]
    · rw [get?_set, values, List.reverse_append]
      unfold get?
      by_cases same : e.1 = k <;> simp [same]

end Listing

namespace Exec

/-- Keys and values as they stand on the stack. -/
def alternating (ps : List (Value × Value)) : List Value := ps.flatMap fun p => [p.1, p.2]

/-- The entries that pairs of keys and values stand for. -/
def StandFor (ps : List (Value × Value)) (es : List (Key × Value)) : Prop :=
  List.Forall₂ (fun p e => Key.ofValue? p.1 = some e.1 ∧ p.2 = e.2) ps es

/-- Keys and values on the stack are read as pairs again. -/
theorem pairs_alternating (ps : List (Value × Value)) : pairs (alternating ps) = ps := by
  induction ps with
  | nil => rfl
  | cons p rest ih => exact congrArg (p :: ·) ih

theorem length_alternating (ps : List (Value × Value)) : (alternating ps).length = 2 * ps.length := by
  induction ps with
  | nil => rfl
  | cons p rest ih =>
    show (alternating rest).length + 1 + 1 = 2 * (rest.length + 1)
    omega

/-- Values that stand for keys are the entries of a literal. -/
theorem literalEntries_of_standFor {ps : List (Value × Value)} {es : List (Key × Value)} (stand : StandFor ps es) :
    literalEntries ps = .ok es := by
  induction stand with
  | nil => rfl
  | @cons p e ps es here _ ih =>
    obtain ⟨key, value⟩ := here
    unfold literalEntries
    simp only [key, ih, value]

/-- The entries before the first value that is no key are counted. -/
theorem literalEntries_of_badKey {ps : List (Value × Value)} (keys : ∀ p ∈ ps, (Key.ofValue? p.1).isSome) {bad : Value}
    (refused : Key.ofValue? bad = none) (v : Value) (rest : List (Value × Value)) :
    literalEntries (ps ++ (bad, v) :: rest) = .error (bad, ps.length) := by
  induction ps with
  | nil =>
    unfold literalEntries
    simp only [List.nil_append, refused]
    rfl
  | cons p ps ih =>
    obtain ⟨here, later⟩ := List.forall_mem_cons.1 keys
    obtain ⟨key, found⟩ := Option.isSome_iff_exists.1 here
    rw [List.cons_append, literalEntries]
    simp only [found, ih later, List.length_cons]

/-- The values of the pairs are moved out of their slots, and the keys stay. -/
theorem moveEntries_alternating (ps : List (Value × Value)) (vs : List Value) :
    moveEntries ps.length (alternating ps ++ vs) = alternating (ps.map fun p => (p.1, p.2.vacated)) ++ vs := by
  induction ps with
  | nil => cases vs <;> rfl
  | cons p rest ih => exact congrArg (p.1 :: p.2.vacated :: ·) ih

theorem run_peekMany_alternating (ps : List (Value × Value)) (m : Machine) :
    (peekMany (2 * ps.length)).run (m.withOperands (alternating ps)) =
      .ok (alternating ps) (m.withOperands (alternating ps)) := by
  rw [← length_alternating]
  exact run_peekMany_withOperands _ m

theorem size_alternating (ps : List (Value × Value)) (m : Machine) :
    (m.withOperands (alternating ps)).stack.size - 2 * ps.length = m.stack.size := by
  rw [size_withOperands, length_alternating, Nat.add_sub_cancel]

/-- A literal makes the table of its entries, in the order of the pairs. -/
theorem run_hashLiteral_of_standFor {ps : List (Value × Value)} {es : List (Key × Value)} (stand : StandFor ps es)
    (m : Machine) :
    (hashLiteral ps.length).run (m.withOperands (alternating ps)) =
      .ok (m.heap.allocTable (Table.ofList es)).1
        { m with world := { m.world with heap := (m.heap.allocTable (Table.ofList es)).2 } } := by
  unfold hashLiteral
  rw [run_bind_of_ok (run_peekMany_alternating ps m), run_bind_of_ok (run_get _), size_alternating, pairs_alternating,
    literalEntries_of_standFor stand]
  simp only
  exact run_bind_of_ok (run_resize_withOperands _ m)

/-- A literal fails at the first value that is no key, when the values before it have been moved out. -/
theorem run_hashLiteral_of_badKey {ps : List (Value × Value)} (keys : ∀ p ∈ ps, (Key.ofValue? p.1).isSome)
    {bad : Value} (refused : Key.ofValue? bad = none) (v : Value) (rest : List (Value × Value)) (m : Machine) :
    (hashLiteral (ps ++ (bad, v) :: rest).length).run (m.withOperands (alternating (ps ++ (bad, v) :: rest))) =
      .error (.error ⟨.badKey (m.typeName bad), m.span⟩)
        (m.withOperands (alternating (ps.map fun p => (p.1, p.2.vacated)) ++ alternating ((bad, v) :: rest))) := by
  unfold hashLiteral
  rw [run_bind_of_ok (run_peekMany_alternating _ m), run_bind_of_ok (run_get _), size_alternating, pairs_alternating,
    literalEntries_of_badKey keys refused]
  simp only
  have split : alternating (ps ++ (bad, v) :: rest) = alternating ps ++ alternating ((bad, v) :: rest) :=
    List.flatMap_append
  rw [split, moveEntries_alternating]
  rw [run_bind_of_ok (run_exchange_withOperands _ _ m)]
  rfl

/-- Pairs stand for entries, unless the key of some pair is no key. -/
theorem standFor_or_badKey (ps : List (Value × Value)) :
    (∃ es, StandFor ps es) ∨ ∃ good bad v rest, ps = good ++ (bad, v) :: rest ∧
      (∀ p ∈ good, (Key.ofValue? p.1).isSome) ∧ Key.ofValue? bad = none := by
  induction ps with
  | nil => exact .inl ⟨[], .nil⟩
  | cons p rest ih =>
    obtain ⟨v, w⟩ := p
    cases found : Key.ofValue? v with
    | none => exact .inr ⟨[], v, w, rest, rfl, List.forall_mem_nil _, found⟩
    | some k =>
      rcases ih with ⟨es, stand⟩ | ⟨good, bad, v', later, rfl, keys, refused⟩
      · exact .inl ⟨(k, w) :: es, .cons ⟨found, rfl⟩ stand⟩
      · exact .inr ⟨(v, w) :: good, bad, v', later, rfl,
          List.forall_mem_cons.2 ⟨by rw [found]; rfl, keys⟩, refused⟩

/-- What a literal makes of the pairs of keys and values on top of the stack. -/
structure Literal (i : Instruction) (ps : List (Value × Value)) (m : Machine) : Prop where
  either : (∃ es, StandFor ps es) ∨ ∃ good bad v rest, ps = good ++ (bad, v) :: rest ∧
    (∀ p ∈ good, (Key.ofValue? p.1).isSome) ∧ Key.ofValue? bad = none
  /-- A new table is made by setting the entries one after the other, and takes the place of the pairs. -/
  makes : ∀ es, StandFor ps es →
    (execute i).run (m.withOperands (alternating ps)) =
      .ok .next (Machine.withOperands
        { m with world := { m.world with heap := (m.heap.allocTable (Table.run es [])).2 } }
        [(m.heap.allocTable (Table.run es [])).1])
  /-- At the first value that is no key the literal fails. The values before it have been moved out of the
  stack, and no table is there. -/
  refuses : ∀ good bad v rest, ps = good ++ (bad, v) :: rest → (∀ p ∈ good, (Key.ofValue? p.1).isSome) →
    Key.ofValue? bad = none →
    (execute i).run (m.withOperands (alternating ps)) =
      .error (.error ⟨.badKey (m.typeName bad), m.span⟩)
        (m.withOperands (alternating (good.map fun p => (p.1, p.2.vacated)) ++ alternating ((bad, v) :: rest)))

theorem run_literal {i : Instruction} (op : i.op = .hash) {ps : List (Value × Value)} (count : ps.length = i.a.toNat)
    (m : Machine) : Literal i ps m where
  either := standFor_or_badKey ps
  makes es stand := by
    have made := run_hashLiteral_of_standFor stand m
    rw [count] at made
    unfold execute
    simp only [op]
    exact run_bind_of_ok made
  refuses good bad v rest parts keys refused := by
    subst parts
    have failed := run_hashLiteral_of_badKey keys refused v rest m
    rw [count] at failed
    unfold execute
    simp only [op]
    exact run_bind_of_error failed

end Exec

/-- A key that is removed and set again goes to the end. -/
theorem Listing.set_remove (k : Key) (v : Value) (l : List (Key × Value)) :
    set k v (remove k l) = remove k l ++ [(k, v)] := by
  refine if_neg fun mem => ?_
  obtain ⟨e, he, same⟩ := List.mem_map.1 mem
  exact of_decide_eq_true (List.mem_filter.1 he).2 same

namespace Table

/-- Tables are insertion-ordered maps. Every table of every session that a host can get to was made
with some entries and then changed by some steps. Take a table that was made with any entries and then
changed by any steps. Its index and its row belong together, every key stands once, and values that
differ make keys that differ. Size, look-ups and the order of the entries are those of the plain list
of entries, and every further step does to the table what it does to the list: setting a key that is
there replaces its value in place, setting a new one appends it, removing a key deletes its entry,
keeps the others in order and tells whether there was one, and setting it again puts it at the end.
Null, `true`, `1` and the text `1` make four keys. A literal sets the pairs on the stack one after the other,
so its table has their keys in the order in which they came first, with the values that came last. -/
theorem tables_are_insertion_ordered_maps :
    (∀ s : Session, s.Reachable → ∀ r, ∃ es steps, s.machine.heap.tables.get r = run es steps) ∧
    (∀ (m : Machine) (i : Instruction) (ps : List (Value × Value)), i.op = .hash → ps.length = i.a.toNat →
      Exec.Literal i ps m) ∧
    (∀ es, (Listing.run es []).map Prod.fst = (es.map Prod.fst).eraseDups ∧
      ∀ k, Listing.get? k (Listing.run es []) = Listing.get? k es.reverse) ∧
    (none :: [Value.null, .bool true, .int 1, .str "1"].map Key.ofValue?).Nodup ∧
    ∀ (es : List (Key × Value)) (steps : List Step),
    let t := run es steps
    let l := Listing.run es steps
    t.entries.toList = l ∧ t.size = l.length ∧ (l.map Prod.fst).Nodup ∧
    (∀ k i, t.index.get? k = some i ↔ (l.map Prod.fst)[i]? = some k) ∧
    (∀ v w k, Key.ofValue? v = some k → Key.ofValue? w = some k → v = w) ∧
    (∀ k, t.get? k = Listing.get? k l) ∧
    (∀ k, t.contains k = decide (k ∈ l.map Prod.fst)) ∧
    (∀ k v, (t.set k v).entries.toList =
      if k ∈ l.map Prod.fst then l.map fun e => if e.1 = k then (k, v) else e else l ++ [(k, v)]) ∧
    (∀ k, t.remove k = (decide (k ∈ l.map Prod.fst), (t.remove k).2) ∧
      (t.remove k).2.entries.toList = l.filter fun e => e.1 ≠ k) ∧
    (∀ k v, ((t.remove k).2.set k v).entries.toList = (l.filter fun e => e.1 ≠ k) ++ [(k, v)]) := by
  refine ⟨fun s reachable r => reachable.tablesMade r, fun m i ps op count => Exec.run_literal op count m,
    Listing.entered, by decide, fun es steps => ?_⟩
  intro t l
  obtain ⟨indexed, entries⟩ : t.Shows l := shows_run es steps
  refine ⟨entries, ?_, ?_, fun k i => ?_, fun v w k => Key.ofValue?_inj, fun k => ?_, fun k => ?_,
    fun k v => ?_, fun k => ⟨?_, ?_⟩, fun k v => ?_⟩
  · rw [← entries, Array.length_toList]
    rfl
  · rw [← entries]
    exact indexed.nodup
  · rw [indexed k i, ← entries, List.getElem?_map, Array.getElem?_toList, Option.map_eq_some_iff]
    constructor
    · rintro ⟨v, hv⟩
      exact ⟨(k, v), hv, rfl⟩
    · rintro ⟨⟨k', v⟩, hv, rfl⟩
      exact ⟨v, hv⟩
  · rw [indexed.get?_eq, entries]
  · rw [indexed.contains_eq, entries]
  · rw [indexed.entries_set, entries]
    rfl
  · rw [← entries, ← indexed.remove_fst]
  · rw [indexed.entries_remove, entries]
    rfl
  · rw [(indexed.remove k).entries_set, indexed.entries_remove, entries, Listing.set_remove]
    rfl

end Table

end ScriptVm
