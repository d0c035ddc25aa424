import ScriptVm.Proofs.ShapedObject
import ScriptVm.Proofs.Transcripts

/-!
# Objects and what was stored on them

A registry with any number of objects, changed step by step: objects are made, copied and
written, and the registry is also changed directly. Beside it runs a plain record of what was
stored on each object. The objects show exactly this record, as insertion-ordered maps: the last
value of every symbol, and the symbols in the order in which they first came.
-/

set_option autoImplicit false

namespace ScriptVm

/-- A change of one object or of the registry. -/
inductive ObjectStep where
  | create (o : Nat)
  | copy (o target : Nat)
  | set (o : Nat) (s : Symbol) (v : Value)
  | setFieldAt (o : Nat) (offset : Nat) (s : Symbol) (v : Value)
  | addProperty (id : ShapeId) (s : Symbol)
  | sealShape (id : ShapeId)
  | drawId

/-- The function that gives `a` at `o`, and else what `f` gives. -/
def assign {α : Type} (f : Nat → α) (o : Nat) (a : α) : Nat → α := fun i => if i = o then a else f i

@[simp] theorem assign_self {α : Type} (f : Nat → α) (o : Nat) (a : α) : assign f o a o = a :=
  if_pos rfl

theorem assign_other {α : Type} (f : Nat → α) {o i : Nat} (a : α) (h : i ≠ o) : assign f o a i = f i :=
  if_neg h

/-- A registry and the objects that it lays out. -/
structure ObjectStore where
  registry : ShapeRegistry := .initial
  objects : Nat → ShapedObject := fun _ => {}

namespace ObjectStore

def step (st : ObjectStore) : ObjectStep → ObjectStore
  | .create o => { st with objects := assign st.objects o {} }
  | .copy o target => { st with objects := assign st.objects target (st.objects o) }
  | .set o s v =>
    let u := (st.objects o).set st.registry s v
    { registry := u.registry, objects := assign st.objects o u.object }
  | .setFieldAt o offset s v =>
    match (st.objects o).setFieldAt? offset s v with
    | some x => { st with objects := assign st.objects o x }
    | none => st
  | .addProperty id s => { st with registry := (st.registry.addProperty id s).2 }
  | .sealShape id => { st with registry := st.registry.sealShape id }
  | .drawId => { st with registry := st.registry.drawId.2 }

/-- The store after the given steps. -/
def run (steps : List ObjectStep) : ObjectStore := steps.foldl step {}

end ObjectStore

/-- What was stored on an object, newest first. -/
abbrev History := List (Symbol × Value)

namespace History

/-- The last value stored for a symbol. -/
def last (h : History) (s : Symbol) : Option Value := (h.find? fun e => e.1 = s).map Prod.snd

/-- The symbols in the order in which they were first stored. -/
def symbols (h : History) : List Symbol := (h.map Prod.fst).reverse.eraseDups

/-- The histories of all objects after a step. A write at an offset is a store if the symbol has
that place in the order of first stores. -/
def step (hs : Nat → History) : ObjectStep → Nat → History
  | .create o => assign hs o []
  | .copy o target => assign hs target (hs o)
  | .set o s v => assign hs o ((s, v) :: hs o)
  | .setFieldAt o offset s v =>
    if (symbols (hs o))[offset]? = some s then assign hs o ((s, v) :: hs o) else hs
  | _ => hs

def run (steps : List ObjectStep) : Nat → History := steps.foldl step fun _ => []

/-- The stores as an association list. -/
def toEntries : History → List (Symbol × Value)
  | [] => []
  | (s, v) :: rest => Assoc.put s v (toEntries rest)

theorem find_toEntries (h : History) (s : Symbol) : Assoc.find s (toEntries h) = h.last s := by
  induction h with
  | nil => rfl
  | cons e rest ih =>
    obtain ⟨t, v⟩ := e
    rw [toEntries, Assoc.find_put, ih]
    by_cases hs : t = s <;> simp [last, hs]

theorem symbols_cons (e : Symbol × Value) (h : History) :
    symbols (e :: h) = symbols h ++ if e.1 ∈ symbols h then [] else [e.1] := by
  rw [symbols, List.map_cons, List.reverse_cons, eraseDups_concat]
  simp only [symbols, List.mem_eraseDups]

theorem map_fst_toEntries (h : History) : (toEntries h).map Prod.fst = h.symbols := by
  induction h with
  | nil => rfl
  | cons e rest ih => rw [toEntries, Assoc.map_fst_put, ih, symbols_cons]

end History

namespace ObjectStore

/-- The objects show their histories. -/
structure Shows (st : ObjectStore) (hs : Nat → History) : Prop where
  trie : st.registry.Trie
  fits : ∀ o, (st.objects o).Fits st.registry
  entries : ∀ o, (st.objects o).entries = (hs o).toEntries

theorem shows_start : Shows {} fun _ => [] :=
  ⟨ShapeRegistry.trie_initial, fun _ => ShapedObject.fits_empty ShapeRegistry.trie_initial, fun _ => rfl⟩

variable {st : ObjectStore} {hs : Nat → History}

/-- One object is given a new row under a registry that has grown; the others stay. -/
theorem Shows.assign (h : Shows st hs) {r : ShapeRegistry} (t : r.Trie)
    (g : ShapeRegistry.Grows st.registry r) (o : Nat) {x : ShapedObject} {es : History}
    (hx : x.Fits r) (he : x.entries = es.toEntries) :
    Shows { registry := r, objects := assign st.objects o x } (assign hs o es) := by
  refine ⟨t, fun i => ?_, fun i => ?_⟩
  · by_cases hi : i = o
    · subst hi
      simpa using hx
    · simpa only [assign_other _ _ hi] using (h.fits i).grow h.trie g
  · by_cases hi : i = o
    · subst hi
      simpa using he
    · simpa only [assign_other _ _ hi] using h.entries i

theorem Shows.registry (h : Shows st hs) {r : ShapeRegistry} (t : r.Trie)
    (g : ShapeRegistry.Grows st.registry r) : Shows { st with registry := r } hs :=
  ⟨t, fun o => (h.fits o).grow h.trie g, h.entries⟩

theorem Shows.setFieldAt?_isSome (h : Shows st hs) (o offset : Nat) (s : Symbol) (v : Value) :
    ((st.objects o).setFieldAt? offset s v).isSome ↔ (hs o).symbols[offset]? = some s := by
  rw [← History.map_fst_toEntries, ← h.entries, List.getElem?_map, Option.map_eq_some_iff,
    Option.isSome_iff_exists]
  simp only [ShapedObject.setFieldAt?_eq_some_iff]
  constructor
  · rintro ⟨-, ⟨w, hw⟩, -⟩
    exact ⟨_, hw, rfl⟩
  · rintro ⟨⟨t, w⟩, hw, rfl⟩
    exact ⟨_, ⟨w, hw⟩, rfl⟩

theorem Shows.step (h : Shows st hs) (c : ObjectStep) : Shows (st.step c) (History.step hs c) := by
  cases c with
  | create o =>
    exact h.assign h.trie (.refl _) o (ShapedObject.fits_empty h.trie) rfl
  | copy o target => exact h.assign h.trie (.refl _) target (h.fits o) (h.entries o)
  | set o s v =>
    obtain ⟨t, g, hf, he⟩ := (h.fits o).set h.trie s v
    refine h.assign t g o hf ?_
    rw [he, h.entries, History.toEntries]
  | setFieldAt o offset s v =>
    have hiff := h.setFieldAt?_isSome o offset s v
    simp only [ObjectStore.step, History.step]
    cases hx : (st.objects o).setFieldAt? offset s v with
    | none =>
      rw [hx] at hiff
      rw [if_neg fun hc => by cases hiff.2 hc]
      exact h
    | some x =>
      rw [hx] at hiff
      rw [if_pos (hiff.1 rfl)]
      obtain ⟨hf, he⟩ := (h.fits o).setFieldAt? hx
      refine h.assign h.trie (.refl _) o hf ?_
      rw [he, h.entries, History.toEntries]
  | addProperty id s => exact h.registry (h.trie.addProperty id s) (h.trie.grows_addProperty id s)
  | sealShape id => exact h.registry (h.trie.sealShape id) (ShapeRegistry.grows_sealShape _ id)
  | drawId => exact h.registry h.trie.drawId (ShapeRegistry.grows_drawId _)

theorem shows_run (steps : List ObjectStep) : Shows (run steps) (History.run steps) := by
  have fold : ∀ (steps : List ObjectStep) (st : ObjectStore) (hs : Nat → History), Shows st hs →
      Shows (steps.foldl step st) (steps.foldl History.step hs) := by
    intro steps
    induction steps with
    | nil => intro st hs h; exact h
    | cons c rest ih => intro st hs h; exact ih _ _ (h.step c)
  exact fold steps _ _ shows_start

/-- **Objects are insertion-ordered maps**, after any steps on any objects and on the registry:
a look-up gives the last value stored, the row has every symbol once in the order of first stores,
a store reaches no other symbol and no other object, and what the shape places is there. -/
theorem objects_are_insertion_ordered_maps (steps : List ObjectStep) (o : Nat) :
    let st := run steps
    let h := History.run steps o
    let x := st.objects o
    (∀ s, x.get st.registry s = h.last s) ∧
    x.fields.toList.map Prod.fst = h.symbols ∧ h.symbols.Nodup ∧
    (∀ e ∈ x.fields.toList, h.last e.1 = some e.2) ∧
    (∀ offset s v, (x.setFieldAt? offset s v).isSome ↔ h.symbols[offset]? = some s) ∧
    (∀ s v s', s' ≠ s →
      ((st.step (.set o s v)).objects o).get (st.step (.set o s v)).registry s' = x.get st.registry s') ∧
    (∀ s v o', o' ≠ o → (st.step (.set o s v)).objects o' = st.objects o' ∧
      ∀ s', ((st.step (.set o s v)).objects o').get (st.step (.set o s v)).registry s' =
        (st.objects o').get st.registry s') ∧
    (∀ s, (∃ n ∈ st.registry.chain x.shape, ∃ k, n.own = some (s, k)) →
      ∃ k v, st.registry.offset? x.shape s = some k ∧ x.fieldAt k s = some v) := by
  intro st h x
  have shows : Shows st (History.run steps) := shows_run steps
  have hx : x.Fits st.registry := shows.fits o
  have he : x.entries = h.toEntries := shows.entries o
  have hsym : x.fields.toList.map Prod.fst = h.symbols := by
    rw [← History.map_fst_toEntries, ← he]
    rfl
  refine ⟨fun s => ?_, hsym, hsym ▸ hx.distinct, fun e hm => ?_, shows.setFieldAt?_isSome o,
    fun s v s' hne => ?_, fun s v o' hne => ?_, ?_⟩
  · rw [hx.get_eq, he, History.find_toEntries]
  · obtain ⟨i, hi⟩ := List.mem_iff_getElem?.1 hm
    rw [← History.find_toEntries, ← he]
    exact Assoc.find_of_getElem? hx.distinct hi
  · simp only [step, assign_self]
    rw [hx.get_set shows.trie, if_neg (Ne.symm hne)]
  · have hobj : (st.step (.set o s v)).objects o' = st.objects o' := assign_other _ _ hne
    have hset := (shows.step (.set o s v)).fits o'
    rw [hobj] at hset
    refine ⟨hobj, fun s' => ?_⟩
    rw [hobj, hset.get_eq, (shows.fits o').get_eq]
  · rintro s ⟨n, hn, k, ho⟩
    cases hk : st.registry.offset? x.shape s with
    | none =>
      exact absurd (List.mem_filterMap.2 ⟨n, hn, ho⟩)
        (ShapeRegistry.not_mem_properties_of_offset? hk k)
    | some k =>
      obtain ⟨v, hv⟩ := hx.fieldAt_offset? hk
      exact ⟨k, v, rfl, hv⟩

end ObjectStore

end ScriptVm
