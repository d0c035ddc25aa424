import ScriptVm.Shape

/-!
# The tree of shapes

`ShapeRegistry.Trie` is what every registry satisfies that started with the root alone and was
changed by adding properties, sealing and drawing numbers: every shape but the root has a parent
with a smaller number and adds one property, at the offset behind those of its parent, and the
remembered steps are exactly the edges of this tree.

`properties` lists what a shape places, newest first. It is all that look-ups read, it grows by
one along an edge (`properties_step`), and it never changes once the shape exists
(`Grows.properties_eq`).
-/

set_option autoImplicit false

namespace ScriptVm.ShapeRegistry

variable {r r' r'' : ShapeRegistry} {id p : ShapeId} {n : Shape} {s : Symbol}

/-- A tree of shapes with the root at the bottom. -/
structure Trie (r : ShapeRegistry) : Prop where
  root : ∃ n, r.get? root = some n ∧ n.parent = none ∧ n.own = none
  bounded : ∀ id n, r.get? id = some n → id < r.nextId
  step : ∀ id n, r.get? id = some n → id ≠ ShapeRegistry.root →
    ∃ p s, n.parent = some p ∧ p < id ∧ (r.get? p).isSome ∧ n.own = some (s, r.total p)
  edge : ∀ p s c, r.transitions.get? (p, s) = some c ↔
    ∃ n, r.get? c = some n ∧ n.parent = some p ∧ ∃ k, n.own = some (s, k)
  next : ∀ p n, r.get? p = some n → ∀ s, n.next.get? s = r.transitions.get? (p, s)

/-- A parent is known and has a smaller number, and the child stands right behind it. -/
theorem Trie.parent_known (t : r.Trie) (h : r.get? id = some n) (hp : n.parent = some p) :
    p < id ∧ (r.get? p).isSome ∧ ∃ s, n.own = some (s, r.total p) := by
  have hid : id ≠ ShapeRegistry.root := by
    rintro rfl
    obtain ⟨n₀, hn₀, hp₀, -⟩ := t.root
    rw [h] at hn₀
    cases hn₀
    rw [hp] at hp₀
    cases hp₀
  obtain ⟨q, s, hq, hlt, hk, ho⟩ := t.step id n h hid
  rw [hp] at hq
  cases hq
  exact ⟨hlt, hk, s, ho⟩

/-- A remembered step leads to a shape that adds its symbol right behind the parent. -/
theorem Trie.edge_node (t : r.Trie) {c : ShapeId} (h : r.transitions.get? (p, s) = some c) :
    ∃ n, r.get? c = some n ∧ n.parent = some p ∧ p < c ∧ n.own = some (s, r.total p) := by
  obtain ⟨n, hn, hp, k, ho⟩ := (t.edge p s c).1 h
  obtain ⟨hlt, -, s', ho'⟩ := t.parent_known hn hp
  rw [ho] at ho'
  cases ho'
  exact ⟨n, hn, hp, hlt, ho⟩

/-! ## The properties of a shape -/

/-- The properties that a shape places, with their offsets, newest first. -/
def properties (r : ShapeRegistry) (id : ShapeId) : List (Symbol × Nat) :=
  (r.chain id).filterMap Shape.own

/-- A shape has as many properties as it places. -/
theorem total_eq_length (r : ShapeRegistry) (id : ShapeId) :
    r.total id = (r.properties id).length := rfl

theorem findSome?_ownOffset? (chain : List Shape) (s : Symbol) :
    (chain.findSome? fun n => n.ownOffset? s) =
      ((chain.filterMap Shape.own).find? fun e => e.1 = s).map Prod.snd := by
  induction chain with
  | nil => rfl
  | cons n rest ih =>
    rw [List.findSome?_cons, List.filterMap_cons, ih]
    cases h : n.own with
    | none =>
      have hn : n.ownOffset? s = none := by rw [Shape.ownOffset?, h]
      rw [hn]
    | some e =>
      have hn : n.ownOffset? s = if e.1 = s then some e.2 else none := by rw [Shape.ownOffset?, h]
      rw [hn, List.find?_cons]
      by_cases hs : e.1 = s <;> simp [hs]

/-- A look-up reads nothing but the properties of the shape. -/
theorem offset?_eq (r : ShapeRegistry) (id : ShapeId) (s : Symbol) :
    r.offset? id s = ((r.properties id).find? fun e => e.1 = s).map Prod.snd :=
  findSome?_ownOffset? (r.chain id) s

/-- A look-up finds a placed property. -/
theorem mem_properties_of_offset? {k : Nat} (h : r.offset? id s = some k) :
    (s, k) ∈ r.properties id := by
  rw [offset?_eq, Option.map_eq_some_iff] at h
  obtain ⟨e, he, rfl⟩ := h
  have hs : e.1 = s := by simpa using List.find?_some he
  rw [← hs]
  exact List.mem_of_find?_eq_some he

/-- A property that a look-up does not find is not placed. -/
theorem not_mem_properties_of_offset? (h : r.offset? id s = none) (k : Nat) :
    (s, k) ∉ r.properties id := by
  rw [offset?_eq, Option.map_eq_none_iff, List.find?_eq_none] at h
  intro hm
  simpa using h _ hm

/-! ## Chains -/

/-- Fuel beyond the number of the shape changes nothing, since parents have smaller numbers. -/
theorem Trie.chainFrom_eq (t : r.Trie) :
    ∀ id fuel, id < fuel → r.chainFrom fuel id = r.chain id := by
  intro id
  induction id using Nat.strongRecOn with
  | ind id ih =>
    intro fuel hf
    obtain ⟨fuel, rfl⟩ : ∃ k, fuel = k + 1 := ⟨fuel - 1, by omega⟩
    unfold chain
    simp only [chainFrom]
    cases hn : r.get? id with
    | none => rfl
    | some n =>
      simp only [List.cons.injEq, true_and]
      cases hp : n.parent with
      | none => rfl
      | some p =>
        have hlt := (t.parent_known hn hp).1
        simp only
        rw [ih p hlt fuel (Nat.lt_of_lt_of_le hlt (Nat.le_of_lt_succ hf)), ih p hlt id hlt]

/-- A shape places its own property before those of its parent. -/
theorem properties_eq_of_get? (h : r.get? id = some n) :
    r.properties id = n.own.toList ++
      (match n.parent with
        | none => []
        | some p => r.chainFrom id p).filterMap Shape.own := by
  unfold properties chain
  simp only [chainFrom, h, List.filterMap_cons]
  cases n.own <;> rfl

/-- A shape has one property more than its parent. -/
theorem Trie.properties_step (t : r.Trie) (h : r.get? id = some n) (hp : n.parent = some p)
    (hlt : p < id) : r.properties id = n.own.toList ++ r.properties p := by
  rw [properties_eq_of_get? h, hp]
  simp only
  rw [t.chainFrom_eq p id hlt]
  rfl

theorem Trie.properties_root (t : r.Trie) : r.properties ShapeRegistry.root = [] := by
  obtain ⟨n, hn, hp, ho⟩ := t.root
  rw [properties_eq_of_get? hn, hp, ho]
  rfl

/-! ## Growth -/

/-- The registry `r'` has the shapes of `r` with what they place, and possibly more. -/
structure Grows (r r' : ShapeRegistry) : Prop where
  node : ∀ id n, r.get? id = some n →
    ∃ n', r'.get? id = some n' ∧ n'.parent = n.parent ∧ n'.own = n.own ∧
      (n.isSealed = true → n'.isSealed = true)
  nextId : r.nextId ≤ r'.nextId

/-- Nothing has been added. -/
theorem Grows.refl (r : ShapeRegistry) : Grows r r :=
  ⟨fun _ n h => ⟨n, h, rfl, rfl, id⟩, Nat.le_refl _⟩

/-- Shapes can be added one after the other. -/
theorem Grows.trans (h : Grows r r') (h' : Grows r' r'') : Grows r r'' := by
  refine ⟨fun id n hn => ?_, Nat.le_trans h.nextId h'.nextId⟩
  obtain ⟨n', hn', hp', ho', hs'⟩ := h.node id n hn
  obtain ⟨n'', hn'', hp'', ho'', hs''⟩ := h'.node id n' hn'
  exact ⟨n'', hn'', hp''.trans hp', ho''.trans ho', fun hs => hs'' (hs' hs)⟩

/-- A shape stays in the registry. -/
theorem Grows.isSome_get? (h : Grows r r') (hk : (r.get? id).isSome) : (r'.get? id).isSome := by
  obtain ⟨n, hn⟩ := Option.isSome_iff_exists.1 hk
  obtain ⟨n', hn', -⟩ := h.node id n hn
  rw [hn']
  rfl

/-- Chains of known shapes keep their nodes, as far as parents and own properties go. -/
theorem Grows.chainFrom_own (h : Grows r r') (t : r.Trie) :
    ∀ fuel id, (r.get? id).isSome →
      (r'.chainFrom fuel id).map Shape.own = (r.chainFrom fuel id).map Shape.own := by
  intro fuel
  induction fuel with
  | zero => intro id _; rfl
  | succ fuel ih =>
    intro id hk
    obtain ⟨n, hn⟩ := Option.isSome_iff_exists.1 hk
    obtain ⟨n', hn', hp', ho', -⟩ := h.node id n hn
    simp only [chainFrom, hn, hn', List.map_cons, ho', hp', List.cons.injEq, true_and]
    cases hp : n.parent with
    | none => rfl
    | some p =>
      exact ih p (t.parent_known hn hp).2.1

/-- What a shape places never changes. -/
theorem Grows.properties_eq (h : Grows r r') (t : r.Trie) (hk : (r.get? id).isSome) :
    r'.properties id = r.properties id := by
  have e : ∀ l : List Shape, l.filterMap Shape.own = (l.map Shape.own).filterMap fun o => o := by
    intro l
    rw [List.filterMap_map]
    rfl
  unfold properties chain
  rw [e, e, h.chainFrom_own t _ _ hk]

/-- A shape keeps its number of properties. -/
theorem Grows.total_eq (h : Grows r r') (t : r.Trie) (hk : (r.get? id).isSome) :
    r'.total id = r.total id := by
  rw [total_eq_length, total_eq_length, h.properties_eq t hk]

/-! ## The operations of a registry -/

theorem eq_root_of_initial (h : initial.get? id = some n) : id = root ∧ n = {} := by
  simp only [get?, initial, Assoc.get?, Assoc.find] at h
  split at h
  · cases h
    exact ⟨Eq.symm ‹_›, rfl⟩
  · cases h

/-- The root alone is a tree. -/
theorem trie_initial : initial.Trie where
  root := ⟨{}, rfl, rfl, rfl⟩
  bounded id n h := by
    rw [(eq_root_of_initial h).1]
    exact Nat.one_pos
  step id n h hid := absurd (eq_root_of_initial h).1 hid
  edge p s c := by
    constructor
    · intro h
      cases h
    · rintro ⟨n, h, hp, -⟩
      rw [(eq_root_of_initial h).2] at hp
      cases hp
  next p n h s := by
    rw [(eq_root_of_initial h).2]
    rfl

/-- Drawing a number changes the counter only. -/
theorem grows_drawId (r : ShapeRegistry) : Grows r r.drawId.2 :=
  ⟨fun _ n h => ⟨n, h, rfl, rfl, fun hs => hs⟩, Nat.le_succ _⟩

/-- Drawing a number adds no shape. -/
theorem Trie.drawId (t : r.Trie) : r.drawId.2.Trie where
  root := t.root
  bounded id n h := Nat.lt_succ_of_lt (t.bounded id n h)
  step id n h hid := by
    obtain ⟨p, s, hp, hlt, hk, ho⟩ := t.step id n h hid
    rw [← (grows_drawId r).total_eq t hk] at ho
    exact ⟨p, s, hp, hlt, hk, ho⟩
  edge := t.edge
  next := t.next

/-- Sealing changes one shape, and nothing about it but the seal. -/
theorem get?_sealShape (r : ShapeRegistry) (id j : ShapeId) :
    (r.sealShape id).get? j =
      if id = j then (r.get? j).map fun n => { n with isSealed := true } else r.get? j := by
  unfold sealShape
  cases h : r.get? id with
  | none =>
    by_cases hj : id = j
    · subst hj
      simp [h]
    · simp [hj]
  | some n =>
    simp only [get?, Assoc.get?_insert]
    by_cases hj : id = j
    · subst hj
      rw [get?] at h
      simp [h]
    · simp [hj]

theorem transitions_sealShape (r : ShapeRegistry) (id : ShapeId) :
    (r.sealShape id).transitions = r.transitions ∧ (r.sealShape id).nextId = r.nextId := by
  unfold sealShape
  split <;> exact ⟨rfl, rfl⟩

theorem grows_sealShape (r : ShapeRegistry) (id : ShapeId) : Grows r (r.sealShape id) := by
  refine ⟨fun j n h => ?_, (transitions_sealShape r id).2 ▸ Nat.le_refl _⟩
  rw [get?_sealShape, h]
  by_cases hj : id = j
  · exact ⟨{ n with isSealed := true }, by simp [hj], rfl, rfl, fun _ => rfl⟩
  · exact ⟨n, by simp [hj], rfl, rfl, fun hs => hs⟩

/-- A shape of the sealed registry is a shape of the old one, but for its seal. -/
theorem node_of_sealShape {j : ShapeId} (h : (r.sealShape id).get? j = some n) :
    ∃ n₀, r.get? j = some n₀ ∧ n.parent = n₀.parent ∧ n.own = n₀.own ∧ n.next = n₀.next := by
  rw [get?_sealShape] at h
  split at h
  · obtain ⟨n₀, hn₀, rfl⟩ := Option.map_eq_some_iff.1 h
    exact ⟨n₀, hn₀, rfl, rfl, rfl⟩
  · exact ⟨n, h, rfl, rfl, rfl⟩

/-- Sealing keeps the tree. -/
theorem Trie.sealShape (t : r.Trie) (id : ShapeId) : (r.sealShape id).Trie where
  root := by
    obtain ⟨n, hn, hp, ho⟩ := t.root
    obtain ⟨n', hn', hp', ho', -⟩ := (grows_sealShape r id).node _ n hn
    exact ⟨n', hn', hp'.trans hp, ho'.trans ho⟩
  bounded j n h := by
    obtain ⟨n₀, hn₀, -⟩ := node_of_sealShape h
    rw [(transitions_sealShape r id).2]
    exact t.bounded j n₀ hn₀
  step j n h hj := by
    obtain ⟨n₀, hn₀, hp, ho, -⟩ := node_of_sealShape h
    obtain ⟨p, s, hp₀, hlt, hk, ho₀⟩ := t.step j n₀ hn₀ hj
    rw [← (grows_sealShape r id).total_eq t hk] at ho₀
    exact ⟨p, s, hp.trans hp₀, hlt, (grows_sealShape r id).isSome_get? hk, ho.trans ho₀⟩
  edge p s c := by
    rw [(transitions_sealShape r id).1, t.edge]
    constructor
    · rintro ⟨n, hn, hp, k, ho⟩
      obtain ⟨n', hn', hp', ho', -⟩ := (grows_sealShape r id).node c n hn
      exact ⟨n', hn', hp'.trans hp, k, ho'.trans ho⟩
    · rintro ⟨n, hn, hp, k, ho⟩
      obtain ⟨n₀, hn₀, hp₀, ho₀, -⟩ := node_of_sealShape hn
      exact ⟨n₀, hn₀, hp₀.symm.trans hp, k, ho₀.symm.trans ho⟩
  next p n h s := by
    obtain ⟨n₀, hn₀, -, -, hx⟩ := node_of_sealShape h
    rw [(transitions_sealShape r id).1, hx]
    exact t.next p n₀ hn₀ s

/-! ## Adding a property -/

section Grow

variable {parent : ShapeId} {node : Shape}

/-- Growing adds the new shape and remembers the step at its parent. -/
theorem get?_grow (r : ShapeRegistry) (parent : ShapeId) (node : Shape) (s : Symbol) (j : ShapeId) :
    (r.grow parent node s).2.get? j =
      if r.nextId = j then some { parent := some parent, own := some (s, r.total parent) }
      else if parent = j then some { node with next := node.next.insert s r.nextId }
      else r.get? j := by
  simp only [grow, drawId, get?, Assoc.get?_insert]

/-- The next number has no shape yet. -/
theorem Trie.get?_nextId (t : r.Trie) : r.get? r.nextId = none := by
  cases h : r.get? r.nextId with
  | none => rfl
  | some n => exact absurd (t.bounded _ n h) (Nat.lt_irrefl _)

theorem Trie.grows_grow (t : r.Trie) (h : r.get? parent = some node) (s : Symbol) :
    Grows r (r.grow parent node s).2 := by
  refine ⟨fun j n hn => ?_, Nat.le_succ _⟩
  rw [get?_grow]
  have hj : r.nextId ≠ j := by
    rintro rfl
    rw [t.get?_nextId] at hn
    cases hn
  rw [if_neg hj]
  by_cases hpj : parent = j
  · subst hpj
    rw [h] at hn
    cases hn
    exact ⟨_, if_pos rfl, rfl, rfl, fun hs => hs⟩
  · exact ⟨n, by rw [if_neg hpj, hn], rfl, rfl, fun hs => hs⟩

/-- A shape of the grown registry is the new one, or an old one but for its steps. -/
theorem node_of_grow (h : r.get? parent = some node) {j : ShapeId}
    (hn : (r.grow parent node s).2.get? j = some n) :
    (j = r.nextId ∧ n = { parent := some parent, own := some (s, r.total parent) }) ∨
      ∃ n₀, r.get? j = some n₀ ∧ n.parent = n₀.parent ∧ n.own = n₀.own := by
  rw [get?_grow] at hn
  split at hn
  · cases hn
    exact .inl ⟨Eq.symm ‹_›, rfl⟩
  · split at hn
    · cases hn
      subst parent
      exact .inr ⟨node, h, rfl, rfl⟩
    · exact .inr ⟨n, hn, rfl, rfl⟩

/-- Growing by a step that is not remembered keeps the tree. -/
theorem Trie.grow (t : r.Trie) (h : r.get? parent = some node)
    (hnew : r.transitions.get? (parent, s) = none) : (r.grow parent node s).2.Trie where
  root := by
    obtain ⟨n, hn, hp, ho⟩ := t.root
    obtain ⟨n', hn', hp', ho', -⟩ := (t.grows_grow h s).node _ n hn
    exact ⟨n', hn', hp'.trans hp, ho'.trans ho⟩
  bounded j n hn := by
    rcases node_of_grow h hn with ⟨rfl, -⟩ | ⟨n₀, hn₀, -⟩
    · exact Nat.lt_succ_self _
    · exact Nat.lt_succ_of_lt (t.bounded j n₀ hn₀)
  step j n hn hj := by
    have hg := t.grows_grow h s
    rcases node_of_grow h hn with ⟨rfl, rfl⟩ | ⟨n₀, hn₀, hp, ho⟩
    · have hk : (r.get? parent).isSome := by rw [h]; rfl
      refine ⟨parent, s, rfl, t.bounded parent node h, hg.isSome_get? hk, ?_⟩
      rw [hg.total_eq t hk]
    · obtain ⟨p, s', hp₀, hlt, hk, ho₀⟩ := t.step j n₀ hn₀ hj
      rw [← hg.total_eq t hk] at ho₀
      exact ⟨p, s', hp.trans hp₀, hlt, hg.isSome_get? hk, ho.trans ho₀⟩
  edge p s' c := by
    have ht : (r.grow parent node s).2.transitions = r.transitions.insert (parent, s) r.nextId := rfl
    rw [ht, Assoc.get?_insert]
    constructor
    · intro hc
      split at hc
      · cases hc
        cases ‹(parent, s) = (p, s')›
        exact ⟨_, (get?_grow r parent node s _).trans (if_pos rfl), rfl, _, rfl⟩
      · obtain ⟨n, hn, hp, k, ho⟩ := (t.edge p s' c).1 hc
        obtain ⟨n', hn', hp', ho', -⟩ := (t.grows_grow h s).node c n hn
        exact ⟨n', hn', hp'.trans hp, k, ho'.trans ho⟩
    · rintro ⟨n, hn, hp, k, ho⟩
      rcases node_of_grow h hn with ⟨rfl, rfl⟩ | ⟨n₀, hn₀, hp₀, ho₀⟩
      · cases hp
        cases ho
        rw [if_pos rfl]
      · have hc : r.transitions.get? (p, s') = some c :=
          (t.edge p s' c).2 ⟨n₀, hn₀, hp₀.symm.trans hp, k, ho₀.symm.trans ho⟩
        split
        · cases ‹(parent, s) = (p, s')›
          rw [hnew] at hc
          cases hc
        · exact hc
  next p n hn s' := by
    have ht : (r.grow parent node s).2.transitions = r.transitions.insert (parent, s) r.nextId := rfl
    rw [ht, Assoc.get?_insert]
    rw [get?_grow] at hn
    split at hn
    · cases hn
      subst p
      -- the new shape has no steps, in neither table: a step would need a known parent
      have hne : ¬ (parent, s) = (r.nextId, s') := by
        rintro ⟨⟩
        exact absurd (t.bounded _ node h) (Nat.lt_irrefl _)
      rw [if_neg hne]
      cases hc : r.transitions.get? (r.nextId, s') with
      | none => rfl
      | some c =>
        obtain ⟨n, hn, hp, -⟩ := (t.edge _ s' c).1 hc
        have hk := (t.parent_known hn hp).2.1
        rw [t.get?_nextId] at hk
        cases hk
    · split at hn
      · cases hn
        subst p
        simp only [Assoc.get?_insert, Prod.mk.injEq, true_and, t.next parent node h s']
      · rename_i hne
        rw [if_neg (fun e => hne (congrArg Prod.fst e))]
        exact t.next p n hn s'

end Grow

/-- The shape that a property is added to: an unknown shape counts as the root. -/
def base (r : ShapeRegistry) (id : ShapeId) : ShapeId := if r.nodes.contains id then id else root

/-- An unknown shape counts as the root, so there is always a shape to begin with. -/
theorem Trie.base_known (t : r.Trie) (id : ShapeId) : ∃ n, r.get? (r.base id) = some n := by
  unfold base
  split
  · exact Option.isSome_iff_exists.1 ‹_›
  · obtain ⟨n, hn, -⟩ := t.root
    exact ⟨n, hn⟩

theorem base_of_known (h : (r.get? id).isSome) : r.base id = id := if_pos h

/-- The three ways to add a property: the shape is sealed, the step is known, the step is new. -/
theorem Trie.addProperty_cases (t : r.Trie) (id : ShapeId) (s : Symbol) :
    ∃ node, r.get? (r.base id) = some node ∧
      ((node.isSealed = true ∧
          r.addProperty id s = ({ shape := r.base id, offset := r.total (r.base id) }, r)) ∨
        (node.isSealed = false ∧ ∃ child, r.transitions.get? (r.base id, s) = some child ∧
          r.addProperty id s = ({ shape := child, offset := r.total (r.base id) }, r)) ∨
        (node.isSealed = false ∧ r.transitions.get? (r.base id, s) = none ∧
          r.addProperty id s = r.grow (r.base id) node s)) := by
  obtain ⟨node, hn⟩ := t.base_known id
  refine ⟨node, hn, ?_⟩
  have hb : (if r.nodes.contains id then id else ShapeRegistry.root) = r.base id := rfl
  cases hs : node.isSealed with
  | true =>
    refine .inl ⟨rfl, ?_⟩
    simp only [ShapeRegistry.addProperty, hb, hn, hs, ↓reduceIte]
  | false =>
    refine .inr ?_
    cases hc : r.transitions.get? (r.base id, s) with
    | none =>
      refine .inr ⟨rfl, rfl, ?_⟩
      simp only [ShapeRegistry.addProperty, hb, hn, hs, hc, Bool.false_eq_true, ↓reduceIte]
    | some child =>
      obtain ⟨n, hn', -, -, ho⟩ := t.edge_node hc
      refine .inl ⟨rfl, child, rfl, ?_⟩
      simp [ShapeRegistry.addProperty, hb, hn, hs, hc, hn', Shape.ownOffset?, ho]

/-- Adding a property changes no shape that was there. -/
theorem Trie.grows_addProperty (t : r.Trie) (id : ShapeId) (s : Symbol) :
    Grows r (r.addProperty id s).2 := by
  obtain ⟨node, hn, ⟨-, h⟩ | ⟨-, child, -, h⟩ | ⟨-, -, h⟩⟩ := t.addProperty_cases id s
  · rw [h]; exact Grows.refl r
  · rw [h]; exact Grows.refl r
  · rw [h]; exact t.grows_grow hn s

/-- Adding a property keeps the tree. -/
theorem Trie.addProperty (t : r.Trie) (id : ShapeId) (s : Symbol) : (r.addProperty id s).2.Trie := by
  obtain ⟨node, hn, ⟨-, h⟩ | ⟨-, child, -, h⟩ | ⟨-, hnew, h⟩⟩ := t.addProperty_cases id s
  · rw [h]; exact t
  · rw [h]; exact t
  · rw [h]; exact t.grow hn hnew

/-- A property added to a known shape leaves the shape as it is, which is then sealed, or leads to
a shape that places it behind all others. -/
theorem Trie.placement (t : r.Trie) (hk : (r.get? id).isSome) (s : Symbol) :
    (r.addProperty id s).1.shape = id ∨
      ((r.addProperty id s).1.offset = r.total id ∧
        ((r.addProperty id s).2.get? (r.addProperty id s).1.shape).isSome ∧
        (r.addProperty id s).2.properties (r.addProperty id s).1.shape =
          (s, r.total id) :: r.properties id) := by
  have hb := base_of_known hk
  obtain ⟨node, hn, ⟨-, h⟩ | ⟨-, child, hc, h⟩ | ⟨-, hnew, h⟩⟩ := t.addProperty_cases id s
  · rw [h]
    exact .inl hb
  · rw [h]
    rw [hb] at hc ⊢
    obtain ⟨n, hn', hp, hlt, ho⟩ := t.edge_node hc
    refine .inr ⟨rfl, by simp [hn'], ?_⟩
    rw [t.properties_step hn' hp hlt, ho]
    rfl
  · rw [h]
    rw [hb] at hn hnew ⊢
    have hg := t.grow hn hnew
    have hchild := (get?_grow r id node s r.nextId).trans (if_pos rfl)
    refine .inr ⟨rfl, ?_, ?_⟩
    · show ((r.grow id node s).2.get? r.nextId).isSome
      rw [hchild]
      rfl
    · show (r.grow id node s).2.properties r.nextId = _
      rw [hg.properties_step hchild rfl (t.bounded id node hn), (t.grows_grow hn s).properties_eq t hk]
      rfl

end ScriptVm.ShapeRegistry
