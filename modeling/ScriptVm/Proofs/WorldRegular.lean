import ScriptVm.Proofs.ShapedObject
import ScriptVm.Proofs.WorldChange

/-!
# Laws of the world

`World.Regular` collects what every reachable world satisfies: symbols and names belong together,
the shapes form a tree, every instance fits its shape, and no two classes share a method table.

`World.MethodCachesRight` says that the method caches hold what a class look-up gives, and
`World.MethodCachesSound` that they do for the classes that there are.

All are kept by every `Change`, and so along every run.
-/

set_option autoImplicit false

namespace ScriptVm

namespace Pool

variable {k : Kind} {α : Type} [Inhabited α]

/-- What holds of all objects holds after an allocation, if it holds of the new object. -/
theorem forall_alloc {P : α → Prop} {p : Pool k α} {a : α} (old : ∀ r, P (p.get r)) (new : P a)
    (r : Ref k) : P ((p.alloc a).2.get r) := by
  unfold alloc get
  simp only [Array.getD_eq_getD_getElem?, Array.getElem?_push]
  split
  · exact new
  · rw [← Array.getD_eq_getD_getElem?]
    exact old r

/-- What holds of all objects holds after a replacement, if it holds of the new object. -/
theorem forall_set {P : α → Prop} {p : Pool k α} {s : Ref k} {a : α} (old : ∀ r, P (p.get r)) (new : P a)
    (r : Ref k) : P ((p.set s a).get r) := by
  unfold set get
  simp only [Array.getD_eq_getD_getElem?, Array.getElem?_setIfInBounds]
  split
  next same =>
    split
    · exact new
    next out =>
      have := old r
      unfold get at this
      rwa [Array.getD_eq_getD_getElem?, Array.getElem?_eq_none (by omega)] at this
  next =>
    rw [← Array.getD_eq_getD_getElem?]
    exact old r

theorem get_of_not_has {p : Pool k α} {r : Ref k} (h : ¬ p.has r) : p.get r = default := by
  unfold get
  rw [Array.getD_eq_getD_getElem?, Array.getElem?_eq_none (Nat.le_of_not_lt h)]
  rfl

omit [Inhabited α] in
theorem has_alloc {p : Pool k α} {a : α} {r : Ref k} :
    (p.alloc a).2.has r ↔ p.has r ∨ r = (p.alloc a).1 := by
  obtain ⟨i⟩ := r
  unfold alloc has
  simp only [Array.size_push, Ref.mk.injEq]
  omega

end Pool

namespace CacheRegistry

variable {α : Type}

/-- An entry of a cache after an insertion is the inserted one or was there before. -/
theorem lookup_insert {c : Cache α} {k k' : CacheKey} {a x : α}
    (h : (c.insert k a).2.lookup k' = some x) : (k' = k ∧ x = a) ∨ c.lookup k' = some x := by
  unfold Cache.insert at h
  split at h
  · simp only [Cache.lookup, Assoc.find_put] at h
    split at h
    next same => exact .inl ⟨same.symm, (Option.some.inj h).symm⟩
    next => exact .inr h
  · exact .inr h

/-- Opening a cache adds at most an empty one. -/
theorem get?_opened {family : Assoc Site (Cache α)} {site site' : Site} {c : Cache α}
    (h : (opened family site).2.get? site' = some c) : family.get? site' = some c ∨ c = {} := by
  unfold opened at h
  split at h
  · exact .inl h
  · simp only [Assoc.get?_insert] at h
    split at h
    · exact .inr (Option.some.inj h).symm
    · exact .inl h

/-- An entry of the caches after a record is the recorded one or was there before. -/
theorem lookup_record {family : Assoc Site (Cache α)} {site site' : Site} {k k' : CacheKey} {a x : α}
    {c : Cache α} (hc : (record family site k a).2.get? site' = some c) (h : c.lookup k' = some x) :
    (k' = k ∧ x = a) ∨ ∃ c₀, family.get? site' = some c₀ ∧ c₀.lookup k' = some x := by
  simp only [record, Assoc.get?_insert] at hc
  split at hc
  next same =>
    cases hc
    rcases lookup_insert h with new | old
    · exact .inl new
    · cases known : family.get? site with
      | none =>
        rw [known] at old
        cases old
      | some c₀ =>
        rw [known] at old
        exact .inr ⟨c₀, same ▸ known, old⟩
  next => exact .inr ⟨c, hc, h⟩

end CacheRegistry

namespace World

open ShapeRegistry

/-- What every world keeps. -/
structure Regular (w : World) : Prop where
  symbols : ∀ name s, w.symbols.lookup name = some s → w.symbols.name s = some name
  shapes : w.shapes.Trie
  rows : ∀ r, ShapedObject.Fits w.shapes (w.heap.objects.get r).fields
  tables : ∀ r, w.heap.classes.has r →
    0 < (w.heap.classes.get r).tableId ∧ (w.heap.classes.get r).tableId < w.shapes.nextId
  distinct : ∀ r r', w.heap.classes.has r → w.heap.classes.has r' →
    (w.heap.classes.get r).tableId = (w.heap.classes.get r').tableId → r = r'

theorem regular_initial (log : Logging) : ({ log } : World).Regular where
  symbols name s h := by cases h
  shapes := trie_initial
  rows r := ShapedObject.fits_empty trie_initial
  tables r h := absurd h (Nat.not_lt_zero _)
  distinct r _ h := absurd h (Nat.not_lt_zero _)

/-- Laying out declared fields keeps the tree of shapes and fits the row. -/
theorem layOut_fits (decls : List FieldDecl) {o : ShapedObject} {r : ShapeRegistry} (t : r.Trie)
    (h : ShapedObject.Fits r o) :
    (layOut decls o r).2.1.Trie ∧ Grows r (layOut decls o r).2.1 ∧
      ShapedObject.Fits (layOut decls o r).2.1 (layOut decls o r).1 := by
  induction decls generalizing o r with
  | nil => exact ⟨t, .refl r, h⟩
  | cons d rest ih =>
    obtain ⟨t₁, g₁, h₁, -⟩ := h.set t d.symbol d.initial
    obtain ⟨t₂, g₂, h₂⟩ := ih t₁ h₁
    exact ⟨t₂, g₁.trans g₂, h₂⟩

namespace Regular

variable {w : World}

/-- The rows still fit when the shapes have grown. -/
theorem rows_grown (h : w.Regular) {shapes : ShapeRegistry} (g : Grows w.shapes shapes) (r : Ref .object) :
    ShapedObject.Fits shapes (w.heap.objects.get r).fields :=
  (h.rows r).grow h.shapes g

/-- The shapes may grow and rows may be written. -/
theorem withRows (h : w.Regular) {shapes : ShapeRegistry} (t : shapes.Trie) (g : Grows w.shapes shapes)
    {objects : Pool .object Instance} (rows : ∀ r, ShapedObject.Fits shapes (objects.get r).fields)
    (log : Logging) : Regular { w with heap := { w.heap with objects }, shapes, log } where
  symbols := h.symbols
  shapes := t
  rows := rows
  tables r hr := ⟨(h.tables r hr).1, Nat.lt_of_lt_of_le (h.tables r hr).2 g.nextId⟩
  distinct := h.distinct

theorem intern (h : w.Regular) (name : Text) : (w.intern name).2.Regular where
  symbols other s hs := by
    have hs : (w.symbols.intern name).2.lookup other = some s := hs
    show (w.symbols.intern name).2.name s = some other
    unfold SymbolTable.intern at hs ⊢
    split at hs
    next => exact h.symbols other s hs
    next hn =>
      simp only [SymbolTable.lookup, Assoc.get?_insert] at hs
      simp only [SymbolTable.name, Array.getElem?_push]
      split at hs
      next same =>
        cases hs
        rw [if_pos rfl, same]
      next =>
        have known := h.symbols other s hs
        have bound : s < w.symbols.names.size := (Array.getElem?_eq_some_iff.1 known).1
        rw [if_neg (Nat.ne_of_lt bound)]
        exact known
  shapes := h.shapes
  rows := h.rows
  tables := h.tables
  distinct := h.distinct

/-- A new class gets a table number that no class has. -/
theorem publish (h : w.Regular) (draft : Class) : (w.publish draft).2.Regular := by
  have new := Pool.get_alloc_self w.heap.classes { draft with tableId := w.shapes.nextId }
  have old := Pool.get_alloc w.heap.classes { draft with tableId := w.shapes.nextId }
  refine ⟨h.symbols, h.shapes.drawId, h.rows_grown (grows_drawId w.shapes), fun r hr => ?_,
    fun r r' hr hr' eq => ?_⟩
  · change 0 < Class.tableId (Pool.get (Pool.alloc _ _).2 r) ∧
      Class.tableId (Pool.get (Pool.alloc _ _).2 r) < w.shapes.nextId + 1
    rcases Pool.has_alloc.1 hr with hr | rfl
    · rw [old r hr]
      exact ⟨(h.tables r hr).1, Nat.lt_succ_of_lt (h.tables r hr).2⟩
    · rw [new]
      obtain ⟨n, root, -⟩ := h.shapes.root
      exact ⟨h.shapes.bounded _ n root, Nat.lt_succ_self _⟩
  · change Class.tableId (Pool.get (Pool.alloc _ _).2 r) =
      Class.tableId (Pool.get (Pool.alloc _ _).2 r') at eq
    rcases Pool.has_alloc.1 hr with hr | rfl <;> rcases Pool.has_alloc.1 hr' with hr' | rfl
    · rw [old r hr, old r' hr'] at eq
      exact h.distinct r r' hr hr' eq
    · rw [old r hr, new] at eq
      exact absurd eq (Nat.ne_of_lt (h.tables r hr).2)
    · rw [new, old r' hr'] at eq
      exact absurd eq.symm (Nat.ne_of_lt (h.tables r' hr').2)
    · rfl

end Regular

theorem Change.regular {w w' : World} (c : Change w w') (h : w.Regular) : w'.Regular := by
  cases c with
  | newObject cls =>
    rw [newObject_eq]
    obtain ⟨t, g, fits⟩ :=
      layOut_fits (w.heap.fieldDecls cls) h.shapes (ShapedObject.fits_empty h.shapes)
    exact h.withRows t g
      (Pool.forall_alloc (P := fun o : Instance => ShapedObject.Fits _ o.fields) (h.rows_grown g) fits) _
  | bareObject cls =>
    exact h.withRows h.shapes (.refl _)
      (Pool.forall_alloc (P := fun o : Instance => ShapedObject.Fits _ o.fields) h.rows
        (ShapedObject.fits_empty h.shapes)) w.log
  | setField r s v =>
    rw [setField_eq]
    obtain ⟨t, g, fits, -⟩ := (h.rows r).set h.shapes s v
    exact h.withRows t g
      (Pool.forall_set (P := fun o : Instance => ShapedObject.Fits _ o.fields) (h.rows_grown g) fits) _
  | setFieldAt r offset s v _ done =>
    obtain ⟨fields, set, rfl⟩ := (setFieldAt?_eq_some_iff ..).1 done
    exact h.withRows h.shapes (.refl _)
      (Pool.forall_set (P := fun o : Instance => ShapedObject.Fits _ o.fields) h.rows
        ((h.rows r).setFieldAt? set).1) w.log
  | publish draft => exact h.publish draft
  | intern name => exact h.intern name
  | sealShape id =>
    exact h.withRows (h.shapes.sealShape id) (grows_sealShape _ id) (h.rows_grown (grows_sealShape _ id)) w.log
  | _ => exact ⟨h.symbols, h.shapes, h.rows, h.tables, h.distinct⟩

theorem Evolves.regular {w w' : World} (e : Evolves w w') (h : w.Regular) : w'.Regular := by
  induction e with
  | refl => exact h
  | tail _ c ih => exact c.regular ih

/-! ## Class look-ups -/

/-- Classes are only added. A new one has a table of its own, and is well made if the others are. -/
theorem Change.classes_cases {w w' : World} (c : Change w w') :
    w'.heap.classes = w.heap.classes ∨ ∃ new : Class, w'.heap.classes = (w.heap.classes.alloc new).2 ∧
      new.tableId = w.shapes.nextId ∧ ((∀ r, (w.heap.classes.get r).WellMade) → new.WellMade) := by
  cases c with
  | newObject cls =>
    refine .inl ?_
    rw [newObject_eq]
    rfl
  | setField r s v =>
    refine .inl ?_
    rw [setField_eq]
  | setFieldAt r offset s v _ done =>
    obtain ⟨fields, -, rfl⟩ := (setFieldAt?_eq_some_iff ..).1 done
    exact .inl rfl
  | publish draft made => exact .inr ⟨_, rfl, rfl, fun all => ⟨(made all).once, (made all).init⟩⟩
  | _ => exact .inl rfl

/-- Classes are never changed. -/
theorem Change.class_eq {w w' : World} (c : Change w w') (r : Ref .cls) (known : w.heap.classes.has r) :
    w'.heap.classes.get r = w.heap.classes.get r := by
  rcases c.classes_cases with same | ⟨new, added, -⟩
  · rw [same]
  · rw [added]
    exact Pool.get_alloc _ _ r known

theorem Change.keeps_class {w w' : World} (c : Change w w') {r : Ref .cls} (known : w.heap.classes.has r) :
    w'.heap.classes.has r := by
  rcases c.classes_cases with same | ⟨new, added, -⟩
  · rw [same]
    exact known
  · rw [added]
    exact Pool.has_alloc.2 (.inl known)

theorem Evolves.class_eq {w w' : World} (e : Evolves w w') {r : Ref .cls} (known : w.heap.classes.has r) :
    w'.heap.classes.get r = w.heap.classes.get r := by
  have kept : w'.heap.classes.has r ∧ w'.heap.classes.get r = w.heap.classes.get r := by
    induction e with
    | refl => exact ⟨known, rfl⟩
    | tail _ c ih => exact ⟨c.keeps_class ih.1, (c.class_eq r ih.1).trans ih.2⟩
  exact kept.2

/-- If every class is well made later on, every one is now. -/
theorem Evolves.wellMade {w w' : World} (e : Evolves w w') (made : ∀ r, (w'.heap.classes.get r).WellMade)
    (r : Ref .cls) : (w.heap.classes.get r).WellMade := by
  by_cases known : w.heap.classes.has r
  · rw [← e.class_eq known]
    exact made r
  · rw [Pool.get_of_not_has known]
    exact Class.wellMade_bare _ _

end World

namespace Heap

/-- What a search along the superclasses finds, it still finds when classes have been added. -/
theorem findSome?_chainFrom {β : Type} {h h' : Heap} (find : Class → Ref .cls → Option β)
    (same : ∀ r, h.classes.has r → h'.classes.get r = h.classes.get r)
    (nowhere : ∀ c, find default c = none) {x : β} (fuel : Nat) (r : Ref .cls)
    (found : (h.chainFrom fuel r).findSome? (fun c => find (h.classes.get c) c) = some x) :
    (h'.chainFrom fuel r).findSome? (fun c => find (h'.classes.get c) c) = some x := by
  induction fuel generalizing r with
  | zero => cases found
  | succ fuel ih =>
    unfold chainFrom at found ⊢
    rw [List.findSome?_cons] at found ⊢
    by_cases known : h.classes.has r
    · rw [same r known]
      split at found
      · exact found
      · cases super : (h.classes.get r).superclass with
        | none =>
          rw [super] at found
          cases found
        | some s =>
          rw [super] at found
          exact ih s found
    · -- A reference that leads nowhere has no superclass and no member.
      rw [Pool.get_of_not_has known, nowhere] at found
      cases found

theorem has_of_findMethod {h : Heap} {r : Ref .cls} {name : Text} {x : Callable × Ref .cls}
    (found : h.findMethod r name = some x) : h.classes.has r := by
  by_cases known : h.classes.has r
  · exact known
  · unfold findMethod chain chainFrom at found
    rw [List.findSome?_cons, Pool.get_of_not_has known] at found
    cases found

end Heap

namespace World

/-- What a class look-up finds stays. -/
theorem Change.findMethod {w w' : World} (c : Change w w') {r : Ref .cls} {name : Text}
    {x : Callable × Ref .cls} (found : w.heap.findMethod r name = some x) :
    w'.heap.findMethod r name = some x :=
  Heap.findSome?_chainFrom (fun c r => (c.ownMethod? name).map (·, r)) c.class_eq (fun _ => rfl)
    (r.index + 1) r found

/-- A key and the method that a class look-up gives for it. -/
def Finds (w : World) (k : CacheKey) (method : Value) : Prop :=
  ∃ name cls found owner, w.symbols.lookup name = some k.symbol ∧
    (w.heap.classes.get cls).tableId = k.shape ∧ w.heap.findMethod cls name = some (found, owner) ∧
    method = found.toValue

/-- The method caches hold what class look-ups give. -/
def MethodCachesRight (w : World) : Prop :=
  ∀ site cache k found, w.caches.methods.get? site = some cache → cache.lookup k = some found →
    w.Finds k found.method

theorem Change.finds {w w' : World} (c : Change w w') {k : CacheKey} {method : Value}
    (h : w.Finds k method) : w'.Finds k method := by
  obtain ⟨name, cls, found, owner, symbol, table, look, rfl⟩ := h
  refine ⟨name, cls, found, owner, c.lookup symbol, ?_, c.findMethod look, rfl⟩
  rw [c.class_eq cls (Heap.has_of_findMethod look)]
  exact table

/-- The method caches stay right. -/
theorem Change.methodCachesRight {w w' : World} (c : Change w w') (h : w.MethodCachesRight) :
    w'.MethodCachesRight := by
  have kept : w'.caches.methods = w.caches.methods → w'.MethodCachesRight := by
    intro same site cache k found hc hk
    rw [same] at hc
    exact c.finds (h site cache k found hc hk)
  cases c with
  | newObject cls =>
    refine kept ?_
    rw [newObject_eq]
  | setField r s v =>
    refine kept ?_
    rw [setField_eq]
  | setFieldAt r offset s v _ done =>
    obtain ⟨fields, -, rfl⟩ := (setFieldAt?_eq_some_iff ..).1 done
    exact kept rfl
  | openMethods site =>
    intro site' cache k found hc hk
    rcases CacheRegistry.get?_opened hc with old | rfl
    · exact h site' cache k found old hk
    · cases hk
  | recordMethod site s name cls owner method symbol found =>
    intro site' cache k x hc hk
    rcases CacheRegistry.lookup_record hc hk with ⟨rfl, rfl⟩ | ⟨c₀, old, hk⟩
    · exact ⟨name, cls, method, owner, symbol, rfl, found, rfl⟩
    · exact h site' c₀ k x old hk
  | clearCaches =>
    intro site cache k found hc
    cases hc
  | _ => exact kept rfl

theorem Evolves.methodCachesRight {w w' : World} (e : Evolves w w') (h : w.MethodCachesRight) :
    w'.MethodCachesRight := by
  induction e with
  | refl => exact h
  | tail _ c ih => exact c.methodCachesRight ih

/-- Only the names and the classes matter for a look-up. -/
theorem Finds.congr {w w' : World} {k : CacheKey} {method : Value} (h : w.Finds k method)
    (symbols : w'.symbols = w.symbols) (classes : w'.heap.classes = w.heap.classes) : w'.Finds k method := by
  obtain ⟨name, cls, method, owner, symbol, table, look, eq⟩ := h
  refine ⟨name, cls, method, owner, symbols ▸ symbol, classes ▸ table, ?_, eq⟩
  exact Heap.findSome?_chainFrom (fun c r => (c.ownMethod? name).map (·, r)) (fun r _ => by rw [classes])
    (fun _ => rfl) (cls.index + 1) cls look

/-- Only the names, the classes and the method caches matter. -/
theorem MethodCachesRight.congr {w w' : World} (h : w.MethodCachesRight) (symbols : w'.symbols = w.symbols)
    (classes : w'.heap.classes = w.heap.classes) (caches : w'.caches.methods = w.caches.methods) :
    w'.MethodCachesRight := by
  intro site cache k found hc hk
  rw [caches] at hc
  exact (h site cache k found hc hk).congr symbols classes

/-- The one method that a regular world finds for a key. -/
theorem Regular.finds_unique {w : World} (h : w.Regular) {s : Symbol} {name : Text} {cls : Ref .cls}
    {method : Value} (symbol : w.symbols.lookup name = some s)
    (finds : w.Finds ⟨s, (w.heap.classes.get cls).tableId⟩ method) :
    ∃ found owner, w.heap.findMethod cls name = some (found, owner) ∧ method = found.toValue := by
  obtain ⟨name', cls', found, owner, symbol', table, look, rfl⟩ := finds
  have names : name' = name := by
    have := h.symbols name' s symbol'
    rw [h.symbols name s symbol] at this
    exact (Option.some.inj this).symm
  have known' := Heap.has_of_findMethod look
  have known : w.heap.classes.has cls := by
    by_cases known : w.heap.classes.has cls
    · exact known
    · rw [Pool.get_of_not_has known] at table
      have := (h.tables cls' known').1
      rw [table] at this
      cases this
  have classes : cls' = cls := h.distinct cls' cls known' known table
  rw [names, classes] at look
  exact ⟨found, owner, look, rfl⟩

/-! ## Caches that are never wrong

A method cache may hold entries for tables that no class has any more. They do no harm, as long as no
class gets the number of such a table again. -/

/-- What the method caches hold is what class look-ups give, for every class that there is, and of no
table that is still to come. -/
def MethodCachesSound (w : World) : Prop :=
  ∀ site cache k found, w.caches.methods.get? site = some cache → cache.lookup k = some found →
    0 < k.shape ∧ k.shape < w.shapes.nextId ∧
      ∀ cls, w.heap.classes.has cls → (w.heap.classes.get cls).tableId = k.shape → w.Finds k found.method

theorem Finds.tableId {w : World} (regular : w.Regular) {k : CacheKey} {method : Value} (h : w.Finds k method) :
    0 < k.shape ∧ k.shape < w.shapes.nextId := by
  obtain ⟨name, cls, found, owner, -, table, look, -⟩ := h
  rw [← table]
  exact regular.tables cls (Heap.has_of_findMethod look)

theorem MethodCachesRight.sound {w : World} (h : w.MethodCachesRight) (regular : w.Regular) :
    w.MethodCachesSound := by
  intro site cache k found hc hk
  have finds := h site cache k found hc hk
  exact ⟨(finds.tableId regular).1, (finds.tableId regular).2, fun _ _ _ => finds⟩

theorem Change.nextId {w w' : World} (c : Change w w') (h : w.Regular) : w.shapes.nextId ≤ w'.shapes.nextId := by
  cases c with
  | newObject cls =>
    rw [newObject_eq]
    exact (layOut_fits (w.heap.fieldDecls cls) h.shapes (ShapedObject.fits_empty h.shapes)).2.1.nextId
  | setField r s v =>
    rw [setField_eq]
    exact ((h.rows r).set h.shapes s v).2.1.nextId
  | setFieldAt r offset s v _ done =>
    obtain ⟨fields, -, rfl⟩ := (setFieldAt?_eq_some_iff ..).1 done
    exact Nat.le_refl _
  | publish draft => exact Nat.le_succ _
  | sealShape id => exact (ShapeRegistry.grows_sealShape _ id).nextId
  | _ => exact Nat.le_refl _

/-- A class is an old one or has a table of its own. -/
theorem Change.has_class {w w' : World} (c : Change w w') {r : Ref .cls} (known : w'.heap.classes.has r) :
    w.heap.classes.has r ∨ (w'.heap.classes.get r).tableId = w.shapes.nextId := by
  rcases c.classes_cases with same | ⟨new, added, table, -⟩
  · rw [same] at known
    exact .inl known
  · rw [added] at known ⊢
    refine (Pool.has_alloc.1 known).imp_right fun fresh => ?_
    rw [fresh, Pool.get_alloc_self]
    exact table

/-- The method caches stay sound. -/
theorem Change.methodCachesSound {w w' : World} (c : Change w w') (regular : w.Regular)
    (h : w.MethodCachesSound) : w'.MethodCachesSound := by
  have old : ∀ site cache k found, w.caches.methods.get? site = some cache → cache.lookup k = some found →
      0 < k.shape ∧ k.shape < w'.shapes.nextId ∧
        ∀ cls, w'.heap.classes.has cls → (w'.heap.classes.get cls).tableId = k.shape →
          w'.Finds k found.method := by
    intro site cache k found hc hk
    obtain ⟨positive, bound, finds⟩ := h site cache k found hc hk
    refine ⟨positive, Nat.lt_of_lt_of_le bound (c.nextId regular), fun cls known table => ?_⟩
    rcases c.has_class known with known | new
    · rw [c.class_eq cls known] at table
      exact c.finds (finds cls known table)
    · exact absurd (table.symm.trans new) (Nat.ne_of_lt bound)
  have kept : w'.caches.methods = w.caches.methods → w'.MethodCachesSound := by
    intro same site cache k found hc
    rw [same] at hc
    exact old site cache k found hc
  cases c with
  | newObject cls =>
    refine kept ?_
    rw [newObject_eq]
  | setField r s v =>
    refine kept ?_
    rw [setField_eq]
  | setFieldAt r offset s v _ done =>
    obtain ⟨fields, -, rfl⟩ := (setFieldAt?_eq_some_iff ..).1 done
    exact kept rfl
  | openMethods site =>
    intro site' cache k found hc hk
    rcases CacheRegistry.get?_opened hc with known | rfl
    · exact old site' cache k found known hk
    · cases hk
  | recordMethod site s name cls owner method symbol found =>
    intro site' cache k x hc hk
    rcases CacheRegistry.lookup_record hc hk with ⟨rfl, rfl⟩ | ⟨c₀, known, hk⟩
    · have finds : w.Finds ⟨s, (w.heap.classes.get cls).tableId⟩ method.toValue :=
        ⟨name, cls, method, owner, symbol, rfl, found, rfl⟩
      exact ⟨(finds.tableId regular).1, (finds.tableId regular).2, fun _ _ _ => finds⟩
    · exact old site' c₀ k x known hk
  | clearCaches =>
    intro site cache k found hc
    cases hc
  | _ => exact kept rfl

theorem Evolves.methodCachesSound {w w' : World} (e : Evolves w w') (regular : w.Regular)
    (h : w.MethodCachesSound) : w'.MethodCachesSound := by
  induction e with
  | refl => exact h
  | tail earlier c ih => exact c.methodCachesSound (Evolves.regular earlier regular) ih

/-- Only the names, the classes, the counter and the method caches matter. -/
theorem MethodCachesSound.congr {w w' : World} (h : w.MethodCachesSound) (symbols : w'.symbols = w.symbols)
    (classes : w'.heap.classes = w.heap.classes) (nextId : w'.shapes.nextId = w.shapes.nextId)
    (caches : w'.caches.methods = w.caches.methods) : w'.MethodCachesSound := by
  intro site cache k found hc hk
  rw [caches] at hc
  obtain ⟨positive, bound, finds⟩ := h site cache k found hc hk
  refine ⟨positive, nextId ▸ bound, fun cls known table => ?_⟩
  rw [classes] at known table
  exact (finds cls known table).congr symbols classes

/-- The method that a sound cache holds for a class is the one that a look-up gives. -/
theorem MethodCachesSound.finds {w : World} (h : w.MethodCachesSound) {site : Site} {cache : Cache FoundMethod}
    {s : Symbol} {cls : Ref .cls} {found : FoundMethod} (hc : w.caches.methods.get? site = some cache)
    (hk : cache.lookup ⟨s, (w.heap.classes.get cls).tableId⟩ = some found) :
    w.Finds ⟨s, (w.heap.classes.get cls).tableId⟩ found.method := by
  obtain ⟨positive, -, finds⟩ := h site cache _ found hc hk
  by_cases known : w.heap.classes.has cls
  · exact finds cls known rfl
  · -- A reference that leads nowhere has the table 0, which no entry is about.
    rw [Pool.get_of_not_has known] at positive
    cases positive

end World

end ScriptVm
