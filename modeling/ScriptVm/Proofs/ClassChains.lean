import ScriptVm.Proofs.GroundedWorlds
import ScriptVm.Proofs.TableNumbers

/-!
# Chains of superclasses

A look-up goes from class to superclass until there is none. `Heap.Search` is this loop without any bound
on its length, so that it can be said that a look-up ends: `World.WellFormed.lookUpsEnd`.

As classes are only added, a class keeps its chain and its constructor: `World.Extends.keeps`.
-/

set_option autoImplicit false

namespace ScriptVm

namespace Heap

variable {h h' : Heap} {r s : Ref .cls} {o : Option (Ref .cls)} {l l' : List (Ref .cls)}

/-- A walk from class to superclass that comes to its end, with the classes that it visits. -/
inductive Walk (h : Heap) : Option (Ref .cls) → List (Ref .cls) → Prop
  | done : Walk h none []
  | visit {r : Ref .cls} {l : List (Ref .cls)} (rest : Walk h (h.classes.get r).superclass l) :
      Walk h (some r) (r :: l)

/-- A loop from class to superclass that comes to its end, with the first thing found. -/
inductive Search {α : Type} (h : Heap) (find : Ref .cls → Option α) : Option (Ref .cls) → Option α → Prop
  | missing : Search h find none none
  | found {r : Ref .cls} {a : α} (here : find r = some a) : Search h find (some r) (some a)
  | next {r : Ref .cls} {a : Option α} (other : find r = none)
      (rest : Search h find (h.classes.get r).superclass a) : Search h find (some r) a

theorem Walk.unique (walk : Walk h o l) (walk' : Walk h o l') : l = l' := by
  induction walk generalizing l' with
  | done =>
    cases walk'
    rfl
  | visit _ ih =>
    cases walk' with
    | visit rest => rw [ih rest]

/-- Searching on a walk is looping until something is found. -/
theorem Walk.search {α : Type} (walk : Walk h o l) (find : Ref .cls → Option α) :
    Search h find o (l.findSome? find) := by
  induction walk with
  | done => exact .missing
  | @visit r l _ ih =>
    cases here : find r with
    | some a =>
      rw [List.findSome?_cons_of_isSome (Option.isSome_of_eq_some here), here]
      exact .found here
    | none =>
      rw [List.findSome?_cons_of_isNone (Option.isNone_iff_eq_none.2 here)]
      exact .next here ih

/-- The fuel of a chain is not used up. -/
theorem Ordered.walk_chainFrom (ordered : h.Ordered) {fuel : Nat} (enough : r.index < fuel) :
    Walk h (some r) (h.chainFrom fuel r) := by
  induction fuel generalizing r with
  | zero => exact absurd enough (Nat.not_lt_zero _)
  | succ fuel ih =>
    refine .visit ?_
    cases super : (h.classes.get r).superclass with
    | none => exact .done
    | some s => exact ih (Nat.lt_of_lt_of_le (ordered r s super) (Nat.le_of_lt_succ enough))

theorem Ordered.walk (ordered : h.Ordered) (r : Ref .cls) : Walk h (some r) (h.chain r) :=
  ordered.walk_chainFrom (Nat.lt_succ_self _)

/-- A walk visits the same classes after classes have been added. -/
theorem Walk.extend (ordered : h.Ordered) (same : ∀ r, h.classes.has r → h'.classes.get r = h.classes.get r)
    (walk : Walk h o l) (known : ∀ r ∈ o, h.classes.has r) : Walk h' o l ∧ ∀ r ∈ l, h.classes.has r := by
  induction walk with
  | done => exact ⟨.done, fun _ mem => nomatch mem⟩
  | @visit r l _ ih =>
    have here := known r rfl
    obtain ⟨walk, later⟩ := ih fun s super => Nat.lt_trans (ordered r s super) here
    rw [← same r here] at walk
    exact ⟨.visit walk, List.forall_mem_cons.2 ⟨here, later⟩⟩

/-- The chain of a class that there is leads to classes that there are. -/
theorem Ordered.has_of_mem_chain (ordered : h.Ordered) (known : h.classes.has r) : ∀ c ∈ h.chain r, h.classes.has c :=
  ((ordered.walk r).extend ordered (fun _ _ => rfl) fun _ here => Option.some.inj here ▸ known).2

/-- Every look-up that starts from the class comes to its end, and its result is what the heap gives. -/
structure LookUpsEnd (h : Heap) (r : Ref .cls) : Prop where
  method : ∀ name,
    Search h (fun c => ((h.classes.get c).ownMethod? name).map (·, c)) (some r) (h.findMethod r name)
  staticMethod : ∀ name,
    Search h (fun c => (h.classes.get c).ownStaticMethod? name) (some r) (h.findStaticMethod r name)
  staticField : ∀ name,
    Search h (fun c => ((h.ownStatics c).get? name).map StaticField.value) (some r) (h.findStaticField r name)
  /-- An assignment to a static field looks for the class that declares it. -/
  staticOwner : ∀ name,
    Search h (Option.guard fun c => (h.ownStatics c).contains name) (some r) (h.staticOwner? r name)
  init : Search h (fun c => (h.classes.get c).constructor) (some r) (h.findConstructor r)
  constField : ∀ s, ∃ d, Search h (fun c => (h.classes.get c).ownField? s) (some r) d ∧
    h.isConstField r s = d.elim false FieldDecl.isConst
  subclass : ∀ other, ∃ found, Search h (Option.guard (· = other)) (some r) found ∧
    h.isSubclass r other = found.isSome
  fields : ∃ l, Walk h (some r) l ∧ h.fieldDecls r = l.reverse.flatMap fun c => (h.classes.get c).fields

theorem Ordered.lookUpsEnd (ordered : h.Ordered) (r : Ref .cls) : h.LookUpsEnd r := by
  have walk := ordered.walk r
  refine ⟨fun _ => walk.search _, fun _ => walk.search _, fun _ => walk.search _, fun name => ?_, walk.search _,
    fun s => ⟨_, walk.search _, ?_⟩, fun other => ⟨_, walk.search _, ?_⟩, _, walk, rfl⟩
  · unfold staticOwner?
    rw [List.find?_eq_findSome?_guard]
    exact walk.search _
  · unfold isConstField
    split <;> simp [*]
  · unfold isSubclass
    rw [← List.find?_eq_findSome?_guard, Bool.eq_iff_iff]
    simp

end Heap

namespace World

open Heap

variable {w w' w'' : World} {r : Ref .cls}

/-- The class `r` inherits from `s` at once. -/
def Inherits (w : World) (r s : Ref .cls) : Prop :=
  w.heap.classes.has r ∧ (w.heap.classes.get r).superclass = some s

/-- What holds of the classes and shapes of a world at any time. -/
structure WellFormed (w : World) : Prop where
  /-- No two classes or shapes share a number. -/
  nodup : w.ids.Nodup
  /-- All numbers have been drawn, so that none is zero. -/
  drawn : ∀ id ∈ w.ids, 0 < id ∧ id < w.shapes.nextId
  /-- The same holds of words of 32 bits, while fewer than `2 ^ 32` numbers have been drawn. -/
  words : w.shapes.nextId ≤ UInt32.size → (w.ids.map UInt32.ofNat).Nodup ∧ 0 ∉ w.ids.map UInt32.ofNat
  /-- A superclass is a class with a smaller number. -/
  smaller : ∀ r s, w.Inherits r s →
    w.heap.classes.has s ∧ (w.heap.classes.get s).tableId < (w.heap.classes.get r).tableId
  acyclic : ∀ r, ¬Relation.TransGen w.Inherits r r
  lookUpsEnd : ∀ r, w.heap.classes.has r → w.heap.LookUpsEnd r
  /-- A class carries its own method `init` as its constructor, if it has one. -/
  carried : ∀ r, w.heap.classes.has r →
    (w.heap.classes.get r).constructor = (w.heap.classes.get r).methods.get? constructorName
  /-- The constructor of a class that has a method `init` of its own is this method. -/
  init : ∀ r f, w.heap.classes.has r → (w.heap.classes.get r).methods.get? constructorName = some f →
    w.heap.findConstructor r = some f

theorem Numbered.wellFormed (numbered : w.Numbered) (grounded : w.Grounded)
    (made : ∀ r, (w.heap.classes.get r).WellMade) : w.WellFormed := by
  have ordered := grounded.heap.ordered
  have smaller : ∀ r s, w.Inherits r s →
      w.heap.classes.has s ∧ (w.heap.classes.get s).tableId < (w.heap.classes.get r).tableId := fun r s h =>
    ⟨Nat.lt_trans (ordered r s h.2) h.1, numbered.increasing s r h.1 (ordered r s h.2)⟩
  have descending : ∀ r s, Relation.TransGen w.Inherits r s →
      (w.heap.classes.get s).tableId < (w.heap.classes.get r).tableId := by
    intro r s way
    induction way with
    | single step => exact (smaller _ _ step).2
    | tail _ step ih => exact Nat.lt_trans (smaller _ _ step).2 ih
  refine ⟨numbered.nodup_ids, fun id => numbered.drawn_ids, numbered.nodup_words, smaller,
    fun r way => Nat.lt_irrefl _ (descending r r way), fun r _ => ordered.lookUpsEnd r,
    fun r _ => (made r).init, fun r f _ own => ?_⟩
  unfold findConstructor chain chainFrom
  rw [List.findSome?_cons, (made r).init, own]

/-! ## Later worlds -/

/-- Classes have been added, and those that there were are as before. -/
structure Extends (w w' : World) : Prop where
  count : w.classCount ≤ w'.classCount
  same : ∀ r, w.heap.classes.has r → w'.heap.classes.get r = w.heap.classes.get r

/-- The class `r` is as before, and so are its superclasses and its constructor. -/
structure Keeps (w w' : World) (r : Ref .cls) : Prop where
  known : w'.heap.classes.has r
  same : w'.heap.classes.get r = w.heap.classes.get r
  chain : w'.heap.chain r = w.heap.chain r
  init : w'.heap.findConstructor r = w.heap.findConstructor r

namespace Extends

theorem of_classes (same : w'.heap.classes = w.heap.classes) : w.Extends w' :=
  ⟨Nat.le_of_eq (congrArg Pool.size same).symm, fun r _ => congrArg (Pool.get · r) same⟩

theorem refl (w : World) : w.Extends w := of_classes rfl

theorem trans (h : w.Extends w') (h' : w'.Extends w'') : w.Extends w'' :=
  ⟨Nat.le_trans h.count h'.count, fun r hr => (h'.same r (Nat.lt_of_lt_of_le hr h.count)).trans (h.same r hr)⟩

theorem publish (w : World) (draft : Class) : w.Extends (w.publish draft).2 :=
  ⟨Nat.le.intro (Array.size_push ..).symm, fun r hr => Pool.get_alloc w.heap.classes _ r hr⟩

theorem keeps (h : w.Extends w') (grounded : w.Grounded) (grounded' : w'.Grounded) (hr : w.heap.classes.has r) :
    w.Keeps w' r := by
  obtain ⟨walk, known⟩ :=
    (grounded.heap.ordered.walk r).extend grounded.heap.ordered h.same fun _ here => Option.some.inj here ▸ hr
  have chain : w'.heap.chain r = w.heap.chain r := (grounded'.heap.ordered.walk r).unique walk
  refine ⟨Nat.lt_of_lt_of_le hr h.count, h.same r hr, chain, ?_⟩
  have own : (w.heap.chain r).map (fun c => (w'.heap.classes.get c).constructor) =
      (w.heap.chain r).map fun c => (w.heap.classes.get c).constructor :=
    List.map_congr_left fun c hc => by rw [h.same c (known c hc)]
  have first := congrArg (List.findSome? id) own
  rw [List.findSome?_map, List.findSome?_map] at first
  unfold findConstructor
  rw [chain]
  exact first

end Extends

theorem Change.extends (c : Change w w') : w.Extends w' := by
  rcases c.publish_cases with same | ⟨draft, rfl⟩
  · exact .of_classes same
  · exact .publish w draft

end World

/-- Classes stay as they have been published, whatever programs and hosts do. -/
theorem Session.law_extends (w : World) : Session.Law w.Extends where
  change change h := h.trans change.extends
  cells _ h := h.trans (.of_classes rfl)
  cleared h := h.trans (.of_classes rfl)

end ScriptVm
