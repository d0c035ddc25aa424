import Mathlib.Data.List.Forall2
import Mathlib.Data.List.Perm.Subperm
import Mathlib.Logic.Relation
import ScriptVm.Heap.Comparison
import ScriptVm.Proofs.TableHistory

/-!
# Equality of values

`Heap.equals` takes two arrays or hashes for equal if they are the same object, and else compares
what they hold. It stops at a depth that depends on the number of containers. Containers that do not
contain themselves are nested less deep than that (`Proper.shallow`), so the bound is never met, and
equality is the plain recursion on what containers hold.

Two hashes are compared in one direction only, after their sizes. Keys stand once, so the other
direction follows (`Table.agree_iff`), and equality is symmetric. Floats apart, it is also reflexive
and transitive, and asking for the same object first makes no difference.

The main result is `Heap.equality_is_structural`.
-/

set_option autoImplicit false

namespace ScriptVm

open Relation

namespace Table

/-- Two tables have the same keys, and their values are related by `E` key by key. -/
def Agree (E : Value → Value → Prop) (t u : Table) : Prop :=
  (∀ k, k ∈ t.keys ↔ k ∈ u.keys) ∧ ∀ k x y, t.get? k = some x → u.get? k = some y → E x y

variable {t u : Table} {k : Key} {x : Value}

theorem Indexed.get?_eq_some_iff (h : t.Indexed) : t.get? k = some x ↔ (k, x) ∈ t.entries.toList := by
  unfold get?
  constructor
  · intro found
    split at found
    next i at' =>
      obtain ⟨-, v, entry⟩ := h.entry at'
      rw [entry] at found
      cases found
      rw [← Array.getElem?_toList] at entry
      exact List.mem_of_getElem? entry
    next => cases found
  · intro mem
    obtain ⟨i, at'⟩ := List.mem_iff_getElem?.1 mem
    rw [Array.getElem?_toList] at at'
    rw [(h k i).2 ⟨x, at'⟩]
    simp only [at', Option.map_some]

theorem Indexed.exists_get? (h : t.Indexed) (mem : k ∈ t.keys) : ∃ x, t.get? k = some x := by
  obtain ⟨⟨k', x⟩, entry, rfl⟩ := List.mem_map.1 mem
  exact ⟨x, h.get?_eq_some_iff.2 entry⟩

theorem Indexed.mem_keys_of_get? (h : t.Indexed) (found : t.get? k = some x) : k ∈ t.keys :=
  List.mem_map.2 ⟨(k, x), h.get?_eq_some_iff.1 found, rfl⟩

/-- Tables of one size agree if everything in the first one has its counterpart in the second. -/
theorem agree_iff (ht : t.Indexed) (hu : u.Indexed) (E : Value → Value → Prop) :
    (t.size = u.size ∧ ∀ e ∈ t.entries.toList, ∃ y, u.get? e.1 = some y ∧ E e.2 y) ↔ Agree E t u := by
  have length : ∀ t : Table, t.keys.length = t.size := fun t => by
    rw [keys, List.length_map, Array.length_toList]
    rfl
  constructor
  · rintro ⟨size, partner⟩
    have sub : t.keys ⊆ u.keys := by
      intro k mem
      obtain ⟨e, entry, rfl⟩ := List.mem_map.1 mem
      obtain ⟨y, found, -⟩ := partner e entry
      exact hu.mem_keys_of_get? found
    -- Keys stand once, so as many keys of `u` are all its keys.
    have perm : t.keys.Perm u.keys :=
      (ht.nodup.subperm sub).perm_of_length_le (by rw [length u, ← size, ← length t]; exact Nat.le_refl _)
    refine ⟨fun k => perm.mem_iff, fun k x y left right => ?_⟩
    obtain ⟨y', found, related⟩ := partner (k, x) (ht.get?_eq_some_iff.1 left)
    cases right.symm.trans found
    exact related
  · rintro ⟨keys, related⟩
    have perm : t.keys.Perm u.keys := (List.perm_ext_iff_of_nodup ht.nodup hu.nodup).2 keys
    refine ⟨by rw [← length, ← length, perm.length_eq], fun e entry => ?_⟩
    obtain ⟨y, found⟩ := hu.exists_get? ((keys e.1).1 (List.mem_map.2 ⟨e, entry, rfl⟩))
    exact ⟨y, found, related e.1 e.2 y (ht.get?_eq_some_iff.2 entry) found⟩

end Table

namespace Heap

variable {h : Heap} {a b c u v : Value} {n m : Nat}

/-! ## What values hold -/

/-- `u` is an item of the array or a value of the hash `v`. -/
inductive Contains (h : Heap) : Value → Value → Prop where
  | item {r : Ref .array} {u : Value} (mem : u ∈ (h.arrays.get r).toList) : Contains h (.array r) u
  | entry {r : Ref .table} {k : Key} {u : Value} (mem : (k, u) ∈ (h.tables.get r).entries.toList) :
    Contains h (.hash r) u

/-- `u` occurs in `v`: as what it contains, or as the receiver of a method. -/
inductive Involves (h : Heap) : Value → Value → Prop where
  | content {v u : Value} (contains : h.Contains v u) : Involves h v u
  | boundTo (r : Ref .bound) : Involves h (.bound r) (h.bounds.get r).receiver
  | methodOf (r : Ref .method) : Involves h (.method r) (h.methods.get r).receiver

/-- The arrays and hashes in `v` do not contain themselves, and the hashes are indexed. -/
structure Proper (h : Heap) (v : Value) : Prop where
  acyclic : ∀ u, ReflTransGen h.Contains v u → ¬TransGen h.Contains u u
  indexed : ∀ r, ReflTransGen h.Contains v (.hash r) → (h.tables.get r).Indexed

/-- No float occurs in `v`. -/
def FloatFree (h : Heap) (v : Value) : Prop := ∀ x, ¬ReflTransGen h.Involves v (.float x)

/-- A proper value in which no float occurs. -/
structure Exact (h : Heap) (v : Value) : Prop extends h.Proper v where
  free : h.FloatFree v

theorem Proper.inner (proper : h.Proper v) (inside : h.Contains v u) : h.Proper u :=
  ⟨fun w reach => proper.acyclic w (.head inside reach), fun r reach => proper.indexed r (.head inside reach)⟩

theorem FloatFree.inner (free : h.FloatFree v) (inside : h.Involves v u) : h.FloatFree u :=
  fun x reach => free x (.head inside reach)

theorem Exact.inner (exact' : h.Exact v) (inside : h.Contains v u) : h.Exact u :=
  ⟨exact'.toProper.inner inside, exact'.free.inner (.content inside)⟩

/-! ## How deep containers are nested -/

/-- Containers in the value are nested less than `n` deep. -/
def Shallow (h : Heap) : Nat → Value → Prop
  | 0, _ => False
  | n + 1, v => ∀ u, h.Contains v u → h.Shallow n u

/-- The position of a container among all arrays and hashes. -/
def position? (h : Heap) : Value → Option Nat
  | .array r => some r.index
  | .hash r => some (h.arrays.size + r.index)
  | _ => none

/-- An array or hash of the heap. -/
def Known (h : Heap) : Value → Prop
  | .array r => h.arrays.has r
  | .hash r => h.tables.has r
  | _ => False

/-- What holds something is in the heap. -/
theorem Contains.known (inside : h.Contains v u) : h.Known v := by
  cases inside with
  | @item r u mem =>
    refine Classical.byContradiction fun unknown => ?_
    rw [Pool.get_of_not_has unknown] at mem
    cases mem
  | @entry r k u mem =>
    refine Classical.byContradiction fun unknown => ?_
    rw [Pool.get_of_not_has unknown] at mem
    cases mem

theorem Known.position (known : h.Known v) : ∃ i, h.position? v = some i ∧ i < h.containers := by
  cases v with
  | array r =>
    have known : r.index < h.arrays.size := known
    exact ⟨_, rfl, by unfold containers; omega⟩
  | hash r =>
    have known : r.index < h.tables.size := known
    exact ⟨_, rfl, by unfold containers; omega⟩
  | _ => cases known

/-- Containers have different positions. -/
theorem Known.eq_of_position (known : h.Known a) (known' : h.Known b) (same : h.position? a = h.position? b) :
    a = b := by
  cases a with
  | array r =>
    have known : r.index < h.arrays.size := known
    cases b with
    | array s => exact congrArg (fun i => Value.array ⟨i⟩) (Option.some.inj same)
    | hash s =>
      have same : r.index = h.arrays.size + s.index := Option.some.inj same
      omega
    | _ => cases known'
  | hash r =>
    cases b with
    | array s =>
      have known' : s.index < h.arrays.size := known'
      have same : h.arrays.size + r.index = s.index := Option.some.inj same
      omega
    | hash s => exact congrArg (fun i => Value.hash ⟨i⟩) (Nat.add_left_cancel (Option.some.inj same))
    | _ => cases known'
  | _ => cases known

/-- Values that do not contain themselves are nested no deeper than there are containers. The proof
goes down from `v` and collects the positions of the containers on the way, which are all different. -/
theorem Proper.shallow_of_way (proper : h.Proper v) {way : List Nat} (distinct : way.Nodup)
    (around : ∀ i ∈ way, i < h.containers ∧ ∃ c, h.position? c = some i ∧ TransGen h.Contains c v)
    (enough : h.containers < way.length + n) : h.Shallow n v := by
  induction n generalizing v way with
  | zero =>
    have bound : way.length ≤ (List.range h.containers).length :=
      (distinct.subperm fun i hi => List.mem_range.2 (around i hi).1).length_le
    rw [List.length_range] at bound
    omega
  | succ n ih =>
    intro u inside
    obtain ⟨i, position, bound⟩ := inside.known.position
    refine ih (proper.inner inside) (?_ : (i :: way).Nodup) ?_ (by rw [List.length_cons]; omega)
    · refine List.nodup_cons.2 ⟨fun again => ?_, distinct⟩
      obtain ⟨-, c, same, reach⟩ := around i again
      obtain ⟨w, first, -⟩ := TransGen.head'_iff.1 reach
      cases first.known.eq_of_position inside.known (same.trans position.symm)
      exact proper.acyclic _ .refl reach
    · intro j hj
      rcases List.mem_cons.1 hj with rfl | hj
      · exact ⟨bound, v, position, .single inside⟩
      · obtain ⟨lt, c, same, reach⟩ := around j hj
        exact ⟨lt, c, same, reach.tail inside⟩

theorem Proper.shallow (proper : h.Proper v) : h.Shallow (h.containers + 1) v :=
  proper.shallow_of_way List.nodup_nil nofun (by rw [List.length_nil]; omega)

/-! ## Equality one level down -/

/-- Equality without a look into containers. -/
def plainEquals (h : Heap) : Value → Value → Bool
  | .int m, .float y => m.toFloat == y
  | .float x, .int n => x == n.toFloat
  | .bound r, .bound s =>
    same (h.bounds.get r).receiver (h.bounds.get s).receiver && (h.bounds.get r).target = (h.bounds.get s).target
  | .method r, .method s =>
    (h.methods.get r).name == (h.methods.get s).name && same (h.methods.get r).receiver (h.methods.get s).receiver
  | a, b => same a b

/-- Equality with `E` between what containers hold. -/
def Level (h : Heap) (E : Value → Value → Prop) : Value → Value → Prop
  | .array r, .array s => r = s ∨ List.Forall₂ E (h.arrays.get r).toList (h.arrays.get s).toList
  | .hash r, .hash s => r = s ∨ Table.Agree E (h.tables.get r) (h.tables.get s)
  | a, b => h.plainEquals a b = true

/-- Two arrays, two hashes, or values that are compared without a look into containers. -/
inductive Pair : Value → Value → Prop where
  | arrays (r s : Ref .array) : Pair (.array r) (.array s)
  | hashes (r s : Ref .table) : Pair (.hash r) (.hash s)
  | plain {a b : Value} (equalsTo : ∀ (h : Heap) (n : Nat), h.equalsTo (n + 1) a b = h.plainEquals a b)
      (level : ∀ (h : Heap) (E : Value → Value → Prop), h.Level E a b ↔ h.plainEquals a b = true)
      (swapped : ∀ (h : Heap) (E : Value → Value → Prop), h.Level E b a ↔ h.plainEquals b a = true) : Pair a b

theorem pair (a b : Value) : Pair a b := by
  cases a with
  | array r =>
    cases b with
    | array s => exact .arrays r s
    | _ => exact .plain (fun _ _ => rfl) (fun _ _ => .rfl) fun _ _ => .rfl
  | hash r =>
    cases b with
    | hash s => exact .hashes r s
    | _ => exact .plain (fun _ _ => rfl) (fun _ _ => .rfl) fun _ _ => .rfl
  | _ => cases b <;> exact .plain (fun _ _ => rfl) (fun _ _ => .rfl) fun _ _ => .rfl

theorem equalsTo_succ (proper : h.Proper a) (proper' : h.Proper b) :
    h.equalsTo (n + 1) a b = true ↔ h.Level (fun x y => h.equalsTo n x y = true) a b := by
  cases pair a b with
  | arrays r s =>
    simp only [equalsTo, Level, Bool.or_eq_true, decide_eq_true_eq, Bool.and_eq_true, beq_iff_eq, List.all_eq_true,
      List.forall₂_iff_zip, Prod.forall]
  | hashes r s =>
    rw [Level, ← Table.agree_iff (proper.indexed r .refl) (proper'.indexed s .refl)]
    simp only [equalsTo, Bool.or_eq_true, decide_eq_true_eq, Bool.and_eq_true, beq_iff_eq, List.all_eq_true]
    refine or_congr_right (and_congr_right fun _ => forall₂_congr fun e _ => ?_)
    cases (h.tables.get s).get? e.1 <;> simp
  | plain equalsTo level => rw [level, equalsTo]

/-- Only the relation between what is contained matters. -/
theorem Level.imp {E F : Value → Value → Prop} (proper : h.Proper a) (proper' : h.Proper b)
    (level : h.Level E a b) (imp : ∀ u v, h.Contains a u → h.Contains b v → E u v → F u v) : h.Level F a b := by
  cases pair a b with
  | arrays r s =>
    refine level.imp_right fun items => ?_
    rw [List.forall₂_iff_zip] at items ⊢
    refine ⟨items.1, fun {x y} pair => ?_⟩
    obtain ⟨left, right⟩ := List.of_mem_zip pair
    exact imp x y (.item left) (.item right) (items.2 pair)
  | hashes r s =>
    have left := proper.indexed r .refl
    have right := proper'.indexed s .refl
    refine level.imp_right fun ⟨keys, values⟩ => ⟨keys, fun k x y found found' => ?_⟩
    exact imp x y (.entry (left.get?_eq_some_iff.1 found)) (.entry (right.get?_eq_some_iff.1 found'))
      (values k x y found found')
  | plain _ same => exact (same h F).2 ((same h E).1 level)

/-- Below the bound the depth makes no difference. -/
theorem Shallow.equalsTo_eq (shallow : h.Shallow n a) (proper : h.Proper a) (proper' : h.Proper b) (le : n ≤ m) :
    h.equalsTo m a b = h.equalsTo n a b := by
  induction n generalizing m a b with
  | zero => exact shallow.elim
  | succ n ih =>
    obtain ⟨m, rfl⟩ : ∃ k, m = k + 1 := ⟨m - 1, by omega⟩
    have inner : ∀ u v, h.Contains a u → h.Contains b v → h.equalsTo m u v = h.equalsTo n u v := fun u v left right =>
      ih (shallow u left) (proper.inner left) (proper'.inner right) (by omega)
    rw [Bool.eq_iff_iff, equalsTo_succ proper proper', equalsTo_succ proper proper']
    exact ⟨fun level => level.imp proper proper' fun u v left right same => inner u v left right ▸ same,
      fun level => level.imp proper proper' fun u v left right same => (inner u v left right).symm ▸ same⟩

/-- Equality is a plain recursion on what values contain. -/
theorem equals_iff (proper : h.Proper a) (proper' : h.Proper b) :
    h.equals a b = true ↔ h.Level (fun x y => h.equals x y = true) a b := by
  have inner : ∀ u v, h.Contains a u → h.Contains b v → h.equals u v = h.equalsTo (h.containers + 1) u v :=
    fun u v left right =>
      (proper.inner left).shallow.equalsTo_eq (proper.inner left) (proper'.inner right) (Nat.le_succ _)
  rw [equals, equalsTo_succ proper proper']
  exact ⟨fun level => level.imp proper proper' fun u v left right same => (inner u v left right).trans same,
    fun level => level.imp proper proper' fun u v left right same => (inner u v left right).symm.trans same⟩

/-! ## Symmetry -/

open Float.Model in
/-- Two floats compared the other way round compare the other way round. -/
theorem compare_float_swap (a b : UnpackedFloat) : b.compare a = (a.compare b).map Ordering.swap := by
  have signs : ∀ s t : UnpackedFloat.Sign, compare t s = (compare s t).swap := by
    intro s t
    cases s <;> cases t <;> rfl
  have sizes : ∀ (m n : Nat) (d e : Int),
      (compare e d).then (compare n m) = ((compare d e).then (compare m n)).swap := by
    intro m n d e
    have exponents : compare e d = (compare d e).swap := Std.OrientedCmp.eq_swap
    have significands : compare n m = (compare m n).swap := Std.OrientedCmp.eq_swap
    rw [Ordering.swap_then, exponents, significands]
  cases a with
  | notANumber => cases b <;> rfl
  | zero s =>
    cases b with
    | finite t => cases t <;> rfl
    | infinity t => cases t <;> rfl
    | _ => rfl
  | infinity s =>
    cases b with
    | infinity t => exact congrArg some (signs s t)
    | _ => cases s <;> rfl
  | finite s m d =>
    cases b with
    | finite t n e =>
      cases s <;> cases t
      · exact congrArg (fun o => some (Ordering.swap o)) (sizes m n d e)
      · rfl
      · rfl
      · exact congrArg some (sizes m n d e)
    | infinity t => cases t <;> rfl
    | _ => cases s <;> rfl

/-- Equality of floats is symmetric. -/
theorem float_beq_comm (x y : Float) : (x == y) = (y == x) := by
  have swapped := compare_float_swap x.toModel.unpack y.toModel.unpack
  show (x.toModel.unpack.compare y.toModel.unpack == some .eq) =
    (y.toModel.unpack.compare x.toModel.unpack == some .eq)
  rw [swapped]
  cases x.toModel.unpack.compare y.toModel.unpack with
  | none => rfl
  | some o => cases o <;> rfl

theorem same_comm (a b : Value) : same a b = same b a := by
  cases a <;> cases b <;> simp only [same, eq_comm, BEq.comm, float_beq_comm]

theorem plainEquals_comm (a b : Value) : h.plainEquals a b = h.plainEquals b a := by
  cases a with
  | int m =>
    cases b with
    | float y => exact float_beq_comm _ _
    | _ => simp only [plainEquals, same_comm (.int m)]
  | float x =>
    cases b with
    | int n => exact float_beq_comm _ _
    | _ => simp only [plainEquals, same_comm (.float x)]
  | bound r =>
    cases b with
    | bound s =>
      simp only [plainEquals, same_comm (h.bounds.get r).receiver, eq_comm (a := (h.bounds.get r).target)]
    | _ => simp only [plainEquals, same_comm (.bound r)]
  | method r =>
    cases b with
    | method s =>
      simp only [plainEquals, same_comm (h.methods.get r).receiver, BEq.comm (a := (h.methods.get r).name)]
    | _ => simp only [plainEquals, same_comm (.method r)]
  | _ => cases b <;> simp only [plainEquals, same_comm]

theorem Level.symm {E : Value → Value → Prop} (level : h.Level (fun x y => E y x) a b) : h.Level E b a := by
  cases pair a b with
  | arrays r s => exact Or.imp Eq.symm List.Forall₂.flip level
  | hashes r s =>
    exact Or.imp Eq.symm (fun ⟨keys, values⟩ =>
      ⟨fun k => (keys k).symm, fun k x y found found' => values k y x found' found⟩) level
  | plain _ same swapped =>
    rw [swapped, plainEquals_comm]
    exact (same h _).1 level

theorem equalsTo_comm (proper : h.Proper a) (proper' : h.Proper b) : h.equalsTo n a b = h.equalsTo n b a := by
  induction n generalizing a b with
  | zero => rfl
  | succ n ih =>
    have inner : ∀ u v, h.Contains a u → h.Contains b v → h.equalsTo n u v = h.equalsTo n v u := fun u v left right =>
      ih (proper.inner left) (proper'.inner right)
    rw [Bool.eq_iff_iff, equalsTo_succ proper proper', equalsTo_succ proper' proper]
    constructor
    · intro level
      exact Level.symm (level.imp proper proper' fun u v left right same => inner u v left right ▸ same)
    · intro level
      exact Level.symm (level.imp proper' proper fun v u right left same => (inner u v left right).symm ▸ same)

/-! ## Values without floats -/

/-- What decides about the equality of values that hold nothing. -/
inductive Essence where
  | plain (v : Value)
  | bound (receiver : Value) (target : Callable)
  | method (name : Text) (receiver : Value)

def essence (h : Heap) : Value → Essence
  | .bound r => .bound (h.bounds.get r).receiver (h.bounds.get r).target
  | .method r => .method (h.methods.get r).name (h.methods.get r).receiver
  | v => .plain v

/-- Floats apart, values are the same if they are equal as references and data. -/
theorem same_iff_eq (number : ∀ x, a ≠ .float x) : same a b = true ↔ a = b := by
  cases a with
  | float x => exact absurd rfl (number x)
  | _ => cases b <;> simp [same]

theorem FloatFree.ne (free : h.FloatFree v) (x : Float) : v ≠ .float x := by
  rintro rfl
  exact free x .refl

theorem plainEquals_iff (free : h.FloatFree a) (free' : h.FloatFree b) :
    h.plainEquals a b = true ↔ h.essence a = h.essence b := by
  cases a with
  | float x => exact absurd rfl (free.ne x)
  | bound r =>
    have receiver := (free.inner (.boundTo r)).ne
    cases b with
    | float y => exact absurd rfl (free'.ne y)
    | bound s =>
      simp only [plainEquals, essence, Bool.and_eq_true, same_iff_eq receiver, decide_eq_true_eq, Essence.bound.injEq]
    | _ => simp [plainEquals, same, essence]
  | method r =>
    have receiver := (free.inner (.methodOf r)).ne
    cases b with
    | float y => exact absurd rfl (free'.ne y)
    | method s =>
      simp only [plainEquals, essence, Bool.and_eq_true, same_iff_eq receiver, beq_iff_eq, Essence.method.injEq]
    | _ => simp [plainEquals, same, essence]
  | _ =>
    cases b with
    | float y => exact absurd rfl (free'.ne y)
    | _ => simp [plainEquals, same, essence]

theorem plainEquals_trans (free : h.FloatFree a) (free' : h.FloatFree b) (free'' : h.FloatFree c)
    (left : h.plainEquals a b = true) (right : h.plainEquals b c = true) : h.plainEquals a c = true :=
  (plainEquals_iff free free'').2
    (((plainEquals_iff free free').1 left).trans ((plainEquals_iff free' free'').1 right))

/-- What equals an array or hash without a look into it is that array or hash. -/
theorem eq_of_plainEquals (known : (h.position? b).isSome) (equal : h.plainEquals a b = true) : a = b := by
  cases b with
  | array r => cases a <;> simp_all [plainEquals, same]
  | hash r => cases a <;> simp_all [plainEquals, same]
  | _ => cases known

/-- A look into containers finds no more differences. -/
theorem level_of_plainEquals {E : Value → Value → Prop} (equal : h.plainEquals a b = true) : h.Level E a b := by
  cases pair a b with
  | arrays r s => exact .inl (by simpa [plainEquals, same] using equal)
  | hashes r s => exact .inl (by simpa [plainEquals, same] using equal)
  | plain _ level _ => exact (level h E).2 equal

/-- Equality is transitive if it is so between what is contained. -/
theorem Level.trans {E : Value → Value → Prop} (ha : h.Exact a) (hb : h.Exact b) (hc : h.Exact c)
    (left : h.Level E a b) (right : h.Level E b c)
    (trans : ∀ u v w, h.Contains a u → h.Contains b v → h.Contains c w → E u v → E v w → E u w) : h.Level E a c := by
  cases pair a b with
  | arrays r s =>
    cases pair (.array s) c with
    | arrays _ t =>
      rcases left with rfl | left
      · exact right
      rcases right with rfl | right
      · exact .inr left
      refine .inr (List.forall₂_iff_get.2 ⟨left.length_eq.trans right.length_eq, fun i bound bound' => ?_⟩)
      have bound'' := left.length_eq ▸ bound
      exact trans _ _ _ (.item (List.get_mem _ ⟨i, bound⟩)) (.item (List.get_mem _ ⟨i, bound''⟩))
        (.item (List.get_mem _ ⟨i, bound'⟩)) (left.get bound bound'') (right.get bound'' bound')
    | plain _ level _ =>
      have equal := (level h E).1 right
      rw [plainEquals_comm] at equal
      cases eq_of_plainEquals rfl equal
      exact left
  | hashes r s =>
    cases pair (.hash s) c with
    | hashes _ t =>
      rcases left with rfl | ⟨keys, values⟩
      · exact right
      rcases right with rfl | ⟨keys', values'⟩
      · exact .inr ⟨keys, values⟩
      have hr := ha.indexed r .refl
      have hs := hb.indexed s .refl
      have ht := hc.indexed t .refl
      refine .inr ⟨fun k => (keys k).trans (keys' k), fun k x z found found'' => ?_⟩
      obtain ⟨y, found'⟩ := hs.exists_get? ((keys k).1 (hr.mem_keys_of_get? found))
      exact trans x y z (.entry (hr.get?_eq_some_iff.1 found)) (.entry (hs.get?_eq_some_iff.1 found'))
        (.entry (ht.get?_eq_some_iff.1 found'')) (values k x y found found') (values' k y z found' found'')
    | plain _ level _ =>
      have equal := (level h E).1 right
      rw [plainEquals_comm] at equal
      cases eq_of_plainEquals rfl equal
      exact left
  | plain _ level _ =>
    have equal := (level h E).1 left
    cases pair b c with
    | arrays s t =>
      cases eq_of_plainEquals rfl equal
      exact right
    | hashes s t =>
      cases eq_of_plainEquals rfl equal
      exact right
    | plain _ level' _ =>
      have equal' := (level' h E).1 right
      exact level_of_plainEquals (plainEquals_trans ha.free hb.free hc.free equal equal')

theorem equalsTo_trans (ha : h.Exact a) (hb : h.Exact b) (hc : h.Exact c) (left : h.equalsTo n a b = true)
    (right : h.equalsTo n b c = true) : h.equalsTo n a c = true := by
  induction n generalizing a b c with
  | zero => cases left
  | succ n ih =>
    rw [equalsTo_succ ha.toProper hb.toProper] at left
    rw [equalsTo_succ hb.toProper hc.toProper] at right
    rw [equalsTo_succ ha.toProper hc.toProper]
    exact left.trans ha hb hc right fun u v w hu hv hw => ih (ha.inner hu) (hb.inner hv) (hc.inner hw)

/-- Where no float occurs the same object is equal to itself. -/
theorem equals_of_same (free : h.FloatFree a) (same : same a b = true) : h.equals a b = true := by
  cases (same_iff_eq free.ne).1 same
  have plain := (plainEquals_iff free free).2 rfl
  cases pair a a with
  | arrays r _ => simp [equals, equalsTo]
  | hashes r _ => simp [equals, equalsTo]
  | plain equal _ _ => exact (equal h _).trans plain

theorem same_self (free : h.FloatFree a) : same a a = true := (same_iff_eq free.ne).2 rfl

/-- Where no float occurs, arrays are compared item by item. -/
theorem equals_array_iff {r s : Ref .array} (hr : h.Exact (.array r)) (hs : h.Exact (.array s)) :
    h.equals (.array r) (.array s) = true ↔
      (h.arrays.get r).size = (h.arrays.get s).size ∧
        ∀ (i : Nat) x y, (h.arrays.get r)[i]? = some x → (h.arrays.get s)[i]? = some y → h.equals x y = true := by
  rw [equals_iff hr.toProper hs.toProper]
  constructor
  · rintro (rfl | items)
    · refine ⟨rfl, fun i x y found found' => ?_⟩
      cases found.symm.trans found'
      rw [← Array.getElem?_toList] at found
      have inside : h.Contains (.array r) x := .item (List.mem_of_getElem? found)
      exact equals_of_same (hr.inner inside).free (same_self (hr.inner inside).free)
    · obtain ⟨length, items⟩ := List.forall₂_iff_get.1 items
      refine ⟨length, fun i x y found found' => ?_⟩
      obtain ⟨bound, rfl⟩ := Array.getElem?_eq_some_iff.1 found
      obtain ⟨bound', rfl⟩ := Array.getElem?_eq_some_iff.1 found'
      exact items i bound bound'
  · rintro ⟨size, items⟩
    refine .inr (List.forall₂_iff_get.2 ⟨size, fun i bound bound' => ?_⟩)
    exact items i _ _ (Array.getElem?_eq_getElem bound) (Array.getElem?_eq_getElem bound')

/-- Where no float occurs, hashes are compared key by key. -/
theorem equals_hash_iff {r s : Ref .table} (hr : h.Exact (.hash r)) (hs : h.Exact (.hash s)) :
    h.equals (.hash r) (.hash s) = true ↔
      Table.Agree (fun x y => h.equals x y = true) (h.tables.get r) (h.tables.get s) := by
  rw [equals_iff hr.toProper hs.toProper]
  constructor
  · rintro (rfl | agree)
    · refine ⟨fun _ => .rfl, fun k x y found found' => ?_⟩
      cases found.symm.trans found'
      have inside : h.Contains (.hash r) x := .entry ((hr.indexed r .refl).get?_eq_some_iff.1 found)
      exact equals_of_same (hr.inner inside).free (same_self (hr.inner inside).free)
    · exact agree
  · exact .inr

/-- The order in which the entries of a hash came does not matter. -/
theorem equals_of_perm {r s : Ref .table} (hr : h.Exact (.hash r)) (hs : h.Exact (.hash s))
    (perm : (h.tables.get r).entries.toList.Perm (h.tables.get s).entries.toList) :
    h.equals (.hash r) (.hash s) = true := by
  refine (equals_hash_iff hr hs).2 ⟨fun k => (perm.map Prod.fst).mem_iff, fun k x y found found' => ?_⟩
  have entry := (hr.indexed r .refl).get?_eq_some_iff.1 found
  have hx := hr.inner (.entry entry)
  have found'' := (hs.indexed s .refl).get?_eq_some_iff.2 (perm.mem_iff.1 entry)
  cases found'.symm.trans found''
  exact equals_of_same hx.free (same_self hx.free)

/-- Values are exact if containers have a rank above that of what they hold. -/
theorem exact_of_rank (rank : Value → Nat) (down : ∀ v u, h.Contains v u → rank u < rank v)
    (indexed : ∀ r, (h.tables.get r).Indexed) (inside : ∀ v x, ¬h.Involves v (.float x)) (outside : ∀ x, v ≠ .float x) :
    h.Exact v := by
  refine ⟨⟨fun u _ loop => ?_, fun r _ => indexed r⟩, fun x reach => ?_⟩
  · have below : ∀ w, TransGen h.Contains u w → rank w < rank u := by
      intro w reach
      induction reach with
      | single step => exact down _ _ step
      | tail _ step ih => exact Nat.lt_trans (down _ _ step) ih
    exact Nat.lt_irrefl _ (below u loop)
  · rcases ReflTransGen.cases_tail reach with same | ⟨w, -, last⟩
    · exact outside x same.symm
    · exact inside w x last

/-- Equality is symmetric on values whose containers do not contain themselves. Where no float
occurs it is an equivalence that contains identity, which is one as well. Arrays are then equal if
they have equal items at the same places, and hashes if they have equal values under the same keys:
neither the order of the entries nor which objects hold them matters. -/
theorem equality_is_structural (h : Heap) :
    (∀ a b, h.Proper a → h.Proper b → h.equals a b = h.equals b a) ∧
    Equivalence (fun a b : { v // h.Exact v } => h.equals a b = true) ∧
    Equivalence (fun a b : { v // h.FloatFree v } => same a b = true) ∧
    (∀ a b, h.FloatFree a → h.FloatFree b → same a b = true → h.equals a b = true) ∧
    (∀ r s, h.Exact (.array r) → h.Exact (.array s) →
      (h.equals (.array r) (.array s) = true ↔
        (h.arrays.get r).size = (h.arrays.get s).size ∧
          ∀ (i : Nat) x y, (h.arrays.get r)[i]? = some x → (h.arrays.get s)[i]? = some y → h.equals x y = true)) ∧
    (∀ r s, h.Exact (.hash r) → h.Exact (.hash s) →
      (h.equals (.hash r) (.hash s) = true ↔
        (∀ k, k ∈ (h.tables.get r).keys ↔ k ∈ (h.tables.get s).keys) ∧
          ∀ k x y, (h.tables.get r).get? k = some x → (h.tables.get s).get? k = some y → h.equals x y = true)) ∧
    (∀ r s c, h.Exact (.array r) → h.Exact (.array s) → h.Exact c → h.arrays.get r = h.arrays.get s →
      h.equals (.array r) c = h.equals (.array s) c) ∧
    (∀ r s c, h.Exact (.hash r) → h.Exact (.hash s) → h.Exact c →
      (h.tables.get r).entries.toList.Perm (h.tables.get s).entries.toList →
      h.equals (.hash r) c = h.equals (.hash s) c) := by
  have trans : ∀ {a b c}, h.Exact a → h.Exact b → h.Exact c → h.equals a b = true → h.equals b c = true →
      h.equals a c = true := fun ha hb hc => equalsTo_trans ha hb hc
  have comm : ∀ {a b}, h.Proper a → h.Proper b → h.equals a b = h.equals b a := fun ha hb => equalsTo_comm ha hb
  -- Equal values compare alike with every other value.
  have alike : ∀ {a b c}, h.Exact a → h.Exact b → h.Exact c → h.equals a b = true → h.equals a c = h.equals b c :=
    fun ha hb hc equal => Bool.eq_iff_iff.2
      ⟨trans hb ha hc ((comm hb.toProper ha.toProper).trans equal), trans ha hb hc equal⟩
  refine ⟨fun a b => comm, ⟨?_, ?_, ?_⟩, ⟨?_, ?_, ?_⟩, fun a b free _ => equals_of_same free, ?_, ?_, ?_, ?_⟩
  · exact fun a => equals_of_same a.2.free (same_self a.2.free)
  · exact fun {a b} equal => (comm b.2.toProper a.2.toProper).trans equal
  · exact fun {a b c} left right => trans a.2 b.2 c.2 left right
  · exact fun a => same_self a.2
  · exact fun {a b} same => (same_comm b.1 a.1).trans same
  · intro a b c left right
    rw [(same_iff_eq a.2.ne).1 left]
    exact right
  · exact fun r s => equals_array_iff
  · exact fun r s => equals_hash_iff
  · intro r s c hr hs hc items
    refine alike hr hs hc ((equals_array_iff hr hs).2 ⟨by rw [items], fun i x y found found' => ?_⟩)
    cases found.symm.trans (items ▸ found')
    have inside : h.Contains (.array s) x := .item (List.mem_of_getElem? (Array.getElem?_toList ▸ found'))
    exact equals_of_same (hs.inner inside).free (same_self (hs.inner inside).free)
  · exact fun r s c hr hs hc perm => alike hr hs hc (equals_of_perm hr hs perm)

/-- Two hashes with the same entries in different orders, one of which shares an array with a third
container. -/
def twins : Heap :=
  { arrays := { items := #[#[.int 1], #[.int 1], #[.hash ⟨0⟩, .array ⟨0⟩], #[.hash ⟨1⟩, .array ⟨1⟩]] }
    tables :=
      { items := #[Table.ofList [(.text "a", .array ⟨0⟩), (.int 2, .null)],
          Table.ofList [(.int 2, .null), (.text "a", .array ⟨1⟩)]] } }

theorem twins_contains (inside : twins.Contains v u) :
    (∃ i < 2, v = .array ⟨i⟩ ∧ u = .int 1) ∨ (∃ i < 2, v = .hash ⟨i⟩ ∧ (u = .array ⟨i⟩ ∨ u = .null)) ∨
      ∃ i < 2, v = .array ⟨i + 2⟩ ∧ (u = .hash ⟨i⟩ ∨ u = .array ⟨i⟩) := by
  have known := inside.known
  cases inside with
  | @item r u mem =>
    rcases r with ⟨_ | _ | _ | _ | i⟩
    case succ.succ.succ.succ => exact absurd (show i + 4 < 4 from known) (by omega)
    all_goals
      simp [twins, Pool.get] at mem
      simp [mem]
  | @entry r k u mem =>
    rcases r with ⟨_ | _ | i⟩
    · change (k, u) ∈ [(Key.text "a", Value.array ⟨0⟩), (.int 2, .null)] at mem
      simp only [List.mem_cons, List.not_mem_nil, or_false] at mem
      rcases mem with ⟨-, rfl⟩ | ⟨-, rfl⟩ <;> simp
    · change (k, u) ∈ [(Key.int 2, Value.null), (.text "a", .array ⟨1⟩)] at mem
      simp only [List.mem_cons, List.not_mem_nil, or_false] at mem
      rcases mem with ⟨-, rfl⟩ | ⟨-, rfl⟩ <;> simp
    · exact absurd (show i + 2 < 2 from known) (by omega)

theorem exact_twins (outside : ∀ x, v ≠ .float x) : twins.Exact v := by
  let rank : Value → Nat := fun
    | .array r => if 2 ≤ r.index then 3 else 1
    | .hash _ => 2
    | _ => 0
  refine exact_of_rank rank (fun v u inside => ?_) ?_ (fun v x inside => ?_) outside
  · rcases twins_contains inside with ⟨i, hi, rfl, rfl⟩ | ⟨i, hi, rfl, rfl | rfl⟩ | ⟨i, hi, rfl, rfl | rfl⟩ <;>
      simp [rank, Nat.not_le.2 hi]
  · rintro ⟨_ | _ | i⟩
    · exact (Table.shows_ofList _).indexed
    · exact (Table.shows_ofList _).indexed
    · exact Table.indexed_empty
  · generalize float : Value.float x = u at inside
    cases inside with
    | content inside =>
      rcases twins_contains inside with ⟨i, hi, rfl, rfl⟩ | ⟨i, hi, rfl, rfl | rfl⟩ | ⟨i, hi, rfl, rfl | rfl⟩ <;>
        cases float
    | boundTo r => cases float
    | methodOf r => cases float

/-- The two outer arrays are equal: their first items are hashes that hold equal arrays under one key
and came to their entries in different orders. -/
theorem equality_is_structural_on_twins :
    twins.Exact (.array ⟨2⟩) ∧ twins.Exact (.array ⟨3⟩) ∧ same (.array ⟨2⟩) (.array ⟨3⟩) = false ∧
      twins.equals (.array ⟨2⟩) (.array ⟨3⟩) = true ∧ twins.equals (.array ⟨3⟩) (.array ⟨2⟩) = true := by
  have array : ∀ r, twins.Exact (.array r) := fun r => exact_twins nofun
  have hash : ∀ r, twins.Exact (.hash r) := fun r => exact_twins nofun
  have one : twins.Exact (.int 1) := exact_twins nofun
  have null : twins.Exact .null := exact_twins nofun
  obtain ⟨comm, -, -, contained, arrays, hashes, -, -⟩ := equality_is_structural twins
  have inner : twins.equals (.array ⟨0⟩) (.array ⟨1⟩) = true := by
    refine (arrays _ _ (array _) (array _)).2 ⟨rfl, fun i x y found found' => ?_⟩
    rcases i with _ | i
    · cases found
      cases found'
      exact contained _ _ one.free one.free rfl
    · cases found
  have entries : twins.equals (.hash ⟨0⟩) (.hash ⟨1⟩) = true := by
    have keys : (twins.tables.get ⟨0⟩).keys = [.text "a", .int 2] := rfl
    have keys' : (twins.tables.get ⟨1⟩).keys = [.int 2, .text "a"] := rfl
    refine (hashes _ _ (hash _) (hash _)).2 ⟨fun k => by simp [keys, keys', or_comm], fun k x y found found' => ?_⟩
    have mem := ((hash ⟨0⟩).indexed _ .refl).mem_keys_of_get? found
    rw [keys] at mem
    simp only [List.mem_cons, List.not_mem_nil, or_false] at mem
    rcases mem with rfl | rfl
    · cases found
      cases found'
      exact inner
    · cases found
      cases found'
      exact contained _ _ null.free null.free rfl
  have outer : twins.equals (.array ⟨2⟩) (.array ⟨3⟩) = true := by
    refine (arrays _ _ (array _) (array _)).2 ⟨rfl, fun i x y found found' => ?_⟩
    rcases i with _ | _ | i
    · cases found
      cases found'
      exact entries
    · cases found
      cases found'
      exact inner
    · cases found
  exact ⟨array _, array _, rfl, outer, (comm _ _ (array _).toProper (array _).toProper).trans outer⟩

end Heap

end ScriptVm
