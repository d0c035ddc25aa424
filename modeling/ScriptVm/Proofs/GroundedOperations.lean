import ScriptVm.Proofs.GroundedWorlds

/-!
# Operations that keep machines grounded

A machine is grounded if all references to classes in its world, its stack, its iterations and its
globals lead to classes. `Exec.Grounds n x` says that `x` keeps machines grounded, and gives a grounded
result, if what it uses refers to no class beyond the first `n`.

One lemma for each operation that instructions are made of, up to native functions.
-/

set_option autoImplicit false

namespace ScriptVm

open Referring

instance : Referring Frame := nowhere
instance : Referring Config := nowhere
instance : Referring Instruction := nowhere

instance : Referring Iteration where
  Below n
    | .live _ _ => True
    | .snapshot rest => Below n rest
  mono {n k it} le h := by
    cases it with
    | live r i => trivial
    | snapshot rest => exact mono le (show Below n rest from h)

instance : Referring Reentry where
  Below n
    | .call _ callee args => Below n (callee :: args)
    -- nothing comes of such a call but null
    | .own _ => True
  mono {n k r} le h := by
    cases r with
    | call _ callee args => exact mono le (show Below n (callee :: args) from h)
    | own c => trivial

instance : Referring NativeAnswer where
  Below n
    | .value v => Below n v
    | .reenter r => Below n r
  mono {n k a} le h := by
    cases a with
    | value v => exact mono le (show Below n v from h)
    | reenter r => exact mono le (show Below n r from h)

instance : Referring Progress where
  Below n
    | .next => True
    | .returned v => Below n v
    | .reenter r => Below n r
  mono {n k p} le h := by
    cases p with
    | next => trivial
    | returned v => exact mono le (show Below n v from h)
    | reenter r => exact mono le (show Below n r from h)

/-- The references to classes in the machine are below the bound. -/
structure Machine.Bounded (n : Nat) (m : Machine) : Prop where
  world : Below n m.world
  stack : Below n m.stack
  iterations : Below n m.iterations
  globals : Below n m.globals

instance : Referring Machine :=
  ⟨Machine.Bounded, fun le h => ⟨mono le h.world, mono le h.stack, mono le h.iterations, mono le h.globals⟩⟩

namespace Machine

variable {n : Nat} {m : Machine}

/-- The number of classes, which all references of a grounded machine are below. -/
def classCount (m : Machine) : Nat := m.world.classCount

/-- All references to classes lead to classes, and superclasses come before the classes that inherit
from them. -/
def Grounded (m : Machine) : Prop := Below m.classCount m

/-- A slot of the stack, or null where there is none, refers to what the machine refers to. -/
theorem below_slot (h : Below n m) (i : Nat) : Below n (m.slot i) := below_item h.stack i trivial

/-- Cutting the stack back, or growing it with nulls, adds no reference. -/
theorem below_resized {stack : Array Value} (h : Below n stack) (k : Nat) : Below n (resized stack k) := by
  unfold resized
  split
  · exact below_shrink h k
  · exact below_filled h _ trivial

/-- What is left of a list of frames or iterations refers to no more. -/
theorem below_truncated {α : Type} [Referring α] {xs : List α} (h : Below n xs) (depth : Nat) :
    Below n (truncated xs depth) := below_subset h (List.drop_subset _ _)

end Machine

namespace Exec

open Machine World

variable {α β : Type} {n k : Nat}

/-- On the machine `m` the computation makes no reference but to classes that there are, in the machine and
in its result. -/
structure Lands [Referring α] (x : Exec α) (m : Machine) : Prop where
  grounded : (x.after m).Grounded
  more : m.classCount ≤ (x.after m).classCount
  result : ∀ a m', x.run m = .ok a m' → Below m'.classCount a

/-- A computation that keeps machines grounded and gives a result that is grounded too, if all that it
uses refers to no class beyond the first `n`. -/
def Grounds [Referring α] (n : Nat) (x : Exec α) : Prop := ∀ m, m.Grounded → n ≤ m.classCount → Lands x m

/-! ## Rules -/

section

variable [Referring α] [Referring β]

/-- A bound can be raised: the machine has as many classes or more when the operation begins. -/
theorem Grounds.mono {x : Exec α} (h : Grounds n x) (le : n ≤ k) : Grounds k x :=
  fun m grounded enough => h m grounded (Nat.le_trans le enough)

/-- An operation that gives a value keeps the machine grounded if the machine that it leaves is grounded. -/
theorem lands_of_run {x : Exec α} {m l : Machine} {a : α} (run : x.run m = .ok a l) (grounded : l.Grounded)
    (more : m.classCount ≤ l.classCount) (result : Below l.classCount a) : Lands x m := by
  have after : x.after m = l := after_of_ok run
  refine ⟨after.symm ▸ grounded, after.symm ▸ more, fun b l' run' => ?_⟩
  cases run.symm.trans run'
  exact result

theorem grounds_pure {a : α} (h : Below n a) : Grounds n (Pure.pure a : Exec α) :=
  fun _ grounded enough => lands_of_run rfl grounded (Nat.le_refl _) (Referring.mono enough h)

/-- An operation that fails at once leaves the machine as it is. -/
theorem grounds_raise (f : Fault) : Grounds n (throw f : Exec α) :=
  fun _ grounded _ => ⟨grounded, Nat.le_refl _, fun _ _ run => nomatch run⟩

/-- After the first operation there may be more classes, so what follows is asked about every later bound.
-/
theorem Lands.bind {x : Exec α} {f : α → Exec β} {m : Machine} (first : Lands x m)
    (next : ∀ k a, m.classCount ≤ k → Below k a → Grounds k (f a)) : Lands (x >>= f) m := by
  obtain ⟨grounded, more, below⟩ := first
  cases run : x.run m with
  | ok a m₁ =>
    rw [after_of_ok run] at grounded more
    have rest := next _ a more (below a m₁ run) m₁ grounded (Nat.le_refl _)
    have after : (x >>= f).after m = (f a).after m₁ := after_bind run
    refine ⟨after.symm ▸ rest.grounded, after.symm ▸ Nat.le_trans more rest.more, fun b m' run' => ?_⟩
    rw [run_bind_of_ok run] at run'
    exact rest.result b m' run'
  | error e m₁ =>
    rw [after_of_error run] at grounded more
    have failed : (x >>= f).run m = .error e m₁ := run_bind_of_error run
    have after : (x >>= f).after m = m₁ := after_of_error failed
    refine ⟨after.symm ▸ grounded, after.symm ▸ more, fun b m' run' => ?_⟩
    rw [failed] at run'
    cases run'

/-- The second operation may use what the first has given, whose references are below the new bound. -/
theorem Grounds.bind {x : Exec α} {f : α → Exec β} (first : Grounds n x)
    (next : ∀ k a, n ≤ k → Below k a → Grounds k (f a)) : Grounds n (x >>= f) :=
  fun m grounded enough => (first m grounded enough).bind fun k a le ha => next k a (Nat.le_trans enough le) ha

/-- What comes next does not use what the first computation refers to. -/
theorem Grounds.andThen {x : Exec α} {f : α → Exec β} (first : Grounds n x) (next : ∀ a, Grounds n (f a)) :
    Grounds n (x >>= f) := first.bind fun _ a le _ => (next a).mono le

/-- What is read from a grounded machine can be used as it is. -/
theorem Lands.read {f : Machine → Exec α} {m : Machine} (h : Lands (f m) m) : Lands (get >>= f) m :=
  ⟨h.grounded, h.more, h.result⟩

/-- A machine may be read, and what it refers to is there. -/
theorem Grounds.read {body : Machine → Exec α} (next : ∀ k m, n ≤ k → Below k m → Grounds k (body m)) :
    Grounds n (get >>= body) :=
  fun m grounded enough => .read (next _ m enough grounded m grounded (Nat.le_refl _))

/-- The heap of a grounded machine refers to existing classes only. -/
theorem Grounds.readHeap {body : Heap → Exec α} (next : ∀ k h, n ≤ k → Below k h → Grounds k (body h)) :
    Grounds n (heap >>= body) := Grounds.read fun k m le hm => next k m.heap le hm.world.heap

/-- A change of the machine `m` that makes no class. -/
theorem lands_modifyGet {g : Machine → α × Machine} {m : Machine}
    (same : (g m).2.heap.classes = m.heap.classes) (below : Below m.classCount (g m).2)
    (result : Below m.classCount (g m).1) : Lands (modifyGet g : Exec α) m := by
  have count : (g m).2.classCount = m.classCount := congrArg Pool.size same
  refine lands_of_run (l := (g m).2) (a := (g m).1) rfl ?_ (Nat.le_of_eq count.symm) ?_
  · unfold Machine.Grounded
    rwa [count]
  · rwa [count]

/-- A change of machines that makes no class. -/
theorem grounds_modifyGet {g : Machine → α × Machine} (same : ∀ m, (g m).2.heap.classes = m.heap.classes)
    (below : ∀ m k, n ≤ k → Below k m → Below k (g m).2 ∧ Below k (g m).1) :
    Grounds n (modifyGet g : Exec α) := fun m grounded enough =>
  lands_modifyGet (same m) (below m _ enough grounded).1 (below m _ enough grounded).2

/-- A change of the machine that makes no class keeps it grounded if the changed parts do. -/
theorem grounds_modify {g : Machine → Machine} (same : ∀ m, (g m).heap.classes = m.heap.classes)
    (below : ∀ m k, n ≤ k → Below k m → Below k (g m)) : Grounds n (modify g : Exec Unit) :=
  grounds_modifyGet (g := fun m => ((), g m)) same fun m k le hm => ⟨below m k le hm, trivial⟩

/-- An operation of the world. -/
theorem grounds_withWorld {f : World → α × World} (h : World.Grounds n f) : Grounds n (withWorld f) := by
  intro m grounded enough
  obtain ⟨grounded', more, below⟩ := h m.world grounded.world enough
  have run : (withWorld f).run m = .ok (f m.world).1 { m with world := (f m.world).2 } := rfl
  exact lands_of_run run ⟨grounded', Referring.mono more grounded.stack, Referring.mono more grounded.iterations,
    Referring.mono more grounded.globals⟩ more below

/-- An operation on the heap keeps the machine grounded if it does so as an operation on the world. -/
theorem grounds_withHeap {g : Heap → α × Heap} (h : World.Grounds n (onHeap g)) : Grounds n (withHeap g) :=
  grounds_withWorld h

/-- A change of the heap that makes no class. -/
theorem grounds_modifyHeap {g : Heap → Heap} (same : ∀ h, (g h).classes = h.classes)
    (below : ∀ h k, n ≤ k → Below k h → Below k (g h)) : Grounds n (modifyHeap g) :=
  grounds_withHeap (grounds_onHeap (g := fun h => ((), g h)) same fun h k le hh => ⟨below h k le hh, trivial⟩)

theorem grounds_fail (c : Cause) : Grounds n (fail c : Exec α) := .read fun _ _ _ _ => grounds_raise _

/-- Failing with the type of a value. -/
theorem grounds_failType (c : Text → Cause) (v : Value) : Grounds n (do fail (c ((← get).typeName v)) : Exec α) :=
  .read fun _ _ _ _ => grounds_fail _

omit [Referring α] in

/-- An operation for each item, if it may use the item. -/
theorem grounds_mapM {f : α → Exec β} {as : List α} (h : ∀ a ∈ as, Grounds n (f a)) : Grounds n (as.mapM f) := by
  induction as with
  | nil => exact grounds_pure below_nil
  | cons a rest ih =>
    rw [List.mapM_cons]
    refine (h a List.mem_cons_self).bind fun k b le hb => ?_
    refine ((ih fun a' ha' => h a' (List.mem_cons_of_mem _ ha')).mono le).bind fun k' bs le' hbs => ?_
    exact grounds_pure (below_cons (Referring.mono le' hb) hbs)

end

/-! ## The state of the machine -/

theorem below_text (t : Text) : Below n t := fun _ _ => trivial

theorem grounds_note (level : Level) (message : Unit → Text) : Grounds n (note level message) :=
  grounds_withWorld (World.grounds_note _ _ _)

theorem grounds_config : Grounds n config := .read fun _ _ _ _ => grounds_pure trivial

/-- A change of the stack. -/
theorem grounds_restack {g : Array Value → Array Value} (h : ∀ k stack, n ≤ k → Below k stack → Below k (g stack)) :
    Grounds n (modify fun m => { m with stack := g m.stack } : Exec Unit) :=
  grounds_modify (fun _ => rfl) fun _ k le hm => { hm with stack := h k _ le hm.stack }

theorem grounds_push {v : Value} (h : Below n v) : Grounds n (push v) :=
  grounds_restack fun _ _ le hs => below_push hs (Referring.mono le h)

theorem grounds_pop : Grounds n pop :=
  grounds_modifyGet (fun _ => rfl) fun _ _ _ hm =>
    ⟨{ hm with stack := below_pop hm.stack }, below_last hm.stack trivial⟩

theorem grounds_peek (distance : Nat) : Grounds n (peek distance) :=
  .read fun _ _ _ hm => .read fun _ _ le _ => grounds_pure (Referring.mono le (below_slot hm _))

theorem grounds_setSlot (i : Nat) {v : Value} (h : Below n v) : Grounds n (setSlot i v) :=
  grounds_restack fun _ _ le hs => below_setIfInBounds hs i (Referring.mono le h)

theorem grounds_resize (i : Nat) : Grounds n (resize i) := grounds_restack fun _ _ _ hs => below_resized hs i

theorem grounds_popMany (count : Nat) : Grounds n (popMany count) :=
  grounds_modifyGet (fun _ => rfl) fun _ _ _ hm =>
    ⟨{ hm with stack := below_shrink hm.stack _ }, below_extract hm.stack _ _⟩

theorem grounds_peekMany (count : Nat) : Grounds n (peekMany count) :=
  .read fun _ _ _ hm => .read fun _ _ le _ => .read fun _ _ le' _ =>
    grounds_pure (Referring.mono (Nat.le_trans le le') (below_extract hm.stack _ _))

theorem grounds_newArray {items : List Value} (h : Below n items) : Grounds n (newArray items) :=
  grounds_withHeap (grounds_allocArray h)

theorem grounds_frame : Grounds n frame := .read fun _ _ _ _ => grounds_pure trivial

theorem grounds_modifyFrame (f : Frame → Frame) : Grounds n (modifyFrame f) := by
  refine grounds_modify (fun m => ?_) fun m k _ hm => ?_ <;> split
  · rfl
  · rfl
  · exact hm
  · exact { hm with }

theorem grounds_proto : Grounds n proto := grounds_frame.andThen fun _ => .read fun _ _ _ _ => grounds_pure trivial

theorem grounds_constant (index : Nat) : Grounds n (constant index) := by
  refine grounds_proto.andThen fun p => ?_
  split
  · exact grounds_pure trivial
  · exact grounds_raise _

theorem grounds_constantName (index : Nat) : Grounds n (constantName index) := by
  refine (grounds_constant index).andThen fun c => ?_
  split
  · exact grounds_pure (below_text _)
  · exact grounds_fail _

/-! ## Operators -/

theorem grounds_checked (r : Option Int64) : Grounds n (checked r) := by
  unfold checked
  split
  · exact grounds_pure trivial
  · exact grounds_fail _

theorem grounds_add (a b : Value) : Grounds n (add a b) := by
  refine .read fun k m _ hm => ?_
  split
  · exact grounds_checked _
  · exact grounds_pure trivial
  · exact grounds_pure trivial
  · exact grounds_newArray (below_append (hm.world.heap.arrays _) (hm.world.heap.arrays _))
  · split
    · exact grounds_pure trivial
    · exact grounds_fail _

theorem grounds_subtract (a b : Value) : Grounds n (subtract a b) := by
  refine .read fun k m _ hm => ?_
  split
  · exact grounds_checked _
  · split
    · exact grounds_pure trivial
    · exact grounds_fail _

theorem grounds_repeatText (s : Text) (times : Int64) : Grounds n (repeatText s times) := by
  refine grounds_config.andThen fun c => ?_
  split
  · exact grounds_pure trivial
  · exact grounds_fail _

theorem grounds_multiply (a b : Value) : Grounds n (multiply a b) := by
  refine .read fun k m _ hm => ?_
  split
  · exact grounds_checked _
  · exact grounds_repeatText _ _
  · exact grounds_repeatText _ _
  · split
    · exact grounds_pure trivial
    · exact grounds_fail _

theorem grounds_divide (a b : Value) : Grounds n (divide a b) := by
  refine .read fun k m _ hm => ?_
  split
  · split
    · exact grounds_fail _
    · split
      · exact grounds_checked _
      · exact grounds_pure trivial
  · exact grounds_fail _

theorem grounds_modulo (a b : Value) : Grounds n (modulo a b) := by
  refine .read fun k m _ hm => ?_
  split
  · split
    · exact grounds_fail _
    · split <;> exact grounds_pure trivial
  · exact grounds_fail _

theorem grounds_negate (v : Value) : Grounds n (negate v) := by
  unfold negate
  split
  · exact grounds_checked _
  · exact grounds_pure trivial
  · exact grounds_failType _ _

theorem grounds_less (a b : Value) : Grounds n (less a b) := by
  refine .read fun k m _ hm => ?_
  split
  · exact grounds_pure trivial
  · exact grounds_pure trivial
  · split
    · exact grounds_pure trivial
    · exact grounds_fail _

theorem grounds_lessEqual (a b : Value) : Grounds n (lessEqual a b) := by
  refine .read fun k m _ hm => ?_
  split
  · exact grounds_pure trivial
  · exact grounds_pure trivial
  · split
    · exact grounds_pure trivial
    · exact grounds_fail _

theorem grounds_expectKey (v : Value) : Grounds n (expectKey v) := by
  unfold expectKey
  split
  · exact grounds_pure trivial
  · exact grounds_failType _ _

theorem grounds_getIndex (object index : Value) : Grounds n (getIndex object index) := by
  refine .read fun k m _ hm => ?_
  split
  · refine (grounds_expectKey _).bind fun k' key le _ => grounds_pure ?_
    exact below_optionGetD
      (fun v found => below_entry (mono le (hm.world.heap.tables _)) found) trivial
  · simp only
    split
    · exact grounds_pure (below_item (hm.world.heap.arrays _) _ trivial)
    · exact grounds_fail _
  · simp only
    split
    · exact grounds_pure trivial
    · exact grounds_fail _
  · exact grounds_fail _

/-- A table can be replaced by one that refers to no more. -/
theorem grounds_setTable (r : Ref .table) {g : Table → Table} (h : ∀ k t, n ≤ k → Below k t → Below k (g t)) :
    Grounds n (modifyHeap fun h => { h with tables := h.tables.set r (g (h.tables.get r)) }) :=
  grounds_modifyHeap (fun _ => rfl) fun _ k le hh =>
    { hh with tables := below_replace hh.tables r (h k _ le (hh.tables r)) }

/-- An array can be replaced by one that refers to no more. -/
theorem grounds_setArray (r : Ref .array) {g : Array Value → Array Value}
    (h : ∀ k x, n ≤ k → Below k x → Below k (g x)) :
    Grounds n (modifyHeap fun h => { h with arrays := h.arrays.set r (g (h.arrays.get r)) }) :=
  grounds_modifyHeap (fun _ => rfl) fun _ k le hh =>
    { hh with arrays := below_replace hh.arrays r (h k _ le (hh.arrays r)) }

theorem grounds_setEntry (r : Ref .table) (key : Key) {v : Value} (h : Below n v) : Grounds n (setEntry r key v) :=
  grounds_setTable r fun _ _ le ht => below_setEntry ht key (Referring.mono le h)

theorem grounds_setIndex (object index : Value) {v : Value} (h : Below n v) :
    Grounds n (setIndex object index v) := by
  refine .read fun k m le hm => ?_
  split
  · exact (grounds_expectKey _).bind fun k' key le' _ =>
      grounds_setEntry _ key (Referring.mono (Nat.le_trans le le') h)
  · simp only
    split
    · exact grounds_setArray _ fun _ _ le' hx => below_setIfInBounds hx _ (Referring.mono (Nat.le_trans le le') h)
    · exact grounds_fail _
  · exact grounds_fail _

theorem grounds_range (a b : Value) : Grounds n (range a b) := by
  unfold range
  split
  · refine grounds_config.andThen fun c => ?_
    split
    next items counted =>
      refine grounds_newArray ?_
      unfold rangeItems? at counted
      simp only at counted
      split at counted
      · cases counted
      · cases counted
        exact below_map fun _ _ => trivial
    · exact grounds_fail _
  · exact grounds_fail _

/-- The values of a hash literal come from the stack. -/
theorem below_literalEntries {ps : List (Value × Value)} {es : List (Key × Value)} (h : Below n ps)
    (read : literalEntries ps = .ok es) : Below n es := by
  induction ps generalizing es with
  | nil =>
    cases read
    exact below_nil
  | cons p rest ih =>
    unfold literalEntries at read
    split at read
    · cases read
    · split at read
      next es' others =>
        cases read
        exact below_cons ⟨trivial, (h p List.mem_cons_self).2⟩
          (ih (fun p' hp' => h p' (List.mem_cons_of_mem _ hp')) others)
      next => cases read

/-- Keys and values taken from the stack refer to what the stack refers to. -/
theorem below_pairs {vs : List Value} (h : Below n vs) : Below n (pairs vs) := by
  fun_induction pairs vs with
  | case1 k v rest ih =>
    obtain ⟨hk, hv, hr⟩ : Below n k ∧ Below n v ∧ Below n rest :=
      ⟨h k (by simp), h v (by simp), fun a ha => h a (by simp [ha])⟩
    exact below_cons ⟨hk, hv⟩ (ih hr)
  | case2 => exact below_nil

/-- What is left of a value that has been moved out refers to no class. -/
theorem below_vacated {v : Value} (h : Below n v) : Below n v.vacated := by
  cases v with
  | cls | superOf => exact trivial
  | _ => exact h

/-- Moving values out of their slots adds no reference. -/
theorem below_moveEntries (taken : Nat) {vs : List Value} (h : Below n vs) : Below n (moveEntries taken vs) := by
  fun_induction moveEntries taken vs with
  | case1 taken k v rest ih =>
    obtain ⟨hk, hv, hr⟩ : Below n k ∧ Below n v ∧ Below n rest :=
      ⟨h k (by simp), h v (by simp), fun a ha => h a (by simp [ha])⟩
    exact below_cons hk (below_cons (below_vacated hv) (ih hr))
  | case2 => exact h

theorem grounds_hashLiteral (count : Nat) : Grounds n (hashLiteral count) := by
  refine (grounds_peekMany _).bind fun k window _ hw => .read fun k' m le _ => ?_
  have hw : Below k' window := Referring.mono le hw
  simp only
  split
  next entries read =>
    refine (grounds_resize _).bind fun k'' _ le' _ => ?_
    exact grounds_withHeap (grounds_allocTable
      (below_ofList (Referring.mono le' (below_literalEntries (below_pairs hw) read))))
  next bad taken read =>
    refine (grounds_restack (g := fun st => st.shrink _ ++ (moveEntries taken window).toArray)
      fun k'' stack le' hs => ?_).andThen fun _ => grounds_failType (α := Value) _ _
    exact below_joined (below_shrink hs _) (below_moveEntries _ (Referring.mono le' hw))

theorem below_texts (ts : List Text) : Below n (ts.map Value.str) := below_map fun _ _ => trivial

theorem grounds_openIteration (v : Value) : Grounds n (openIteration v) := by
  have opened : ∀ {k : Nat} {i : Iteration}, Below k i →
      Grounds k (modify fun m => { m with iterations := i :: m.iterations } : Exec Unit) := fun h =>
    grounds_modify (fun _ => rfl) fun _ _ le hm =>
      { hm with iterations := below_cons (Referring.mono le h) hm.iterations }
  refine .read fun k m _ hm => ?_
  split
  · exact opened (i := .live _ 0) trivial
  · exact opened (i := .snapshot _) (below_keyValues _)
  · exact opened (i := .snapshot _) (below_texts _)
  · exact Grounds.bind (α := Iteration) (grounds_fail _) fun _ _ _ h => opened h

/-- An iteration gives an item of what it goes over. -/
theorem below_advance {h : Heap} {it it' : Iteration} {v : Value} (hh : Below n h) (hi : Below n it)
    (step : advance h it = some (v, it')) : Below n v ∧ Below n it' := by
  unfold advance at step
  split at step
  · obtain ⟨u, item, same⟩ := Option.map_eq_some_iff.1 step
    cases same
    exact ⟨below_getElem? (hh.arrays _) item, trivial⟩
  · cases step
  · cases step
    exact ⟨hi v List.mem_cons_self, fun a ha => hi a (List.mem_cons_of_mem _ ha)⟩

theorem grounds_nextItem : Grounds n nextItem := by
  refine grounds_modifyGet (fun m => ?_) fun m k _ hm => ?_
  · split
    · rfl
    · split <;> rfl
  · split
    · exact ⟨hm, below_none⟩
    next it rest open' =>
      have its : Below k (it :: rest) := open' ▸ hm.iterations
      have others : Below k rest := fun a ha => its a (List.mem_cons_of_mem _ ha)
      split
      next v it' step =>
        obtain ⟨hv, hi⟩ := below_advance hm.world.heap (its it List.mem_cons_self) step
        exact ⟨{ hm with iterations := below_cons hi others }, below_some hv⟩
      next => exact ⟨{ hm with iterations := others }, below_none⟩

/-! ## Builtin methods -/

theorem grounds_expectArgs (args : List Value) (count : Nat) : Grounds n (expectArgs args count) := by
  unfold expectArgs
  split
  · exact grounds_pure trivial
  · exact grounds_fail _

theorem grounds_expectAtMost (args : List Value) (count : Nat) : Grounds n (expectAtMost args count) := by
  unfold expectAtMost
  split
  · exact grounds_pure trivial
  · exact grounds_fail _

theorem grounds_expectText (v : Value) (method : Text) : Grounds n (expectText v method) := by
  unfold expectText
  split
  · exact grounds_pure (below_text _)
  · exact grounds_failType _ _

theorem grounds_noMethod (receiver : Value) (name : Text) : Grounds n (noMethod receiver name) :=
  grounds_failType (fun t => .noSuchProperty t name) receiver

theorem grounds_textArray (ts : List Text) : Grounds n (textArray ts) := grounds_newArray (below_texts ts)

/-- A method of an array may put its arguments into the array. -/
theorem grounds_arrayMethod (r : Ref .array) (method : ArrayMethod) {args : List Value} (h : Below n args) :
    Grounds n (arrayMethod r method args) := by
  refine .read fun k m le hm => ?_
  have items : Below k (m.heap.arrays.get r) := hm.world.heap.arrays r
  cases method with
  | length | includes => exact (grounds_expectArgs _ _).andThen fun _ => grounds_pure trivial
  | first => exact (grounds_expectArgs _ _).andThen fun _ => grounds_pure (below_item items _ trivial)
  | last => exact (grounds_expectArgs _ _).andThen fun _ => grounds_pure (below_last items trivial)
  | push =>
    exact (grounds_setArray r fun _ _ le' hx => below_joined hx (mono (Nat.le_trans le le') h)).andThen fun _ =>
      grounds_pure trivial
  | pop =>
    refine (grounds_expectArgs _ _).andThen fun _ => ?_
    refine (grounds_setArray r fun _ _ _ hx => below_pop hx).andThen fun _ => ?_
    exact grounds_pure (below_last items trivial)
  | join =>
    refine (grounds_expectAtMost _ _).andThen fun _ => ?_
    cases args with
    | nil => exact grounds_pure trivial
    | cons v _ => exact (grounds_expectText _ _).andThen fun _ => grounds_pure trivial
  | reverse =>
    exact (grounds_expectArgs _ _).andThen fun _ =>
      grounds_newArray (below_subset items fun a ha => List.mem_reverse.1 ha)

theorem grounds_hashMethod (r : Ref .table) (method : HashMethod) (args : List Value) :
    Grounds n (hashMethod r method args) := by
  refine .read fun k m le hm => ?_
  have table : Below k (m.heap.tables.get r) := hm.world.heap.tables r
  cases method with
  | length => exact (grounds_expectArgs _ _).andThen fun _ => grounds_pure trivial
  | keys => exact (grounds_expectArgs _ _).andThen fun _ => grounds_newArray (below_keyValues _)
  | values => exact (grounds_expectArgs _ _).andThen fun _ => grounds_newArray (below_values table)
  | hasKey =>
    exact (grounds_expectArgs _ _).andThen fun _ => (grounds_expectKey _).andThen fun _ => grounds_pure trivial
  | delete =>
    refine (grounds_expectArgs _ _).andThen fun _ => (grounds_expectKey _).andThen fun key => ?_
    split
    · exact grounds_pure trivial
    next v found =>
      refine (grounds_setTable r (g := fun t => (t.remove key).2) fun _ _ _ ht => below_removeEntry ht key).andThen
        fun _ => ?_
      exact grounds_pure (below_entry table found)

theorem grounds_textMethod (t : Text) (method : TextMethod) (args : List Value) :
    Grounds n (textMethod t method args) := by
  unfold textMethod
  cases method with
  | length | upcase | downcase | trim =>
    exact (grounds_expectArgs _ _).andThen fun _ => grounds_pure trivial
  | split =>
    refine (grounds_expectAtMost _ _).andThen fun _ => ?_
    cases args with
    | nil => exact grounds_textArray _
    | cons v _ => exact (grounds_expectText _ _).andThen fun _ => grounds_textArray _
  | includes =>
    exact (grounds_expectArgs _ _).andThen fun _ => (grounds_expectText _ _).andThen fun _ => grounds_pure trivial

/-- A builtin method may put its arguments into the receiver. -/
theorem grounds_callMethod (receiver : Value) (name : Text) {args : List Value} (h : Below n args) :
    Grounds n (callMethod receiver name args) := by
  unfold callMethod
  cases receiver with
  | array r =>
    simp only
    split
    · exact grounds_arrayMethod _ _ h
    · exact grounds_noMethod _ _
  | hash r =>
    simp only
    split
    · exact grounds_hashMethod _ _ _
    · exact grounds_noMethod _ _
  | str t =>
    simp only
    split
    · exact grounds_textMethod _ _ _
    · exact grounds_noMethod _ _
  | _ => exact grounds_noMethod _ _

/-! ## Native functions -/

theorem grounds_nativeFail [Referring α] (message : Text) : Grounds n (nativeFail message : Exec α) :=
  grounds_fail _

theorem grounds_expectObject (v : Value) : Grounds n (expectObject v) := by
  unfold expectObject
  split
  · exact grounds_pure trivial
  · exact grounds_nativeFail _

theorem grounds_expectClass {v : Value} (h : Below n v) : Grounds n (expectClass v) := by
  unfold expectClass
  split
  · exact grounds_pure (a := (_ : Ref .cls)) h
  · exact grounds_nativeFail _

theorem grounds_expectString (v : Value) : Grounds n (expectString v) := by
  unfold expectString
  split
  · exact grounds_pure (below_text _)
  · exact grounds_nativeFail _

theorem grounds_classMembers (r : Ref .cls) : Grounds n (classMembers r) := by
  refine .readHeap fun k h _ hh => ?_
  refine Grounds.bind (grounds_mapM fun d hd => grounds_newArray ?_) fun k' fields _ hf => ?_
  · have initial : Below k d.initial := (hh.classes r).fields d hd
    exact below_cons (a := Value.str d.name) trivial
      (below_cons initial (below_cons (a := Value.bool d.isConst) trivial below_nil))
  · exact grounds_newArray (below_append (below_texts _) hf)

theorem grounds_recordError (e : RuntimeError) : Grounds n (modify fun m => m.recordError e : Exec Unit) :=
  grounds_modify (fun _ => rfl) fun _ _ _ hm => { hm with }

theorem grounds_callNamed (name : Text) {args : List Value} (h : Below n args) :
    Grounds n (callNamed name args) := by
  refine .read fun k m le hm => ?_
  split
  next callee found =>
    exact grounds_pure (a := NativeAnswer.reenter (.call .callName callee args))
      (below_cons (hm.globals name callee found) (mono le h))
  next =>
    exact (grounds_recordError _).andThen fun _ => grounds_pure (a := NativeAnswer.value _) trivial

/-- A native function without a call back gives what its arguments and the machine refer to. -/
theorem grounds_plainNative (body : NativeBody) {args : List Value} (h : Below n args) :
    Grounds n (plainNative body args) := by
  have first : Below n (args.headD .null) := below_headD h trivial
  have second : Below n (args.getD 1 .null) := below_getD h 1 trivial
  refine .read fun k m le hm => ?_
  cases body with
  | args | pair => exact grounds_newArray (mono le h)
  | id => exact grounds_pure (mono le first)
  | fail => exact grounds_nativeFail _
  | raise => exact grounds_raise _
  | shape => exact (grounds_expectObject _).andThen fun _ => grounds_pure trivial
  | sealShape =>
    refine (grounds_expectObject _).andThen fun _ => ?_
    refine (grounds_withWorld (f := fun w => ((), { w with shapes := w.shapes.sealShape _ })) ?_).andThen fun _ =>
      grounds_pure (a := Value.null) trivial
    exact grounds_aside (fun _ => rfl) (fun _ => rfl) fun _ _ _ => trivial
  | field =>
    refine (grounds_expectObject _).andThen fun r => (grounds_expectString _).andThen fun name => ?_
    refine grounds_pure (below_optionGetD (fun v found => ?_) trivial)
    unfold World.namedField at found
    split at found
    · exact below_field (hm.world.heap.objects r) found
    · cases found
  | table => exact (grounds_expectClass (mono le first)).andThen fun _ => grounds_pure trivial
  | superOf => exact (grounds_expectClass (mono le first)).bind fun _ r _ hr => grounds_pure (a := Value.superOf r) hr
  | isSubclass =>
    exact (grounds_expectClass (mono le first)).andThen fun _ =>
      (grounds_expectClass (mono le second)).andThen fun _ => grounds_pure trivial
  | members => exact (grounds_expectClass (mono le first)).andThen fun _ => grounds_classMembers _
  | valueMethod =>
    refine (grounds_expectString _).andThen fun name => ?_
    exact grounds_withHeap (grounds_allocMethod (m := ⟨_, name⟩) (mono le first))
  | clearCaches =>
    refine (grounds_withWorld (f := fun w => ((), { w with caches := w.caches.clear })) ?_).andThen fun _ =>
      grounds_pure (a := Value.null) trivial
    exact grounds_of_classes (fun _ => rfl) fun _ _ _ hw =>
      ⟨{ hw with caches := fun _ _ found => nomatch found }, trivial⟩
  | _ => exact grounds_pure trivial

/-- A native function that enters the machine again passes its arguments on. -/
theorem grounds_runNative (body : NativeBody) {args : List Value} (h : Below n args) :
    Grounds n (runNative body args) := by
  unfold runNative
  cases body with
  | apply | attempt =>
    cases args with
    | nil => exact grounds_nativeFail _
    | cons callee rest => exact grounds_pure (a := NativeAnswer.reenter (.call _ callee rest)) h
  | callName =>
    cases args with
    | nil => exact grounds_nativeFail _
    | cons v rest =>
      exact (grounds_expectString _).andThen fun _ => grounds_callNamed _ fun a ha => h a (List.mem_cons_of_mem _ ha)
  | own => exact grounds_pure (a := NativeAnswer.reenter (.own _)) trivial
  | _ => exact (grounds_plainNative _ h).bind fun _ v _ hv => grounds_pure (a := NativeAnswer.value v) hv

theorem grounds_callbackError (c : Callback) (e : RuntimeError) : Grounds n (callbackError c e) := by
  cases c with
  | apply => exact grounds_nativeFail _
  | attempt => exact grounds_textArray [_, _]
  | callName => exact grounds_pure trivial

end Exec

end ScriptVm
