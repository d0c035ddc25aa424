import ScriptVm.Proofs.PlainCode

/-!
# Operations that are plain

One lemma for each operation of the machine that leaves calls, regions, iterations and captured
variables alone, with the number of values that it takes off the stack: operators, builtin methods
and native functions.
-/

set_option autoImplicit false

namespace ScriptVm.Exec

open Machine World

variable {b : Bool} {n : Nat} {m : Machine} {α β : Type}

/-- A computation that takes nothing off the stack goes first. -/
theorem Plain.andThen {x : Exec α} {f : α → Exec β} (first : Plain b 0 x m)
    (next : ∀ v m', x.run m = .ok v m' → Plain b n (f v) m') : Plain b n (x >>= f) m :=
  .bind (Nat.le_of_eq (Nat.zero_add n)) first next

/-- A computation that takes nothing off the stack goes last. -/
theorem Plain.before {x : Exec α} {f : α → Exec β} (first : Plain b n x m)
    (next : ∀ v m', x.run m = .ok v m' → Plain b 0 (f v) m') : Plain b n (x >>= f) m :=
  .bind (Nat.le_refl n) first next

/-! ## The machine -/

theorem plain_fail (c : Cause) : Plain b n (fail c : Exec α) m := .read (fun _ => rfl) (.raise _)

theorem plain_heap : Plain b n heap m := .read (fun _ => rfl) (.pure _)

theorem plain_frame : Plain b n frame m := .read (fun _ => rfl) (.pure _)

theorem plain_proto : Plain b n proto m :=
  plain_frame.andThen fun _ _ _ => .read (fun _ => rfl) (.pure _)

theorem plain_peek (k : Nat) : Plain b n (peek k) m :=
  .read (fun _ => rfl) (.read (fun _ => rfl) (.pure _))

theorem plain_peekMany (k : Nat) : Plain b n (peekMany k) m :=
  .read (fun _ => rfl) (.read (fun _ => rfl) (.read (fun _ => rfl) (.pure _)))

theorem plain_constant (i : Nat) : Plain b n (constant i) m := by
  refine plain_proto.andThen fun p m' _ => ?_
  split
  · exact .pure _
  · exact .raise _

theorem plain_constantName (i : Nat) : Plain b n (constantName i) m := by
  refine (plain_constant i).andThen fun k m' _ => ?_
  split
  · exact .pure _
  · exact plain_fail _

theorem plain_push (v : Value) : Plain b n (push v) m := by
  refine .stack (fun st => ((), st.push v)) ?_ fun i hi => ?_
  · simp only [Array.size_push]
    omega
  · simp only [Array.getElem?_push]
    rw [if_neg (by omega)]

/-- Popping uses one operand. -/
theorem plain_pop : Plain b 1 pop m := by
  refine .stack (fun st => (st.back?.getD .null, st.pop)) ?_ fun i hi => ?_
  · simp only [Array.size_pop]
    omega
  · simp only [Array.getElem?_pop]
    rw [if_pos (by omega)]

/-- The first value is taken off the stack. -/
theorem Plain.afterPop {f : Value → Exec α}
    (next : ∀ v m', pop.run m = .ok v m' → Plain b n (f v) m') : Plain b (n + 1) (pop >>= f) m :=
  .bind (Nat.le_of_eq (Nat.add_comm 1 n)) plain_pop next

theorem getElem?_shrink {α : Type} (xs : Array α) {k i : Nat} (h : i < k) :
    (xs.shrink k)[i]? = xs[i]? := by
  rw [← Array.getElem?_toList, Array.toList_shrink, List.getElem?_take, if_pos h, Array.getElem?_toList]

/-- Popping several uses as many. -/
theorem plain_popMany (k : Nat) : Plain b k (popMany k) m := by
  refine .stack
    (fun st => ((st.extract (st.size - k) st.size).toList, st.shrink (st.size - k))) ?_ fun i hi => ?_
  · simp only [Array.size_shrink]
    omega
  · exact getElem?_shrink _ (by omega)

/-- A slot among the operands may be written. -/
theorem plain_setSlot (i : Nat) (v : Value) (deep : m.stack.size ≤ i + n) : Plain b n (setSlot i v) m := by
  refine .stack (fun st => ((), st.setIfInBounds i v)) ?_ fun j hj => ?_
  · simp only [Array.size_setIfInBounds]
    omega
  · simp only [Array.getElem?_setIfInBounds]
    rw [if_neg (by omega)]

/-- The values from some depth on are replaced by others. -/
theorem plain_rewrite (g : Array Value → Array Value) (start : Nat) (deep : m.stack.size ≤ start + n) :
    Plain b n (modify fun m => { m with stack := m.stack.shrink start ++ g m.stack }) m := by
  refine .stack (fun st => ((), st.shrink start ++ g st)) ?_ fun i hi => ?_
  · simp only [Array.size_append, Array.size_shrink]
    omega
  · simp only [Array.getElem?_append, Array.size_shrink]
    rw [if_pos (by omega), getElem?_shrink _ (by omega)]

/-- Values may be put on top. -/
theorem plain_fill (g : Array Value → Array Value) :
    Plain b n (modify fun m => { m with stack := m.stack ++ g m.stack }) m := by
  refine .stack (fun st => ((), st ++ g st)) ?_ fun i hi => ?_
  · simp only [Array.size_append]
    omega
  · simp only [Array.getElem?_append]
    rw [if_pos (by omega)]

/-- The stack may be cut back into the operands. -/
theorem plain_resize (start : Nat) (deep : m.stack.size ≤ start + n) : Plain b n (resize start) m := by
  refine .stack (fun st => ((), resized st start)) ?_ fun i hi => ?_
  · simp only [resized]
    split
    · simp only [Array.size_shrink]
      omega
    · simp only [Array.size_append, Array.size_replicate]
      omega
  · simp only [resized]
    split
    · exact getElem?_shrink _ (by omega)
    · simp only [Array.getElem?_append]
      rw [if_pos (by omega)]

/-! ## The world -/

theorem plain_note (level : Level) (message : Unit → Text) : Plain b n (note level message) m :=
  .world (blind_note _ _ _ _)

/-- An operation on the heap is plain if it is a change of the world. -/
theorem plain_withHeap {g : Heap → α × Heap}
    (change : ∀ w, w.heap = m.heap → Change w { w with heap := (g w.heap).2 }) :
    Plain b n (withHeap g) m := by
  show Plain b n (withWorld (onHeap g)) m
  exact .world (.onHeap change)

theorem plain_modifyHeap {g : Heap → Heap}
    (change : ∀ w, w.heap = m.heap → Change w { w with heap := g w.heap }) :
    Plain b n (modifyHeap g) m := plain_withHeap change

theorem plain_newArray (items : List Value) : Plain b n (newArray items) m :=
  plain_withHeap fun w _ => .newArray w _

theorem plain_setArray (r : Ref .array) (g : Heap → Array Value) :
    Plain b n (modifyHeap fun h => { h with arrays := h.arrays.set r (g h) }) m :=
  plain_modifyHeap fun w _ => .setArray w r _

theorem plain_setEntry (r : Ref .table) (k : Key) (v : Value) : Plain b n (setEntry r k v) m := by
  unfold setEntry
  exact plain_modifyHeap fun w _ => .setEntry w r k v

theorem plain_intern (name : Text) : Plain b n (intern name) m := .world (blind_intern _ name)

theorem plain_newMethod (receiver : Value) (name : Text) : Plain b n (newMethod receiver name) m :=
  plain_withHeap fun w _ => .newMethod w _

theorem plain_bindMethod (receiver method : Value) : Plain b n (bindMethod receiver method) m :=
  .world (blind_bind _ receiver method)

theorem plain_newClosure (p : Proto) : Plain b n (withWorld fun w => w.newClosure p) m :=
  .world ⟨[], fun _ _ => ⟨rfl, .single (.newClosure _ _)⟩⟩

theorem plain_newClass (name : Text) : Plain b n (withWorld fun w => w.newClass name) m :=
  .world ⟨[], fun _ _ => ⟨rfl, evolves_newClass _ _⟩⟩

/-- A class may be made of a well-made draft. -/
theorem plain_publish (draft : Class)
    (made : (∀ r, (m.heap.classes.get r).WellMade) → draft.WellMade) :
    Plain b n (withWorld fun w => w.publish draft) m :=
  .world ⟨[], fun _ _ => ⟨rfl, .single (.publish _ _ made)⟩⟩

theorem plain_newObject (r : Ref .cls) : Plain b n (withWorld fun w => w.newObject r) m := by
  refine .world ⟨(layOut (m.world.heap.fieldDecls r) {} m.world.shapes).2.2, fun c l => ⟨?_, ?_⟩⟩
  · simp only [newObject_eq]
    rfl
  · exact .single (.newObject _ _)

/-! ## Operators -/

theorem plain_checked (r : Option Int64) : Plain b n (checked r) m := by
  unfold checked
  split
  · exact .pure _
  · exact plain_fail _

theorem plain_add (x y : Value) : Plain b n (add x y) m := by
  refine .read (fun _ => rfl) ?_
  split
  · exact plain_checked _
  · exact .pure _
  · exact .pure _
  · exact plain_newArray _
  · split
    · exact .pure _
    · exact plain_fail _

theorem plain_subtract (x y : Value) : Plain b n (subtract x y) m := by
  refine .read (fun _ => rfl) ?_
  split
  · exact plain_checked _
  · split
    · exact .pure _
    · exact plain_fail _

/-- The options other than the caches may be looked at. -/
theorem plain_config {body : Config → Exec α}
    (blind : ∀ u, body { m.config with useCaches := u } = body m.config)
    (next : Plain b n (body m.config) m) : Plain b n (config >>= body) m := by
  have h : config >>= body = get >>= fun m => body m.config := rfl
  rw [h]
  exact .read (fun s => blind s.useCaches) next

theorem plain_repeatText (s : Text) (times : Int64) : Plain b n (repeatText s times) m := by
  refine plain_config (fun _ => rfl) ?_
  split
  · exact .pure _
  · exact plain_fail _

theorem plain_multiply (x y : Value) : Plain b n (multiply x y) m := by
  refine .read (fun _ => rfl) ?_
  split
  · exact plain_checked _
  · exact plain_repeatText _ _
  · exact plain_repeatText _ _
  · split
    · exact .pure _
    · exact plain_fail _

theorem plain_divide (x y : Value) : Plain b n (divide x y) m := by
  refine .read (fun _ => rfl) ?_
  split
  · split
    · exact plain_fail _
    · split
      · exact plain_checked _
      · exact .pure _
  · exact plain_fail _

theorem plain_modulo (x y : Value) : Plain b n (modulo x y) m := by
  refine .read (fun _ => rfl) ?_
  split
  · split
    · exact plain_fail _
    · split <;> exact .pure _
  · exact plain_fail _

theorem plain_negate (v : Value) : Plain b n (negate v) m := by
  unfold negate
  split
  · exact plain_checked _
  · exact .pure _
  · exact .read (fun _ => rfl) (plain_fail _)

theorem plain_less (x y : Value) : Plain b n (less x y) m := by
  refine .read (fun _ => rfl) ?_
  split
  · exact .pure _
  · exact .pure _
  · split
    · exact .pure _
    · exact plain_fail _

theorem plain_lessEqual (x y : Value) : Plain b n (lessEqual x y) m := by
  refine .read (fun _ => rfl) ?_
  split
  · exact .pure _
  · exact .pure _
  · split
    · exact .pure _
    · exact plain_fail _

theorem plain_expectKey (v : Value) : Plain b n (expectKey v) m := by
  unfold expectKey
  split
  · exact .pure _
  · exact .read (fun _ => rfl) (plain_fail _)

theorem plain_getIndex (object index : Value) : Plain b n (getIndex object index) m := by
  refine .read (fun _ => rfl) ?_
  split
  · exact (plain_expectKey _).andThen fun _ _ _ => .pure _
  · simp only
    split
    · exact .pure _
    · exact plain_fail _
  · simp only
    split
    · exact .pure _
    · exact plain_fail _
  · exact plain_fail _

theorem plain_setItem (r : Ref .array) (i : Nat) (v : Value) : Plain b n (setItem r i v) m := by
  unfold setItem
  exact plain_setArray r _

theorem plain_setIndex (object index v : Value) : Plain b n (setIndex object index v) m := by
  refine .read (fun _ => rfl) ?_
  split
  · exact (plain_expectKey _).andThen fun _ _ _ => plain_setEntry _ _ _
  · simp only
    split
    · exact plain_setItem _ _ _
    · exact plain_fail _
  · exact plain_fail _

theorem plain_range (x y : Value) : Plain b n (range x y) m := by
  unfold range
  split
  · refine plain_config (fun _ => rfl) ?_
    split
    · exact plain_newArray _
    · exact plain_fail _
  · exact plain_fail _

/-- A hash literal uses a key and a value for each entry. -/
theorem plain_hashLiteral (k : Nat) : Plain b (2 * k) (hashLiteral k) m := by
  refine (plain_peekMany _).andThen fun window m' _ => .read (fun _ => rfl) ?_
  simp only
  split
  · refine Plain.before (plain_resize _ ?_) fun _ _ _ => plain_withHeap fun w _ => .newTable w _
    omega
  · refine Plain.before (plain_rewrite (fun _ => (moveEntries _ window).toArray) _ ?_) fun _ _ _ => ?_
    · omega
    · exact .read (fun _ => rfl) (plain_fail _)

/-! ## Builtin methods -/

theorem plain_expectArgs (args : List Value) (k : Nat) : Plain b n (expectArgs args k) m := by
  unfold expectArgs
  split
  · exact .pure _
  · exact plain_fail _

theorem plain_expectAtMost (args : List Value) (k : Nat) : Plain b n (expectAtMost args k) m := by
  unfold expectAtMost
  split
  · exact .pure _
  · exact plain_fail _

theorem plain_expectText (v : Value) (method : Text) : Plain b n (expectText v method) m := by
  unfold expectText
  split
  · exact .pure _
  · exact .read (fun _ => rfl) (plain_fail _)

theorem plain_noMethod (receiver : Value) (name : Text) : Plain b n (noMethod receiver name) m :=
  .read (fun _ => rfl) (plain_fail _)

/-- Methods of arrays touch the heap only. -/
theorem plain_arrayMethod (r : Ref .array) (method : ArrayMethod) (args : List Value) :
    Plain b n (arrayMethod r method args) m := by
  refine .read (fun _ => rfl) ?_
  cases method with
  | length => exact (plain_expectArgs _ _).andThen fun _ _ _ => .pure _
  | push => exact (plain_setArray r _).andThen fun _ _ _ => .pure _
  | pop =>
    refine (plain_expectArgs _ _).andThen fun _ _ _ => ?_
    exact (plain_setArray r _).andThen fun _ _ _ => .pure _
  | first => exact (plain_expectArgs _ _).andThen fun _ _ _ => .pure _
  | last => exact (plain_expectArgs _ _).andThen fun _ _ _ => .pure _
  | join =>
    refine (plain_expectAtMost _ _).andThen fun _ _ _ => ?_
    cases args with
    | nil => exact .pure _
    | cons v _ => exact (plain_expectText _ _).andThen fun _ _ _ => .pure _
  | includes => exact (plain_expectArgs _ _).andThen fun _ _ _ => .pure _
  | reverse => exact (plain_expectArgs _ _).andThen fun _ _ _ => plain_newArray _

theorem plain_hashMethod (r : Ref .table) (method : HashMethod) (args : List Value) :
    Plain b n (hashMethod r method args) m := by
  refine .read (fun _ => rfl) ?_
  cases method with
  | length => exact (plain_expectArgs _ _).andThen fun _ _ _ => .pure _
  | keys => exact (plain_expectArgs _ _).andThen fun _ _ _ => plain_newArray _
  | values => exact (plain_expectArgs _ _).andThen fun _ _ _ => plain_newArray _
  | hasKey =>
    refine (plain_expectArgs _ _).andThen fun _ _ _ => ?_
    exact (plain_expectKey _).andThen fun _ _ _ => .pure _
  | delete =>
    refine (plain_expectArgs _ _).andThen fun _ _ _ => (plain_expectKey _).andThen fun key _ _ => ?_
    split
    · exact .pure _
    · refine Plain.andThen (plain_modifyHeap fun w _ => ?_) fun _ _ _ => .pure _
      exact .removeEntry w r key

theorem plain_textMethod (t : Text) (method : TextMethod) (args : List Value) :
    Plain b n (textMethod t method args) m := by
  unfold textMethod
  cases method with
  | length => exact (plain_expectArgs _ _).andThen fun _ _ _ => .pure _
  | upcase => exact (plain_expectArgs _ _).andThen fun _ _ _ => .pure _
  | downcase => exact (plain_expectArgs _ _).andThen fun _ _ _ => .pure _
  | trim => exact (plain_expectArgs _ _).andThen fun _ _ _ => .pure _
  | split =>
    refine (plain_expectAtMost _ _).andThen fun _ _ _ => ?_
    cases args with
    | nil => exact plain_newArray _
    | cons v _ => exact (plain_expectText _ _).andThen fun _ _ _ => plain_newArray _
  | includes =>
    refine (plain_expectArgs _ _).andThen fun _ _ _ => ?_
    exact (plain_expectText _ _).andThen fun _ _ _ => .pure _

/-- Builtin methods touch the heap only, and fail without a trace on the stacks. -/
theorem plain_callMethod (receiver : Value) (name : Text) (args : List Value) :
    Plain b n (callMethod receiver name args) m := by
  unfold callMethod
  cases receiver with
  | array r =>
    simp only
    split
    · exact plain_arrayMethod _ _ _
    · exact plain_noMethod _ _
  | hash r =>
    simp only
    split
    · exact plain_hashMethod _ _ _
    · exact plain_noMethod _ _
  | str t =>
    simp only
    split
    · exact plain_textMethod _ _ _
    · exact plain_noMethod _ _
  | _ => exact plain_noMethod _ _

/-! ## Native functions -/

theorem plain_nativeFail (message : Text) : Plain b n (nativeFail message : Exec α) m := plain_fail _

theorem plain_expectObject (v : Value) : Plain b n (expectObject v) m := by
  unfold expectObject
  split
  · exact .pure _
  · exact plain_nativeFail _

theorem plain_expectClass (v : Value) : Plain b n (expectClass v) m := by
  unfold expectClass
  split
  · exact .pure _
  · exact plain_nativeFail _

theorem plain_expectString (v : Value) : Plain b n (expectString v) m := by
  unfold expectString
  split
  · exact .pure _
  · exact plain_nativeFail _

theorem plain_mapM {f : α → Exec β} (h : ∀ a m, Plain b 0 (f a) m) (as : List α) (m : Machine) :
    Plain b 0 (as.mapM f) m := by
  induction as generalizing m with
  | nil => exact .pure _
  | cons a rest ih =>
    rw [List.mapM_cons]
    exact (h a m).andThen fun _ _ _ => (ih _).andThen fun _ _ _ => .pure _

theorem plain_classMembers (r : Ref .cls) : Plain b n (classMembers r) m := by
  refine plain_heap.andThen fun h m' _ => ?_
  exact (plain_mapM (fun _ _ => plain_newArray _) _ m').andThen fun _ _ _ => plain_newArray _

theorem plain_callNamed (name : Text) (args : List Value) : Plain b n (callNamed name args) m := by
  refine .read (fun _ => rfl) ?_
  split
  · exact .pure _
  · exact Plain.andThen (.record _) fun _ _ _ => .pure _

theorem plain_clearCaches :
    Plain b n (modify fun m => { m with world := { m.world with caches := m.world.caches.clear } }) m := by
  cases b with
  | true =>
    show Plain true n (withWorld fun w => ((), { w with caches := w.caches.clear })) m
    exact .seeing (.single (.clearCaches _))
  | false =>
    refine .use .clear ?_
    show Plain true n (withWorld fun w => ((), { w with caches := w.caches.clear })) m
    exact .seeing (.single (.clearCaches _))

theorem plain_sealShape (id : ShapeId) :
    Plain b n
      (modify fun m => { m with world := { m.world with shapes := m.world.shapes.sealShape id } }) m := by
  show Plain b n (withWorld fun w => ((), { w with shapes := w.shapes.sealShape id })) m
  exact .world ⟨[], fun _ _ => ⟨rfl, .single (.sealShape _ _)⟩⟩

/-- Native functions without a call back look at the machine and touch the world at most. -/
theorem plain_plainNative (body : NativeBody) (args : List Value) :
    Plain b n (plainNative body args) m := by
  refine .read (fun _ => rfl) ?_
  cases body with
  | args | pair => exact plain_newArray _
  | fail => exact plain_nativeFail _
  | raise => exact .raise _
  | shape => exact (plain_expectObject _).andThen fun _ _ _ => .pure _
  | sealShape =>
    refine (plain_expectObject _).andThen fun _ _ _ => ?_
    exact (plain_sealShape _).andThen fun _ _ _ => .pure _
  | field =>
    refine (plain_expectObject _).andThen fun _ _ _ => ?_
    exact (plain_expectString _).andThen fun _ _ _ => .pure _
  | table => exact (plain_expectClass _).andThen fun _ _ _ => .pure _
  | superOf => exact (plain_expectClass _).andThen fun _ _ _ => .pure _
  | isSubclass =>
    refine (plain_expectClass _).andThen fun _ _ _ => ?_
    exact (plain_expectClass _).andThen fun _ _ _ => .pure _
  | members => exact (plain_expectClass _).andThen fun _ _ _ => plain_classMembers _
  | valueMethod =>
    refine (plain_expectString _).andThen fun _ _ _ => ?_
    exact plain_withHeap fun w _ => .newMethod w _
  | clearCaches => exact plain_clearCaches.andThen fun _ _ _ => .pure _
  | _ => exact .pure _

/-- A native function that enters the machine again has not done so yet. -/
theorem plain_runNative (body : NativeBody) (args : List Value) : Plain b n (runNative body args) m := by
  unfold runNative
  cases body with
  | apply | attempt =>
    cases args with
    | nil => exact plain_nativeFail _
    | cons callee rest => exact .pure _
  | callName =>
    cases args with
    | nil => exact plain_nativeFail _
    | cons v rest => exact (plain_expectString _).andThen fun _ _ _ => plain_callNamed _ _
  | own => exact .pure _
  | _ => exact (plain_plainNative _ _).andThen fun _ _ _ => .pure _

theorem plain_callbackError (c : Callback) (e : RuntimeError) : Plain b n (callbackError c e) m := by
  cases c with
  | apply => exact plain_nativeFail _
  | attempt => exact plain_newArray _
  | callName => exact .pure _

end ScriptVm.Exec
