import ScriptVm.Proofs.ConstantFields
import ScriptVm.Proofs.CautiousOperations
import ScriptVm.Proofs.GroundedInstructions

/-!
# What writes classes

Few instructions do anything to classes or to the cells of their static fields: those that make a class
from another one, those that declare static fields, and assignments to properties of a class. All other
computations of a machine `Exec.Leaves` classes and cells alone, whether they fail or not.

`Exec.leaves_execute` says so of the other instructions.
-/

set_option autoImplicit false

namespace ScriptVm

/-- The classes, and the cells of their static fields. -/
def Heap.classState (h : Heap) : Pool .cls Class × Pool .statics StaticFields := (h.classes, h.statics)

/-- New objects of other kinds change no class. -/
theorem Heap.Grown.classState_eq {h h' : Heap} (grown : h.Grown h') : h'.classState = h.classState := by
  obtain ⟨made, rfl⟩ := grown
  rfl

namespace Exec

open Machine

variable {α β : Type}

/-- A computation that leaves classes and static fields alone. -/
def Leaves (x : Exec α) : Prop := ∀ m : Machine, (x.after m).heap.classState = m.heap.classState

/-- Classes and cells are as before when the computation gives a value. -/
theorem Leaves.ok {x : Exec α} (h : Leaves x) {m m' : Machine} {v : α} (run : x.run m = .ok v m') :
    m'.heap.classState = m.heap.classState := by
  rw [← after_of_ok run]
  exact h m

/-- So they are when it fails. -/
theorem Leaves.error {x : Exec α} (h : Leaves x) {m m' : Machine} {f : Fault} (run : x.run m = .error f m') :
    m'.heap.classState = m.heap.classState := by
  rw [← after_of_error run]
  exact h m

/-- One after the other, two such computations leave them alone. -/
theorem Leaves.bind {x : Exec α} {f : α → Exec β} (first : Leaves x) (next : ∀ v, Leaves (f v)) :
    Leaves (x >>= f) := by
  intro m
  cases run : x.run m with
  | ok v m' => rw [after_bind run, next v m', first.ok run]
  | error e m' => rw [after_of_error (run_bind_of_error run), first.error run]

theorem Quiet.leaves {x : Exec α} (h : Quiet x) : Leaves x := fun m => (h.untouched m).heap.classState_eq

theorem Idle.leaves {x : Exec α} (h : Idle x) : Leaves x := h.quiet.leaves

theorem OnlyLogs.leaves {x : Exec α} (h : OnlyLogs x) : Leaves x := by
  intro m
  obtain ⟨log, same⟩ := h m
  show (x.after m).world.heap.classState = m.world.heap.classState
  rw [same]

/-! ## Single steps -/

/-- A change of the machine that keeps the classes and cells of its heap leaves them alone. -/
theorem leaves_modify (f : Machine → Machine)
    (same : ∀ m, (f m).heap.classState = m.heap.classState) : Leaves (modify f) := same

theorem leaves_modifyGet (f : Machine → α × Machine) (same : ∀ m, (f m).2.heap.classState = m.heap.classState) :
    Leaves (modifyGet f) := by
  intro m
  have run : (modifyGet f : Exec α).run m = .ok (f m).1 (f m).2 := rfl
  rw [after_of_ok run]
  exact same m

theorem leaves_withWorld (f : World → α × World)
    (same : ∀ w, (f w).2.heap.classState = w.heap.classState) : Leaves (withWorld f) :=
  fun m => same m.world

theorem leaves_withHeap (f : Heap → α × Heap)
    (same : ∀ h, (f h).2.classState = h.classState) : Leaves (withHeap f) :=
  fun m => same m.heap

theorem leaves_modifyHeap (f : Heap → Heap)
    (same : ∀ h, (f h).classState = h.classState) : Leaves (modifyHeap f) :=
  fun m => same m.heap

theorem leaves_pure (v : α) : Leaves (Pure.pure v : Exec α) := (idle_pure v).leaves

theorem leaves_fail (c : Cause) : Leaves (fail c : Exec α) := (idle_fail c).leaves

theorem leaves_failType (c : Text → Cause) (v : Value) : Leaves (do fail (c ((← get).typeName v)) : Exec α) :=
  (idle_get.bind fun _ => idle_fail _).leaves

theorem leaves_get : Leaves get := idle_get.leaves

theorem leaves_heap : Leaves heap := idle_heap.leaves

theorem leaves_frame : Leaves frame := idle_frame.leaves

theorem leaves_constantName (index : Nat) : Leaves (constantName index) := (idle_constantName index).leaves

theorem leaves_peek (distance : Nat) : Leaves (peek distance) := (idle_peek distance).leaves

theorem leaves_pop : Leaves pop := quiet_pop.leaves

theorem leaves_popMany (count : Nat) : Leaves (popMany count) := (quiet_popMany count).leaves

theorem leaves_setSlot (i : Nat) (v : Value) : Leaves (setSlot i v) := (quiet_setSlot i v).leaves

theorem leaves_push (v : Value) : Leaves (push v) := leaves_modify _ fun _ => rfl

theorem leaves_note (level : Level) (message : Unit → Text) : Leaves (note level message) :=
  (quiet_note level message).leaves

theorem leaves_newArray (items : List Value) : Leaves (newArray items) := leaves_withHeap _ fun _ => rfl

theorem leaves_modifyFrame (f : Frame → Frame) : Leaves (modifyFrame f) := by
  refine leaves_modify _ fun m => ?_
  split <;> rfl

/-! ## Operators and builtin methods -/

theorem leaves_add (a b : Value) : Leaves (add a b) := by
  refine leaves_get.bind fun m => ?_
  split
  · exact (idle_checked _).leaves
  · exact leaves_pure _
  · exact leaves_pure _
  · exact leaves_newArray _
  · split
    · exact leaves_pure _
    · exact leaves_fail _

/-- An assignment to an element writes an array or a table. -/
theorem leaves_setIndex (object index value : Value) : Leaves (setIndex object index value) := by
  refine leaves_get.bind fun m => ?_
  split
  · exact (idle_expectKey _).leaves.bind fun _ => leaves_modifyHeap _ fun _ => rfl
  · dsimp only
    split
    · exact leaves_modifyHeap _ fun _ => rfl
    · exact leaves_fail _
  · exact leaves_fail _

theorem leaves_range (start stop : Value) : Leaves (range start stop) := by
  unfold range
  split
  · refine idle_config.leaves.bind fun c => ?_
    split
    · exact leaves_newArray _
    · exact leaves_fail _
  · exact leaves_fail _

theorem leaves_hashLiteral (count : Nat) : Leaves (hashLiteral count) := by
  refine (idle_peekMany _).leaves.bind fun window => leaves_get.bind fun m => ?_
  dsimp only
  split
  · exact Leaves.bind (leaves_modify _ fun _ => rfl) fun _ => leaves_withHeap _ fun _ => rfl
  · exact Leaves.bind (leaves_modify _ fun _ => rfl) fun _ => leaves_failType _ _

/-- Beginning an iteration makes at most a range, which is a value. -/
theorem leaves_openIteration (v : Value) : Leaves (openIteration v) := by
  refine leaves_get.bind fun m => ?_
  dsimp only
  split
  · exact (leaves_pure _).bind fun _ => leaves_modify _ fun _ => rfl
  · exact (leaves_pure _).bind fun _ => leaves_modify _ fun _ => rfl
  · exact (leaves_pure _).bind fun _ => leaves_modify _ fun _ => rfl
  · exact (leaves_fail _).bind fun _ => leaves_modify _ fun _ => rfl

/-- Methods of arrays write arrays only. -/
theorem leaves_arrayMethod (r : Ref .array) (method : ArrayMethod) (args : List Value) :
    Leaves (arrayMethod r method args) := by
  refine leaves_get.bind fun m => ?_
  have checked : ∀ {x : Unit → Exec Value}, (∀ u, Leaves (x u)) → ∀ n, Leaves (expectArgs args n >>= x) :=
    fun next n => (idle_expectArgs args n).leaves.bind next
  cases method with
  | length => exact checked (fun _ => leaves_pure _) 0
  | push => exact Leaves.bind (leaves_modifyHeap _ fun _ => rfl) fun _ => leaves_pure _
  | pop =>
    refine checked (fun _ => ?_) 0
    exact Leaves.bind (leaves_modifyHeap _ fun _ => rfl) fun _ => leaves_pure _
  | first => exact checked (fun _ => leaves_pure _) 0
  | last => exact checked (fun _ => leaves_pure _) 0
  | join =>
    refine (idle_expectAtMost args 1).leaves.bind fun _ => ?_
    split
    · exact leaves_pure _
    · exact (idle_expectText _ _).leaves.bind fun _ => leaves_pure _
  | includes => exact checked (fun _ => leaves_pure _) 1
  | reverse => exact checked (fun _ => leaves_newArray _) 0

/-- Methods of hashes write tables only. -/
theorem leaves_hashMethod (r : Ref .table) (method : HashMethod) (args : List Value) :
    Leaves (hashMethod r method args) := by
  refine leaves_get.bind fun m => ?_
  have checked : ∀ {x : Unit → Exec Value}, (∀ u, Leaves (x u)) → ∀ n, Leaves (expectArgs args n >>= x) :=
    fun next n => (idle_expectArgs args n).leaves.bind next
  cases method with
  | length => exact checked (fun _ => leaves_pure _) 0
  | keys => exact checked (fun _ => leaves_newArray _) 0
  | values => exact checked (fun _ => leaves_newArray _) 0
  | hasKey => exact checked (fun _ => (idle_expectKey _).leaves.bind fun _ => leaves_pure _) 1
  | delete =>
    refine checked (fun _ => (idle_expectKey _).leaves.bind fun key => ?_) 1
    split
    · exact leaves_pure _
    · exact Leaves.bind (leaves_modifyHeap _ fun _ => rfl) fun _ => leaves_pure _

theorem leaves_textMethod (t : Text) (method : TextMethod) (args : List Value) : Leaves (textMethod t method args) := by
  unfold textMethod
  have checked : ∀ {x : Unit → Exec Value}, (∀ u, Leaves (x u)) → ∀ n, Leaves (expectArgs args n >>= x) :=
    fun next n => (idle_expectArgs args n).leaves.bind next
  cases method with
  | length => exact checked (fun _ => leaves_pure _) 0
  | upcase => exact checked (fun _ => leaves_pure _) 0
  | downcase => exact checked (fun _ => leaves_pure _) 0
  | trim => exact checked (fun _ => leaves_pure _) 0
  | split =>
    refine (idle_expectAtMost args 1).leaves.bind fun _ => ?_
    split
    · exact leaves_newArray _
    · exact (idle_expectText _ _).leaves.bind fun _ => leaves_newArray _
  | includes => exact checked (fun _ => (idle_expectText _ _).leaves.bind fun _ => leaves_pure _) 1

/-- No builtin method writes a class. -/
theorem leaves_callMethod (receiver : Value) (name : Text) (args : List Value) :
    Leaves (callMethod receiver name args) := by
  unfold callMethod
  split
  · split
    · exact leaves_arrayMethod _ _ _
    · exact (idle_noMethod _ _).leaves
  · split
    · exact leaves_hashMethod _ _ _
    · exact (idle_noMethod _ _).leaves
  · split
    · exact leaves_textMethod _ _ _
    · exact (idle_noMethod _ _).leaves
  · exact (idle_noMethod _ _).leaves

/-! ## Properties -/

theorem leaves_bindMethod (receiver method : Value) : Leaves (bindMethod receiver method) := by
  refine leaves_withWorld _ fun w => ?_
  unfold World.bind
  split <;> rfl

/-- Reading a property of an instance may record a cache entry and bind a method, but writes no class. -/
theorem leaves_getObjectProperty (r : Ref .object) (name : Text) (site : Site) :
    Leaves (getObjectProperty r name site) := by
  refine (quiet_intern name).leaves.bind fun s => leaves_heap.bind fun h => ?_
  refine (quiet_cachedField _ _ _).leaves.bind fun cached => ?_
  split
  · exact leaves_pure _
  refine (quiet_placedField _ _ _).leaves.bind fun placed => ?_
  split
  · exact leaves_pure _
  refine leaves_heap.bind fun h' => (quiet_cachedMethod _ _).leaves.bind fun method => ?_
  split
  · exact leaves_bindMethod _ _
  refine (quiet_classMethod _ _ _ _).leaves.bind fun found => ?_
  split
  · exact leaves_bindMethod _ _
  · exact leaves_fail _

theorem leaves_getClassProperty (r : Ref .cls) (name : Text) : Leaves (getClassProperty r name) := by
  refine leaves_heap.bind fun h => ?_
  split
  · exact leaves_pure _
  split
  · exact leaves_bindMethod _ _
  split
  · exact leaves_pure _
  · exact leaves_fail _

theorem leaves_getSuperMethod (r : Ref .cls) (name : Text) : Leaves (getSuperMethod r name) := by
  refine leaves_heap.bind fun h => ?_
  split
  · exact leaves_get.bind fun _ => leaves_frame.bind fun _ => leaves_bindMethod _ _
  · exact leaves_fail _

theorem leaves_newMethod (receiver : Value) (name : Text) : Leaves (newMethod receiver name) :=
  leaves_withHeap _ fun _ => rfl

theorem leaves_getProperty (object : Value) (name : Text) (site : Site) : Leaves (getProperty object name site) := by
  unfold getProperty
  split
  · exact leaves_getObjectProperty _ _ _
  · exact leaves_getClassProperty _ _
  · refine leaves_heap.bind fun h => ?_
    split
    · exact leaves_pure _
    · exact leaves_newMethod _ _
  · exact leaves_newMethod _ _
  · split
    · exact leaves_pure _
    · exact leaves_newMethod _ _
  · exact leaves_getSuperMethod _ _
  · exact leaves_get.bind fun _ => leaves_fail _

theorem leaves_getSuper (name : Text) : Leaves (getSuper name) := by
  refine leaves_frame.bind fun f => leaves_heap.bind fun h => ?_
  split
  · exact leaves_getSuperMethod _ _
  · exact leaves_fail _

/-- Setting a field writes the instance and may add a shape. -/
theorem classState_setField (w : World) (r : Ref .object) (s : Symbol) (v : Value) :
    (w.setField r s v).heap.classState = w.heap.classState := by
  rw [World.setField_eq]
  rfl

theorem leaves_setCachedField (site : Site) (r : Ref .object) (s : Symbol) (v : Value) :
    Leaves (setCachedField site r s v) := by
  refine idle_config.leaves.bind fun c => ?_
  split
  · refine leaves_heap.bind fun h => (quiet_withCaches _).leaves.bind fun cache => ?_
    -- The world that is put back is the one that was read.
    intro m
    rw [after_bind (run_get m)]
    dsimp only
    split
    next w found =>
      obtain ⟨offset, -, done⟩ := Option.bind_eq_some_iff.1 found
      obtain ⟨fields, -, rfl⟩ := (World.setFieldAt?_eq_some_iff ..).1 done
      rfl
    next => rfl
  · exact leaves_pure _

/-- Assigning to a field of an instance writes the instance only. -/
theorem leaves_setObjectProperty (r : Ref .object) (name : Text) (v : Value) (site : Site) :
    Leaves (setObjectProperty r name v site) := by
  refine (quiet_intern name).leaves.bind fun s => leaves_heap.bind fun h => ?_
  split
  · exact leaves_fail _
  refine (leaves_setCachedField site r s v).bind fun hit => ?_
  split
  · exact leaves_pure _
  refine (leaves_withWorld _ fun w => classState_setField w r s v).bind fun _ => ?_
  refine leaves_heap.bind fun h' => leaves_get.bind fun m => ?_
  split
  · exact (quiet_rememberProperty _ _ _).leaves
  · exact leaves_pure _

/-! ## Calls -/

theorem leaves_pushFrame (f : Frame) : Leaves (pushFrame f) := (onlyLogs_pushFrame f).leaves

theorem leaves_callClosure (r : Ref .closure) (argc : Nat) (isConstructor : Bool) :
    Leaves (callClosure r argc isConstructor) := (onlyLogs_callClosure r argc isConstructor).leaves

/-- Making an instance reads the classes of its chain. -/
theorem leaves_instantiate (r : Ref .cls) (argc : Nat) : Leaves (instantiate r argc) := by
  intro m
  obtain ⟨log, made⟩ := instantiated_instantiate argc m
  show ((instantiate r argc).after m).world.heap.classState = m.world.heap.classState
  rw [made, World.newObject_eq]
  rfl

theorem leaves_reorder (callee : Value) (argc : Nat) : Leaves (reorder callee argc) :=
  (quiet_reorder callee argc).leaves

theorem leaves_mapM {f : α → Exec β} (h : ∀ a, Leaves (f a)) (as : List α) : Leaves (as.mapM f) := by
  induction as with
  | nil => exact leaves_pure _
  | cons a as ih =>
    rw [List.mapM_cons]
    exact (h a).bind fun _ => ih.bind fun _ => leaves_pure _

theorem leaves_classMembers (r : Ref .cls) : Leaves (classMembers r) :=
  leaves_heap.bind fun _ => (leaves_mapM (fun _ => leaves_newArray _) _).bind fun _ => leaves_newArray _

/-- Native functions that need no call back write no class, whatever they look at. -/
theorem leaves_plainNative (body : NativeBody) (args : List Value) : Leaves (plainNative body args) := by
  refine leaves_get.bind fun m => ?_
  cases body with
  | args | pair => exact leaves_newArray _
  | fail => exact leaves_fail _
  | raise => exact fun _ => rfl
  | shape => exact (idle_expectObject _).leaves.bind fun _ => leaves_pure _
  | sealShape =>
    refine (idle_expectObject _).leaves.bind fun _ => ?_
    exact Leaves.bind (leaves_modify _ fun _ => rfl) fun _ => leaves_pure _
  | field =>
    exact (idle_expectObject _).leaves.bind fun _ => (idle_expectString _).leaves.bind fun _ => leaves_pure _
  | table => exact (idle_expectClass _).leaves.bind fun _ => leaves_pure _
  | superOf => exact (idle_expectClass _).leaves.bind fun _ => leaves_pure _
  | isSubclass =>
    exact (idle_expectClass _).leaves.bind fun _ => (idle_expectClass _).leaves.bind fun _ => leaves_pure _
  | members => exact (idle_expectClass _).leaves.bind fun _ => leaves_classMembers _
  | valueMethod => exact (idle_expectString _).leaves.bind fun _ => leaves_withHeap _ fun _ => rfl
  | clearCaches => exact Leaves.bind (leaves_modify _ fun _ => rfl) fun _ => leaves_pure _
  | _ => exact leaves_pure _

theorem leaves_callNamed (name : Text) (args : List Value) : Leaves (callNamed name args) := by
  refine leaves_get.bind fun m => ?_
  split
  · exact leaves_pure _
  · exact Leaves.bind (leaves_modify _ fun _ => rfl) fun _ => leaves_pure _

theorem leaves_runNative (body : NativeBody) (args : List Value) : Leaves (runNative body args) := by
  unfold runNative
  cases body with
  | apply | attempt =>
    cases args with
    | nil => exact leaves_fail _
    | cons callee rest => exact leaves_pure _
  | callName =>
    cases args with
    | nil => exact leaves_fail _
    | cons v rest => exact (idle_expectString v).leaves.bind fun name => leaves_callNamed name rest
  | own => exact leaves_pure _
  | _ => exact (leaves_plainNative _ args).bind fun _ => leaves_pure _

theorem leaves_callNative (r : Ref .native) (argc : Nat) (withReceiver : Bool) :
    Leaves (callNative r argc withReceiver) := by
  refine leaves_heap.bind fun h => ?_
  dsimp only
  split
  · exact leaves_fail _
  refine (leaves_popMany argc).bind fun args => leaves_pop.bind fun receiver => ?_
  refine (leaves_runNative _ _).bind fun answer => ?_
  split
  · exact (leaves_push _).bind fun _ => leaves_pure _
  · exact leaves_pure _

/-- No kind of callee has its class written when it is called. -/
theorem leaves_call (argc : Nat) : Leaves (call argc) := by
  refine (leaves_peek argc).bind fun callee => (leaves_reorder callee argc).bind fun argc => ?_
  split
  · exact (leaves_callClosure _ _ _).bind fun _ => leaves_pure _
  · exact leaves_callNative _ _ _
  · exact (leaves_instantiate _ _).bind fun _ => leaves_pure _
  · refine leaves_heap.bind fun h => leaves_get.bind fun m => (leaves_setSlot _ _).bind fun _ => ?_
    split
    · exact (leaves_callClosure _ _ _).bind fun _ => leaves_pure _
    · exact leaves_callNative _ _ _
  · refine leaves_heap.bind fun h => (leaves_popMany _).bind fun args => leaves_pop.bind fun _ => ?_
    exact (leaves_callMethod _ _ _).bind fun v => (leaves_push v).bind fun _ => leaves_pure _
  · exact leaves_fail _

theorem leaves_new (argc : Nat) : Leaves (new argc) := by
  refine (leaves_peek argc).bind fun callee => ?_
  split
  · exact (leaves_reorder _ _).bind fun _ => leaves_instantiate _ _
  · exact leaves_failType _ _

/-! ## Captured variables and unwinding -/

theorem classState_closeCells (m : Machine) (start : Nat) :
    (m.closeCells start).heap.classState = m.heap.classState := by
  unfold Machine.closeCells
  dsimp only
  split <;> rfl

/-- Ending calls closes captured variables, which are cells of their own kind. -/
theorem classState_endFrames (depth : Nat) (fs : List Frame) (m : Machine) :
    (endFrames depth fs m).heap.classState = m.heap.classState := by
  induction fs generalizing m with
  | nil => rfl
  | cons f rest ih =>
    unfold endFrames
    split
    · rw [ih, classState_closeCells]
    · rfl

theorem classState_unwindTo (m : Machine) (d : Depths) : (m.unwindTo d).heap.classState = m.heap.classState :=
  (classState_closeCells _ _).trans (classState_endFrames _ _ _)

theorem classState_enterCatch (m : Machine) (h : Handler) (v : Value) :
    (m.enterCatch h v).heap.classState = m.heap.classState :=
  (classState_closeCells _ _).trans (classState_endFrames _ _ _)

theorem leaves_closeCells (start : Nat) : Leaves (closeCells start) :=
  leaves_modify _ fun m => classState_closeCells m start

theorem leaves_readCell (r : Ref .cell) : Leaves (readCell r) := by
  refine leaves_get.bind fun m => ?_
  split <;> exact leaves_pure _

theorem leaves_writeCell (r : Ref .cell) (v : Value) : Leaves (writeCell r v) := by
  refine leaves_heap.bind fun h => ?_
  split
  · exact leaves_setSlot _ _
  · exact leaves_modifyHeap _ fun _ => rfl

theorem leaves_captureSlot (slot : Nat) : Leaves (captureSlot slot) := by
  refine leaves_get.bind fun m => ?_
  split
  · exact leaves_pure _
  · refine Leaves.bind (leaves_withHeap _ fun _ => rfl) fun cell => ?_
    exact Leaves.bind (leaves_modify _ fun _ => rfl) fun _ => leaves_pure _

theorem leaves_ownCell (index : Nat) : Leaves (ownCell index) :=
  leaves_frame.bind fun _ => leaves_heap.bind fun _ => leaves_heap.bind fun _ => leaves_pure _

theorem leaves_captureAll (base : Nat) (cs : List Capture) : Leaves (captureAll base cs) := by
  induction cs with
  | nil => exact leaves_pure _
  | cons c rest ih =>
    unfold captureAll
    split
    · exact (leaves_captureSlot _).bind fun _ => ih.bind fun _ => leaves_pure _
    · exact (leaves_ownCell _).bind fun _ => ih.bind fun _ => leaves_pure _

theorem leaves_throwValue (v : Value) : Leaves (throwValue v) := by
  refine leaves_get.bind fun m => ?_
  split
  next h rest _ =>
    dsimp only
    refine (leaves_modify _ fun m => ?_).bind fun _ => leaves_get.bind fun _ => leaves_note _ _
    exact classState_enterCatch { m with handlers := rest } h v
  next => exact (leaves_note _ _).bind fun _ => leaves_fail _

/-- A return ends the call and writes no class. -/
theorem leaves_returnFrom : Leaves returnFrom := by
  refine leaves_pop.bind fun result => leaves_get.bind fun m => ?_
  split
  · exact leaves_pure _
  next f rest _ =>
    dsimp only
    refine Leaves.bind (α := Unit) (leaves_modify _ fun m => ?_) fun _ => leaves_get.bind fun m₁ => ?_
    · exact classState_closeCells { m with handlers := _, frames := rest } f.base
    refine Leaves.bind (leaves_modify _ fun _ => rfl) fun _ => ?_
    split
    · exact leaves_pure _
    · exact (leaves_push _).bind fun _ => leaves_pure _

theorem leaves_nextItem : Leaves nextItem := by
  refine leaves_modifyGet _ fun m => ?_
  split
  · rfl
  · split <;> rfl

/-! ## Instructions -/

theorem leaves_pushed (v : Value) : Leaves (pushed v) := (leaves_push v).bind fun _ => leaves_pure _

theorem Leaves.pushing {x : Exec Value} (h : Leaves x) : Leaves (x >>= pushed) := h.bind fun _ => leaves_pushed _

theorem Leaves.andNext {x : Exec Unit} (h : Leaves x) : Leaves (andNext x) := h.bind fun _ => leaves_pure _

theorem leaves_binary {f : Value → Value → Exec Value} (h : ∀ a b, Leaves (f a b)) : Leaves (binary f) :=
  leaves_pop.bind fun _ => leaves_pop.bind fun _ => (h _ _).bind fun _ => leaves_pushed _

theorem leaves_compare {f : Value → Value → Exec Bool} (h : ∀ a b, Leaves (f a b)) : Leaves (compare f) :=
  leaves_binary fun a b => (h a b).bind fun _ => leaves_pure _

theorem leaves_constantValue (c : Constant) : Leaves (constantValue c) := by
  cases c with
  | function p => exact Leaves.bind (leaves_withWorld _ fun _ => rfl) fun _ => leaves_pure _
  | _ => exact leaves_pure _

theorem leaves_getGlobal (name : Text) : Leaves (getGlobal name) := by
  refine leaves_get.bind fun m => ?_
  split
  · exact leaves_pure _
  · exact leaves_fail _

theorem leaves_setGlobal (name : Text) (v : Value) : Leaves (setGlobal name v) := by
  refine leaves_get.bind fun m => ?_
  split
  · exact leaves_modify _ fun _ => rfl
  · exact leaves_fail _

theorem leaves_makeClosure (index : Nat) : Leaves (makeClosure index) := by
  refine (idle_constant index).leaves.bind fun c => ?_
  split
  · refine leaves_frame.bind fun f => (leaves_captureAll _ _).bind fun cells => ?_
    exact Leaves.bind (leaves_withHeap _ fun _ => rfl) fun _ => leaves_pure _
  · exact leaves_fail _

theorem leaves_printLine (count : Nat) : Leaves (printLine count) := by
  refine leaves_get.bind fun m => (leaves_popMany count).bind fun vs => ?_
  dsimp only
  split
  · exact Leaves.bind (leaves_withWorld _ fun _ => rfl) fun _ => leaves_modify _ fun _ => rfl
  · exact leaves_modify _ fun _ => rfl

theorem leaves_importModule (index : Nat) : Leaves (importModule index) := by
  refine leaves_get.bind fun m => ?_
  split
  · exact (leaves_constantName index).bind fun _ => leaves_note _ _
  · exact leaves_pure _

theorem leaves_jumpIf (condition : Bool) (distance : Nat) : Leaves (jumpIf condition distance) := by
  refine Leaves.andNext ?_
  split
  · exact leaves_modifyFrame _
  · exact leaves_pure _

theorem leaves_callProgress (argc : Nat) : Leaves (callProgress argc) := by
  refine (leaves_call argc).bind fun request => ?_
  split <;> exact leaves_pure _

theorem leaves_fetch : Leaves fetch := by
  refine leaves_frame.bind fun f => leaves_get.bind fun m => ?_
  split
  · exact (leaves_modifyFrame _).bind fun _ => leaves_pure _
  · exact (leaves_push _).bind fun _ => leaves_pure _

end Exec

/-- The instructions that may write classes or static fields. -/
def OpCode.writesClasses : OpCode → Bool
  | .newClass | .inherit | .method | .staticMethod | .field | .constField | .staticField | .staticConstField
  | .setProperty => true
  | _ => false

/-- All other instructions leave classes and static fields alone. -/
theorem Exec.leaves_execute (i : Instruction) (other : i.op.writesClasses = false) : Leaves (execute i) := by
  obtain ⟨op, x, y⟩ := i
  unfold execute
  cases op with
  | constant => exact (idle_constant _).leaves.bind fun _ => (leaves_constantValue _).pushing
  | pushNull | pushTrue | pushFalse => exact leaves_pushed _
  | pop => exact leaves_pop.bind fun _ => leaves_pure _
  | dup => exact (leaves_peek _).pushing
  | getLocal | getThis => exact leaves_get.bind fun _ => leaves_frame.bind fun _ => leaves_pushed _
  | setLocal => exact Leaves.andNext (leaves_frame.bind fun _ => (leaves_peek 0).bind fun _ => leaves_setSlot _ _)
  | getGlobal => exact (leaves_constantName _).bind fun _ => (leaves_getGlobal _).pushing
  | setGlobal =>
    exact Leaves.andNext ((leaves_constantName _).bind fun _ => (leaves_peek 0).bind fun _ => leaves_setGlobal _ _)
  | defineGlobal =>
    exact Leaves.andNext ((leaves_constantName _).bind fun _ => leaves_pop.bind fun _ => leaves_modify _ fun _ => rfl)
  | getUpvalue => exact (leaves_ownCell _).bind fun _ => (leaves_readCell _).pushing
  | setUpvalue =>
    exact Leaves.andNext ((leaves_ownCell _).bind fun _ => (leaves_peek 0).bind fun _ => leaves_writeCell _ _)
  | closeUpvalue =>
    exact leaves_get.bind fun _ => (leaves_closeCells _).bind fun _ => leaves_pop.bind fun _ => leaves_pure _
  | add => exact leaves_binary leaves_add
  | subtract => exact leaves_binary fun _ _ => (idle_subtract _ _).leaves
  | multiply => exact leaves_binary fun _ _ => (idle_multiply _ _).leaves
  | divide => exact leaves_binary fun _ _ => (idle_divide _ _).leaves
  | modulo => exact leaves_binary fun _ _ => (idle_modulo _ _).leaves
  | negate => exact leaves_pop.bind fun _ => (idle_negate _).leaves.pushing
  | equal | notEqual => exact leaves_compare fun _ _ => leaves_heap.bind fun _ => leaves_pure _
  | less | greater => exact leaves_compare fun _ _ => (idle_less _ _).leaves
  | lessEqual | greaterEqual => exact leaves_compare fun _ _ => (idle_lessEqual _ _).leaves
  | not => exact leaves_pop.bind fun _ => leaves_get.bind fun _ => leaves_pushed _
  | jump | loop => exact Leaves.andNext (leaves_modifyFrame _)
  | jumpIfFalse => exact leaves_pop.bind fun _ => leaves_get.bind fun _ => leaves_jumpIf _ _
  | jumpIfFalseNoPop | jumpIfTrueNoPop =>
    exact leaves_get.bind fun _ => (leaves_peek 0).bind fun _ => leaves_jumpIf _ _
  | nullishJump => exact (leaves_peek 0).bind fun _ => leaves_jumpIf _ _
  | call => exact leaves_callProgress _
  | closure => exact (leaves_makeClosure _).pushing
  | ret => exact leaves_returnFrom
  | array => exact (leaves_popMany _).bind fun _ => (leaves_newArray _).pushing
  | hash => exact (leaves_hashLiteral _).pushing
  | range => exact leaves_binary leaves_range
  | getIndex => exact leaves_binary fun _ _ => (idle_getIndex _ _).leaves
  | setIndex =>
    refine leaves_pop.bind fun _ => leaves_pop.bind fun _ => leaves_pop.bind fun _ => ?_
    exact (leaves_setIndex _ _ _).bind fun _ => leaves_pushed _
  | buildString => exact leaves_get.bind fun _ => (leaves_popMany _).bind fun _ => leaves_pushed _
  | spread => exact leaves_pure _
  | getProperty =>
    refine (leaves_constantName _).bind fun _ => leaves_pop.bind fun _ => ?_
    exact idle_site.leaves.bind fun _ => (leaves_getProperty _ _ _).pushing
  | setProperty | newClass | inherit | method | staticMethod | field | staticField | constField | staticConstField =>
    cases other
  | new => exact (leaves_new _).andNext
  | getSuper => exact (leaves_constantName _).bind fun _ => leaves_pop.bind fun _ => (leaves_getSuper _).pushing
  | tryBegin | tryEnd => exact Leaves.andNext (leaves_modify _ fun _ => rfl)
  | throwTop => exact Leaves.andNext (leaves_pop.bind fun _ => leaves_throwValue _)
  | getIter => exact Leaves.andNext (leaves_pop.bind fun _ => leaves_openIteration _)
  | forIter =>
    refine leaves_nextItem.bind fun item => ?_
    split
    · exact leaves_pushed _
    · exact Leaves.andNext (leaves_modifyFrame _)
  | print => exact (leaves_printLine _).bind fun _ => leaves_pushed _
  | namedArg => exact (leaves_constantName _).bind fun _ => leaves_pushed _
  | importModule => exact (leaves_importModule _).andNext
  | unknown => exact leaves_fail _

end ScriptVm
