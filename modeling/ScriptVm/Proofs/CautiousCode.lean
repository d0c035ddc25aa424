import ScriptVm.Proofs.PlainInstructions

/-!
# Computations that check before they change

`Exec.Idle` computations leave the machine as it is, `Exec.Quiet` ones change nothing visible, and
`Exec.Safe` ones do not fail. A chain of quiet ones followed by safe ones is `Exec.Cautious`: if it
fails, nothing visible has changed, the error is at the position of the machine, and it is not
recorded yet.

Only two native functions are an exception, and `Exec.CautiousWith` says which one may be called.
-/

set_option autoImplicit false

namespace ScriptVm

/-- `h'` is `h` with some more instances. -/
def Heap.Grown (h h' : Heap) : Prop :=
  ∃ made : Array Instance, h' = { h with objects := ⟨h.objects.items ++ made⟩ }

namespace Heap.Grown

variable {h h' h'' : Heap}

/-- Nothing has been made. -/
theorem refl (h : Heap) : h.Grown h := ⟨#[], by rw [Array.append_empty]⟩

/-- Objects are made one after the other. -/
theorem trans (first : h.Grown h') (next : h'.Grown h'') : h.Grown h'' := by
  obtain ⟨made, rfl⟩ := first
  obtain ⟨made', rfl⟩ := next
  exact ⟨made ++ made', by simp only [Array.append_assoc]⟩

/-- Every instance is as it was. -/
theorem get_object (grown : h.Grown h') {r : Ref .object} (known : h.objects.has r) :
    h'.objects.get r = h.objects.get r := by
  obtain ⟨made, rfl⟩ := grown
  have known : r.index < h.objects.items.size := known
  simp only [Pool.get, Array.getD_eq_getD_getElem?, Array.getElem?_append_left known]

end Heap.Grown

/-- Nothing visible of `m` is different in `m'`: only the stack, symbols, shapes, caches, numbers and
the log may be, and there may be instances that were not there. -/
structure Machine.Untouched (m m' : Machine) : Prop where
  config : m'.config = m.config
  frames : m'.frames = m.frames
  handlers : m'.handlers = m.handlers
  iterations : m'.iterations = m.iterations
  openCells : m'.openCells = m.openCells
  runBase : m'.runBase = m.runBase
  globals : m'.globals = m.globals
  output : m'.output = m.output
  lastUnwind : m'.lastUnwind = m.lastUnwind
  diagnostics : m'.diagnostics = m.diagnostics
  heap : m.heap.Grown m'.heap

/-- What is recorded of an error. -/
def Machine.reportOf (m : Machine) (e : RuntimeError) : Diagnostic := { error := e, trace := m.trace }

namespace Machine.Untouched

theorem refl (m : Machine) : m.Untouched m := ⟨rfl, rfl, rfl, rfl, rfl, rfl, rfl, rfl, rfl, rfl, .refl _⟩

theorem trans {m m' m'' : Machine} (h : m.Untouched m') (h' : m'.Untouched m'') : m.Untouched m'' where
  config := h'.config.trans h.config
  frames := h'.frames.trans h.frames
  handlers := h'.handlers.trans h.handlers
  iterations := h'.iterations.trans h.iterations
  openCells := h'.openCells.trans h.openCells
  runBase := h'.runBase.trans h.runBase
  globals := h'.globals.trans h.globals
  output := h'.output.trans h.output
  lastUnwind := h'.lastUnwind.trans h.lastUnwind
  diagnostics := h'.diagnostics.trans h.diagnostics
  heap := h.heap.trans h'.heap

/-- The position is a matter of the calls and their code. -/
theorem span {m m' : Machine} (h : m.Untouched m') : m'.span = m.span := by
  obtain ⟨made, grown⟩ := h.heap
  simp only [Machine.span, Machine.lineOf, Machine.protoOf, h.frames, grown]

/-- An untouched machine reports an error in the same words. -/
theorem reportOf {m m' : Machine} (h : m.Untouched m') (e : RuntimeError) : m'.reportOf e = m.reportOf e := by
  obtain ⟨made, grown⟩ := h.heap
  simp only [Machine.reportOf, Machine.trace, Machine.lineOf, Machine.protoOf, h.frames, grown]

end Machine.Untouched

/-- An error is at the position of the machine. -/
def Fault.At (m : Machine) : Fault → Prop
  | .error e => e.span = m.span
  | .missingConstant => True

/-- The error that the native function `raise` throws, at a position of its own. -/
def Fault.Thrown (f : Fault) : Prop := ∃ detail, f = .error ⟨.typeError detail, Exec.raiseSpan⟩

namespace Exec

open Machine

variable {α β : Type}

/-- A computation whose faults are at the position that the machine has then. -/
def InPlace (x : Exec α) : Prop := ∀ m f m', x.run m = .error f m' → f.At m'

/-- A computation that records no error. -/
def Silent (x : Exec α) : Prop := ∀ m, (x.after m).diagnostics = m.diagnostics

/-- A computation that leaves the machine as it is. -/
structure Idle (x : Exec α) : Prop where
  same : ∀ m, x.after m = m
  inPlace : InPlace x

/-- A computation that changes nothing visible, whether it fails or not. -/
structure Quiet (x : Exec α) : Prop where
  untouched : ∀ m : Machine, m.Untouched (x.after m)
  inPlace : InPlace x

/-- A computation that does not fail, and records no error. -/
structure Safe (x : Exec α) : Prop where
  succeeds : ∀ m f m', x.run m ≠ .error f m'
  silent : Silent x

/-- A computation that leaves the machine as it is if it fails. -/
structure Undone (x : Exec α) : Prop where
  undone : ∀ m f m', x.run m = .error f m' → m' = m
  inPlace : InPlace x
  silent : Silent x

/-- A computation that has changed nothing visible if it fails. -/
structure Cautious (x : Exec α) : Prop where
  untouched : ∀ (m : Machine) f m', x.run m = .error f m' → m.Untouched m'
  inPlace : InPlace x
  silent : Silent x

section

variable {x : Exec α} {f : α → Exec β}

/-- The second computation reports its errors where the first has left the machine. -/
theorem InPlace.bind (first : InPlace x) (next : ∀ v, InPlace (f v)) : InPlace (x >>= f) := by
  intro m e m'' failed
  cases run : x.run m with
  | ok v m' =>
    rw [run_bind_of_ok run] at failed
    exact next v m' e m'' failed
  | error e' m' =>
    rw [run_bind_of_error run] at failed
    cases failed
    exact first m e m'' run

theorem Silent.bind (first : Silent x) (next : ∀ v, Silent (f v)) : Silent (x >>= f) := by
  intro m
  have silent := first m
  cases run : x.run m with
  | ok v m' =>
    rw [after_of_ok run] at silent
    rw [after_bind run, next v m', silent]
  | error e m' =>
    rw [after_of_error run] at silent
    rw [after_of_error (run_bind_of_error run), silent]

/-- What changes nothing is quiet. -/
theorem Idle.quiet (h : Idle x) : Quiet x where
  untouched m := by
    rw [h.same m]
    exact .refl m
  inPlace := h.inPlace

theorem Idle.undone (h : Idle x) : Undone x where
  undone m f m' run := by rw [← h.same m, after_of_error run]
  inPlace := h.inPlace
  silent m := by rw [h.same m]

theorem Quiet.silent (h : Quiet x) : Silent x := fun m => (h.untouched m).diagnostics

/-- What nobody sees is cautious. -/
theorem Quiet.cautious (h : Quiet x) : Cautious x where
  untouched m f m' run := by
    rw [← after_of_error run]
    exact h.untouched m
  inPlace := h.inPlace
  silent := h.silent

/-- What fails with the machine as it was is cautious. -/
theorem Undone.cautious (h : Undone x) : Cautious x where
  untouched m f m' run := by
    rw [h.undone m f m' run]
    exact .refl m
  inPlace := h.inPlace
  silent := h.silent

theorem Idle.cautious (h : Idle x) : Cautious x := h.quiet.cautious

theorem Safe.inPlace (h : Safe x) : InPlace x := fun m f m' run => absurd run (h.succeeds m f m')

/-- What does not fail has nothing to undo. -/
theorem Safe.undone (h : Safe x) : Undone x where
  undone m f m' run := absurd run (h.succeeds m f m')
  inPlace := h.inPlace
  silent := h.silent

theorem Safe.cautious (h : Safe x) : Cautious x := h.undone.cautious

/-- Two computations that change nothing change nothing. -/
theorem Idle.bind (first : Idle x) (next : ∀ v, Idle (f v)) : Idle (x >>= f) where
  same m := by
    have same := first.same m
    cases run : x.run m with
    | ok v m' =>
      rw [after_of_ok run] at same
      rw [after_bind run, (next v).same m', same]
    | error e m' =>
      rw [after_of_error run] at same
      rw [after_of_error (run_bind_of_error run), same]
  inPlace := first.inPlace.bind fun v => (next v).inPlace

/-- Two quiet computations are quiet. -/
theorem Quiet.bind (first : Quiet x) (next : ∀ v, Quiet (f v)) : Quiet (x >>= f) where
  untouched m := by
    have untouched := first.untouched m
    cases run : x.run m with
    | ok v m' =>
      rw [after_of_ok run] at untouched
      rw [after_bind run]
      exact untouched.trans ((next v).untouched m')
    | error e m' =>
      rw [after_of_error run] at untouched
      rw [after_of_error (run_bind_of_error run)]
      exact untouched
  inPlace := first.inPlace.bind fun v => (next v).inPlace

/-- Two computations that do not fail do not fail. -/
theorem Safe.bind (first : Safe x) (next : ∀ v, Safe (f v)) : Safe (x >>= f) where
  succeeds m e m'' failed := by
    cases run : x.run m with
    | ok v m' =>
      rw [run_bind_of_ok run] at failed
      exact (next v).succeeds m' e m'' failed
    | error e' m' => exact first.succeeds m e' m' run
  silent := first.silent.bind fun v => (next v).silent

/-- What changes nothing may come before what is undone. -/
theorem Idle.thenUndone (first : Idle x) (next : ∀ v, Undone (f v)) : Undone (x >>= f) where
  undone m e m'' failed := by
    have same := first.same m
    cases run : x.run m with
    | ok v m' =>
      rw [after_of_ok run] at same
      rw [run_bind_of_ok run, same] at failed
      exact (next v).undone m e m'' failed
    | error e' m' =>
      rw [after_of_error run] at same
      rw [run_bind_of_error run] at failed
      cases failed
      exact same
  inPlace := first.inPlace.bind fun v => (next v).inPlace
  silent := first.undone.silent.bind fun v => (next v).silent

/-- What is quiet may be followed by more checks. -/
theorem Quiet.before (first : Quiet x) (next : ∀ v, Cautious (f v)) : Cautious (x >>= f) where
  untouched m e m'' failed := by
    have untouched := first.untouched m
    cases run : x.run m with
    | ok v m' =>
      rw [after_of_ok run] at untouched
      rw [run_bind_of_ok run] at failed
      exact untouched.trans ((next v).untouched m' e m'' failed)
    | error e' m' =>
      rw [after_of_error run] at untouched
      rw [run_bind_of_error run] at failed
      cases failed
      exact untouched
  inPlace := first.inPlace.bind fun v => (next v).inPlace
  silent := first.silent.bind fun v => (next v).silent

theorem Idle.before (first : Idle x) (next : ∀ v, Cautious (f v)) : Cautious (x >>= f) := first.quiet.before next

/-- After the last check nothing fails any more. -/
theorem Cautious.before (first : Cautious x) (next : ∀ v, Safe (f v)) : Cautious (x >>= f) where
  untouched m e m'' failed := by
    cases run : x.run m with
    | ok v m' =>
      rw [run_bind_of_ok run] at failed
      exact absurd failed ((next v).succeeds m' e m'')
    | error e' m' =>
      rw [run_bind_of_error run] at failed
      cases failed
      exact first.untouched m e m'' run
  inPlace := first.inPlace.bind fun v => (next v).inPlace
  silent := first.silent.bind fun v => (next v).silent

end

/-! ## Single steps -/

/-- Looking at the machine. -/
theorem idle_of_ok {x : Exec α} (looks : ∀ m, ∃ v, x.run m = .ok v m) : Idle x := by
  refine ⟨fun m => ?_, fun m f m' failed => ?_⟩ <;> obtain ⟨v, run⟩ := looks m
  · exact after_of_ok run
  · cases run.symm.trans failed

theorem quiet_of_ok {x : Exec α} (changes : ∀ m : Machine, ∃ v m', x.run m = .ok v m' ∧ m.Untouched m') :
    Quiet x := by
  refine ⟨fun m => ?_, fun m f m'' failed => ?_⟩ <;> obtain ⟨v, m', run, untouched⟩ := changes m
  · rw [after_of_ok run]
    exact untouched
  · cases run.symm.trans failed

theorem idle_pure (v : α) : Idle (Pure.pure v : Exec α) := idle_of_ok fun _ => ⟨v, rfl⟩

theorem idle_missing : Idle (throw .missingConstant : Exec α) where
  same _ := rfl
  inPlace m f m' failed := by
    cases failed
    trivial

/-- An error of the machine is at the position that it has then. -/
theorem idle_fail (c : Cause) : Idle (fail c : Exec α) where
  same _ := rfl
  inPlace m f m' failed := by
    cases failed
    rfl

theorem idle_get : Idle get := idle_of_ok fun _ => ⟨_, rfl⟩

theorem idle_heap : Idle heap := idle_of_ok fun _ => ⟨_, rfl⟩

theorem idle_config : Idle config := idle_of_ok fun _ => ⟨_, rfl⟩

theorem idle_frame : Idle frame := idle_of_ok fun _ => ⟨_, rfl⟩

theorem idle_site : Idle site := idle_of_ok fun _ => ⟨_, rfl⟩

theorem idle_peek (k : Nat) : Idle (peek k) := idle_of_ok fun _ => ⟨_, rfl⟩

theorem idle_peekMany (k : Nat) : Idle (peekMany k) := idle_of_ok fun _ => ⟨_, rfl⟩

theorem quiet_modify (f : Machine → Machine)
    (untouched : ∀ m : Machine, m.Untouched (f m) := by exact fun m => { Untouched.refl m with }) : Quiet (modify f) :=
  quiet_of_ok fun m => ⟨_, _, rfl, untouched m⟩

theorem quiet_pop : Quiet pop := quiet_of_ok fun m => ⟨_, _, rfl, { Untouched.refl m with }⟩

theorem quiet_popMany (k : Nat) : Quiet (popMany k) := quiet_of_ok fun m => ⟨_, _, rfl, { Untouched.refl m with }⟩

theorem quiet_setSlot (i : Nat) (v : Value) : Quiet (setSlot i v) :=
  quiet_modify _

theorem quiet_count (f : CacheStats → CacheStats) : Quiet (count f) :=
  quiet_modify _

theorem quiet_withWorld {f : World → α × World} (grown : ∀ w : World, w.heap.Grown (f w).2.heap) :
    Quiet (withWorld f) :=
  quiet_of_ok fun m => ⟨_, _, rfl, { Untouched.refl m with heap := grown m.world }⟩

/-- What leaves the heap alone is quiet. -/
theorem quiet_aside {f : World → α × World} (same : ∀ w, (f w).2.heap = w.heap) : Quiet (withWorld f) :=
  quiet_withWorld fun w => by
    rw [same]
    exact .refl _

theorem heap_note (w : World) (logger : Text) (level : Level) (message : Unit → Text) :
    (w.note logger level message).heap = w.heap := by
  unfold World.note
  split <;> rfl

theorem quiet_note (level : Level) (message : Unit → Text) : Quiet (note level message) :=
  quiet_aside fun w => heap_note w "vm" level message

theorem quiet_intern (name : Text) : Quiet (intern name) := quiet_aside fun _ => rfl

/-- A new instance is known to nobody. -/
theorem quiet_newObject (r : Ref .cls) : Quiet (withWorld fun w => w.newObject r) := by
  refine quiet_withWorld fun w => ?_
  rw [World.newObject_eq]
  exact ⟨#[_], by rw [Array.append_singleton]; rfl⟩

theorem safe_of_ok {x : Exec α}
    (goes : ∀ m, ∃ v m', x.run m = .ok v m' ∧ m'.diagnostics = m.diagnostics) : Safe x := by
  refine ⟨fun m f m'' failed => ?_, fun m => ?_⟩ <;> obtain ⟨v, m', run, silent⟩ := goes m
  · cases run.symm.trans failed
  · rw [after_of_ok run]
    exact silent

theorem safe_pure (v : α) : Safe (Pure.pure v : Exec α) := safe_of_ok fun _ => ⟨_, _, rfl, rfl⟩

theorem safe_get : Safe get := safe_of_ok fun _ => ⟨_, _, rfl, rfl⟩

theorem safe_heap : Safe heap := safe_of_ok fun _ => ⟨_, _, rfl, rfl⟩

theorem safe_config : Safe config := safe_of_ok fun _ => ⟨_, _, rfl, rfl⟩

theorem safe_frame : Safe frame := safe_of_ok fun _ => ⟨_, _, rfl, rfl⟩

theorem safe_peek (k : Nat) : Safe (peek k) := safe_of_ok fun _ => ⟨_, _, rfl, rfl⟩

theorem safe_pop : Safe pop := safe_of_ok fun _ => ⟨_, _, rfl, rfl⟩

theorem safe_popMany (k : Nat) : Safe (popMany k) := safe_of_ok fun _ => ⟨_, _, rfl, rfl⟩

theorem safe_modify (f : Machine → Machine)
    (silent : ∀ m, (f m).diagnostics = m.diagnostics := by exact fun _ => rfl) : Safe (modify f) :=
  safe_of_ok fun m => ⟨_, _, rfl, silent m⟩

theorem safe_modifyFrame (f : Frame → Frame) : Safe (modifyFrame f) := by
  refine safe_modify _ fun m => ?_
  split <;> rfl

theorem safe_withWorld (f : World → α × World) : Safe (withWorld f) := safe_of_ok fun _ => ⟨_, _, rfl, rfl⟩

theorem safe_withHeap (f : Heap → α × Heap) : Safe (withHeap f) := safe_of_ok fun _ => ⟨_, _, rfl, rfl⟩

theorem safe_modifyHeap (f : Heap → Heap) : Safe (modifyHeap f) := safe_of_ok fun _ => ⟨_, _, rfl, rfl⟩

theorem safe_newArray (items : List Value) : Safe (newArray items) := safe_withHeap _

theorem safe_push (v : Value) : Safe (push v) := safe_modify _

theorem safe_pushed (v : Value) : Safe (pushed v) := (safe_push v).bind fun _ => safe_pure _

/-! ## Native functions -/

/-- A computation that may call the native function with the given body, and is cautious otherwise. The
function `raise` chooses the position of its error itself, and `call_name` records an error when it
finds no global. -/
structure CautiousWith (called : Option NativeBody) (x : Exec α) (m : Machine) : Prop where
  untouched : ∀ f m', x.run m = .error f m' → m.Untouched m'
  inPlace : ∀ f m', x.run m = .error f m' → f.At m' ∨ called = some .raise ∧ f.Thrown
  records : ∀ v m', x.run m = .ok v m' → m'.diagnostics = m.diagnostics ∨
    called = some .callName ∧ ∃ name, m.globals.get? name = none ∧
      m'.diagnostics = m.diagnostics.push (m.reportOf ⟨.undefinedVariable name, m.span⟩)

section

variable {called : Option NativeBody} {x : Exec α} {f : α → Exec β} {m : Machine}

/-- What is cautious is so whatever native function is called. -/
theorem Cautious.with (h : Cautious x) : CautiousWith called x m where
  untouched := h.untouched m
  inPlace f m' failed := .inl (h.inPlace m f m' failed)
  records v m' run := .inl (by rw [← after_of_ok run, h.silent m])

/-- What comes first has changed nothing visible. -/
theorem CautiousWith.chain {v : α} {m' : Machine} (run : x.run m = .ok v m') (untouched : m.Untouched m')
    (next : CautiousWith called (f v) m') : CautiousWith called (x >>= f) m := by
  refine ⟨fun e m'' failed => ?_, fun e m'' failed => ?_, fun w m'' done => ?_⟩
  · rw [run_bind_of_ok run] at failed
    exact untouched.trans (next.untouched e m'' failed)
  · rw [run_bind_of_ok run] at failed
    exact next.inPlace e m'' failed
  · rw [run_bind_of_ok run] at done
    have records := next.records w m'' done
    simp only [untouched.diagnostics, untouched.globals, untouched.span, untouched.reportOf] at records
    exact records

/-- What is read first does not matter. -/
theorem CautiousWith.read {v : α} (run : x.run m = .ok v m) (next : CautiousWith called (f v) m) :
    CautiousWith called (x >>= f) m :=
  .chain run (.refl m) next

/-- What nobody sees may come first. -/
theorem Quiet.beforeWith (first : Quiet x) (next : ∀ v m', m.Untouched m' → CautiousWith called (f v) m') :
    CautiousWith called (x >>= f) m := by
  have untouched := first.untouched m
  cases run : x.run m with
  | error e' m' =>
    rw [after_of_error run] at untouched
    refine ⟨fun e m'' failed => ?_, fun e m'' failed => ?_, fun v m'' done => ?_⟩
    · rw [run_bind_of_error run] at failed
      cases failed
      exact untouched
    · rw [run_bind_of_error run] at failed
      cases failed
      exact .inl (first.inPlace m e' m' run)
    · rw [run_bind_of_error run] at done
      cases done
  | ok v m' =>
    rw [after_of_ok run] at untouched
    exact .chain run untouched (next v m' untouched)

/-- What does not fail may come last. -/
theorem CautiousWith.before (first : CautiousWith called x m) (next : ∀ v, Safe (f v)) :
    CautiousWith called (x >>= f) m := by
  cases run : x.run m with
  | error e' m' =>
    refine ⟨fun e m'' failed => ?_, fun e m'' failed => ?_, fun v m'' done => ?_⟩
    · rw [run_bind_of_error run] at failed
      cases failed
      exact first.untouched e' m' run
    · rw [run_bind_of_error run] at failed
      cases failed
      exact first.inPlace e' m' run
    · rw [run_bind_of_error run] at done
      cases done
  | ok v m' =>
    refine ⟨fun e m'' failed => ?_, fun e m'' failed => ?_, fun w m'' done => ?_⟩
    · rw [run_bind_of_ok run] at failed
      exact absurd failed ((next v).succeeds m' e m'')
    · rw [run_bind_of_ok run] at failed
      exact absurd failed ((next v).succeeds m' e m'')
    · rw [run_bind_of_ok run] at done
      rw [← after_of_ok done, (next v).silent m']
      exact first.records v m' run

end

end Exec

end ScriptVm
