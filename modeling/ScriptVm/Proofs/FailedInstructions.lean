import ScriptVm.Proofs.CallsAndRegions
import ScriptVm.Proofs.CautiousOperations
import ScriptVm.Proofs.WorldRegular
import ScriptVm.Session

/-!
# Failed instructions

An instruction that fails has changed nothing that anyone can see, and neither has a builtin method.
So whoever made the call that fails, the host or a native function, finds arrays, hashes, instances,
classes, functions and globals as they were before the instruction; the captured variables of the calls
that have ended have got values of their own. A variable on a slot that holds an operand may have lost its
value: a hash literal moves values out of their slots before it has seen all keys.

The main result is `Activity.failed_instructions_touch_nothing`.
-/

set_option autoImplicit false

namespace ScriptVm

/-- The body of the native function that a value stands for. -/
def Machine.nativeBody? (m : Machine) : Value → Option NativeBody
  | .native r => some (m.heap.natives.get r).body
  | .bound r =>
    match (m.heap.bounds.get r).target with
    | .native f => some (m.heap.natives.get f).body
    | .closure _ => none
  | _ => none

/-- The body of the native function that an instruction calls. -/
def Instruction.native? (i : Instruction) (m : Machine) : Option NativeBody :=
  if i.op = .call then m.nativeBody? (m.slot (m.stack.size - 1 - i.a.toNat)) else none

namespace Exec

open Machine

variable {α β : Type}

/-! ## Instructions -/

/-- A call that fails has changed nothing, unless it is the native function that failed, which may have done
what it likes before. -/
theorem cautiousWith_call (argc : Nat) (m : Machine) :
    CautiousWith (m.nativeBody? (m.slot (m.stack.size - 1 - argc))) (call argc) m := by
  refine .read (run_peek argc m) ?_
  generalize m.slot (m.stack.size - 1 - argc) = callee
  refine (quiet_reorder callee argc).beforeWith fun argc m₁ untouched => ?_
  obtain ⟨made, grown⟩ := untouched.heap
  split
  next r => exact ((cautious_callClosure _ _ _).before fun _ => safe_pure _).with
  next r =>
    have called := cautiousWith_callNative r argc false m₁
    rw [grown] at called
    exact called
  next r => exact ((cautious_instantiate _ _).before fun _ => safe_pure _).with
  next r =>
    refine .read (run_heap m₁) (.read (run_get m₁) ?_)
    refine (quiet_setSlot _ _).beforeWith fun _ m₂ untouched' => ?_
    obtain ⟨made', grown'⟩ := untouched'.heap
    rw [grown] at grown' ⊢
    cases target : (m.heap.bounds.get r).target with
    | closure f => exact ((cautious_callClosure _ _ _).before fun _ => safe_pure _).with
    | native f =>
      have called := cautiousWith_callNative f argc true m₂
      rw [grown'] at called
      simp only [nativeBody?, target]
      exact called
  next r =>
    refine Cautious.with (idle_heap.before fun h => (quiet_popMany _).before fun args => quiet_pop.before fun _ => ?_)
    exact (undone_callMethod _ _ _).cautious.before fun _ => (safe_push _).bind fun _ => safe_pure _
  next => exact (idle_fail _).cautious.with

theorem cautious_new (argc : Nat) : Cautious (new argc) := by
  refine (idle_peek argc).before fun v => ?_
  split
  · exact (quiet_reorder _ _).before fun _ => cautious_instantiate _ _
  · exact (idle_get.bind fun _ => idle_fail _).cautious

/-- An assignment to a global that is not there fails before it assigns. -/
theorem cautious_setGlobal (name : Text) (v : Value) : Cautious (setGlobal name v) := by
  refine idle_get.before fun m => ?_
  split
  · exact (safe_modify _).cautious
  · exact (idle_fail _).cautious

theorem idle_getGlobal (name : Text) : Idle (getGlobal name) := by
  refine idle_get.bind fun m => ?_
  split
  · exact idle_pure _
  · exact idle_fail _

theorem safe_ownCell (index : Nat) : Safe (ownCell index) := safe_of_ok fun _ => ⟨_, _, rfl, rfl⟩

theorem safe_captureSlot (slot : Nat) : Safe (captureSlot slot) := by
  refine safe_get.bind fun m => ?_
  split
  · exact safe_pure _
  · exact (safe_withHeap _).bind fun _ => (safe_modify _).bind fun _ => safe_pure _

theorem safe_captureAll (base : Nat) (cs : List Capture) : Safe (captureAll base cs) := by
  induction cs with
  | nil => exact safe_pure _
  | cons c rest ih =>
    unfold captureAll
    split
    · exact (safe_captureSlot _).bind fun _ => ih.bind fun _ => safe_pure _
    · exact (safe_ownCell _).bind fun _ => ih.bind fun _ => safe_pure _

/-- A closure that cannot be made captures nothing. -/
theorem cautious_makeClosure (index : Nat) : Cautious (makeClosure index) := by
  refine (idle_constant index).before fun k => ?_
  split
  · exact (safe_frame.bind fun _ => (safe_captureAll _ _).bind fun _ =>
      (safe_withHeap _).bind fun _ => safe_pure _).cautious
  · exact (idle_fail _).cautious

theorem safe_constantValue (k : Constant) : Safe (constantValue k) := by
  cases k with
  | function p => exact (safe_withWorld _).bind fun _ => safe_pure _
  | _ => exact safe_pure _

theorem safe_readCell (r : Ref .cell) : Safe (readCell r) := by
  refine safe_get.bind fun m => ?_
  split <;> exact safe_pure _

theorem safe_writeCell (r : Ref .cell) (v : Value) : Safe (writeCell r v) := by
  refine safe_heap.bind fun h => ?_
  split
  · exact safe_modify _
  · exact safe_modifyHeap _

/-- Closing captured variables reports nothing. -/
theorem diagnostics_closeCells (m : Machine) (start : Nat) :
    (m.closeCells start).diagnostics = m.diagnostics := by
  rw [closeCells_eq]
  rfl

/-- Ending calls reports nothing. -/
theorem diagnostics_endFrames (m : Machine) (depth : Nat) (fs : List Frame) :
    (m.endFrames depth fs).diagnostics = m.diagnostics := by
  rw [endFrames_eq]
  rfl

theorem safe_closeCells (start : Nat) : Safe (closeCells start) :=
  safe_modify _ fun m => diagnostics_closeCells m start

theorem safe_returnFrom : Safe returnFrom := by
  refine safe_pop.bind fun result => safe_get.bind fun m => ?_
  split
  · exact safe_pure _
  dsimp only
  refine Safe.bind (safe_modify _ fun m => ?_) fun _ => safe_get.bind fun m' => ?_
  · exact diagnostics_closeCells _ _
  refine (safe_modify _).bind fun _ => ?_
  split
  · exact safe_pure _
  · exact safe_pushed _

/-- A throw that nothing catches leaves everything as it was. -/
theorem cautious_throwValue (v : Value) : Cautious (throwValue v) := by
  refine idle_get.before fun m => ?_
  split
  next h rest _ =>
    refine Safe.cautious ((safe_modify _ fun m => ?_).bind fun _ => safe_get.bind fun _ => safe_withWorld _)
    exact (diagnostics_closeCells _ _).trans (diagnostics_endFrames _ _ _)
  · exact (quiet_note _ _).before fun _ => (idle_fail _).cautious

/-- An import at most names a module in the log. -/
theorem quiet_importModule (index : Nat) : Quiet (importModule index) := by
  refine idle_get.quiet.bind fun m => ?_
  split
  · exact (idle_constantName index).quiet.bind fun _ => quiet_note _ _
  · exact (idle_pure _).quiet

theorem safe_printLine (count : Nat) : Safe (printLine count) := by
  refine safe_get.bind fun m => (safe_popMany count).bind fun vs => ?_
  dsimp only
  split
  · exact (safe_withWorld _).bind fun _ => safe_modify _
  · exact safe_modify _

theorem Cautious.pushed {x : Exec Value} (h : Cautious x) : Cautious (x >>= pushed) :=
  h.before fun _ => safe_pushed _

theorem Cautious.andNext {x : Exec Unit} (h : Cautious x) : Cautious (andNext x) := h.before fun _ => safe_pure _

theorem cautious_binary {f : Value → Value → Exec Value} (h : ∀ a b, Cautious (f a b)) : Cautious (binary f) :=
  quiet_pop.before fun _ => quiet_pop.before fun _ =>
    (h _ _).before fun _ => (safe_modify _).bind fun _ => safe_pure _

theorem cautious_compare {f : Value → Value → Exec Bool} (h : ∀ a b, Idle (f a b)) : Cautious (compare f) :=
  cautious_binary fun a b => ((h a b).bind fun _ => idle_pure _).cautious

theorem safe_jumpIf (condition : Bool) (distance : Nat) : Safe (jumpIf condition distance) := by
  refine Safe.bind ?_ fun _ => safe_pure _
  split
  · exact safe_modifyFrame _
  · exact safe_pure _

theorem safe_nextItem : Safe nextItem := by
  refine safe_of_ok fun m => ?_
  rw [run_nextItem]
  split
  · exact ⟨_, _, rfl, rfl⟩
  · split <;> exact ⟨_, _, rfl, rfl⟩

/-- An instruction that is not a call checks before it changes anything. -/
theorem cautious_execute {i : Instruction} (plain : i.op ≠ .call) : Cautious (execute i) := by
  obtain ⟨op, a, b⟩ := i
  cases op with
  | constant =>
    exact (idle_constant _).before fun k => ((safe_constantValue k).bind fun _ => safe_pushed _).cautious
  | pushNull | pushTrue | pushFalse => exact (safe_pushed _).cautious
  | pop => exact (safe_pop.bind fun _ => safe_pure _).cautious
  | dup => exact (idle_peek 0).cautious.pushed
  | getLocal => exact (safe_get.bind fun _ => safe_frame.bind fun _ => safe_pushed _).cautious
  | setLocal =>
    exact Cautious.andNext
      (idle_frame.before fun _ => (idle_peek 0).before fun _ => (safe_modify _).cautious)
  | getGlobal => exact (idle_constantName _).before fun name => (idle_getGlobal name).cautious.pushed
  | setGlobal =>
    exact Cautious.andNext
      ((idle_constantName _).before fun _ => (idle_peek 0).before fun _ => cautious_setGlobal _ _)
  | defineGlobal =>
    exact Cautious.andNext
      ((idle_constantName _).before fun _ => quiet_pop.before fun _ => (safe_modify _).cautious)
  | getUpvalue =>
    exact ((safe_ownCell _).bind fun _ => (safe_readCell _).bind fun _ => safe_pushed _).cautious
  | setUpvalue =>
    exact Cautious.andNext
      ((safe_ownCell _).cautious.before fun _ => (safe_peek 0).bind fun _ => safe_writeCell _ _)
  | closeUpvalue =>
    exact (safe_get.bind fun _ => (safe_closeCells _).bind fun _ => safe_pop.bind fun _ => safe_pure _).cautious
  | add => exact cautious_binary cautious_add
  | subtract => exact cautious_binary fun x y => (idle_subtract x y).cautious
  | multiply => exact cautious_binary fun x y => (idle_multiply x y).cautious
  | divide => exact cautious_binary fun x y => (idle_divide x y).cautious
  | modulo => exact cautious_binary fun x y => (idle_modulo x y).cautious
  | negate => exact quiet_pop.before fun v => (idle_negate v).cautious.pushed
  | equal | notEqual => exact cautious_compare fun x y => idle_heap.bind fun _ => idle_pure _
  | less => exact cautious_compare idle_less
  | lessEqual => exact cautious_compare idle_lessEqual
  | greater => exact cautious_compare fun x y => idle_less y x
  | greaterEqual => exact cautious_compare fun x y => idle_lessEqual y x
  | not => exact (safe_pop.bind fun _ => safe_get.bind fun _ => safe_pushed _).cautious
  | jump | loop => exact Cautious.andNext (safe_modifyFrame _).cautious
  | jumpIfFalse => exact (safe_pop.bind fun _ => safe_get.bind fun _ => safe_jumpIf _ _).cautious
  | jumpIfFalseNoPop | jumpIfTrueNoPop =>
    exact idle_get.before fun _ => (idle_peek 0).before fun _ => (safe_jumpIf _ _).cautious
  | nullishJump => exact (idle_peek 0).before fun _ => (safe_jumpIf _ _).cautious
  | call => exact absurd rfl plain
  | closure => exact (cautious_makeClosure _).pushed
  | ret => exact safe_returnFrom.cautious
  | array => exact ((safe_popMany _).bind fun _ => (safe_newArray _).bind fun _ => safe_pushed _).cautious
  | hash => exact (cautious_hashLiteral _).pushed
  | range => exact cautious_binary cautious_range
  | getIndex => exact cautious_binary fun x y => (idle_getIndex x y).cautious
  | setIndex =>
    exact quiet_pop.before fun _ => quiet_pop.before fun _ => quiet_pop.before fun _ =>
      (cautious_setIndex _ _ _).before fun _ => safe_pushed _
  | buildString => exact (safe_get.bind fun _ => (safe_popMany _).bind fun _ => safe_pushed _).cautious
  | spread => exact (idle_pure _).cautious
  | getProperty =>
    exact (idle_constantName _).before fun _ => quiet_pop.before fun _ => idle_site.before fun _ =>
      (cautious_getProperty _ _ _).pushed
  | setProperty =>
    exact (idle_constantName _).before fun _ => quiet_pop.before fun _ => quiet_pop.before fun _ =>
      idle_site.before fun _ => (cautious_setProperty _ _ _ _).before fun _ => safe_pushed _
  | newClass =>
    exact (idle_constantName _).before fun _ => ((safe_withWorld _).bind fun _ => safe_pushed _).cautious
  | inherit => exact cautious_inherit.andNext
  | method | staticMethod =>
    exact Cautious.andNext ((idle_constantName _).before fun _ => cautious_defineMethod _ _)
  | new => exact (cautious_new _).andNext
  | getThis => exact (safe_get.bind fun _ => safe_frame.bind fun _ => safe_pushed _).cautious
  | getSuper =>
    exact (idle_constantName _).before fun _ => quiet_pop.before fun _ => (cautious_getSuper _).pushed
  | field | staticField | constField | staticConstField =>
    exact Cautious.andNext ((idle_constantName _).before fun _ => cautious_defineField _ _ _)
  | tryBegin | tryEnd => exact Cautious.andNext (safe_modify _).cautious
  | throwTop => exact Cautious.andNext (quiet_pop.before fun _ => cautious_throwValue _)
  | getIter => exact Cautious.andNext (quiet_pop.before fun _ => cautious_openIteration _)
  | forIter =>
    refine (safe_nextItem.bind fun item => ?_).cautious
    split
    · exact safe_pushed _
    · exact (safe_modifyFrame _).bind fun _ => safe_pure _
  | print => exact ((safe_printLine _).bind fun _ => safe_pushed _).cautious
  | namedArg => exact (idle_constantName _).cautious.before fun _ => safe_pushed _
  | importModule => exact (quiet_importModule _).cautious.andNext
  | unknown => exact (idle_fail _).cautious

/-- Every instruction checks before it changes anything, but for the native function that it calls. -/
theorem cautiousWith_execute (i : Instruction) (m : Machine) : CautiousWith (i.native? m) (execute i) m := by
  by_cases op : i.op = .call
  · rw [Instruction.native?, if_pos op, show execute i = callProgress i.a.toNat by rw [execute, op]]
    refine (cautiousWith_call i.a.toNat m).before fun r => ?_
    split <;> exact safe_pure _
  · exact (cautious_execute op).with

/-- An instruction that fails has used up its operands at most. -/
theorem stays_of_error {i : Instruction} {m m' : Machine} {f : Fault} (run : (execute i).run m = .error f m') :
    m.stacked.Stays i.operands m'.stacked := by
  have fails : ¬Safe (execute i) := fun safe => safe.succeeds _ _ _ run
  obtain ⟨op, x, y⟩ := i
  have effect : Effect ⟨op, x, y⟩ m default [] ((execute ⟨op, x, y⟩).outcome m)
      ((execute ⟨op, x, y⟩).after m).stacked := effect_execute_of fun needs => by
    rcases needs with rfl | rfl | rfl
    · exact absurd ((safe_frame.bind fun _ => (safe_peek 0).bind fun _ => safe_modify _).bind fun _ => safe_pure _) fails
    · exact absurd (((safe_ownCell _).bind fun _ => (safe_peek 0).bind fun _ => safe_writeCell _ _).bind fun _ =>
        safe_pure _) fails
    · exact absurd safe_returnFrom fails
  rw [outcome, after, run] at effect
  cases effect with
  | stays _ _ stays => exact stays

/-- So does a call from outside. -/
theorem cautiousWith_beginCall (callee : Value) (args : List Value) (m : Machine) :
    CautiousWith (m.nativeBody? callee) (Activity.beginCall callee args) m := by
  unfold Activity.beginCall
  split
  · exact (idle_fail _).cautious.with
  · have stacked : ({ m with stack := m.stack.push callee ++ args.toArray } : Machine).slot
        ((m.stack.push callee ++ args.toArray).size - 1 - args.length) = callee := by
      simp [slot, Array.getD_eq_getD_getElem?]
    have called := cautiousWith_call args.length { m with stack := m.stack.push callee ++ args.toArray }
    rw [show ({ m with stack := m.stack.push callee ++ args.toArray } : Machine).stack =
      m.stack.push callee ++ args.toArray from rfl, stacked] at called
    exact .chain rfl { Untouched.refl m with } called

/-- The fields of an instance are read as before, also through shapes that have been made since. -/
theorem get_field_of_grown {w w' : World} (grown : w.heap.Grown w'.heap) (regular : w.Regular) (regular' : w'.Regular)
    {r : Ref .object} (known : w.heap.objects.has r) (s : Symbol) :
    (w'.heap.objects.get r).fields.get w'.shapes s = (w.heap.objects.get r).fields.get w.shapes s := by
  rw [(regular'.rows r).get_eq, (regular.rows r).get_eq, grown.get_object known]

/-- Every instruction keeps the world regular, failed or not. -/
theorem regular_execute {i : Instruction} {m : Machine} (regular : m.world.Regular) :
    ((execute i).after m).world.Regular := by
  have law := Activity.congruence_of_law World.Change.regular fun _ h =>
    ⟨h.symbols, h.shapes, h.rows, h.tables, h.distinct⟩
  obtain ⟨s, -, -, after⟩ := alike_execute law i m.side ⟨rfl, regular⟩
  exact after

end Exec

namespace Machine

open Exec

/-- An untouched machine has the captured variables that it had. -/
theorem Untouched.captured {m m' : Machine} (h : m.Untouched m') : m'.captured = m.captured := by
  obtain ⟨made, grown⟩ := h.heap
  rw [Machine.captured, Machine.captured, h.openCells, grown]

/-- What `m` shows is as before in `m'`, but for captured variables that are still on the stack in one of its
top `n` slots. Captured variables may have got values of their own. -/
structure Shows (n : Nat) (m m' : Machine) : Prop where
  globals : m'.globals = m.globals
  output : m'.output = m.output
  heap : m.heap.Grown { m'.heap with cells := m.heap.cells }
  closed : m.captured.Sound → ∀ r v, m.heap.cells.get r = .closed v → m'.heap.cells.get r = .closed v
  opened : m.captured.Sound → ∀ o ∈ m.openCells, o.slot + n < m.stack.size →
    ∃ v, (readCell o.cell).run m = .ok v m ∧ (readCell o.cell).run m' = .ok v m'

/-- Dropping calls changes nothing of the heap but captured variables. -/
theorem heap_unwindTo (m : Machine) (d : Depths) :
    (m.unwindTo d).heap = { m.heap with cells := (m.unwindTo d).heap.cells } := by
  show ((m.endFrames d.frames m.frames).closeCells d.stack).heap =
    { m.heap with cells := ((m.endFrames d.frames m.frames).closeCells d.stack).heap.cells }
  rw [closeCells_eq, endFrames_eq]
  rfl

/-- Going back to the depths of an entry changes no global and prints nothing. -/
theorem printed_unwindTo (m : Machine) (d : Depths) :
    (m.unwindTo d).globals = m.globals ∧ (m.unwindTo d).output = m.output := by
  show ((m.endFrames d.frames m.frames).closeCells d.stack).globals = m.globals ∧
    ((m.endFrames d.frames m.frames).closeCells d.stack).output = m.output
  rw [closeCells_eq, endFrames_eq]
  exact ⟨rfl, rfl⟩

/-- A captured variable with a value of its own keeps it when calls are dropped. -/
theorem closed_unwindTo {m : Machine} (sound : m.captured.Sound) (d : Depths) {r : Ref .cell} {v : Value}
    (closed : m.heap.cells.get r = .closed v) : (m.unwindTo d).heap.cells.get r = .closed v := by
  have closes := Variables.closes_closeAll sound m.stack (endingBases d.frames m.frames ++ [d.stack])
  rw [← captured_unwindTo] at closes
  rcases closes.cell r with ⟨same, -⟩ | ⟨o, ho, rfl, -⟩
  · exact same.trans closed
  · cases (sound o ho).symm.trans closed

/-- A captured variable reads as before when calls are dropped: it is on a slot that is left, or it has taken the
value of its slot over. -/
theorem valueOf_unwindTo {m : Machine} (sound : m.captured.Sound) (d : Depths) {o : OpenCell} (ho : o ∈ m.openCells) :
    (m.unwindTo d).valueOf o.cell = m.slot o.slot := by
  have closes := Variables.closes_closeAll sound m.stack (endingBases d.frames m.frames ++ [d.stack])
  have captured := captured_unwindTo m d
  have before : m.heap.cells.get o.cell = .onStack o.slot := sound o ho
  rw [← captured] at closes
  rcases closes.cell o.cell with ⟨same, kept⟩ | ⟨o', ho', cell, -, closed⟩
  · have left : o ∈ (m.unwindTo d).openCells := kept o ho rfl
    have openCells : (m.unwindTo d).openCells = _ := congrArg Variables.openCells captured
    rw [openCells] at left
    have below : o.slot < d.stack := slot_lt_of_mem_closeAll left
    have same : (m.unwindTo d).heap.cells.get o.cell = m.heap.cells.get o.cell := same
    have stack : (m.unwindTo d).stack = m.stack.shrink d.stack := congrArg Stacks.values (stacked_unwindTo m d)
    simp only [valueOf, same, before, slot, stack, Array.getD_eq_getD_getElem?, getElem?_shrink _ below]
  · have closed : (m.unwindTo d).heap.cells.get o.cell = _ := closed
    simp only [valueOf, closed, sound.unique ho' ho cell, slot]

/-- What a caller finds when calls have been dropped is what there was before. -/
theorem shows_unwindTo {m k : Machine} {n : Nat} (globals : k.globals = m.globals) (output : k.output = m.output)
    (openCells : k.openCells = m.openCells) (heap : m.heap.Grown k.heap)
    (slots : ∀ i, i + n < m.stack.size → k.stack[i]? = m.stack[i]?) (d : Depths) :
    m.Shows n (k.unwindTo d) := by
  obtain ⟨globals', output'⟩ := printed_unwindTo k d
  obtain ⟨made, grown⟩ := heap
  have same : k.captured = m.captured := by
    rw [captured, captured, openCells, grown]
  refine ⟨globals'.trans globals, output'.trans output, ⟨made, ?_⟩, fun sound r v closed => ?_,
    fun sound o ho deep => ⟨m.slot o.slot, ?_, ?_⟩⟩
  · rw [heap_unwindTo, grown]
  · refine closed_unwindTo (same ▸ sound) d ?_
    rw [grown]
    exact closed
  · have before : m.heap.cells.get o.cell = .onStack o.slot := sound o ho
    rw [run_readCell]
    simp only [valueOf, before]
  · rw [run_readCell, valueOf_unwindTo (same ▸ sound) d (openCells ▸ ho)]
    simp only [slot, Array.getD_eq_getD_getElem?, slots _ deep]

end Machine

namespace Activity

open Machine Exec

/-- Fetching an instruction changes nothing visible but the innermost call. -/
theorem untouched_fetch {m m₁ : Machine} {i : Instruction} (fetched : fetch.run m = .ok i m₁) :
    ({ m with frames := m₁.frames } : Machine).Untouched m₁ := by
  unfold fetch at fetched
  rw [run_bind_of_ok (show frame.run m = .ok (m.frames.headD default) m from rfl), run_bind_of_ok (run_get m)]
    at fetched
  split at fetched
  · cases fetched
    dsimp only
    split <;> exact .refl _
  · cases fetched
    exact { Untouched.refl m with }

theorem safe_fetch : Safe fetch := by
  refine safe_frame.bind fun f => safe_get.bind fun m => ?_
  split
  · exact (safe_modifyFrame _).bind fun _ => safe_pure _
  · exact (safe_push _).bind fun _ => safe_pure _

/-- Where an error comes from: an instruction, a call from outside, or a native function that deals with an
error of its own call. -/
inductive Failure (a b : Activity) (e : RuntimeError) : Prop where
  | instruction {i : Instruction} {m : Machine} (control : a.control = .execute)
      (fetched : fetch.run a.machine = .ok i m) (run : (execute i).run m = .error (.error e) b.machine)
  | call {callee : Value} {args : List Value} (control : a.control = .invoke callee args)
      (run : (beginCall callee args).run a.machine = .error (.error e) b.machine)
  | callback {c : Callback} {e' : RuntimeError} {m : Machine} (control : a.control = .raise e')
      (run : (callbackError c e').run m = .error (.error e) b.machine)

/-- A fault that leads to an error is that error. -/
theorem eq_of_onFault {f : Fault} {m : Machine} {ps : List Pending} {b : Activity} {e : RuntimeError}
    (move : onFault f m ps = .continue b) (control : b.control = .raise e) : f = .error e ∧ m = b.machine := by
  cases f with
  | missingConstant => cases move
  | error e' =>
    cases move
    cases control
    exact ⟨rfl, rfl⟩

/-- A native function that returns hands no error over. -/
theorem not_raise_of_complete {m : Machine} {ps : List Pending} {byEntry : Bool} {v : Value} {b : Activity}
    {e : RuntimeError} (move : complete m ps byEntry v = .continue b) : b.control ≠ .raise e := by
  cases byEntry <;> cases move <;> exact nofun

/-- A native function that goes on hands no error over. -/
theorem not_raise_of_resume {m : Machine} {ps : List Pending} {caller : Caller} {v : Value} {b : Activity}
    {e : RuntimeError} (move : resume m ps caller v = .continue b) : b.control ≠ .raise e := by
  cases caller with
  | own =>
    cases move
    exact nofun
  | instruction => exact not_raise_of_complete (show complete m ps false v = .continue b from move)
  | _ => exact not_raise_of_complete (show complete m ps true v = .continue b from move)

/-- Entering the machine again hands no error over. -/
theorem not_raise_of_reenter {m : Machine} {ps : List Pending} {r : Reentry} {byEntry : Bool} {b : Activity}
    {e : RuntimeError} (move : reenter m ps r byEntry = .continue b) : b.control ≠ .raise e := by
  cases r <;> cases move <;> exact nofun

/-- The result of a call hands no error over. -/
theorem not_raise_of_deliver {m : Machine} {ps : List Pending} {v : Value} {b : Activity} {e : RuntimeError}
    (move : stepDeliver m ps v = .continue b) : b.control ≠ .raise e := by
  unfold stepDeliver at move
  split at move
  · cases move
  · dsimp only at move
    split at move
    · cases move
    · cases move
    · exact not_raise_of_resume move
    · exact not_raise_of_resume move
    · exact not_raise_of_resume move

/-- A native function that is told of an error and hands one over fails itself. -/
theorem failure_of_callbackError {a b : Activity} {m : Machine} {ps : List Pending} {p : Pending} {c : Callback}
    {e e' : RuntimeError} (busy : a.control = .raise e') (move : stepCallbackError m ps p c e' = .continue b)
    (control : b.control = .raise e) : Failure a b e := by
  unfold stepCallbackError at move
  split at move
  · exact absurd control (not_raise_of_resume move)
  next f m' run =>
    obtain ⟨rfl, rfl⟩ := eq_of_onFault move control
    exact .callback busy run

/-- An error in a move comes from an instruction, from a call, or from the native function that was told of
one. -/
theorem failure_of_raise {a b : Activity} {e : RuntimeError} (step : a.step = .continue b)
    (control : b.control = .raise e) : Failure a b e := by
  cases busy : a.control with
  | execute =>
    rw [step_of_execute busy, stepExecute] at step
    cases fetched : fetch.run a.machine with
    | error f m₁ => exact absurd fetched (safe_fetch.succeeds _ _ _)
    | ok i m₁ =>
      rw [run_bind_of_ok fetched] at step
      cases run : (execute i).run m₁ with
      | error f m' =>
        rw [run] at step
        obtain ⟨rfl, rfl⟩ := eq_of_onFault step control
        exact .instruction busy fetched run
      | ok p m' =>
        rw [run] at step
        cases p with
        | reenter r => exact absurd control (not_raise_of_reenter step)
        | next | returned =>
          cases step
          cases control
  | invoke callee args =>
    rw [step_of_invoke busy, stepInvoke] at step
    cases run : (beginCall callee args).run a.machine with
    | error f m' =>
      rw [run] at step
      obtain ⟨rfl, rfl⟩ := eq_of_onFault step control
      exact .call busy run
    | ok r m' =>
      rw [run] at step
      cases r with
      | none =>
        dsimp only at step
        split at step <;> cases step <;> cases control
      | some r => exact absurd control (not_raise_of_reenter step)
  | ask byEntry c =>
    have step : complete a.machine a.pending byEntry .null = .continue b := by
      rw [← step, Activity.step, busy]
      rfl
    exact absurd control (not_raise_of_complete step)
  | deliver v =>
    have step : stepDeliver a.machine a.pending v = .continue b := by rw [← step, Activity.step, busy]
    exact absurd control (not_raise_of_deliver step)
  | raise e' =>
    have step : stepRaise a.machine a.pending e' = .continue b := by rw [← step, Activity.step, busy]
    unfold stepRaise at step
    split at step
    · cases step
    · dsimp only at step
      split at step
      · cases step
      · cases step
      · exact failure_of_callbackError busy step control
      · exact failure_of_callbackError busy step control
      · cases step
        cases control

/-- Beginning a call from outside leaves the stack as it is below what it puts there. -/
theorem slots_of_invokes {m : Machine} {ps : List Pending} {v : Move} (invokes : Invokes ps m v) :
    ∀ i, i < m.stack.size → v.machine.stack[i]? = m.stack[i]? := by
  cases invokes with
  | enters stays | answers stays => exact stays.values
  | reenters stays =>
    rw [machine_reenter]
    exact stays.values
  | @faults m' e stays =>
    cases e <;> exact stays.values

/-- The number of values on top of the stack that the next move uses up: the operands of an instruction, and
nothing if a call from outside begins. -/
inductive Uses (a : Activity) : Nat → Prop
  | instruction {i : Instruction} {m : Machine} (control : a.control = .execute)
      (fetched : fetch.run a.machine = .ok i m) : Uses a i.operands
  | call {callee : Value} {args : List Value} (control : a.control = .invoke callee args) : Uses a 0

/-- A move that fails has changed nothing visible but for the place of the innermost call, and has used up what
it may use. -/
theorem untouched_of_raise {a b : Activity} {e : RuntimeError} {n : Nat} (uses : a.Uses n) (step : a.step = .continue b)
    (control : b.control = .raise e) :
    ({ a.machine with frames := b.machine.frames } : Machine).Untouched b.machine ∧
      ∀ i, i + n < a.machine.stack.size → b.machine.stack[i]? = a.machine.stack[i]? := by
  cases failure_of_raise step control with
  | @instruction i m busy fetched run =>
    have after := (cautiousWith_execute i m).untouched _ _ run
    refine ⟨?_, fun k deep => ?_⟩
    · rw [after.frames]
      exact (untouched_fetch fetched).trans after
    · cases uses with
      | instruction _ fetched' =>
        obtain ⟨rfl, rfl⟩ := EStateM.Result.ok.inj (fetched.symm.trans fetched')
        have stays := staying_fetch (m := a.machine)
        rw [Staying, after_of_ok fetched] at stays
        exact (stays.trans (stays_of_error run) (Nat.le_of_eq (Nat.zero_add _))).values k deep
      | call busy' => cases busy.symm.trans busy'
  | @call callee args busy run =>
    have after := (cautiousWith_beginCall callee args a.machine).untouched _ _ run
    refine ⟨?_, fun k deep => ?_⟩
    · rw [after.frames]
      exact after
    · have invokes := slots_of_invokes (invokes_stepInvoke a.pending a.machine callee args)
      rw [← step_of_invoke busy, step] at invokes
      exact invokes k (Nat.lt_of_le_of_lt (Nat.le_add_right _ _) deep)
  | callback raises =>
    cases uses with
    | instruction executes => cases raises.symm.trans executes
    | call invokes => cases raises.symm.trans invokes

/-- How the native function that made a call goes on in `m` when the call has failed with `e`. -/
def recovers (m : Machine) (pending : List Pending) (caller : Caller) (c : Callback) (e : RuntimeError) : Move :=
  match (callbackError c e).run m with
  | .ok v m => resume m pending caller v
  | .error f m => onFault f m pending

/-- An error goes to whoever made the innermost entry. -/
theorem step_of_raise {b : Activity} {e : RuntimeError} {p : Pending} {ps : List Pending}
    (control : b.control = .raise e) (pending : b.pending = p :: ps) :
    (p.caller = .host → b.step = .done (.error e) (unwound b.machine p e)) ∧
      ∀ c, p.caller = .instruction c ∨ p.caller = .entry c →
        b.step = recovers (unwound b.machine p e) ps p.caller c e := by
  rw [Activity.step, control, pending]
  refine ⟨fun caller => ?_, fun c caller => ?_⟩
  · simp only [stepRaise, caller]
    rfl
  · have caught : stepRaise b.machine (p :: ps) e =
        stepCallbackError { b.machine with runBase := p.runBase } ps p c e := by
      rcases caller with caller | caller <;> simp only [stepRaise, caller]
    exact caught

/-- An instruction that fails changes nothing visible, in any state of the machine: neither arrays and
hashes nor classes, static fields, functions, closed variables, globals and output, and every field
of an instance that was there is read as before. A builtin method that fails leaves the machine as it
is. So the host or the native function that made the call which ends with the error finds everything
as it was before the failing move, captured variables included, unless they are still on slots that hold
operands of the failing instruction. Such a variable has what the instruction left in its slot. -/
theorem failed_instructions_touch_nothing (m : Machine) :
    (∀ (i : Instruction) (m' : Machine) (f : Fault), (execute i).run m = .error f m' →
        m.Untouched m' ∧
          (m.world.Regular → ∀ r, m.heap.objects.has r → ∀ s,
            (m'.heap.objects.get r).fields.get m'.world.shapes s =
              (m.heap.objects.get r).fields.get m.world.shapes s)) ∧
      (∀ (receiver : Value) (name : Text) (args : List Value) (m' : Machine) (f : Fault),
        (callMethod receiver name args).run m = .error f m' → m' = m) ∧
      ∀ (a b : Activity) (e : RuntimeError) (p : Pending) (ps : List Pending) (n : Nat),
        a.machine = m → a.Uses n → a.step = .continue b → b.control = .raise e → b.pending = p :: ps →
        m.Shows n (unwound b.machine p e) ∧
          (m.captured.Sound → ∀ o ∈ m.openCells,
            (readCell o.cell).run (unwound b.machine p e) =
              .ok (b.machine.slot o.slot) (unwound b.machine p e)) ∧
          (p.caller = .host → b.step = .done (.error e) (unwound b.machine p e)) ∧
          ∀ c, p.caller = .instruction c ∨ p.caller = .entry c →
            b.step = recovers (unwound b.machine p e) ps p.caller c e := by
  refine ⟨fun i m' f run => ?_, fun receiver name args m' f => (undone_callMethod receiver name args).undone m f m',
    fun a b e p ps n machine uses step control pending => ?_⟩
  · have untouched := (cautiousWith_execute i m).untouched f m' run
    refine ⟨untouched, fun regular r known s => ?_⟩
    have regular' := regular_execute (i := i) regular
    rw [after_of_error run] at regular'
    exact get_field_of_grown untouched.heap regular regular' known s
  · obtain ⟨untouched, slots⟩ := untouched_of_raise uses step control
    rw [machine] at untouched slots
    refine ⟨?_, fun sound o ho => ?_, step_of_raise control pending⟩
    · exact shows_unwindTo (m := m) (k := Machine.recordError { b.machine with runBase := p.runBase } e) untouched.globals
        untouched.output untouched.openCells untouched.heap slots p.depths
    · have openCells : b.machine.openCells = m.openCells := untouched.openCells
      have same : b.machine.captured = m.captured := untouched.captured
      have reads := valueOf_unwindTo (m := Machine.recordError { b.machine with runBase := p.runBase } e)
        (same.symm ▸ sound) p.depths (openCells ▸ ho)
      rw [run_readCell]
      exact congrArg (EStateM.Result.ok · _) reads

/-- A native function catches the errors of a call that is about to make an instance of a class without
constructor, with an argument. There is an array and another instance, and a local variable is captured. -/
def refusing : Activity where
  machine :=
    { stack := #[.null, .int 5, .cls ⟨0⟩, .null]
      openCells := [⟨1, ⟨0⟩⟩]
      frames := [{ closure := ⟨0⟩ }, default]
      runBase := 1
      world :=
        { heap :=
            { arrays := ⟨#[#[.bool true]]⟩
              objects := ⟨#[{ cls := ⟨0⟩ }]⟩
              cells := ⟨#[.onStack 1]⟩
              classes := ⟨#[{ name := "C", tableId := 1, statics := ⟨0⟩ }]⟩
              closures := ⟨#[{ proto := { id := 1, chunk := { code := #[{ op := .new, a := 1 }] } } }]⟩ } } }
  pending := [⟨.instruction .attempt, ⟨1, 0, 0, 0⟩, 0⟩, ⟨.script, ⟨0, 1, 0, 0⟩, 0⟩]
  control := .execute

/-- What `refusing` comes to. -/
def refused : Activity :=
  match refusing.step with
  | .continue b => b
  | .done _ _ => default

/-- What the native function finds when it has caught the error. -/
def recovered : Machine := unwound refused.machine (refused.pending.headD default) ⟨.wrongArity 0 1, ⟨0, 0⟩⟩

/-- The instance has been made, nobody knows it, and the native function goes on with what there was. The variable
has its value. -/
theorem refused_new_touches_nothing :
    refusing.step = .continue refused ∧ refused.machine.heap.objects.size = 2 ∧
      refusing.machine.Shows 2 recovered ∧ (readCell ⟨0⟩).run recovered = .ok (.int 5) recovered := by
  obtain ⟨-, -, caught⟩ := failed_instructions_touch_nothing refusing.machine
  have step : refusing.step = .continue refused := rfl
  obtain ⟨shows, reads, -⟩ :=
    caught refusing refused ⟨.wrongArity 0 1, ⟨0, 0⟩⟩ _ _ _ rfl (.instruction rfl rfl) step rfl rfl
  have sound : refusing.machine.captured.Sound := by
    intro o ho
    rw [List.mem_singleton.1 ho]
    rfl
  exact ⟨step, rfl, shows, reads sound ⟨1, ⟨0⟩⟩ (List.mem_singleton_self _)⟩

/-- A function that gives the value of its captured variable, the second of the call that makes it. -/
def secondReader : Proto :=
  { id := 0, name := "g", captures := [⟨true, 2⟩], chunk := { code := #[{ op := .getUpvalue }, { op := .ret }] } }

/-- A function that captures a text in a global function, and then makes a hash of the text and of a second
pair, whose key is an array. -/
def emptyingFunction : Proto :=
  { id := 1
    name := "f"
    chunk :=
      { code := #[{ op := .constant }, { op := .constant, a := 1 }, { op := .closure, a := 2 },
          { op := .defineGlobal, a := 3 }, { op := .array }, { op := .pushNull }, { op := .hash, a := 2 }]
        constants := #[.text "k", .text "abc", .function secondReader, .text "g"] } }

/-- A script that has the errors of `emptyingFunction` caught by a native function, and then asks for the text. -/
def emptyingScript : Proto :=
  { id := 2
    chunk :=
      { code := #[{ op := .getGlobal }, { op := .closure, a := 1 }, { op := .call, a := 1 }, { op := .pop },
          { op := .getGlobal, a := 2 }, { op := .call }, { op := .ret }]
        constants := #[.text "attempt", .function emptyingFunction, .text "g"] } }

/-- `emptyingScript` about to make the hash. -/
def emptying : Activity := ((Machine.fresh {} preludeNatives {}).startScript emptyingScript).after 10

/-- How the native function that an instruction called deals with the error of the next move, and the machine
that it finds. -/
def handover (a : Activity) : Option (Callback × Machine) :=
  match a.step with
  | .continue ⟨m, p :: _, .raise e⟩ =>
    match p.caller with
    | .instruction c => some (c, unwound m p e)
    | _ => none
  | _ => none

theorem failure_of_handover {a : Activity} {c : Callback} {m : Machine} (handed : a.handover = some (c, m)) :
    ∃ b e p ps, a.step = .continue b ∧ b.control = .raise e ∧ b.pending = p :: ps ∧ p.caller = .instruction c ∧
      unwound b.machine p e = m := by
  unfold handover at handed
  split at handed
  next m₁ p ps e step =>
    split at handed
    next c' caller =>
      cases handed
      exact ⟨_, e, p, ps, step, rfl, rfl, caller, rfl⟩
    next => cases handed
  next => cases handed

/-- The slot that a cell is on. -/
def slotOf? : Cell → Option Nat
  | .onStack s => some s
  | .closed _ => none

theorem onStack_of_slotOf? {c : Cell} {s : Nat} (slot : slotOf? c = some s) : c = .onStack s := by
  cases c <;> cases slot
  rfl

/-- The text that a captured variable has. -/
def textIn? (r : Ref .cell) (m : Machine) : Option Text :=
  match m.valueOf r with
  | .str t => some t
  | _ => none

/-- A captured variable that has another text after the error has not been shown as before. -/
theorem not_shows_of_handover {a : Activity} {c : Callback} {o : OpenCell} {t u : Text} (sound : a.machine.captured.Sound)
    (ho : o ∈ a.machine.openCells) (deep : o.slot < a.machine.stack.size)
    (before : textIn? o.cell a.machine = some t)
    (after : a.handover.map (Prod.map id (textIn? o.cell)) = some (c, some u)) (ne : t ≠ u) :
    ∃ b e p ps, a.step = .continue b ∧ b.control = .raise e ∧ b.pending = p :: ps ∧ p.caller = .instruction c ∧
      ¬a.machine.Shows 0 (unwound b.machine p e) := by
  obtain ⟨⟨c, m⟩, handed, found⟩ := Option.map_eq_some_iff.1 after
  obtain ⟨rfl, text⟩ := Prod.ext_iff.1 found
  obtain ⟨b, e, p, ps, step, control, pending, caller, rfl⟩ := failure_of_handover handed
  refine ⟨b, e, p, ps, step, control, pending, caller, fun shows => ne ?_⟩
  obtain ⟨v, read, read'⟩ := shows.opened sound o ho deep
  rw [run_readCell] at read read'
  have same : a.machine.valueOf o.cell = (unwound b.machine p e).valueOf o.cell :=
    (EStateM.Result.ok.inj read).1.trans (EStateM.Result.ok.inj read').1.symm
  have text : textIn? o.cell (unwound b.machine p e) = some u := text
  unfold textIn? at before text
  rw [same] at before
  exact Option.some.inj (before.symm.trans text)

/-- The text that a run has answered with. -/
def answeredText : Outcome × Machine → Option Text
  | (.value (.str t), _) => some t
  | _ => none

/-- The literal has moved the text out of its slot when it comes to the array, so the native function that
catches the error does not find the variable as it was, and the script reads an empty text. -/
theorem failed_literal_empties_variable :
    textIn? ⟨0⟩ emptying.machine = some ("abc" : Text) ∧
      (∃ b e p ps, emptying.step = .continue b ∧ b.control = .raise e ∧ b.pending = p :: ps ∧
        p.caller = .instruction .attempt ∧ ¬emptying.machine.Shows 0 (unwound b.machine p e)) ∧
      (interpret 19 (Machine.fresh {} preludeNatives {}) emptyingScript).bind answeredText = some ("" : Text) := by
  have before : textIn? ⟨0⟩ emptying.machine = some ("abc" : Text) := by decide +kernel
  have after : emptying.handover.map (Prod.map id (textIn? ⟨0⟩)) =
      some (.attempt, some ("" : Text)) := by decide +kernel
  have ne : ("abc" : Text) ≠ "" := by decide
  have openCells : emptying.machine.openCells = [⟨3, ⟨0⟩⟩] := by decide +kernel
  have deep : 3 < emptying.machine.stack.size := by decide +kernel
  have opened : slotOf? (emptying.machine.heap.cells.get ⟨0⟩) = some 3 := by decide +kernel
  have sound : emptying.machine.captured.Sound := by
    intro o ho
    have ho : o ∈ emptying.machine.openCells := ho
    rw [openCells] at ho
    rw [List.mem_singleton.1 ho]
    exact onStack_of_slotOf? opened
  have mem : (⟨3, ⟨0⟩⟩ : OpenCell) ∈ emptying.machine.openCells := by
    rw [openCells]
    exact List.mem_singleton_self _
  exact ⟨before, not_shows_of_handover sound mem deep before after ne, by decide +kernel⟩

end Activity

end ScriptVm
