import ScriptVm.Proofs.Entries

/-!
# Runs that give captured slots up in order

Instructions are careful with captured variables if they capture slots that are there, and take a
captured slot off the stack only by closing its cell, by returning or by throwing. In careful runs a
cell that is on the stack is on a live slot, and it takes over the value that its slot had before.
-/

set_option autoImplicit false

namespace ScriptVm

open Machine Exec Stacks Variables

/-- Every open cell is on a slot of the stack. -/
def Machine.Live (m : Machine) : Prop := ∀ o ∈ m.openCells, o.slot < m.stack.size

/-- Instruction `i` of call `f` is careful with captured variables. What a return or throw takes along
is its operand, which nobody has captured. -/
structure Instruction.Careful (i : Instruction) (m : Machine) (f : Frame) : Prop where
  captures : ∀ s ∈ m.capturedSlots f i, s < m.stack.size
  discards : i.op ≠ .closeUpvalue → i.op ≠ .ret → i.op ≠ .throwTop →
    ∀ o ∈ m.openCells, o.slot < ((execute i).after m).stack.size
  operand : i.op = .ret ∨ i.op = .throwTop → ∀ o ∈ m.openCells, o.slot + 1 < m.stack.size

namespace Exec

variable {i : Instruction} {m : Machine} {f : Frame} {rest : List Frame}

/-- What is given up has the values of before. -/
theorem getD_givenUp (careful : i.Careful m f) {o : OpenCell} (ho : o ∈ m.openCells) :
    (m.givenUp i).getD o.slot .null = m.slot o.slot := by
  unfold givenUp
  split
  next op =>
    have below := careful.operand op o ho
    rw [slot, Array.getD_eq_getD_getElem?, Array.getD_eq_getD_getElem?, Array.getElem?_pop,
      if_pos (by omega)]
  next => rfl

theorem live_closeUpvalue (x y : UInt16) : ((execute ⟨.closeUpvalue, x, y⟩).after m).Live := by
  intro o ho
  have captured : ((execute ⟨.closeUpvalue, x, y⟩).after m).captured =
      m.captured.close m.stack (m.stack.size - 1) := captured_closeCells m _
  have ho : o ∈ (m.captured.close m.stack (m.stack.size - 1)).openCells := captured ▸ ho
  have below := of_decide_eq_true (List.mem_filter.1 ho).2
  have stack : ((execute ⟨.closeUpvalue, x, y⟩).after m).stack = (m.closeCells (m.stack.size - 1)).stack.pop := rfl
  have same : (m.closeCells (m.stack.size - 1)).stack = m.stack := congrArg Stacks.values (stacked_closeCells m _)
  rw [stack, same, Array.size_pop]
  exact below

/-- What is open after a return lies below the slots of the call. -/
theorem live_ret (frames : m.frames = f :: rest) : (returnFrom.after m).Live := by
  intro o ho
  have ho : o ∈ (m.captured.close m.stack.pop f.base).openCells := captured_ret frames ▸ ho
  have below : o.slot < f.base := of_decide_eq_true (List.mem_filter.1 ho).2
  obtain ⟨m', stacked, -, run⟩ := run_returnFrom frames
  have size : m'.stack.size = f.base := by
    rw [show m'.stack = resized m.stack.pop f.base from congrArg Stacks.values stacked, size_resized]
  split at run
  · rw [after_of_ok run, size]
    exact below
  · rw [after_of_ok (show returnFrom.run m = .ok .next { m' with stack := m'.stack.push (m.result f) } from run),
      Array.size_push, size]
    omega

/-- What is open after a throw lies below the region that caught it. -/
theorem live_throwTop (operand : ∀ o ∈ m.openCells, o.slot + 1 < m.stack.size) :
    ((andNext (do throwValue (← pop))).after m).Live := by
  intro o ho
  rcases throwTop_cases m with ⟨h, hs, m', -, -, run, stacked, captured⟩ | ⟨e, m', run, keeps⟩
  · rw [after_of_ok run] at ho ⊢
    have ho : o ∈ (m.captured.closeAll m.stack.pop (endingBases h.frameDepth m.frames ++ [h.stackDepth])).openCells :=
      captured ▸ ho
    have below := slot_lt_of_mem_closeAll ho
    rw [show m'.stack = (resized m.stack.pop h.stackDepth).push m.top from congrArg Stacks.values stacked,
      Array.size_push, size_resized]
    omega
  · rw [after_of_error run] at ho ⊢
    rw [keeps.openCells] at ho
    have below := operand o ho
    have size := keeps.size
    omega

theorem live_closure (frames : m.frames = f :: rest) (live : m.Live) {x y : UInt16}
    (captures : ∀ s ∈ m.capturedSlots f ⟨.closure, x, y⟩, s < m.stack.size) :
    ((execute ⟨.closure, x, y⟩).after m).Live := by
  intro o ho
  have grown : m.stack.size ≤ ((execute ⟨.closure, x, y⟩).after m).stack.size :=
    ((staying_makeClosure x.toNat).before fun v _ _ => (plain_pushed (b := true) v).staying).size
  rcases (captures_closure frames x y).opened o ho with before | ⟨-, slot, -⟩
  · have := live o before
    omega
  · have := captures o.slot slot
    omega

/-- Instructions that neither capture nor give up a slot leave the same cells open. -/
theorem openCells_execute (frames : m.frames = f :: rest) (closeUpvalue : i.op ≠ .closeUpvalue)
    (closure : i.op ≠ .closure) (ret : i.op ≠ .ret) (throwTop : i.op ≠ .throwTop) :
    ((execute i).after m).openCells = m.openCells := by
  by_cases setUpvalue : i.op = .setUpvalue
  · obtain ⟨op, x, y⟩ := i
    cases setUpvalue
    have run := run_setUpvalue frames x y
    split at run
    · rw [after_of_ok run]
    · rw [after_of_ok run]
      rfl
  · have same : ((execute i).after m).captured = m.captured :=
      sparing_execute setUpvalue closeUpvalue closure ret throwTop
    exact congrArg Variables.openCells same

/-- After a careful instruction the open cells are on the stack. -/
theorem live_execute (frames : m.frames = f :: rest) (live : m.Live) (careful : i.Careful m f) :
    ((execute i).after m).Live := by
  obtain ⟨op, x, y⟩ := i
  by_cases closeUpvalue : op = .closeUpvalue
  · subst closeUpvalue
    exact live_closeUpvalue x y
  by_cases ret : op = .ret
  · subst ret
    exact live_ret frames
  by_cases throwTop : op = .throwTop
  · subst throwTop
    exact live_throwTop (careful.operand (.inr rfl))
  by_cases closure : op = .closure
  · subst closure
    exact live_closure frames live careful.captures
  · intro o ho
    rw [openCells_execute frames closeUpvalue closure ret throwTop] at ho
    exact careful.discards closeUpvalue ret throwTop o ho

end Exec

namespace Activity

variable {a b : Activity}

/-- The instruction that the machine is about to execute is careful with captured variables. -/
def Careful (a : Activity) : Prop :=
  a.control = .execute →
    ∀ i m f rest, fetch.run a.machine = .ok i m → m.frames = f :: rest → i.Careful m f

/-- The cell with its own value that the next move assigns to, with the new value. -/
def assigned (a : Activity) : Option (Ref .cell × Value) :=
  match a.control, fetch.run a.machine with
  | .execute, .ok i m => m.assignment (m.frames.headD default) i
  | _, _ => none

/-- The values on the stack when the next move gives slots up. -/
def givenUp (a : Activity) : Array Value :=
  match a.control, fetch.run a.machine with
  | .execute, .ok i m => m.givenUp i
  | _, _ => a.machine.stack

/-- The slots that the next move captures. -/
def capturing (a : Activity) : List Nat :=
  match a.control, fetch.run a.machine with
  | .execute, .ok i m => m.capturedSlots (m.frames.headD default) i
  | _, _ => []

/-- An error is about to end the script. -/
def Dropping (a : Activity) : Prop :=
  ∃ e p ps, a.control = .raise e ∧ a.pending = p :: ps ∧ p.caller = .script

theorem assigned_of_ne (h : a.control ≠ .execute) : a.assigned = none := by
  unfold assigned
  split
  next control _ => exact absurd control h
  next => rfl

theorem givenUp_of_ne (h : a.control ≠ .execute) : a.givenUp = a.machine.stack := by
  unfold givenUp
  split
  next control _ => exact absurd control h
  next => rfl

theorem captured_fetched {p : Pending} {i : Instruction} {m : Machine} {f : Frame} {rest : List Frame}
    (h : Executing a p i m f rest) : m.captured = a.machine.captured := by
  have same := sparing_fetch (m := a.machine)
  rw [Sparing, after_of_ok h.fetched] at same
  exact same

theorem captured_onFault (e : Fault) (m : Machine) (ps : List Pending) :
    (onFault e m ps).machine.captured = m.captured := by
  cases e <;> rfl

theorem captured_resume (m : Machine) (ps : List Pending) (caller : Caller) (v : Value) :
    (resume m ps caller v).machine.captured = m.captured := by
  cases caller <;> rfl

/-! ## What a move does to captured variables -/

/-- Captured variables after a move: an instruction has changed them, slots were given up, or an error
drops the script. -/
theorem captured_step (standing : a.Standing) :
    (∃ p i m f rest, a.control = .execute ∧ Executing a p i m f rest ∧
        a.step.machine.captured = ((execute i).after m).captured) ∨
      (a.control ≠ .execute ∧ ∃ starts,
        a.step.machine.captured = a.machine.captured.closeAll a.machine.stack starts) ∨
      a.Dropping := by
  by_cases busy : a.control = .execute
  · obtain ⟨p, i, m, f, rest, executing⟩ := standing.executing busy
    refine .inl ⟨p, i, m, f, rest, busy, executing, ?_⟩
    have executes := executing.executes
    generalize a.step = move at executes
    cases executes with
    | next _ run => rw [after_of_ok run]; rfl
    | ends _ run => rw [after_of_ok run]; rfl
    | reenters _ run => rw [after_of_ok run, machine_reenter]
    | faults _ run => rw [after_of_error run, captured_onFault]
  cases control : a.control with
  | execute => exact absurd control busy
  | invoke callee args =>
    refine .inr (.inl ⟨control ▸ busy, [], ?_⟩)
    have invokes := invokes_step control
    generalize a.step = move at invokes
    cases invokes with
    | enters _ _ _ _ captured => exact captured
    | answers _ _ captured => exact captured
    | reenters _ _ captured => exact (congrArg Machine.captured (machine_reenter _ _ _ _)).trans captured
    | faults _ _ captured => exact (captured_onFault _ _ _).trans captured
  | ask byEntry c =>
    refine .inr (.inl ⟨control ▸ busy, [], ?_⟩)
    rw [Activity.step, control]
    cases byEntry <;> rfl
  | deliver v =>
    refine .inr (.inl ⟨control ▸ busy, [], ?_⟩)
    cases pending : a.pending with
    | nil => cases pending ▸ standing.nested
    | cons p ps =>
      have delivers := delivers_step control pending
      generalize a.step = move at delivers
      cases delivers with
      | answers _ _ captured => exact captured
      | resumes => exact captured_resume _ _ _ _
  | raise e =>
    cases pending : a.pending with
    | nil => cases pending ▸ standing.nested
    | cons p ps =>
      have raises := raises_step control pending
      generalize a.step = move at raises
      have unwinds : (unwound a.machine p e).captured = a.machine.captured.closeAll a.machine.stack
          (endingBases p.depths.frames a.machine.frames ++ [p.depths.stack]) := captured_unwindTo _ _
      cases raises with
      | drops caller => exact .inr (.inr ⟨e, p, ps, control, pending, caller⟩)
      | answers => exact .inr (.inl ⟨control ▸ busy, _, unwinds⟩)
      | resumes _ _ _ captured =>
        exact .inr (.inl ⟨control ▸ busy, _, (captured_resume _ _ _ _).trans (captured.trans unwinds)⟩)
      | rethrows _ _ _ captured => exact .inr (.inl ⟨control ▸ busy, _, captured.trans unwinds⟩)
      | informs => exact .inr (.inl ⟨control ▸ busy, _, unwinds⟩)

/-- A move changes captured variables in one of the known ways, unless an error drops the script. -/
theorem turn_step (standing : a.Standing) (sound : a.machine.captured.Sound) (keeps : ¬a.Dropping) :
    Turn a.givenUp (· ∈ a.capturing) a.assigned a.machine.captured a.step.machine.captured := by
  rcases captured_step standing with ⟨p, i, m, f, rest, control, executing, after⟩ | ⟨idle, starts, after⟩ | dropping
  · have before := captured_fetched executing
    have turn := turn_execute i executing.frames (before ▸ sound)
    have innermost : m.frames.headD default = f := by rw [executing.frames, List.headD_cons]
    rw [after, ← before, givenUp, assigned]
    unfold capturing
    simp only [control, executing.fetched, innermost]
    exact turn
  · rw [assigned_of_ne idle, givenUp_of_ne idle, after]
    exact .closes (closes_closeAll sound _ _)
  · exact absurd dropping keeps

/-- An error that drops the script forgets which cells are open. -/
theorem step_of_dropping (dropping : a.Dropping) :
    ∃ e m, a.step = .done (.error e) m ∧ m.captured = ⟨[], a.machine.heap.cells⟩ := by
  obtain ⟨e, p, ps, control, pending, caller⟩ := dropping
  refine ⟨e, (Machine.recordError { a.machine with runBase := p.runBase } e).reset, ?_, rfl⟩
  rw [Activity.step, control]
  simp only [pending, stepRaise, caller]

theorem getD_givenUp_of_careful (standing : a.Standing) (careful : a.Careful) (live : a.machine.Live)
    {o : OpenCell} (ho : o ∈ a.machine.openCells) : a.givenUp.getD o.slot .null = a.machine.slot o.slot := by
  by_cases busy : a.control = .execute
  · obtain ⟨p, i, m, f, rest, executing⟩ := standing.executing busy
    have openCells : m.openCells = a.machine.openCells := congrArg Variables.openCells (captured_fetched executing)
    have ho' : o ∈ m.openCells := openCells ▸ ho
    have fetched : m.stack[o.slot]? = a.machine.stack[o.slot]? := executing.stays.values o.slot (live o ho)
    unfold givenUp
    simp only [busy, executing.fetched]
    rw [Exec.getD_givenUp (careful busy i m f rest executing.fetched executing.frames) ho', slot, slot,
      Array.getD_eq_getD_getElem?, Array.getD_eq_getD_getElem?, fetched]
  · rw [givenUp_of_ne busy]
    rfl

/-- A machine with the same open cells and no smaller stack. -/
theorem live_of_size_le {m m' : Machine} (live : m.Live) (captured : m'.captured = m.captured)
    (size : m.stack.size ≤ m'.stack.size) : m'.Live := by
  intro o ho
  have openCells : m'.openCells = m.openCells := congrArg Variables.openCells captured
  exact Nat.lt_of_lt_of_le (live o (openCells ▸ ho)) size

theorem live_unwound {m m' : Machine} {p : Pending} {e : RuntimeError} (live : m.Live)
    (sound : m.captured.Sound) (stacked : m'.stacked = (unwound m p e).stacked)
    (captured : m'.captured = (unwound m p e).captured) : m'.Live := by
  intro o ho
  have openCells : m'.openCells = (unwound m p e).captured.openCells := congrArg Variables.openCells captured
  rw [openCells, unwound, captured_unwindTo] at ho
  have below := slot_lt_of_mem_closeAll ho
  have before : o.slot < m.stack.size := live o ((closes_closeAll sound _ _).left o ho)
  have stack : m'.stack = m.stack.shrink p.depths.stack :=
    congrArg Stacks.values (stacked.trans (stacked_unwound_eq m p e))
  rw [stack, Array.size_shrink]
  omega

theorem Completed.live {m : Machine} {ps : List Pending} {v : Value} {byEntry : Bool}
    (completed : Completed m ps v byEntry b) (live : m.Live) : b.machine.Live := by
  cases completed with
  | instruction =>
    refine live_of_size_le live rfl ?_
    rw [Array.size_push]
    exact Nat.le_succ _
  | entry => exact live

theorem Resumed.live {m : Machine} {ps : List Pending} {caller : Caller} (resumed : Resumed m ps caller b)
    (live : m.Live) : b.machine.Live := by
  cases resumed with
  | returns _ completed => exact completed.live live
  | asks => exact live

/-- The host leaves the machine alone. -/
theorem live_acted {c : HostCall} {m m' : Machine} (acted : Acted c m m') (live : m.Live) : m'.Live :=
  live_of_size_le live (acted.captured rfl) (Nat.le_of_eq (congrArg (fun s : Stacks => s.values.size) acted.stacked).symm)

theorem Executing.live {p : Pending} {i : Instruction} {m : Machine} {f : Frame} {rest : List Frame}
    (executing : Executing a p i m f rest) (control : a.control = .execute) (careful : a.Careful)
    (live : a.machine.Live) : ((execute i).after m).Live :=
  live_execute executing.frames (live_of_size_le live (captured_fetched executing) executing.stays.size)
    (careful control i m f rest executing.fetched executing.frames)

/-- Every careful move leaves open cells on live slots. -/
theorem live_step (standing : a.Standing) (sound : a.machine.captured.Sound) (careful : a.Careful)
    (live : a.machine.Live) (step : a.step = .continue b) : b.machine.Live := by
  cases standing.next step with
  | executed control executing _ after => exact after ▸ executing.live control careful live
  | called control executing _ after => exact after ▸ executing.live control careful live
  | entered _ stays _ _ _ captured => exact live_of_size_le live captured stays.size
  | answered _ stays _ captured => exact live_of_size_le live captured stays.size
  | reentered _ stays _ captured => exact live_of_size_le live captured stays.size
  | completed _ acted completed => exact completed.live (live_acted acted live)
  | calledBack _ acted => exact live_acted acted live
  | told _ acted => exact live_acted acted live
  | delivered _ _ resumed => exact resumed.live (live_of_size_le live rfl (Nat.le_refl _))
  | recovered _ _ stacked captured resumed => exact resumed.live (live_unwound live sound stacked captured)
  | rethrown _ _ _ _ stacked captured => exact live_unwound live sound stacked captured

end Activity

end ScriptVm
