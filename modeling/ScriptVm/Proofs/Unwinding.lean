import ScriptVm.Machine.Run

/-!
# What unwinding does

Closing cells, ending calls and going back to earlier depths, each as one change of the machine.
All three leave the stack below the cut, the globals and the rest of the world alone; what becomes
of the captured variables is `Variables.close`.
-/

set_option autoImplicit false

namespace ScriptVm

/-- The captured variables of a machine: those that live on the stack, and the cells of all. -/
structure Variables where
  openCells : List OpenCell
  cells : Pool .cell Cell

namespace Variables

/-- The captured variables after the cells on slots from `start` on have got values of their
own. -/
def close (c : Variables) (values : Array Value) (start : Nat) : Variables where
  openCells := c.openCells.filter fun o => o.slot < start
  cells :=
    (c.openCells.filter fun o => start ≤ o.slot).foldl
      (fun cells o => cells.set o.cell (.closed (values.getD o.slot .null))) c.cells

/-- Closes from several slots on, one after the other. -/
def closeAll (c : Variables) (values : Array Value) (starts : List Nat) : Variables :=
  starts.foldl (fun c start => c.close values start) c

end Variables

namespace Machine

/-- The captured variables of the machine. -/
def captured (m : Machine) : Variables := ⟨m.openCells, m.heap.cells⟩

/-- The machine with other captured variables. -/
def withVariables (m : Machine) (c : Variables) : Machine :=
  { m with openCells := c.openCells, world := { m.world with heap := { m.world.heap with cells := c.cells } } }

/-- Closing cells takes them off the list of open ones and gives them their values. -/
theorem closeCells_eq (m : Machine) (start : Nat) :
    m.closeCells start = m.withVariables (m.captured.close m.stack start) := by
  unfold closeCells
  simp only
  split
  next none =>
    have closing : (m.openCells.filter fun o => decide (start ≤ o.slot)) = [] := List.isEmpty_iff.1 none
    have kept : (m.openCells.filter fun o => decide (o.slot < start)) = m.openCells := by
      rw [List.filter_eq_self]
      intro o ho
      have := List.filter_eq_nil_iff.1 closing o ho
      simp only [decide_eq_true_eq] at this ⊢
      omega
    rw [Variables.close, captured, kept, closing]
    rfl
  next => rfl

theorem truncated_cons_of_lt {α : Type} {a : α} {rest : List α} {depth : Nat}
    (h : depth < rest.length + 1) : truncated (a :: rest) depth = truncated rest depth := by
  rw [truncated, truncated, List.length_cons,
    show rest.length + 1 - depth = (rest.length - depth) + 1 by omega, List.drop_succ_cons]

theorem truncated_of_le {α : Type} {xs : List α} {depth : Nat} (h : xs.length ≤ depth) :
    truncated xs depth = xs := by
  rw [truncated, show xs.length - depth = 0 by omega, List.drop_zero]

theorem length_truncated {α : Type} (xs : List α) (depth : Nat) :
    (truncated xs depth).length = min xs.length depth := by
  rw [truncated, List.length_drop]
  omega

/-- Entries further out than the cut stay. -/
theorem truncated_append {α : Type} (inner : List α) {outer : List α} {depth : Nat}
    (h : outer.length ≤ depth) :
    truncated (inner ++ outer) depth = truncated inner (depth - outer.length) ++ outer := by
  rw [truncated, truncated, List.length_append, List.drop_append]
  have inside : inner.length + outer.length - depth ≤ inner.length := by omega
  rw [show inner.length + outer.length - depth - inner.length = 0 by omega, List.drop_zero,
    show inner.length - (depth - outer.length) = inner.length + outer.length - depth by omega]

/-- A cut further out takes all inner entries away. -/
theorem truncated_append_of_le {α : Type} (inner : List α) {outer : List α} {depth : Nat}
    (h : depth ≤ outer.length) : truncated (inner ++ outer) depth = truncated outer depth := by
  rw [truncated, truncated, List.length_append,
    show inner.length + outer.length - depth = inner.length + (outer.length - depth) by omega,
    List.drop_length_add_append]

theorem size_resized (values : Array Value) (k : Nat) : (resized values k).size = k := by
  unfold resized
  split
  · rw [Array.size_shrink]
    omega
  · rw [Array.size_append, Array.size_replicate]
    omega

theorem getElem?_resized (values : Array Value) {k i : Nat} (h : i < k) (h' : i < values.size) :
    (resized values k)[i]? = values[i]? := by
  unfold resized
  split
  · rw [← Array.getElem?_toList, Array.toList_shrink, List.getElem?_take, if_pos h, Array.getElem?_toList]
  · rw [Array.getElem?_append, if_pos h']

/-- The slots that the calls which end down to `depth` begin at. -/
def endingBases (depth : Nat) (fs : List Frame) : List Nat := (fs.take (fs.length - depth)).map Frame.base

/-- Ending calls changes nothing but the calls and captured variables. -/
theorem endFrames_eq (depth : Nat) (fs : List Frame) (m : Machine) :
    m.endFrames depth fs =
      { m with frames := truncated fs depth }.withVariables
        (m.captured.closeAll m.stack (endingBases depth fs)) := by
  induction fs generalizing m with
  | nil =>
    rw [truncated_of_le (Nat.zero_le depth), show endingBases depth [] = [] by rw [endingBases, List.take_nil]; rfl]
    rfl
  | cons f rest ih =>
    unfold endFrames
    split
    next h =>
      have bases : endingBases depth (f :: rest) = f.base :: endingBases depth rest := by
        rw [endingBases, endingBases, List.length_cons,
          show rest.length + 1 - depth = (rest.length - depth) + 1 by omega, List.take_succ_cons, List.map_cons]
      rw [ih, truncated_cons_of_lt h, bases, closeCells_eq]
      rfl
    next h =>
      have bases : endingBases depth (f :: rest) = [] := by
        rw [endingBases, List.length_cons, show rest.length + 1 - depth = 0 by omega]
        rfl
      rw [truncated_of_le (by rw [List.length_cons]; omega), bases]
      rfl

theorem captured_closeCells (m : Machine) (start : Nat) :
    (m.closeCells start).captured = m.captured.close m.stack start := by
  rw [closeCells_eq]
  rfl

theorem captured_endFrames (m : Machine) (depth : Nat) :
    (m.endFrames depth m.frames).captured = m.captured.closeAll m.stack (endingBases depth m.frames) := by
  rw [endFrames_eq]
  rfl

/-- Calls end first, and then what is left above `k` is given up. -/
theorem captured_closeCells_endFrames (m : Machine) (depth k : Nat) :
    ((m.endFrames depth m.frames).closeCells k).captured =
      m.captured.closeAll m.stack (endingBases depth m.frames ++ [k]) := by
  have stack : (m.endFrames depth m.frames).stack = m.stack := by
    rw [endFrames_eq]
    rfl
  rw [captured_closeCells, captured_endFrames, stack, Variables.closeAll, Variables.closeAll, List.foldl_append]
  rfl

/-- What is still open after the last cut lies below it. -/
theorem slot_lt_of_mem_closeAll {c : Variables} {values : Array Value} {starts : List Nat} {k : Nat} {o : OpenCell}
    (ho : o ∈ (c.closeAll values (starts ++ [k])).openCells) : o.slot < k := by
  rw [Variables.closeAll, List.foldl_append] at ho
  exact of_decide_eq_true (List.mem_filter.1 ho).2

theorem captured_unwindTo (m : Machine) (d : Depths) :
    (m.unwindTo d).captured = m.captured.closeAll m.stack (endingBases d.frames m.frames ++ [d.stack]) :=
  captured_closeCells_endFrames m d.frames d.stack

theorem captured_enterCatch (m : Machine) (h : Handler) (v : Value) :
    (m.enterCatch h v).captured =
      m.captured.closeAll m.stack (endingBases h.frameDepth m.frames ++ [h.stackDepth]) :=
  captured_closeCells_endFrames m h.frameDepth h.stackDepth

end Machine

end ScriptVm
