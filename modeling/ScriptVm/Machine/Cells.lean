import ScriptVm.Machine.State

/-!
# Captured variables and unwinding

A captured variable lives in its slot until the slot is given up; then its cell takes the value
over. All functions that capture one slot share one cell.

Unwinding ends calls from the innermost outward, closing the cells of each.
-/

set_option autoImplicit false

namespace ScriptVm

namespace Machine

/-- Gives the cells on slots from `start` on values of their own. -/
def closeCells (m : Machine) (start : Nat) : Machine :=
  let closing := m.openCells.filter fun o => start ≤ o.slot
  if closing.isEmpty then m
  else
    let cells := closing.foldl (fun cells o => cells.set o.cell (.closed (m.slot o.slot))) m.heap.cells
    { m with
      openCells := m.openCells.filter fun o => o.slot < start
      world := { m.world with heap := { m.heap with cells } } }

/-- Ends the listed calls down to `depth`, closing the cells of each. -/
def endFrames (depth : Nat) : List Frame → Machine → Machine
  | [], m => { m with frames := [] }
  | f :: rest, m =>
    if depth < rest.length + 1 then endFrames depth rest (m.closeCells f.base)
    else { m with frames := f :: rest }

/-- The depths that a call into the machine starts at. -/
structure Depths where
  frames : Nat
  stack : Nat
  handlers : Nat
  iterations : Nat
  deriving Repr, DecidableEq, Inhabited

/-- The depths now. -/
def depths (m : Machine) : Depths :=
  ⟨m.frames.length, m.stack.size, m.handlers.length, m.iterations.length⟩

/-- Drops everything above the given depths. Nothing grows. -/
def unwindTo (m : Machine) (d : Depths) : Machine :=
  let m := (m.endFrames d.frames m.frames).closeCells d.stack
  { m with
    stack := m.stack.shrink d.stack
    handlers := truncated m.handlers d.handlers
    iterations := truncated m.iterations d.iterations }

end Machine

namespace Exec

/-- The value of a captured variable. -/
def readCell (r : Ref .cell) : Exec Value := do
  let m ← get
  match m.heap.cells.get r with
  | .onStack slot => return m.slot slot
  | .closed v => return v

/-- Assigns to a captured variable. -/
def writeCell (r : Ref .cell) (v : Value) : Exec Unit := do
  match (← heap).cells.get r with
  | .onStack slot => setSlot slot v
  | .closed _ => modifyHeap fun h => { h with cells := h.cells.set r (.closed v) }

/-- The cell of a slot, made if the slot has none. -/
def captureSlot (slot : Nat) : Exec (Ref .cell) := do
  match (← get).openCells.find? fun o => o.slot = slot with
  | some o => return o.cell
  | none =>
    let r ← withHeap fun h => h.allocCell (.onStack slot)
    modify fun m => { m with openCells := ⟨slot, r⟩ :: m.openCells }
    return r

/-- The cell of the innermost function's captured variable. -/
def ownCell (index : Nat) : Exec (Ref .cell) := do
  let f ← frame
  return ((← heap).closures.get f.closure).cells.getD index ⟨(← heap).cells.size⟩

/-- The cells of a new function's captured variables. -/
def captureAll (base : Nat) : List Capture → Exec (List (Ref .cell))
  | [] => return []
  | c :: rest => do
    let r ← if c.isLocal then captureSlot (base + c.index) else ownCell c.index
    return r :: (← captureAll base rest)

def closeCells (start : Nat) : Exec Unit := modify fun m => m.closeCells start

end Exec

end ScriptVm
