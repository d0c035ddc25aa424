import ScriptVm.Proofs.StackEffects

/-!
# What instructions do to captured variables

Captured variables change in three ways: a function captures slots that nobody had captured, slots
are given up and their cells take the values over, and a cell that has its own value is assigned.
`Variables.Turn` lists them, and `turn_execute` says that an instruction does nothing else.
-/

set_option autoImplicit false

namespace ScriptVm

/-- A cell that is on a slot is there, since a missing one counts as closed. -/
theorem Pool.has_of_onStack {cells : Pool .cell Cell} {r : Ref .cell} {s : Nat} (h : cells.get r = .onStack s) :
    cells.has r := by
  unfold Pool.has
  by_cases lt : r.index < cells.items.size
  · exact lt
  · rw [Pool.get, Array.getD_eq_getD_getElem?, Array.getElem?_eq_none (Nat.le_of_not_lt lt)] at h
    cases h

/-- Writing a cell makes none. -/
theorem Pool.has_set {k : Kind} {α : Type} (p : Pool k α) (r s : Ref k) (a : α) :
    (p.set r a).has s ↔ p.has s := by
  rw [has, has, set, Array.size_setIfInBounds]

/-- Writing a cell leaves the others as they are. -/
theorem Pool.get_set_of_ne {k : Kind} {α : Type} [Inhabited α] (p : Pool k α) {r s : Ref k} (a : α) (ne : r ≠ s) :
    (p.set r a).get s = p.get s := by
  have ne : r.index ≠ s.index := fun eq => ne (congrArg Ref.mk eq)
  rw [get, get, set, Array.getD_eq_getD_getElem?, Array.getD_eq_getD_getElem?, Array.getElem?_setIfInBounds_ne ne]

namespace Variables

variable {values : Array Value} {allowed : Nat → Prop} {c c' c'' : Variables} {r : Ref .cell} {s : Nat}

/-- Every open cell is on its slot. -/
def Sound (c : Variables) : Prop := ∀ o ∈ c.openCells, c.cells.get o.cell = .onStack o.slot

/-- A cell is on one slot. -/
theorem Sound.unique (sound : c.Sound) {o o' : OpenCell} (ho : o ∈ c.openCells) (ho' : o' ∈ c.openCells)
    (same : o.cell = o'.cell) : o = o' := by
  have slots := (sound o ho).symm.trans (same ▸ sound o' ho')
  cases o
  cases o'
  cases same
  cases slots
  rfl

/-! ## Giving slots up -/

/-- Some slots are given up, and their cells take over the values of `values`. -/
structure Closes (values : Array Value) (c c' : Variables) : Prop where
  left : ∀ o ∈ c'.openCells, o ∈ c.openCells
  has : ∀ r, c'.cells.has r ↔ c.cells.has r
  cell : ∀ r,
    (c'.cells.get r = c.cells.get r ∧ ∀ o ∈ c.openCells, o.cell = r → o ∈ c'.openCells) ∨
      ∃ o ∈ c.openCells, o.cell = r ∧ o ∉ c'.openCells ∧ c'.cells.get r = .closed (values.getD o.slot .null)

/-- No slot is given up. -/
theorem Closes.refl (values : Array Value) (c : Variables) : Closes values c c :=
  ⟨fun _ ho => ho, fun _ => Iff.rfl, fun _ => .inl ⟨rfl, fun _ ho _ => ho⟩⟩

/-- Cells that have taken their values over stay apart. -/
theorem Closes.sound (h : Closes values c c') (sound : c.Sound) : c'.Sound := by
  intro o ho
  have before := h.left o ho
  rcases h.cell o.cell with ⟨same, -⟩ | ⟨o', ho', cell, gone, -⟩
  · rw [same]
    exact sound o before
  · rw [sound.unique ho' before cell] at gone
    exact absurd ho gone

/-- Slots can be given up one after the other, with the values of the same stack. -/
theorem Closes.trans (sound : c.Sound) (h : Closes values c c') (h' : Closes values c' c'') :
    Closes values c c'' := by
  refine ⟨fun o ho => h.left o (h'.left o ho), fun r => (h'.has r).trans (h.has r), fun r => ?_⟩
  rcases h.cell r with ⟨same, kept⟩ | ⟨o, ho, cell, gone, closed⟩
  · rcases h'.cell r with ⟨same', kept'⟩ | ⟨o, ho, cell, gone, closed⟩
    · exact .inl ⟨same'.trans same, fun o ho cell => kept' o (kept o ho cell) cell⟩
    · exact .inr ⟨o, h.left o ho, cell, gone, closed⟩
  · refine .inr ⟨o, ho, cell, fun back => gone (h'.left o back), ?_⟩
    rcases h'.cell r with ⟨same', -⟩ | ⟨o', ho', cell', -, -⟩
    · exact same'.trans closed
    · -- what has a value of its own is not open any more
      have open' := h.sound sound o' ho'
      rw [cell', closed] at open'
      cases open'

/-- Closing cells makes none. -/
theorem has_foldl_set (value : OpenCell → Value) (os : List OpenCell) (cells : Pool .cell Cell) (r : Ref .cell) :
    (os.foldl (fun cells o => cells.set o.cell (.closed (value o))) cells).has r ↔ cells.has r := by
  induction os generalizing cells with
  | nil => exact Iff.rfl
  | cons o rest ih =>
    rw [List.foldl_cons, ih]
    exact cells.has_set ..

/-- Cells that are not in the list keep their values. -/
theorem get_foldl_set_of_ne (value : OpenCell → Value) {os : List OpenCell} {cells : Pool .cell Cell}
    (other : ∀ o ∈ os, o.cell ≠ r) (known : ∀ o ∈ os, cells.has o.cell) :
    (os.foldl (fun cells o => cells.set o.cell (.closed (value o))) cells).get r = cells.get r := by
  induction os generalizing cells with
  | nil => rfl
  | cons o rest ih =>
    rw [List.foldl_cons, ih (fun o' ho' => other o' (.tail _ ho'))
      (fun o' ho' => (cells.has_set ..).2 (known o' (.tail _ ho'))), Pool.get_set _ _ _ _ (known o (.head _)),
      if_neg (other o (.head _))]

/-- A cell of the list gets its value. -/
theorem get_foldl_set (value : OpenCell → Value) {os : List OpenCell} {cells : Pool .cell Cell} {o : OpenCell}
    (ho : o ∈ os) (unique : ∀ o' ∈ os, o'.cell = o.cell → o' = o) (known : ∀ o ∈ os, cells.has o.cell) :
    (os.foldl (fun cells o => cells.set o.cell (.closed (value o))) cells).get o.cell = .closed (value o) := by
  induction os generalizing cells with
  | nil => cases ho
  | cons o' rest ih =>
    have known' : ∀ o₁ ∈ rest, (cells.set o'.cell (.closed (value o'))).has o₁.cell :=
      fun o₁ h => (cells.has_set ..).2 (known o₁ (.tail _ h))
    rw [List.foldl_cons]
    by_cases again : o ∈ rest
    · exact ih again (fun o₁ h => unique o₁ (.tail _ h)) known'
    · have first : o = o' := (List.mem_cons.1 ho).resolve_right again
      subst first
      rw [get_foldl_set_of_ne value (fun o₁ h same => again (unique o₁ (.tail _ h) same ▸ h)) known',
        Pool.get_set _ _ _ _ (known o (.head _)), if_pos rfl]

/-- The cells on slots from `start` on take the values of these slots over. -/
theorem closes_close (sound : c.Sound) (values : Array Value) (start : Nat) :
    Closes values c (c.close values start) := by
  have known : ∀ o ∈ c.openCells.filter fun o => start ≤ o.slot, c.cells.has o.cell := fun o ho =>
    Pool.has_of_onStack (sound o (List.mem_filter.1 ho).1)
  refine ⟨fun o ho => (List.mem_filter.1 ho).1, fun r => has_foldl_set _ _ _ r, fun r => ?_⟩
  by_cases closing : ∃ o ∈ c.openCells, o.cell = r ∧ start ≤ o.slot
  · obtain ⟨o, ho, rfl, le⟩ := closing
    refine .inr ⟨o, ho, rfl, fun stays => ?_, ?_⟩
    · have := of_decide_eq_true (List.mem_filter.1 stays).2
      omega
    · exact get_foldl_set (fun o => values.getD o.slot .null) (List.mem_filter.2 ⟨ho, decide_eq_true le⟩)
        (fun o' ho' same => sound.unique (List.mem_filter.1 ho').1 ho same) known
  · refine .inl ⟨get_foldl_set_of_ne _ (fun o ho same => ?_) known, fun o ho same => ?_⟩
    · exact closing ⟨o, (List.mem_filter.1 ho).1, same, of_decide_eq_true (List.mem_filter.1 ho).2⟩
    · refine List.mem_filter.2 ⟨ho, decide_eq_true (Nat.lt_of_not_le fun le => ?_)⟩
      exact closing ⟨o, ho, same, le⟩

/-- Several cuts close the cells on all the slots that are given up. -/
theorem closes_closeAll (sound : c.Sound) (values : Array Value) (starts : List Nat) :
    Closes values c (c.closeAll values starts) := by
  induction starts generalizing c with
  | nil => exact .refl values c
  | cons start starts ih =>
    have first := closes_close sound values start
    exact first.trans sound (ih (first.sound sound))

/-! ## Capturing slots -/

/-- New cells are made for some `allowed` slots. -/
structure Captures (allowed : Nat → Prop) (c c' : Variables) : Prop where
  opened : ∀ o ∈ c'.openCells,
    o ∈ c.openCells ∨ ¬c.cells.has o.cell ∧ allowed o.slot ∧ c'.cells.get o.cell = .onStack o.slot
  kept : ∀ o ∈ c.openCells, o ∈ c'.openCells
  old : ∀ r, c.cells.has r → c'.cells.has r ∧ c'.cells.get r = c.cells.get r
  new : ∀ r, c'.cells.has r → ¬c.cells.has r → ∃ s, c'.cells.get r = .onStack s ∧ ⟨s, r⟩ ∈ c'.openCells

/-- Nothing is captured. -/
theorem Captures.refl (allowed : Nat → Prop) (c : Variables) : Captures allowed c c :=
  ⟨fun _ ho => .inl ho, fun _ ho => ho, fun _ h => ⟨h, rfl⟩, fun _ h h' => absurd h h'⟩

/-- New cells stand on slots that no cell stood on. -/
theorem Captures.sound (h : Captures allowed c c') (sound : c.Sound) : c'.Sound := by
  intro o ho
  rcases h.opened o ho with before | ⟨-, -, cell⟩
  · have cell := sound o before
    rw [(h.old o.cell (Pool.has_of_onStack cell)).2, cell]
  · exact cell

/-- Slots can be captured one after the other. -/
theorem Captures.trans (h : Captures allowed c c') (h' : Captures allowed c' c'') : Captures allowed c c'' := by
  refine ⟨fun o ho => ?_, fun o ho => h'.kept o (h.kept o ho), fun r known => ?_, fun r known new => ?_⟩
  · rcases h'.opened o ho with ho' | ⟨new, slot, cell⟩
    · rcases h.opened o ho' with before | ⟨new, slot, cell⟩
      · exact .inl before
      · refine .inr ⟨new, slot, ?_⟩
        rw [(h'.old o.cell (Pool.has_of_onStack cell)).2, cell]
    · exact .inr ⟨fun known => new (h.old o.cell known).1, slot, cell⟩
  · obtain ⟨known', same⟩ := h.old r known
    obtain ⟨known'', same'⟩ := h'.old r known'
    exact ⟨known'', same'.trans same⟩
  · by_cases known' : c'.cells.has r
    · obtain ⟨s, cell, opened⟩ := h.new r known' new
      exact ⟨s, (h'.old r known').2.trans cell, h'.kept _ opened⟩
    · exact h'.new r known known'

/-- One more cell. -/
theorem captures_alloc (c : Variables) (slot : allowed s) :
    Captures allowed c
      { openCells := ⟨s, (c.cells.alloc (.onStack s)).1⟩ :: c.openCells
        cells := (c.cells.alloc (.onStack s)).2 } := by
  have fresh : ¬c.cells.has (c.cells.alloc (.onStack s)).1 := Nat.lt_irrefl _
  have self := c.cells.get_alloc_self (.onStack s)
  refine ⟨fun o ho => ?_, fun o ho => .tail _ ho, fun r known => ⟨?_, c.cells.get_alloc _ r known⟩,
    fun r known new => ?_⟩
  · rcases List.mem_cons.1 ho with rfl | before
    · exact .inr ⟨fresh, slot, self⟩
    · exact .inl before
  · show r.index < (c.cells.items.push _).size
    rw [Array.size_push]
    exact Nat.lt_succ_of_lt known
  · have known : r.index < (c.cells.items.push _).size := known
    have new : ¬r.index < c.cells.items.size := new
    rw [Array.size_push] at known
    have last : r = (c.cells.alloc (.onStack s)).1 := congrArg Ref.mk (show r.index = c.cells.items.size by omega)
    rw [last]
    exact ⟨s, self, .head _⟩

/-! ## Turns -/

/-- What a move does to captured variables. A move that assigns to a cell with its own value says so. -/
inductive Turn (values : Array Value) (allowed : Nat → Prop) :
    Option (Ref .cell × Value) → Variables → Variables → Prop where
  | closes {c c' : Variables} (h : Closes values c c') : Turn values allowed none c c'
  | captures {c c' : Variables} (h : Captures allowed c c') : Turn values allowed none c c'
  | assigns {c : Variables} {r : Ref .cell} {u : Value} (v : Value) (closed : c.cells.get r = .closed u) :
      Turn values allowed (some (r, v)) c { c with cells := c.cells.set r (.closed v) }

namespace Turn

variable {w : Option (Ref .cell × Value)}

/-- What leaves the captured variables alone is a turn. -/
theorem of_eq (same : c' = c) : Turn values allowed none c c' := by
  rw [same]
  exact .closes (.refl values c)

/-- No turn puts two cells on one slot. -/
theorem sound (turn : Turn values allowed w c c') (sound : c.Sound) : c'.Sound := by
  cases turn with
  | closes h => exact h.sound sound
  | captures h => exact h.sound sound
  | @assigns _ r u v closed =>
    intro o ho
    have cell := sound o ho
    have other : r ≠ o.cell := by
      rintro rfl
      cases closed.symm.trans cell
    exact (c.cells.get_set_of_ne _ other).trans cell

/-- No turn removes a cell. -/
theorem known (turn : Turn values allowed w c c') (known : c.cells.has r) : c'.cells.has r := by
  cases turn with
  | closes h => exact (h.has r).2 known
  | captures h => exact (h.old r known).1
  | assigns v closed => exact (c.cells.has_set ..).2 known

/-- A cell with its own value keeps it, unless it is assigned. -/
theorem closed {u : Value} (turn : Turn values allowed w c c') (sound : c.Sound) (known : c.cells.has r)
    (closed : c.cells.get r = .closed u) :
    (∃ v, w = some (r, v) ∧ c'.cells.get r = .closed v) ∨ (∀ v, w ≠ some (r, v)) ∧ c'.cells.get r = .closed u := by
  cases turn with
  | closes h =>
    rcases h.cell r with ⟨same, -⟩ | ⟨o, ho, rfl, -, -⟩
    · exact .inr ⟨nofun, same.trans closed⟩
    · cases (sound o ho).symm.trans closed
  | captures h => exact .inr ⟨nofun, (h.old r known).2.trans closed⟩
  | @assigns _ r' u' v closed' =>
    by_cases same : r' = r
    · subst same
      exact .inl ⟨v, rfl, (Pool.get_set _ _ _ _ known).trans (if_pos rfl)⟩
    · refine .inr ⟨fun v' eq => same ?_, (c.cells.get_set_of_ne _ same).trans closed⟩
      cases eq
      rfl

/-- A cell on a slot stays there until the slot is given up. -/
theorem onStack (turn : Turn values allowed w c c') (sound : c.Sound) (cell : c.cells.get r = .onStack s) :
    (c'.cells.get r = .onStack s ∧ (⟨s, r⟩ ∈ c.openCells → ⟨s, r⟩ ∈ c'.openCells)) ∨
      ⟨s, r⟩ ∈ c.openCells ∧ w = none ∧ c'.cells.get r = .closed (values.getD s .null) := by
  cases turn with
  | closes h =>
    rcases h.cell r with ⟨same, kept⟩ | ⟨o, ho, rfl, -, closed⟩
    · exact .inl ⟨same.trans cell, fun ho => kept _ ho rfl⟩
    · have slot : o.slot = s := Cell.onStack.inj ((sound o ho).symm.trans cell)
      subst slot
      exact .inr ⟨ho, rfl, closed⟩
  | captures h => exact .inl ⟨(h.old r (Pool.has_of_onStack cell)).2.trans cell, h.kept _⟩
  | @assigns _ r' u v closed =>
    have other : r' ≠ r := by
      rintro rfl
      cases closed.symm.trans cell
    exact .inl ⟨(c.cells.get_set_of_ne _ other).trans cell, fun ho => ho⟩

/-- A new cell is on a slot. -/
theorem new (turn : Turn values allowed w c c') (known : c'.cells.has r) (new : ¬c.cells.has r) :
    ∃ s, c'.cells.get r = .onStack s ∧ ⟨s, r⟩ ∈ c'.openCells := by
  cases turn with
  | closes h => exact absurd ((h.has r).1 known) new
  | captures h => exact h.new r known new
  | assigns v closed => exact absurd ((c.cells.has_set ..).1 known) new

/-- A cell that is on a slot after a turn was so before, or is new on an allowed slot. -/
theorem opened (turn : Turn values allowed w c c') {o : OpenCell} (ho : o ∈ c'.openCells) :
    o ∈ c.openCells ∨ ¬c.cells.has o.cell ∧ allowed o.slot := by
  cases turn with
  | closes h => exact .inl (h.left o ho)
  | captures h => exact (h.opened o ho).imp_right fun ⟨new, slot, _⟩ => ⟨new, slot⟩
  | assigns v closed => exact .inl ho

end Turn

end Variables

namespace Machine

open Variables

/-- The slots of call `f` that an instruction captures. -/
def capturedSlots (m : Machine) (f : Frame) (i : Instruction) : List Nat :=
  if i.op = .closure then
    match (m.protoOf f).chunk.constants[i.a.toNat]? with
    | some (.function p) => (p.captures.filter Capture.isLocal).map fun c => f.base + c.index
    | _ => []
  else []

/-- The cell with its own value that an instruction of call `f` assigns to, with the new value. -/
def assignment (m : Machine) (f : Frame) (i : Instruction) : Option (Ref .cell × Value) :=
  if i.op = .setUpvalue then
    match m.heap.cells.get (m.ownCell f i.a.toNat) with
    | .onStack _ => none
    | .closed _ => some (m.ownCell f i.a.toNat, m.slot (m.stack.size - 1 - 0))
  else none

/-- The values on the stack when an instruction gives slots up. A return or throw has taken its
operand by then. -/
def givenUp (m : Machine) (i : Instruction) : Array Value :=
  if i.op = .ret ∨ i.op = .throwTop then m.stack.pop else m.stack

/-- The value of a captured variable. -/
def valueOf (m : Machine) (r : Ref .cell) : Value :=
  match m.heap.cells.get r with
  | .onStack s => m.slot s
  | .closed v => v

/-- A captured variable has the value of its cell, or of the slot that the cell stands on. -/
theorem run_readCell (m : Machine) (r : Ref .cell) : (Exec.readCell r).run m = .ok (m.valueOf r) m := by
  unfold Exec.readCell valueOf
  rw [Exec.run_bind_of_ok (Exec.run_get m)]
  cases m.heap.cells.get r <;> rfl

end Machine

namespace Exec

open Machine Variables

variable {α β : Type} {n : Nat} {m : Machine} {f : Frame} {rest : List Frame}

/-- Computations that leave captured variables alone. -/
def Sparing (x : Exec α) (m : Machine) : Prop := (x.after m).captured = m.captured

theorem Plain.sparing {b : Bool} {x : Exec α} (h : Plain b n x m) : Sparing x m := h.keeps.captured

theorem sparing_pure (a : α) : Sparing (pure a) m := rfl

/-- One after the other, two computations that spare captured variables spare them. -/
theorem Sparing.bind {x : Exec α} {g : α → Exec β} (first : Sparing x m)
    (next : ∀ v m', x.run m = .ok v m' → Sparing (g v) m') : Sparing (x >>= g) m := by
  unfold Sparing at *
  cases hx : x.run m with
  | ok v m' =>
    rw [after_of_ok hx] at first
    rw [after_bind hx, next v m' hx, first]
  | error e m' =>
    rw [after_of_error hx] at first
    rw [after_of_error (run_bind_of_error hx), first]

theorem Sparing.andNext {x : Exec Unit} (h : Sparing x m) : Sparing (andNext x) m :=
  h.bind fun _ _ _ => sparing_pure _

theorem sparing_moveOn (g : Frame → Frame) : Sparing (modifyFrame g) m := by
  obtain ⟨w, stack, frames⟩ := m
  cases frames with
  | nil => rfl
  | cons top rest => rfl

theorem sparing_jumpIf (c : Bool) (k : Nat) : Sparing (jumpIf c k) m := by
  refine Sparing.andNext ?_
  split
  · exact sparing_moveOn _
  · exact sparing_pure _

theorem sparing_get {body : Machine → Exec α} (h : Sparing (body m) m) : Sparing (get >>= body) m := h

theorem sparing_fetch : Sparing fetch m := by
  refine (plain_frame (b := true) (n := 0)).sparing.bind fun f m₁ _ => sparing_get ?_
  split
  · exact (sparing_moveOn _).bind fun _ _ _ => sparing_pure _
  · exact (plain_push (b := true) (n := 0) _).sparing.bind fun _ _ _ => sparing_pure _

theorem sparing_openIteration (v : Value) : Sparing (openIteration v) m := by
  unfold openIteration
  refine sparing_get ?_
  split <;> rfl

theorem sparing_forIter (x y : UInt16) : Sparing (execute ⟨.forIter, x, y⟩) m := by
  have run := run_nextItem m
  refine Sparing.bind ?_ fun item _ _ => ?_
  · cases iterations : m.iterations with
    | nil =>
      simp only [iterations] at run
      exact congrArg captured (after_of_ok run)
    | cons it its =>
      simp only [iterations] at run
      split at run <;> exact (congrArg captured (after_of_ok run)).trans rfl
  · cases item with
    | some v => exact (plain_pushed (b := true) (n := 0) v).sparing
    | none => exact Sparing.andNext (sparing_moveOn _)

theorem sparing_of_calling {b : Bool} {base : Nat} {v : α} {x : Exec α} (h : Calling b n base v x m) : Sparing x m := by
  rcases h.cases with ⟨keeps, -⟩ | ⟨m', g, keeps, run, -, -⟩
  · exact keeps.captured
  · rw [Sparing, after_of_ok run]
    exact keeps.captured

/-- Instructions apart from five leave captured variables alone. -/
theorem sparing_execute {i : Instruction} (setUpvalue : i.op ≠ .setUpvalue) (closeUpvalue : i.op ≠ .closeUpvalue)
    (closure : i.op ≠ .closure) (ret : i.op ≠ .ret) (throwTop : i.op ≠ .throwTop) : Sparing (execute i) m := by
  by_cases plain : i.isPlain = true
  · exact (plain_execute (b := true) plain).sparing
  obtain ⟨op, x, y⟩ := i
  cases op with
  | setLocal => rfl
  | jump | loop => exact Sparing.andNext (sparing_moveOn _)
  | jumpIfFalse => exact (plain_pop (b := true)).sparing.bind fun _ _ _ => sparing_get (sparing_jumpIf _ _)
  | jumpIfFalseNoPop | jumpIfTrueNoPop =>
    exact sparing_get ((plain_peek (b := true) (n := 0) 0).sparing.bind fun _ _ _ => sparing_jumpIf _ _)
  | nullishJump => exact (plain_peek (b := true) (n := 0) 0).sparing.bind fun _ _ _ => sparing_jumpIf _ _
  | call =>
    refine (sparing_of_calling (calling_call (b := true) x.toNat)).bind fun r _ _ => ?_
    cases r <;> exact sparing_pure _
  | new => exact Sparing.andNext (sparing_of_calling (calling_new (b := true) x.toNat))
  | tryBegin => rfl
  | tryEnd => rfl
  | getIter => exact ((plain_pop (b := true)).sparing.bind fun v _ _ => sparing_openIteration v).andNext
  | forIter => exact sparing_forIter x y
  | setUpvalue => exact absurd rfl setUpvalue
  | closeUpvalue => exact absurd rfl closeUpvalue
  | closure => exact absurd rfl closure
  | ret => exact absurd rfl ret
  | throwTop => exact absurd rfl throwTop
  | _ => exact absurd rfl plain

/-- Capturing a slot makes a cell unless there is one. -/
theorem captures_captureSlot {allowed : Nat → Prop} {s : Nat} (slot : allowed s) :
    Captures allowed m.captured ((captureSlot s).after m).captured := by
  cases found : m.openCells.find? fun o => o.slot = s with
  | some o =>
    have run : (captureSlot s).run m = .ok o.cell m := by
      unfold captureSlot
      rw [run_bind_of_ok (run_get m), found]
      rfl
    rw [after_of_ok run]
    exact .refl _ _
  | none =>
    have same : ((captureSlot s).after m).captured =
        { openCells := ⟨s, (m.heap.cells.alloc (.onStack s)).1⟩ :: m.openCells
          cells := (m.heap.cells.alloc (.onStack s)).2 } := by
      unfold captureSlot
      rw [after, run_bind_of_ok (run_get m), found]
      rfl
    rw [same]
    exact captures_alloc m.captured slot

/-- Captures of two computations, one after the other. -/
theorem captures_bind {allowed : Nat → Prop} {x : Exec α} {g : α → Exec β}
    (first : Captures allowed m.captured (x.after m).captured)
    (next : ∀ v m', Captures allowed m'.captured ((g v).after m').captured) :
    Captures allowed m.captured ((x >>= g).after m).captured := by
  cases run : x.run m with
  | ok v m' =>
    rw [after_of_ok run] at first
    rw [after_bind run]
    exact first.trans (next v m')
  | error e m' =>
    rw [after_of_error run] at first
    rw [after_of_error (run_bind_of_error run)]
    exact first

theorem Sparing.captures {allowed : Nat → Prop} {x : Exec α} (h : Sparing x m) :
    Captures allowed m.captured (x.after m).captured := by
  rw [h]
  exact .refl _ _

/-- The slots that a closure names are captured, one after the other. -/
theorem captures_captureAll {allowed : Nat → Prop} (base : Nat) (cs : List Capture) (m : Machine)
    (slots : ∀ c ∈ cs, c.isLocal = true → allowed (base + c.index)) :
    Captures allowed m.captured ((captureAll base cs).after m).captured := by
  induction cs generalizing m with
  | nil => exact .refl _ _
  | cons c rest ih =>
    have others : ∀ (r : Ref .cell) (m' : Machine),
        Captures allowed m'.captured ((do return r :: (← captureAll base rest) : Exec _).after m').captured :=
      fun r m' => captures_bind (ih m' fun c hc => slots c (.tail _ hc)) fun _ _ => .refl _ _
    unfold captureAll
    simp only
    split
    next isLocal => exact captures_bind (captures_captureSlot (slots c (.head _) isLocal)) others
    next => exact captures_bind (plain_ownCell (b := true) (n := 0) c.index).sparing.captures others

/-- A constant comes from the code of the innermost call. -/
theorem run_constant (frames : m.frames = f :: rest) (index : Nat) :
    (constant index).run m =
      match (m.protoOf f).chunk.constants[index]? with
      | some k => .ok k m
      | none => .error .missingConstant m := by
  have run : proto.run m = .ok (m.protoOf (m.frames.headD default)) m := rfl
  rw [frames, List.headD_cons] at run
  unfold constant
  rw [run_bind_of_ok run]
  cases (m.protoOf f).chunk.constants[index]? <;> rfl

/-- A new function captures slots that the instruction names. -/
theorem captures_closure (frames : m.frames = f :: rest) (x y : UInt16) :
    Captures (· ∈ m.capturedSlots f ⟨.closure, x, y⟩) m.captured
      ((execute ⟨.closure, x, y⟩).after m).captured := by
  refine captures_bind ?_ fun v _ => (plain_pushed (b := true) (n := 0) v).sparing.captures
  have run := run_constant frames x.toNat
  unfold makeClosure
  cases found : (m.protoOf f).chunk.constants[x.toNat]? with
  | none =>
    simp only [found] at run
    rw [after_of_error (run_bind_of_error run)]
    exact .refl _ _
  | some k =>
    simp only [found] at run
    rw [after_bind run]
    cases k with
    | function p =>
      have slots : ∀ c ∈ p.captures, c.isLocal = true →
          f.base + c.index ∈ m.capturedSlots f ⟨.closure, x, y⟩ := by
        intro c hc isLocal
        rw [capturedSlots, if_pos rfl, found]
        exact List.mem_map.2 ⟨c, List.mem_filter.2 ⟨hc, isLocal⟩, rfl⟩
      have innermost : frame.run m = .ok f m := by
        have run : frame.run m = .ok (m.frames.headD default) m := rfl
        rw [frames] at run
        exact run
      simp only
      rw [after_bind innermost]
      refine captures_bind (captures_captureAll f.base p.captures m slots) fun cells m' => ?_
      exact captures_bind (Captures.refl _ _) fun _ _ => .refl _ _
    | _ => exact .refl _ _

theorem assignment_of_ne {i : Instruction} (h : i.op ≠ .setUpvalue) : m.assignment f i = none := if_neg h

theorem givenUp_of_ne {i : Instruction} (ret : i.op ≠ .ret) (throwTop : i.op ≠ .throwTop) :
    m.givenUp i = m.stack := if_neg (by rintro (h | h) <;> contradiction)

/-- A return gives up the slots of its call. -/
theorem captured_ret (frames : m.frames = f :: rest) :
    (returnFrom.after m).captured = m.captured.close m.stack.pop f.base := by
  obtain ⟨m', -, captured, run⟩ := run_returnFrom frames
  split at run
  · rw [after_of_ok run, captured]
  · rw [after_of_ok (show returnFrom.run m = .ok .next { m' with stack := m'.stack.push (m.result f) } from run)]
    exact captured

/-- What an instruction can do to captured variables. -/
theorem turn_execute (i : Instruction) (frames : m.frames = f :: rest) (sound : m.captured.Sound) :
    Turn (m.givenUp i) (· ∈ m.capturedSlots f i) (m.assignment f i) m.captured ((execute i).after m).captured := by
  obtain ⟨op, x, y⟩ := i
  by_cases setUpvalue : op = .setUpvalue
  · subst setUpvalue
    have run := run_setUpvalue frames x y
    rw [assignment, if_pos rfl]
    cases target : m.heap.cells.get (m.ownCell f x.toNat) with
    | onStack slot =>
      simp only [target] at run ⊢
      rw [after_of_ok run]
      exact .of_eq rfl
    | closed v =>
      simp only [target] at run ⊢
      rw [after_of_ok run]
      exact .assigns (c := m.captured) _ target
  rw [assignment_of_ne (i := ⟨op, x, y⟩) setUpvalue]
  by_cases closure : op = .closure
  · subst closure
    exact .captures (captures_closure frames x y)
  by_cases ret : op = .ret
  · subst ret
    rw [show (execute ⟨.ret, x, y⟩).after m = returnFrom.after m from rfl, captured_ret frames, givenUp,
      if_pos (.inl rfl)]
    exact .closes (closes_close sound _ _)
  by_cases throwTop : op = .throwTop
  · subst throwTop
    rw [givenUp, if_pos (.inr rfl)]
    rcases throwTop_cases m with ⟨h, hs, m', -, -, run, -, captured⟩ | ⟨e, m', run, keeps⟩
    · rw [show (execute ⟨.throwTop, x, y⟩).after m = m' from after_of_ok run, captured]
      exact .closes (closes_closeAll sound _ _)
    · rw [show (execute ⟨.throwTop, x, y⟩).after m = m' from after_of_error run, keeps.captured]
      exact .closes (.refl _ _)
  rw [givenUp_of_ne (i := ⟨op, x, y⟩) ret throwTop]
  by_cases closeUpvalue : op = .closeUpvalue
  · subst closeUpvalue
    have same : ((execute ⟨.closeUpvalue, x, y⟩).after m).captured = m.captured.close m.stack (m.stack.size - 1) :=
      captured_closeCells m _
    rw [same]
    exact .closes (closes_close sound _ _)
  · exact .of_eq (sparing_execute setUpvalue closeUpvalue closure ret throwTop)

end Exec

end ScriptVm
