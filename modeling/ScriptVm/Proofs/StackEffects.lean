import ScriptVm.Proofs.PlainInstructions
import ScriptVm.Proofs.Unwinding

/-!
# What instructions do to the stacks

A machine works with four stacks: values, calls, protected regions and iterations. `Effect` lists
what one instruction can do to them, and `effect_execute` says that there is nothing else.
-/

set_option autoImplicit false

namespace ScriptVm

/-- The stacks of a machine, and how many of its calls belong to enclosing runs. -/
structure Stacks where
  values : Array Value
  frames : List Frame
  handlers : List Handler
  iterations : List Iteration
  runBase : Nat

/-- The stacks of a machine. -/
def Machine.stacked (m : Machine) : Stacks := ⟨m.stack, m.frames, m.handlers, m.iterations, m.runBase⟩

/-- The same calls, with the innermost one at any instruction. -/
inductive SameCalls : List Frame → List Frame → Prop where
  | nil : SameCalls [] []
  | cons (f : Frame) (ip : Nat) (rest : List Frame) : SameCalls (f :: rest) ({ f with ip } :: rest)

namespace SameCalls

/-- The same calls, nothing moved. -/
theorem refl (fs : List Frame) : SameCalls fs fs := by
  cases fs with
  | nil => exact .nil
  | cons f rest => exact .cons f f.ip rest

/-- Going on twice in the innermost call. -/
theorem trans {fs gs hs : List Frame} (h : SameCalls fs gs) (h' : SameCalls gs hs) :
    SameCalls fs hs := by
  cases h with
  | nil => exact h'
  | cons f ip rest =>
    cases h' with
    | cons _ ip' _ => exact .cons f ip' rest

/-- There are as many calls as before. -/
theorem length_eq {fs gs : List Frame} (h : SameCalls fs gs) : gs.length = fs.length := by
  cases h <;> rfl

end SameCalls

namespace Stacks

/-- What is left of `s` in `s'` when the innermost call has gone on and at most `n` values have been
taken off the stack. -/
structure Stays (n : Nat) (s s' : Stacks) : Prop where
  frames : SameCalls s.frames s'.frames
  handlers : s'.handlers = s.handlers
  iterations : s'.iterations = s.iterations
  runBase : s'.runBase = s.runBase
  size : s.values.size ≤ s'.values.size + n
  values : ∀ i, i + n < s.values.size → s'.values[i]? = s.values[i]?

/-- Nothing has happened to the stacks. -/
theorem Stays.refl (n : Nat) (s : Stacks) : Stays n s s :=
  ⟨.refl _, rfl, rfl, rfl, Nat.le_add_right _ _, fun _ _ => rfl⟩

/-- The operands that two steps use add up. -/
theorem Stays.trans {n k t : Nat} {s₀ s₁ s₂ : Stacks} (h : Stays n s₀ s₁) (h' : Stays k s₁ s₂)
    (le : n + k ≤ t) : Stays t s₀ s₂ where
  frames := h.frames.trans h'.frames
  handlers := h'.handlers.trans h.handlers
  iterations := h'.iterations.trans h.iterations
  runBase := h'.runBase.trans h.runBase
  size := by
    have := h.size
    have := h'.size
    omega
  values i hi := by
    have := h.size
    rw [h'.values i (by omega), h.values i (by omega)]

/-- Some operands may be left unused. -/
theorem Stays.mono {n k : Nat} {s s' : Stacks} (h : Stays n s s') (le : n ≤ k) : Stays k s s' :=
  h.trans (.refl 0 s') le

/-- The stacks with another value on top. -/
def push (s : Stacks) (v : Value) : Stacks := { s with values := s.values.push v }

/-- The stacks with another value in a slot. -/
def assign (s : Stacks) (slot : Nat) (v : Value) : Stacks :=
  { s with values := s.values.setIfInBounds slot v }

/-- The stacks when call `f` has ended and the calls `rest` are left. -/
def leave (s : Stacks) (f : Frame) (rest : List Frame) : Stacks :=
  { s with
    values := Machine.resized s.values.pop f.base
    frames := rest
    handlers := s.handlers.dropWhile fun h => rest.length + 1 ≤ h.frameDepth
    iterations := Machine.truncated s.iterations f.iterBase }

/-- The calls that a region belongs to, about to go on where it catches. -/
def catching (h : Handler) (fs : List Frame) : List Frame :=
  match Machine.truncated fs h.frameDepth with
  | [] => []
  | f :: rest => { f with ip := h.catchIp } :: rest

/-- As many calls are left as the region was opened with, or all if there are fewer. -/
theorem length_catching (r : Handler) (fs : List Frame) :
    (catching r fs).length = min fs.length r.frameDepth := by
  rw [← Machine.length_truncated]
  unfold catching
  split
  next none => rw [none]
  next f rest some => rw [some, List.length_cons, List.length_cons]

/-- The stacks when the value on top has been caught in region `h`, with the regions `rest` around
it. -/
def caught (s : Stacks) (h : Handler) (rest : List Handler) (v : Value) : Stacks :=
  { s with
    values := (Machine.resized s.values.pop h.stackDepth).push v
    frames := catching h s.frames
    handlers := rest
    iterations := Machine.truncated s.iterations h.iterDepth }

end Stacks

/-- What keeps the machine but for operands leaves its stacks in place. -/
theorem Machine.Keeps.stays {n : Nat} {m m' : Machine} (h : m.Keeps n m') :
    Stacks.Stays n m.stacked m'.stacked :=
  ⟨by rw [stacked, stacked, h.frames]; exact .refl _, h.handlers, h.iterations, h.runBase, h.size, h.slots⟩

theorem Machine.Keeps.captured {n : Nat} {m m' : Machine} (h : m.Keeps n m') : m'.captured = m.captured := by
  have cells : m'.heap.cells = m.heap.cells := h.world.cells
  rw [Machine.captured, Machine.captured, h.openCells, cells]

namespace Machine

/-- The value on top of the stack. -/
def top (m : Machine) : Value := m.stack.back?.getD .null

/-- What a call of `f` gives when it ends. -/
def result (m : Machine) (f : Frame) : Value :=
  if f.isConstructor then m.stack.pop.getD f.base .null else m.top

/-- The cell of a captured variable of call `f`. -/
def ownCell (m : Machine) (f : Frame) (index : Nat) : Ref .cell :=
  (m.heap.closures.get f.closure).cells.getD index ⟨m.heap.cells.size⟩

/-- The slot that an instruction of call `f` writes through a captured variable, with the value. -/
def cellWrite (m : Machine) (f : Frame) (i : Instruction) : Option (Nat × Value) :=
  if i.op = .setUpvalue then
    match m.heap.cells.get (m.ownCell f i.a.toNat) with
    | .onStack slot => some (slot, m.slot (m.stack.size - 1 - 0))
    | .closed _ => none
  else none

end Machine

namespace Exec

open Machine

/-- The result or fault of a computation. -/
def outcome {α : Type} (x : Exec α) (m : Machine) : Except Fault α :=
  match x.run m with
  | .ok v _ => .ok v
  | .error f _ => .error f

/-- What instruction `i` of call `f`, with the calls `rest` around it, can come to and do to the
stacks. -/
inductive Effect (i : Instruction) (m : Machine) (f : Frame) (rest : List Frame) :
    Except Fault Progress → Stacks → Prop where
  | stays {o : Except Fault Progress} {s : Stacks} (runs : ∀ v, o ≠ .ok (.returned v))
      (silent : m.cellWrite f i = none) (h : m.stacked.Stays i.operands s) : Effect i m f rest o s
  | assignsLocal (op : i.op = .setLocal) (v : Value) :
      Effect i m f rest (.ok .next) (m.stacked.assign (f.base + i.a.toNat) v)
  | assignsCell {slot : Nat} {v : Value} (write : m.cellWrite f i = some (slot, v)) :
      Effect i m f rest (.ok .next) (m.stacked.assign slot v)
  | enters {s : Stacks} {g : Frame} (op : i.op = .call ∨ i.op = .new) (h : m.stacked.Stays i.operands s)
      (frames : s.frames = m.frames) (base : g.base = m.stack.size - i.operands)
      (iterBase : g.iterBase = m.iterations.length) :
      Effect i m f rest (.ok .next) { s with frames := g :: s.frames }
  | ends (op : i.op = .ret) (last : rest.length ≤ m.runBase) :
      Effect i m f rest (.ok (.returned (m.result f))) (m.stacked.leave f rest)
  | goesBack (op : i.op = .ret) (more : m.runBase < rest.length) :
      Effect i m f rest (.ok .next) ((m.stacked.leave f rest).push (m.result f))
  | protects {h : Handler} (op : i.op = .tryBegin) (frameDepth : h.frameDepth = m.frames.length)
      (stackDepth : h.stackDepth = m.stack.size) (iterDepth : h.iterDepth = m.iterations.length) :
      Effect i m f rest (.ok .next) { m.stacked with handlers := h :: m.handlers }
  | releases (op : i.op = .tryEnd) :
      Effect i m f rest (.ok .next) { m.stacked with handlers := m.handlers.tail }
  | catches {h : Handler} {hs : List Handler} (op : i.op = .throwTop) (handlers : m.handlers = h :: hs)
      (reach : m.runBase < h.frameDepth) : Effect i m f rest (.ok .next) (m.stacked.caught h hs m.top)
  | iterates (op : i.op = .getIter) (it : Iteration) :
      Effect i m f rest (.ok .next)
        { m.stacked with values := m.stack.pop, iterations := it :: m.iterations }
  | advances {it : Iteration} {its : List Iteration} {s : Stacks} (op : i.op = .forIter)
      (current : m.iterations = it :: its) (h : ∃ head, s.iterations = head ++ its ∧ head.length ≤ 1)
      (stays : m.stacked.Stays 0 { s with iterations := m.iterations }) : Effect i m f rest (.ok .next) s

variable {α β : Type} {n : Nat} {m : Machine}

theorem outcome_of_ok {x : Exec α} {v : α} {m' : Machine} (run : x.run m = .ok v m') :
    x.outcome m = .ok v := by
  rw [outcome, run]

/-! ## Going on -/

/-- Computations that do not end the run. -/
def GoesOn (x : Exec Progress) : Prop := ∀ m v m', x.run m ≠ .ok (.returned v) m'

/-- Computations that go on with the next instruction if they do not fail. -/
def Proceeds (x : Exec Progress) : Prop := ∀ m p m', x.run m = .ok p m' → p = .next

/-- What comes first does not matter: the last computation decides whether the run goes on. -/
theorem Proceeds.bind {x : Exec α} {f : α → Exec Progress} (h : ∀ a, Proceeds (f a)) : Proceeds (x >>= f) := by
  intro m p m' run
  cases hx : x.run m with
  | ok a m₁ =>
    rw [run_bind_of_ok hx] at run
    exact h a m₁ p m' run
  | error e m₁ =>
    rw [run_bind_of_error hx] at run
    cases run

theorem proceeds_next : Proceeds (pure .next) := by
  intro m p m' run
  cases run
  rfl

theorem proceeds_pushed (v : Value) : Proceeds (pushed v) := .bind fun _ => proceeds_next

theorem proceeds_andNext (x : Exec Unit) : Proceeds (andNext x) := .bind fun _ => proceeds_next

theorem proceeds_fail (c : Cause) : Proceeds (fail c) := fun _ _ _ run => nomatch run

/-- Only a return ends the run, and only a call can enter the machine again. -/
theorem proceeds_execute {i : Instruction} (ret : i.op ≠ .ret) (call : i.op ≠ .call) : Proceeds (execute i) := by
  obtain ⟨op, x, y⟩ := i
  cases op with
  | ret => exact absurd rfl ret
  | call => exact absurd rfl call
  | pushNull | pushTrue | pushFalse => exact proceeds_pushed _
  | spread => exact proceeds_next
  | unknown => exact proceeds_fail _
  | setLocal | setGlobal | defineGlobal | setUpvalue | jump | loop | inherit | method | staticMethod | new
  | field | staticField | constField | staticConstField | tryBegin | tryEnd | throwTop | getIter
  | importModule => exact proceeds_andNext _
  | pop => exact .bind fun _ => proceeds_next
  | closeUpvalue => exact .bind fun _ => .bind fun _ => .bind fun _ => proceeds_next
  | dup | closure | hash | namedArg => exact .bind fun _ => proceeds_pushed _
  | constant | getLocal | getGlobal | getUpvalue | negate | array | buildString | getThis | not | newClass =>
    exact .bind fun _ => .bind fun _ => proceeds_pushed _
  | print => exact .bind fun _ => proceeds_pushed _
  | getSuper => exact .bind fun _ => .bind fun _ => .bind fun _ => proceeds_pushed _
  | getProperty | setIndex => exact .bind fun _ => .bind fun _ => .bind fun _ => .bind fun _ => proceeds_pushed _
  | setProperty =>
    exact .bind fun _ => .bind fun _ => .bind fun _ => .bind fun _ => .bind fun _ => proceeds_pushed _
  | add | subtract | multiply | divide | modulo | equal | notEqual | less | lessEqual | greater
  | greaterEqual | range | getIndex =>
    exact .bind fun _ => .bind fun _ => .bind fun _ => .bind fun _ => proceeds_next
  | jumpIfFalse | jumpIfFalseNoPop | jumpIfTrueNoPop => exact .bind fun _ => .bind fun _ => proceeds_andNext _
  | nullishJump => exact .bind fun _ => proceeds_andNext _
  | forIter =>
    refine .bind fun item => ?_
    cases item with
    | some v => exact proceeds_pushed v
    | none => exact proceeds_andNext _

theorem Proceeds.goesOn {x : Exec Progress} (h : Proceeds x) : GoesOn x := fun m _ m' run => nomatch h m _ m' run

theorem goesOn_andNext (x : Exec Unit) : GoesOn (andNext x) := (proceeds_andNext x).goesOn

theorem goesOn_callProgress (k : Nat) : GoesOn (callProgress k) := by
  intro m v m' run
  cases called : (call k).run m with
  | error e m₁ =>
    rw [callProgress, run_bind_of_error called] at run
    cases run
  | ok r m₁ =>
    rw [callProgress, run_bind_of_ok called] at run
    cases r <;> cases run

/-- Only a return ends the run. -/
theorem goesOn_execute {i : Instruction} (h : i.op ≠ .ret) : GoesOn (execute i) := by
  by_cases call : i.op = .call
  · rw [show execute i = callProgress i.a.toNat by rw [execute, call]]
    exact goesOn_callProgress _
  · exact (proceeds_execute h call).goesOn

theorem GoesOn.outcome_ne {x : Exec Progress} (h : GoesOn x) (m : Machine) (v : Value) :
    x.outcome m ≠ .ok (.returned v) := by
  unfold outcome
  cases run : x.run m with
  | ok p m' =>
    intro eq
    cases eq
    exact h m v m' run
  | error f m' => exact fun eq => nomatch eq

/-! ## Staying in the call -/

/-- Computations that leave the stacks in place, apart from `n` values and where the call goes on. -/
def Staying (n : Nat) (x : Exec α) (m : Machine) : Prop := m.stacked.Stays n (x.after m).stacked

theorem Plain.staying {b : Bool} {x : Exec α} (h : Plain b n x m) : Staying n x m := h.keeps.stays

/-- The second computation finds what the first has left, so their operands add up. -/
theorem Staying.bind {k t : Nat} {x : Exec α} {f : α → Exec β} (le : n + k ≤ t) (first : Staying n x m)
    (next : ∀ v m', x.run m = .ok v m' → Staying k (f v) m') : Staying t (x >>= f) m := by
  unfold Staying at *
  cases hx : x.run m with
  | ok v m' =>
    rw [after_of_ok hx] at first
    rw [after_bind hx]
    exact first.trans (next v m' hx) le
  | error e m' =>
    rw [after_of_error hx] at first
    rw [after_of_error (run_bind_of_error hx)]
    exact first.mono (by omega)

theorem Staying.andThen {x : Exec α} {f : α → Exec β} (first : Staying 0 x m)
    (next : ∀ v m', x.run m = .ok v m' → Staying n (f v) m') : Staying n (x >>= f) m :=
  first.bind (Nat.le_of_eq (Nat.zero_add n)) next

theorem Staying.before {x : Exec α} {f : α → Exec β} (first : Staying n x m)
    (next : ∀ v m', x.run m = .ok v m' → Staying 0 (f v) m') : Staying n (x >>= f) m :=
  first.bind (Nat.le_refl n) next

theorem staying_of_same {x : Exec α} (h : (x.after m).stacked = m.stacked) : Staying n x m := by
  rw [Staying, h]
  exact .refl _ _

theorem staying_pure (a : α) : Staying n (pure a) m := staying_of_same rfl

/-- Only the place where the innermost call goes on has changed. -/
theorem staying_moveOn (g : Nat → Nat) : Staying n (modifyFrame fun c => { c with ip := g c.ip }) m := by
  have after : (modifyFrame fun c => { c with ip := g c.ip }).after m =
      match m.frames with
      | [] => m
      | top :: rest => { m with frames := { top with ip := g top.ip } :: rest } := rfl
  unfold Staying
  rw [after]
  split
  · exact .refl _ _
  next top rest frames =>
    refine { Stacks.Stays.refl n m.stacked with frames := ?_ }
    rw [Machine.stacked, frames]
    exact .cons top _ rest

theorem staying_jump (k : Nat) : Staying n (jump k) m := staying_moveOn fun ip => ip + k

theorem staying_loop (k : Nat) : Staying n (loop k) m :=
  staying_moveOn fun ip => if k ≤ ip then ip - k else indexCount + ip - k

theorem Staying.andNext {x : Exec Unit} (h : Staying n x m) : Staying n (andNext x) m :=
  h.before fun _ _ _ => staying_pure _

theorem staying_jumpIf (c : Bool) (k : Nat) : Staying 0 (jumpIf c k) m := by
  refine Staying.andNext ?_
  split
  · exact staying_jump k
  · exact staying_pure _

theorem staying_get {body : Machine → Exec α} (h : Staying n (body m) m) : Staying n (get >>= body) m := h

/-- Fetching moves the innermost call on to the next instruction. -/
theorem staying_fetch : Staying 0 fetch m := by
  refine (plain_frame (b := true)).staying.andThen fun f m₁ _ => staying_get ?_
  split
  · exact (staying_moveOn fun ip => ip + 1).before fun _ _ _ => staying_pure _
  · exact (plain_push (b := true) _).staying.before fun _ _ _ => staying_pure _

/-- Behind the last instruction a null is put on the stack to return. -/
theorem stack_fetch {i : Instruction} {m' : Machine} (run : fetch.run m = .ok i m') (op : i.op ≠ .ret) :
    m'.stack = m.stack := by
  unfold fetch at run
  rw [run_bind_of_ok (show frame.run m = .ok (m.frames.headD default) m from rfl), run_bind_of_ok (run_get m)]
    at run
  split at run
  · cases run
    simp only
    split <;> rfl
  · cases run
    exact absurd rfl op

/-- Captured variables take over the values of slots, and the slots stay. -/
theorem stacked_closeCells (m : Machine) (k : Nat) : (m.closeCells k).stacked = m.stacked := by
  rw [closeCells_eq]
  rfl

/-- Ending calls closes their captured variables and drops nothing but the calls. -/
theorem stacked_endFrames (m : Machine) (depth : Nat) (fs : List Frame) :
    (m.endFrames depth fs).stacked = { m.stacked with frames := truncated fs depth } := by
  rw [endFrames_eq]
  rfl

/-- Unwinding cuts every stack back. -/
theorem stacked_unwindTo (m : Machine) (d : Depths) :
    (m.unwindTo d).stacked =
      { values := m.stack.shrink d.stack
        frames := truncated m.frames d.frames
        handlers := truncated m.handlers d.handlers
        iterations := truncated m.iterations d.iterations
        runBase := m.runBase } := by
  have ended := (stacked_closeCells (m.endFrames d.frames m.frames) d.stack).trans (stacked_endFrames _ _ _)
  exact congrArg (fun s : Stacks =>
    { s with
      values := s.values.shrink d.stack
      handlers := truncated s.handlers d.handlers
      iterations := truncated s.iterations d.iterations }) ended

theorem staying_captureSlot (slot : Nat) : Staying 0 (captureSlot slot) m := by
  refine staying_get ?_
  split
  · exact staying_pure _
  · refine Staying.andThen (staying_of_same rfl) fun r _ _ => ?_
    exact Staying.andThen (staying_of_same rfl) fun _ _ _ => staying_pure _

theorem staying_captureAll (base : Nat) (cs : List Capture) (m : Machine) :
    Staying 0 (captureAll base cs) m := by
  induction cs generalizing m with
  | nil => exact staying_pure _
  | cons c rest ih =>
    have others : ∀ (r : Ref .cell) (m' : Machine), Staying 0 (do return r :: (← captureAll base rest)) m' :=
      fun r m' => (ih m').before fun _ _ _ => staying_pure _
    unfold captureAll
    simp only
    split
    · exact (staying_captureSlot _).andThen fun r m' _ => others r m'
    · exact (plain_ownCell (b := true) _).staying.andThen fun r m' _ => others r m'

theorem staying_makeClosure (index : Nat) : Staying 0 (makeClosure index) m := by
  refine (plain_constant (b := true) index).staying.andThen fun k m' _ => ?_
  split
  · refine (plain_frame (b := true)).staying.andThen fun f _ _ => (staying_captureAll _ _ _).andThen fun _ _ _ => ?_
    exact Staying.andThen (staying_of_same rfl) fun _ _ _ => staying_pure _
  · exact (plain_fail (b := true) _).staying

/-! ## Instructions -/

/-- A frame is pushed if there is room, and a log line is written. -/
theorem run_pushFrame (f : Frame) (m : Machine) :
    (pushFrame f).run m =
      if m.config.maxFrames ≤ m.frames.length then (fail .stackOverflow : Exec Unit).run m
      else
        (do
          note .trace fun _ =>
            "enter " ++ (m.protoOf f).title ++ " depth=" ++ Text.ofNat (m.frames.length + 1)
          modify fun m => { m with frames := { f with iterBase := m.iterations.length } :: m.frames }
          : Exec Unit).run m := by
  unfold pushFrame
  rw [run_bind_of_ok (run_get m)]
  split <;> rfl

/-- A computation that may end in a call leaves the stacks in place, or it has made a frame. -/
theorem Calling.cases {b : Bool} {base : Nat} {v : α} {x : Exec α} (h : Calling b n base v x m) :
    (m.Keeps n (x.after m) ∧ (x.outcome m = .ok v → m.stack.size < (x.after m).stack.size + n)) ∨
      ∃ m' g, m.Keeps n m' ∧ x.run m = .ok v { m' with frames := g :: m'.frames } ∧ g.base = base ∧
        g.iterBase = m'.iterations.length := by
  induction h with
  | @plain n base α v x m h leaves =>
    refine .inl ⟨h.keeps, fun gives => ?_⟩
    unfold outcome at gives
    cases run : x.run m with
    | ok a m' =>
      rw [run] at gives
      cases gives
      rw [after_of_ok run]
      exact leaves m' run
    | error f m' =>
      rw [run] at gives
      cases gives
  | @chain n t base α β v x f m k le fits first next ih =>
    have keeps := first.keeps
    cases run : x.run m with
    | ok a m₁ =>
      rw [after_of_ok run] at keeps
      have fits := fits a m₁ run
      rcases ih a m₁ run with ⟨keeps', leaves⟩ | ⟨m', g, keeps', run', base, iterBase⟩
      · refine .inl ⟨?_, fun gives => ?_⟩
        · rw [after_bind run]
          exact keeps.trans le fits keeps'
        · rw [outcome, run_bind_of_ok run] at gives
          have := leaves gives
          rw [after_bind run]
          omega
      · refine .inr ⟨m', g, keeps.trans le fits keeps', ?_, base, iterBase⟩
        rw [run_bind_of_ok run, run']
    | error e m₁ =>
      rw [after_of_error run] at keeps
      have size := keeps.size
      refine .inl ⟨?_, fun gives => ?_⟩
      · rw [after_of_error (run_bind_of_error run)]
        exact keeps.trans (k := 0) le (by omega) (.refl 0 m₁)
      · rw [outcome, run_bind_of_error run] at gives
        cases gives
  | read blind next ih => exact ih
  | @push n base m f start slot =>
    have run := run_pushFrame f m
    split at run
    · refine .inl ⟨?_, fun gives => ?_⟩
      · rw [after_of_error run]
        exact .refl _ _
      · rw [outcome, run] at gives
        cases gives
    · exact .inr ⟨_, _, (plain_note (b := true) _ _).keeps, run, slot, rfl⟩
  | @last n base β v x f m gives first ih =>
    rcases ih with ⟨keeps, leaves⟩ | ⟨m', g, keeps, run, base, iterBase⟩
    · refine .inl ?_
      cases run : x.run m with
      | ok a m₁ =>
        rw [after_of_ok run] at keeps leaves
        rw [outcome_of_ok run] at leaves
        rw [after_bind run, gives]
        exact ⟨keeps, fun _ => leaves rfl⟩
      | error e m₁ =>
        rw [after_of_error run] at keeps
        refine ⟨?_, fun gives => ?_⟩
        · rw [after_of_error (run_bind_of_error run)]
          exact keeps
        · rw [outcome, run_bind_of_error run] at gives
          cases gives
    · refine .inr ⟨m', g, keeps, ?_, base, iterBase⟩
      rw [run_bind_of_ok run, gives]
      rfl

theorem run_pop (m : Machine) : pop.run m = .ok m.top { m with stack := m.stack.pop } := rfl

/-- A return ends the innermost call, and the run as well if the call was its first. -/
theorem run_returnFrom {f : Frame} {rest : List Frame} (frames : m.frames = f :: rest) :
    ∃ m', m'.stacked = m.stacked.leave f rest ∧ m'.captured = m.captured.close m.stack.pop f.base ∧
      returnFrom.run m =
        if rest.length ≤ m.runBase then .ok (.returned (m.result f)) m'
        else (pushed (m.result f)).run m' := by
  have closed := stacked_closeCells
    { m with
      stack := m.stack.pop
      handlers := m.handlers.dropWhile fun h => rest.length + 1 ≤ h.frameDepth
      frames := rest } f.base
  have gone := closeCells_eq
    { m with
      stack := m.stack.pop
      handlers := m.handlers.dropWhile fun h => rest.length + 1 ≤ h.frameDepth
      frames := rest } f.base
  generalize hc : Machine.closeCells
    { m with
      stack := m.stack.pop
      handlers := m.handlers.dropWhile fun h => rest.length + 1 ≤ h.frameDepth
      frames := rest } f.base = c at closed gone
  have stack : c.stack = m.stack.pop := congrArg Stacks.values closed
  refine ⟨{ c with stack := resized c.stack f.base, iterations := truncated c.iterations f.iterBase },
    ?_, congrArg captured gone, ?_⟩
  · have handlers : c.handlers = _ := congrArg Stacks.handlers closed
    have calls : c.frames = _ := congrArg Stacks.frames closed
    have iterations : c.iterations = _ := congrArg Stacks.iterations closed
    have runBase : c.runBase = _ := congrArg Stacks.runBase closed
    simp only [stacked, Stacks.leave, stack, handlers, calls, iterations, runBase]
  · have this : (if f.isConstructor = true then c.slot f.base else m.top) = m.result f := by
      rw [result, slot, stack]
    unfold returnFrom
    rw [run_bind_of_ok (run_pop m), run_bind_of_ok (run_get _)]
    simp only [frames]
    rw [← this, ← hc]
    split <;> rfl

/-- A return ends the call: it hands its result to the caller, or to the entry if the run ends with it. -/
theorem effect_ret {i : Instruction} (op : i.op = .ret) {f : Frame} {rest : List Frame}
    (frames : m.frames = f :: rest) : Effect i m f rest (returnFrom.outcome m) (returnFrom.after m).stacked := by
  obtain ⟨m', left, -, run⟩ := run_returnFrom frames
  split at run
  next last =>
    rw [outcome_of_ok run, after_of_ok run, left]
    exact .ends op last
  next more =>
    have gone : returnFrom.run m = .ok .next { m' with stack := m'.stack.push (m.result f) } := run
    have pushed : Machine.stacked { m' with stack := m'.stack.push (m.result f) } =
        (m.stacked.leave f rest).push (m.result f) := by
      rw [← left]
      rfl
    rw [outcome_of_ok gone, after_of_ok gone, pushed]
    exact .goesBack op (Nat.lt_of_not_le more)

/-- A region catches with its own depths, and the thrown value on top. -/
theorem stacked_enterCatch (m : Machine) (h : Handler) (rest : List Handler) (v : Value) :
    ({ m with stack := m.stack.pop, handlers := rest }.enterCatch h v).stacked = m.stacked.caught h rest v := by
  unfold enterCatch
  have ended := stacked_endFrames { m with stack := m.stack.pop, handlers := rest } h.frameDepth m.frames
  generalize Machine.endFrames h.frameDepth m.frames { m with stack := m.stack.pop, handlers := rest } = c at ended
  have closed := (stacked_closeCells c h.stackDepth).trans ended
  generalize c.closeCells h.stackDepth = d at closed
  exact congrArg
    (fun s : Stacks =>
      { s with
        values := (resized s.values h.stackDepth).push v
        frames := match s.frames with
          | [] => []
          | f :: rest => { f with ip := h.catchIp } :: rest
        iterations := truncated s.iterations h.iterDepth }) closed

theorem cellWrite_of_ne {i : Instruction} {f : Frame} (h : i.op ≠ .setUpvalue) : m.cellWrite f i = none :=
  if_neg h

/-- Most instructions leave the stacks in place. -/
theorem Effect.of_staying {i : Instruction} {f : Frame} {rest : List Frame} {x : Exec Progress}
    (h : Staying i.operands x m) (goesOn : GoesOn x) (silent : m.cellWrite f i = none) :
    Effect i m f rest (x.outcome m) (x.after m).stacked :=
  .stays (goesOn.outcome_ne m) silent h

/-- A throw reaches the innermost region of the run, or it fails. -/
theorem throwTop_cases (m : Machine) :
    (∃ h hs m', m.handlers = h :: hs ∧ m.runBase < h.frameDepth ∧
        (andNext (do throwValue (← pop))).run m = .ok .next m' ∧ m'.stacked = m.stacked.caught h hs m.top ∧
        m'.captured =
          m.captured.closeAll m.stack.pop (endingBases h.frameDepth m.frames ++ [h.stackDepth])) ∨
      ∃ e m', (andNext (do throwValue (← pop))).run m = .error e m' ∧ m.Keeps 1 m' := by
  cases reached : reachable? { m with stack := m.stack.pop } with
  | some reach =>
    obtain ⟨h, hs⟩ := reach
    have regions : m.handlers = h :: hs ∧ m.runBase < h.frameDepth := by
      unfold reachable? at reached
      split at reached
      next top others handlers =>
        split at reached
        next lt =>
          cases reached
          exact ⟨handlers, lt⟩
        next => cases reached
      next => cases reached
    have caught := stacked_enterCatch m h hs m.top
    have gone := captured_enterCatch { m with stack := m.stack.pop, handlers := hs } h m.top
    have run : (andNext (do throwValue (← pop))).run m =
        (do
          note .debug fun _ =>
            "unwound " ++ Text.ofNat (m.frames.length -
              (Machine.enterCatch { m with stack := m.stack.pop, handlers := hs } h m.top).frames.length)
              ++ " frame(s) to catch at ip " ++ Text.ofNat h.catchIp
          return .next : Exec Progress).run
          (Machine.enterCatch { m with stack := m.stack.pop, handlers := hs } h m.top) := by
      unfold andNext throwValue
      rw [EStateM.run_bind, run_bind_of_ok (run_pop m), run_bind_of_ok (run_get _)]
      simp only [reached]
      rfl
    generalize Machine.enterCatch { m with stack := m.stack.pop, handlers := hs } h m.top = c at caught gone run
    have noted := fun text => (plain_note (b := true) (n := 0) (m := c) .debug text).keeps.captured
    exact .inl ⟨h, hs, _, regions.1, regions.2, run, caught, (noted _).trans gone⟩
  | none =>
    have plain : Plain true 1 (do throwValue (← pop)) m := by
      refine .afterPop fun v m₁ run => .look ?_
      cases run
      rw [reached]
      exact (plain_note _ _).andThen fun _ _ _ => plain_fail _
    have keeps := plain.keeps
    have run : ∃ e, (do throwValue (← pop) : Exec Unit).run m = .error e ((do throwValue (← pop) : Exec Unit).after m) := by
      unfold throwValue
      rw [after, run_bind_of_ok (run_pop m), run_bind_of_ok (run_get _)]
      simp only [reached]
      exact ⟨_, rfl⟩
    obtain ⟨e, run⟩ := run
    exact .inr ⟨e, _, run_bind_of_error run, keeps⟩

/-- A throw is caught by the innermost region of the run, or fails. -/
theorem effect_throwTop {i : Instruction} (op : i.op = .throwTop) {f : Frame} {rest : List Frame} :
    Effect i m f rest ((andNext (do throwValue (← pop))).outcome m)
      ((andNext (do throwValue (← pop))).after m).stacked := by
  rcases throwTop_cases m with ⟨h, hs, m', handlers, reach, run, caught, -⟩ | ⟨e, m', run, keeps⟩
  · rw [outcome_of_ok run, after_of_ok run]
    exact caught ▸ .catches op handlers reach
  · refine .of_staying ?_ (goesOn_andNext _) (cellWrite_of_ne (by simp [op]))
    rw [show i.operands = 1 by simp only [Instruction.operands, op], Staying, after_of_error run]
    exact keeps.stays

/-- An iteration is opened over the popped value, if it has items. -/
theorem effect_getIter {i : Instruction} (op : i.op = .getIter) {f : Frame} {rest : List Frame} :
    Effect i m f rest ((andNext (do openIteration (← pop))).outcome m)
      ((andNext (do openIteration (← pop))).after m).stacked := by
  have opened : ∀ it, (openIteration m.top).run { m with stack := m.stack.pop } =
        .ok () { m with stack := m.stack.pop, iterations := it :: m.iterations } →
      Effect i m f rest ((andNext (do openIteration (← pop))).outcome m)
        ((andNext (do openIteration (← pop))).after m).stacked := by
    intro it run
    have run : (andNext (do openIteration (← pop))).run m =
        .ok .next { m with stack := m.stack.pop, iterations := it :: m.iterations } := by
      unfold andNext
      rw [EStateM.run_bind, run_bind_of_ok (run_pop m), run]
      rfl
    rw [outcome_of_ok run, after_of_ok run]
    exact .iterates op it
  have refused : ∀ e, (openIteration m.top).run { m with stack := m.stack.pop } =
        .error e { m with stack := m.stack.pop } →
      Effect i m f rest ((andNext (do openIteration (← pop))).outcome m)
        ((andNext (do openIteration (← pop))).after m).stacked := by
    intro e run
    refine .of_staying ?_ (goesOn_andNext _) (cellWrite_of_ne (by simp [op]))
    rw [show i.operands = 1 by simp only [Instruction.operands, op]]
    refine Staying.andNext ((plain_pop (b := true)).staying.before fun v m₁ popped => ?_)
    cases popped
    show Staying 0 (openIteration m.top) _
    rw [Staying, after_of_error run]
    exact .refl _ _
  unfold openIteration at opened refused
  rw [run_bind_of_ok (run_get _)] at opened refused
  cases top : m.top <;> rw [top] at opened refused <;>
    first | exact opened _ rfl | exact refused _ rfl

/-- What follows a step of the innermost iteration stays in the call. -/
theorem effect_advanced {i : Instruction} (op : i.op = .forIter) {f : Frame} {rest : List Frame} {it : Iteration}
    {its : List Iteration} (current : m.iterations = it :: its) (head : List Iteration) (short : head.length ≤ 1)
    {x : Exec Progress} (next : x.outcome { m with iterations := head ++ its } = .ok .next)
    (stays : Staying 0 x { m with iterations := head ++ its }) :
    Effect i m f rest (x.outcome { m with iterations := head ++ its })
      (x.after { m with iterations := head ++ its }).stacked := by
  rw [next]
  refine .advances op current ⟨head, stays.iterations, short⟩ ?_
  exact ⟨stays.frames, stays.handlers, rfl, stays.runBase, stays.size, stays.values⟩

/-- The innermost iteration gives its next item, or ends. -/
theorem run_nextItem (m : Machine) :
    nextItem.run m =
      match m.iterations with
      | [] => .ok none m
      | it :: rest =>
        match advance m.heap it with
        | some (v, it) => .ok (some v) { m with iterations := it :: rest }
        | none => .ok none { m with iterations := rest } := by
  have run : ∀ g : Machine → Option Value × Machine, (modifyGet g : Exec _).run m = .ok (g m).1 (g m).2 :=
    fun _ => rfl
  rw [nextItem, run]
  cases m.iterations with
  | nil => rfl
  | cons it rest =>
    simp only
    cases advance m.heap it <;> rfl

/-- The innermost iteration moves on, or ends and the instruction jumps. -/
theorem effect_forIter {i : Instruction} (op : i.op = .forIter) {f : Frame} {rest : List Frame} :
    Effect i m f rest ((execute i).outcome m) ((execute i).after m).stacked := by
  obtain ⟨op', x, y⟩ := i
  cases op
  cases current : m.iterations with
  | nil =>
    have run : nextItem.run m = .ok none m := by
      rw [run_nextItem, current]
    refine .of_staying ?_ (goesOn_execute nofun) (cellWrite_of_ne nofun)
    rw [Staying, show (execute ⟨.forIter, x, y⟩).after m = (andNext (jump x.toNat)).after m from after_bind run]
    exact (staying_jump _).andNext
  | cons it its =>
    cases next : advance m.heap it with
    | none =>
      have run : nextItem.run m = .ok none { m with iterations := its } := by
        rw [run_nextItem, current]
        simp only [next]
      have out : (execute ⟨.forIter, x, y⟩).outcome m = (andNext (jump x.toNat)).outcome { m with iterations := its } := by
        rw [outcome, show (execute ⟨.forIter, x, y⟩).run m = _ from run_bind_of_ok run]
        rfl
      rw [out, show (execute ⟨.forIter, x, y⟩).after m = _ from after_bind run]
      exact effect_advanced rfl current [] (Nat.zero_le 1) rfl (staying_jump _).andNext
    | some found =>
      obtain ⟨v, it'⟩ := found
      have run : nextItem.run m = .ok (some v) { m with iterations := it' :: its } := by
        rw [run_nextItem, current]
        simp only [next]
      have out : (execute ⟨.forIter, x, y⟩).outcome m = (pushed v).outcome { m with iterations := it' :: its } := by
        rw [outcome, show (execute ⟨.forIter, x, y⟩).run m = _ from run_bind_of_ok run]
        rfl
      rw [out, show (execute ⟨.forIter, x, y⟩).after m = _ from after_bind run]
      exact effect_advanced rfl current [it'] (Nat.le_refl 1) rfl (plain_pushed (b := true) v).staying

theorem run_ownCell {f : Frame} {rest : List Frame} (frames : m.frames = f :: rest) (index : Nat) :
    (Exec.ownCell index).run m = .ok (m.ownCell f index) m := by
  have run : (Exec.ownCell index).run m = .ok (m.ownCell (m.frames.headD default) index) m := rfl
  rw [frames] at run
  exact run

/-- An assignment to a captured variable writes its slot, or the value of its cell. -/
theorem run_setUpvalue {f : Frame} {rest : List Frame} (frames : m.frames = f :: rest) (x y : UInt16) :
    (execute ⟨.setUpvalue, x, y⟩).run m =
      match m.heap.cells.get (m.ownCell f x.toNat) with
      | .onStack slot =>
        .ok .next { m with stack := m.stack.setIfInBounds slot (m.slot (m.stack.size - 1 - 0)) }
      | .closed _ =>
        .ok .next
          (m.withVariables
            ⟨m.openCells, m.heap.cells.set (m.ownCell f x.toNat) (.closed (m.slot (m.stack.size - 1 - 0)))⟩) := by
  have written : (execute ⟨.setUpvalue, x, y⟩).run m =
      (andNext (writeCell (m.ownCell f x.toNat) (m.slot (m.stack.size - 1 - 0)))).run m := by
    show (andNext (do writeCell (← Exec.ownCell x.toNat) (← peek 0))).run m = _
    unfold andNext
    rw [EStateM.run_bind, run_bind_of_ok (run_ownCell frames _), run_bind_of_ok (run_peek 0 m), ← EStateM.run_bind]
  rw [written]
  unfold andNext writeCell
  rw [EStateM.run_bind, run_bind_of_ok (run_heap m)]
  cases m.heap.cells.get (m.ownCell f x.toNat) with
  | onStack slot => rfl
  | closed v => rfl

/-- The variable is still on the stack, and its slot is written, or its cell is. -/
theorem effect_setUpvalue {i : Instruction} (op : i.op = .setUpvalue) {f : Frame} {rest : List Frame}
    (frames : m.frames = f :: rest) : Effect i m f rest ((execute i).outcome m) ((execute i).after m).stacked := by
  obtain ⟨op', x, y⟩ := i
  cases op
  have run := run_setUpvalue frames x y
  cases target : m.heap.cells.get (m.ownCell f x.toNat) with
  | onStack slot =>
    simp only [target] at run
    rw [outcome_of_ok run, after_of_ok run]
    refine .assignsCell (i := ⟨.setUpvalue, x, y⟩) ?_
    rw [cellWrite, if_pos rfl, target]
  | closed v =>
    simp only [target] at run
    refine .of_staying ?_ (goesOn_execute nofun) ?_
    · rw [Staying, after_of_ok run]
      exact .refl _ _
    · rw [cellWrite, if_pos rfl, target]

/-- A call makes a frame above the callee, or puts the result in place of callee and arguments. -/
theorem effect_call {i : Instruction} (op : i.op = .call) {f : Frame} {rest : List Frame} :
    Effect i m f rest ((callProgress i.a.toNat).outcome m) ((callProgress i.a.toNat).after m).stacked := by
  have operands : i.operands = i.a.toNat + 1 := by simp only [Instruction.operands, op]
  rcases (calling_call (b := true) (m := m) i.a.toNat).cases with ⟨keeps, -⟩ | ⟨m', g, keeps, run, base, iterBase⟩
  · refine .of_staying ?_ (goesOn_callProgress _) (cellWrite_of_ne (by simp [op]))
    rw [operands]
    refine Staying.before keeps.stays fun r _ _ => ?_
    cases r with
    | none => exact staying_pure _
    | some r => exact staying_pure _
  · have run : (callProgress i.a.toNat).run m = .ok .next { m' with frames := g :: m'.frames } := by
      unfold callProgress
      rw [run_bind_of_ok run]
      rfl
    rw [outcome_of_ok run, after_of_ok run]
    refine .enters (s := m'.stacked) (.inl op) (operands ▸ keeps.stays) keeps.frames ?_ ?_
    · rw [base, operands, Nat.sub_sub]
    · rw [iterBase, keeps.iterations]

/-- A construction does the same with the new instance. -/
theorem effect_new {i : Instruction} (op : i.op = .new) {f : Frame} {rest : List Frame} :
    Effect i m f rest ((andNext (new i.a.toNat)).outcome m) ((andNext (new i.a.toNat)).after m).stacked := by
  have operands : i.operands = i.a.toNat + 1 := by simp only [Instruction.operands, op]
  rcases (calling_new (b := true) (m := m) i.a.toNat).cases with ⟨keeps, -⟩ | ⟨m', g, keeps, run, base, iterBase⟩
  · refine .of_staying ?_ (goesOn_andNext _) (cellWrite_of_ne (by simp [op]))
    rw [operands]
    exact Staying.andNext keeps.stays
  · have run : (andNext (new i.a.toNat)).run m = .ok .next { m' with frames := g :: m'.frames } := by
      unfold andNext
      rw [run_bind_of_ok run]
      rfl
    rw [outcome_of_ok run, after_of_ok run]
    refine .enters (s := m'.stacked) (.inr op) (operands ▸ keeps.stays) keeps.frames ?_ ?_
    · rw [base, operands, Nat.sub_sub]
    · rw [iterBase, keeps.iterations]

/-- What an instruction can do. Three instructions need a call to act for. -/
theorem effect_execute_of {i : Instruction} {f : Frame} {rest : List Frame}
    (frames : i.op = .setLocal ∨ i.op = .setUpvalue ∨ i.op = .ret → m.frames = f :: rest) :
    Effect i m f rest ((execute i).outcome m) ((execute i).after m).stacked := by
  by_cases plain : i.isPlain = true
  · refine .of_staying (plain_execute (b := true) plain).staying (goesOn_execute fun op => ?_)
      (cellWrite_of_ne fun op => ?_)
    · rw [Instruction.isPlain, op] at plain
      cases plain
    · rw [Instruction.isPlain, op] at plain
      cases plain
  obtain ⟨op, x, y⟩ := i
  cases op with
  | setLocal =>
    have base : (m.frames.headD default).base = f.base := by rw [frames (.inl rfl), List.headD_cons]
    have run : (execute ⟨.setLocal, x, y⟩).run m =
        .ok .next
          { m with
            stack := m.stack.setIfInBounds ((m.frames.headD default).base + x.toNat)
              (m.slot (m.stack.size - 1 - 0)) } := rfl
    rw [base] at run
    rw [outcome_of_ok run, after_of_ok run]
    exact .assignsLocal (i := ⟨.setLocal, x, y⟩) rfl _
  | setUpvalue => exact effect_setUpvalue rfl (frames (.inr (.inl rfl)))
  | closeUpvalue =>
    refine .of_staying ?_ (goesOn_execute nofun) (cellWrite_of_ne nofun)
    refine staying_get (Staying.andThen (staying_of_same (stacked_closeCells m _)) fun _ _ _ => ?_)
    exact (plain_pop (b := true)).staying.before fun _ _ _ => staying_pure _
  | jump => exact .of_staying (staying_jump _).andNext (goesOn_execute nofun) (cellWrite_of_ne nofun)
  | loop => exact .of_staying (staying_loop _).andNext (goesOn_execute nofun) (cellWrite_of_ne nofun)
  | jumpIfFalse =>
    refine .of_staying ?_ (goesOn_execute nofun) (cellWrite_of_ne nofun)
    exact (plain_pop (b := true)).staying.before fun _ _ _ => staying_get (staying_jumpIf _ _)
  | jumpIfFalseNoPop | jumpIfTrueNoPop =>
    refine .of_staying ?_ (goesOn_execute nofun) (cellWrite_of_ne nofun)
    exact staying_get ((plain_peek (b := true) 0).staying.before fun _ _ _ => staying_jumpIf _ _)
  | nullishJump =>
    refine .of_staying ?_ (goesOn_execute nofun) (cellWrite_of_ne nofun)
    exact (plain_peek (b := true) 0).staying.before fun _ _ _ => staying_jumpIf _ _
  | call => exact effect_call rfl
  | closure =>
    refine .of_staying ?_ (goesOn_execute nofun) (cellWrite_of_ne nofun)
    exact (staying_makeClosure _).before fun v _ _ => (plain_pushed (b := true) v).staying
  | ret => exact effect_ret rfl (frames (.inr (.inr rfl)))
  | new => exact effect_new rfl
  | tryBegin => exact .protects rfl rfl rfl rfl
  | tryEnd => exact .releases rfl
  | throwTop => exact effect_throwTop rfl
  | getIter => exact effect_getIter rfl
  | forIter => exact effect_forIter rfl
  | _ => exact absurd rfl plain

/-- There is nothing else that an instruction does to the stacks of a machine with a call. -/
theorem effect_execute (i : Instruction) {f : Frame} {rest : List Frame} (frames : m.frames = f :: rest) :
    Effect i m f rest ((execute i).outcome m) ((execute i).after m).stacked :=
  effect_execute_of fun _ => frames

section

variable {i : Instruction} {f : Frame} {rest : List Frame} {out : Except Fault Progress} {s : Stacks}

/-- An instruction that ends the run is a return of its first call. -/
theorem Effect.returned {v : Value} (effect : Effect i m f rest (.ok (.returned v)) s) :
    i.op = .ret ∧ s = m.stacked.leave f rest ∧ rest.length ≤ m.runBase := by
  cases effect with
  | stays runs => exact absurd rfl (runs v)
  | ends op last => exact ⟨op, rfl, last⟩

/-- No instruction changes where the run began. -/
theorem Effect.runBase (effect : Effect i m f rest out s) : s.runBase = m.runBase := by
  cases effect with
  | stays _ _ stays => exact stays.runBase
  | enters op stays same slot iterations => exact stays.runBase
  | advances op current head stays => exact stays.runBase
  | _ => rfl

/-- An instruction that does not end the run leaves it with a call. -/
theorem Effect.depth (effect : Effect i m f rest out s) (h : m.runBase < m.frames.length)
    (goesOn : ∀ v, out ≠ .ok (.returned v)) : m.runBase < s.frames.length := by
  cases effect with
  | stays _ _ stays => exact stays.frames.length_eq ▸ h
  | enters op stays same slot iterations =>
    show _ < (_ :: _).length
    rw [List.length_cons, same]
    omega
  | ends op last => exact absurd rfl (goesOn _)
  | goesBack op more => exact more
  | catches op handlers reached =>
    show _ < (Stacks.catching _ m.frames).length
    rw [Stacks.length_catching]
    exact Nat.lt_min.2 ⟨h, reached⟩
  | advances op current head stays => exact stays.frames.length_eq ▸ h
  | _ => exact h

/-- An instruction of the run ends no call of an enclosing run. -/
theorem Effect.runBase_le (effect : Effect i m f rest out s) (frames : m.frames = f :: rest)
    (h : m.runBase < m.frames.length) : m.runBase ≤ s.frames.length := by
  by_cases ended : ∃ v, out = .ok (.returned v)
  · obtain ⟨v, rfl⟩ := ended
    cases effect with
    | stays runs _ _ => exact absurd rfl (runs v)
    | ends op last =>
      rw [frames, List.length_cons] at h
      exact Nat.le_of_lt_succ h
  · exact Nat.le_of_lt (effect.depth h fun v eq => ended ⟨v, eq⟩)

end

end Exec

end ScriptVm
