import ScriptVm.Proofs.Iterations
import ScriptVm.Proofs.ProtectedRegions

/-!
# Patched jumps

A jump forward is emitted before its target is known, and pointed to the end of the chunk when the target is
reached. `Chunk.Continues` is what else a chunk can become, with the jump left alone.

The distance is an operand, so it is kept modulo `2 ^ 16`: `Chunk.landing` is where the jump goes then.
`Activity.patched_jumps_land` says that it is taken to this place by every machine that runs into it, and that this
is the end at which it was pointed as long as the distance fits the operand, and not otherwise.
-/

set_option autoImplicit false

namespace ScriptVm

open Machine Exec Stacks

/-! ## Chunks -/

namespace Chunk

variable {c d : Code} {i : Nat} {ins : Instruction}

/-- Where the instruction at `i` jumps to if it is pointed to the end of the chunk. -/
def landing (c : Code) (i : Nat) : Nat := i + 1 + (c.size - i - 1) % 65536

/-- What a chunk becomes when more instructions are emitted, constants are added, and operands of other instructions
than the one at `i` are set. -/
inductive Continues (i : Nat) (c : Code) : Code → Prop
  | here : Continues i c c
  | emit {d : Code} (before : Continues i c d) (ins : Instruction) (line : Nat) : Continues i c (d.emit ins line).2
  | constant {d : Code} (before : Continues i c d) (k : Constant) : Continues i c (d.addConstant k).2
  | operand {d : Code} {j : Nat} (before : Continues i c d) (other : j ≠ i) (x : UInt16) :
    Continues i c (d.patchOperand j x)

theorem landing_eq_size_iff (inside : i < c.size) : c.landing i = c.size ↔ c.size ≤ i + 65536 := by
  unfold landing
  omega

theorem code_addConstant (c : Code) (k : Constant) : (c.addConstant k).2.code = c.code := by
  have appended : ∀ k, (c.appendConstant k).2.code = c.code := by
    intro k
    unfold appendConstant
    split <;> rfl
  cases k with
  | text t =>
    show (c.addText t).2.code = c.code
    unfold addText
    split
    · rfl
    · exact appended _
  | _ => exact appended _

/-- The instruction stays where it is. -/
theorem Continues.getElem? (h : Continues i c d) (there : c.code[i]? = some ins) : d.code[i]? = some ins := by
  induction h with
  | here => exact there
  | emit _ other line ih =>
    obtain ⟨inside, -⟩ := Array.getElem?_eq_some_iff.1 ih
    exact (Array.getElem?_push_lt inside).trans ((Array.getElem?_eq_getElem inside).symm.trans ih)
  | constant _ k ih => rwa [code_addConstant]
  | operand _ other x ih =>
    rw [← ih]
    exact (Array.getElem?_modify ..).trans (if_neg other)

theorem getElem?_patchJump (there : c.code[i]? = some ins) :
    (c.patchJump i).code[i]? = some { ins with a := UInt16.ofNat (c.size - i - 1) } := by
  refine (Array.getElem?_modify ..).trans ?_
  rw [if_pos rfl, there]
  rfl

end Chunk

/-! ## Jumps -/

/-- Whether the instruction that comes next jumps, if it is one that can. -/
def Machine.takes? (m : Machine) : OpCode → Option Bool
  | .jump => some true
  | .jumpIfFalse | .jumpIfFalseNoPop => some !m.isTruthy m.top
  | .jumpIfTrueNoPop => some (m.isTruthy m.top)
  | .nullishJump => some !m.top.isNull
  | .forIter => some (m.iterations.head?.all fun it => (advance m.heap it).isNone)
  | _ => none

section

variable {m : Machine} {f : Frame} {rest : List Frame} {i : Instruction} {taken : Bool}

theorem run_jumpIf (frames : m.frames = f :: rest) (condition : Bool) (n : Nat) :
    ∃ m', (jumpIf condition n).run m = .ok .next m' ∧
      m'.frames = { f with ip := if condition then f.ip + n else f.ip } :: rest := by
  cases condition with
  | true => exact ⟨_, run_bind_of_ok (run_jump frames n), rfl⟩
  | false => exact ⟨m, rfl, frames⟩

theorem run_peek_top (m : Machine) : (peek 0).run m = .ok m.top m := by
  rw [run_peek]
  unfold Machine.slot Machine.top
  rw [Array.back?_eq_getElem?, Array.getD_eq_getD_getElem?]
  rfl

/-- Drawing from the innermost iteration leaves the calls alone, and tells whether there was an item. -/
theorem run_nextItem_of_frames (frames : m.frames = f :: rest) :
    ∃ v m', nextItem.run m = .ok v m' ∧ m'.frames = f :: rest ∧
      v.isNone = m.iterations.head?.all fun it => (advance m.heap it).isNone := by
  have run := run_nextItem m
  rw [run]
  cases m.iterations with
  | nil => exact ⟨none, m, rfl, frames, rfl⟩
  | cons it its =>
    dsimp only
    cases item : advance m.heap it with
    | none => exact ⟨none, _, rfl, frames, by simp [item]⟩
    | some next => exact ⟨some next.1, _, rfl, frames, by simp [item]⟩

/-- A jump that is taken moves the innermost call on, and one that is not leaves it where it is. -/
theorem run_execute_of_takes (frames : m.frames = f :: rest) (takes : m.takes? i.op = some taken) :
    ∃ m', (execute i).run m = .ok .next m' ∧
      m'.frames = { f with ip := if taken then f.ip + i.a.toNat else f.ip } :: rest := by
  obtain ⟨op, x, y⟩ := i
  cases op <;> cases takes
  case jump => exact run_jumpIf frames true x.toNat
  case jumpIfFalse =>
    exact run_jumpIf (m := { m with stack := m.stack.pop }) frames (!m.isTruthy m.top) x.toNat
  case jumpIfFalseNoPop =>
    obtain ⟨m', run, moved⟩ := run_jumpIf frames (!m.isTruthy m.top) x.toNat
    exact ⟨m', (run_bind_of_ok (run_get m)).trans ((run_bind_of_ok (run_peek_top m)).trans run), moved⟩
  case jumpIfTrueNoPop =>
    obtain ⟨m', run, moved⟩ := run_jumpIf frames (m.isTruthy m.top) x.toNat
    exact ⟨m', (run_bind_of_ok (run_get m)).trans ((run_bind_of_ok (run_peek_top m)).trans run), moved⟩
  case nullishJump =>
    obtain ⟨m', run, moved⟩ := run_jumpIf frames (!m.top.isNull) x.toNat
    exact ⟨m', (run_bind_of_ok (run_peek_top m)).trans run, moved⟩
  case forIter =>
    obtain ⟨v, m', next, frames', drawn⟩ := run_nextItem_of_frames frames
    rw [← drawn]
    cases v with
    | none => exact ⟨_, (run_bind_of_ok next).trans (run_bind_of_ok (run_jump frames' x.toNat)), rfl⟩
    | some v => exact ⟨_, run_bind_of_ok next, frames'⟩

end

namespace Activity

variable {a : Activity} {c d : Code} {i : Nat} {ins : Instruction} {f : Frame} {rest : List Frame}

/-- The next move executes the instruction with the index `i` of the code, in the call `f` with the calls `rest`
around it. -/
structure StandsAt (a : Activity) (d : Code) (i : Nat) (f : Frame) (rest : List Frame) : Prop where
  control : a.control = .execute
  frames : a.machine.frames = f :: rest
  chunk : (a.machine.protoOf f).chunk = d
  ip : f.ip = i

theorem StandsAt.performs (stands : a.StandsAt d i f rest) (there : d.code[i]? = some ins) :
    a.Performs ins { a.machine with frames := { f with ip := i + 1 } :: rest } := by
  obtain ⟨control, frames, rfl, rfl⟩ := stands
  refine ⟨control, ?_⟩
  have innermost : frame.run a.machine = .ok f a.machine := by
    show EStateM.Result.ok (a.machine.frames.headD default) _ = _
    rw [frames]
    rfl
  unfold fetch
  rw [run_bind_of_ok innermost, run_bind_of_ok (run_get _), there]
  exact run_bind_of_ok (run_modifyFrame frames _)

/-- A jump goes on at the distance of its operand, if it is taken. -/
theorem StandsAt.step_of_takes {taken : Bool} (stands : a.StandsAt d i f rest) (there : d.code[i]? = some ins)
    (takes : a.machine.takes? ins.op = some taken) : ∃ b, a.step = .continue b ∧ b.control = .execute ∧
      b.machine.frames = { f with ip := if taken then i + 1 + ins.a.toNat else i + 1 } :: rest := by
  obtain ⟨m', run, frames⟩ := run_execute_of_takes
    (m := { a.machine with frames := { f with ip := i + 1 } :: rest }) rfl takes
  have step := (stands.performs there).step
  rw [run] at step
  exact ⟨_, step, rfl, frames⟩

/-- A region is opened with its place at the distance of the operand. -/
theorem StandsAt.step_of_tryBegin (stands : a.StandsAt d i f rest) (there : d.code[i]? = some ins)
    (op : ins.op = .tryBegin) : ∃ h b, a.step = .continue b ∧ b.control = .execute ∧
      b.machine.frames = { f with ip := i + 1 } :: rest ∧ b.machine.handlers = h :: a.machine.handlers ∧
      h.catchIp = i + 1 + ins.a.toNat ∧ h.frameDepth = rest.length + 1 := by
  have step := (stands.performs there).step
  obtain ⟨op, x, y⟩ := ins
  cases op
  exact ⟨_, _, step, rfl, rfl, rfl, rfl, rfl⟩

/-- A throw goes on at the place of the region that catches it, and in the call of this region if it is under way. -/
theorem Catches.step_at {h : Handler} {outer : List Handler} (catches : a.Catches h outer)
    (own : h.frameDepth = rest.length + 1) : ∃ b, a.step = .continue b ∧ b.control = .execute ∧
      (∀ g ∈ b.machine.frames.head?, g.ip = h.catchIp) ∧
      (Alive f rest a.machine.frames → b.machine.frames = { f with ip := h.catchIp } :: rest) := by
  obtain ⟨b, fs, step, control, same, frames, -⟩ := catches.step
  refine ⟨b, step, control, ?_, ?_⟩
  · rw [frames, catching]
    split
    · nofun
    · intro g first
      cases first
      rfl
  · intro alive
    rw [frames]
    exact (alive.sameCalls same).catching_eq own

/-- **Patched jumps land where they have been pointed, as far as an operand reaches.** Take any chunk with a jump at
`i` that is pointed to the end, whatever comes into the chunk behind it, and any machine that is about to execute it.
If the jump is taken, the machine goes on at `c.landing i` in the same call, and else behind the jump. If it opens a
region, every throw that this region catches goes on at `c.landing i`, in the call that opened it as long as this call
is under way. This is the end of the chunk at which the jump was pointed exactly if the distance is below `2 ^ 16`. -/
theorem patched_jumps_land (there : c.code[i]? = some ins) (later : (c.patchJump i).Continues i d) :
    (c.landing i = c.size ↔ c.size ≤ i + 65536) ∧
    ∀ a f rest, StandsAt a d i f rest →
      (∀ taken, a.machine.takes? ins.op = some taken → ∃ b, a.step = .continue b ∧ b.control = .execute ∧
        b.machine.frames = { f with ip := if taken then c.landing i else i + 1 } :: rest) ∧
      (ins.op = .tryBegin → ∃ h b, a.step = .continue b ∧ b.control = .execute ∧
        b.machine.frames = { f with ip := i + 1 } :: rest ∧ b.machine.handlers = h :: a.machine.handlers ∧
        ∀ x outer, Catches x h outer → ∃ y, x.step = .continue y ∧ y.control = .execute ∧
          (∀ g ∈ y.machine.frames.head?, g.ip = c.landing i) ∧
          (Alive f rest x.machine.frames → y.machine.frames = { f with ip := c.landing i } :: rest)) := by
  obtain ⟨inside, -⟩ := Array.getElem?_eq_some_iff.1 there
  have patched := later.getElem? (Chunk.getElem?_patchJump there)
  have landing : i + 1 + (UInt16.ofNat (c.size - i - 1)).toNat = c.landing i := by
    rw [UInt16.toNat_ofNat']
    rfl
  refine ⟨Chunk.landing_eq_size_iff inside, fun a f rest stands => ⟨?_, ?_⟩⟩
  · intro taken takes
    rw [← landing]
    exact stands.step_of_takes patched takes
  · intro op
    obtain ⟨h, b, step, control, frames, handlers, place, own⟩ := stands.step_of_tryBegin patched op
    rw [landing] at place
    refine ⟨h, b, step, control, frames, handlers, ?_⟩
    intro x outer catches
    rw [← place]
    exact catches.step_at own

/-- A chunk with a jump that has no target yet. -/
def unfinished : Code :=
  { code := #[{ op := .pushNull }, { op := .jumpIfFalse }, { op := .call }], lines := #[1, 1, 1] }

/-- The same chunk with a jump over the call. -/
def skipping : Code := ((unfinished.patchJump 1).emit { op := .ret } 2).2

/-- The jump of `skipping` goes on behind the call. -/
theorem skipping_lands_behind_call :
    ∃ b, ((startScript {} { id := 0, chunk := skipping }).after 1).step = .continue b ∧
      b.machine.frames.map Frame.ip = [3] := by
  have there : unfinished.code[1]? = some { op := .jumpIfFalse } := rfl
  have later : (unfinished.patchJump 1).Continues 1 skipping := .emit .here { op := .ret } 2
  have stands : StandsAt ((startScript {} { id := 0, chunk := skipping }).after 1) skipping 1
      ⟨⟨0⟩, 1, 0, false, 0⟩ [] :=
    ⟨rfl, rfl, rfl, rfl⟩
  obtain ⟨b, step, -, frames⟩ := ((patched_jumps_land there later).2 _ _ _ stands).1 true rfl
  refine ⟨b, step, ?_⟩
  rw [frames]
  rfl

/-- A script begins with its first instruction. -/
theorem standsAt_startScript (p : Proto) : ∃ f, (startScript {} p).StandsAt p.chunk 0 f [] :=
  ⟨_, rfl, rfl, rfl, rfl⟩

/-- A chunk with a jump over 65536 instructions. -/
def longJump : Code := { code := #[{ op := .jump }] ++ Array.replicate 65536 { op := .pop } }

/-- The distance of `longJump` does not fit an operand: the jump goes on behind itself. -/
theorem longJump_goes_nowhere : longJump.code[0]? = some { op := .jump } ∧ longJump.size = 65537 ∧
    ∃ b, (startScript {} { id := 0, chunk := longJump.patchJump 0 }).step = .continue b ∧
      b.machine.frames.map Frame.ip = [1] := by
  have there : longJump.code[0]? = some { op := .jump } := Array.getElem?_append_left (by decide)
  have size : longJump.size = 65537 := by
    unfold Chunk.size longJump
    rw [Array.size_append, Array.size_replicate]
    rfl
  refine ⟨there, size, ?_⟩
  have patched := Chunk.getElem?_patchJump there
  obtain ⟨f, stands⟩ := standsAt_startScript { id := 0, chunk := longJump.patchJump 0 }
  have takes : (startScript {} { id := 0, chunk := longJump.patchJump 0 }).machine.takes? .jump = some true := rfl
  obtain ⟨b, step, -, frames⟩ := stands.step_of_takes patched takes
  refine ⟨b, step, ?_⟩
  rw [frames, size]
  rfl

end Activity

end ScriptVm
