import ScriptVm.Proofs.CallIsolation

/-!
# Calls and regions, move by move

What one move can do to the calls under way and to the open regions, whatever the code is.
`Activity.Shift` lists it, and `Standing.shift` says that there is nothing else. A call or a region
that is not dropped by a move stays where it is, and the number of calls grows only up to the limit.
-/

set_option autoImplicit false

namespace ScriptVm

open Machine Exec Stacks

/-! ## Calls that are under way -/

theorem truncated_suffix {α : Type} (xs : List α) (depth : Nat) : truncated xs depth <:+ xs :=
  List.drop_suffix _ _

/-- Cutting back leaves what lies deep enough. -/
theorem suffix_truncated {α : Type} {xs outer : List α} (h : outer <:+ xs) {depth : Nat}
    (deep : outer.length ≤ depth) : outer <:+ truncated xs depth := by
  obtain ⟨inner, rfl⟩ := h
  rw [truncated_append inner deep]
  exact List.suffix_append _ _

/-- What lies outside the innermost entry of a list. -/
theorem suffix_tail {α : Type} {x : α} {xs outer : List α} (h : outer <:+ x :: xs)
    (shorter : outer.length ≤ xs.length) : outer <:+ xs := by
  rcases List.suffix_cons_iff.1 h with rfl | h
  · rw [List.length_cons] at shorter
    omega
  · exact h

/-- Only the innermost call goes on. -/
theorem SameCalls.suffix {fs gs outer : List Frame} (same : SameCalls fs gs) (h : outer <:+ fs)
    (shorter : outer.length < fs.length) : outer <:+ gs := by
  cases same with
  | nil => exact h
  | cons f ip rest =>
    rw [List.length_cons] at shorter
    exact (suffix_tail h (by omega)).trans (List.suffix_cons _ _)

/-- A region catches in the call that it was opened in, at another place. -/
theorem sameCalls_catching (r : Handler) (fs : List Frame) :
    SameCalls (truncated fs r.frameDepth) (catching r fs) := by
  unfold catching
  cases truncated fs r.frameDepth with
  | nil => exact .nil
  | cons g others => exact .cons g _ others

theorem SameCalls.of_cons {f : Frame} {fs rest : List Frame} (h : SameCalls fs (f :: rest)) :
    ∃ f', fs = f' :: rest := by
  cases h with
  | cons g ip rest => exact ⟨g, rfl⟩

/-- The call `f` is under way, at whatever instruction, with the calls `rest` around it. -/
def Alive (f : Frame) (rest fs : List Frame) : Prop := ∃ ip, { f with ip } :: rest <:+ fs

namespace Alive

variable {f g : Frame} {rest fs gs : List Frame}

theorem cons (h : Alive f rest fs) (g : Frame) : Alive f rest (g :: fs) := by
  obtain ⟨ip, suffix⟩ := h
  exact ⟨ip, suffix.trans (List.suffix_cons g fs)⟩

theorem tail (h : Alive f rest (g :: fs)) (lasts : rest.length < fs.length) : Alive f rest fs := by
  obtain ⟨ip, suffix⟩ := h
  rcases List.suffix_cons_iff.1 suffix with same | suffix
  · cases same
    omega
  · exact ⟨ip, suffix⟩

/-- Going on elsewhere in the innermost call ends no call. -/
theorem sameCalls (h : Alive f rest fs) (same : SameCalls fs gs) : Alive f rest gs := by
  obtain ⟨ip, suffix⟩ := h
  cases same with
  | nil => exact ⟨ip, suffix⟩
  | cons g ip' others =>
    rcases List.suffix_cons_iff.1 suffix with same | suffix
    · cases same
      exact ⟨ip', List.suffix_refl _⟩
    · exact ⟨ip, suffix.trans (List.suffix_cons _ _)⟩

/-- Cutting back ends no call below. -/
theorem truncated (h : Alive f rest fs) {depth : Nat} (deep : rest.length < depth) :
    Alive f rest (Machine.truncated fs depth) := by
  obtain ⟨ip, inner, rfl⟩ := h
  rw [truncated_append inner (by rw [List.length_cons]; omega)]
  exact ⟨ip, List.suffix_append _ _⟩

/-- A throw ends no call below the region that catches it. -/
theorem catching (h : Alive f rest fs) {r : Handler} (deep : rest.length < r.frameDepth) :
    Alive f rest (Stacks.catching r fs) := by
  exact (h.truncated deep).sameCalls (sameCalls_catching r fs)

/-- A region of the call itself goes on in this call. -/
theorem catching_eq (h : Alive f rest fs) {r : Handler} (own : r.frameDepth = rest.length + 1) :
    Stacks.catching r fs = { f with ip := r.catchIp } :: rest := by
  obtain ⟨ip, inner, rfl⟩ := h
  unfold Stacks.catching
  rw [own, show rest.length + 1 = ({ f with ip } :: rest).length from rfl, truncated_of_append]

end Alive

/-- An entry found no more calls than one inside it. -/
theorem Nested.le_of_suffix {p q : Pending} {ps qs : List Pending} (h : Nested (q :: qs))
    (suffix : p :: ps <:+ q :: qs) : p.depths.frames ≤ q.depths.frames := by
  induction qs generalizing q with
  | nil =>
    rcases List.suffix_cons_iff.1 suffix with same | suffix
    · cases same
      exact Nat.le_refl _
    · cases List.suffix_nil.1 suffix
  | cons q' qs ih =>
    rcases List.suffix_cons_iff.1 suffix with same | suffix
    · cases same
      exact Nat.le_refl _
    · have made := h.made (List.cons_ne_nil q' qs)
      have := ih (h.outer made.1 made.2) suffix
      have := h.level_le (List.head?_cons)
      omega

/-! ## Limits -/

namespace Exec

variable {α : Type} {b : Bool} {n base : Nat} {v : α} {x : Exec α} {m : Machine}

/-- A call is begun only if there is room for its frame. -/
theorem Calling.room (h : Calling b n base v x m) :
    (x.after m).frames.length ≤ max m.frames.length m.config.maxFrames := by
  induction h with
  | plain h =>
    rw [h.keeps.frames]
    exact Nat.le_max_left _ _
  | @chain n t base α β v x f m k le fits first next ih =>
    have keeps := first.keeps
    cases run : x.run m with
    | ok a m₁ =>
      rw [after_of_ok run] at keeps
      rw [after_bind run, ← keeps.frames, ← keeps.config]
      exact ih a m₁ run
    | error e m₁ =>
      rw [after_of_error run] at keeps
      rw [after_of_error (run_bind_of_error run), keeps.frames]
      exact Nat.le_max_left _ _
  | read blind next ih => exact ih
  | @push n base m f start slot =>
    have run := run_pushFrame f m
    split at run
    · rw [after_of_error run]
      exact Nat.le_max_left _ _
    next room =>
      rw [after_of_ok run]
      show (_ :: m.frames).length ≤ _
      rw [List.length_cons]
      omega
  | @last n base β v x f m gives first ih =>
    cases run : x.run m with
    | ok a m₁ =>
      rw [after_of_ok run] at ih
      rw [after_bind run, gives]
      exact ih
    | error e m₁ =>
      rw [after_of_error run] at ih
      rw [after_of_error (run_bind_of_error run)]
      exact ih

end Exec

namespace Activity

/-- The options stay as they are, which both machines see. -/
theorem congruence_config (c : Config) : Congruence fun m s => s = m.side ∧ m.config = c where
  control {m m' s} world config stats h := by
    obtain ⟨rfl, rfl⟩ := h
    refine ⟨?_, config⟩
    unfold Machine.side
    rw [world, config, stats]
  cells _ h := h
  world {m s w es} h _ sameCaches log _ := by
    obtain ⟨rfl, h⟩ := h
    refine ⟨?_, h⟩
    show Side.mk _ _ _ (m.world.log.hearAll es) = Side.mk _ _ _ w.log
    rw [log, sameCaches]
    rfl
  use {α x} m side := by
    rintro s ⟨rfl, rfl⟩
    refine ⟨(x.after m).side, ?_, rfl, (plain_of_sideUse side m).keeps.config⟩
    unfold Exec.after
    rw [Machine.withSide_side]
    cases x.run m <;> rfl

/-- No move changes the options of the machine. -/
theorem config_step [Host] [LawfulHost] (a : Activity) : a.step.machine.config = a.machine.config := by
  -- only the moves of the host's own functions depend on the host
  have idle : (@Activity.step Host.idle a).machine.config = a.machine.config := by
    obtain ⟨s, -, -, config⟩ := step_alike (congruence_config a.machine.config) a (s := a.machine.side) ⟨rfl, rfl⟩
    exact config
  cases control : a.control with
  | ask byEntry c => exact (ask_step control).2.2.2
  | execute | invoke | deliver | raise =>
    unfold Activity.step at idle ⊢
    rw [control] at idle ⊢
    exact idle

/-- A script begins with the options of the machine. -/
theorem config_startScript (m : Machine) (p : Proto) : (m.startScript p).machine.config = m.config := by
  obtain ⟨s, -, -, config⟩ := alike_startScript (congruence_config m.config) (s := m.side) ⟨rfl, rfl⟩ p
  exact config

/-! ## What a move can do -/

/-- The next instruction opens the region `h` in the call `f`, with the calls `rest` around it. -/
structure Opens (a : Activity) (h : Handler) (f : Frame) (rest : List Frame) : Prop where
  control : a.control = .execute
  fetched : ∃ i m, fetch.run a.machine = .ok i m ∧ i.op = .tryBegin ∧ m.frames = f :: rest ∧
    h.catchIp = f.ip + i.a.toNat
  depth : h.frameDepth = rest.length + 1

/-- The next instruction throws a value that the region `h` catches, with the regions `hs` around
it. -/
structure Catches (a : Activity) (h : Handler) (hs : List Handler) : Prop where
  control : a.control = .execute
  fetched : ∃ i m, fetch.run a.machine = .ok i m ∧ i.op = .throwTop
  handlers : a.machine.handlers = h :: hs
  reach : a.machine.runBase < h.frameDepth

/-- What the next move can make of the calls and regions of a machine. -/
inductive Shift (a : Activity) : List Frame → List Handler → Prop where
  | goesOn {fs : List Frame} (calm : ∀ e, a.control ≠ .raise e) (same : SameCalls a.machine.frames fs)
      (rests : a.control ≠ .execute → fs = a.machine.frames) : Shift a fs a.machine.handlers
  | calls {g : Frame} {fs : List Frame} (calm : ∀ e, a.control ≠ .raise e)
      (same : SameCalls a.machine.frames fs) (rests : a.control ≠ .execute → fs = a.machine.frames)
      (room : a.machine.frames.length < a.machine.config.maxFrames) : Shift a (g :: fs) a.machine.handlers
  | returns {f : Frame} {rest : List Frame} (control : a.control = .execute)
      (frames : a.machine.frames = f :: rest) :
      Shift a rest (a.machine.handlers.dropWhile fun h => rest.length + 1 ≤ h.frameDepth)
  | opens {h : Handler} {f : Frame} {rest : List Frame} (same : SameCalls a.machine.frames (f :: rest))
      (opens : a.Opens h f rest) : Shift a (f :: rest) (h :: a.machine.handlers)
  | closes {fs : List Frame} (control : a.control = .execute) (same : SameCalls a.machine.frames fs) :
      Shift a fs a.machine.handlers.tail
  | catches {fs : List Frame} {h : Handler} {hs : List Handler} (same : SameCalls a.machine.frames fs)
      (catches : a.Catches h hs) : Shift a (catching h fs) hs
  | fails {e : RuntimeError} {p : Pending} {ps : List Pending} (control : a.control = .raise e)
      (pending : a.pending = p :: ps) (called : p.caller ≠ .script) :
      Shift a (truncated a.machine.frames p.depths.frames) (truncated a.machine.handlers p.depths.handlers)
  | drops {e : RuntimeError} {p : Pending} {ps : List Pending} (control : a.control = .raise e)
      (pending : a.pending = p :: ps) (script : p.caller = .script) : Shift a [] []

/-- Fetching an instruction of the code moves the innermost call on, and nothing else. -/
theorem fetched_eq {m m' : Machine} {i : Instruction} (fetched : fetch.run m = .ok i m') (op : i.op ≠ .ret) :
    ∃ fs, SameCalls m.frames fs ∧ m' = { m with frames := fs } := by
  unfold fetch at fetched
  rw [run_bind_of_ok (show frame.run m = .ok (m.frames.headD default) m from rfl), run_bind_of_ok (run_get m)]
    at fetched
  split at fetched
  · cases fetched
    simp only
    split
    next => exact ⟨m.frames, .refl _, rfl⟩
    next f rest frames => exact ⟨_, frames ▸ .cons f _ rest, rfl⟩
  · cases fetched
    exact absurd rfl op

theorem after_andNext (x : Exec Unit) (m : Machine) : (andNext x).after m = x.after m := by
  cases run : x.run m with
  | ok v m' => exact (after_bind run).trans (after_of_ok run).symm
  | error e m' => exact (after_of_error (run_bind_of_error run)).trans (after_of_error run).symm

theorem after_callProgress (argc : Nat) (m : Machine) : (callProgress argc).after m = (Exec.call argc).after m := by
  cases run : (Exec.call argc).run m with
  | ok r m' =>
    refine (after_bind run).trans (Eq.trans ?_ (after_of_ok run).symm)
    cases r <;> rfl
  | error e m' => exact (after_of_error (run_bind_of_error run)).trans (after_of_error run).symm

/-- What a move leaves behind is what the instruction leaves behind. -/
theorem machine_stepExecute {m m' : Machine} {i : Instruction} (fetched : fetch.run m = .ok i m')
    (pending : List Pending) :
    ∃ k, (stepExecute m pending).machine = { (execute i).after m' with runBase := k } := by
  unfold stepExecute
  rw [run_bind_of_ok fetched, Exec.after]
  cases (execute i).run m' with
  | ok p m'' =>
    cases p with
    | reenter r => exact ⟨m''.runBase, machine_reenter _ _ _ _⟩
    | _ => exact ⟨m''.runBase, rfl⟩
  | error e m'' => cases e <;> exact ⟨_, rfl⟩

/-- What a call from outside leaves behind, but for its result on the stack. -/
theorem machine_stepInvoke (m : Machine) (pending : List Pending) (callee : Value) (args : List Value) :
    ∃ k stack, (stepInvoke m pending callee args).machine =
      { (beginCall callee args).after m with runBase := k, stack } := by
  unfold stepInvoke
  rw [Exec.after]
  dsimp only
  cases (beginCall callee args).run m with
  | ok r m' =>
    cases r with
    | none =>
      dsimp only
      split <;> exact ⟨_, _, rfl⟩
    | some r => exact ⟨m'.runBase, m'.stack, machine_reenter _ _ _ _⟩
  | error e m' => cases e <;> exact ⟨_, m'.stack, rfl⟩

/-- An instruction begins a call only if there is room for it. -/
theorem room_of_call {m m' : Machine} {i : Instruction} (fetched : fetch.run m = .ok i m')
    (op : i.op = .call ∨ i.op = .new) (pending : List Pending) :
    (stepExecute m pending).machine.frames.length ≤ max m.frames.length m.config.maxFrames := by
  obtain ⟨fs, same, rfl⟩ := fetched_eq fetched (by rcases op with op | op <;> simp [op])
  have called : ((execute i).after { m with frames := fs }).frames.length ≤ max fs.length m.config.maxFrames := by
    rcases op with op | op
    · rw [show execute i = callProgress i.a.toNat by rw [execute, op], after_callProgress]
      exact (calling_call (b := true) i.a.toNat).room
    · rw [show execute i = andNext (Exec.new i.a.toNat) by rw [execute, op], after_andNext]
      exact (calling_new (b := true) i.a.toNat).room
  obtain ⟨k, moved⟩ := machine_stepExecute fetched pending
  rw [moved, ← same.length_eq]
  exact called

/-- A call from outside begins only if there is room for it. -/
theorem room_of_invoke (m : Machine) (pending : List Pending) (callee : Value) (args : List Value) :
    (stepInvoke m pending callee args).machine.frames.length ≤ max m.frames.length m.config.maxFrames := by
  have begun : ((beginCall callee args).after m).frames.length ≤ max m.frames.length m.config.maxFrames := by
    unfold beginCall
    split
    · exact Nat.le_max_left _ _
    · exact (calling_call (b := true) (m := { m with stack := m.stack.push callee ++ args.toArray }) args.length).room
  obtain ⟨k, stack, moved⟩ := machine_stepInvoke m pending callee args
  rw [moved]
  exact begun

/-- `tryBegin` opens a region in the innermost call. -/
theorem step_of_tryBegin [Host] {a : Activity} {p : Pending} {i : Instruction} {m : Machine} {f : Frame}
    {rest : List Frame} (executing : a.Executing p i m f rest) (control : a.control = .execute) (op : i.op = .tryBegin) :
    ∃ h, a.Opens h f rest ∧ a.step.machine.frames = f :: rest ∧ a.step.machine.handlers = h :: m.handlers := by
  have frames := executing.frames
  obtain ⟨h, made⟩ : ∃ h : Handler,
      h = ⟨m.frames.length, m.stack.size, (m.frames.headD default).ip + i.a.toNat,
        (m.frames.headD default).ip + i.b.toNat, m.iterations.length⟩ := ⟨_, rfl⟩
  have run : (execute i).run m = .ok .next { m with handlers := h :: m.handlers } := by
    rw [execute, op, made]
    rfl
  have step : a.step = .continue ⟨{ m with handlers := h :: m.handlers }, a.pending, .execute⟩ := by
    rw [step_of_execute control]
    simp only [stepExecute, run_bind_of_ok executing.fetched, run]
  refine ⟨h, ⟨control, ⟨i, m, executing.fetched, op, frames, ?_⟩, ?_⟩, ?_, ?_⟩
  · rw [made, frames]
    rfl
  · rw [made, frames]
    rfl
  · rw [step]
    exact frames
  · rw [step]
    rfl

/-- An instruction does one of these things to the calls and regions. -/
theorem Executing.shift [Host] {a : Activity} {p : Pending} {i : Instruction} {m : Machine} {f : Frame}
    {rest : List Frame} (executing : Executing a p i m f rest) (control : a.control = .execute) :
    a.Shift a.step.machine.frames a.step.machine.handlers := by
  have same : SameCalls a.machine.frames m.frames := executing.stays.frames
  have handlers : m.handlers = a.machine.handlers := executing.stays.handlers
  have runBase : m.runBase = a.machine.runBase := executing.stays.runBase
  have rests : a.control ≠ .execute → ∀ fs, fs = a.machine.frames := fun h => absurd control h
  have calm : ∀ e, a.control ≠ .raise e := fun e => by simp [control]
  obtain ⟨f', before⟩ := (executing.frames ▸ same).of_cons
  have goesOn : a.Shift m.frames m.handlers := by
    rw [handlers]
    exact .goesOn calm same fun h => rests h _
  have returned : a.Shift rest (m.handlers.dropWhile fun h => rest.length + 1 ≤ h.frameDepth) := by
    rw [handlers]
    exact .returns control before
  by_cases op : i.op = .tryBegin
  · obtain ⟨h, opens, frames', handlers'⟩ := step_of_tryBegin executing control op
    rw [frames', handlers', handlers]
    exact .opens (executing.frames ▸ same) opens
  obtain ⟨out, effect⟩ := executing.executes.effect
  generalize shape : ({ a.step.machine.stacked with runBase := m.runBase } : Stacks) = s at effect
  have frames' : a.step.machine.frames = s.frames := congrArg Stacks.frames shape
  have handlers' : a.step.machine.handlers = s.handlers := congrArg Stacks.handlers shape
  rw [frames', handlers']
  cases effect with
  | stays _ _ stays =>
    rw [stays.handlers, show m.stacked.handlers = _ from handlers]
    exact .goesOn calm (same.trans stays.frames) fun h => rests h _
  | assignsLocal op v => exact goesOn
  | assignsCell write => exact goesOn
  | enters op stays calls slot iterations =>
    have kept : _ = m.handlers := stays.handlers
    have room := room_of_call executing.fetched op a.pending
    rw [← step_of_execute control, frames', List.length_cons, calls, same.length_eq] at room
    show a.Shift (_ :: _) _
    rw [calls, kept, handlers]
    exact .calls calm same (fun h => rests h _) (by omega)
  | ends op last => exact returned
  | goesBack op more => exact returned
  | protects op' => exact absurd op' op
  | releases op => exact handlers ▸ .closes control same
  | @catches h hs op regions reach =>
    exact .catches same ⟨control, ⟨i, m, executing.fetched, op⟩, handlers ▸ regions, runBase ▸ reach⟩
  | iterates op it => exact goesOn
  | advances op current head stays =>
    have kept : s.handlers = m.handlers := stays.handlers
    rw [kept, handlers]
    exact .goesOn calm (same.trans stays.frames) fun h => rests h _

/-- A call that begins enters at most one frame, and leaves the regions alone. -/
theorem shift_of_invoke [Host] {a : Activity} {callee : Value} {args : List Value}
    (control : a.control = .invoke callee args) : a.Shift a.step.machine.frames a.step.machine.handlers := by
  have same := SameCalls.refl a.machine.frames
  have calm : ∀ e, a.control ≠ .raise e := fun e => by simp [control]
  have invokes := invokes_step control
  have room := room_of_invoke a.machine a.pending callee args
  rw [← step_of_invoke control] at room
  generalize a.step = move at invokes room
  have kept : ∀ {m' : Machine}, Stays 0 a.machine.stacked m'.stacked → m'.handlers = a.machine.handlers :=
    fun stays => stays.handlers
  cases invokes with
  | @enters m' g stays frames =>
    have room : (g :: m'.frames).length ≤ _ := room
    rw [List.length_cons, frames] at room
    show a.Shift (g :: m'.frames) m'.handlers
    rw [frames, kept stays]
    exact .calls calm same (fun _ => rfl) (by omega)
  | @answers m' v stays frames =>
    show a.Shift m'.frames m'.handlers
    rw [frames, kept stays]
    exact .goesOn calm same fun _ => rfl
  | @reenters m' r stays frames =>
    rw [machine_reenter, frames, kept stays]
    exact .goesOn calm same fun _ => rfl
  | @faults m' e stays frames =>
    rw [(machine_onFault e m' a.pending).1, (machine_onFault e m' a.pending).2, frames, kept stays]
    exact .goesOn calm same fun _ => rfl

/-- An error that is raised drops the frames and regions of the entry that it ends. -/
theorem Standing.shift_of_raise [Host] {a : Activity} {e : RuntimeError} (standing : a.Standing)
    (control : a.control = .raise e) : a.Shift a.step.machine.frames a.step.machine.handlers := by
  cases pending : a.pending with
  | nil => cases pending ▸ standing.nested
  | cons p ps =>
    have raises := raises_step control pending
    generalize a.step = move at raises
    have failed : ∀ {m' : Machine}, p.caller ≠ .script → m'.stacked = (unwound a.machine p e).stacked →
        a.Shift m'.frames m'.handlers := by
      intro m' called stacked
      have frames : m'.frames = _ := congrArg Stacks.frames stacked
      have handlers : m'.handlers = _ := congrArg Stacks.handlers stacked
      rw [frames, handlers]
      show a.Shift (unwound a.machine p e).frames (unwound a.machine p e).handlers
      rw [frames_unwound, handlers_unwound]
      exact .fails control pending called
    cases raises with
    | drops script => exact .drops control pending script
    | answers host => exact failed (by simp [host]) rfl
    | resumes script host stacked =>
      rw [(machine_resume _ _ _ _).1, (machine_resume _ _ _ _).2]
      exact failed script stacked
    | rethrows script host stacked => exact failed script stacked
    | informs caller => exact failed (by simp [caller]) rfl

/-- A move does one of these things to the calls and regions. -/
theorem Standing.shift [Host] [LawfulHost] {a : Activity} (standing : a.Standing) :
    a.Shift a.step.machine.frames a.step.machine.handlers := by
  cases control : a.control with
  | execute =>
    obtain ⟨p, i, m, f, rest, executing⟩ := standing.executing control
    exact executing.shift control
  | invoke => exact shift_of_invoke control
  | ask byEntry c =>
    rw [(ask_step control).1, (ask_step control).2.1]
    exact .goesOn (fun e => by simp [control]) (.refl _) fun _ => rfl
  | deliver v =>
    have same := SameCalls.refl a.machine.frames
    have calm : ∀ e, a.control ≠ .raise e := fun e => by simp [control]
    cases pending : a.pending with
    | nil => cases pending ▸ standing.nested
    | cons p ps =>
      have delivers := delivers_step control pending
      generalize a.step = move at delivers
      cases delivers with
      | @answers m' frames handlers =>
        show a.Shift m'.frames m'.handlers
        rw [frames, handlers]
        exact .goesOn calm same fun _ => rfl
      | resumes =>
        rw [(machine_resume _ _ _ _).1, (machine_resume _ _ _ _).2]
        exact .goesOn calm same fun _ => rfl
  | raise => exact standing.shift_of_raise control

/-! ## What stays -/

section

variable {a b : Activity} {fs : List Frame} {hs : List Handler}

/-- A call that is not dropped is still the same call. -/
theorem Shift.alive (shift : a.Shift fs hs) {f : Frame} {rest : List Frame} (h : Alive f rest a.machine.frames)
    (lasts : rest.length < fs.length) : Alive f rest fs := by
  cases shift with
  | goesOn _ same => exact h.sameCalls same
  | calls _ same => exact (h.sameCalls same).cons _
  | returns control frames => exact (frames ▸ h).tail lasts
  | opens same => exact h.sameCalls same
  | closes control same => exact h.sameCalls same
  | catches same catches =>
    rw [length_catching] at lasts
    exact (h.sameCalls same).catching (by omega)
  | fails =>
    rw [length_truncated] at lasts
    exact h.truncated (by omega)
  | drops =>
    rw [List.length_nil] at lasts
    omega

/-- The calls `outer` belong to enclosing runs, and the machine is not to drop them. -/
structure Encloses (outer : List Frame) (a : Activity) : Prop where
  calls : outer <:+ a.machine.frames
  entry : ∀ p, a.pending.head? = some p → p.caller ≠ .script ∧ outer.length ≤ p.depths.frames

/-- No move changes the calls of enclosing runs. -/
theorem Encloses.suffix_step [Host] [LawfulHost] {outer : List Frame} (h : Encloses outer a) (standing : a.Standing) :
    outer <:+ a.step.machine.frames := by
  have inside : a.control = .execute →
      outer.length ≤ a.machine.runBase ∧ a.machine.runBase < a.machine.frames.length := by
    intro control
    have rooted := standing.rooted
    rw [Rooted, control] at rooted
    obtain ⟨p, ps, pending, runBase, inside⟩ := rooted
    have := (h.entry p (by rw [pending, List.head?_cons])).2
    exact ⟨by omega, inside⟩
  have moved : ∀ {fs}, SameCalls a.machine.frames fs → (a.control ≠ .execute → fs = a.machine.frames) →
      outer <:+ fs := by
    intro fs same rests
    by_cases control : a.control = .execute
    · have := inside control
      exact same.suffix h.calls (by omega)
    · rw [rests control]
      exact h.calls
  have shift := standing.shift
  generalize a.step.machine.frames = fs at shift
  generalize a.step.machine.handlers = hs at shift
  cases shift with
  | goesOn _ same rests => exact moved same rests
  | calls _ same rests => exact (moved same rests).trans (List.suffix_cons _ _)
  | returns control frames =>
    have := inside control
    rw [frames, List.length_cons] at this
    exact suffix_tail (frames ▸ h.calls) (by omega)
  | opens same opens => exact moved same fun control => absurd opens.control control
  | closes control same => exact moved same fun other => absurd control other
  | @catches fs r hs same catches =>
    have := inside catches.control
    have reach := catches.reach
    have deep : outer.length ≤ r.frameDepth := by omega
    have cut := suffix_truncated (moved same fun control => absurd catches.control control) deep
    refine (sameCalls_catching r fs).suffix cut ?_
    rw [length_truncated, same.length_eq]
    omega
  | fails control pending => exact suffix_truncated h.calls (h.entry _ (by rw [pending, List.head?_cons])).2
  | drops control pending script =>
    exact absurd script (h.entry _ (by rw [pending, List.head?_cons])).1

/-- The number of calls stays within the limit. -/
theorem Standing.within_limit [Host] [LawfulHost] (standing : a.Standing)
    (bounded : a.machine.frames.length ≤ a.machine.config.maxFrames) :
    a.step.machine.frames.length ≤ a.step.machine.config.maxFrames := by
  rw [config_step]
  have shift := standing.shift
  generalize a.step.machine.frames = fs at shift
  generalize a.step.machine.handlers = hs at shift
  cases shift with
  | goesOn _ same => rwa [same.length_eq]
  | calls _ same rests room =>
    rw [List.length_cons, same.length_eq]
    exact room
  | returns control frames =>
    rw [frames, List.length_cons] at bounded
    omega
  | opens same => rwa [same.length_eq]
  | closes control same => rwa [same.length_eq]
  | catches same =>
    rw [length_catching, same.length_eq]
    omega
  | fails =>
    rw [length_truncated]
    omega
  | drops => exact Nat.zero_le _

/-! ## Entries -/

/-- What a move makes of the entries. -/
inductive Passes (a b : Activity) : Prop where
  | stays (pending : b.pending = a.pending) (busy : ∀ callee args, b.control ≠ .invoke callee args)
  | enters {q : Pending} (pending : b.pending = q :: a.pending) (depths : q.depths = b.machine.depths)
      (runBase : q.runBase = b.machine.runBase)
  | leaves {p : Pending} (control : (∃ v, a.control = .deliver v) ∨ ∃ e, a.control = .raise e)
      (pending : a.pending = p :: b.pending) (script : p.caller ≠ .script) (host : p.caller ≠ .host)
      (busy : ∀ callee args, b.control ≠ .invoke callee args)

theorem Completed.busy {m : Machine} {ps : List Pending} {v : Value} {byEntry : Bool}
    (completed : Completed m ps v byEntry b) (callee : Value) (args : List Value) : b.control ≠ .invoke callee args := by
  cases completed <;> exact nofun

/-- A native function that goes on has not begun a call yet. -/
theorem Resumed.busy {m : Machine} {ps : List Pending} {caller : Caller} (resumed : Resumed m ps caller b)
    (callee : Value) (args : List Value) : b.control ≠ .invoke callee args := by
  cases resumed with
  | returns _ completed => exact completed.busy callee args
  | asks => exact nofun

/-- A move leaves the entries as they are, adds one, or ends the innermost one. -/
theorem passes_step [Host] [LawfulHost] (standing : a.Standing) (step : a.step = .continue b) : Passes a b := by
  cases standing.next step with
  | executed _ _ _ _ leads => exact .stays rfl (by cases leads <;> simp)
  | called => exact .enters rfl rfl rfl
  | entered => exact .stays rfl (by simp)
  | answered _ _ _ _ answers => exact .stays rfl (by cases answers <;> simp)
  | reentered => exact .enters rfl rfl rfl
  | completed _ _ completed => exact .stays completed.pending completed.busy
  | calledBack => exact .enters rfl rfl rfl
  | told _ _ told => exact .stays rfl (by cases told <;> simp)
  | delivered control pending resumed =>
    rw [← resumed.pending] at pending
    exact .leaves (.inl ⟨_, control⟩) pending resumed.made.1 resumed.made.2 resumed.busy
  | recovered control pending _ _ resumed =>
    rw [← resumed.pending] at pending
    exact .leaves (.inr ⟨_, control⟩) pending resumed.made.1 resumed.made.2 resumed.busy
  | rethrown control pending script host => exact .leaves (.inr ⟨_, control⟩) pending script host (by simp)

/-- An entry of the host is there until the host gets its answer. -/
theorem host_suffix_step [Host] [LawfulHost] {p : Pending} (standing : a.Standing)
    (host : p.caller = .script ∨ p.caller = .host) (h : [p] <:+ a.pending) (step : a.step = .continue b) :
    [p] <:+ b.pending := by
  cases passes_step standing step with
  | stays pending => rwa [pending]
  | enters pending =>
    rw [pending]
    exact h.trans (List.suffix_cons _ _)
  | leaves _ pending script other =>
    rw [pending] at h
    rcases List.suffix_cons_iff.1 h with same | h
    · obtain ⟨rfl, -⟩ := List.cons.inj same
      rcases host with host | host <;> contradiction
    · exact h

/-! ## Runs of a host -/

/-- A run from `s` to the present activity, with the activities before it, the latest first. All of
them satisfy `ok`. -/
inductive Run [Host] (ok : Activity → Prop) (s : Activity) : List Activity → Activity → Prop where
  | start : Run ok s [] s
  | move {past : List Activity} {a b : Activity} (run : Run ok s past a) (allowed : ok a)
      (step : a.step = .continue b) : Run ok s (a :: past) b

/-- The machines that a host can have between two runs. It may change them in any way but for calls,
regions and options. -/
inductive Rests [Host] (ok : Activity → Prop) : Machine → Prop where
  | idle {m : Machine} (frames : m.frames = []) (handlers : m.handlers = []) : Rests ok m
  | changed {m m' : Machine} (rests : Rests ok m) (frames : m'.frames = m.frames)
      (handlers : m'.handlers = m.handlers) (config : m'.config = m.config) : Rests ok m'
  | afterScript {m m' : Machine} {p : Proto} {past : List Activity} {a : Activity} {o : Outcome}
      (run : Run ok (m.startScript p) past a) (allowed : ok a) (ended : a.step = .done o m') : Rests ok m'
  | afterCall {m m' : Machine} {callee : Value} {args : List Value} {past : List Activity} {a : Activity}
      {o : Outcome} (rests : Rests ok m) (run : Run ok (m.startCall callee args) past a) (allowed : ok a)
      (ended : a.step = .done o m') : Rests ok m'

/-- A script begins with its own call, or fails for lack of room. -/
theorem startScript_begins (m : Machine) (p : Proto) :
    (m.startScript p).machine.handlers = [] ∧ (m.startScript p).machine.frames.length ≤ m.config.maxFrames ∧
      ((m.startScript p).control = .execute ∨ ∃ e, (m.startScript p).control = .raise e) := by
  rw [startScript_eq]
  have run := run_pushFrame { closure := (m.world.newClosure p).1 } (m.laidOut p)
  split at run
  · rw [run]
    exact ⟨rfl, Nat.zero_le _, .inr ⟨_, rfl⟩⟩
  next room =>
    rw [run]
    exact ⟨rfl, Nat.lt_of_not_le room, .inl rfl⟩

/-- The activities that a run begins with. -/
inductive Starts [Host] (ok : Activity → Prop) : Activity → Prop where
  | script (m : Machine) (p : Proto) : Starts ok (m.startScript p)
  | call {m : Machine} (rests : Rests ok m) (callee : Value) (args : List Value) :
      Starts ok (m.startCall callee args)

variable {ok : Activity → Prop} {s : Activity} {past : List Activity}

/-- Every run begins busy with the entry of the host. -/
theorem Starts.standing [Host] (starts : Starts ok s) : s.Standing := by
  cases starts with
  | script m p => exact standing_startScript m p
  | call rests callee args => exact standing_startCall _ callee args

/-- And goes on busy with the innermost entry. -/
theorem Run.standing [Host] [LawfulHost] (run : Run ok s past a) (standing : s.Standing) : a.Standing := by
  induction run with
  | start => exact standing
  | move run allowed step ih => exact ih.step step

/-- The entry of the host lasts as long as the run. -/
theorem Run.suffix_startCall [Host] [LawfulHost] {m : Machine} {callee : Value} {args : List Value}
    (run : Run ok (m.startCall callee args) past a) : (m.startCall callee args).pending <:+ a.pending := by
  induction run with
  | start => exact List.suffix_refl _
  | move run allowed step ih =>
    exact host_suffix_step (run.standing (standing_startCall m callee args)) (.inr rfl) ih step

/-- Whether the machine goes on after a move. -/
def goesOn : Move → Bool
  | .continue _ => true
  | .done _ _ => false

/-- The machine goes on with the next activity. -/
theorem step_after [Host] {n : Nat} (goes : goesOn (s.after n).step = true) :
    (s.after n).step = .continue (s.after (n + 1)) := by
  rw [after]
  cases step : (s.after n).step with
  | «continue» b => rfl
  | done o m =>
    rw [step] at goes
    cases goes

/-- The next activity has the machine that the move has made. -/
theorem machine_after_succ [Host] {n : Nat} (goes : goesOn (s.after n).step = true) :
    (s.after (n + 1)).machine = (s.after n).step.machine := by
  rw [step_after goes]
  rfl

/-- A number of moves is a run. -/
theorem run_after [Host] {n : Nat} (goes : ∀ k, k < n → goesOn (s.after k).step = true) :
    ∃ past, Run (fun _ => True) s past (s.after n) := by
  induction n with
  | zero => exact ⟨[], .start⟩
  | succ n ih =>
    obtain ⟨past, run⟩ := ih fun k hk => goes k (Nat.lt_succ_of_lt hk)
    exact ⟨_, run.move trivial (step_after (goes n (Nat.lt_succ_self n)))⟩

/-- What every allowed move keeps holds at the end of a run. -/
theorem Run.invariant [Host] [LawfulHost] {P : Machine → Prop} (run : Run ok s past a) (standing : s.Standing)
    (start : P s.machine) (keeps : ∀ {x : Activity}, x.Standing → ok x → P x.machine → P x.step.machine) :
    P a.machine := by
  induction run with
  | start => exact start
  | move run allowed step ih =>
    have kept := keeps (run.standing standing) allowed ih
    rw [step] at kept
    exact kept

/-- What every allowed move keeps, and nothing but calls, regions and options matters for, holds
between runs, if it holds for a machine at rest and at the start of every script. -/
theorem Rests.invariant [Host] [LawfulHost] {P : Machine → Prop} {m : Machine} (rests : Rests ok m)
    (idle : ∀ {m : Machine}, m.frames = [] → m.handlers = [] → P m)
    (same : ∀ {m m' : Machine}, m'.frames = m.frames → m'.handlers = m.handlers → m'.config = m.config →
      P m → P m')
    (script : ∀ m p, P (startScript m p).machine)
    (keeps : ∀ {x : Activity}, x.Standing → ok x → P x.machine → P x.step.machine) : P m := by
  induction rests with
  | idle frames handlers => exact idle frames handlers
  | changed rests frames handlers config ih => exact same frames handlers config ih
  | @afterScript m m' p past a o run allowed ended =>
    have standing := standing_startScript m p
    have kept := keeps (run.standing standing) allowed (run.invariant standing (script m p) keeps)
    rw [ended] at kept
    exact kept
  | @afterCall m m' callee args past a o rests run allowed ended ih =>
    have standing := standing_startCall m callee args
    have kept := keeps (run.standing standing) allowed (run.invariant standing ih keeps)
    rw [ended] at kept
    exact kept

end

end Activity

end ScriptVm
