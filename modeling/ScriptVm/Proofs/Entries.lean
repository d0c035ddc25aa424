import ScriptVm.Proofs.CapturedVariables
import ScriptVm.Proofs.Lockstep

/-!
# Entries into the machine

What one move comes to, for each thing that the machine can be busy with, and how the entries that
have not ended are nested. `Activity.Standing` says that the machine is busy with the innermost
entry; it holds at the start of every run, and every move keeps it. `Activity.Next` and
`Activity.Final` list what a move of such a machine can be, with what it does to the stacks; what moves
keep is proved along these lists.
-/

set_option autoImplicit false

namespace ScriptVm

open Machine Exec Stacks

/-- Whether the native function that made an entry was called by the entry outside, and not by an
instruction. The host has made its entries itself. -/
def Caller.byEntry : Caller → Option Bool
  | .script | .host => none
  | .instruction _ => some false
  | .entry _ => some true
  | .own byEntry _ => some byEntry

/-- An entry that a native function made is not one of the host. -/
theorem Caller.made_of_byEntry {caller : Caller} {b : Bool} (h : caller.byEntry = some b) :
    caller ≠ .script ∧ caller ≠ .host := by
  refine ⟨fun script => ?_, fun host => ?_⟩
  · rw [script] at h
    cases h
  · rw [host] at h
    cases h

/-- The entries under way: the outermost is one of the host, and the others were made by native
functions that an instruction or another entry called. -/
inductive Nested : List Pending → Prop where
  | host {p : Pending} (caller : p.caller = .script ∨ p.caller = .host) : Nested [p]
  | instruction {p q : Pending} {ps : List Pending} (caller : p.caller.byEntry = some false)
      (runBase : p.runBase = q.depths.frames) (deeper : q.depths.frames < p.depths.frames)
      (outer : Nested (q :: ps)) : Nested (p :: q :: ps)
  | entry {p q : Pending} {ps : List Pending} (caller : p.caller.byEntry = some true)
      (level : p.depths.frames = q.depths.frames) (outer : Nested (q :: ps)) (called : q.caller ≠ .script) :
      Nested (p :: q :: ps)

/-- An entry that is not the outermost one was made by a native function. -/
theorem Nested.made {p : Pending} {ps : List Pending} (h : Nested (p :: ps)) (inner : ps ≠ []) :
    p.caller ≠ .script ∧ p.caller ≠ .host := by
  cases h with
  | host caller => exact absurd rfl inner
  | instruction caller => exact Caller.made_of_byEntry caller
  | entry caller => exact Caller.made_of_byEntry caller

/-- An entry that a native function made is not the outermost one. -/
theorem Nested.outer {p : Pending} {ps : List Pending} (h : Nested (p :: ps)) (script : p.caller ≠ .script)
    (host : p.caller ≠ .host) : Nested ps := by
  cases h with
  | host caller => rcases caller with h | h <;> contradiction
  | instruction _ _ _ outer => exact outer
  | entry _ _ outer => exact outer

/-- An entry found no more calls than the one inside it. -/
theorem Nested.level_le {p q : Pending} {ps : List Pending} (h : Nested (p :: ps)) (hq : ps.head? = some q) :
    q.depths.frames ≤ p.depths.frames := by
  cases h with
  | host => cases hq
  | instruction _ _ deeper =>
    rw [List.head?_cons, Option.some.injEq] at hq
    rw [← hq]
    exact Nat.le_of_lt deeper
  | entry _ level =>
    rw [List.head?_cons, Option.some.injEq] at hq
    rw [← hq]
    exact Nat.le_of_eq level.symm

namespace Activity

/-- What the machine is busy with belongs to the innermost entry. -/
def Rooted (a : Activity) : Prop :=
  match a.control with
  | .execute =>
    ∃ p ps, a.pending = p :: ps ∧ p.depths.frames = a.machine.runBase ∧
      a.machine.runBase < a.machine.frames.length
  | .invoke _ _ => ∃ p ps, a.pending = p :: ps ∧ p.caller ≠ .script ∧ p.depths = a.machine.depths
  | .ask true _ => ∃ p ps, a.pending = p :: ps ∧ p.caller ≠ .script ∧ p.depths.frames = a.machine.frames.length
  | .ask false _ =>
    ∃ p ps, a.pending = p :: ps ∧ p.depths.frames = a.machine.runBase ∧
      a.machine.runBase < a.machine.frames.length
  | .deliver _ => ∀ p, a.pending.head? = some p → p.depths.frames = a.machine.frames.length
  | .raise _ => True

/-- The slot that the next instruction writes through a captured variable, with the value. -/
def cellWrite (a : Activity) : Option (Nat × Value) :=
  match a.control, fetch.run a.machine with
  | .execute, .ok i m => m.cellWrite (m.frames.headD default) i
  | _, _ => none

/-! ## Moves -/

/-- What executing an instruction comes to. -/
inductive Executes (pending : List Pending) (i : Instruction) (m : Machine) (f : Frame) (rest : List Frame) :
    Move → Prop where
  | next {m' : Machine} (effect : Effect i m f rest (.ok .next) m'.stacked)
      (run : (execute i).run m = .ok .next m') :
      Executes pending i m f rest (.continue ⟨m', pending, .execute⟩)
  | ends {v : Value} {m' : Machine} (effect : Effect i m f rest (.ok (.returned v)) m'.stacked)
      (run : (execute i).run m = .ok (.returned v) m') :
      Executes pending i m f rest (.continue ⟨m', pending, .deliver v⟩)
  | reenters {r : Reentry} {m' : Machine} (effect : Effect i m f rest (.ok (.reenter r)) m'.stacked)
      (run : (execute i).run m = .ok (.reenter r) m') :
      Executes pending i m f rest (reenter m' pending r false)
  | faults {e : Fault} {m' : Machine} (effect : Effect i m f rest (.error e) m'.stacked)
      (run : (execute i).run m = .error e m') :
      Executes pending i m f rest (onFault e m' pending)

/-- A machine with a call fetches an instruction of that call and executes it. -/
theorem executes_stepExecute (pending : List Pending) {m : Machine} {f : Frame} {rest : List Frame}
    (frames : m.frames = f :: rest) :
    ∃ i m₁ ip, fetch.run m = .ok i m₁ ∧ Stays 0 m.stacked m₁.stacked ∧
      m₁.frames = { f with ip } :: rest ∧
      Executes pending i m₁ { f with ip } rest (stepExecute m pending) := by
  have stays := staying_fetch (m := m)
  unfold Staying at stays
  cases fetched : fetch.run m with
  | error e m₁ =>
    unfold fetch at fetched
    rw [run_bind_of_ok (show frame.run m = .ok (m.frames.headD default) m from rfl),
      run_bind_of_ok (run_get m)] at fetched
    split at fetched <;> cases fetched
  | ok i m₁ =>
    rw [after_of_ok fetched] at stays
    have same := stays.frames
    rw [show m.stacked.frames = f :: rest from frames] at same
    obtain ⟨ip, frames₁⟩ : ∃ ip, m₁.frames = { f with ip } :: rest := by
      generalize hf : m₁.stacked.frames = fs at same
      cases same with
      | cons _ ip _ => exact ⟨ip, hf⟩
    refine ⟨i, m₁, ip, rfl, stays, frames₁, ?_⟩
    have effect := effect_execute i frames₁
    unfold stepExecute
    rw [run_bind_of_ok fetched]
    cases run : (execute i).run m₁ with
    | error e m' =>
      rw [outcome, after, run] at effect
      exact .faults effect run
    | ok p m' =>
      rw [outcome, after, run] at effect
      cases p with
      | next => exact .next effect run
      | returned v => exact .ends effect run
      | reenter r => exact .reenters effect run

/-- What beginning a call comes to. -/
inductive Invokes (pending : List Pending) (m : Machine) : Move → Prop where
  | enters {m' : Machine} {g : Frame} (stays : Stays 0 m.stacked m'.stacked) (frames : m'.frames = m.frames)
      (base : g.base = m.stack.size) (iterBase : g.iterBase = m.iterations.length)
      (captured : m'.captured = m.captured) :
      Invokes pending m
        (.continue ⟨{ m' with frames := g :: m'.frames, runBase := m.frames.length }, pending, .execute⟩)
  | answers {m' : Machine} {v : Value} (stays : Stays 0 m.stacked m'.stacked) (frames : m'.frames = m.frames)
      (captured : m'.captured = m.captured) :
      Invokes pending m (.continue ⟨m', pending, .deliver v⟩)
  | reenters {m' : Machine} {r : Reentry} (stays : Stays 0 m.stacked m'.stacked)
      (frames : m'.frames = m.frames) (captured : m'.captured = m.captured) :
      Invokes pending m (reenter m' pending r true)
  | faults {m' : Machine} {e : Fault} (stays : Stays 0 m.stacked m'.stacked) (frames : m'.frames = m.frames)
      (captured : m'.captured = m.captured) :
      Invokes pending m (onFault e m' pending)

/-- A call from outside gets a frame, is answered without one, enters the machine again, or fails. -/
theorem invokes_stepInvoke (pending : List Pending) (m : Machine) (callee : Value) (args : List Value) :
    Invokes pending m (stepInvoke m pending callee args) := by
  unfold stepInvoke
  simp only
  by_cases many : maxArguments < args.length
  · have run : (beginCall callee args).run m =
        .error (.error ⟨.tooManyArguments args.length, m.span⟩) m := by
      rw [beginCall, if_pos many]
      rfl
    rw [run]
    exact .faults (.refl 0 _) rfl rfl
  · have run : (beginCall callee args).run m =
        (call args.length).run { m with stack := m.stack.push callee ++ args.toArray } := by
      rw [beginCall, if_neg many]
      rfl
    rw [run]
    have before : ({ m with stack := m.stack.push callee ++ args.toArray } : Machine).stacked =
        { m.stacked with values := m.stack.push callee ++ args.toArray } := rfl
    have same : ({ m with stack := m.stack.push callee ++ args.toArray } : Machine).captured = m.captured := rfl
    generalize ({ m with stack := m.stack.push callee ++ args.toArray } : Machine) = m₁ at before same
    have values : m₁.stack = m.stack.push callee ++ args.toArray := congrArg Stacks.values before
    have frames : m₁.frames = m.frames := congrArg Stacks.frames before
    have size : m₁.stack.size = m.stack.size + 1 + args.length := by
      simp only [values, Array.size_append, Array.size_push, List.size_toArray]
    have below : ∀ i, i < m.stack.size → m₁.stack[i]? = m.stack[i]? := fun i hi => by
      rw [values, Array.getElem?_append, if_pos (by rw [Array.size_push]; omega), Array.getElem?_push,
        if_neg (by omega)]
    have stays : ∀ m', Keeps (args.length + 1) m₁ m' → Stays 0 m.stacked m'.stacked := fun m' keeps => by
      have stays := keeps.stays
      rw [before] at stays
      have size' := keeps.size
      refine ⟨stays.frames, stays.handlers, stays.iterations, stays.runBase, ?_, fun i hi => ?_⟩
      · show m.stack.size ≤ m'.stack.size
        omega
      · have hi : i < m.stack.size := hi
        exact (keeps.slots i (by omega)).trans (below i hi)
    rcases (calling_call (b := true) (m := m₁) args.length).cases with
      ⟨keeps, leaves⟩ | ⟨m', g, keeps, called, base, iterBase⟩
    · cases called : (call args.length).run m₁ with
      | error e m' =>
        rw [after_of_error called] at keeps
        exact .faults (stays m' keeps) (keeps.frames.trans frames) (keeps.captured.trans same)
      | ok r m' =>
        rw [after_of_ok called] at keeps leaves
        cases r with
        | some r => exact .reenters (stays m' keeps) (keeps.frames.trans frames) (keeps.captured.trans same)
        | none =>
          simp only
          rw [if_neg (by rw [keeps.frames, frames]; exact Nat.lt_irrefl _)]
          -- the result is on top of what was there before
          have left := leaves (outcome_of_ok called)
          have stays := stays m' keeps
          refine .answers ?_ (keeps.frames.trans frames) (keeps.captured.trans same)
          refine { stays with size := ?_, values := fun i hi => ?_ }
          · show m.stack.size ≤ m'.stack.pop.size
            rw [Array.size_pop]
            omega
          · have lt : i < m.stack.size := hi
            refine Eq.trans ?_ (stays.values i hi)
            show m'.stack.pop[i]? = m'.stack[i]?
            rw [Array.getElem?_pop, if_pos (by omega)]
    · rw [called]
      simp only
      rw [if_pos (by rw [List.length_cons, keeps.frames, frames]; exact Nat.lt_succ_self _)]
      refine .enters (stays m' keeps) (keeps.frames.trans frames) ?_ ?_ (keeps.captured.trans same)
      · rw [base]
        omega
      · rw [iterBase, keeps.iterations]
        exact congrArg (fun s : Stacks => s.iterations.length) before

/-- What handing over a result comes to. -/
inductive Delivers (p : Pending) (ps : List Pending) (m : Machine) (v : Value) : Move → Prop where
  | answers {m' : Machine} (frames : m'.frames = m.frames) (handlers : m'.handlers = m.handlers)
      (captured : m'.captured = m.captured) : Delivers p ps m v (.done (.value v) m')
  | resumes (script : p.caller ≠ .script) (host : p.caller ≠ .host) :
      Delivers p ps m v (resume { m with runBase := p.runBase } ps p.caller v)

/-- A result goes to the host or to a native function. -/
theorem delivers_stepDeliver (p : Pending) (ps : List Pending) (m : Machine) (v : Value) :
    Delivers p ps m v (stepDeliver m (p :: ps) v) := by
  unfold stepDeliver
  simp only
  split
  · exact .answers rfl rfl rfl
  · exact .answers rfl rfl rfl
  next c caller => exact .resumes (by simp [caller]) (by simp [caller])
  next c caller => exact .resumes (by simp [caller]) (by simp [caller])
  next byEntry c caller => exact .resumes (by simp [caller]) (by simp [caller])

/-- The machine when an error has reached the entry `p`. -/
def unwound (m : Machine) (p : Pending) (e : RuntimeError) : Machine :=
  (Machine.recordError { m with runBase := p.runBase } e).unwindTo p.depths

/-- What an error comes to when it reaches the entry `p`. -/
inductive Raises (p : Pending) (ps : List Pending) (m : Machine) (e : RuntimeError) : Move → Prop where
  | drops (caller : p.caller = .script) :
      Raises p ps m e (.done (.error e) (Machine.recordError { m with runBase := p.runBase } e).reset)
  | answers (caller : p.caller = .host) : Raises p ps m e (.done (.error e) (unwound m p e))
  | resumes {m' : Machine} {v : Value} (script : p.caller ≠ .script) (host : p.caller ≠ .host)
      (stacked : m'.stacked = (unwound m p e).stacked) (captured : m'.captured = (unwound m p e).captured) :
      Raises p ps m e (resume m' ps p.caller v)
  | rethrows {m' : Machine} {e' : RuntimeError} (script : p.caller ≠ .script) (host : p.caller ≠ .host)
      (stacked : m'.stacked = (unwound m p e).stacked) (captured : m'.captured = (unwound m p e).captured) :
      Raises p ps m e (.continue ⟨m', ps, .raise e'⟩)
  | informs {byEntry : Bool} {c c' : HostCall} (caller : p.caller = .own byEntry c) :
      Raises p ps m e (.continue ⟨unwound m p e, ps, .ask byEntry c'⟩)

/-- An error drops the script, goes to the host, or to a native function that may deal with it. -/
theorem raises_stepRaise (p : Pending) (ps : List Pending) (m : Machine) (e : RuntimeError) :
    Raises p ps m e (stepRaise m (p :: ps) e) := by
  have recovered : ∀ c, p.caller ≠ .script → p.caller ≠ .host →
      Raises p ps m e (stepCallbackError { m with runBase := p.runBase } ps p c e) := by
    intro c script host
    unfold stepCallbackError
    cases c with
    | apply => exact .rethrows script host rfl rfl
    | attempt => exact .resumes script host rfl rfl
    | callName => exact .resumes script host rfl rfl
  unfold stepRaise
  simp only
  split
  next caller => exact .drops caller
  next caller => exact .answers caller
  next c caller => exact recovered c (by simp [caller]) (by simp [caller])
  next c caller => exact recovered c (by simp [caller]) (by simp [caller])
  next byEntry c caller => exact .informs caller

/-- Entering again changes nothing by itself. -/
theorem machine_reenter (m : Machine) (ps : List Pending) (r : Reentry) (byEntry : Bool) :
    (reenter m ps r byEntry).machine = m := by
  cases r <;> rfl

/-- Going on changes neither calls nor regions. -/
theorem machine_resume (m : Machine) (ps : List Pending) (caller : Caller) (v : Value) :
    (resume m ps caller v).machine.frames = m.frames ∧ (resume m ps caller v).machine.handlers = m.handlers := by
  cases caller <;> exact ⟨rfl, rfl⟩

/-- The value of a native function goes on top of the stack, or nowhere. -/
theorem stacked_resume (m : Machine) (ps : List Pending) (caller : Caller) (v : Value) :
    (resume m ps caller v).machine.stacked = m.stacked ∨
      (resume m ps caller v).machine.stacked = m.stacked.push v := by
  cases caller with
  | instruction => exact .inr rfl
  | _ => exact .inl rfl

/-- Handing an error over changes neither calls nor regions. -/
theorem machine_onFault (e : Fault) (m : Machine) (ps : List Pending) :
    (onFault e m ps).machine.frames = m.frames ∧ (onFault e m ps).machine.handlers = m.handlers := by
  cases e <;> exact ⟨rfl, rfl⟩

/-! ## Being busy with the innermost entry -/

/-- The entries are nested, and the machine is busy with the innermost one. -/
structure Standing (a : Activity) : Prop where
  nested : Nested a.pending
  rooted : a.Rooted
  depth : ∀ p, a.pending.head? = some p → p.depths.frames ≤ a.machine.frames.length

/-- An entry that is about to call was made at the present depth. -/
theorem Standing.invoking {a : Activity} {callee : Value} {args : List Value} (standing : a.Standing)
    (control : a.control = .invoke callee args) :
    ∃ p ps, a.pending = p :: ps ∧ p.caller ≠ .script ∧ p.depths.frames = a.machine.frames.length := by
  have rooted := standing.rooted
  rw [Rooted, control] at rooted
  obtain ⟨p, ps, pending, called, depths⟩ := rooted
  exact ⟨p, ps, pending, called, congrArg Depths.frames depths⟩

/-- What the machine is busy with after an instruction, unless the instruction enters the machine again or
ends all entries. -/
inductive Leads : Except Fault Progress → Control → Prop where
  | next : Leads (.ok .next) .execute
  | returned {v : Value} : Leads (.ok (.returned v)) (.deliver v)
  | asked {c : HostCall} : Leads (.ok (.reenter (.own c))) (.ask false c)
  | failed {e : RuntimeError} : Leads (.error (.error e)) (.raise e)

/-- What a call from outside that gets no frame leads to, unless it enters the machine again. -/
inductive Answers : Control → Prop where
  | value {v : Value} : Answers (.deliver v)
  | asked {c : HostCall} : Answers (.ask true c)
  | failed {e : RuntimeError} : Answers (.raise e)

/-- A native function returns: its value goes to the instruction that called it, or to the entry around. -/
inductive Completed (m : Machine) (ps : List Pending) (v : Value) : Bool → Activity → Prop where
  | instruction : Completed m ps v false ⟨{ m with stack := m.stack.push v }, ps, .execute⟩
  | entry : Completed m ps v true ⟨m, ps, .deliver v⟩

/-- When an entry has ended, the native function that made it returns, or the host is asked about it. -/
inductive Resumed (m : Machine) (ps : List Pending) (caller : Caller) : Activity → Prop where
  | returns {byEntry : Bool} {v : Value} {b : Activity} (called : caller.byEntry = some byEntry)
      (completed : Completed m ps v byEntry b) : Resumed m ps caller b
  | asks {byEntry : Bool} {c c' : HostCall} (called : caller = .own byEntry c) :
      Resumed m ps caller ⟨m, ps, .ask byEntry c'⟩

/-- What returning comes to. -/
theorem completed_of_complete {m : Machine} {ps : List Pending} {byEntry : Bool} {v : Value} {b : Activity}
    (move : complete m ps byEntry v = .continue b) : Completed m ps v byEntry b := by
  cases byEntry with
  | false =>
    cases move
    exact .instruction
  | true =>
    cases move
    exact .entry

/-- What going on comes to, when the entry was not one of the host. -/
theorem resumed_of_resume {m : Machine} {ps : List Pending} {caller : Caller} {v : Value} {b : Activity}
    (script : caller ≠ .script) (host : caller ≠ .host) (move : resume m ps caller v = .continue b) :
    Resumed m ps caller b := by
  cases caller with
  | script => exact absurd rfl script
  | host => exact absurd rfl host
  | instruction c => exact .returns rfl (completed_of_complete move)
  | entry c => exact .returns rfl (completed_of_complete move)
  | own byEntry c =>
    cases move
    exact .asks rfl

theorem resume_ne_done {m m' : Machine} {ps : List Pending} {caller : Caller} {v : Value} {o : Outcome} :
    resume m ps caller v ≠ .done o m' := by
  cases caller <;> exact nofun

theorem complete_ne_done {m m' : Machine} {ps : List Pending} {byEntry : Bool} {v : Value} {o : Outcome} :
    complete m ps byEntry v ≠ .done o m' := by
  cases byEntry <;> exact nofun

section

variable {m : Machine} {ps : List Pending} {caller : Caller} {v : Value} {byEntry : Bool} {b : Activity}

/-- An entry after whose end a native function goes on was made by that function. -/
theorem Resumed.made (resumed : Resumed m ps caller b) : caller ≠ .script ∧ caller ≠ .host := by
  cases resumed with
  | returns called => exact Caller.made_of_byEntry called
  | asks called => exact Caller.made_of_byEntry (congrArg Caller.byEntry called)

theorem Completed.pending (completed : Completed m ps v byEntry b) : b.pending = ps := by
  cases completed <;> rfl

theorem Resumed.pending (resumed : Resumed m ps caller b) : b.pending = ps := by
  cases resumed with
  | returns _ completed => exact completed.pending
  | asks => rfl

theorem Completed.frames (completed : Completed m ps v byEntry b) : b.machine.frames = m.frames := by
  cases completed <;> rfl

theorem Resumed.frames (resumed : Resumed m ps caller b) : b.machine.frames = m.frames := by
  cases resumed with
  | returns _ completed => exact completed.frames
  | asks => rfl

end

theorem cellWrite_of_ne {a : Activity} (h : a.control ≠ .execute) : a.cellWrite = none := by
  unfold cellWrite
  split
  next control _ => exact absurd control h
  next => rfl

/-- An error that reaches an entry cuts every stack back to the depth that the entry found. -/
theorem stacked_unwound_eq (m : Machine) (p : Pending) (e : RuntimeError) :
    (unwound m p e).stacked =
      { values := m.stack.shrink p.depths.stack
        frames := truncated m.frames p.depths.frames
        handlers := truncated m.handlers p.depths.handlers
        iterations := truncated m.iterations p.depths.iterations
        runBase := p.runBase } :=
  stacked_unwindTo _ _

/-- The calls that the entry found are left. -/
theorem frames_unwound (m : Machine) (p : Pending) (e : RuntimeError) :
    (unwound m p e).frames = truncated m.frames p.depths.frames :=
  congrArg Stacks.frames (stacked_unwound_eq m p e)

/-- The regions that the entry found are left. -/
theorem handlers_unwound (m : Machine) (p : Pending) (e : RuntimeError) :
    (unwound m p e).handlers = truncated m.handlers p.depths.handlers :=
  congrArg Stacks.handlers (stacked_unwound_eq m p e)

/-- A native function that an instruction or the innermost entry called enters the machine again. -/
theorem Standing.enter {m : Machine} {ps : List Pending} {byEntry : Bool} {c : HostCall}
    (standing : Standing ⟨m, ps, .ask byEntry c⟩) {caller : Caller} (called : caller.byEntry = some byEntry)
    (callee : Value) (args : List Value) :
    Standing ⟨m, ⟨caller, m.depths, m.runBase⟩ :: ps, .invoke callee args⟩ := by
  have nested := standing.nested
  have rooted := standing.rooted
  refine ⟨?_, ⟨_, _, rfl, (Caller.made_of_byEntry called).1, rfl⟩, fun q hq => ?_⟩
  · cases byEntry with
    | false =>
      obtain ⟨p, ps, rfl, runBase, inside⟩ := rooted
      refine .instruction called runBase.symm ?_ nested
      rw [runBase]
      exact inside
    | true =>
      obtain ⟨p, ps, rfl, script, level⟩ := rooted
      exact .entry called level.symm nested script
  · cases hq
    exact Nat.le_refl _

/-- It returns. -/
theorem Completed.standing {m : Machine} {ps : List Pending} {byEntry : Bool} {c : HostCall} {v : Value} {b : Activity}
    (completed : Completed m ps v byEntry b) (standing : Standing ⟨m, ps, .ask byEntry c⟩) : b.Standing := by
  have nested := standing.nested
  have rooted := standing.rooted
  cases completed with
  | instruction => exact ⟨nested, rooted, standing.depth⟩
  | entry =>
    obtain ⟨p, ps, rfl, script, level⟩ := rooted
    refine ⟨nested, fun q hq => ?_, standing.depth⟩
    cases hq
    exact level

/-- The host is asked about a function whose entry has ended. -/
theorem standing_of_nested {p : Pending} {ps : List Pending} {m : Machine} {byEntry : Bool} (nested : Nested (p :: ps))
    (called : p.caller.byEntry = some byEntry) (runBase : m.runBase = p.runBase)
    (level : p.depths.frames = m.frames.length) (c : HostCall) : Standing ⟨m, ps, .ask byEntry c⟩ := by
  have made := Caller.made_of_byEntry called
  refine ⟨nested.outer made.1 made.2, ?_, fun q hq => ?_⟩
  · cases nested with
    | host host => rcases host with h | h <;> simp [h] at made
    | @instruction _ q ps called' base deeper outer =>
      cases called.symm.trans called'
      refine ⟨q, ps, rfl, (base ▸ runBase).symm, ?_⟩
      show m.runBase < m.frames.length
      omega
    | @entry _ q ps called' same outer script =>
      cases called.symm.trans called'
      exact ⟨q, ps, rfl, script, same.symm.trans level⟩
  · have := nested.level_le hq
    show _ ≤ m.frames.length
    omega

/-- When an entry has ended, the native function that made it goes on. -/
theorem Resumed.standing {p : Pending} {ps : List Pending} {m : Machine} {b : Activity}
    (resumed : Resumed m ps p.caller b) (nested : Nested (p :: ps)) (runBase : m.runBase = p.runBase)
    (level : p.depths.frames = m.frames.length) : b.Standing := by
  cases resumed with
  | returns called completed => exact completed.standing (standing_of_nested nested called runBase level default)
  | asks called => exact standing_of_nested nested (congrArg Caller.byEntry called) runBase level _

/-- There are as many calls as the entry found. -/
theorem length_frames_unwound {m : Machine} {p : Pending} (e : RuntimeError)
    (depth : p.depths.frames ≤ m.frames.length) : (unwound m p e).stacked.frames.length = p.depths.frames := by
  rw [stacked_unwound_eq, length_truncated]
  omega

/-- A call from outside that gets no frame leaves the machine in the entry that it was in. -/
theorem Standing.asking {a : Activity} {callee : Value} {args : List Value} {m : Machine} (standing : a.Standing)
    (control : a.control = .invoke callee args) (frames : m.frames = a.machine.frames) (c : HostCall) :
    Standing ⟨m, a.pending, .ask true c⟩ := by
  obtain ⟨p, ps, pending, called, level⟩ := standing.invoking control
  refine ⟨standing.nested, ⟨p, ps, pending, called, ?_⟩, fun q hq => ?_⟩
  · rw [level, ← frames]
  · show _ ≤ m.frames.length
    rw [frames]
    exact standing.depth q hq

/-- An error can be handed to the innermost entry at any time. -/
theorem Standing.raising {a : Activity} (standing : a.Standing) (e : RuntimeError) :
    Standing ⟨a.machine, a.pending, .raise e⟩ := ⟨standing.nested, trivial, standing.depth⟩

/-- The functions of a host reach calls, regions, iterations and the stack of a machine only by calling
values and globals. -/
class LawfulHost [Host] : Prop where
  stacked (c : HostCall) (m : Machine) : (Host.act c m).2.stacked = m.stacked
  config (c : HostCall) (m : Machine) : (Host.act c m).2.config = m.config

instance : LawfulHost := ⟨fun _ _ => rfl, fun _ _ => rfl⟩

section

variable [Host]

/-- What a move of a function of the host's own leaves alone: stacks and options, and captured variables
unless the host changes them. -/
structure Acted (c : HostCall) (m m' : Machine) : Prop where
  stacked : m'.stacked = m.stacked
  config : m'.config = m.config
  captured : (Host.act c m).2.captured = m.captured → m'.captured = m.captured

/-- A function of the host's own fails, or is told that there is no such global. -/
inductive Told (byEntry : Bool) : Control → Prop where
  | failed {e : RuntimeError} : Told byEntry (.raise e)
  | missing {c : HostCall} : Told byEntry (.ask byEntry c)

/-- What the next move of a function of the host's own comes to. -/
inductive Acts (pending : List Pending) (m : Machine) (byEntry : Bool) (c : HostCall) : Move → Prop where
  | completes {m' : Machine} {v : Value} (acted : Acted c m m') :
      Acts pending m byEntry c (complete m' pending byEntry v)
  | calls {m' : Machine} {callee : Value} {args : List Value} (acted : Acted c m m') :
      Acts pending m byEntry c (enter m' pending (.own byEntry c) callee args)
  | tells {m' : Machine} {k : Control} (acted : Acted c m m') (told : Told byEntry k) :
      Acts pending m byEntry c (.continue ⟨m', pending, k⟩)

/-- A lawful host returns, calls, fails, or is told that a global is missing. -/
theorem acts_stepAsk [LawfulHost] (pending : List Pending) (m : Machine) (byEntry : Bool) (c : HostCall) :
    Acts pending m byEntry c (stepAsk m pending byEntry c) := by
  have acted : Acted c m (Host.act c m).2 := ⟨LawfulHost.stacked c m, LawfulHost.config c m, id⟩
  unfold stepAsk
  generalize Host.act c m = move at acted
  obtain ⟨next, m'⟩ := move
  cases next with
  | value v => exact .completes acted
  | fail e => exact .tells acted .failed
  | callValue callee args => exact .calls acted
  | callGlobal name args =>
    dsimp only
    split
    · exact .calls acted
    · exact .tells ⟨acted.stacked, acted.config, acted.captured⟩ .missing

theorem step_of_execute {a : Activity} (control : a.control = .execute) :
    a.step = stepExecute a.machine a.pending := by
  rw [Activity.step, control]

theorem step_of_invoke {a : Activity} {callee : Value} {args : List Value}
    (control : a.control = .invoke callee args) : a.step = stepInvoke a.machine a.pending callee args := by
  rw [Activity.step, control]

/-- What beginning the call of the innermost entry comes to. -/
theorem invokes_step {a : Activity} {callee : Value} {args : List Value} (control : a.control = .invoke callee args) :
    Invokes a.pending a.machine a.step := by
  rw [step_of_invoke control]
  exact invokes_stepInvoke a.pending a.machine callee args

/-- What asking the host comes to. -/
theorem acts_step [LawfulHost] {a : Activity} {byEntry : Bool} {c : HostCall} (control : a.control = .ask byEntry c) :
    Acts a.pending a.machine byEntry c a.step := by
  rw [Activity.step, control]
  exact acts_stepAsk a.pending a.machine byEntry c

/-- Asking the host changes nothing about the calls, regions and runs. -/
theorem ask_step [LawfulHost] {a : Activity} {byEntry : Bool} {c : HostCall} (control : a.control = .ask byEntry c) :
    a.step.machine.frames = a.machine.frames ∧ a.step.machine.handlers = a.machine.handlers ∧
      a.step.machine.runBase = a.machine.runBase ∧ a.step.machine.config = a.machine.config := by
  have same : ∀ {m : Machine}, Acted c a.machine m → m.frames = a.machine.frames ∧ m.handlers = a.machine.handlers ∧
      m.runBase = a.machine.runBase ∧ m.config = a.machine.config := fun acted =>
    ⟨congrArg Stacks.frames acted.stacked, congrArg Stacks.handlers acted.stacked,
      congrArg Stacks.runBase acted.stacked, acted.config⟩
  have acts := acts_step control
  generalize a.step = move at acts
  cases acts with
  | completes acted =>
    have kept := same acted
    cases byEntry <;> exact kept
  | calls acted => exact same acted
  | tells acted => exact same acted

/-- What handing a result to the innermost entry comes to. -/
theorem delivers_step {a : Activity} {v : Value} {p : Pending} {ps : List Pending} (control : a.control = .deliver v)
    (pending : a.pending = p :: ps) : Delivers p ps a.machine v a.step := by
  rw [Activity.step, control, pending]
  exact delivers_stepDeliver p ps a.machine v

/-- What handing an error to the innermost entry comes to. -/
theorem raises_step {a : Activity} {e : RuntimeError} {p : Pending} {ps : List Pending}
    (control : a.control = .raise e) (pending : a.pending = p :: ps) : Raises p ps a.machine e a.step := by
  rw [Activity.step, control, pending]
  exact raises_stepRaise p ps a.machine e

/-- An activity about to execute instruction `i` of call `f`. The machine has fetched it already. -/
structure Executing (a : Activity) (p : Pending) (i : Instruction) (m : Machine) (f : Frame)
    (rest : List Frame) : Prop where
  innermost : a.pending.head? = some p
  fetched : fetch.run a.machine = .ok i m
  stays : Stays 0 a.machine.stacked m.stacked
  frames : m.frames = f :: rest
  runBase : p.depths.frames = m.runBase
  inside : m.runBase < m.frames.length
  write : a.cellWrite = m.cellWrite f i
  executes : Executes a.pending i m f rest a.step

/-- A machine that executes has a call of its own run, and so an instruction to fetch. -/
theorem Standing.executing {a : Activity} (standing : a.Standing) (control : a.control = .execute) :
    ∃ p i m f rest, Executing a p i m f rest := by
  have rooted := standing.rooted
  rw [Rooted, control] at rooted
  obtain ⟨p, ps, pending, runBase, inside⟩ := rooted
  cases frames : a.machine.frames with
  | nil =>
    rw [frames, List.length_nil] at inside
    omega
  | cons f rest =>
    obtain ⟨i, m, ip, fetched, stays, frames', executes⟩ := executes_stepExecute a.pending frames
    have same : m.runBase = a.machine.runBase := stays.runBase
    refine ⟨p, i, m, _, rest, by rw [pending, List.head?_cons], fetched, stays, frames', ?_, ?_, ?_, ?_⟩
    · rw [runBase, same]
    · rw [same, frames', List.length_cons]
      rw [frames, List.length_cons] at inside
      exact inside
    · rw [cellWrite, control, fetched]
      simp only
      rw [frames', List.headD_cons]
    · rw [step, control]
      exact executes

/-! ## Going on and ending -/

/-- How the machine goes on from `a`. -/
inductive Next (a : Activity) : Activity → Prop where
  /-- An instruction is followed by the next one, hands over the result of the run, or fails. -/
  | executed {p : Pending} {i : Instruction} {m m' : Machine} {f : Frame} {rest : List Frame}
      {out : Except Fault Progress} {c : Control} (control : a.control = .execute)
      (executing : Executing a p i m f rest) (effect : Effect i m f rest out m'.stacked)
      (after : (execute i).after m = m') (leads : Leads out c) : Next a ⟨m', a.pending, c⟩
  /-- An instruction calls a native function that enters the machine again. -/
  | called {p : Pending} {i : Instruction} {m m' : Machine} {f : Frame} {rest : List Frame} {callback : Callback}
      {callee : Value} {args : List Value} (control : a.control = .execute) (executing : Executing a p i m f rest)
      (effect : Effect i m f rest (.ok (.reenter (.call callback callee args))) m'.stacked)
      (after : (execute i).after m = m') :
      Next a ⟨m', ⟨.instruction callback, m'.depths, m'.runBase⟩ :: a.pending, .invoke callee args⟩
  /-- The innermost entry begins its call. -/
  | entered {callee : Value} {args : List Value} {m : Machine} {g : Frame} (control : a.control = .invoke callee args)
      (stays : Stays 0 a.machine.stacked m.stacked) (frames : m.frames = a.machine.frames)
      (base : g.base = a.machine.stack.size) (iterBase : g.iterBase = a.machine.iterations.length)
      (captured : m.captured = a.machine.captured) :
      Next a ⟨{ m with frames := g :: m.frames, runBase := a.machine.frames.length }, a.pending, .execute⟩
  /-- Its callee needs no call, or the call fails. -/
  | answered {callee : Value} {args : List Value} {m : Machine} {c : Control}
      (control : a.control = .invoke callee args) (stays : Stays 0 a.machine.stacked m.stacked)
      (frames : m.frames = a.machine.frames) (captured : m.captured = a.machine.captured) (answers : Answers c) :
      Next a ⟨m, a.pending, c⟩
  /-- Its callee is a native function that enters the machine again. -/
  | reentered {callee callee' : Value} {args args' : List Value} {m : Machine} {callback : Callback}
      (control : a.control = .invoke callee args) (stays : Stays 0 a.machine.stacked m.stacked)
      (frames : m.frames = a.machine.frames) (captured : m.captured = a.machine.captured) :
      Next a ⟨m, ⟨.entry callback, m.depths, m.runBase⟩ :: a.pending, .invoke callee' args'⟩
  /-- A function of the host's own returns. -/
  | completed {byEntry : Bool} {c : HostCall} {m : Machine} {v : Value} {b : Activity}
      (control : a.control = .ask byEntry c) (acted : Acted c a.machine m)
      (completed : Completed m a.pending v byEntry b) : Next a b
  /-- A function of the host's own enters the machine again. -/
  | calledBack {byEntry : Bool} {c : HostCall} {m : Machine} {callee : Value} {args : List Value}
      (control : a.control = .ask byEntry c) (acted : Acted c a.machine m) :
      Next a ⟨m, ⟨.own byEntry c, m.depths, m.runBase⟩ :: a.pending, .invoke callee args⟩
  /-- A function of the host's own fails, or calls what is not there. -/
  | told {byEntry : Bool} {c : HostCall} {m : Machine} {k : Control} (control : a.control = .ask byEntry c)
      (acted : Acted c a.machine m) (told : Told byEntry k) : Next a ⟨m, a.pending, k⟩
  /-- The innermost entry ends with a result. -/
  | delivered {v : Value} {p : Pending} {ps : List Pending} {b : Activity} (control : a.control = .deliver v)
      (pending : a.pending = p :: ps)
      (resumed : Resumed { a.machine with runBase := p.runBase } ps p.caller b) : Next a b
  /-- It ends with an error, and the native function that made it goes on. -/
  | recovered {e : RuntimeError} {p : Pending} {ps : List Pending} {m : Machine} {b : Activity}
      (control : a.control = .raise e) (pending : a.pending = p :: ps)
      (stacked : m.stacked = (unwound a.machine p e).stacked)
      (captured : m.captured = (unwound a.machine p e).captured) (resumed : Resumed m ps p.caller b) : Next a b
  /-- It ends with an error, and the native function that made it fails. -/
  | rethrown {e e' : RuntimeError} {p : Pending} {ps : List Pending} {m : Machine} (control : a.control = .raise e)
      (pending : a.pending = p :: ps) (script : p.caller ≠ .script) (host : p.caller ≠ .host)
      (stacked : m.stacked = (unwound a.machine p e).stacked)
      (captured : m.captured = (unwound a.machine p e).captured) : Next a ⟨m, ps, .raise e'⟩

/-- How the host gets its answer. -/
inductive Final (a : Activity) : Outcome → Machine → Prop where
  | missing {p : Pending} {i : Instruction} {m m' : Machine} {f : Frame} {rest : List Frame}
      (control : a.control = .execute) (executing : Executing a p i m f rest)
      (effect : Effect i m f rest (.error .missingConstant) m'.stacked) :
      Final a .missingConstant { m' with runBase := outerBase m' a.pending }
  | missingCall {callee : Value} {args : List Value} {m : Machine} (control : a.control = .invoke callee args)
      (stays : Stays 0 a.machine.stacked m.stacked) :
      Final a .missingConstant { m with runBase := outerBase m a.pending }
  | delivered {v : Value} {p : Pending} {ps : List Pending} {m : Machine} (control : a.control = .deliver v)
      (pending : a.pending = p :: ps) (caller : p.caller = .script ∨ p.caller = .host)
      (frames : m.frames = a.machine.frames) (handlers : m.handlers = a.machine.handlers)
      (captured : m.captured = a.machine.captured) : Final a (.value v) m
  | dropped {e : RuntimeError} {p : Pending} {ps : List Pending} (control : a.control = .raise e)
      (pending : a.pending = p :: ps) (caller : p.caller = .script) :
      Final a (.error e) (Machine.recordError { a.machine with runBase := p.runBase } e).reset
  | failed {e : RuntimeError} {p : Pending} {ps : List Pending} (control : a.control = .raise e)
      (pending : a.pending = p :: ps) (caller : p.caller = .host) : Final a (.error e) (unwound a.machine p e)

/-- A move that executes an instruction and goes on is one of these. -/
theorem Standing.next_of_execute [LawfulHost] {a b : Activity} (standing : a.Standing)
    (control : a.control = .execute) (step : a.step = .continue b) : a.Next b := by
  obtain ⟨p, i, m, f, rest, executing⟩ := standing.executing control
  have executes := executing.executes
  rw [step] at executes
  generalize move : Move.continue b = c at executes
  cases executes with
  | next effect run =>
    cases move
    exact .executed control executing effect (after_of_ok run) .next
  | ends effect run =>
    cases move
    exact .executed control executing effect (after_of_ok run) .returned
  | @reenters r m' effect run =>
    cases r with
    | call callback callee args =>
      cases move
      exact .called control executing effect (after_of_ok run)
    | own c =>
      cases move
      exact .executed control executing effect (after_of_ok run) .asked
  | @faults e m' effect run =>
    cases e with
    | missingConstant => cases move
    | error e =>
      cases move
      exact .executed control executing effect (after_of_error run) .failed

/-- A call that begins and goes on is one of these moves. -/
theorem next_of_invoke [LawfulHost] {a b : Activity} {callee : Value} {args : List Value}
    (control : a.control = .invoke callee args) (step : a.step = .continue b) : a.Next b := by
  have invokes := invokes_step control
  rw [step] at invokes
  generalize move : Move.continue b = c at invokes
  cases invokes with
  | enters stays frames base iterBase captured =>
    cases move
    exact .entered control stays frames base iterBase captured
  | @answers m' v stays frames captured =>
    cases move
    exact .answered control stays frames captured .value
  | @reenters m' r stays frames captured =>
    cases r with
    | call callback callee' args' =>
      cases move
      exact .reentered control stays frames captured
    | own c =>
      cases move
      exact .answered control stays frames captured .asked
  | @faults m' e stays frames captured =>
    cases e with
    | missingConstant => cases move
    | error e =>
      cases move
      exact .answered control stays frames captured .failed

/-- What the host is asked to do and goes on from is one of these moves. -/
theorem next_of_ask [LawfulHost] {a b : Activity} {byEntry : Bool} {c : HostCall}
    (control : a.control = .ask byEntry c) (step : a.step = .continue b) : a.Next b := by
  have acts := acts_step control
  rw [step] at acts
  generalize move : Move.continue b = d at acts
  cases acts with
  | completes acted => exact .completed control acted (completed_of_complete move.symm)
  | calls acted =>
    cases move
    exact .calledBack control acted
  | tells acted told =>
    cases move
    exact .told control acted told

/-- A value that is delivered without ending the run is one of these moves. -/
theorem Standing.next_of_deliver [LawfulHost] {a b : Activity} {v : Value} (standing : a.Standing)
    (control : a.control = .deliver v) (step : a.step = .continue b) : a.Next b := by
  cases pending : a.pending with
  | nil => cases pending ▸ standing.nested
  | cons p ps =>
    have delivers := delivers_step control pending
    rw [step] at delivers
    generalize move : Move.continue b = c at delivers
    cases delivers with
    | answers => cases move
    | resumes script host => exact .delivered control pending (resumed_of_resume script host move.symm)

/-- An error that is raised without ending the run is one of these moves. -/
theorem Standing.next_of_raise [LawfulHost] {a b : Activity} {e : RuntimeError} (standing : a.Standing)
    (control : a.control = .raise e) (step : a.step = .continue b) : a.Next b := by
  cases pending : a.pending with
  | nil => cases pending ▸ standing.nested
  | cons p ps =>
    have raises := raises_step control pending
    rw [step] at raises
    generalize move : Move.continue b = c at raises
    cases raises with
    | drops => cases move
    | answers => cases move
    | resumes script host stacked captured =>
      exact .recovered control pending stacked captured (resumed_of_resume script host move.symm)
    | rethrows script host stacked captured =>
      cases move
      exact .rethrown control pending script host stacked captured
    | informs caller =>
      cases move
      exact .recovered control pending rfl rfl (.asks caller)

/-- Every move that goes on is one of these. -/
theorem Standing.next [LawfulHost] {a b : Activity} (standing : a.Standing) (step : a.step = .continue b) : a.Next b := by
  cases control : a.control with
  | execute => exact standing.next_of_execute control step
  | invoke => exact next_of_invoke control step
  | ask => exact next_of_ask control step
  | deliver => exact standing.next_of_deliver control step
  | raise => exact standing.next_of_raise control step

/-- Every move that answers the host is one of these. -/
theorem Standing.final [LawfulHost] {a : Activity} {o : Outcome} {m : Machine} (standing : a.Standing)
    (ended : a.step = .done o m) : a.Final o m := by
  cases control : a.control with
  | execute =>
    obtain ⟨p, i, m₁, f, rest, executing⟩ := standing.executing control
    have executes := executing.executes
    rw [ended] at executes
    generalize move : Move.done o m = c at executes
    cases executes with
    | next => cases move
    | ends => cases move
    | @reenters r => cases r <;> cases move
    | @faults e m' effect =>
      cases e with
      | missingConstant =>
        cases move
        exact .missing control executing effect
      | error e => cases move
  | invoke callee args =>
    have invokes := invokes_step control
    rw [ended] at invokes
    generalize move : Move.done o m = c at invokes
    cases invokes with
    | enters => cases move
    | answers => cases move
    | @reenters m' r => cases r <;> cases move
    | @faults m' e stays =>
      cases e with
      | missingConstant =>
        cases move
        exact .missingCall control stays
      | error e => cases move
  | ask byEntry c =>
    have acts := acts_step control
    rw [ended] at acts
    generalize move : Move.done o m = d at acts
    cases acts with
    | completes => exact absurd move.symm complete_ne_done
    | calls => cases move
    | tells => cases move
  | deliver v =>
    cases pending : a.pending with
    | nil => cases pending ▸ standing.nested
    | cons p ps =>
      rw [Activity.step, control, pending] at ended
      simp only [stepDeliver] at ended
      split at ended
      next caller =>
        cases ended
        exact .delivered control pending (.inl caller) rfl rfl rfl
      next caller =>
        cases ended
        exact .delivered control pending (.inr caller) rfl rfl rfl
      · exact absurd ended resume_ne_done
      · exact absurd ended resume_ne_done
      · exact absurd ended resume_ne_done
  | raise e =>
    cases pending : a.pending with
    | nil => cases pending ▸ standing.nested
    | cons p ps =>
      have raises := raises_step control pending
      rw [ended] at raises
      generalize move : Move.done o m = c at raises
      cases raises with
      | drops caller =>
        cases move
        exact .dropped control pending caller
      | answers caller =>
        cases move
        exact .failed control pending caller
      | resumes => exact absurd move.symm resume_ne_done
      | rethrows => cases move
      | informs => cases move

/-- An error takes the calls back to those that its entry found. -/
theorem length_of_raise {a : Activity} {e : RuntimeError} {p : Pending} {ps : List Pending} (standing : a.Standing)
    (control : a.control = .raise e) (pending : a.pending = p :: ps) (called : p.caller ≠ .script) :
    a.step.machine.frames.length = p.depths.frames := by
  have level := length_frames_unwound e (standing.depth p (by rw [pending, List.head?_cons]))
  have raises := raises_step control pending
  generalize a.step = move at raises
  cases raises with
  | drops caller => exact absurd caller called
  | answers => exact level
  | resumes _ _ stacked =>
    rw [← stacked] at level
    rw [(machine_resume _ _ _ _).1]
    exact level
  | rethrows _ _ stacked =>
    rw [← stacked] at level
    exact level
  | informs => exact level

/-- An instruction that calls a native function leaves the machine in the run that it was in. -/
theorem Executing.asking {a : Activity} {p : Pending} {i : Instruction} {m m' : Machine} {f : Frame}
    {rest : List Frame} {r : Reentry} (executing : Executing a p i m f rest) (nested : Nested a.pending)
    (effect : Effect i m f rest (.ok (.reenter r)) m'.stacked) (c : HostCall) :
    Standing ⟨m', a.pending, .ask false c⟩ := by
  obtain ⟨ps, pending⟩ := List.head?_eq_some_iff.1 executing.innermost
  have inside := effect.depth executing.inside nofun
  refine ⟨nested, ⟨p, ps, pending, executing.runBase.trans effect.runBase.symm, ?_⟩, fun q hq => ?_⟩
  · rw [← effect.runBase] at inside
    exact inside
  · cases executing.innermost.symm.trans hq
    rw [executing.runBase]
    exact Nat.le_of_lt inside

/-- A function of the host's own leaves the machine where it was. -/
theorem Standing.acted {a : Activity} {byEntry : Bool} {c : HostCall} {m : Machine} (standing : a.Standing)
    (control : a.control = .ask byEntry c) (acted : Acted c a.machine m) (c' : HostCall) :
    Standing ⟨m, a.pending, .ask byEntry c'⟩ := by
  have frames : m.frames = a.machine.frames := congrArg Stacks.frames acted.stacked
  have runBase : m.runBase = a.machine.runBase := congrArg Stacks.runBase acted.stacked
  have rooted := standing.rooted
  rw [Rooted, control] at rooted
  refine ⟨standing.nested, ?_, fun q hq => ?_⟩
  · cases byEntry with
    | false =>
      obtain ⟨p, ps, pending, base, inside⟩ := rooted
      refine ⟨p, ps, pending, base.trans runBase.symm, ?_⟩
      show m.runBase < m.frames.length
      rw [frames, runBase]
      exact inside
    | true =>
      obtain ⟨p, ps, pending, script, level⟩ := rooted
      exact ⟨p, ps, pending, script, level.trans (congrArg List.length frames).symm⟩
  · show _ ≤ m.frames.length
    rw [frames]
    exact standing.depth q hq

/-- Every move keeps the machine busy with the innermost entry. -/
theorem Standing.step [LawfulHost] {a b : Activity} (standing : a.Standing) (step : a.step = .continue b) :
    b.Standing := by
  have nested := standing.nested
  cases standing.next step with
  | @executed p i m m' f rest out c control executing effect after leads =>
    obtain ⟨ps, pending⟩ := List.head?_eq_some_iff.1 executing.innermost
    have depth : p.depths.frames ≤ m'.frames.length := by
      rw [executing.runBase]
      exact effect.runBase_le executing.frames executing.inside
    have depth : ∀ q, a.pending.head? = some q → q.depths.frames ≤ m'.frames.length := by
      intro q hq
      cases executing.innermost.symm.trans hq
      exact depth
    cases leads with
    | next =>
      have inside := effect.depth executing.inside nofun
      rw [← effect.runBase] at inside
      exact ⟨nested, ⟨p, ps, pending, executing.runBase.trans effect.runBase.symm, inside⟩, depth⟩
    | returned =>
      refine ⟨nested, fun q hq => Nat.le_antisymm (depth q hq) ?_, depth⟩
      obtain ⟨-, stacked, last⟩ := effect.returned
      cases executing.innermost.symm.trans hq
      rw [executing.runBase, show m'.frames = rest from congrArg Stacks.frames stacked]
      exact last
    | asked => exact executing.asking nested effect _
    | failed => exact ⟨nested, trivial, depth⟩
  | called control executing effect => exact (executing.asking nested effect default).enter rfl _ _
  | @entered callee args m g control stays frames =>
    obtain ⟨p, ps, pending, called, level⟩ := standing.invoking control
    have deeper : a.machine.frames.length < (g :: m.frames).length := by
      rw [List.length_cons, frames]
      exact Nat.lt_succ_self _
    refine ⟨nested, ⟨p, ps, pending, level, deeper⟩, fun q hq => ?_⟩
    exact Nat.le_trans (standing.depth q hq) (Nat.le_of_lt deeper)
  | answered control stays frames captured answers =>
    have asking := standing.asking control frames
    cases answers with
    | value => exact Completed.entry.standing (asking default)
    | asked => exact asking _
    | failed => exact (asking default).raising _
  | reentered control stays frames => exact (standing.asking control frames default).enter rfl _ _
  | completed control acted completed => exact completed.standing (standing.acted control acted default)
  | calledBack control acted => exact (standing.acted control acted default).enter rfl _ _
  | told control acted told =>
    cases told with
    | failed => exact (standing.acted control acted default).raising _
    | missing => exact standing.acted control acted _
  | @delivered v p ps b control pending resumed =>
    have rooted := standing.rooted
    rw [Rooted, control] at rooted
    exact resumed.standing (pending ▸ nested) rfl (rooted p (by rw [pending, List.head?_cons]))
  | @recovered e p ps m b control pending stacked captured resumed =>
    have level := length_frames_unwound e (standing.depth p (by rw [pending, List.head?_cons]))
    rw [← stacked] at level
    refine resumed.standing (pending ▸ nested) ?_ level.symm
    exact congrArg Stacks.runBase (stacked.trans (stacked_unwound_eq _ _ _))
  | @rethrown e e' p ps m control pending script host stacked =>
    have level := length_frames_unwound e (standing.depth p (by rw [pending, List.head?_cons]))
    rw [← stacked] at level
    rw [pending] at nested
    refine ⟨nested.outer script host, trivial, fun q hq => ?_⟩
    exact Nat.le_trans (nested.level_le hq) (Nat.le_of_eq level.symm)

end

/-- A script begins with one entry of the host, busy with its first call or with an error. -/
theorem standing_startScript (m : Machine) (p : Proto) : (m.startScript p).Standing := by
  have depth : ∀ {d : Depths} {m' : Machine}, d.frames = 0 →
      ∀ q, [(⟨.script, d, 0⟩ : Pending)].head? = some q → q.depths.frames ≤ m'.frames.length := by
    intro d m' none q hq
    rw [List.head?_cons, Option.some.injEq] at hq
    rw [← hq, none]
    exact Nat.zero_le _
  rw [startScript_eq]
  have run := run_pushFrame { closure := (m.world.newClosure p).1 } (m.laidOut p)
  split at run
  · rw [run]
    exact ⟨.host (.inl rfl), trivial, depth rfl⟩
  · rw [run]
    exact ⟨.host (.inl rfl), ⟨_, _, rfl, rfl, Nat.zero_lt_one⟩, depth rfl⟩

/-- A call of the host begins with one entry, which was made at the present depth. -/
theorem standing_startCall (m : Machine) (callee : Value) (args : List Value) :
    (m.startCall callee args).Standing := by
  refine ⟨.host (.inr rfl), ⟨_, _, rfl, nofun, rfl⟩, fun q hq => ?_⟩
  have hq : [(⟨.host, m.depths, m.runBase⟩ : Pending)].head? = some q := hq
  rw [List.head?_cons, Option.some.injEq] at hq
  rw [← hq]
  exact Nat.le_refl _

end Activity

end ScriptVm
