import ScriptVm.Proofs.CallbackContainment
import ScriptVm.Proofs.FailedInstructions

/-!
# What calls are executing

While a call waits for another one, or for a native function, it is in the middle of an instruction.
Which one is a matter of the past: it is the instruction that was executed last when as many calls
were under way, and `Activity.latest?` looks it up.

`AllPlaced.step` says that every move keeps track of it, and so does every host: `Lived.placed`.
-/

set_option autoImplicit false

namespace ScriptVm

/-- The function `r` is there, and runs the code of `p`. -/
def World.Runs (r : Ref .closure) (p : Proto) (w : World) : Prop :=
  w.heap.closures.has r ∧ (w.heap.closures.get r).proto = p

/-- A function keeps its code. -/
theorem World.Change.runs {w w' : World} {r : Ref .closure} {p : Proto} (c : Change w w') (h : w.Runs r p) :
    w'.Runs r p := by
  obtain ⟨known, code⟩ := h
  cases c with
  | newClosure c =>
    refine ⟨Pool.has_alloc.2 (.inl known), ?_⟩
    rw [← code]
    exact congrArg Closure.proto (Pool.get_alloc _ _ r known)
  | adopt f c =>
    refine ⟨(Pool.has_set _ f r _).2 known, ?_⟩
    by_cases same : f = r
    · subst same
      show ((w.heap.closures.set f _).get f).proto = p
      rw [Pool.get_set _ _ _ _ known, if_pos rfl]
      exact code
    · rw [← code]
      exact congrArg Closure.proto (Pool.get_set_of_ne _ _ same)
  | newObject cls =>
    rw [newObject_eq]
    exact ⟨known, code⟩
  | setField r s v =>
    rw [setField_eq]
    exact ⟨known, code⟩
  | setFieldAt r offset s v _ done =>
    obtain ⟨fields, -, rfl⟩ := (setFieldAt?_eq_some_iff ..).1 done
    exact ⟨known, code⟩
  | _ => exact ⟨known, code⟩

/-- A function keeps its code. -/
theorem Session.law_runs (r : Ref .closure) (p : Proto) : Law (World.Runs r p) where
  change c h := c.runs h
  cells _ h := h
  cleared h := h

namespace Exec

open Machine Stacks

variable {m m' : Machine} {f : Frame}

/-- An instruction of the code is fetched where the innermost call is, which moves on behind it. -/
theorem fetch_cases {rest : List Frame} {i : Instruction} (frames : m.frames = f :: rest)
    (fetched : fetch.run m = .ok i m') :
    (f.ip < (m.protoOf f).chunk.code.size ∧ m'.frames = { f with ip := f.ip + 1 } :: rest) ∨ i.op = .ret := by
  unfold fetch at fetched
  rw [run_bind_of_ok (show frame.run m = .ok (m.frames.headD default) m from rfl), run_bind_of_ok (run_get m), frames,
    List.headD_cons] at fetched
  split at fetched
  next found =>
    cases fetched
    refine .inl ⟨(Array.getElem?_eq_some_iff.1 found).1, ?_⟩
    simp only [frames]
  next =>
    cases fetched
    exact .inr rfl

/-- What the calls inside which an instruction goes on are in the middle of: they are some of those around the
call, or the instruction has begun a call. -/
theorem Effect.tail {i : Instruction} {rest : List Frame} {s : Stacks} {o : Except Fault Progress}
    (effect : Effect i m f rest o s) (frames : m.frames = f :: rest) :
    s.frames.tail <:+ rest ∨ (i.op = .call ∨ i.op = .new) ∧ s.frames.tail = m.frames := by
  have same : m.stacked.frames.tail <:+ rest := by
    rw [show m.stacked.frames = f :: rest from frames]
    exact List.suffix_refl _
  have stays : ∀ {fs gs : List Frame}, SameCalls fs gs → gs.tail = fs.tail := by
    intro fs gs same
    cases same <;> rfl
  cases effect with
  | stays _ _ h =>
    rw [stays h.frames]
    exact .inl same
  | enters op h frames => exact .inr ⟨op, frames⟩
  | ends => exact .inl (List.tail_suffix rest)
  | goesBack => exact .inl (List.tail_suffix rest)
  | @catches h hs =>
    refine .inl ?_
    show (catching h m.frames).tail <:+ rest
    rw [stays (sameCalls_catching h m.frames), frames]
    rcases List.suffix_cons_iff.1 (truncated_suffix (f :: rest) h.frameDepth) with whole | inner
    · rw [whole]
      exact List.suffix_refl _
    · exact (List.tail_suffix _).trans inner
  | advances _ _ _ h =>
    rw [show s.frames.tail = _ from stays h.frames]
    exact .inl same
  | _ => exact .inl same

/-- Only a call enters the machine again, and it leaves the calls alone. -/
theorem reenters_cases {i : Instruction} {r : Reentry} {rest : List Frame} (frames : m.frames = f :: rest)
    (run : (execute i).run m = .ok (.reenter r) m') : i.op = .call ∧ m'.frames = m.frames := by
  by_cases op : i.op = .call
  · refine ⟨op, ?_⟩
    rw [show execute i = callProgress i.a.toNat by rw [execute, op]] at run
    cases called : (call i.a.toNat).run m with
    | error e m₁ =>
      rw [callProgress, run_bind_of_error called] at run
      cases run
    | ok answer m₁ =>
      rw [callProgress, run_bind_of_ok called] at run
      rcases (calling_call (b := true) (m := m) i.a.toNat).cases with ⟨keeps, -⟩ | ⟨m₂, g, keeps, entered, -⟩
      · rw [after_of_ok called] at keeps
        cases answer with
        | none => cases run
        | some r =>
          cases run
          exact keeps.frames
      · cases called.symm.trans entered
        cases run
  · by_cases ret : i.op = .ret
    · obtain ⟨m₁, -, -, left⟩ := run_returnFrom frames
      rw [show execute i = returnFrom by rw [execute, ret], left] at run
      split at run <;> cases run
    · cases proceeds_execute ret op m _ m' run

end Exec

namespace Activity

open Machine Exec Stacks

/-! ## The instruction that a call is executing -/

/-- `a` is about to execute the instruction `k` of the call `f`, with the calls `outer` around it. -/
structure Fetches (a : Activity) (f : Frame) (outer : List Frame) (k : Nat) : Prop where
  control : a.control = .execute
  frames : a.machine.frames = { f with ip := k } :: outer
  code : k < (a.machine.protoOf f).chunk.code.size

/-- Whether `a` is about to execute an instruction of the innermost of `depth` calls. -/
def executesAt (depth : Nat) (a : Activity) : Bool :=
  match a.control with
  | .execute => a.machine.frames.length == depth
  | _ => false

/-- The latest activity that executed an instruction of the innermost of `depth` calls. -/
def latest? (past : List Activity) (depth : Nat) : Option Activity := past.find? (executesAt depth)

/-- The instruction that the call `f` has executed last stands in the given line. -/
def AtLine (past : List Activity) (f : Frame) (outer : List Frame) (line : Nat) : Prop :=
  ∃ x k, latest? past (outer.length + 1) = some x ∧ x.Fetches f outer k ∧
    line = (x.machine.protoOf f).chunk.lineAt k

/-- The call `f` is in the middle of the instruction that it has executed last. -/
def Placed (past : List Activity) (m : Machine) (f : Frame) (outer : List Frame) : Prop :=
  ∃ x k, latest? past (outer.length + 1) = some x ∧ x.Fetches f outer k ∧ f.ip = k + 1 ∧
    m.world.Runs f.closure (x.machine.protoOf f)

section

variable {a b : Activity} {past : List Activity} {m m' : Machine} {f : Frame} {outer : List Frame} {k : Nat}

/-- A call that is in the middle of an instruction is at the line of that instruction. -/
theorem Placed.atLine (h : Placed past m f outer) : AtLine past f outer (m.lineOf f) := by
  obtain ⟨x, k, latest, fetches, ip, -, code⟩ := h
  refine ⟨x, k, latest, fetches, ?_⟩
  show (m.protoOf f).chunk.lineAt (f.ip - 1) = _
  rw [ip, Nat.add_sub_cancel, ← code]
  rfl

/-- Code stays the same, so a placed call stays placed. -/
theorem Placed.mono (h : Placed past m f outer)
    (code : ∀ {p}, m.world.Runs f.closure p → m'.world.Runs f.closure p) : Placed past m' f outer := by
  obtain ⟨x, k, latest, fetches, ip, runs⟩ := h
  exact ⟨x, k, latest, fetches, ip, code runs⟩

/-- Moves with more calls under way, and moves that execute nothing, leave the call where it is. -/
theorem Placed.cons (h : Placed past m f outer) (other : a.executesAt (outer.length + 1) = false) :
    Placed (a :: past) m f outer := by
  obtain ⟨x, k, latest, fetches, ip, runs⟩ := h
  refine ⟨x, k, ?_, fetches, ip, runs⟩
  rw [latest?, List.find?_cons, other]
  exact latest

/-- A call that fetches an instruction executes at its own depth. -/
theorem Fetches.executesAt (h : a.Fetches f outer k) : a.executesAt (outer.length + 1) = true := by
  rw [Activity.executesAt, h.control, h.frames]
  exact beq_self_eq_true _

/-- Code belongs to a function that is there. -/
theorem Fetches.runs (h : a.Fetches f outer k) : a.machine.world.Runs f.closure (a.machine.protoOf f) := by
  refine ⟨?_, rfl⟩
  by_cases known : a.machine.world.heap.closures.has f.closure
  · exact known
  · have code := h.code
    rw [protoOf, show a.machine.heap.closures.get f.closure = default from Pool.get_of_not_has known] at code
    exact absurd code (Nat.not_lt_zero k)

/-- Having fetched an instruction, a call is in the middle of it. -/
theorem Fetches.placed (h : a.Fetches f outer k) (ip : f.ip = k + 1) : Placed (a :: past) a.machine f outer := by
  refine ⟨a, k, ?_, h, ip, h.runs⟩
  rw [latest?, List.find?_cons, h.executesAt]

/-! ## Moves -/

/-- The calls that are in the middle of an instruction. -/
def waiting (a : Activity) : List Frame :=
  match a.control with
  | .execute => a.machine.frames.tail
  | _ => a.machine.frames

/-- While the machine executes, the innermost call is between instructions. -/
theorem waiting_of_execute (control : a.control = .execute) : a.waiting = a.machine.frames.tail := by
  rw [waiting, control]

/-- Otherwise all calls are in the middle of an instruction. -/
theorem waiting_of_ne (control : a.control ≠ .execute) : a.waiting = a.machine.frames := by
  unfold waiting
  split
  next execute => exact absurd execute control
  next => rfl

/-- The calls that are in the middle of an instruction when a move has been made. -/
def waitingAfter : Move → List Frame
  | .continue a => a.waiting
  | .done _ m => m.frames

theorem waitingAfter_onFault (e : Fault) (m : Machine) (ps : List Pending) :
    waitingAfter (onFault e m ps) = m.frames := by
  cases e <;> rfl

theorem waitingAfter_reenter (m : Machine) (ps : List Pending) (r : Reentry) (byEntry : Bool) :
    waitingAfter (reenter m ps r byEntry) = m.frames := by
  cases r <;> rfl

theorem waitingAfter_complete (m : Machine) (ps : List Pending) (byEntry : Bool) (v : Value) :
    waitingAfter (complete m ps byEntry v) <:+ m.frames := by
  cases byEntry with
  | false => exact List.tail_suffix m.frames
  | true => exact List.suffix_refl _

theorem waitingAfter_resume (m : Machine) (ps : List Pending) (caller : Caller) (v : Value) :
    waitingAfter (resume m ps caller v) <:+ m.frames := by
  cases caller with
  | own => exact List.suffix_refl _
  | _ => exact waitingAfter_complete _ _ _ _

/-- Fetching changes nothing about the outer calls. -/
theorem Executing.frames_eq {p : Pending} {i : Instruction} {g : Frame} {rest : List Frame}
    (executing : a.Executing p i m g rest) : ∃ f₀, a.machine.frames = f₀ :: rest := by
  have same : SameCalls a.machine.frames m.frames := executing.stays.frames
  rw [executing.frames] at same
  exact same.of_cons

theorem Executing.waiting_eq {p : Pending} {i : Instruction} {g : Frame} {rest : List Frame}
    (executing : a.Executing p i m g rest) (control : a.control = .execute) : a.waiting = rest := by
  obtain ⟨f₀, frames⟩ := executing.frames_eq
  rw [waiting_of_execute control, frames, List.tail_cons]

/-- The call that executes an instruction of the code is in the middle of it. -/
theorem Executing.fetches {p : Pending} {i : Instruction} {g : Frame} {rest : List Frame}
    (executing : a.Executing p i m g rest) (control : a.control = .execute) (op : i.op ≠ .ret) :
    ∃ k, a.Fetches g rest k ∧ g.ip = k + 1 := by
  obtain ⟨f₀, frames⟩ := executing.frames_eq
  rcases fetch_cases frames executing.fetched with ⟨code, moved⟩ | ret
  · obtain ⟨rfl, -⟩ := List.cons.inj (executing.frames.symm.trans moved)
    exact ⟨f₀.ip, ⟨control, frames, code⟩, rfl⟩
  · exact absurd ret op

/-- After an instruction, a call that is in the middle of one was so before, or has just executed it. -/
theorem Executing.waiting_step {p : Pending} {i : Instruction} {g : Frame} {rest : List Frame}
    (executing : a.Executing p i m g rest) (control : a.control = .execute) (h : f :: outer <:+ waitingAfter a.step) :
    f :: outer <:+ rest ∨ ∃ k, a.Fetches f outer k ∧ f.ip = k + 1 := by
  have own : i.op ≠ .ret → f :: outer <:+ m.frames →
      f :: outer <:+ rest ∨ ∃ k, a.Fetches f outer k ∧ f.ip = k + 1 := by
    intro op h
    rw [executing.frames] at h
    rcases List.suffix_cons_iff.1 h with same | inner
    · obtain ⟨rfl, rfl⟩ := List.cons.inj same
      exact .inr (executing.fetches control op)
    · exact .inl inner
  have executes := executing.executes
  generalize a.step = move at executes h
  cases executes with
  | @next m' effect run =>
    rcases effect.tail executing.frames with inside | ⟨op, same⟩
    · exact .inl (h.trans inside)
    · refine own (by rcases op with op | op <;> simp [op]) ?_
      rw [← same]
      exact h
  | @ends v m' effect run =>
    have executes : Executes a.pending i m g rest (.continue ⟨m', a.pending, .deliver v⟩) := .ends effect run
    obtain ⟨frames, -⟩ := executes.ended rfl
    exact .inl (frames ▸ h)
  | @reenters r m' effect run =>
    obtain ⟨op, frames⟩ := reenters_cases executing.frames run
    rw [waitingAfter_reenter] at h
    exact own (by simp [op]) (frames ▸ h)
  | @faults e m' effect run =>
    have untouched := (cautiousWith_execute i m).untouched e m' run
    refine own (fun op => ?_) ?_
    · rw [show execute i = returnFrom by rw [execute, op]] at run
      exact safe_returnFrom.succeeds m e m' run
    · rw [waitingAfter_onFault, untouched.frames] at h
      exact h

/-- Only an instruction puts a call in the middle of one. -/
theorem suffix_of_idle (standing : a.Standing) (idle : a.control ≠ .execute) :
    waitingAfter a.step <:+ a.machine.frames := by
  have same : ∀ {m : Machine}, m.frames = a.machine.frames → m.frames <:+ a.machine.frames :=
    fun frames => ⟨[], frames⟩
  cases control : a.control with
  | execute => exact absurd control idle
  | invoke callee args =>
    have invokes := invokes_step control
    generalize a.step = move at invokes
    cases invokes with
    | enters _ frames => exact same frames
    | answers _ frames => exact same frames
    | reenters _ frames =>
      rw [waitingAfter_reenter]
      exact same frames
    | faults _ frames =>
      rw [waitingAfter_onFault]
      exact same frames
  | ask byEntry c =>
    have acts := acts_step control
    generalize a.step = move at acts
    cases acts with
    | completes acted => exact (waitingAfter_complete _ _ _ _).trans (same (congrArg Stacks.frames acted.stacked))
    | calls acted => exact same (congrArg Stacks.frames acted.stacked)
    | tells acted told =>
      have frames := same (congrArg Stacks.frames acted.stacked)
      cases told <;> exact frames
  | deliver v =>
    cases pending : a.pending with
    | nil => cases pending ▸ standing.nested
    | cons p ps =>
      have delivers := delivers_step control pending
      generalize a.step = move at delivers
      cases delivers with
      | answers frames => exact same frames
      | resumes => exact waitingAfter_resume _ _ _ _
  | raise e =>
    cases pending : a.pending with
    | nil => cases pending ▸ standing.nested
    | cons p ps =>
      have unwinds : ∀ {m' : Machine}, m'.stacked = (unwound a.machine p e).stacked →
          m'.frames <:+ a.machine.frames := by
        intro m' stacked
        rw [show m'.frames = (unwound a.machine p e).frames from congrArg Stacks.frames stacked, frames_unwound]
        exact truncated_suffix _ _
      have raises := raises_step control pending
      generalize a.step = move at raises
      cases raises with
      | drops => exact List.nil_suffix
      | answers => exact unwinds rfl
      | resumes _ _ stacked => exact (waitingAfter_resume _ _ _ _).trans (unwinds stacked)
      | rethrows _ _ stacked => exact unwinds stacked
      | informs => exact unwinds rfl

/-- A call in the middle of an instruction was so before the move, or it is the one whose instruction has been
executed. -/
theorem waiting_step (standing : a.Standing) (h : f :: outer <:+ waitingAfter a.step) :
    f :: outer <:+ a.waiting ∨ ∃ k, a.Fetches f outer k ∧ f.ip = k + 1 := by
  by_cases control : a.control = .execute
  · obtain ⟨p, i, m, g, rest, executing⟩ := standing.executing control
    rw [executing.waiting_eq control]
    exact executing.waiting_step control h
  · rw [waiting_of_ne control]
    exact .inl (h.trans (suffix_of_idle standing control))

/-- A move that is not the one of its own instruction leaves a call where it is. -/
theorem executesAt_of_waiting (h : f :: outer <:+ a.waiting) : a.executesAt (outer.length + 1) = false := by
  unfold executesAt
  split
  next control =>
    rw [waiting_of_execute control] at h
    have length := h.length_le
    rw [List.length_cons, List.length_tail] at length
    exact beq_false_of_ne (by omega)
  next => rfl

theorem runs_step {r : Ref .closure} {p : Proto} (h : a.machine.world.Runs r p) : a.step.machine.world.Runs r p :=
  (Session.law_runs r p).step h

/-- All calls of `fs` are in the middle of the instruction that they have executed last. -/
def AllPlaced (past : List Activity) (m : Machine) (fs : List Frame) : Prop :=
  ∀ f outer, f :: outer <:+ fs → Placed past m f outer

/-- Every move keeps all calls placed. -/
theorem AllPlaced.step (placed : AllPlaced past a.machine a.waiting) (standing : a.Standing) :
    AllPlaced (a :: past) a.step.machine (waitingAfter a.step) := by
  intro f outer h
  rcases waiting_step standing h with before | ⟨k, fetches, ip⟩
  · exact ((placed f outer before).cons (executesAt_of_waiting before)).mono runs_step
  · exact (fetches.placed ip).mono runs_step

/-! ## Hosts -/

/-- The ways in which a host enters a machine. -/
inductive HostEntry (m : Machine) : Activity → Prop where
  | script (p : Proto) : HostEntry m (m.startScript p)
  | call (callee : Value) (args : List Value) : HostEntry m (m.startCall callee args)

/-- The machines that a host can have, with all that they have done since they were last without calls, the
latest first. Between two runs the host may change them in any way, but for the calls that a run has left
and their code. -/
inductive Lived : List Activity → Machine → Prop where
  | idle {m : Machine} (frames : m.frames = []) : Lived [] m
  | changed {past : List Activity} {m m' : Machine} (lived : Lived past m) (frames : m'.frames = m.frames)
      (code : ∀ r p, m.world.Runs r p → m'.world.Runs r p) : Lived past m'
  | ended {past inner : List Activity} {m m' : Machine} {s a : Activity} {o : Outcome} (lived : Lived past m)
      (entry : HostEntry m s) (run : Run (fun _ => True) s inner a) (ended : a.step = .done o m') :
      Lived (a :: inner ++ past) m'

/-- However a host enters a machine, the machine is busy with that entry. -/
theorem HostEntry.standing {s : Activity} (entry : HostEntry m s) : s.Standing := by
  cases entry with
  | script p => exact standing_startScript m p
  | call callee args => exact standing_startCall m callee args

/-- A script has no call yet in the middle of an instruction. -/
theorem waiting_startScript (m : Machine) (p : Proto) : (m.startScript p).waiting = [] := by
  rw [startScript_eq]
  have run := run_pushFrame { closure := (m.world.newClosure p).1 } (m.laidOut p)
  split at run
  · rw [run]
    rfl
  · rw [run]
    rfl

/-- Every run keeps all calls placed. -/
theorem Run.placed {ok : Activity → Prop} {s : Activity} {inner : List Activity} (found : AllPlaced past m m.frames)
    (entry : HostEntry m s) (run : Run ok s inner a) : AllPlaced (inner ++ past) a.machine a.waiting := by
  induction run with
  | start =>
    cases entry with
    | script p =>
      rw [waiting_startScript]
      exact fun f outer h => nomatch List.suffix_nil.1 h
    | call callee args => exact found
  | move run allowed step ih =>
    have placed := ih.step (run.standing entry.standing)
    rw [step] at placed
    exact placed

/-- So does the whole life of a machine. -/
theorem Lived.placed (lived : Lived past m) : AllPlaced past m m.frames := by
  induction lived with
  | idle frames =>
    rw [frames]
    exact fun f outer h => nomatch List.suffix_nil.1 h
  | changed lived frames code ih =>
    rw [frames]
    exact fun f outer h => (ih f outer h).mono (code _ _)
  | ended lived entry run ended ih =>
    have placed := (run.placed ih entry).step (run.standing entry.standing)
    rw [ended] at placed
    exact placed

end

end Activity

/-! ## Sessions -/

namespace Session

open Activity (Lived HostEntry)

variable {s : Session}

/-- What the host does between two runs leaves calls and code alone. -/
theorem lived_of_same {m m' : Machine} (lived : ∃ past, Lived past m) (frames : m'.frames = m.frames)
    (code : ∀ r p, m.world.Runs r p → m'.world.Runs r p) : ∃ past, Lived past m' := by
  obtain ⟨past, lived⟩ := lived
  exact ⟨past, lived.changed frames code⟩

/-- A session lives on after a run. -/
theorem lived_conclude (lived : ∃ past, Lived past s.machine) {a : Activity} (entry : HostEntry s.machine a) :
    ∃ past, Lived past (s.conclude (a.run s.fuel)).2.machine := by
  unfold conclude
  split
  · exact lived
  next o m answer =>
    obtain ⟨past, lived⟩ := lived
    obtain ⟨inner, b, run, ended⟩ := Activity.Run.ends .start answer
    have after : ∃ past, Lived past m := ⟨_, lived.ended entry run ended⟩
    cases o <;> exact after

theorem lived_realise (lived : ∃ past, Lived past s.machine) (ls : List Literal) :
    ∃ past, Lived past (s.realise ls).2.machine :=
  lived_of_same lived rfl fun r p h => (law_runs r p).realise h ls

theorem lived_callGlobal (lived : ∃ past, Lived past s.machine) (name : Text) (args : List Value) :
    ∃ past, Lived past (s.conclude (Machine.callGlobal s.fuel s.machine name args)).2.machine := by
  unfold Machine.callGlobal
  split
  · exact lived_conclude lived (.call _ args)
  · exact lived_of_same lived rfl fun _ _ => id

/-- And after every command. -/
theorem lived_dispatch (lived : ∃ past, Lived past s.machine) (c : Command) :
    ∃ past, Lived past (s.dispatch c).2.machine := by
  cases c with
  | interpret script keepAs =>
    have numbered : ∃ past, Lived past
        { s.machine with
          world := { s.machine.world with
            nextProto := (Blueprint.build s.machine.world.nextProto script).2 } } :=
      lived_of_same lived rfl fun _ _ => id
    exact lived_conclude (s := { s with kept := _, machine := _ }) numbered (.script _)
  | interpretKept name =>
    simp only [dispatch]
    cases s.kept.get? name with
    | some p => exact lived_conclude lived (.script p)
    | none => exact lived
  | callGlobal name args => exact lived_callGlobal (lived_realise lived args) name _
  | callValue callee args => exact lived_conclude (lived_realise lived (callee :: args)) (.call _ _)
  | callMany callee count arg => exact lived_conclude (lived_realise lived [callee, arg]) (.call _ _)
  | getGlobal name =>
    simp only [dispatch]
    cases s.machine.globals.get? name <;> exact lived
  | reset => exact ⟨[], .idle rfl⟩
  | newMachine config => exact ⟨[], .idle (Machine.fresh_idle config _ _).1⟩
  | recordMethod site name table owner method =>
    refine lived_of_same lived rfl fun r p h => ?_
    have realised := (law_runs r p).realise h [method]
    have interned := (law_runs r p).evolves (World.blind_intern _ name).evolves realised
    exact (law_runs r p).recordMethod (fun _ => id) interned site _ _
  | setGlobal | clearOutput | clearDiagnostics | recordProperty | buildClass =>
    exact lived_of_same lived rfl fun r p h => (law_runs r p).dispatch h rfl
  | state => exact lived

/-- Every session of a host has a machine that a host can have. -/
theorem Reachable.lived (reachable : s.Reachable) : ∃ past, Lived past s.machine := by
  induction reachable with
  | start config level fuel => exact ⟨[], .idle (Machine.fresh_idle config _ _).1⟩
  | @perform s _ c ih =>
    have cleared : ∃ past, Lived past s.withoutStreams.machine := lived_of_same ih rfl fun _ _ => id
    exact lived_dispatch cleared c

end Session

end ScriptVm
