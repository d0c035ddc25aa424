import ScriptVm.Proofs.InstructionHistory

/-!
# Error reports

An error that an entry ends with is recorded exactly once, with one line for each call under way.
The line of a call is that of the instruction which it is executing, and the position of the error
is the line of the innermost call, unless a native function has thrown an error of its own.

The main result is `Activity.errors_point_at_instructions`.
-/

set_option autoImplicit false

namespace ScriptVm.Activity

open Machine Exec

section

variable {a b : Activity} {past inner : List Activity} {m m' : Machine}

/-! ## Reports -/

/-- How a call is named: a function without a name is the script, and a method has the name of its class in
front of its own. -/
inductive Names (c : Closure) : Text → Prop where
  | script (nameless : c.proto.name = []) : Names c "<script>"
  | function (named : c.proto.name ≠ []) (homeless : c.home = []) : Names c c.proto.name
  | method (named : c.proto.name ≠ []) (home : c.home ≠ []) : Names c (c.home ++ "." ++ c.proto.name)

theorem names_traceName (c : Closure) : Names c (traceName c) := by
  unfold traceName
  split
  next nameless => exact .script (List.isEmpty_iff.1 nameless)
  next named =>
    have named : c.proto.name ≠ [] := fun nameless => named (List.isEmpty_iff.2 nameless)
    split
    next homeless => exact .function named (List.isEmpty_iff.1 homeless)
    next home => exact .method named fun homeless => home (List.isEmpty_iff.2 homeless)

/-- The lines of a trace: one for each call, innermost first, with its name and the line of the instruction that
it has executed last. -/
inductive Traced (past : List Activity) (m : Machine) : List Frame → List TraceEntry → Prop where
  | nil : Traced past m [] []
  | cons {f : Frame} {outer : List Frame} {name : Text} {line : Nat} {rest : List TraceEntry}
      (names : Names (m.heap.closures.get f.closure) name) (atLine : AtLine past f outer line)
      (others : Traced past m outer rest) : Traced past m (f :: outer) ({ function := name, line } :: rest)

/-- The position of what the innermost call has executed last; without calls it is unknown. -/
def Points (past : List Activity) (fs : List Frame) (s : Span) : Prop :=
  match fs with
  | [] => s = ⟨0, 0⟩
  | f :: outer => ∃ line, AtLine past f outer line ∧ s = ⟨line, 0⟩

/-- `d` is about the error `e` and the calls of `m`. -/
structure Report (past : List Activity) (m : Machine) (e : RuntimeError) (d : Diagnostic) : Prop where
  error : d.error = e
  trace : Traced past m m.frames d.trace

theorem AllPlaced.traced {fs : List Frame} (placed : AllPlaced past m fs) :
    Traced past m fs
      (fs.map fun f => { function := traceName (m.heap.closures.get f.closure), line := m.lineOf f }) := by
  induction fs with
  | nil => exact .nil
  | cons f outer ih =>
    refine .cons (names_traceName _) (placed f outer (List.suffix_refl _)).atLine (ih fun g others h => ?_)
    exact placed g others (h.trans (List.suffix_cons f outer))

theorem AllPlaced.points (placed : AllPlaced past m m.frames) : Points past m.frames m.span := by
  unfold Machine.span
  cases frames : m.frames with
  | nil => rfl
  | cons f outer =>
    rw [frames] at placed
    exact ⟨m.lineOf f, (placed f outer (List.suffix_refl _)).atLine, rfl⟩

theorem AllPlaced.report (placed : AllPlaced past m m.frames) (e : RuntimeError) : Report past m e (m.reportOf e) :=
  ⟨rfl, placed.traced⟩

theorem diagnostics_unwound (m : Machine) (p : Pending) (e : RuntimeError) :
    (unwound m p e).diagnostics = m.diagnostics.push (m.reportOf e) := by
  show (Machine.closeCells _ _).diagnostics = _
  rw [diagnostics_closeCells, diagnostics_endFrames]
  rfl

theorem diagnostics_resume (m : Machine) (ps : List Pending) (caller : Caller) (v : Value) :
    (resume m ps caller v).machine.diagnostics = m.diagnostics := by
  cases caller <;> rfl

theorem diagnostics_onFault (e : Fault) (m : Machine) (ps : List Pending) :
    (onFault e m ps).machine.diagnostics = m.diagnostics := by
  cases e <;> rfl

/-- What a native function makes of an error is recorded nowhere. -/
theorem undone_callbackError (c : Callback) (e : RuntimeError) : Undone (callbackError c e) := by
  cases c with
  | apply => exact (idle_fail _).undone
  | attempt => exact (safe_newArray _).undone
  | callName => exact (safe_pure _).undone

/-- An entry that ends with an error records it. -/
theorem diagnostics_of_raise {e : RuntimeError} {p : Pending} {ps : List Pending} (control : a.control = .raise e)
    (pending : a.pending = p :: ps) :
    a.step.machine.diagnostics = a.machine.diagnostics.push (a.machine.reportOf e) := by
  have caught : ∀ c, (stepCallbackError { a.machine with runBase := p.runBase } ps p c e).machine.diagnostics =
      a.machine.diagnostics.push (a.machine.reportOf e) := by
    intro c
    show (recovers (unwound a.machine p e) ps p.caller c e).machine.diagnostics = _
    have silent := (undone_callbackError c e).silent (unwound a.machine p e)
    rw [diagnostics_unwound] at silent
    unfold recovers
    cases run : (callbackError c e).run (unwound a.machine p e) with
    | ok v m =>
      rw [after_of_ok run] at silent
      exact (diagnostics_resume m ps p.caller v).trans silent
    | error f m =>
      rw [after_of_error run] at silent
      exact (diagnostics_onFault f m ps).trans silent
  rw [Activity.step, control, pending]
  unfold stepRaise
  dsimp only
  split
  · rfl
  · exact diagnostics_unwound a.machine p e
  · exact caught _
  · exact caught _
  · exact diagnostics_unwound a.machine p e

/-- The machine when its next instruction has been fetched. -/
def underway (a : Activity) : Machine :=
  match a.control with
  | .execute => fetch.after a.machine
  | _ => a.machine

/-- The native function that the next move calls. -/
def called? (a : Activity) : Option NativeBody :=
  match a.control with
  | .execute =>
    match fetch.run a.machine with
    | .ok i m => i.native? m
    | .error _ _ => none
  | .invoke callee _ => a.machine.nativeBody? callee
  | _ => none

theorem called?_of_execute {i : Instruction} (control : a.control = .execute) (fetched : fetch.run a.machine = .ok i m) :
    a.called? = i.native? m := by
  rw [called?, control]
  dsimp only
  rw [fetched]

theorem called?_of_invoke {callee : Value} {args : List Value} (control : a.control = .invoke callee args) :
    a.called? = a.machine.nativeBody? callee := by
  rw [called?, control]

theorem underway_of_execute {i : Instruction} (control : a.control = .execute)
    (fetched : fetch.run a.machine = .ok i m) : a.underway = m := by
  rw [underway, control]
  exact after_of_ok fetched

theorem underway_of_ne (control : a.control ≠ .execute) : a.underway = a.machine := by
  unfold underway
  split
  next execute => exact absurd execute control
  next => rfl

/-- What a computation adds to the reports. -/
theorem diagnostics_of_cautiousWith {α : Type} {called : Option NativeBody} {x : Exec α} (h : CautiousWith called x m) :
    (x.after m).diagnostics = m.diagnostics ∨
      called = some .callName ∧ ∃ name, m.globals.get? name = none ∧
        (x.after m).diagnostics = m.diagnostics.push (m.reportOf ⟨.undefinedVariable name, m.span⟩) := by
  cases run : x.run m with
  | ok v m' =>
    rw [after_of_ok run]
    exact h.records v m' run
  | error e m' =>
    rw [after_of_error run]
    exact .inl (h.untouched e m' run).diagnostics

/-- What a move without error adds to the reports: nothing, or that `call_name` has not found a global. -/
theorem diagnostics_step (standing : a.Standing) (calm : ∀ e, a.control ≠ .raise e) :
    a.step.machine.diagnostics = a.machine.diagnostics ∨
      a.called? = some .callName ∧ ∃ name, a.machine.globals.get? name = none ∧
        a.step.machine.diagnostics =
          a.machine.diagnostics.push (a.underway.reportOf ⟨.undefinedVariable name, a.underway.span⟩) := by
  cases control : a.control with
  | raise e => exact absurd control (calm e)
  | execute =>
    obtain ⟨p, i, m, f, rest, executing⟩ := standing.executing control
    have fetched := executing.fetched
    have untouched := untouched_fetch fetched
    have records := diagnostics_of_cautiousWith (cautiousWith_execute i m)
    rw [untouched.diagnostics, untouched.globals] at records
    obtain ⟨k, moved⟩ := machine_stepExecute fetched a.pending
    rw [step_of_execute control, moved, called?_of_execute control fetched, underway_of_execute control fetched]
    exact records
  | invoke callee args =>
    obtain ⟨k, stack, moved⟩ := machine_stepInvoke a.machine a.pending callee args
    rw [step_of_invoke control, moved, called?_of_invoke control, underway_of_ne (by simp [control])]
    exact diagnostics_of_cautiousWith (cautiousWith_beginCall callee args a.machine)
  | ask byEntry c =>
    rw [Activity.step, control]
    cases byEntry <;> exact .inl rfl
  | deliver v =>
    refine .inl ?_
    cases pending : a.pending with
    | nil => cases pending ▸ standing.nested
    | cons p ps =>
      rw [Activity.step, control, pending]
      unfold stepDeliver
      dsimp only
      split
      · rfl
      · rfl
      · exact diagnostics_resume _ _ _ _
      · exact diagnostics_resume _ _ _ _
      · exact diagnostics_resume _ _ _ _

/-- The calls while `call_name` looks a global up are in the middle of the call. -/
theorem AllPlaced.underway (placed : AllPlaced past a.machine a.waiting) (standing : a.Standing) {body : NativeBody}
    (calls : a.called? = some body) : AllPlaced (a :: past) a.underway a.underway.frames := by
  intro f outer h
  have before : ∀ {m}, (∀ {p}, a.machine.world.Runs f.closure p → m.world.Runs f.closure p) →
      f :: outer <:+ a.waiting → Placed (a :: past) m f outer := fun code inside =>
    ((placed f outer inside).cons (executesAt_of_waiting inside)).mono code
  by_cases control : a.control = .execute
  · obtain ⟨p, i, m, g, rest, executing⟩ := standing.executing control
    have fetched := executing.fetched
    rw [underway_of_execute control fetched] at h ⊢
    rw [called?_of_execute control fetched, Instruction.native?] at calls
    have op : i.op = .call := by
      by_cases op : i.op = .call
      · exact op
      · rw [if_neg op] at calls
        cases calls
    have notRet : i.op ≠ .ret := by simp [op]
    obtain ⟨fs, -, rfl⟩ := fetched_eq fetched notRet
    rw [executing.frames] at h
    rcases List.suffix_cons_iff.1 h with same | inner
    · obtain ⟨rfl, rfl⟩ := List.cons.inj same
      obtain ⟨k, fetches, ip⟩ := executing.fetches control notRet
      exact (fetches.placed ip).mono id
    · exact before id (executing.waiting_eq control ▸ inner)
  · rw [underway_of_ne control] at h ⊢
    exact before id (waiting_of_ne control ▸ h)

/-- An error is at the position of the machine, unless a native function has thrown it. -/
theorem span_of_raise {e : RuntimeError} (step : a.step = .continue b) (control : b.control = .raise e) :
    e.span = b.machine.span ∨ a.called? = some .raise ∧ (Fault.error e).Thrown := by
  cases failure_of_raise step control with
  | @instruction i m executes fetched run =>
    rw [called?_of_execute executes fetched]
    exact (cautiousWith_execute i m).inPlace _ _ run
  | @call callee args invokes run =>
    rw [called?_of_invoke invokes]
    exact (cautiousWith_beginCall callee args a.machine).inPlace _ _ run
  | @callback c e' m _ run => exact .inl ((undone_callbackError c e').inPlace m _ _ run)

/-- An error that a script begins with is at an unknown position, without calls. -/
theorem span_startScript {p : Proto} {e : RuntimeError} (control : (m.startScript p).control = .raise e) :
    e.span = (m.startScript p).machine.span := by
  rw [startScript_eq] at control ⊢
  have inPlace := (cautious_pushFrame { closure := (m.world.newClosure p).1 }).inPlace (m.laidOut p)
  cases run : (pushFrame { closure := (m.world.newClosure p).1 }).run (m.laidOut p) with
  | ok v m' =>
    rw [run] at control
    cases control
  | error f m' =>
    rw [run] at control
    cases f with
    | missingConstant => cases control
    | error e' =>
      cases control
      exact inPlace _ _ run

/-- An error is at the position of the machine, unless a native function has thrown it. -/
theorem Run.span_of_raise {ok : Activity → Prop} {s : Activity} {e : RuntimeError} (entry : HostEntry m s)
    (run : Run ok s inner a) (control : a.control = .raise e) :
    e.span = a.machine.span ∨ ∃ x older, inner = x :: older ∧ x.called? = some .raise ∧ (Fault.error e).Thrown := by
  cases run with
  | start =>
    cases entry with
    | script p => exact .inl (span_startScript control)
    | call => cases control
  | @move older x _ run allowed step =>
    rcases Activity.span_of_raise step control with inPlace | ⟨called, thrown⟩
    · exact .inl inPlace
    · exact .inr ⟨x, older, rfl, called, thrown⟩

/-- Entering the machine records nothing. -/
theorem HostEntry.diagnostics {s : Activity} (entry : HostEntry m s) : s.machine.diagnostics = m.diagnostics := by
  cases entry with
  | call => rfl
  | script p =>
    rw [startScript_eq]
    have silent := (cautious_pushFrame { closure := (m.world.newClosure p).1 }).silent (m.laidOut p)
    cases run : (pushFrame { closure := (m.world.newClosure p).1 }).run (m.laidOut p) with
    | ok v m' =>
      rw [after_of_ok run] at silent
      exact silent
    | error f m' =>
      rw [after_of_error run] at silent
      cases f <;> exact silent

/-- A run of the host that gives an error ends with it. -/
theorem HostEntry.raises {s : Activity} (entry : HostEntry m s) {fuel : Nat} {e : RuntimeError} {m' : Machine}
    (answer : s.run fuel = some (.error e, m')) :
    ∃ inner a, Run (fun _ => True) s inner a ∧ a.control = .raise e ∧ a.step = .done (.error e) m' := by
  obtain ⟨inner, a, run, ended⟩ := Run.ends .start answer
  refine ⟨inner, a, run, ?_, ended⟩
  cases (run.standing entry.standing).final ended with
  | dropped raises => exact raises
  | failed raises => exact raises

/-- Errors point at the instruction that fails. Take any machine that a host can have, and a script or a call
that the host runs on it. Whenever an entry ends with an error, that of the host or one of a native function
deep inside, exactly one report is added: it has the error, and one line for each call under way, which names
the call (the script, a function, or a method with its class) and gives the line of the instruction that it has
executed last. The error itself is in the line of the innermost call, unless it is the one that a native function
throws. No other move adds a report, except that `call_name` adds one for a global that is not there, as the
host's own call of such a global does. -/
theorem errors_point_at_instructions :
    (∀ s : Session, s.Reachable → ∃ past, Lived past s.machine) ∧
      (∀ (m : Machine) name args, m.globals.get? name = none →
        ∃ e m', (callNamed name args).run m = .ok (.value (.str e.report)) m' ∧ e.cause = .undefinedVariable name ∧
          m'.diagnostics = m.diagnostics.push (m.reportOf e)) ∧
      ∀ past m, Lived past m →
        (∀ s, HostEntry m s → s.machine.diagnostics = m.diagnostics ∧
          ∀ inner a, Run (fun _ => True) s inner a →
            (∀ e, a.control = .raise e →
              (∃ d, a.step.machine.diagnostics = a.machine.diagnostics.push d ∧
                Report (inner ++ past) a.machine e d) ∧
              (Points (inner ++ past) a.machine.frames e.span ∨
                ∃ x older, inner = x :: older ∧ x.called? = some .raise ∧ (Fault.error e).Thrown)) ∧
            ((∀ e, a.control ≠ .raise e) → a.step.machine.diagnostics = a.machine.diagnostics ∨
              a.called? = some .callName ∧ ∃ name e d, a.machine.globals.get? name = none ∧
                e.cause = .undefinedVariable name ∧
                a.step.machine.diagnostics = a.machine.diagnostics.push d ∧
                Report (a :: inner ++ past) a.underway e d ∧
                Points (a :: inner ++ past) a.underway.frames e.span)) ∧
        (∀ fuel p e m', interpret fuel m p = some (.error e, m') →
          ∃ inner a, Run (fun _ => True) (m.startScript p) inner a ∧ a.control = .raise e ∧
            a.step = .done (.error e) m') ∧
        (∀ fuel callee args e m', callValue fuel m callee args = some (.error e, m') →
          ∃ inner a, Run (fun _ => True) (m.startCall callee args) inner a ∧ a.control = .raise e ∧
            a.step = .done (.error e) m') ∧
        (∀ fuel name args e m', callGlobal fuel m name args = some (.error e, m') →
          (∃ callee inner a, m.globals.get? name = some callee ∧
            Run (fun _ => True) (m.startCall callee args) inner a ∧ a.control = .raise e ∧
            a.step = .done (.error e) m') ∨
          ∃ d, m.globals.get? name = none ∧ e.cause = .undefinedVariable name ∧
            m'.diagnostics = m.diagnostics.push d ∧ Report past m e d ∧ Points past m.frames e.span) := by
  refine ⟨fun s reachable => reachable.lived,
    fun m name args missing => ⟨_, _, run_callNamed_of_missing args missing, rfl, rfl⟩,
    fun past m lived => ⟨fun s entry => ⟨entry.diagnostics, fun inner a run => ?_⟩,
    fun fuel p e m' answer => (HostEntry.script p).raises answer,
    fun fuel callee args e m' answer => (HostEntry.call callee args).raises answer, fun fuel name args e m' answer => ?_⟩⟩
  · have standing := run.standing entry.standing
    have placed := run.placed lived.placed entry
    refine ⟨fun e control => ?_, fun calm => ?_⟩
    · rw [waiting_of_ne (by simp [control])] at placed
      obtain ⟨p, ps, pending⟩ : ∃ p ps, a.pending = p :: ps := by
        cases pending : a.pending with
        | nil => cases pending ▸ standing.nested
        | cons p ps => exact ⟨p, ps, rfl⟩
      refine ⟨⟨_, diagnostics_of_raise control pending, placed.report e⟩, ?_⟩
      rcases run.span_of_raise entry control with inPlace | thrown
      · rw [inPlace]
        exact .inl placed.points
      · exact .inr thrown
    · rcases diagnostics_step standing calm with same | ⟨called, name, missing, added⟩
      · exact .inl same
      · have placed := placed.underway standing called
        exact .inr ⟨called, name, _, _, missing, rfl, added, placed.report _, placed.points⟩
  · unfold callGlobal at answer
    split at answer
    next callee found =>
      obtain ⟨inner, a, run, control, ended⟩ := (HostEntry.call callee args).raises answer
      exact .inl ⟨callee, inner, a, found, run, control, ended⟩
    next missing =>
      cases answer
      exact .inr ⟨_, missing, rfl, rfl, lived.placed.report _, lived.placed.points⟩

/-- A function that throws in line 8. -/
def refusal : Proto :=
  { id := 0, name := "refuse", chunk := { code := #[{ op := .pushTrue }, { op := .throwTop }], lines := #[7, 8] } }

/-- A script that makes `refusal` a method of a class, lets a native function call it on an instance in line 4,
and throws what it gets in line 5. -/
def refusedScript : Proto :=
  { id := 1
    chunk :=
      { code := #[{ op := .getGlobal }, { op := .newClass, a := 1 }, { op := .closure, a := 2 },
          { op := .method, a := 3 }, { op := .new }, { op := .getProperty, a := 3 }, { op := .call, a := 1 },
          { op := .throwTop }]
        constants := #[.text "attempt", .text "Vault", .function refusal, .text "refuse"]
        lines := #[3, 3, 3, 3, 3, 3, 4, 5] } }

/-- The names and lines of all reports, if a run has ended with an error. -/
def reported : Outcome × Machine → Option (List (List (Text × Nat)))
  | (.error _, m) => some (m.diagnostics.toList.map fun d => d.trace.map fun t => (t.function, t.line))
  | _ => none

/-- What `refusedScript` gets reported. -/
def refusedTraces : List (List (Text × Nat)) := [[("Vault.refuse", 8), ("<script>", 4)], [("<script>", 5)]]

/-- Both errors are reported, the one inside first, with the lines of all calls. -/
theorem refusedScript_reports :
    ∃ e m' inner a d, interpret 30 (Session.start {} .info 0).machine refusedScript = some (.error e, m') ∧
      Run (fun _ => True) ((Session.start {} .info 0).machine.startScript refusedScript) inner a ∧
      m'.diagnostics = a.machine.diagnostics.push d ∧ Report inner a.machine e d ∧
      reported (.error e, m') = some refusedTraces := by
  have shown : (interpret 30 (Session.start {} .info 0).machine refusedScript).bind reported = some refusedTraces := by
    decide +kernel
  obtain ⟨⟨o, m'⟩, answer, reports⟩ := Option.bind_eq_some_iff.1 shown
  cases o with
  | value v => cases reports
  | missingConstant => cases reports
  | error e =>
    obtain ⟨-, -, holds⟩ := errors_point_at_instructions
    obtain ⟨accounts, interprets, -⟩ := holds [] (Session.start {} .info 0).machine (.idle rfl)
    obtain ⟨inner, a, run, control, ended⟩ := interprets 30 refusedScript e m' answer
    obtain ⟨⟨d, added, report⟩, -⟩ := ((accounts _ (.script refusedScript)).2 inner a run).1 e control
    rw [ended] at added
    rw [List.append_nil] at report
    exact ⟨e, m', inner, a, d, answer, run, added, report, reports⟩

end

end ScriptVm.Activity
