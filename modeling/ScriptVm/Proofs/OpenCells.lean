import ScriptVm.Proofs.CarefulRuns

/-!
# Which cells stay open after scripts

A script that ends with a result leaves no cell open: its first call starts at the bottom of the
stack and gives up every slot. A script that ends with an error drops the stack without closing the
cells on it, and such a cell is on its slot for good, whatever script owns the slot later.
`cells_after_scripts` says that nothing else leaves a cell open.
-/

set_option autoImplicit false

namespace ScriptVm

open Machine Exec Stacks Variables

/-! ## The call at the bottom -/

/-- The outermost call begins at the bottom of the stack. -/
def Bottom (fs : List Frame) : Prop := ∀ f, fs.getLast? = some f → f.base = 0

namespace Bottom

variable {f : Frame} {fs gs : List Frame}

/-- A call on top of others does not matter. -/
theorem cons (h : Bottom fs) (some : fs ≠ []) (f : Frame) : Bottom (f :: fs) := by
  cases fs with
  | nil => exact absurd rfl some
  | cons g rest =>
    intro f' hf
    rw [List.getLast?_cons_cons] at hf
    exact h f' hf

theorem tail (h : Bottom (f :: fs)) : Bottom fs := by
  cases fs with
  | nil => exact nofun
  | cons g rest =>
    intro f' hf
    refine h f' ?_
    rw [List.getLast?_cons_cons]
    exact hf

/-- What is left of the calls still stands on the first one. -/
theorem truncated (h : Bottom fs) (depth : Nat) : Bottom (Machine.truncated fs depth) := by
  intro f hf
  rw [Machine.truncated, List.getLast?_drop] at hf
  split at hf
  · cases hf
  · exact h f hf

theorem move (h : Bottom (f :: fs)) (ip : Nat) : Bottom ({ f with ip } :: fs) := by
  cases fs with
  | nil =>
    intro f' hf
    cases hf
    exact h f rfl
  | cons g rest => exact h.tail.cons (List.cons_ne_nil _ _) _

theorem sameCalls (h : Bottom fs) (same : SameCalls fs gs) : Bottom gs := by
  cases same with
  | nil => exact h
  | cons f ip rest => exact h.move ip

/-- No instruction moves the first call off the bottom. -/
theorem effect {i : Instruction} {m : Machine} {rest : List Frame} {out : Except Fault Progress} {s : Stacks}
    (effect : Effect i m f rest out s) (frames : m.frames = f :: rest) (h : Bottom m.frames) : Bottom s.frames := by
  have rest' : Bottom rest := by
    rw [frames] at h
    exact h.tail
  cases effect with
  | stays _ _ stays => exact h.sameCalls stays.frames
  | @enters s g op stays same slot iterations =>
    show Bottom (g :: s.frames)
    rw [same]
    exact h.cons (by rw [frames]; exact List.cons_ne_nil _ _) g
  | ends op last => exact rest'
  | goesBack op more => exact rest'
  | @catches r rs op handlers reached =>
    have cut := h.truncated r.frameDepth
    show Bottom (catching r m.frames)
    unfold catching
    split
    · exact nofun
    next g gs eq =>
      rw [eq] at cut
      exact cut.move _
  | advances op current head stays => exact h.sameCalls stays.frames
  | _ => exact h

end Bottom

/-- An entry inside a script has calls around it. -/
theorem Nested.positive {ps : List Pending} (h : Nested ps) {p q : Pending} (innermost : ps.head? = some p)
    (called : p.caller ≠ .script) (outermost : ps.getLast? = some q) (script : q.caller = .script) :
    0 < p.depths.frames := by
  induction h generalizing p with
  | @host p' caller =>
    cases innermost
    cases outermost
    exact absurd script called
  | instruction caller runBase deeper =>
    cases innermost
    omega
  | entry caller level outer called' ih =>
    cases innermost
    rw [List.getLast?_cons_cons] at outermost
    rw [level]
    exact ih rfl called' outermost

/-- Only the outermost entry is one of the host. -/
theorem Nested.eq_singleton {p : Pending} {ps : List Pending} (h : Nested (p :: ps))
    (host : p.caller = .script ∨ p.caller = .host) : ps = [] := by
  cases ps with
  | nil => rfl
  | cons q ps =>
    obtain ⟨script, host'⟩ := h.made (List.cons_ne_nil _ _)
    rcases host with h | h <;> contradiction

namespace Activity

variable {a b : Activity}

/-- A script is under way. When it has a result, no cell is open. -/
structure Scripted (a : Activity) : Prop where
  standing : a.Standing
  outermost : ∃ q, a.pending.getLast? = some q ∧ q.caller = .script ∧ q.depths.frames = 0
  bottom : Bottom a.machine.frames
  settled : ∀ v p, a.control = .deliver v → a.pending = [p] → a.machine.openCells = []

/-- The last return of a script closes every cell. -/
theorem openCells_of_ends {p : Pending} {i : Instruction} {m m' : Machine} {f : Frame} {rest : List Frame} {v : Value}
    (frames : m.frames = f :: rest) (bottom : Bottom m.frames) (base : p.depths.frames = m.runBase)
    (none : p.depths.frames = 0) (effect : Effect i m f rest (.ok (.returned v)) m'.stacked)
    (after : (execute i).after m = m') : m'.openCells = [] := by
  have last : i.op = .ret ∧ rest.length ≤ m.runBase := by
    generalize m'.stacked = s at effect
    cases effect with
    | stays runs => exact absurd rfl (runs v)
    | ends op last => exact ⟨op, last⟩
  obtain ⟨op, x, y⟩ := i
  obtain ⟨rfl, last⟩ := last
  have alone : rest = [] := List.length_eq_zero_iff.1 (by omega)
  have zero : f.base = 0 := bottom f (by rw [frames, alone]; rfl)
  have captured := captured_ret frames
  rw [show returnFrom.after m = m' from after, zero] at captured
  have openCells : m'.openCells = m.openCells.filter fun o => decide (o.slot < 0) :=
    congrArg Variables.openCells captured
  rw [openCells, List.filter_eq_nil_iff]
  intro o ho below
  exact Nat.not_lt_zero _ (of_decide_eq_true below)

/-- What is outside an entry of a native function has the same outermost entry. -/
theorem getLast?_outer {p q : Pending} {ps : List Pending} (outermost : (p :: ps).getLast? = some q)
    (script : q.caller = .script) (called : p.caller ≠ .script) : ps.getLast? = some q := by
  cases ps with
  | nil =>
    cases outermost
    exact absurd script called
  | cons p' ps =>
    rw [List.getLast?_cons_cons] at outermost
    exact outermost

/-- Nor does an error that goes back to what an entry found. -/
theorem bottom_unwound {m m' : Machine} {p : Pending} {e : RuntimeError} (bottom : Bottom m.frames)
    (stacked : m'.stacked = (unwound m p e).stacked) : Bottom m'.frames := by
  have frames : m'.frames = truncated m.frames p.depths.frames :=
    (congrArg Stacks.frames stacked).trans (frames_unwound m p e)
  rw [frames]
  exact bottom.truncated _

/-- The run of a script goes on when a native function has its value. -/
theorem Resumed.scripted {p q : Pending} {ps : List Pending} {m : Machine} (resumed : Resumed m ps p.caller b)
    (standing : b.Standing) (nested : Nested (p :: ps)) (outermost : (p :: ps).getLast? = some q)
    (script : q.caller = .script) (none : q.depths.frames = 0) (bottom : Bottom m.frames) : b.Scripted := by
  have outer := getLast?_outer outermost script resumed.made.1
  cases resumed with
  | returns called completed =>
    cases completed with
    | instruction => exact ⟨standing, ⟨q, outer, script, none⟩, bottom, nofun⟩
    | entry =>
      refine ⟨standing, ⟨q, outer, script, none⟩, bottom, fun v' p' _ alone => ?_⟩
      -- a script is not entered by a native function
      have alone : ps = [p'] := alone
      subst alone
      cases outer
      cases nested with
      | instruction caller => cases caller.symm.trans called
      | entry _ _ _ called' => exact absurd script called'
  | asks => exact ⟨standing, ⟨q, outer, script, none⟩, bottom, nofun⟩

/-- A native function enters the machine inside the run of a script. -/
theorem getLast?_inner {p q : Pending} {ps : List Pending} (outermost : ps.getLast? = some q) :
    (p :: ps).getLast? = some q := by
  cases ps with
  | nil => cases outermost
  | cons p' ps =>
    rw [List.getLast?_cons_cons]
    exact outermost

/-- Every move keeps the entries of a script nested, with its own entry outermost. -/
theorem Scripted.step (h : a.Scripted) (step : a.step = .continue b) : b.Scripted := by
  have standing := h.standing.step step
  obtain ⟨q, outermost, script, none⟩ := h.outermost
  have fetched : ∀ {p : Pending} {i : Instruction} {m : Machine} {f : Frame} {rest : List Frame},
      Executing a p i m f rest → Bottom m.frames :=
    fun executing => h.bottom.sameCalls executing.stays.frames
  cases h.standing.next step with
  | @executed p i m m' f rest out c control executing effect after leads =>
    have bottom := (fetched executing).effect effect executing.frames
    refine ⟨standing, ⟨q, outermost, script, none⟩, bottom, fun v p' ends alone => ?_⟩
    cases leads with
    | returned =>
      have innermost := executing.innermost
      have alone : a.pending = [p'] := alone
      rw [alone] at innermost outermost
      cases innermost
      cases outermost
      exact openCells_of_ends executing.frames (fetched executing) executing.runBase none effect after
    | next => cases ends
    | asked => cases ends
    | failed => cases ends
  | called control executing effect =>
    have bottom := (fetched executing).effect effect executing.frames
    exact ⟨standing, ⟨q, getLast?_inner outermost, script, none⟩, bottom, by simp⟩
  | @entered callee args m g control stays frames =>
    refine ⟨standing, ⟨q, outermost, script, none⟩, ?_, by simp⟩
    obtain ⟨p, ps, pending, called, level⟩ := h.standing.invoking control
    have innermost : a.pending.head? = some p := by rw [pending, List.head?_cons]
    have positive := h.standing.nested.positive innermost called outermost script
    rw [level] at positive
    show Bottom (g :: m.frames)
    rw [frames]
    exact h.bottom.cons (List.ne_nil_of_length_pos positive) g
  | answered control stays frames =>
    refine ⟨standing, ⟨q, outermost, script, none⟩, frames ▸ h.bottom, fun v p' _ alone => ?_⟩
    obtain ⟨p, ps, pending, called, -⟩ := h.standing.invoking control
    have alone : a.pending = [p'] := alone
    rw [alone] at pending outermost
    cases pending
    cases outermost
    exact absurd script called
  | reentered control stays frames =>
    exact ⟨standing, ⟨q, getLast?_inner outermost, script, none⟩, frames ▸ h.bottom, by simp⟩
  | @completed byEntry c m v b control acted completed =>
    have bottom : Bottom b.machine.frames := by
      rw [completed.frames, show m.frames = a.machine.frames from congrArg Stacks.frames acted.stacked]
      exact h.bottom
    refine ⟨standing, ⟨q, completed.pending ▸ outermost, script, none⟩, bottom, fun v' p' ends alone => ?_⟩
    have rooted := h.standing.rooted
    rw [Rooted, control] at rooted
    cases completed with
    | instruction => cases ends
    | entry =>
      obtain ⟨p, ps, pending, called, -⟩ := rooted
      have alone : a.pending = [p'] := alone
      rw [alone] at pending outermost
      cases pending
      cases outermost
      exact absurd script called
  | @calledBack byEntry c m callee args control acted =>
    have frames : m.frames = a.machine.frames := congrArg Stacks.frames acted.stacked
    exact ⟨standing, ⟨q, getLast?_inner outermost, script, none⟩, frames ▸ h.bottom, by simp⟩
  | @told byEntry c m k control acted told =>
    have frames : m.frames = a.machine.frames := congrArg Stacks.frames acted.stacked
    exact ⟨standing, ⟨q, outermost, script, none⟩, frames ▸ h.bottom, by cases told <;> simp⟩
  | delivered control pending resumed =>
    exact resumed.scripted standing (pending ▸ h.standing.nested) (pending ▸ outermost) script none h.bottom
  | recovered control pending stacked captured resumed =>
    exact resumed.scripted standing (pending ▸ h.standing.nested) (pending ▸ outermost) script none
      (bottom_unwound h.bottom stacked)
  | rethrown control pending called host stacked =>
    rw [pending] at outermost
    exact ⟨standing, ⟨q, getLast?_outer outermost script called, script, none⟩, bottom_unwound h.bottom stacked,
      by simp⟩

/-- A script begins at the bottom of the stack, with no cell open. -/
theorem scripted_startScript (m : Machine) (p : Proto) : (m.startScript p).Scripted := by
  have standing := standing_startScript m p
  rw [startScript_eq] at standing ⊢
  have run := run_pushFrame { closure := (m.world.newClosure p).1 } (m.laidOut p)
  split at run
  · rw [run] at standing ⊢
    exact ⟨standing, ⟨_, rfl, rfl, rfl⟩, nofun, nofun⟩
  · rw [run] at standing ⊢
    refine ⟨standing, ⟨_, rfl, rfl, rfl⟩, fun f hf => ?_, nofun⟩
    cases hf
    rfl

/-- A script begins without captured variables on the stack, since the machine has been reset. -/
theorem captured_startScript (m : Machine) (p : Proto) :
    (m.startScript p).machine.captured = ⟨[], m.heap.cells⟩ := by
  rw [startScript_eq]
  have run := run_pushFrame { closure := (m.world.newClosure p).1 } (m.laidOut p)
  split at run
  · rw [run]
    rfl
  · rw [run]
    exact (plain_note (b := true) (n := 0) (m := m.laidOut p) .trace _).keeps.captured

/-! ## The last value of a captured variable -/

/-- The last value of a captured variable in a history, latest activity first: what its slot had when
it was last on the stack, or what has been assigned to it since. -/
def lastValue (r : Ref .cell) : List Activity → Option Value
  | [] => none
  | a :: earlier =>
    match a.machine.heap.cells.get r with
    | .onStack s => some (a.machine.slot s)
    | .closed _ =>
      match a.assigned with
      | some (r', v) => if r' = r then some v else lastValue r earlier
      | none => lastValue r earlier

/-- A cell on a slot last had the value of the slot. -/
theorem lastValue_of_onStack {r : Ref .cell} {s : Nat} (earlier : List Activity)
    (cell : a.machine.heap.cells.get r = .onStack s) : lastValue r (a :: earlier) = some (a.machine.slot s) := by
  rw [lastValue, cell]

/-- A cell of its own last had the value that was assigned to it. -/
theorem lastValue_of_assigned {r : Ref .cell} {u v : Value} (earlier : List Activity)
    (cell : a.machine.heap.cells.get r = .closed u) (assigned : a.assigned = some (r, v)) :
    lastValue r (a :: earlier) = some v := by
  rw [lastValue, cell, assigned]
  exact if_pos rfl

/-- A cell that nobody assigns to keeps its value. -/
theorem lastValue_of_closed {r : Ref .cell} {u : Value} (earlier : List Activity)
    (cell : a.machine.heap.cells.get r = .closed u) (other : ∀ v, a.assigned ≠ some (r, v)) :
    lastValue r (a :: earlier) = lastValue r earlier := by
  rw [lastValue, cell]
  simp only
  split
  next r' v assigned =>
    refine if_neg fun same => other v ?_
    rw [assigned, same]
  next => rfl

/-- The captured variables `c` are what the history leads to expect: a cell is on the stack if it is
open or was open when an error dropped a script, and else it has the variable's last value. -/
structure Accounted (lost : List OpenCell) (history : List Activity) (c : Variables) : Prop where
  sound : c.Sound
  onStack : ∀ r s, c.cells.get r = .onStack s → ⟨s, r⟩ ∈ c.openCells ∨ ⟨s, r⟩ ∈ lost
  lost : ∀ o ∈ lost, c.cells.get o.cell = .onStack o.slot ∧ o ∉ c.openCells
  closed : ∀ r v, c.cells.has r → c.cells.get r = .closed v → lastValue r history = some v

variable {lost : List OpenCell} {history : List Activity}

/-- Every turn of the captured variables is accounted for. -/
theorem Accounted.turn {values : Array Value} {allowed : Nat → Prop} {c : Variables}
    (h : Accounted lost history a.machine.captured)
    (turn : Turn values allowed a.assigned a.machine.captured c)
    (agree : ∀ o ∈ a.machine.openCells, values.getD o.slot .null = a.machine.slot o.slot) :
    Accounted lost (a :: history) c := by
  refine ⟨turn.sound h.sound, fun r s cell => ?_, fun o ho => ?_, fun r v known cell => ?_⟩
  · by_cases known : a.machine.heap.cells.has r
    · cases before : a.machine.heap.cells.get r with
      | onStack s' =>
        rcases turn.onStack h.sound before with ⟨same, kept⟩ | ⟨-, -, closed⟩
        · have slot : s' = s := Cell.onStack.inj (same.symm.trans cell)
          subst slot
          exact (h.onStack r s' before).imp_left kept
        · cases closed.symm.trans cell
      | closed u =>
        rcases turn.closed h.sound known before with ⟨v, -, closed⟩ | ⟨-, closed⟩
        · cases closed.symm.trans cell
        · cases closed.symm.trans cell
    · obtain ⟨s', cell', opened⟩ := turn.new (Pool.has_of_onStack cell) known
      have slot : s' = s := Cell.onStack.inj (cell'.symm.trans cell)
      exact .inl (slot ▸ opened)
  · obtain ⟨before, notOpen⟩ := h.lost o ho
    have notOpen' : o ∉ c.openCells := by
      intro opened
      rcases turn.opened opened with opened | ⟨new, -⟩
      · exact notOpen opened
      · exact new (Pool.has_of_onStack before)
    rcases turn.onStack h.sound before with ⟨same, -⟩ | ⟨opened, -, -⟩
    · exact ⟨same, notOpen'⟩
    · exact absurd opened notOpen
  · by_cases known' : a.machine.heap.cells.has r
    · cases before : a.machine.heap.cells.get r with
      | onStack s =>
        rw [lastValue_of_onStack history before]
        rcases turn.onStack h.sound before with ⟨same, -⟩ | ⟨opened, -, closed⟩
        · cases same.symm.trans cell
        · rw [agree _ opened] at closed
          exact congrArg some (Cell.closed.inj (closed.symm.trans cell))
      | closed u =>
        rcases turn.closed h.sound known' before with ⟨v', assigned, closed⟩ | ⟨other, closed⟩
        · rw [lastValue_of_assigned history before assigned]
          exact congrArg some (Cell.closed.inj (closed.symm.trans cell))
        · rw [lastValue_of_closed history before other]
          have same : u = v := Cell.closed.inj (closed.symm.trans cell)
          exact same ▸ h.closed r u known' before
    · obtain ⟨s, cell', -⟩ := turn.new known known'
      cases cell'.symm.trans cell

/-- An error that drops the script loses the open cells. -/
theorem Accounted.dropped (h : Accounted lost history a.machine.captured) (silent : a.assigned = none) :
    Accounted (a.machine.openCells ++ lost) (a :: history) ⟨[], a.machine.heap.cells⟩ := by
  refine ⟨nofun, fun r s cell => .inr (List.mem_append.2 (h.onStack r s cell)), fun o ho => ⟨?_, nofun⟩,
    fun r v known cell => ?_⟩
  · rcases List.mem_append.1 ho with opened | before
    · exact h.sound o opened
    · exact (h.lost o before).1
  · rw [lastValue_of_closed history cell (by simp [silent])]
    exact h.closed r v known cell

/-! ## Whole scripts -/

/-- The activities of a run, latest first. -/
def moves : Nat → Activity → List Activity
  | 0, _ => []
  | fuel + 1, a =>
    match a.step with
    | .continue b => b.moves fuel ++ [a]
    | .done _ _ => [a]

/-- The last activity of a run. -/
def last : Nat → Activity → Activity
  | 0, a => a
  | fuel + 1, a =>
    match a.step with
    | .continue b => b.last fuel
    | .done _ _ => a

/-- The cells that a script leaves open when it ends from `a` in this way. -/
def leftOpen (a : Activity) : Outcome → List OpenCell
  | .error _ => a.machine.openCells
  | _ => []

/-- A script that ends with a result has no cell open, and one that ends with an error forgets them. -/
theorem Scripted.done {o : Outcome} {m : Machine} (h : a.Scripted) (ended : a.step = .done o m)
    (answered : o ≠ .missingConstant) :
    (a.Dropping ∧ (∃ e, o = .error e) ∧ m.captured = ⟨[], a.machine.heap.cells⟩) ∨
      ¬a.Dropping ∧ (∃ v, o = .value v) ∧ m.openCells = [] := by
  obtain ⟨q, outermost, script, -⟩ := h.outermost
  have alone : ∀ {p : Pending} {ps : List Pending}, a.pending = p :: ps →
      p.caller = .script ∨ p.caller = .host → ps = [] ∧ p.caller = .script := by
    intro p ps pending host
    have nested := h.standing.nested
    rw [pending] at nested outermost
    have single := nested.eq_singleton host
    rw [single] at outermost
    cases outermost
    exact ⟨single, script⟩
  cases h.standing.final ended with
  | missing => exact absurd rfl answered
  | missingCall => exact absurd rfl answered
  | @delivered v p ps m control pending caller frames handlers captured =>
    obtain ⟨single, script⟩ := alone pending caller
    refine .inr ⟨?_, ⟨v, rfl⟩, ?_⟩
    · rintro ⟨e, _, _, raise, _, _⟩
      cases control.symm.trans raise
    · have openCells : m.openCells = a.machine.openCells := congrArg Variables.openCells captured
      rw [openCells]
      exact h.settled v p control (single ▸ pending)
  | @dropped e p ps control pending caller => exact .inl ⟨⟨e, p, ps, control, pending, caller⟩, ⟨e, rfl⟩, rfl⟩
  | failed control pending caller => cases caller.symm.trans (alone pending (.inr caller)).2

/-- What a careful script leaves behind. -/
theorem accounted_run {fuel : Nat} {o : Outcome} {m : Machine} (h : a.Scripted) (live : a.machine.Live)
    (accounted : Accounted lost history a.machine.captured) (careful : ∀ b ∈ a.moves fuel, b.Careful)
    (run : a.run fuel = some (o, m)) (answered : o ≠ .missingConstant) :
    Accounted ((a.last fuel).leftOpen o ++ lost) (a.moves fuel ++ history) m.captured ∧ m.openCells = [] := by
  induction fuel generalizing a history with
  | zero => cases run
  | succ fuel ih =>
    cases step : a.step with
    | «continue» b =>
      simp only [Activity.run, moves, last, step] at run careful ⊢
      have careful' := careful a (List.mem_append_right _ (.head _))
      have keeps : ¬a.Dropping := fun dropping => by
        obtain ⟨e, m', done, -⟩ := step_of_dropping dropping
        cases step.symm.trans done
      have turn := turn_step h.standing accounted.sound keeps
      rw [step] at turn
      have after := accounted.turn turn fun o ho => getD_givenUp_of_careful h.standing careful' live ho
      rw [List.append_assoc]
      exact ih (h.step step) (live_step h.standing accounted.sound careful' live step) after
        (fun b' hb => careful b' (List.mem_append_left _ hb)) run
    | done o' m' =>
      simp only [Activity.run, moves, last, step, Option.some.injEq, Prod.mk.injEq] at run careful ⊢
      obtain ⟨rfl, rfl⟩ := run
      rcases h.done step answered with ⟨dropping, ⟨e, rfl⟩, captured⟩ | ⟨keeps, ⟨v, rfl⟩, none⟩
      · have silent : a.assigned = none := by
          obtain ⟨e, p, ps, control, -, -⟩ := dropping
          exact assigned_of_ne (by simp [control])
        rw [captured]
        exact ⟨accounted.dropped silent, congrArg Variables.openCells captured⟩
      · have turn := turn_step h.standing accounted.sound keeps
        rw [step] at turn
        exact ⟨accounted.turn turn fun o ho =>
          getD_givenUp_of_careful h.standing (careful a (.head _)) live ho, none⟩

/-- Scripts that a machine has run one after the other, every instruction of them careful and each with
a result or an error at the end: all activities, latest first, and the cells that errors left open. -/
inductive Scripts (m₀ : Machine) : List Activity → List OpenCell → Machine → Prop where
  | none : Scripts m₀ [] [] m₀
  | ran {history : List Activity} {lost : List OpenCell} {m m' : Machine} {fuel : Nat} {p : Proto} {o : Outcome}
      (before : Scripts m₀ history lost m) (run : m.interpret fuel p = some (o, m'))
      (careful : ∀ a ∈ (m.startScript p).moves fuel, a.Careful) (answered : o ≠ .missingConstant) :
      Scripts m₀ ((m.startScript p).moves fuel ++ history) (((m.startScript p).last fuel).leftOpen o ++ lost) m'

/-- Scripts one after the other account for every cell. -/
theorem Scripts.accounted {m₀ m : Machine} (h : Scripts m₀ history lost m) (start : Accounted [] [] m₀.captured)
    (none : m₀.openCells = []) : Accounted lost history m.captured ∧ m.openCells = [] := by
  induction h with
  | none => exact ⟨start, none⟩
  | @ran history lost m m' fuel p o before run careful answered ih =>
    obtain ⟨accounted, closed⟩ := ih
    have captured : (m.startScript p).machine.captured = m.captured := by
      rw [captured_startScript, Machine.captured, closed]
    refine accounted_run (scripted_startScript m p) (fun o ho => ?_) (captured ▸ accounted) careful run answered
    have openCells : (m.startScript p).machine.openCells = [] :=
      (congrArg Variables.openCells captured).trans closed
    rw [openCells] at ho
    cases ho

/-! ## Later entries -/

/-- The activities of what the host does later with the captured variables `c`, script after script and
call after call. -/
inductive Later : Variables → Activity → Prop where
  | script {c : Variables} {m : Machine} (same : m.captured = c) (p : Proto) : Later c (m.startScript p)
  | call {c : Variables} {m : Machine} (same : m.captured = c) (callee : Value) (args : List Value) :
      Later c (m.startCall callee args)
  | move {c : Variables} {a b : Activity} (run : Later c a) (step : a.step = .continue b) : Later c b
  | again {c : Variables} {a b : Activity} {o : Outcome} {m : Machine} (run : Later c a) (ended : a.step = .done o m)
      (next : Later m.captured b) : Later c b

/-- What does not change any more: a cell with its own value does not go back to the stack, and a cell
that is on the stack without being open stays there. -/
structure Settles (c c' : Variables) : Prop where
  sound : c'.Sound
  closed : ∀ r v, c.cells.has r → c.cells.get r = .closed v → c'.cells.has r ∧ ∃ u, c'.cells.get r = .closed u
  stuck : ∀ r s, c.cells.get r = .onStack s → ⟨s, r⟩ ∉ c.openCells →
    c'.cells.get r = .onStack s ∧ ⟨s, r⟩ ∉ c'.openCells

/-- Cells settle one after the other. -/
theorem Settles.trans {c c' c'' : Variables} (h : Settles c c') (h' : Settles c' c'') : Settles c c'' := by
  refine ⟨h'.sound, fun r v known cell => ?_, fun r s cell notOpen => ?_⟩
  · obtain ⟨known', u, cell'⟩ := h.closed r v known cell
    exact h'.closed r u known' cell'
  · obtain ⟨cell', notOpen'⟩ := h.stuck r s cell notOpen
    exact h'.stuck r s cell' notOpen'

/-- Cells that stay as they are have settled. -/
theorem settles_refl {c : Variables} (sound : c.Sound) : Settles c c :=
  ⟨sound, fun _ v known cell => ⟨known, v, cell⟩, fun _ _ cell notOpen => ⟨cell, notOpen⟩⟩

theorem settles_dropped (c : Variables) : Settles c ⟨[], c.cells⟩ :=
  ⟨nofun, fun _ v known cell => ⟨known, v, cell⟩, fun _ _ cell _ => ⟨cell, nofun⟩⟩

/-- A turn lets cells settle and moves none to another slot. -/
theorem settles_turn {values : Array Value} {allowed : Nat → Prop} {w : Option (Ref .cell × Value)}
    {c c' : Variables} (sound : c.Sound) (turn : Turn values allowed w c c') : Settles c c' := by
  refine ⟨turn.sound sound, fun r v known cell => ⟨turn.known known, ?_⟩, fun r s cell notOpen => ⟨?_, ?_⟩⟩
  · rcases turn.closed sound known cell with ⟨u, -, closed⟩ | ⟨-, closed⟩
    · exact ⟨u, closed⟩
    · exact ⟨v, closed⟩
  · rcases turn.onStack sound cell with ⟨same, -⟩ | ⟨opened, -, -⟩
    · exact same
    · exact absurd opened notOpen
  · intro opened
    rcases turn.opened opened with opened | ⟨new, -⟩
    · exact notOpen opened
    · exact new (Pool.has_of_onStack cell)

/-- So does a move of the machine. -/
theorem settles_step (standing : a.Standing) (sound : a.machine.captured.Sound) :
    Settles a.machine.captured a.step.machine.captured := by
  by_cases dropping : a.Dropping
  · obtain ⟨e, m, step, captured⟩ := step_of_dropping dropping
    rw [step]
    show Settles _ m.captured
    rw [captured]
    exact settles_dropped _
  · exact settles_turn sound (turn_step standing sound dropping)

/-- So does any number of moves and entries. -/
theorem Later.settles {c : Variables} (h : Later c a) (sound : c.Sound) :
    a.Standing ∧ Settles c a.machine.captured := by
  induction h with
  | @script c m same p =>
    refine ⟨standing_startScript m p, ?_⟩
    rw [captured_startScript, ← same]
    exact settles_dropped _
  | @call c m same callee args =>
    refine ⟨standing_startCall m callee args, ?_⟩
    show Settles c m.captured
    rw [same]
    exact settles_refl sound
  | @move c a b run step ih =>
    obtain ⟨standing, settles⟩ := ih sound
    have next := settles_step standing settles.sound
    rw [step] at next
    exact ⟨standing.step step, settles.trans next⟩
  | @again c a b o m run ended next ih ih' =>
    obtain ⟨standing, settles⟩ := ih sound
    have done := settles_step standing settles.sound
    rw [ended] at done
    obtain ⟨standing', settles'⟩ := ih' done.sound
    exact ⟨standing', (settles.trans done).trans settles'⟩

end Activity

namespace Machine

/-- Reading and assigning the captured variable `r` is reading and writing slot `s` of the stack. -/
structure Aliases (m : Machine) (r : Ref .cell) (s : Nat) : Prop where
  reads : (readCell r).run m = .ok (m.slot s) m
  writes : ∀ v, (writeCell r v).run m = .ok () { m with stack := m.stack.setIfInBounds s v }

/-- Reading and assigning the captured variable `r` has nothing to do with the stack. -/
structure Detached (m : Machine) (r : Ref .cell) : Prop where
  reads : ∃ v, ∀ stack, (readCell r).run { m with stack } = .ok v { m with stack }
  writes : ∀ v, ∃ m', (writeCell r v).run m = .ok () m' ∧ m'.stack = m.stack

/-- A cell on a slot is read and written through the slot. -/
theorem aliases_of_onStack {m : Machine} {r : Ref .cell} {s : Nat} (cell : m.heap.cells.get r = .onStack s) :
    m.Aliases r s := by
  constructor
  · unfold readCell
    rw [run_bind_of_ok (run_get m), cell]
    rfl
  · intro v
    unfold writeCell
    rw [run_bind_of_ok (run_heap m), cell]
    rfl

/-- A cell of its own has nothing to do with the stack. -/
theorem detached_of_closed {m : Machine} {r : Ref .cell} {u : Value} (cell : m.heap.cells.get r = .closed u) :
    m.Detached r := by
  constructor
  · refine ⟨u, fun stack => ?_⟩
    unfold readCell
    rw [run_bind_of_ok (run_get _)]
    have cell : ({ m with stack } : Machine).heap.cells.get r = .closed u := cell
    rw [cell]
    rfl
  · intro v
    unfold writeCell
    rw [run_bind_of_ok (run_heap m), cell]
    exact ⟨_, rfl, rfl⟩

end Machine

namespace Activity

/-- A new machine has no captured variables on its stack. -/
theorem captured_fresh (config : Config) (natives : List Native) (world : World) :
    (Machine.fresh config natives world).captured = ⟨[], world.heap.cells⟩ := by
  have added : ∀ m : Machine, (natives.foldl withNative m).captured = m.captured := by
    induction natives with
    | nil => exact fun _ => rfl
    | cons n rest ih => exact fun m => ih (m.withNative n)
  rw [fresh_eq, added]
  rfl

/-- Which captured variables are still on the stack after careful scripts from a fresh machine: exactly
those that were there when an error ended a script. Whatever runs later, such a variable reads and
writes its slot of the stack, although it is another script's. Every other variable has the last
value of its slot, or what was assigned to it since, and never touches the stack again. -/
theorem cells_after_scripts {config : Config} {natives : List Native} {world : World} {history : List Activity}
    {lost : List OpenCell} {m : Machine} (fresh : world.heap.cells.size = 0)
    (ran : Scripts (Machine.fresh config natives world) history lost m) {r : Ref .cell}
    (made : m.heap.cells.has r) :
    (∀ s, ⟨s, r⟩ ∈ lost →
        m.heap.cells.get r = .onStack s ∧ ∀ a, Later m.captured a → a.machine.Aliases r s) ∧
      ((∀ s, ⟨s, r⟩ ∉ lost) →
        ∃ v, m.heap.cells.get r = .closed v ∧ lastValue r history = some v ∧
          ∀ a, Later m.captured a → a.machine.Detached r) := by
  have nothing : ∀ r, ¬world.heap.cells.has r := fun r known => by
    have known : r.index < world.heap.cells.size := known
    omega
  have captured := captured_fresh config natives world
  have start : Accounted [] [] (Machine.fresh config natives world).captured := by
    rw [captured]
    exact ⟨nofun, fun r s cell => absurd (Pool.has_of_onStack cell) (nothing r), nofun,
      fun r v known => absurd known (nothing r)⟩
  obtain ⟨accounted, closed⟩ := ran.accounted start (congrArg Variables.openCells captured)
  constructor
  · intro s left
    obtain ⟨cell, notOpen⟩ := accounted.lost _ left
    refine ⟨cell, fun a later => aliases_of_onStack ?_⟩
    exact ((later.settles accounted.sound).2.stuck r s cell notOpen).1
  · intro kept
    cases cell : m.heap.cells.get r with
    | onStack s =>
      rcases accounted.onStack r s cell with opened | left
      · have opened : ⟨s, r⟩ ∈ m.openCells := opened
        rw [closed] at opened
        cases opened
      · exact absurd left (kept s)
    | closed v =>
      refine ⟨v, rfl, accounted.closed r v made cell, fun a later => ?_⟩
      obtain ⟨-, u, cell'⟩ := (later.settles accounted.sound).2.closed r v made cell
      exact detached_of_closed cell'

/-- A function that gives the value of its captured variable. -/
def reader : Proto :=
  { id := 0, name := "f", captures := [⟨true, 1⟩], chunk := { code := #[{ op := .getUpvalue }, { op := .ret }] } }

/-- A script that captures a variable in a global function, and then asks for a global that is not there. -/
def failingScript : Proto :=
  { id := 1
    chunk :=
      { code := #[{ op := .constant }, { op := .closure, a := 1 }, { op := .defineGlobal, a := 2 },
          { op := .getGlobal, a := 3 }]
        constants := #[.int 42, .function reader, .text "f", .text "missing"] } }

/-- What `failingScript` leaves behind. -/
def failure : Outcome × Machine := (interpret 5 (Machine.fresh {} [] {}) failingScript).getD default

theorem careful_failingScript : ∀ a ∈ (startScript (Machine.fresh {} [] {}) failingScript).moves 5, a.Careful := by
  intro a ha
  cases ha with
  | head =>
    intro control
    cases control
  | tail _ ha =>
  cases ha with
  | head =>
    intro _ i m f rest run frames
    cases run
    cases frames
    exact ⟨nofun, fun _ _ _ => by decide, by decide⟩
  | tail _ ha =>
  cases ha with
  | head =>
    intro _ i m f rest run frames
    cases run
    cases frames
    exact ⟨nofun, fun _ _ _ => by decide, by decide⟩
  | tail _ ha =>
  cases ha with
  | head =>
    intro _ i m f rest run frames
    cases run
    cases frames
    exact ⟨by decide, fun _ _ _ => nofun, fun _ => nofun⟩
  | tail _ ha =>
  cases ha with
  | head =>
    intro _ i m f rest run frames
    cases run
    cases frames
    exact ⟨nofun, fun _ _ _ => nofun, fun _ => nofun⟩
  | tail _ ha => cases ha

theorem scripts_failingScript :
    Scripts (Machine.fresh {} [] {}) ((startScript (Machine.fresh {} [] {}) failingScript).moves 5)
      [⟨1, ⟨0⟩⟩] failure.2 :=
  .ran (o := failure.1) .none rfl careful_failingScript nofun

/-- The variable of `failingScript` stays on slot 1, whatever runs later. -/
theorem cells_after_failingScript :
    failure.2.heap.cells.get ⟨0⟩ = .onStack 1 ∧ ∀ a, Later failure.2.captured a → a.machine.Aliases ⟨0⟩ 1 :=
  (cells_after_scripts rfl scripts_failingScript (Pool.has_of_onStack (s := 1) rfl)).1 1 (by decide)

/-- A script with another value in slot 1 that calls the global function. -/
def otherScript : Proto :=
  { id := 2
    chunk :=
      { code := #[{ op := .constant }, { op := .getGlobal, a := 1 }, { op := .call }, { op := .ret }]
        constants := #[.int 7, .text "f"] } }

/-- The integer that a run has answered with. -/
def answered : Outcome × Machine → Option Int64
  | (.value (.int n), _) => some n
  | _ => none

/-- The variable of `failingScript` was last 42, and the global function that has captured it gives 7 when
`otherScript` calls it: it reads the slot of that script. -/
theorem failingScript_variable_reads_otherScript :
    Scripts (Machine.fresh {} [] {}) ((startScript (Machine.fresh {} [] {}) failingScript).moves 5)
        [⟨1, ⟨0⟩⟩] failure.2 ∧
      lastValue ⟨0⟩ ((startScript (Machine.fresh {} [] {}) failingScript).moves 5) = some (.int 42) ∧
      (∃ f, failure.2.globals.get? "f" = some (.closure f) ∧ (failure.2.heap.closures.get f).cells = [⟨0⟩]) ∧
      (interpret 7 failure.2 otherScript).bind answered = some 7 :=
  ⟨scripts_failingScript, rfl, ⟨_, rfl, rfl⟩, by decide +kernel⟩

end Activity

end ScriptVm
