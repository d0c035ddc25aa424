import ScriptVm.Proofs.ConfinedRuns

/-!
# Calls are isolated from what they find

In a run whose instructions keep to their own calls, a call leaves the stacks as it found them,
however deep it calls back into the machine and whether it returns, throws or fails. Slots below it
change only through captured variables that live there.

The main result is `Activity.call_isolated`.
-/

set_option autoImplicit false

namespace ScriptVm

open Machine Exec Stacks

/-- Call `f` has been made above the stacks `o` and is still under way in `s`. -/
structure Within (f : Frame) (o s : Stacks) : Prop where
  above : Above o s
  alive : ∃ inner ip, s.frames = inner ++ { f with ip } :: o.frames

namespace Within

variable {f : Frame} {o q s s' : Stacks}

/-- A call that is under way stays so when stacks grow. -/
theorem mono (h : Within f o q) (up : Above q s) : Within f o s := by
  obtain ⟨inner, ip, frames⟩ := h.alive
  obtain ⟨more, frames', -⟩ := up.frames
  exact ⟨h.above.trans up, more ++ inner, ip, by rw [frames', frames, List.append_assoc]⟩

/-- A slot below the call is written in what the call found, too. -/
theorem wrote (h : Within f o q) (w : Option (Nat × Value)) : Within f (o.wrote w) (q.wrote w) := by
  refine ⟨h.above.wrote w, ?_⟩
  cases w with
  | none => exact h.alive
  | some w => exact h.alive

/-- There is at least the call itself above what it found. -/
theorem depth_lt (h : Within f o s) : o.frames.length < s.frames.length := by
  obtain ⟨inner, ip, frames⟩ := h.alive
  rw [frames, List.length_append, List.length_cons]
  omega

/-- Going on elsewhere in the innermost call ends no call. -/
theorem alive_of_sameCalls {fs fs' : List Frame} (same : SameCalls fs fs')
    (alive : ∃ inner ip, fs = inner ++ { f with ip } :: o.frames) :
    ∃ inner ip, fs' = inner ++ { f with ip } :: o.frames := by
  obtain ⟨inner, ip, rfl⟩ := alive
  cases inner with
  | nil =>
    cases same with
    | cons _ ip' _ => exact ⟨[], ip', rfl⟩
  | cons g inner =>
    cases same with
    | cons _ ip' _ => exact ⟨{ g with ip := ip' } :: inner, ip, rfl⟩

/-- Fetching an instruction ends no call. -/
theorem fetched (h : Within f o s) (stays : Stays 0 s s') : Within f o s' :=
  ⟨h.above.stays stays h.depth_lt h.above.size, alive_of_sameCalls stays.frames h.alive⟩

/-- A region of the call or of an inner one catches. -/
theorem alive_of_catching {r : Handler} {fs : List Frame} (own : o.frames.length < r.frameDepth)
    (alive : ∃ inner ip, fs = inner ++ { f with ip } :: o.frames) :
    ∃ inner ip, catching r fs = inner ++ { f with ip } :: o.frames := by
  obtain ⟨inner, ip, rfl⟩ := alive
  unfold catching
  rw [truncated_append inner (by rw [List.length_cons]; omega)]
  cases truncated inner (r.frameDepth - ({ f with ip } :: o.frames).length) with
  | nil => exact ⟨[], r.catchIp, rfl⟩
  | cons g inner => exact ⟨{ g with ip := r.catchIp } :: inner, ip, rfl⟩

/-- A call lasts as long as there are calls above what it found. -/
theorem executed {i : Instruction} {m : Machine} {g : Frame} {rest : List Frame} {out : Except Fault Progress}
    (h : Within f o m.stacked) (effect : Effect i m g rest out s) (frames : m.frames = g :: rest)
    (confined : i.Confined m g) (lasts : o.frames.length < s.frames.length) :
    Within f (o.wrote (m.cellWrite g i)) s := by
  have length : m.frames.length = rest.length + 1 := by rw [frames, List.length_cons]
  have depth : o.frames.length < m.frames.length := h.depth_lt
  have reach : ∀ r rs, m.runBase < r.frameDepth → s = m.stacked.caught r rs m.top →
      o.frames.length < r.frameDepth := by
    rintro r rs - rfl
    have length : (m.stacked.caught r rs m.top).frames.length = min m.frames.length r.frameDepth :=
      length_catching r m.frames
    omega
  refine ⟨effect.above frames confined h.above (by omega) reach, ?_⟩
  have same : ∀ w, (o.wrote w).frames = o.frames := fun w => by cases w <;> rfl
  rw [same]
  have alive : ∃ inner ip, m.frames = inner ++ { f with ip } :: o.frames := h.alive
  have left : o.frames.length < rest.length → ∃ inner ip, rest = inner ++ { f with ip } :: o.frames := by
    intro lt
    obtain ⟨inner, ip, calls⟩ := alive
    rw [frames] at calls
    cases inner with
    | nil =>
      rw [List.nil_append, List.cons.injEq] at calls
      rw [calls.2] at lt
      omega
    | cons _ inner =>
      rw [List.cons_append, List.cons.injEq] at calls
      exact ⟨inner, ip, calls.2⟩
  cases effect with
  | stays _ _ stays => exact alive_of_sameCalls stays.frames alive
  | enters op stays calls slot iterations =>
    obtain ⟨inner, ip, calls'⟩ := alive
    exact ⟨_ :: inner, ip, by rw [calls, calls', List.cons_append]⟩
  | ends op last => exact left lasts
  | goesBack op more => exact left lasts
  | catches op handlers reached => exact alive_of_catching (reach _ _ reached rfl) alive
  | advances op current head stays => exact alive_of_sameCalls stays.frames alive
  | _ => exact alive

end Within

namespace Activity

/-- The depths of an entry lie below the stacks `o`. A script that fails drops everything, so that only
its number of calls matters. -/
structure Outside (p : Pending) (o : Stacks) : Prop where
  runBase : p.depths.frames = o.runBase
  frames : p.depths.frames ≤ o.frames.length
  depths : p.caller ≠ .script →
    p.depths.stack ≤ o.values.size ∧ p.depths.handlers ≤ o.handlers.length ∧
      p.depths.iterations ≤ o.iterations.length

/-- What a call finds: the stacks `o` below its callee slot, and the entries `ps`, the innermost of
which runs the call. -/
structure Begun (f : Frame) (o : Stacks) (ps : List Pending) : Prop where
  base : f.base = o.values.size
  iterBase : f.iterBase = o.iterations.length
  entry : ∃ p, ps.head? = some p ∧ Outside p o

/-- What a call found may change in its slots. -/
theorem Begun.wrote {f : Frame} {o : Stacks} {ps : List Pending} (h : Begun f o ps) (w : Option (Nat × Value)) :
    Begun f (o.wrote w) ps := by
  cases w with
  | none => exact h
  | some w =>
    obtain ⟨p, innermost, outside⟩ := h.entry
    have size : (o.assign w.1 w.2).values.size = o.values.size := Array.size_setIfInBounds
    refine ⟨h.base.trans size.symm, h.iterBase, p, innermost, outside.runBase, outside.frames, fun caller => ?_⟩
    show _ ≤ (o.assign w.1 w.2).values.size ∧ _
    rw [size]
    exact outside.depths caller

/-- The machine executes an instruction, asks the host about a function that an instruction called, or
has an error for the innermost entry. -/
def InCall (a : Activity) : Prop :=
  a.control = .execute ∨ (∃ c, a.control = .ask false c) ∨ ∃ e, a.control = .raise e

/-- The machine is busy with call `f` or with something that the call led to. -/
structure Inside (f : Frame) (o : Stacks) (ps : List Pending) (a : Activity) : Prop where
  tidy : a.Tidy
  entries : ∃ inner, a.pending = inner ++ ps ∧ Layers (Within f o) inner a.machine.stacked ∧
    (inner = [] → a.InCall)

/-- The entries inside a call do not reach below it. -/
theorem Layers.within {f : Frame} {o s : Stacks} {ps : List Pending} (h : Layers (Within f o) ps s) :
    Within f o s := by
  induction h with
  | base h => exact h
  | entry outer found above ih => exact ih.mono above

/-- Entries inside the call found it under way. -/
theorem Layers.found_within {f : Frame} {o s : Stacks} {p : Pending} {ps : List Pending}
    (h : Layers (Within f o) (p :: ps) s) : o.frames.length < p.depths.frames := by
  cases h with
  | entry outer found above =>
    rw [found.frames]
    exact (Layers.within outer).depth_lt

/-- The move from `a` to `b` is one of the innermost entry itself, or of an entry that the entry around
called. -/
def FromEntry (a b : Activity) : Prop :=
  (((∃ callee args, a.control = .invoke callee args) ∨ ∃ c, a.control = .ask true c) ∧ b.pending = a.pending) ∨
    ∃ p, a.pending = p :: b.pending ∧ p.caller.byEntry = some true

/-- Where a move to `b` that begins a call or hands over a result comes from. -/
def Source (a b : Activity) : Prop :=
  match b.control with
  | .invoke _ _ => ∃ p, b.pending = p :: a.pending
  | .deliver _ => (a.control = .execute ∧ b.pending = a.pending) ∨ FromEntry a b
  | .ask true _ => FromEntry a b
  | _ => True

/-- Handing a result on comes from the entry that has ended. -/
theorem Resumed.source {a b : Activity} {p : Pending} {ps : List Pending} {m : Machine}
    (resumed : Resumed m ps p.caller b) (pending : a.pending = p :: ps) : Source a b := by
  cases resumed with
  | returns called completed =>
    cases completed with
    | instruction => exact trivial
    | entry => exact .inr (.inr ⟨p, pending, called⟩)
  | @asks byEntry c c' called =>
    cases byEntry with
    | false => exact trivial
    | true => exact .inr ⟨p, pending, congrArg Caller.byEntry called⟩

/-- Whatever executing comes to, it is an effect on the stacks. -/
theorem Executes.effect {pending : List Pending} {i : Instruction} {m : Machine} {g : Frame} {rest : List Frame}
    {move : Move} (h : Executes pending i m g rest move) :
    ∃ out, Effect i m g rest out { move.machine.stacked with runBase := m.runBase } := by
  have inRun : ∀ {out : Except Fault Progress} {s : Stacks}, Effect i m g rest out s →
      Effect i m g rest out { s with runBase := m.runBase } := fun effect => by
    rw [← effect.runBase]
    exact effect
  cases h with
  | next effect => exact ⟨_, inRun effect⟩
  | ends effect => exact ⟨_, inRun effect⟩
  | reenters effect =>
    rw [machine_reenter]
    exact ⟨_, inRun effect⟩
  | @faults e m' effect =>
    cases e with
    | error e => exact ⟨_, inRun effect⟩
    | missingConstant =>
      have effect := inRun effect
      exact ⟨_, effect⟩

/-- An instruction that hands over a result has ended the first call of the run. -/
theorem Executes.left {pending : List Pending} {i : Instruction} {m : Machine} {g : Frame} {rest : List Frame}
    {b : Activity} (h : Executes pending i m g rest (.continue b)) {v : Value} (control : b.control = .deliver v) :
    b.machine.stacked = m.stacked.leave g rest ∧ rest.length ≤ m.runBase := by
  generalize move : Move.continue b = c at h
  cases h with
  | next effect =>
    cases move
    cases control
  | @ends v m' effect =>
    cases move
    exact effect.returned.2
  | @reenters r =>
    cases r <;> (cases move; cases control)
  | @faults e m' effect =>
    cases e with
    | missingConstant => cases move
    | error e =>
      cases move
      cases control

/-- When a run hands over its result, its calls have ended. -/
theorem Executes.ended {pending : List Pending} {i : Instruction} {m : Machine} {g : Frame} {rest : List Frame}
    {b : Activity} (h : Executes pending i m g rest (.continue b)) {v : Value} (control : b.control = .deliver v) :
    b.machine.frames = rest ∧ rest.length ≤ m.runBase := by
  obtain ⟨stacked, last⟩ := h.left control
  exact ⟨congrArg Stacks.frames stacked, last⟩

/-- How call `f`, which found the stacks `o` and the entries `ps`, ends with a move from `c`. -/
inductive Ending (f : Frame) (o : Stacks) (ps : List Pending) (c : Activity) : Move → Prop where
  /-- It returns to the call that made it, which finds the result on its stack. -/
  | returned {i : Instruction} {m m' : Machine} (control : c.control = .execute)
      (fetched : fetch.run c.machine = .ok i m) (op : i.op = .ret) (called : o.runBase < o.frames.length)
      (stacked : m'.stacked = o.push (m.result f)) : Ending f o ps c (.continue ⟨m', ps, .execute⟩)
  /-- It was called from outside and hands its result over. -/
  | delivered {i : Instruction} {m m' : Machine} (control : c.control = .execute)
      (fetched : fetch.run c.machine = .ok i m) (op : i.op = .ret) (entered : o.frames.length ≤ o.runBase)
      (stacked : m'.stacked = o) : Ending f o ps c (.continue ⟨m', ps, .deliver (m.result f)⟩)
  /-- A value is thrown to the innermost region that the call found. -/
  | thrown {i : Instruction} {m m' : Machine} {h : Handler} {hs : List Handler} (control : c.control = .execute)
      (fetched : fetch.run c.machine = .ok i m) (op : i.op = .throwTop) (handlers : o.handlers = h :: hs)
      (reach : o.runBase < h.frameDepth) (region : h.frameDepth ≤ o.frames.length)
      (stacked : m'.stacked =
        { values := (resized m.stack.pop h.stackDepth).push m.top
          frames := catching h o.frames
          handlers := hs
          iterations := truncated m.iterations h.iterDepth
          runBase := o.runBase })
      (values : ∀ k, k < h.stackDepth → k < o.values.size → m'.stack[k]? = o.values[k]?)
      (iterations : o.iterations <:+ m.iterations) : Ending f o ps c (.continue ⟨m', ps, .execute⟩)
  /-- An error reaches the entry that runs the call, which goes back to what it found. -/
  | failed {e : RuntimeError} {p : Pending} {q : Stacks} {move : Move} (control : c.control = .raise e)
      (innermost : ps.head? = some p) (caller : p.caller ≠ .script)
      (found : q =
        { values := o.values.shrink p.depths.stack
          frames := truncated o.frames p.depths.frames
          handlers := truncated o.handlers p.depths.handlers
          iterations := truncated o.iterations p.depths.iterations
          runBase := p.runBase })
      (stacked : move.machine.stacked = q ∨ ∃ v, move.machine.stacked = q.push v) : Ending f o ps c move
  /-- An error ends the script. -/
  | dropped {e : RuntimeError} {m : Machine} (control : c.control = .raise e)
      (stacked : m.stacked = ⟨#[], [], [], [], 0⟩) : Ending f o ps c (.done (.error e) m)

variable {f : Frame} {o : Stacks} {ps : List Pending} {a b c : Activity}

/-- The call that ends is the one in question. -/
theorem within_last {m : Machine} {g : Frame} {rest : List Frame} (within : Within f o m.stacked)
    (frames : m.frames = g :: rest) (ended : rest.length ≤ o.frames.length) :
    ∃ ip, g = { f with ip } ∧ rest = o.frames := by
  obtain ⟨inner, ip, calls⟩ := within.alive
  rw [show m.stacked.frames = g :: rest from frames] at calls
  cases inner with
  | nil =>
    rw [List.nil_append, List.cons.injEq] at calls
    exact ⟨ip, calls⟩
  | cons _ inner =>
    rw [List.cons_append, List.cons.injEq] at calls
    rw [calls.2, List.length_append, List.length_cons] at ended
    omega

/-- A return leaves exactly what the call found. -/
theorem within_leave_eq {m : Machine} {i : Instruction} {ip : Nat} (within : Within f o m.stacked)
    (begun : Begun f o ps) (frames : m.frames = { f with ip } :: o.frames) (op : i.op = .ret)
    (confined : i.Confined m { f with ip }) (ordered : m.stacked.Ordered) (runBase : m.runBase = o.runBase) :
    m.stacked.leave { f with ip } o.frames = o := by
  have operands := confined.operands (by simp only [Instruction.operands, op]; omega)
  simp only [Instruction.operands, op] at operands
  have above := within.above.leave (f := { f with ip }) frames (Nat.le_refl _) operands
  refine above.eq_of_level (ordered_leave ordered _ _) rfl ?_ ?_ runBase
  · show (resized m.stack.pop f.base).size = _
    rw [size_resized, begun.base]
  · show (truncated m.iterations f.iterBase).length = _
    have suffix : o.iterations.length ≤ m.iterations.length := within.above.iterations.length_le
    rw [length_truncated, begun.iterBase]
    omega

/-- A throw out of the call reaches the innermost region that the call found. -/
theorem ending_thrown {m m' : Machine} {i : Instruction} {g : Frame} {rest : List Frame} {r : Handler}
    {rs : List Handler} (within : Within f o m.stacked) (control : c.control = .execute)
    (fetched : fetch.run c.machine = .ok i m) (frames : m.frames = g :: rest) (op : i.op = .throwTop)
    (confined : i.Confined m g) (handlers : m.handlers = r :: rs) (reached : m.runBase < r.frameDepth)
    (runBase : m.runBase = o.runBase) (stacked : m'.stacked = m.stacked.caught r rs m.top)
    (ended : m'.frames.length ≤ o.frames.length) : Ending f o ps c (.continue ⟨m', ps, .execute⟩) := by
  have operands := confined.operands (by simp only [Instruction.operands, op]; omega)
  simp only [Instruction.operands, op] at operands
  have depth : o.frames.length < m.frames.length := within.depth_lt
  obtain ⟨⟨base, -⟩, -⟩ := within.above.mem_inner frames
    (by rw [frames, List.length_cons] at depth; exact Nat.le_of_lt_succ depth)
  have region : r.frameDepth ≤ o.frames.length := by
    have length : m'.frames.length = min m.frames.length r.frameDepth :=
      (congrArg (fun s : Stacks => s.frames.length) stacked).trans (length_catching r m.frames)
    omega
  have regions : o.handlers = r :: rs := by
    obtain ⟨inner, append, own⟩ := within.above.handlers
    rw [show m.stacked.handlers = r :: rs from handlers] at append
    cases inner with
    | nil => exact append.symm
    | cons r' inner =>
      rw [List.cons_append, List.cons.injEq] at append
      have := (own r' List.mem_cons_self).1
      rw [← append.1] at this
      omega
  have calls : catching r m.frames = catching r o.frames := by
    obtain ⟨inner, append, -⟩ := within.above.frames
    have append : m.frames = inner ++ o.frames := append
    unfold catching
    rw [append, truncated_append_of_le inner region]
  refine .thrown control fetched op regions (runBase ▸ reached) region ?_ (fun k lt lt' => ?_)
    within.above.iterations
  · rw [stacked, ← runBase, ← calls]
    rfl
  · rw [show m'.stack = (resized m.stack.pop r.stackDepth).push m.top from congrArg Stacks.values stacked,
      Array.getElem?_push, size_resized, if_neg (by omega),
      getElem?_resized _ lt (by rw [Array.size_pop]; omega), Array.getElem?_pop, if_pos (by omega)]
    exact within.above.values k lt'

section

variable [Host]

/-- Every move that begins a call or hands over a result comes from the innermost entry or an instruction.
-/
theorem source_of_step [LawfulHost] {a b : Activity} (standing : a.Standing) (step : a.step = .continue b) :
    Source a b := by
  cases standing.next step with
  | executed control _ _ _ leads =>
    cases leads with
    | next => exact trivial
    | returned => exact .inl ⟨control, rfl⟩
    | asked => exact trivial
    | failed => exact trivial
  | called => exact ⟨_, rfl⟩
  | entered => exact trivial
  | @answered callee args _ _ control _ _ _ answers =>
    cases answers with
    | value => exact .inr (.inl ⟨.inl ⟨callee, args, control⟩, rfl⟩)
    | asked => exact .inl ⟨.inl ⟨callee, args, control⟩, rfl⟩
    | failed => exact trivial
  | reentered => exact ⟨_, rfl⟩
  | @completed byEntry c m v b control acted completed =>
    cases completed with
    | instruction => exact trivial
    | entry => exact .inr (.inl ⟨.inr ⟨c, control⟩, rfl⟩)
  | calledBack => exact ⟨_, rfl⟩
  | @told byEntry c m k control acted told =>
    cases told with
    | failed => exact trivial
    | missing =>
      cases byEntry with
      | false => exact trivial
      | true => exact .inl ⟨.inr ⟨c, control⟩, rfl⟩
  | delivered _ pending resumed => exact resumed.source pending
  | recovered _ pending _ _ resumed => exact resumed.source pending
  | rethrown => exact trivial

/-- An entry that fails goes back to the calls that it found. -/
theorem Standing.frames_of_raise {a b : Activity} (standing : a.Standing) {e : RuntimeError}
    (control : a.control = .raise e) {p : Pending} (innermost : a.pending.head? = some p)
    (step : a.step = .continue b) : b.machine.frames.length = p.depths.frames := by
  obtain ⟨ps, pending⟩ := List.head?_eq_some_iff.1 innermost
  have called : p.caller ≠ .script := by
    intro caller
    rw [Activity.step, control, pending] at step
    simp only [stepRaise, caller] at step
    cases step
  have level := length_of_raise standing control pending called
  rw [step] at level
  exact level

/-- A move that does not end the call. -/
theorem Inside.step [LawfulHost] (h : Inside f o ps a) (begun : Begun f o ps) (confined : a.Confined)
    (step : a.step = .continue b) (lasts : o.frames.length < b.machine.frames.length) :
    Inside f (o.wrote a.cellWrite) ps b := by
  obtain ⟨inner, pending, layers, busy⟩ := h.entries
  obtain ⟨p, innermost, outside⟩ := begun.entry
  have depth := outside.frames
  -- an error that reaches the entry around the call would end the call
  have working : inner = [] → (∀ v, a.control ≠ .deliver v) ∧ ∀ e, a.control ≠ .raise e := by
    intro none
    rcases busy none with control | ⟨c, control⟩ | ⟨e, control⟩
    · simp [control]
    · simp [control]
    · rw [none, List.nil_append] at pending
      have := h.tidy.frames_of_raise control (pending ▸ innermost) step
      omega
  have base : inner = [] → a.control = .execute → Within f o a.machine.stacked →
      Within f (o.wrote a.cellWrite) b.machine.stacked := by
    intro none control within
    obtain ⟨p', i, m, g, rest, executes⟩ := h.tidy.executing control
    have keeps := confined control i m g rest executes.fetched executes.frames
    obtain ⟨out, effect⟩ := executes.executes.effect
    rw [step] at effect
    rw [executes.write]
    have within' := (within.fetched executes.stays).executed effect executes.frames keeps lasts
    exact ⟨within'.above.inRun _, within'.alive⟩
  obtain ⟨inner', pending', layers'⟩ :=
    layers_step h.tidy confined pending layers Within.mono (fun q => q.wrote _) working base step
  refine ⟨h.tidy.step confined step, inner', pending', layers', fun none => ?_⟩
  have source := source_of_step h.tidy.toStanding step
  rw [none, List.nil_append] at pending'
  -- what the entry around the call does comes after the call
  have outer : ¬FromEntry a b := by
    rintro (⟨control, same⟩ | ⟨p', pending'', caller⟩)
    · have none : inner = [] := by
        have lengths := congrArg List.length (pending'.symm.trans (same.trans pending))
        rw [List.length_append] at lengths
        exact List.length_eq_zero_iff.1 (by omega)
      rcases control with ⟨callee, args, control⟩ | ⟨c, control⟩ <;>
        rcases busy none with other | ⟨c', other⟩ | ⟨e, other⟩ <;> cases control.symm.trans other
    · have inside : inner = [p'] := by
        have split : inner ++ ps = [p'] ++ ps := pending.symm.trans (pending' ▸ pending'')
        exact List.append_cancel_right split
      rw [inside] at layers
      have deeper := Layers.found_within layers
      have nested := h.tidy.nested
      rw [pending'', pending'] at nested
      cases nested with
      | host host => rcases host with host | host <;> simp [host, Caller.byEntry] at caller
      | instruction caller' => cases caller.symm.trans caller'
      | entry _ level =>
        rw [List.head?_cons, Option.some.injEq] at innermost
        rw [innermost] at level
        omega
  cases control : b.control with
  | execute => exact .inl control
  | raise e => exact .inr (.inr ⟨e, control⟩)
  | ask byEntry c =>
    cases byEntry with
    | false => exact .inr (.inl ⟨c, control⟩)
    | true =>
      rw [Source, control] at source
      exact absurd source outer
  | invoke callee args =>
    rw [Source, control] at source
    obtain ⟨p', pending''⟩ := source
    have lengths := congrArg List.length (pending'.symm.trans pending'')
    rw [pending, List.length_cons, List.length_append] at lengths
    omega
  | deliver v =>
    rw [Source, control] at source
    rcases source with ⟨execute, same⟩ | entry
    · obtain ⟨p', i, m, g, rest, executes⟩ := h.tidy.executing execute
      have head := executes.innermost
      rw [← same, pending', innermost, Option.some.injEq] at head
      have runBase := executes.runBase
      obtain ⟨frames, last⟩ := (step ▸ executes.executes).ended control
      rw [frames] at lasts
      rw [← head] at runBase
      omega
    · exact absurd entry outer

/-- When an instruction ends the call, no entry inside the call is left. -/
theorem Inside.pending_of_ending (h : Inside f o ps c) {p : Pending} {i : Instruction} {m : Machine} {g : Frame}
    {rest : List Frame} (executing : Executing c p i m g rest)
    (ended : c.step.machine.frames.length ≤ o.frames.length) : c.pending = ps := by
  obtain ⟨inner, pending, layers, -⟩ := h.entries
  cases inner with
  | nil => exact pending
  | cons p₁ inner =>
    obtain ⟨out, effect⟩ := executing.executes.effect
    have head := executing.innermost
    rw [pending, List.cons_append, List.head?_cons, Option.some.injEq] at head
    have deeper := Layers.found_within layers
    have runBase := executing.runBase
    have low : m.runBase ≤ c.step.machine.frames.length := effect.runBase_le executing.frames executing.inside
    rw [head] at deeper
    omega

/-- Instructions that end the call. -/
theorem Inside.ending_execute (h : Inside f o ps c) (begun : Begun f o ps) (confined : c.Confined)
    (control : c.control = .execute) (ended : c.step.machine.frames.length ≤ o.frames.length) :
    Ending f o ps c c.step := by
  obtain ⟨inner, -, layers, -⟩ := h.entries
  obtain ⟨p, innermost, outside⟩ := begun.entry
  obtain ⟨p', i, m, g, rest, executing⟩ := h.tidy.executing control
  have keeps := confined control i m g rest executing.fetched executing.frames
  have within : Within f o m.stacked := (Layers.within layers).fetched executing.stays
  have ordered := ordered_of_stays h.tidy.ordered executing.stays
  have depth : o.frames.length < m.frames.length := within.depth_lt
  have pending := h.pending_of_ending executing ended
  have runBase : m.runBase = o.runBase := by
    have head := executing.innermost
    rw [pending, innermost, Option.some.injEq] at head
    rw [← executing.runBase, ← head, outside.runBase]
  have executes := executing.executes
  have fetched := executing.fetched
  rw [pending] at executes
  generalize c.step = move at executes ended
  have shorter : ∀ {m' : Machine}, m'.frames.length ≤ o.frames.length →
      m'.stacked.frames.length < m.frames.length := fun le => Nat.lt_of_le_of_lt le depth
  cases executes with
  | @next m' effect =>
    rcases effect.shrinks (shorter ended) with
      ⟨op, ⟨-, out, -⟩ | ⟨more, -, stacked⟩⟩ | ⟨r, rs, op, handlers, reached, -, stacked⟩
    · cases out
    · have ended : m'.stacked.frames.length ≤ o.frames.length := ended
      rw [stacked] at ended
      obtain ⟨ip, rfl, rfl⟩ := within_last within executing.frames ended
      refine .returned control fetched op (runBase ▸ more) ?_
      rw [stacked, within_leave_eq within begun executing.frames op keeps ordered runBase]
      rfl
    · exact ending_thrown within control fetched executing.frames op keeps handlers reached runBase stacked ended
  | @ends v m' effect =>
    rcases effect.shrinks (shorter ended) with ⟨op, ⟨last, out, stacked⟩ | ⟨-, out, -⟩⟩ | ⟨_, _, _, _, _, out, _⟩
    · have ended : m'.stacked.frames.length ≤ o.frames.length := ended
      rw [stacked] at ended
      obtain ⟨ip, rfl, rfl⟩ := within_last within executing.frames ended
      cases out
      refine .delivered control fetched op (runBase ▸ last) ?_
      rw [stacked, within_leave_eq within begun executing.frames op keeps ordered runBase]
    · cases out
    · cases out
  | reenters effect =>
    rw [machine_reenter] at ended
    rcases effect.shrinks (shorter ended) with ⟨_, ⟨-, out, -⟩ | ⟨-, out, -⟩⟩ | ⟨_, _, _, _, _, out, _⟩ <;> cases out
  | @faults e m' effect =>
    have ended : m'.frames.length ≤ o.frames.length := by
      cases e with
      | error e => exact ended
      | missingConstant => exact ended
    rcases effect.shrinks (shorter ended) with ⟨_, ⟨-, out, -⟩ | ⟨-, out, -⟩⟩ | ⟨_, _, _, _, _, out, _⟩ <;> cases out

/-- Errors that end the call. -/
theorem Inside.ending_raise (h : Inside f o ps c) (begun : Begun f o ps) {e : RuntimeError}
    (control : c.control = .raise e) (ended : c.step.machine.frames.length ≤ o.frames.length) :
    Ending f o ps c c.step := by
  obtain ⟨inner, pending, layers, -⟩ := h.entries
  obtain ⟨p, innermost, outside⟩ := begun.entry
  obtain ⟨ps', entries⟩ := List.head?_eq_some_iff.1 innermost
  have above : Above o c.machine.stacked := (Layers.within layers).above
  cases inner with
  | cons p₁ inner =>
    -- an entry inside the call goes back to where the call is still under way
    have nested := h.tidy.nested
    rw [pending, List.cons_append] at nested
    have script : p₁.caller ≠ .script := (nested.made (by rw [entries]; simp)).1
    have level := length_of_raise h.tidy.toStanding control pending script
    have deeper := Layers.found_within layers
    omega
  | nil =>
    have below := h.tidy.layers
    rw [pending, List.nil_append, entries] at below
    cases below with
    | @entry _ _ q _ outer found under =>
      have raises := raises_step control (pending.trans entries)
      generalize c.step = move at raises ended
      have cut : p.caller ≠ .script → (unwound c.machine p e).stacked =
          { values := o.values.shrink p.depths.stack
            frames := truncated o.frames p.depths.frames
            handlers := truncated o.handlers p.depths.handlers
            iterations := truncated o.iterations p.depths.iterations
            runBase := p.runBase } := by
        intro caller
        have depths := outside.depths caller
        have frames := outside.frames
        rw [found.depths caller] at depths frames ⊢
        have cut := above.eq_cut (under.inRun _) frames depths.1 depths.2.1 depths.2.2
        rw [stacked_unwound e found under caller]
        exact congrArg (fun s : Stacks => { s with runBase := p.runBase }) cut
      cases raises with
      | drops caller => exact .dropped control rfl
      | answers caller =>
        have script : p.caller ≠ .script := by simp [caller]
        exact .failed control innermost script (cut script) (.inl rfl)
      | @resumes m v script host stacked =>
        refine .failed control innermost script (cut script) ?_
        rcases stacked_resume m ps' p.caller v with same | pushed
        · exact .inl (same.trans stacked)
        · exact .inr ⟨v, pushed.trans (congrArg (fun s : Stacks => s.push v) stacked)⟩
      | rethrows script host stacked => exact .failed control innermost script (cut script) (.inl stacked)
      | informs caller =>
        have script : p.caller ≠ .script := by simp [caller]
        exact .failed control innermost script (cut script) (.inl rfl)

/-- A call ends by a return, by a throw to a region that it found, or by an error. -/
theorem Inside.ending [LawfulHost] (h : Inside f o ps c) (begun : Begun f o ps) (confined : c.Confined)
    (ended : c.step.machine.frames.length ≤ o.frames.length) : Ending f o ps c c.step := by
  obtain ⟨inner, pending, layers, -⟩ := h.entries
  have depth : o.frames.length < c.machine.frames.length := (Layers.within layers).depth_lt
  cases control : c.control with
  | execute => exact h.ending_execute begun confined control ended
  | raise e => exact h.ending_raise begun control ended
  | invoke callee args =>
    have invokes := invokes_step control
    generalize c.step = move at invokes ended
    have same : ∀ {m' : Machine}, m'.frames = c.machine.frames → ¬m'.frames.length ≤ o.frames.length := by
      intro m' frames le
      rw [frames] at le
      omega
    cases invokes with
    | @enters m' g stays frames => exact absurd (Nat.le_trans (Nat.le_succ _) ended) (same frames)
    | answers stays frames => exact absurd ended (same frames)
    | reenters stays frames =>
      rw [machine_reenter] at ended
      exact absurd ended (same frames)
    | @faults m' e stays frames =>
      cases e with
      | error e => exact absurd ended (same frames)
      | missingConstant => exact absurd ended (same frames)
  | ask byEntry h =>
    rw [(ask_step control).1] at ended
    omega
  | deliver v =>
    cases entries : c.pending with
    | nil => cases entries ▸ h.tidy.nested
    | cons p ps' =>
      have delivers := delivers_step control entries
      generalize c.step = move at delivers ended
      cases delivers with
      | @answers m' frames =>
        have ended : m'.frames.length ≤ o.frames.length := ended
        rw [frames] at ended
        omega
      | resumes =>
        rw [(machine_resume _ _ _ _).1] at ended
        exact absurd ended (Nat.not_le_of_lt depth)

/-! ## Calls from beginning to end -/

/-- The slot of the callee, if the next move begins a call. -/
def calleeSlot (a : Activity) : Nat :=
  match a.control, fetch.run a.machine with
  | .execute, .ok i m => m.stack.size - i.operands
  | _, _ => a.machine.stack.size

/-- What the call that begins with the move from `a` to `b` finds below its callee slot. -/
def foundBy (a b : Activity) : Stacks :=
  { values := a.machine.stack.shrink a.calleeSlot
    frames := b.machine.frames.tail
    handlers := a.machine.handlers
    iterations := a.machine.iterations
    runBase := b.machine.runBase }

/-- A move that begins the call `f`: by an instruction, or from outside by `callValue`. -/
structure Enters (a b : Activity) (f : Frame) : Prop where
  frames : b.machine.frames = f :: b.machine.frames.tail
  base : f.base = a.calleeSlot
  calls : SameCalls a.machine.frames b.machine.frames.tail
  handlers : b.machine.handlers = a.machine.handlers
  iterations : b.machine.iterations = a.machine.iterations
  pending : b.pending = a.pending
  control : b.control = .execute
  slot : a.calleeSlot ≤ a.machine.stack.size
  size : a.calleeSlot ≤ b.machine.stack.size
  values : ∀ k, k < a.calleeSlot → b.machine.stack[k]? = a.machine.stack[k]?
  iterBase : f.iterBase = a.machine.iterations.length
  caller : a.control = .execute ∧ b.machine.runBase < b.machine.frames.tail.length ∨
    (∃ callee args, a.control = .invoke callee args) ∧ b.machine.runBase = b.machine.frames.tail.length

/-- A call instruction begins a call. -/
theorem Executing.enters {p : Pending} {i : Instruction} {m m' : Machine} {g : Frame} {rest : List Frame}
    {out : Except Fault Progress} {c : Control} (h : Executing a p i m g rest) (confined : i.Confined m g)
    (control : a.control = .execute) (effect : Effect i m g rest out m'.stacked) (leads : Leads out c)
    (deeper : m.frames.length < m'.frames.length) : ∃ f, Enters a ⟨m', a.pending, c⟩ f := by
  obtain ⟨s₀, f, op, rfl, stays, frames, base, iterBase, stacked⟩ := effect.grows h.frames deeper
  cases leads
  have operands : i.operands = i.a.toNat + 1 := by
    rcases op with op | op <;> simp only [Instruction.operands, op]
  have stack : m.stack = a.machine.stack :=
    stack_fetch h.fetched (by rcases op with op | op <;> simp [op])
  have slot : a.calleeSlot = m.stack.size - i.operands := by rw [calleeSlot, control, h.fetched]
  have room := confined.operands (by omega)
  have calls : m'.frames = f :: m.frames := (congrArg Stacks.frames stacked).trans (by rw [frames])
  have handlers : m'.handlers = m.handlers := (congrArg Stacks.handlers stacked).trans stays.handlers
  have iterations : m'.iterations = m.iterations := (congrArg Stacks.iterations stacked).trans stays.iterations
  have values : m'.stack = s₀.values := congrArg Stacks.values stacked
  have runBase : m'.runBase = m.runBase := (congrArg Stacks.runBase stacked).trans stays.runBase
  have size : m.stack.size ≤ s₀.values.size + i.operands := stays.size
  refine ⟨f, ?_, ?_, ?_, ?_, ?_, rfl, rfl, ?_, ?_, fun k hk => ?_, ?_, .inl ⟨control, ?_⟩⟩
  · rw [calls, List.tail_cons]
  · rw [base, slot]
  · rw [calls, List.tail_cons]
    exact h.stays.frames
  · exact handlers.trans h.stays.handlers
  · exact iterations.trans h.stays.iterations
  · rw [slot, stack]
    exact Nat.sub_le _ _
  · rw [values, slot]
    omega
  · rw [values, stays.values k (by rw [slot] at hk; show _ < m.stack.size; omega)]
    show m.stack[k]? = _
    rw [stack]
  · rw [iterBase]
    exact congrArg List.length h.stays.iterations
  · rw [runBase, calls, List.tail_cons]
    exact h.inside

/-- A move that adds a call begins it, above the stacks that it finds. -/
theorem enters_of_step [LawfulHost] (tidy : a.Tidy) (confined : a.Confined) (step : a.step = .continue b)
    (deeper : a.machine.frames.length < b.machine.frames.length) : ∃ f, Enters a b f := by
  have same : ∀ {m : Machine}, m.frames = a.machine.frames → ¬a.machine.frames.length < m.frames.length := by
    intro m frames lt
    rw [frames] at lt
    omega
  -- an error takes the calls back to those that the entry found
  have calm : ∀ {e : RuntimeError}, a.control ≠ .raise e := by
    intro e control
    cases pending : a.pending with
    | nil => cases pending ▸ tidy.nested
    | cons p ps =>
      have back := tidy.frames_of_raise control (by rw [pending, List.head?_cons]) step
      have depth := tidy.depth p (by rw [pending, List.head?_cons])
      omega
  cases tidy.next step with
  | executed control executing effect _ leads =>
    have keeps := confined control _ _ _ _ executing.fetched executing.frames
    have length : _ = a.machine.frames.length := executing.stays.frames.length_eq
    exact executing.enters keeps control effect leads (length ▸ deeper)
  | called _ executing effect =>
    have length : _ = a.machine.frames.length := executing.stays.frames.length_eq
    obtain ⟨_, _, -, out, -⟩ := effect.grows executing.frames (length ▸ deeper)
    cases out
  | @entered callee args m g control stays frames base iterBase =>
    have slot : a.calleeSlot = a.machine.stack.size := by rw [calleeSlot, control]
    refine ⟨g, rfl, base.trans slot.symm, ?_, stays.handlers, stays.iterations, rfl, rfl, ?_, ?_, fun k hk => ?_,
      iterBase, .inr ⟨⟨callee, args, control⟩, ?_⟩⟩
    · show SameCalls a.machine.frames m.frames
      rw [frames]
      exact .refl _
    · exact Nat.le_of_eq slot
    · rw [slot]
      exact stays.size
    · rw [slot] at hk
      exact stays.values k hk
    · show a.machine.frames.length = m.frames.length
      rw [frames]
  | answered _ _ frames => exact absurd deeper (same frames)
  | reentered _ _ frames => exact absurd deeper (same frames)
  | completed _ acted completed =>
    exact absurd deeper (same (completed.frames.trans (congrArg Stacks.frames acted.stacked)))
  | calledBack _ acted => exact absurd deeper (same (congrArg Stacks.frames acted.stacked))
  | told _ acted => exact absurd deeper (same (congrArg Stacks.frames acted.stacked))
  | delivered _ _ resumed => exact absurd deeper (same resumed.frames)
  | recovered control => exact absurd control calm
  | rethrown control => exact absurd control calm

end

theorem Enters.size_foundBy (enters : Enters a b f) : (foundBy a b).values.size = f.base := by
  show (a.machine.stack.shrink a.calleeSlot).size = _
  have slot := enters.slot
  rw [Array.size_shrink, enters.base]
  omega

/-- The new call stands above what it found. -/
theorem Enters.above (enters : Enters a b f) (ordered : a.machine.stacked.Ordered) :
    Above (foundBy a b) b.machine.stacked := by
  have size := enters.size_foundBy
  refine ⟨⟨[f], enters.frames, fun g hg => ?_⟩, ⟨[], enters.handlers, nofun⟩, fun r hr => ?_, ?_, ?_, fun k hk => ?_⟩
  · rw [List.mem_singleton] at hg
    rw [hg, size]
    exact ⟨Nat.le_refl _, Nat.le_of_eq enters.iterBase.symm⟩
  · show _ ≤ b.machine.frames.tail.length
    rw [enters.calls.length_eq]
    exact ordered.live r hr
  · exact ⟨[], enters.iterations.symm⟩
  · rw [size, enters.base]
    exact enters.size
  · rw [size, enters.base] at hk
    show b.machine.stack[k]? = (a.machine.stack.shrink a.calleeSlot)[k]?
    rw [enters.values k hk, getElem?_shrink _ hk]

/-- The call begins above what it finds, inside the entry that runs it. -/
theorem Enters.begun (enters : Enters a b f) (tidy : b.Tidy) : Begun f (foundBy a b) b.pending := by
  have rooted := tidy.rooted
  rw [Rooted, enters.control] at rooted
  obtain ⟨p, ps, pending, runBase, depth⟩ := rooted
  have frames := enters.frames
  have calls : p.depths.frames ≤ b.machine.frames.tail.length := by
    rw [frames, List.length_cons] at depth
    omega
  refine ⟨enters.size_foundBy.symm, enters.iterBase, p, by rw [pending, List.head?_cons], runBase, calls,
    fun caller => ?_⟩
  have layers := tidy.layers
  rw [pending] at layers
  cases layers with
  | @entry _ _ q _ outer found above =>
    have depths := found.depths caller
    have inside : q.frames.length ≤ b.machine.frames.tail.length := by
      rw [← found.frames]
      exact calls
    obtain ⟨⟨base, iterBase⟩, -⟩ := above.mem_inner frames inside
    obtain ⟨inner, handlers, -⟩ := above.handlers
    have handlers : b.machine.handlers = inner ++ q.handlers := handlers
    rw [depths, enters.size_foundBy]
    refine ⟨base, ?_, ?_⟩
    · show q.handlers.length ≤ a.machine.handlers.length
      rw [← enters.handlers, handlers, List.length_append]
      omega
    · show q.iterations.length ≤ a.machine.iterations.length
      rw [← enters.iterBase]
      exact iterBase

/-- A new call is under way. -/
theorem Enters.inside (enters : Enters a b f) (ordered : a.machine.stacked.Ordered) (tidy : b.Tidy) :
    Inside f (foundBy a b) b.pending b :=
  ⟨tidy, [], rfl, .base ⟨enters.above ordered, [], f.ip, enters.frames⟩, fun _ => .inl enters.control⟩

/-- The stacks after slots have been written. -/
def written (s : Stacks) (writes : List (Nat × Value)) : Stacks :=
  writes.foldl (fun s w => s.assign w.1 w.2) s

/-- Writes are done one after the other. -/
theorem written_append (s : Stacks) (writes : List (Nat × Value)) (w : Option (Nat × Value)) :
    written s (writes ++ w.toList) = (written s writes).wrote w := by
  rw [written, written, List.foldl_append]
  cases w <;> rfl

theorem frames_written (s : Stacks) (writes : List (Nat × Value)) : (written s writes).frames = s.frames := by
  induction writes generalizing s with
  | nil => rfl
  | cons w writes ih => exact ih (s.assign w.1 w.2)

section

variable [Host]

/-- Moves that keep to their own calls, with more than `depth` calls under way all the time. The list
has the slots that were written through captured variables, with the values. -/
inductive Lasts (depth : Nat) : Activity → List (Nat × Value) → Activity → Prop where
  | start (a : Activity) : Lasts depth a [] a
  | move {a b c : Activity} {writes : List (Nat × Value)} (run : Lasts depth a writes b) (confined : b.Confined)
      (step : b.step = .continue c) (lasts : depth < c.machine.frames.length) :
      Lasts depth a (writes ++ b.cellWrite.toList) c

/-- As long as the call lasts, the machine is inside it. -/
theorem Inside.run [LawfulHost] {writes : List (Nat × Value)} (h : Inside f o ps b) (begun : Begun f o ps)
    (run : Lasts o.frames.length b writes c) :
    Inside f (written o writes) ps c ∧ Begun f (written o writes) ps := by
  induction run with
  | start => exact ⟨h, begun⟩
  | move run confined step lasts ih =>
    obtain ⟨inside, begun⟩ := ih
    rw [written_append]
    exact ⟨inside.step begun confined step (by rw [frames_written]; exact lasts), begun.wrote _⟩

/-- Calls are isolated. Take any run whose instructions keep to their own calls, and any call in it,
however it is made and however deep native functions call back. The call finds stacks `foundBy a b`
below its callee slot; when it ends, they are as it found them, but for slots that were written
through captured variables. -/
theorem call_isolated [LawfulHost] {writes : List (Nat × Value)} (reached : a.Reached) (confined : a.Confined)
    (call : a.step = .continue b) (deeper : a.machine.frames.length < b.machine.frames.length)
    (run : Lasts a.machine.frames.length b writes c) (last : c.Confined)
    (ended : c.step.machine.frames.length ≤ a.machine.frames.length) :
    ∃ f, Enters a b f ∧ Ending f (written (foundBy a b) writes) a.pending c c.step := by
  have tidy := reached.tidy
  have tidy' := tidy.step confined call
  obtain ⟨f, enters⟩ := enters_of_step tidy confined call deeper
  have length : (foundBy a b).frames.length = a.machine.frames.length := enters.calls.length_eq
  obtain ⟨inside, begun⟩ := (enters.inside tidy.ordered tidy').run (enters.begun tidy') (length ▸ run)
  refine ⟨f, enters, ?_⟩
  rw [← enters.pending]
  exact inside.ending begun last (by rw [frames_written, length]; exact ended)

/-- The activity after a number of moves, if the host has no answer yet. -/
def after (a : Activity) : Nat → Activity
  | 0 => a
  | n + 1 =>
    match (a.after n).step with
    | .continue b => b
    | .done _ _ => a.after n

end

/-- A script that calls a function whose code ends without a return. -/
def callingScript : Proto :=
  { id := 1
    chunk :=
      { code := #[{ op := .closure }, { op := .call }, { op := .ret }]
        constants := #[.function { id := 0, chunk := { code := #[{ op := .pushTrue }] } }] } }

/-- The call of `callingScript` begins with the second move and ends with the fourth. -/
theorem call_isolated_callingScript :
    ∃ f, Enters ((startScript {} callingScript).after 1) ((startScript {} callingScript).after 2) f ∧
      Ending f (foundBy ((startScript {} callingScript).after 1) ((startScript {} callingScript).after 2))
        ((startScript {} callingScript).after 1).pending ((startScript {} callingScript).after 3)
        ((startScript {} callingScript).after 3).step := by
  have begins : ((startScript {} callingScript).after 0).Confined := by
    intro _ i m f rest run frames
    cases run
    cases frames
    exact ⟨nofun, nofun, nofun⟩
  have calls : ((startScript {} callingScript).after 1).Confined := by
    intro _ i m f rest run frames
    cases run
    cases frames
    exact ⟨by decide, nofun, nofun⟩
  have loads : ((startScript {} callingScript).after 2).Confined := by
    intro _ i m f rest run frames
    cases run
    cases frames
    exact ⟨nofun, nofun, nofun⟩
  have returns : ((startScript {} callingScript).after 3).Confined := by
    intro _ i m f rest run frames
    cases run
    cases frames
    exact ⟨by decide, nofun, nofun⟩
  have run : Lasts 1 ((startScript {} callingScript).after 2) [] ((startScript {} callingScript).after 3) :=
    .move (.start _) loads rfl (by decide)
  exact call_isolated (.step (.script {} callingScript) begins rfl) calls rfl (by decide) run returns (by decide)

end Activity

end ScriptVm
