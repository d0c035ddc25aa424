import ScriptVm.Proofs.CallsAndRegions
import ScriptVm.Proofs.CacheTransparency
import ScriptVm.Proofs.OpenCells

/-!
# Calls from outside are contained

A host or a native function that calls into the machine finds calls under way. Whatever code runs
then, however unbalanced, and however deep it calls back, those calls are left alone: they stay in
place, no throw reaches a region of theirs, and when the call from outside returns, with a value or
an error, they are all the calls there are.

The main result is `Activity.callbacks_contained`.
-/

set_option autoImplicit false

namespace ScriptVm

open Machine Exec Stacks

namespace Activity

section

variable {ok : Activity → Prop} {s a b x : Activity} {past inner : List Activity}

/-! ## The moves of an entry -/

/-- The moves from `a` on, the latest first, as long as its innermost entry lasts. -/
inductive During [Host] (a : Activity) : List Activity → Activity → Prop where
  | start : During a [] a
  | move {inner : List Activity} {b c : Activity} (run : During a inner b) (step : b.step = .continue c)
      (lasts : a.pending <:+ c.pending) : During a (b :: inner) c

/-- The innermost entry of `a` is about to return, with a value or an error. -/
def Returns (a b : Activity) : Prop :=
  b.pending = a.pending ∧ ((∃ v, b.control = .deliver v) ∨ ∃ e, b.control = .raise e)

/-- While an entry lasts, the machine is busy with the innermost one. -/
theorem During.standing [Host] [LawfulHost] (during : During a inner x) (standing : a.Standing) : x.Standing := by
  induction during with
  | start => exact standing
  | move run step lasts ih => exact ih.step step

/-- The entries outside are there as long as the entry lasts. -/
theorem During.suffix [Host] (during : During a inner x) : a.pending <:+ x.pending := by
  cases during with
  | start => exact List.suffix_refl _
  | move run step lasts => exact lasts

/-- Nothing changes the options. -/
theorem During.config [Host] [LawfulHost] (during : During a inner x) : x.machine.config = a.machine.config := by
  induction during with
  | start => rfl
  | @move inner b c run step lasts ih =>
    have kept := config_step b
    rw [step] at kept
    exact kept.trans ih

/-- An entry has not ended as long as no more entries have ended than were made. -/
theorem suffix_step [Host] [LawfulHost] (standing : b.Standing) (step : b.step = .continue x)
    (suffix : a.pending <:+ b.pending) (length : a.pending.length ≤ x.pending.length) : a.pending <:+ x.pending := by
  cases passes_step standing step with
  | stays pending => rwa [pending]
  | enters pending =>
    rw [pending]
    exact suffix.trans (List.suffix_cons _ _)
  | leaves _ pending =>
    rw [pending] at suffix
    rcases List.suffix_cons_iff.1 suffix with same | suffix
    · rw [same, List.length_cons] at length
      omega
    · exact suffix

/-- The moves from `k` on belong to the innermost entry as long as there are enough entries. -/
theorem during_after [Host] [LawfulHost] {s : Activity} {k n : Nat} (standing : (s.after k).Standing)
    (goes : ∀ i, i < n → goesOn (s.after (k + i)).step = true)
    (lasts : ∀ i, i < n → (s.after k).pending.length ≤ (s.after (k + i + 1)).pending.length) :
    ∃ inner, During (s.after k) inner (s.after (k + n)) := by
  induction n with
  | zero => exact ⟨[], .start⟩
  | succ n ih =>
    obtain ⟨inner, during⟩ := ih (fun i hi => goes i (Nat.lt_succ_of_lt hi)) fun i hi => lasts i (Nat.lt_succ_of_lt hi)
    have step := step_after (goes n (Nat.lt_succ_self n))
    have suffix := suffix_step (during.standing standing) step during.suffix (lasts n (Nat.lt_succ_self n))
    exact ⟨_, during.move step suffix⟩

/-- An entry that has just been made. -/
structure Entered (a : Activity) (p : Pending) (ps : List Pending) : Prop where
  pending : a.pending = p :: ps
  called : p.caller ≠ .script
  depths : p.depths = a.machine.depths

/-- A machine that is about to call has just made an entry. -/
theorem Standing.entered (standing : a.Standing) {callee : Value} {args : List Value}
    (control : a.control = .invoke callee args) : ∃ p ps, Entered a p ps := by
  have rooted := standing.rooted
  rw [Rooted, control] at rooted
  obtain ⟨p, ps, pending, called, depths⟩ := rooted
  exact ⟨p, ps, pending, called, depths⟩

/-- A machine that begins the call of an entry, or asks the host about a function that the entry called, is busy
with an entry that is no script. -/
theorem Standing.entry (standing : a.Standing)
    (busy : (∃ callee args, a.control = .invoke callee args) ∨ ∃ c, a.control = .ask true c) :
    ∃ p ps, a.pending = p :: ps ∧ p.caller ≠ .script := by
  have rooted := standing.rooted
  rcases busy with ⟨callee, args, control⟩ | ⟨c, control⟩
  · rw [Rooted, control] at rooted
    obtain ⟨p, ps, pending, called, -⟩ := rooted
    exact ⟨p, ps, pending, called⟩
  · rw [Rooted, control] at rooted
    obtain ⟨p, ps, pending, called, -⟩ := rooted
    exact ⟨p, ps, pending, called⟩

/-- Everything inside an entry belongs to runs above the calls that it found. -/
theorem Entered.innermost {p q : Pending} {ps : List Pending} (h : Entered a p ps) (standing : x.Standing)
    (inside : a.pending <:+ x.pending) (head : x.pending.head? = some q) :
    q.caller ≠ .script ∧ a.machine.frames.length ≤ q.depths.frames := by
  obtain ⟨qs, pending⟩ := List.head?_eq_some_iff.1 head
  have nested := standing.nested
  rw [pending] at nested inside
  rw [h.pending] at inside
  constructor
  · rcases List.suffix_cons_iff.1 inside with same | deeper
    · obtain ⟨rfl, -⟩ := List.cons.inj same
      exact h.called
    · exact (nested.made (List.ne_nil_of_mem (deeper.subset List.mem_cons_self))).1
  · have found : p.depths.frames = a.machine.frames.length := congrArg Depths.frames h.depths
    have := nested.le_of_suffix inside
    omega

/-- The calls that an entry found enclose everything that it does. -/
theorem During.encloses [Host] [LawfulHost] {p : Pending} {ps : List Pending} (during : During a inner x)
    (entered : Entered a p ps) (standing : a.Standing) : Encloses a.machine.frames x := by
  induction during with
  | start =>
    exact ⟨List.suffix_refl _, fun q hq => entered.innermost standing (List.suffix_refl _) hq⟩
  | @move inner b c run step lasts ih =>
    have calls := ih.suffix_step (run.standing standing)
    rw [step] at calls
    exact ⟨calls, fun q hq => entered.innermost ((run.standing standing).step step) lasts hq⟩

/-! ## Results -/

/-- Handing over a result leaves the calls alone. -/
theorem frames_of_deliver [Host] {v : Value} {p : Pending} {ps : List Pending} (control : a.control = .deliver v)
    (pending : a.pending = p :: ps) : a.step.machine.frames = a.machine.frames := by
  have delivers := delivers_step control pending
  generalize a.step = move at delivers
  cases delivers with
  | answers frames => exact frames
  | resumes => exact (machine_resume _ _ _ _).1

/-- When an entry returns, there are as many calls as it found. -/
theorem length_of_returns [Host] [LawfulHost] {p : Pending} {ps : List Pending} (standing : b.Standing)
    (pending : b.pending = p :: ps) (called : p.caller ≠ .script)
    (control : (∃ v, b.control = .deliver v) ∨ ∃ e, b.control = .raise e) :
    b.step.machine.frames.length = p.depths.frames := by
  rcases control with ⟨v, delivers⟩ | ⟨e, raises⟩
  · have rooted := standing.rooted
    rw [Rooted, delivers] at rooted
    rw [frames_of_deliver delivers pending]
    exact (rooted p (by rw [pending, List.head?_cons])).symm
  · exact length_of_raise standing raises pending called

/-! ## The base of the run -/

/-- Going on does not change where the run began. -/
theorem runBase_resume (m : Machine) (ps : List Pending) (caller : Caller) (v : Value) :
    (resume m ps caller v).machine.runBase = m.runBase := by
  cases caller <;> rfl

/-- When an entry returns, the run that it was made in goes on. -/
theorem runBase_of_returns [Host] {p : Pending} {ps : List Pending} (pending : b.pending = p :: ps)
    (called : p.caller ≠ .script) (control : (∃ v, b.control = .deliver v) ∨ ∃ e, b.control = .raise e) :
    b.step.machine.runBase = p.runBase := by
  rcases control with ⟨v, delivers⟩ | ⟨e, raises⟩
  · rw [Activity.step, delivers, pending]
    simp only [stepDeliver]
    split
    · rfl
    · rfl
    · exact runBase_resume _ _ _ _
    · exact runBase_resume _ _ _ _
    · exact runBase_resume _ _ _ _
  · have moves := raises_step raises pending
    generalize b.step = move at moves
    have unwinds : (unwound b.machine p e).runBase = p.runBase :=
      congrArg Stacks.runBase (stacked_unwound_eq b.machine p e)
    cases moves with
    | drops script => exact absurd script called
    | answers => exact unwinds
    | resumes _ _ stacked =>
      rw [runBase_resume]
      exact (congrArg Stacks.runBase stacked).trans unwinds
    | rethrows _ _ stacked => exact (congrArg Stacks.runBase stacked).trans unwinds
    | informs => exact unwinds

/-- An entry that has just been made remembers the run that it was made in. -/
def Anchored (a : Activity) : Prop :=
  ∀ callee args p, a.control = .invoke callee args → a.pending.head? = some p → p.runBase = a.machine.runBase

/-- The first entry remembers the run that the host was in. -/
theorem anchored_of_starts [Host] (starts : Starts ok s) : s.Anchored := by
  intro callee args p control head
  cases starts with
  | script m q =>
    rcases (startScript_begins m q).2.2 with executes | ⟨e, raises⟩
    · cases control.symm.trans executes
    · cases control.symm.trans raises
  | @call m rests callee' args' =>
    have head : [(⟨.host, m.depths, m.runBase⟩ : Pending)].head? = some p := head
    cases head
    rfl

/-- So does every entry that is made later. -/
theorem Run.anchored [Host] [LawfulHost] (run : Run ok s past a) (starts : Starts ok s) : a.Anchored := by
  cases run with
  | start => exact anchored_of_starts starts
  | move run allowed step =>
    intro callee args p control head
    cases passes_step (run.standing starts.standing) step with
    | stays _ busy => exact absurd control (busy callee args)
    | enters pending _ runBase =>
      rw [pending, List.head?_cons] at head
      cases head
      exact runBase
    | leaves _ _ _ _ busy => exact absurd control (busy callee args)

/-! ## Limits -/

/-- A script begins within the limit. -/
theorem limited_startScript (m : Machine) (p : Proto) :
    (m.startScript p).machine.frames.length ≤ (m.startScript p).machine.config.maxFrames := by
  rw [config_startScript]
  exact (startScript_begins m p).2.1

/-- Machines that a host can have are within their limit. -/
theorem Rests.limited [Host] [LawfulHost] {m : Machine} (rests : Rests ok m) :
    m.frames.length ≤ m.config.maxFrames := by
  refine rests.invariant (P := fun m => m.frames.length ≤ m.config.maxFrames) (fun frames _ => ?_)
    (fun frames _ config bounded => ?_) limited_startScript fun standing _ => standing.within_limit
  · rw [frames]
    exact Nat.zero_le _
  · rw [frames, config]
    exact bounded

/-- And so are runs on them. -/
theorem Run.limited [Host] [LawfulHost] (run : Run ok s past a) (starts : Starts ok s) :
    a.machine.frames.length ≤ a.machine.config.maxFrames := by
  refine run.invariant (P := fun m => m.frames.length ≤ m.config.maxFrames) starts.standing ?_
    fun standing _ => standing.within_limit
  cases starts with
  | script m p => exact limited_startScript m p
  | call rests => exact rests.limited

/-- A call keeps within the limit that it found. -/
theorem During.limited [Host] [LawfulHost] (during : During a inner x) (standing : a.Standing)
    (bounded : a.machine.frames.length ≤ a.machine.config.maxFrames) :
    x.machine.frames.length ≤ a.machine.config.maxFrames := by
  rw [← during.config]
  induction during with
  | start => exact bounded
  | @move inner b c run step lasts ih =>
    have within := (run.standing standing).within_limit ih
    rw [step] at within
    exact within

/-! ## Containment -/

/-- As long as the innermost entry of `a` lasts, the calls that it found stay in place, the number of
calls stays within the limit, and no throw reaches a region of those calls. -/
structure Contains (a x : Activity) : Prop where
  calls : a.machine.frames <:+ x.machine.frames
  limit : x.machine.frames.length ≤ a.machine.config.maxFrames
  throws : ∀ h hs, x.Catches h hs → a.machine.frames.length < h.frameDepth

/-- As long as a call lasts, it is contained. -/
theorem During.contains [Host] [LawfulHost] {callee : Value} {args : List Value} (during : During a inner x)
    (control : a.control = .invoke callee args) (standing : a.Standing)
    (bounded : a.machine.frames.length ≤ a.machine.config.maxFrames) : Contains a x := by
  obtain ⟨p, ps, entered⟩ := standing.entered control
  have encloses := during.encloses entered standing
  refine ⟨encloses.calls, during.limited standing bounded, fun h hs catches => ?_⟩
  have rooted := (during.standing standing).rooted
  rw [Rooted, catches.control] at rooted
  obtain ⟨q, qs, pending, runBase, -⟩ := rooted
  have := (encloses.entry q (by rw [pending, List.head?_cons])).2
  have := catches.reach
  omega

/-- When a call returns, the calls that it found are left, and the run goes on where it began. -/
theorem During.returned [Host] [LawfulHost] {callee : Value} {args : List Value} (during : During a inner b)
    (control : a.control = .invoke callee args) (standing : a.Standing) (anchored : a.Anchored)
    (returns : Returns a b) :
    b.step.machine.frames = a.machine.frames ∧ b.step.machine.runBase = a.machine.runBase := by
  obtain ⟨p, ps, entered⟩ := standing.entered control
  have pending := returns.1.trans entered.pending
  have standing' := during.standing standing
  constructor
  · have kept := (during.encloses entered standing).suffix_step standing'
    refine (kept.eq_of_length ?_).symm
    rw [length_of_returns standing' pending entered.called returns.2, entered.depths]
    rfl
  · rw [runBase_of_returns pending entered.called returns.2]
    exact anchored callee args p control (by rw [entered.pending, List.head?_cons])

/-! ## Calls of the host -/

/-- A run that gives an answer gets to a last move. -/
theorem Run.ends [Host] {fuel : Nat} {o : Outcome} {m : Machine} (run : Run (fun _ => True) s past a)
    (answer : a.run fuel = some (o, m)) : ∃ past b, Run (fun _ => True) s past b ∧ b.step = .done o m := by
  induction fuel generalizing past a with
  | zero => cases answer
  | succ fuel ih =>
    unfold Activity.run at answer
    cases step : a.step with
    | «continue» b =>
      rw [step] at answer
      exact ih (run.move trivial step) answer
    | done o' m' =>
      rw [step] at answer
      cases answer
      exact ⟨past, a, run, step⟩

/-- A call of the host lasts as long as its run. -/
theorem during_of_run [Host] [LawfulHost] {m : Machine} {callee : Value} {args : List Value}
    (run : Run ok (m.startCall callee args) past b) : During (m.startCall callee args) past b := by
  induction run with
  | start => exact .start
  | move run allowed step ih => exact ih.move step (run.move allowed step).suffix_startCall

/-- The host gets an answer from its own entry. -/
theorem returns_of_done [Host] [LawfulHost] {o : Outcome} {m : Machine} (standing : a.Standing)
    (step : a.step = .done o m) (returned : o ≠ .missingConstant) :
    ((∃ v, a.control = .deliver v) ∨ ∃ e, a.control = .raise e) ∧
      ∃ p, a.pending = [p] ∧ (p.caller = .script ∨ p.caller = .host) := by
  have alone : ∀ {p : Pending} {ps : List Pending}, a.pending = p :: ps →
      (p.caller = .script ∨ p.caller = .host) →
      ∃ p, a.pending = [p] ∧ (p.caller = .script ∨ p.caller = .host) := by
    intro p ps pending host
    have nested := standing.nested
    rw [pending] at nested
    rw [nested.eq_singleton host] at pending
    exact ⟨p, pending, host⟩
  cases standing.final step with
  | missing => exact absurd rfl returned
  | missingCall => exact absurd rfl returned
  | delivered control pending caller => exact ⟨.inl ⟨_, control⟩, alone pending caller⟩
  | dropped control pending caller => exact ⟨.inr ⟨_, control⟩, alone pending (.inl caller)⟩
  | failed control pending caller => exact ⟨.inr ⟨_, control⟩, alone pending (.inr caller)⟩

/-- A call of the host leaves the calls that it found. -/
theorem frames_callValue [Host] [LawfulHost] {m m' : Machine} (rests : Rests (fun _ => True) m) {fuel : Nat}
    {callee : Value} {args : List Value} {o : Outcome} (answer : callValue fuel m callee args = some (o, m'))
    (returned : o ≠ .missingConstant) : m'.frames = m.frames ∧ m'.runBase = m.runBase := by
  have starts : Starts (fun _ => True) (m.startCall callee args) := .call rests callee args
  obtain ⟨past, b, run, step⟩ := Run.ends .start answer
  have standing := run.standing starts.standing
  have during := during_of_run run
  obtain ⟨control, p, pending, -⟩ := returns_of_done standing step returned
  have own : b.pending = (m.startCall callee args).pending := by
    have suffix := during.suffix
    rw [pending] at suffix
    rw [pending]
    exact (suffix.eq_of_length rfl).symm
  have kept := during.returned rfl starts.standing (anchored_of_starts starts)
    ⟨own, control⟩
  rw [step] at kept
  exact kept

end

end Activity

/-! ## Sessions -/

namespace Machine

/-- A new machine has no calls and no regions. -/
theorem fresh_idle (config : Config) (natives : List Native) (world : World) :
    (Machine.fresh config natives world).frames = [] ∧ (Machine.fresh config natives world).handlers = [] := by
  have added : ∀ m : Machine, (natives.foldl withNative m).frames = m.frames ∧
      (natives.foldl withNative m).handlers = m.handlers := by
    induction natives with
    | nil => exact fun _ => ⟨rfl, rfl⟩
    | cons n rest ih => exact fun m => ih (m.withNative n)
  rw [fresh_eq]
  exact added _

/-- A host can have a new machine. -/
theorem rests_fresh [Host] (config : Config) (natives : List Native) (world : World) :
    Activity.Rests (fun _ => True) (Machine.fresh config natives world) :=
  .idle (fresh_idle config natives world).1 (fresh_idle config natives world).2

end Machine

namespace Session

open Activity (Rests)

variable {s : Session}

/-- The host has changed nothing but values and output. -/
theorem rests_of_same {m m' : Machine} (rests : Rests (fun _ => True) m)
    (same : m'.frames = m.frames ∧ m'.handlers = m.handlers ∧ m'.config = m.config) : Rests (fun _ => True) m' :=
  .changed rests same.1 same.2.1 same.2.2

/-- After a run, a session has the machine that the run has left. -/
theorem rests_conclude {r : Option (Outcome × Machine)} (rests : Rests (fun _ => True) s.machine)
    (after : ∀ o m, r = some (o, m) → Rests (fun _ => True) m) :
    Rests (fun _ => True) (s.conclude r).2.machine := by
  unfold conclude
  split
  · exact rests
  next o m =>
    have rests := after o m rfl
    cases o <;> exact rests

theorem rests_runScript (rests : Rests (fun _ => True) s.machine) (p : Proto) :
    Rests (fun _ => True) (s.runScript p).2.machine := by
  refine rests_conclude rests fun o m answer => ?_
  obtain ⟨past, a, run, ended⟩ := Activity.Run.ends .start answer
  exact .afterScript run trivial ended

theorem rests_callValue (rests : Rests (fun _ => True) s.machine) (callee : Value) (args : List Value) :
    Rests (fun _ => True) (s.conclude (Machine.callValue s.fuel s.machine callee args)).2.machine := by
  refine rests_conclude rests fun o m answer => ?_
  obtain ⟨past, a, run, ended⟩ := Activity.Run.ends .start answer
  exact .afterCall rests run trivial ended

theorem rests_callGlobal (rests : Rests (fun _ => True) s.machine) (name : Text) (args : List Value) :
    Rests (fun _ => True) (s.conclude (Machine.callGlobal s.fuel s.machine name args)).2.machine := by
  unfold Machine.callGlobal
  split
  · exact rests_callValue rests _ args
  · exact rests_of_same rests ⟨rfl, rfl, rfl⟩

theorem rests_realise (rests : Rests (fun _ => True) s.machine) (ls : List Literal) :
    Rests (fun _ => True) (s.realise ls).2.machine :=
  rests_of_same rests ⟨rfl, rfl, rfl⟩

/-- After every command, a session has a machine that a host can have. -/
theorem rests_dispatch (rests : Rests (fun _ => True) s.machine) (c : Command) :
    Rests (fun _ => True) (s.dispatch c).2.machine := by
  cases c with
  | interpret script keepAs =>
    have numbered : Rests (fun _ => True)
        { s.machine with
          world := { s.machine.world with
            nextProto := (Blueprint.build s.machine.world.nextProto script).2 } } :=
      rests_of_same rests ⟨rfl, rfl, rfl⟩
    exact rests_runScript (s := { s with kept := _, machine := _ }) numbered _
  | interpretKept name =>
    simp only [dispatch]
    cases s.kept.get? name with
    | some p => exact rests_runScript rests p
    | none => exact rests
  | callGlobal name args => exact rests_callGlobal (rests_realise rests args) name _
  | callValue callee args => exact rests_callValue (rests_realise rests (callee :: args)) _ _
  | callMany callee count arg => exact rests_callValue (rests_realise rests [callee, arg]) _ _
  | getGlobal name =>
    simp only [dispatch]
    cases s.machine.globals.get? name <;> exact rests
  | reset => exact .idle rfl rfl
  | newMachine config => exact rests_fresh config _ _
  | setGlobal | clearOutput | clearDiagnostics | recordProperty | recordMethod | buildClass =>
    exact rests_of_same rests ⟨rfl, rfl, rfl⟩
  | state => exact rests

/-- Every session of a host has a machine that a host can have. -/
theorem Reachable.rests (reachable : s.Reachable) : Rests (fun _ => True) s.machine := by
  induction reachable with
  | start config level fuel => exact rests_fresh config _ _
  | @perform s _ c ih =>
    have cleared : Rests (fun _ => True) s.withoutStreams.machine := rests_of_same ih ⟨rfl, rfl, rfl⟩
    exact rests_dispatch cleared c

end Session

namespace Activity

section

variable {a x : Activity} {inner : List Activity}

/-- Calls from outside are contained. Take any machine that a host can have, and let the host call a
value or a global, or take any call that a native function or the host makes in a run of any code on
that machine. The native functions of the host's own may call back as often as they like, and do
what they like in between, as long as they reach the stacks only by calling. As long as a call lasts,
the calls that it found stay in place as they are, the number of calls stays within the limit, and no
throw ends in a region of the calls that it found. When it returns, with a value or an error, the calls
that it found are all there are, and the enclosing run goes on. So it is for a global that is not
there. -/
theorem callbacks_contained [Host] [LawfulHost] {m : Machine} (rests : Rests (fun _ => True) m) :
    (∀ fuel callee args o m', callValue fuel m callee args = some (o, m') → o ≠ .missingConstant →
        m'.frames = m.frames ∧ m'.runBase = m.runBase) ∧
      (∀ fuel name args o m', callGlobal fuel m name args = some (o, m') → o ≠ .missingConstant →
        m'.frames = m.frames ∧ m'.runBase = m.runBase) ∧
      ∀ s past a, ((∃ p, s = m.startScript p) ∨ ∃ v vs, s = m.startCall v vs) →
        Run (fun _ => True) s past a →
        (∀ callee args, a.control = .invoke callee args → ∀ inner x, During a inner x → Contains a x ∧
          (Returns a x → x.step.machine.frames = a.machine.frames ∧
            x.step.machine.runBase = a.machine.runBase)) ∧
        ∀ byEntry c, a.control = .ask byEntry c →
          a.step.machine.frames = a.machine.frames ∧ a.step.machine.runBase = a.machine.runBase := by
  refine ⟨fun fuel callee args o m' answer returned => frames_callValue rests answer returned,
    fun fuel name args o m' answer returned => ?_, fun s past a begins run =>
    ⟨fun callee args control inner x during => ?_, fun byEntry c control => ?_⟩⟩
  · unfold callGlobal at answer
    split at answer
    · exact frames_callValue rests answer returned
    · cases answer
      exact ⟨rfl, rfl⟩
  · have starts : Starts (fun _ => True) s := by
      rcases begins with ⟨p, rfl⟩ | ⟨v, vs, rfl⟩
      · exact .script m p
      · exact .call rests v vs
    have standing := run.standing starts.standing
    refine ⟨during.contains control standing (run.limited starts), fun returns => ?_⟩
    exact during.returned control standing (run.anchored starts) returns
  · obtain ⟨frames, -, runBase, -⟩ := ask_step control
    exact ⟨frames, runBase⟩

/-- A function that throws. -/
def thrower : Proto := { id := 0, chunk := { code := #[{ op := .pushTrue }, { op := .throwTop }] } }

/-- A script that opens a region and lets a native function call `thrower` and go on after its errors. -/
def persistentScript : Proto :=
  { id := 1
    chunk :=
      { code := #[{ op := .tryBegin, a := 3 }, { op := .getGlobal }, { op := .closure, a := 1 },
          { op := .call, a := 1 }, { op := .ret }]
        constants := #[.text "persist", .function thrower] } }

/-- The function that the script calls. -/
def persist : Native := ⟨"persist", some 1, .own 0⟩

/-- A host whose functions call their first argument, and once more if that fails. -/
@[reducible] def persistent : Host where
  act c m :=
    (match c.answers with
      | [] | [.error _] => .callValue (c.args.headD .null) []
      | .ok v :: _ => .value v
      | _ => .value .null, m)

/-- Such a function leaves the machine alone. -/
theorem lawfulHost_persistent : @LawfulHost persistent :=
  @LawfulHost.mk persistent (fun _ _ => rfl) fun _ _ => rfl

/-- The run of `persistentScript` with such a host, whose only function is `persist`. -/
def persisting (n : Nat) : Activity :=
  letI := persistent
  ((Machine.fresh {} [persist] {}).startScript persistentScript).after n

/-- The function of the host's own makes a call at move 5 and, when it is told of the throw there, another at
move 10. Neither throw ends in the region of `persistentScript`, which is open, and after both the script is where
it was. -/
theorem callbacks_contained_persistentScript :
    (∀ n ∈ [5, 10], (persisting (n + 2)).machine.handlers.map Handler.frameDepth = [1] ∧
        (∀ h hs, ¬(persisting (n + 2)).Catches h hs) ∧
        (persisting (n + 4)).machine.frames = (persisting n).machine.frames) ∧
      ∃ v, (persisting 16).control = .deliver v := by
  let _ := persistent
  have := lawfulHost_persistent
  have rests : Rests (fun _ => True) (Machine.fresh {} [persist] {}) := rests_fresh {} _ {}
  have start : (persisting 0).Standing := standing_startScript (Machine.fresh {} [persist] {}) persistentScript
  have goes : ∀ n ∈ [5, 10], ∀ k, k < n + 4 → goesOn (persisting k).step = true := by decide +kernel
  have lasts : ∀ n ∈ [5, 10], ∀ i, i < 3 →
      (persisting n).pending.length ≤ (persisting (n + i + 1)).pending.length := by decide +kernel
  have found : ∀ n ∈ [5, 10], (persisting (n + 2)).machine.handlers.map Handler.frameDepth = [1] ∧
      (persisting n).machine.frames.length = 1 ∧
      (persisting n).pending.length = (persisting (n + 3)).pending.length := by decide +kernel
  have invokes : ∀ n ∈ [5, 10], ∃ callee args, (persisting n).control = .invoke callee args := by
    simp only [List.forall_mem_cons]
    exact ⟨⟨_, _, rfl⟩, ⟨_, _, rfl⟩, nofun⟩
  have raises : ∀ n ∈ [5, 10], ∃ e, (persisting (n + 3)).control = .raise e := by
    simp only [List.forall_mem_cons]
    exact ⟨⟨_, rfl⟩, ⟨_, rfl⟩, nofun⟩
  refine ⟨fun n hn => ?_, _, rfl⟩
  obtain ⟨depths, calls, entries⟩ := found n hn
  obtain ⟨callee, args, control⟩ := invokes n hn
  obtain ⟨past, run⟩ := run_after (s := persisting 0) (n := n) fun k hk => goes n hn k (by omega)
  have contained := ((callbacks_contained rests).2.2 (persisting 0) past (persisting n)
    (.inl ⟨persistentScript, rfl⟩) run).1 callee args control
  have during : ∀ i, i ≤ 3 → ∃ inner, During (persisting n) inner (persisting (n + i)) := fun i hi =>
    during_after (run.standing start) (fun j hj => goes n hn (n + j) (by omega))
      fun j hj => lasts n hn j (by omega)
  obtain ⟨thrown, before⟩ := during 2 (by omega)
  obtain ⟨raised, failed⟩ := during 3 (by omega)
  refine ⟨depths, fun h hs catches => ?_, ?_⟩
  · have reach := (contained _ _ before).1.throws h hs catches
    rw [catches.handlers, List.map_cons] at depths
    have depth := (List.cons.inj depths).1
    omega
  · have returns : Returns (persisting n) (persisting (n + 3)) :=
      ⟨(failed.suffix.eq_of_length entries).symm, .inr (raises n hn)⟩
    rw [← ((contained _ _ failed).2 returns).1]
    exact congrArg Machine.frames (machine_after_succ (goes n hn (n + 3) (by omega)))

end

end Activity

end ScriptVm
