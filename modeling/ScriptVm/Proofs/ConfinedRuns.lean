import ScriptVm.Proofs.Entries
import ScriptVm.Proofs.StackLayers

/-!
# Runs whose instructions keep to their own calls

Every entry into the machine that has not ended found stacks that are still in place below the
present ones: the entries form layers. `Activity.Tidy` collects this with what goes on above the
innermost layer. It holds at the start of every run, and every move keeps it as long as the
instructions keep to their own calls.
-/

set_option autoImplicit false

namespace ScriptVm

open Machine Exec Stacks

/-- The depths of stacks. -/
def Stacks.depths (s : Stacks) : Depths :=
  ⟨s.frames.length, s.values.size, s.handlers.length, s.iterations.length⟩

/-- The entry found the stacks `q`. A script that fails drops everything, so that only its number of
calls matters. -/
structure Pending.Found (p : Pending) (q : Stacks) : Prop where
  frames : p.depths.frames = q.frames.length
  depths : p.caller ≠ .script → p.depths = q.depths

/-- Entries that found stacks one above the other, up to the present stacks. What the outermost of
them found satisfies `P`. -/
inductive Layers (P : Stacks → Prop) : List Pending → Stacks → Prop where
  | base {s : Stacks} (h : P s) : Layers P [] s
  | entry {p : Pending} {ps : List Pending} {q s : Stacks} (outer : Layers P ps q) (found : p.Found q)
      (above : Above q s) : Layers P (p :: ps) s

namespace Layers

variable {P Q : Stacks → Prop} {p : Pending} {ps : List Pending} {q s : Stacks}

theorem above (mono : ∀ {q s : Stacks}, P q → Above q s → P s) (h : Layers P ps q) (up : Above q s) :
    Layers P ps s := by
  cases h with
  | base h => exact .base (mono h up)
  | entry outer found above => exact .entry outer found (above.trans up)

/-- An entry ends. -/
theorem tail (mono : ∀ {q s : Stacks}, P q → Above q s → P s) (h : Layers P (p :: ps) s) :
    Layers P ps s := by
  cases h with
  | entry outer found up => exact outer.above mono up

theorem found_wrote (found : p.Found q) (w : Option (Nat × Value)) : p.Found (q.wrote w) := by
  cases w with
  | none => exact found
  | some w =>
    refine ⟨found.frames, fun caller => ?_⟩
    have depths := found.depths caller
    rw [depths]
    show _ = Stacks.depths (q.assign w.1 w.2)
    unfold Stacks.depths Stacks.assign
    rw [Array.size_setIfInBounds]

theorem wrote {w : Option (Nat × Value)} (h : Layers P ps s) (base : ∀ {q : Stacks}, P q → Q (q.wrote w)) :
    Layers Q ps (s.wrote w) := by
  induction h with
  | base h => exact .base (base h)
  | entry outer found above ih => exact .entry ih (found_wrote found w) (above.wrote w)

end Layers

theorem Stacks.Ordered.above_of_stays {s s' : Stacks} (h : s.Ordered) (stays : Stays 0 s s')
    (frames : s'.frames = s.frames) : Above s s' := by
  exact ⟨⟨[], frames, nofun⟩, ⟨[], stays.handlers, nofun⟩, h.live, ⟨[], stays.iterations.symm⟩, stays.size,
    stays.values⟩

/-- What an entry found is in order if the present stacks are. -/
theorem Stacks.Above.ordered {q s : Stacks} (h : Above q s) (ordered : s.Ordered) : q.Ordered := by
  obtain ⟨inner, handlers, -⟩ := h.handlers
  have sorted := ordered.sorted
  rw [handlers] at sorted
  exact ⟨sorted.sublist (List.sublist_append_right _ _), h.owned⟩

theorem truncated_of_append {α : Type} (inner outer : List α) :
    truncated (inner ++ outer) outer.length = outer := by
  rw [truncated_append_of_le inner (Nat.le_refl _), truncated_of_le (Nat.le_refl _)]

/-- Unwinding to the depths that an entry started at brings back what it found. -/
theorem stacked_unwindTo_of_above {m : Machine} {q : Stacks} (above : Above q m.stacked) {d : Depths}
    (depths : d = q.depths) : (m.unwindTo d).stacked = { q with runBase := m.runBase } := by
  obtain ⟨fs, frames, -⟩ : ∃ fs, m.frames = fs ++ q.frames ∧ _ := above.frames
  obtain ⟨hs, handlers, -⟩ : ∃ hs, m.handlers = hs ++ q.handlers ∧ _ := above.handlers
  obtain ⟨its, iterations⟩ : ∃ its, its ++ q.iterations = m.iterations := above.iterations
  have below : m.stack.shrink q.values.size = q.values := by
    have size : q.values.size ≤ m.stack.size := above.size
    refine Array.ext_getElem? fun i => ?_
    by_cases lt : i < q.values.size
    · rw [getElem?_shrink _ lt]
      exact above.values i lt
    · rw [Array.getElem?_eq_none (by rw [Array.size_shrink]; omega), Array.getElem?_eq_none (by omega)]
  subst depths
  simp only [stacked_unwindTo, Stacks.depths]
  rw [frames, handlers, ← iterations, below, truncated_of_append, truncated_of_append, truncated_of_append]

theorem Stacks.Above.of_found {q s : Stacks} (above : Above q s) (runBase : Nat) : Above q { q with runBase } :=
  ⟨⟨[], rfl, nofun⟩, ⟨[], rfl, nofun⟩, above.owned, List.suffix_refl _, Nat.le_refl _, fun _ _ => rfl⟩

/-- Layers after an instruction. -/
theorem Layers.executed {P Q : Stacks → Prop} {ps : List Pending} {m₀ m : Machine} {f : Frame}
    {rest : List Frame} {i : Instruction} {out : Except Fault Progress} {s : Stacks}
    (h : Layers P ps m₀.stacked) (fetched : Stays 0 m₀.stacked m.stacked) (frames : m.frames = f :: rest)
    (effect : Effect i m f rest out s) (confined : i.Confined m f)
    (innermost : ∀ p, ps.head? = some p → p.depths.frames = m.runBase) (run : m.runBase < m.frames.length)
    (base : ps = [] → P m₀.stacked → Q s) (write : ∀ {q : Stacks}, P q → Q (q.wrote (m.cellWrite f i))) :
    Layers Q ps s := by
  cases h with
  | base h => exact .base (base rfl h)
  | @entry p ps q _ outer found above =>
    have depth : q.frames.length = m.runBase := by rw [← found.frames, innermost p rfl]
    have length : m.stacked.frames.length = m₀.stacked.frames.length := fetched.frames.length_eq
    have calls : m.frames.length = rest.length + 1 := by rw [frames, List.length_cons]
    have inside : q.frames.length < m₀.stacked.frames.length := by
      rw [← length]
      show _ < m.frames.length
      omega
    refine .entry (outer.wrote write) (Layers.found_wrote found _) ?_
    refine effect.above frames confined (above.stays fetched inside above.size) (by omega) ?_
    intro r rs reached _
    omega

namespace Activity

/-- The machine works above layers of entries, with its regions in order. -/
structure Tidy (a : Activity) : Prop extends Standing a where
  layers : Layers (fun _ => True) a.pending a.machine.stacked
  ordered : a.machine.stacked.Ordered

/-- The instruction that the machine is about to execute keeps to its own call. -/
def Confined (a : Activity) : Prop :=
  a.control = .execute →
    ∀ i m f rest, fetch.run a.machine = .ok i m → m.frames = f :: rest → i.Confined m f

/-! ## Moves -/

/-- An error takes the stacks back to what the entry found. -/
theorem stacked_unwound {p : Pending} {q : Stacks} {m : Machine} (e : RuntimeError) (found : p.Found q)
    (above : Above q m.stacked) (script : p.caller ≠ .script) :
    (unwound m p e).stacked = { q with runBase := p.runBase } :=
  stacked_unwindTo_of_above (m := Machine.recordError { m with runBase := p.runBase } e) (above.inRun _)
    (found.depths script)

section

variable {q : Stacks} {m : Machine} {ps : List Pending} {caller : Caller} {v : Value} {byEntry : Bool} {b : Activity}

/-- The value of a native function goes on top of the stacks, or nowhere. -/
theorem Completed.above (completed : Completed m ps v byEntry b) (above : Above q m.stacked) :
    Above q b.machine.stacked := by
  cases completed with
  | instruction => exact above.push v
  | entry => exact above

theorem Completed.ordered (completed : Completed m ps v byEntry b) (ordered : m.stacked.Ordered) :
    b.machine.stacked.Ordered := by
  cases completed with
  | instruction => exact ⟨ordered.sorted, ordered.live⟩
  | entry => exact ordered

theorem Resumed.above (resumed : Resumed m ps caller b) (above : Above q m.stacked) : Above q b.machine.stacked := by
  cases resumed with
  | returns _ completed => exact completed.above above
  | asks => exact above

theorem Resumed.ordered (resumed : Resumed m ps caller b) (ordered : m.stacked.Ordered) :
    b.machine.stacked.Ordered := by
  cases resumed with
  | returns _ completed => exact completed.ordered ordered
  | asks => exact ordered

end

/-- An error takes the regions back to those that the entry found. -/
theorem Tidy.ordered_unwound {a : Activity} (tidy : a.Tidy) {p : Pending} {ps : List Pending} (e : RuntimeError)
    (pending : a.pending = p :: ps) (script : p.caller ≠ .script) :
    (unwound a.machine p e).stacked.Ordered := by
  have below := tidy.layers
  rw [pending] at below
  cases below with
  | @entry _ _ q _ outer found above =>
    have ordered := above.ordered tidy.ordered
    rw [stacked_unwound e found above script]
    exact ⟨ordered.sorted, ordered.live⟩

section

variable [Host]

/-- The layers after an instruction that the machine is about to execute. -/
theorem Executing.layers {P Q : Stacks → Prop} {a : Activity} {inner outer : List Pending} {p : Pending}
    {i : Instruction} {m : Machine} {f : Frame} {rest : List Frame} {out : Except Fault Progress} {s : Stacks}
    (executing : Executing a p i m f rest) (keeps : i.Confined m f) (effect : Effect i m f rest out s)
    (pending : a.pending = inner ++ outer) (layers : Layers P inner a.machine.stacked)
    (write : ∀ {q : Stacks}, P q → Q (q.wrote a.cellWrite)) (base : inner = [] → P a.machine.stacked → Q s) :
    Layers Q inner s := by
  have innermost : ∀ p', inner.head? = some p' → p'.depths.frames = m.runBase := by
    intro p' hp
    have head := executing.innermost
    rw [pending, List.head?_append, hp, Option.some_or] at head
    cases head
    exact executing.runBase
  refine layers.executed executing.stays executing.frames effect keeps innermost executing.inside base ?_
  rw [← executing.write]
  exact write

/-- The layers after a move. The outermost layer of interest changes from `P` to `Q`. -/
theorem layers_step [LawfulHost] {P Q : Stacks → Prop} {a b : Activity} {inner outer : List Pending} (tidy : a.Tidy)
    (confined : a.Confined) (pending : a.pending = inner ++ outer)
    (layers : Layers P inner a.machine.stacked) (mono : ∀ {q s : Stacks}, Q q → Above q s → Q s)
    (write : ∀ {q : Stacks}, P q → Q (q.wrote a.cellWrite))
    (busy : inner = [] → (∀ v, a.control ≠ .deliver v) ∧ ∀ e, a.control ≠ .raise e)
    (base : inner = [] → a.control = .execute → P a.machine.stacked → Q b.machine.stacked) (step : a.step = .continue b) :
    ∃ inner', b.pending = inner' ++ outer ∧ Layers Q inner' b.machine.stacked := by
  -- only instructions write to the layers below
  have idle : a.control ≠ .execute → Layers Q inner a.machine.stacked := by
    intro rests
    have layers' := layers.wrote write
    rw [cellWrite_of_ne rests] at layers'
    exact layers'
  have called : ∀ {m : Machine}, a.control ≠ .execute → Stays 0 a.machine.stacked m.stacked →
      m.frames = a.machine.frames → Layers Q inner m.stacked :=
    fun rests stays frames => (idle rests).above mono (tidy.ordered.above_of_stays stays frames)
  have innermost : ∀ {p : Pending} {ps : List Pending},
      ((∃ v, a.control = .deliver v) ∨ ∃ e, a.control = .raise e) → a.pending = p :: ps →
      ∃ inner', inner = p :: inner' ∧ ps = inner' ++ outer := by
    intro p ps ends entries
    cases inner with
    | nil =>
      obtain ⟨delivers, raises⟩ := busy rfl
      rcases ends with ⟨v, control⟩ | ⟨e, control⟩
      · exact absurd control (delivers v)
      · exact absurd control (raises e)
    | cons p' inner' =>
      obtain ⟨rfl, rfl⟩ := List.cons.inj (pending.symm.trans entries)
      exact ⟨inner', rfl, rfl⟩
  cases tidy.next step with
  | executed control executing effect =>
    have keeps := confined control _ _ _ _ executing.fetched executing.frames
    exact ⟨inner, pending, executing.layers keeps effect pending layers write fun none => base none control⟩
  | called control executing effect =>
    have keeps := confined control _ _ _ _ executing.fetched executing.frames
    have ordered := effect.ordered (ordered_of_stays tidy.ordered executing.stays)
    refine ⟨_ :: inner, by rw [pending, List.cons_append], .entry ?_ ⟨rfl, fun _ => rfl⟩ ordered.above⟩
    exact executing.layers keeps effect pending layers write fun none => base none control
  | entered control stays frames slot iterBase =>
    refine ⟨inner, pending, (idle (by simp [control])).above mono ?_⟩
    have entered := (tidy.ordered.above_of_stays stays frames).enter (Nat.le_of_eq slot.symm)
      (by rw [iterBase, stays.iterations]; rfl)
    exact entered.inRun _
  | answered control stays frames => exact ⟨inner, pending, called (by simp [control]) stays frames⟩
  | reentered control stays frames =>
    have ordered := ordered_of_stays tidy.ordered stays
    refine ⟨_ :: inner, by rw [pending, List.cons_append], .entry ?_ ⟨rfl, fun _ => rfl⟩ ordered.above⟩
    exact called (by simp [control]) stays frames
  | completed control acted completed =>
    have up := tidy.ordered.above
    rw [← acted.stacked] at up
    refine ⟨inner, completed.pending.trans pending, (idle (by simp [control])).above mono ?_⟩
    rw [← acted.stacked]
    exact completed.above up
  | calledBack control acted =>
    have ordered := tidy.ordered
    rw [← acted.stacked] at ordered
    refine ⟨_ :: inner, by rw [pending, List.cons_append], .entry ?_ ⟨rfl, fun _ => rfl⟩ ordered.above⟩
    rw [acted.stacked]
    exact idle (by simp [control])
  | told control acted =>
    refine ⟨inner, pending, ?_⟩
    show Layers Q inner (Machine.stacked _)
    rw [acted.stacked]
    exact idle (by simp [control])
  | @delivered v p ps b control entries resumed =>
    obtain ⟨inner, rfl, rfl⟩ := innermost (.inl ⟨v, control⟩) entries
    have up := resumed.above (tidy.ordered.above.inRun p.runBase)
    exact ⟨inner, resumed.pending, ((idle (by simp [control])).tail mono).above mono up⟩
  | @recovered e p ps m b control entries stacked captured resumed =>
    obtain ⟨inner, rfl, rfl⟩ := innermost (.inr ⟨e, control⟩) entries
    cases idle (by simp [control]) with
    | @entry _ _ q _ below found above =>
      have up := above.of_found p.runBase
      rw [← stacked_unwound e found above resumed.made.1, ← stacked] at up
      exact ⟨inner, resumed.pending, below.above mono (resumed.above up)⟩
  | @rethrown e e' p ps m control entries script host stacked =>
    obtain ⟨inner, rfl, rfl⟩ := innermost (.inr ⟨e, control⟩) entries
    cases idle (by simp [control]) with
    | @entry _ _ q _ below found above =>
      have up := above.of_found p.runBase
      rw [← stacked_unwound e found above script, ← stacked] at up
      exact ⟨inner, rfl, below.above mono up⟩

/-- Every move keeps the regions in order. -/
theorem Tidy.ordered_step [LawfulHost] {a b : Activity} (tidy : a.Tidy) (step : a.step = .continue b) :
    b.machine.stacked.Ordered := by
  cases tidy.next step with
  | executed control executing effect => exact effect.ordered (ordered_of_stays tidy.ordered executing.stays)
  | called control executing effect => exact effect.ordered (ordered_of_stays tidy.ordered executing.stays)
  | entered control stays frames =>
    have ordered := ordered_of_stays tidy.ordered stays
    exact ⟨ordered.sorted, fun r hr => Nat.le_succ_of_le (ordered.live r hr)⟩
  | answered control stays => exact ordered_of_stays tidy.ordered stays
  | reentered control stays => exact ordered_of_stays tidy.ordered stays
  | completed control acted completed => exact completed.ordered (acted.stacked ▸ tidy.ordered)
  | calledBack control acted => exact acted.stacked ▸ tidy.ordered
  | told control acted => exact acted.stacked ▸ tidy.ordered
  | delivered control pending resumed => exact resumed.ordered ⟨tidy.ordered.sorted, tidy.ordered.live⟩
  | @recovered e p ps m b control pending stacked captured resumed =>
    have ordered := tidy.ordered_unwound e pending resumed.made.1
    rw [← stacked] at ordered
    exact resumed.ordered ordered
  | @rethrown e e' p ps m control pending script host stacked =>
    have ordered := tidy.ordered_unwound e pending script
    rw [← stacked] at ordered
    exact ordered

/-- Every move keeps the machine tidy, as long as the instructions keep to their own calls. -/
theorem Tidy.step [LawfulHost] {a b : Activity} (tidy : a.Tidy) (confined : a.Confined) (step : a.step = .continue b) :
    b.Tidy := by
  have all : a.pending = a.pending ++ [] := (List.append_nil _).symm
  obtain ⟨inner, pending, layers⟩ := layers_step (P := fun _ => True) (Q := fun _ => True) tidy confined all
    tidy.layers (fun _ _ => trivial) (fun _ => trivial) (fun none => by cases none ▸ tidy.nested)
    (fun _ _ _ => trivial) step
  refine ⟨tidy.toStanding.step step, ?_, tidy.ordered_step step⟩
  rw [pending, List.append_nil]
  exact layers

end

/-! ## Whole runs -/

theorem tidy_startScript (m : Machine) (p : Proto) : (m.startScript p).Tidy := by
  have ordered : ∀ s : Stacks, s.handlers = [] → s.Ordered := fun s none =>
    ⟨none ▸ .nil, fun r hr => nomatch none ▸ hr⟩
  -- a script finds nothing below it
  have layers : ∀ {d : Depths} {s : Stacks}, d.frames = 0 → s.handlers = [] →
      Layers (fun _ => True) [⟨.script, d, 0⟩] s := fun {d s} none handlers => by
    refine .entry (q := ⟨#[], [], [], [], 0⟩) (.base trivial) ⟨none, fun h => absurd rfl h⟩ ?_
    refine ⟨⟨s.frames, (List.append_nil _).symm, fun f _ => ⟨Nat.zero_le _, Nat.zero_le _⟩⟩,
      ⟨[], handlers, nofun⟩, nofun, List.nil_suffix, Nat.zero_le _, fun i hi => absurd hi (Nat.not_lt_zero i)⟩
  refine ⟨standing_startScript m p, ?_, ?_⟩
  all_goals
    rw [startScript_eq]
    have run := run_pushFrame { closure := (m.world.newClosure p).1 } (m.laidOut p)
    split at run
  · rw [run]
    exact layers rfl rfl
  · rw [run]
    exact layers rfl rfl
  · rw [run]
    exact ordered _ rfl
  · rw [run]
    exact ordered _ rfl

theorem tidy_startCall {m : Machine} (ordered : m.stacked.Ordered) (callee : Value) (args : List Value) :
    (m.startCall callee args).Tidy :=
  ⟨standing_startCall m callee args, .entry (.base trivial) ⟨rfl, fun _ => rfl⟩ ordered.above, ordered⟩

section

variable [Host]

/-- When the host gets its answer, the regions are in order. -/
theorem Tidy.ordered_of_done [LawfulHost] {a : Activity} {o : Outcome} {m : Machine} (tidy : a.Tidy)
    (ended : a.step = .done o m) : m.stacked.Ordered := by
  have inRun : ∀ {m' : Machine} {r : Nat}, m'.stacked.Ordered → Stacks.Ordered { m'.stacked with runBase := r } :=
    fun h => ⟨h.sorted, h.live⟩
  cases tidy.final ended with
  | missing control executing effect => exact inRun (effect.ordered (ordered_of_stays tidy.ordered executing.stays))
  | missingCall control stays => exact inRun (ordered_of_stays tidy.ordered stays)
  | delivered control pending caller frames handlers =>
    refine ⟨?_, fun r hr => ?_⟩
    · show m.handlers.Pairwise _
      rw [handlers]
      exact tidy.ordered.sorted
    · have hr : r ∈ m.handlers := hr
      rw [handlers] at hr
      show _ ≤ m.frames.length
      rw [frames]
      exact tidy.ordered.live r hr
  | dropped => exact ⟨.nil, fun r hr => nomatch hr⟩
  | failed control pending caller => exact tidy.ordered_unwound _ pending (by simp [caller])

/-- The activities of runs in which every instruction keeps to its own call. A run starts with a
script, with a call at rest, or with a call after another run, whatever the host has changed besides
calls and regions. -/
inductive Reached : Activity → Prop where
  | script (m : Machine) (p : Proto) : Reached (m.startScript p)
  | call {m : Machine} (frames : m.frames = []) (handlers : m.handlers = []) (callee : Value)
      (args : List Value) : Reached (m.startCall callee args)
  | again {a : Activity} {o : Outcome} {m m' : Machine} (run : Reached a) (confined : a.Confined)
      (ended : a.step = .done o m) (frames : m'.frames = m.frames) (handlers : m'.handlers = m.handlers)
      (callee : Value) (args : List Value) : Reached (m'.startCall callee args)
  | step {a b : Activity} (run : Reached a) (confined : a.Confined) (step : a.step = .continue b) : Reached b

theorem Reached.tidy [LawfulHost] {a : Activity} (reached : a.Reached) : a.Tidy := by
  induction reached with
  | script m p => exact tidy_startScript m p
  | @call m frames handlers callee args =>
    refine tidy_startCall ⟨?_, fun r hr => ?_⟩ callee args
    · show m.handlers.Pairwise _
      rw [handlers]
      exact .nil
    · have hr : r ∈ m.handlers := hr
      rw [handlers] at hr
      cases hr
  | @again a o m m' run confined ended frames handlers callee args tidy =>
    have ordered := tidy.ordered_of_done ended
    refine tidy_startCall ⟨?_, fun r hr => ?_⟩ callee args
    · show m'.handlers.Pairwise _
      rw [handlers]
      exact ordered.sorted
    · have hr : r ∈ m'.handlers := hr
      rw [handlers] at hr
      show _ ≤ m'.frames.length
      rw [frames]
      exact ordered.live r hr
  | step run confined step tidy => exact tidy.step confined step

end

end Activity

end ScriptVm
