import ScriptVm.Proofs.CallsAndRegions

/-!
# Regions belong to calls under way

Regions are dropped by four rules: the end of a region takes the innermost one, a return those of
its call, a throw the one that catches, and a failed entry all above the number that it found. As
long as no entry fails with regions of its own among that number (`Activity.Mixed`), every region
belongs to a call under way, and a throw that is caught goes on in the very call that opened the
region, at the place that the opening instruction named.

The main result is `Activity.regions_belong_to_calls`. It also says that an entry which does fail so
leaves a region behind whose call has ended.
-/

set_option autoImplicit false

namespace ScriptVm

open Machine Exec Stacks

/-- Inner regions belong to inner calls, and every region to a call under way. -/
structure Owned (fs : List Frame) (hs : List Handler) : Prop where
  sorted : hs.Pairwise fun h h' => h'.frameDepth ≤ h.frameDepth
  positive : ∀ h ∈ hs, 1 ≤ h.frameDepth
  live : ∀ h ∈ hs, h.frameDepth ≤ fs.length

namespace Owned

variable {fs fs' : List Frame} {hs hs' : List Handler}

theorem nil (fs : List Frame) : Owned fs [] := ⟨.nil, nofun, nofun⟩

/-- Some regions are dropped, and calls that no other region belongs to. -/
theorem drop (h : Owned fs hs) (less : hs'.Sublist hs) (live : ∀ r ∈ hs', r.frameDepth ≤ fs'.length) :
    Owned fs' hs' :=
  ⟨h.sorted.sublist less, fun r hr => h.positive r (less.subset hr), live⟩

theorem mono (h : Owned fs hs) (longer : fs.length ≤ fs'.length) : Owned fs' hs :=
  h.drop (.refl hs) fun r hr => Nat.le_trans (h.live r hr) longer

theorem cons {r : Handler} (h : Owned fs hs) (depth : r.frameDepth = fs.length) (some : 0 < fs.length) :
    Owned fs (r :: hs) := by
  refine ⟨List.pairwise_cons.2 ⟨fun r' hr => depth ▸ h.live r' hr, h.sorted⟩, fun r' hr => ?_, fun r' hr => ?_⟩
  · rcases List.mem_cons.1 hr with rfl | hr
    · omega
    · exact h.positive r' hr
  · rcases List.mem_cons.1 hr with rfl | hr
    · exact Nat.le_of_eq depth
    · exact h.live r' hr

/-- The regions of a call end with it. -/
theorem leave {f : Frame} {rest : List Frame} (h : Owned (f :: rest) hs) :
    Owned rest (hs.dropWhile fun r => rest.length + 1 ≤ r.frameDepth) := by
  have ordered : Ordered ⟨#[], f :: rest, hs, [], 0⟩ := ⟨h.sorted, h.live⟩
  exact h.drop (List.dropWhile_sublist _) (ordered_leave ordered f rest).live

/-- A region that catches takes the calls back to its own. -/
theorem caught {r : Handler} (h : Owned fs (r :: hs)) : Owned (catching r fs) hs := by
  refine h.drop (List.sublist_cons_self r hs) fun r' hr => ?_
  rw [length_catching]
  exact Nat.le_min.2 ⟨h.live r' (List.mem_cons_of_mem _ hr), (List.pairwise_cons.1 h.sorted).1 r' hr⟩

end Owned

namespace Activity

/-- The innermost entry is about to fail, and has regions of its own calls among as many regions as
it found. -/
def Mixed (a : Activity) : Prop :=
  ∃ e p ps, a.control = .raise e ∧ a.pending = p :: ps ∧ p.caller ≠ .script ∧
    ∃ h ∈ truncated a.machine.handlers p.depths.handlers, p.depths.frames < h.frameDepth

def Unmixed (a : Activity) : Prop := ¬a.Mixed

section

variable {s a b : Activity} {past : List Activity} {fs : List Frame} {hs : List Handler}

theorem unmixed_of_calm (calm : ∀ e, a.control ≠ .raise e) : a.Unmixed := by
  rintro ⟨e, -, -, control, -⟩
  exact calm e control

theorem unmixed_of_execute (control : a.control = .execute) : a.Unmixed :=
  unmixed_of_calm fun _ raised => nomatch control.symm.trans raised

/-- The next move leaves the regions with their calls exactly if no entry fails with regions mixed
up. -/
theorem Shift.owned_iff (shift : a.Shift fs hs) (standing : a.Standing)
    (owned : Owned a.machine.frames a.machine.handlers) : Owned fs hs ↔ a.Unmixed := by
  cases shift with
  | goesOn calm same =>
    exact iff_of_true (owned.mono (Nat.le_of_eq same.length_eq.symm)) (unmixed_of_calm calm)
  | calls calm same =>
    refine iff_of_true (owned.mono ?_) (unmixed_of_calm calm)
    rw [List.length_cons, same.length_eq]
    omega
  | returns control frames =>
    rw [frames] at owned
    exact iff_of_true owned.leave (unmixed_of_execute control)
  | opens same opens =>
    have kept := owned.mono (Nat.le_of_eq same.length_eq.symm)
    exact iff_of_true (kept.cons opens.depth (Nat.succ_pos _)) (unmixed_of_execute opens.control)
  | closes control same =>
    have kept := owned.mono (Nat.le_of_eq same.length_eq.symm)
    refine iff_of_true (kept.drop (List.tail_sublist _) fun r hr => ?_) (unmixed_of_execute control)
    exact kept.live r (List.mem_of_mem_tail hr)
  | catches same catches =>
    rw [catches.handlers] at owned
    have kept := owned.mono (Nat.le_of_eq same.length_eq.symm)
    exact iff_of_true kept.caught (unmixed_of_execute catches.control)
  | @fails e p ps control pending called =>
    have depth := standing.depth p (by rw [pending, List.head?_cons])
    have calls : (truncated a.machine.frames p.depths.frames).length = p.depths.frames := by
      rw [length_truncated]
      omega
    constructor
    · rintro owned ⟨e', p', ps', -, pending', -, r, hr, mixed⟩
      cases pending.symm.trans pending'
      have := owned.live r hr
      omega
    · intro unmixed
      refine owned.drop (truncated_suffix _ _).sublist fun r hr => ?_
      rw [calls]
      exact Nat.le_of_not_lt fun mixed => unmixed ⟨e, p, ps, control, pending, called, r, hr, mixed⟩
  | @drops e p ps control pending script =>
    refine iff_of_true (.nil _) ?_
    rintro ⟨e', p', ps', -, pending', called, -⟩
    cases pending.symm.trans pending'
    exact called script

theorem owned_step {x : Activity} (standing : x.Standing) (unmixed : x.Unmixed)
    (owned : Owned x.machine.frames x.machine.handlers) : Owned x.step.machine.frames x.step.machine.handlers :=
  (standing.shift.owned_iff standing owned).2 unmixed

theorem owned_startScript (m : Machine) (p : Proto) :
    Owned (m.startScript p).machine.frames (m.startScript p).machine.handlers := by
  rw [(startScript_begins m p).1]
  exact .nil _

theorem Rests.owned {m : Machine} (rests : Rests Unmixed m) : Owned m.frames m.handlers := by
  refine rests.invariant (P := fun m => Owned m.frames m.handlers) (fun _ handlers => ?_)
    (fun frames handlers _ owned => ?_) owned_startScript owned_step
  · rw [handlers]
    exact .nil _
  · rw [frames, handlers]
    exact owned

theorem Starts.owned (starts : Starts Unmixed s) : Owned s.machine.frames s.machine.handlers := by
  cases starts with
  | script m p => exact owned_startScript m p
  | call rests => exact rests.owned

theorem Run.owned (run : Run Unmixed s past a) (starts : Starts Unmixed s) :
    Owned a.machine.frames a.machine.handlers :=
  run.invariant (P := fun m => Owned m.frames m.handlers) starts.standing starts.owned owned_step

/-! ## Where regions come from -/

/-- The region `h`, with the regions `hs` around it, is open, and the call `f` that opened it, with the
calls `rest` around it, is under way. -/
structure Holds (h : Handler) (hs : List Handler) (f : Frame) (rest : List Frame) (m : Machine) : Prop where
  region : h :: hs <:+ m.handlers
  call : Alive f rest m.frames

/-- The call `f`, with the calls `rest` around it, opened the region `h` in the run, with the regions `hs`
around it, and region and call have been there ever since. -/
def Opened (past : List Activity) (a : Activity) (h : Handler) (hs : List Handler) (f : Frame)
    (rest : List Frame) : Prop :=
  ∃ newer t older, past = newer ++ t :: older ∧ t.Opens h f rest ∧ t.machine.handlers = hs ∧
    ∀ x ∈ a :: newer, Holds h hs f rest x.machine

/-- A move opens a region, or there are no others than before. -/
theorem Shift.regions (shift : a.Shift fs hs) :
    hs <:+ a.machine.handlers ∨
      ∃ h f rest, a.Opens h f rest ∧ fs = f :: rest ∧ hs = h :: a.machine.handlers := by
  cases shift with
  | goesOn => exact .inl (List.suffix_refl _)
  | calls => exact .inl (List.suffix_refl _)
  | returns => exact .inl (List.dropWhile_suffix _)
  | opens _ opens => exact .inr ⟨_, _, _, opens, rfl, rfl⟩
  | closes => exact .inl (List.tail_suffix _)
  | catches _ catches =>
    rw [catches.handlers]
    exact .inl (List.suffix_cons _ _)
  | fails => exact .inl (truncated_suffix _ _)
  | drops => exact .inl List.nil_suffix

/-- A region that is still open after a move still has its call. -/
theorem Opened.step {h : Handler} {outer : List Handler} {f : Frame} {rest : List Frame}
    (opened : Opened past a h outer f rest) (standing : a.Standing) (step : a.step = .continue b)
    (owned : Owned b.machine.frames b.machine.handlers) (still : h :: outer <:+ b.machine.handlers) :
    Opened (a :: past) b h outer f rest := by
  obtain ⟨newer, t, older, rfl, opens, regions, held⟩ := opened
  refine ⟨a :: newer, t, older, rfl, opens, regions, fun x hx => ?_⟩
  rcases List.mem_cons.1 hx with rfl | hx
  · have shift := standing.shift
    rw [step] at shift
    have live := owned.live h (still.subset List.mem_cons_self)
    have depth := opens.depth
    exact ⟨still, shift.alive (held a List.mem_cons_self).call (by show _ < x.machine.frames.length; omega)⟩
  · exact held x hx

/-- Every open region was open when the run began, or was opened in it. -/
theorem Run.opened (run : Run Unmixed s past a) (starts : Starts Unmixed s) {h : Handler} {outer : List Handler}
    (still : h :: outer <:+ a.machine.handlers) :
    h :: outer <:+ s.machine.handlers ∨ ∃ f rest, Opened past a h outer f rest := by
  induction run generalizing h outer with
  | start => exact .inl still
  | @move past a b run allowed step ih =>
    have standing := run.standing starts.standing
    have owned : Owned b.machine.frames b.machine.handlers := (run.move allowed step).owned starts
    have shift := standing.shift
    rw [step] at shift
    rcases shift.regions with less | ⟨r, f, rest, opens, frames, handlers⟩
    · rcases ih (still.trans less) with before | ⟨f, rest, opened⟩
      · exact .inl before
      · exact .inr ⟨f, rest, opened.step standing step owned still⟩
    · have handlers : b.machine.handlers = r :: a.machine.handlers := handlers
      have frames : b.machine.frames = f :: rest := frames
      rw [handlers] at still
      rcases List.suffix_cons_iff.1 still with same | before
      · -- the region has just been opened
        obtain ⟨rfl, rfl⟩ := List.cons.inj same
        refine .inr ⟨f, rest, [], a, past, rfl, opens, rfl, fun x hx => ?_⟩
        cases List.mem_singleton.1 hx
        exact ⟨handlers ▸ List.suffix_refl _, f.ip, frames ▸ List.suffix_refl _⟩
      · rcases ih before with inherited | ⟨f, rest, opened⟩
        · exact .inl inherited
        · refine .inr ⟨f, rest, opened.step standing step owned ?_⟩
          rw [handlers]
          exact still

/-- The regions that were open when a run began are out of the reach of its throws. -/
theorem Run.out_of_reach (run : Run Unmixed s past a) (starts : Starts Unmixed s) (control : a.control = .execute)
    {h : Handler} (before : h ∈ s.machine.handlers) : h.frameDepth ≤ a.machine.runBase := by
  cases starts with
  | script m p =>
    rw [(startScript_begins m p).1] at before
    cases before
  | @call m rests callee args =>
    have standing := run.standing (standing_startCall m callee args)
    have entry := run.suffix_startCall
    have rooted := standing.rooted
    rw [Rooted, control] at rooted
    obtain ⟨p, ps, pending, runBase, -⟩ := rooted
    have nested := standing.nested
    rw [pending] at nested entry
    have level : m.frames.length ≤ p.depths.frames := nested.le_of_suffix entry
    have live : h.frameDepth ≤ m.frames.length := rests.owned.live h before
    omega

/-- A throw with a region in its reach does not fail. -/
theorem throwTop_of_reach {m : Machine} {h : Handler} {hs : List Handler} (handlers : m.handlers = h :: hs)
    (reach : m.runBase < h.frameDepth) : ∃ v m', (andNext (do throwValue (← pop))).run m = .ok v m' := by
  have reached : reachable? { m with stack := m.stack.pop } = some (h, hs) := by
    simp only [reachable?, handlers, if_pos reach]
  unfold andNext throwValue
  rw [EStateM.run_bind, run_bind_of_ok (run_pop m), run_bind_of_ok (run_get _)]
  simp only [reached]
  exact ⟨_, _, rfl⟩

/-- A throw that is caught goes on in the calls of the region. -/
theorem Catches.step {h : Handler} {outer : List Handler} (catches : a.Catches h outer) :
    ∃ b fs, a.step = .continue b ∧ b.control = .execute ∧ SameCalls a.machine.frames fs ∧
      b.machine.frames = catching h fs ∧ b.machine.handlers = outer := by
  obtain ⟨i, m, fetched, op⟩ := catches.fetched
  obtain ⟨fs, same, rfl⟩ := fetched_eq fetched (by simp [op])
  have step := step_of_execute catches.control
  have throws : execute i = andNext (do throwValue (← pop)) := by rw [execute, op]
  rw [stepExecute, run_bind_of_ok fetched, throws] at step
  rcases throwTop_cases { a.machine with frames := fs } with
    ⟨r, rs, m', handlers, reach, run, caught, -⟩ | ⟨e, m', run, -⟩
  · have handlers : a.machine.handlers = r :: rs := handlers
    cases catches.handlers.symm.trans handlers
    rw [run] at step
    exact ⟨_, fs, step, rfl, same, congrArg Stacks.frames caught, congrArg Stacks.handlers caught⟩
  · obtain ⟨v, m'', run'⟩ := throwTop_of_reach (m := { a.machine with frames := fs }) catches.handlers catches.reach
    cases run.symm.trans run'

/-- Regions belong to calls under way. Take any run, of any code, in which no entry fails with regions
of its own among as many as it found. Inner regions belong to inner calls, every region to one of the
calls under way; and whenever a throw is caught, the run goes on in the very call that opened the
region, which has been under way since, at the place that the opening instruction named. This lasts
exactly until an entry fails with regions mixed up. -/
theorem regions_belong_to_calls (starts : Starts Unmixed s) (run : Run Unmixed s past a) :
    Owned a.machine.frames a.machine.handlers ∧
      (∀ h outer, a.Catches h outer → ∃ f rest b, Opened past a h outer f rest ∧ a.step = .continue b ∧
        b.control = .execute ∧ b.machine.frames = { f with ip := h.catchIp } :: rest ∧
        b.machine.handlers = outer) ∧
      (Owned a.step.machine.frames a.step.machine.handlers ↔ a.Unmixed) := by
  have standing := run.standing starts.standing
  have owned := run.owned starts
  refine ⟨owned, fun h outer catches => ?_, standing.shift.owned_iff standing owned⟩
  have top : h :: outer <:+ a.machine.handlers := catches.handlers ▸ List.suffix_refl _
  rcases run.opened starts top with before | ⟨f, rest, opened⟩
  · have := run.out_of_reach starts catches.control (before.subset List.mem_cons_self)
    have := catches.reach
    omega
  · obtain ⟨b, fs, step, control, same, frames, handlers⟩ := catches.step
    refine ⟨f, rest, b, opened, step, control, ?_, handlers⟩
    obtain ⟨newer, t, older, -, opens, -, held⟩ := opened
    rw [frames]
    exact ((held a List.mem_cons_self).call.sameCalls same).catching_eq opens.depth

/-- A script that throws in a region of its own. -/
def throwingScript : Proto :=
  { id := 0
    chunk := { code := #[{ op := .tryBegin, a := 2 }, { op := .pushTrue }, { op := .throwTop }] } }

/-- The throw of `throwingScript` goes on behind the throw. -/
theorem regions_belong_to_calls_throwingScript :
    ∃ (f : Frame) (rest : List Frame) (b : Activity),
      ((startScript {} throwingScript).after 2).step = .continue b ∧
      b.machine.frames = { f with ip := 3 } :: rest := by
  have run : Run Unmixed (startScript {} throwingScript) _ ((startScript {} throwingScript).after 2) :=
    .move (.move .start (unmixed_of_execute rfl) rfl) (unmixed_of_execute rfl) rfl
  have catches : ((startScript {} throwingScript).after 2).Catches ⟨1, 1, 3, 1, 0⟩ [] :=
    ⟨rfl, ⟨_, _, rfl, rfl⟩, rfl, by decide⟩
  obtain ⟨f, rest, b, -, step, -, frames, -⟩ :=
    (regions_belong_to_calls (.script {} throwingScript) run).2.1 _ _ catches
  exact ⟨f, rest, b, step, frames⟩

/-- A function that ends the innermost region, opens one of its own and fails. -/
def borrower : Proto :=
  { id := 0
    chunk := { code := #[{ op := .tryEnd }, { op := .tryBegin, a := 8 }, { op := .pushNull }, { op := .negate }] } }

/-- A script that opens a region, lets a native function call `borrower` and go on after its error, and
then throws. -/
def lendingScript : Proto :=
  { id := 1
    chunk :=
      { code := #[{ op := .tryBegin, a := 7 }, { op := .getGlobal }, { op := .closure, a := 1 },
          { op := .call, a := 1 }, { op := .pop }, { op := .pushTrue }, { op := .throwTop }]
        constants := #[.text "attempt", .function borrower] } }

/-- The run of `lendingScript`. -/
def lending (n : Nat) : Activity :=
  (startScript (Machine.fresh {} [⟨"attempt", none, .attempt⟩] {}) lendingScript).after n

/-- When the call of `borrower` has failed, its region is still open, with one call under way. The throw of
the script ends there and goes on in the script, at a place that `borrower` named. -/
theorem lendingScript_resumes_for_borrower :
    Starts (fun _ => True) (lending 0) ∧ (∀ n, n ≤ 13 → ∃ past, Run (fun _ => True) (lending 0) past (lending n)) ∧
      ¬Owned (lending 10).machine.frames (lending 10).machine.handlers ∧
      (lending 7).machine.frames.map Frame.closure = [⟨1⟩, ⟨0⟩] ∧
      (lending 13).machine.lastUnwind = (lending 7).machine.handlers.head? ∧
      (lending 13).machine.frames = [⟨⟨0⟩, 10, 0, false, 0⟩] := by
  have goes : ∀ k, k < 13 → goesOn (lending k).step = true := by decide +kernel
  refine ⟨.script (Machine.fresh {} [⟨"attempt", none, .attempt⟩] {}) lendingScript,
    fun n hn => run_after fun k hk => goes k (by omega), fun owned => ?_, ?_, ?_, ?_⟩
  · have lost : ∃ h ∈ (lending 10).machine.handlers, (lending 10).machine.frames.length < h.frameDepth := by
      decide +kernel
    obtain ⟨h, open', lost⟩ := lost
    exact Nat.not_lt.2 (owned.live h open') lost
  · decide +kernel
  · decide +kernel
  · decide +kernel

end

end Activity

end ScriptVm
