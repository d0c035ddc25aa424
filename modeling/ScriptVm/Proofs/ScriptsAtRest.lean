import Mathlib.Data.List.TakeWhile
import ScriptVm.Proofs.CallbackContainment
import ScriptVm.Proofs.ProtectedRegions

/-!
# Scripts end at rest

However unbalanced the regions and loops of a script are, nothing of it is left when the host has its
answer: no call, no region, no iteration, no captured slot and no value. An error drops everything. A
result comes with the return of the first call, and this return is enough: every region belongs to
some call, so it is dropped with the first one at the latest, and the first call found no iteration.

Nothing that was left before the script matters either, nor do the statistics of the caches.

The main result is `Machine.interpret_ends_at_rest`.
-/

set_option autoImplicit false

namespace ScriptVm

open Machine Exec Stacks

namespace Machine

/-- Nothing is under way. -/
structure AtRest (m : Machine) : Prop where
  frames : m.frames = []
  stack : m.stack = #[]
  handlers : m.handlers = []
  iterations : m.iterations = []
  openCells : m.openCells = []
  runBase : m.runBase = 0

/-- The first call of a script. -/
def firstCall (m : Machine) (p : Proto) : Frame := { closure := (m.world.newClosure p).1 }

/-- The entry of a script. -/
def scriptEntry (m : Machine) (p : Proto) : Pending := ⟨.script, (m.laidOut p).depths, 0⟩

/-- `m'` has the options, globals, output, diagnostics and world of `m`. -/
structure Lasting (m m' : Machine) : Prop where
  config : m'.config = m.config
  globals : m'.globals = m.globals
  output : m'.output = m.output
  diagnostics : m'.diagnostics = m.diagnostics
  world : m'.world = m.world

end Machine

namespace Activity

section

variable {ok : Activity → Prop} {s a b : Activity} {past : List Activity} {m : Machine} {p : Proto}

/-! ## The first call -/

theorem pending_startScript (m : Machine) (p : Proto) : (m.startScript p).pending = [m.scriptEntry p] := by
  rw [startScript_eq]
  have run := run_pushFrame (m.firstCall p) (m.laidOut p)
  unfold firstCall at run
  split at run <;> rw [run] <;> rfl

/-- A script begins with its first call, unless there is no room for it. -/
theorem alive_startScript (m : Machine) (p : Proto) (some : (m.startScript p).machine.frames ≠ []) :
    Alive (m.firstCall p) [] (m.startScript p).machine.frames := by
  rw [startScript_eq] at some ⊢
  have run := run_pushFrame (m.firstCall p) (m.laidOut p)
  unfold firstCall at run
  split at run
  · rw [run] at some
    exact absurd rfl some
  · rw [run]
    exact ⟨0, List.suffix_refl _⟩

/-- The entry of a script lasts as long as its run. -/
theorem Run.suffix_startScript (run : Run ok (m.startScript p) past a) : [m.scriptEntry p] <:+ a.pending := by
  induction run with
  | start => exact ⟨[], (pending_startScript m p).symm⟩
  | move run allowed step ih =>
    exact host_suffix_step (run.standing (standing_startScript m p)) (.inl rfl) ih step

/-- Every activity of a script is scripted. -/
theorem Run.scripted (run : Run ok (m.startScript p) past a) : a.Scripted := by
  induction run with
  | start => exact scripted_startScript m p
  | move run allowed step ih => exact ih.step step

/-- When the first call has ended, or had no room, there are no calls any more. -/
theorem Scripted.frames_of_nil (h : a.Scripted) (none : a.machine.frames = []) : a.step.machine.frames = [] := by
  obtain ⟨q, outermost, script, -⟩ := h.outermost
  cases pending : a.pending with
  | nil => cases pending ▸ h.standing.nested
  | cons e ps =>
    have depth := h.standing.depth e (by rw [pending, List.head?_cons])
    rw [none, List.length_nil] at depth
    cases control : a.control with
    | execute =>
      have rooted := h.standing.rooted
      rw [Rooted, control] at rooted
      obtain ⟨-, -, -, -, inside⟩ := rooted
      rw [none, List.length_nil] at inside
      omega
    | invoke callee args =>
      obtain ⟨e', ps', entered⟩ := h.standing.entered control
      cases pending.symm.trans entered.pending
      have around := h.standing.nested.positive (by rw [pending, List.head?_cons]) entered.called outermost script
      omega
    | ask byEntry c => rw [(ask_step control).1, none]
    | deliver v => rw [frames_of_deliver control pending, none]
    | raise err =>
      by_cases called : e.caller = .script
      · rw [Activity.step, control, pending]
        simp only [stepRaise, called]
        rfl
      · have length := length_of_raise h.standing control pending called
        exact List.length_eq_zero_iff.1 (by omega)

/-- As long as there are calls, the first one is that of the script. -/
theorem Run.firstCall (run : Run ok (m.startScript p) past a) (some : a.machine.frames ≠ []) :
    Alive (m.firstCall p) [] a.machine.frames := by
  induction run with
  | start => exact alive_startScript m p some
  | @move past a b run allowed step ih =>
    have shift := run.scripted.standing.shift
    have ended := run.scripted.frames_of_nil
    rw [step] at shift ended
    by_cases none : a.machine.frames = []
    · exact absurd (ended none) some
    · exact shift.alive (ih none) (List.length_pos_iff.2 some)

/-- Every region of a script belongs to some call. -/
theorem Run.regions_positive (run : Run ok (m.startScript p) past a) :
    ∀ h ∈ a.machine.handlers, 0 < h.frameDepth := by
  have keeps : ∀ {x : Activity}, x.Standing → ok x → (∀ h ∈ x.machine.handlers, 0 < h.frameDepth) →
      ∀ h ∈ x.step.machine.handlers, 0 < h.frameDepth := by
    intro x standing _ before h hh
    rcases standing.shift.regions with fewer | ⟨h', f, rest, opens, -, more⟩
    · exact before h (fewer.subset hh)
    · rw [more] at hh
      rcases List.mem_cons.1 hh with rfl | hh
      · have depth := opens.depth
        omega
      · exact before h hh
  refine run.invariant (P := fun m => ∀ h ∈ m.handlers, 0 < h.frameDepth) (standing_startScript m p) ?_ keeps
  rw [(startScript_begins m p).1]
  exact nofun

/-! ## The last return -/

/-- A script gets its result from the return of a call. -/
theorem Run.executed (run : Run ok (m.startScript p) past a) (step : a.step = .continue b) {v : Value}
    (control : b.control = .deliver v) (pending : b.pending = [m.scriptEntry p]) :
    a.control = .execute ∧ b.pending = a.pending := by
  have standing := run.scripted.standing
  have source := source_of_step standing step
  rw [Source, control] at source
  rcases source with executes | ⟨busy, same⟩ | ⟨q, before, caller⟩
  · exact executes
  · obtain ⟨e, ps, entry, called⟩ := standing.entry busy
    cases (same.symm.trans pending).symm.trans entry
    exact absurd rfl called
  · have nested := standing.nested
    rw [before, pending] at nested
    cases nested with
    | instruction other => cases caller.symm.trans other
    | entry _ _ _ called => exact absurd rfl called

/-- The last return of a script leaves no call, no region and no iteration. -/
theorem Run.stacked_of_result (run : Run ok (m.startScript p) past b) {v : Value} (control : b.control = .deliver v)
    (pending : b.pending = [m.scriptEntry p]) :
    b.machine.frames = [] ∧ b.machine.handlers = [] ∧ b.machine.iterations = [] := by
  cases run with
  | start =>
    rcases (startScript_begins m p).2.2 with executes | ⟨e, raises⟩
    · cases control.symm.trans executes
    · cases control.symm.trans raises
  | @move past a _ run allowed step =>
    obtain ⟨executes, same⟩ := run.executed step control pending
    obtain ⟨q, i, m₁, f, rest, executing⟩ := run.scripted.standing.executing executes
    have first : q = m.scriptEntry p := by
      have head := executing.innermost
      rw [← same, pending] at head
      exact (Option.some.inj head).symm
    have base : m₁.runBase = 0 := executing.runBase.symm.trans (congrArg (fun q => q.depths.frames) first)
    obtain ⟨stacked, last⟩ := (step ▸ executing.executes).left control
    obtain rfl : rest = [] := List.length_eq_zero_iff.1 (by omega)
    have calls : SameCalls a.machine.frames [f] := executing.frames ▸ executing.stays.frames
    obtain ⟨f', before⟩ := calls.of_cons
    obtain ⟨ip, alive⟩ := (run.firstCall (by rw [before]; exact List.cons_ne_nil _ _)).sameCalls calls
    have iterBase : f.iterBase = 0 := by
      obtain ⟨rfl, -⟩ := List.cons.inj (alive.eq_of_length rfl)
      rfl
    have regions : ∀ h ∈ m₁.handlers, 0 < h.frameDepth := by
      rw [show m₁.handlers = a.machine.handlers from executing.stays.handlers]
      exact run.regions_positive
    refine ⟨congrArg Stacks.frames stacked, (congrArg Stacks.handlers stacked).trans ?_,
      (congrArg Stacks.iterations stacked).trans ?_⟩
    · exact List.dropWhile_eq_nil_iff.2 fun h hh => decide_eq_true (regions h hh)
    · show truncated m₁.iterations f.iterBase = []
      rw [iterBase]
      exact List.drop_length

/-- A script that has ended leaves the machine at rest. -/
theorem Run.atRest (run : Run ok (m.startScript p) past a) {o : Outcome} {m' : Machine}
    (ended : a.step = .done o m') (answered : o ≠ .missingConstant) : m'.AtRest := by
  obtain ⟨control, q, pending, -⟩ := returns_of_done run.scripted.standing ended answered
  have own : q = m.scriptEntry p := by
    have suffix := run.suffix_startScript
    rw [pending] at suffix
    exact (List.cons.inj (suffix.eq_of_length rfl)).1.symm
  rw [own] at pending
  rcases control with ⟨v, delivers⟩ | ⟨e, raises⟩
  · obtain ⟨frames, handlers, iterations⟩ := run.stacked_of_result delivers pending
    have openCells := run.scripted.settled v _ delivers pending
    rw [Activity.step, delivers, pending] at ended
    cases ended
    exact ⟨frames, rfl, handlers, iterations, openCells, rfl⟩
  · rw [Activity.step, raises, pending] at ended
    cases ended
    exact ⟨rfl, rfl, rfl, rfl, rfl, rfl⟩

end

end Activity

/-! ## Statistics of the caches -/

namespace Exec

variable {α : Type} {m : Machine}

/-- `s` differs from the side of `m` in the statistics only. -/
def CountedApart (m : Machine) (s : Side) : Prop := ∃ stats, s = { m.side with stats }

/-- What reads the machine without its statistics. -/
theorem Alike.uncounted {body : Machine → Exec α} (blind : ∀ stats, body { m with stats } = body m)
    (next : Alike CountedApart (body m) m) : Alike CountedApart (get >>= body) m := by
  rintro _ ⟨stats, rfl⟩
  obtain ⟨s', run, hs'⟩ := next _ ⟨stats, rfl⟩
  refine ⟨s', ?_, hs'⟩
  rw [run_bind_of_ok (run_get _), run_bind_of_ok (run_get _)]
  exact (congrArg (fun x : Exec α => x.run _) (blind stats)).trans run

theorem uncounted_withWorld (f : World → α × World) : Alike CountedApart (withWorld f) m := by
  rintro _ ⟨stats, rfl⟩
  exact ⟨_, rfl, stats, rfl⟩

theorem uncounted_count (f : CacheStats → CacheStats) : Alike CountedApart (count f) m := by
  rintro _ ⟨stats, rfl⟩
  exact ⟨_, rfl, f stats, rfl⟩

theorem uncounted_config : Alike CountedApart config m := .uncounted (fun _ => rfl) (alike_pure _)

theorem uncounted_heap : Alike CountedApart heap m := .uncounted (fun _ => rfl) (alike_pure _)

theorem uncounted_fail (c : Cause) : Alike CountedApart (fail c : Exec α) m :=
  .uncounted (fun _ => rfl) (alike_raise _)

/-- What is remembered does not depend on the statistics. -/
theorem uncounted_rememberProperty (site : Site) (k : CacheKey) (offset : Nat) :
    Alike CountedApart (rememberProperty site k offset) m := by
  refine uncounted_config.bind fun c m' _ => ?_
  split
  · exact (uncounted_withWorld _).bind fun _ _ _ => alike_pure _
  · exact alike_pure _

theorem uncounted_rememberMethod (site : Site) (k : CacheKey) (found : FoundMethod) :
    Alike CountedApart (rememberMethod site k found) m := by
  refine uncounted_config.bind fun c m' _ => ?_
  split
  · exact (uncounted_withWorld _).bind fun _ _ _ => alike_pure _
  · exact alike_pure _

/-- Looking a field up counts a hit or a miss and looks at no count. -/
theorem uncounted_cachedField (site : Site) (o : ShapedObject) (s : Symbol) :
    Alike CountedApart (cachedField site o s) m := by
  refine uncounted_config.bind fun c m₁ _ => ?_
  split
  · refine (uncounted_withWorld _).bind fun cache m₂ _ => ?_
    split <;> exact (uncounted_count _).bind fun _ _ _ => alike_pure _
  · exact alike_pure _

/-- So does looking a method up. -/
theorem uncounted_cachedMethod (site : Site) (k : CacheKey) : Alike CountedApart (cachedMethod site k) m := by
  refine uncounted_config.bind fun c m₁ _ => ?_
  split
  · refine (uncounted_withWorld _).bind fun cache m₂ _ => ?_
    split <;> exact (uncounted_count _).bind fun _ _ _ => alike_pure _
  · exact alike_pure _

theorem uncounted_placedField (site : Site) (o : ShapedObject) (s : Symbol) :
    Alike CountedApart (placedField site o s) m := by
  refine .uncounted (fun _ => rfl) ?_
  dsimp only
  split
  · exact (uncounted_rememberProperty _ _ _).bind fun _ _ _ => alike_pure _
  · exact alike_pure _

theorem uncounted_classMethod (site : Site) (cls : Ref .cls) (s : Symbol) (name : Text) :
    Alike CountedApart (classMethod site cls s name) m := by
  refine uncounted_heap.bind fun h m₁ _ => ?_
  split
  · exact (uncounted_rememberMethod _ _ _).bind fun _ _ _ => alike_pure _
  · exact alike_pure _

/-- Properties are read without a look at the statistics. -/
theorem uncounted_getObjectProperty (r : Ref .object) (name : Text) (site : Site) :
    Alike CountedApart (getObjectProperty r name site) m := by
  refine (uncounted_withWorld _).bind fun s m₁ _ => uncounted_heap.bind fun h m₂ _ => ?_
  refine (uncounted_cachedField _ _ _).bind fun cached m₃ _ => ?_
  split
  · exact alike_pure _
  refine (uncounted_placedField _ _ _).bind fun placed m₄ _ => ?_
  split
  · exact alike_pure _
  refine uncounted_heap.bind fun h' m₅ _ => (uncounted_cachedMethod _ _).bind fun method m₆ _ => ?_
  split
  · exact uncounted_withWorld _
  refine (uncounted_classMethod _ _ _ _).bind fun found m₇ _ => ?_
  split
  · exact uncounted_withWorld _
  · exact uncounted_fail _

theorem uncounted_setCachedField (site : Site) (r : Ref .object) (s : Symbol) (v : Value) :
    Alike CountedApart (setCachedField site r s v) m := by
  refine uncounted_config.bind fun c m₁ _ => ?_
  split
  · refine uncounted_heap.bind fun h m₂ _ => (uncounted_withWorld _).bind fun cache m₃ _ => ?_
    refine .uncounted (fun _ => rfl) ?_
    dsimp only
    split
    next w _ =>
      exact (uncounted_withWorld fun _ => ((), w)).bind fun _ _ _ => (uncounted_count _).bind fun _ _ _ => alike_pure _
    next => exact (uncounted_count _).bind fun _ _ _ => alike_pure _
  · exact alike_pure _

/-- And assigned. -/
theorem uncounted_setObjectProperty (r : Ref .object) (name : Text) (v : Value) (site : Site) :
    Alike CountedApart (setObjectProperty r name v site) m := by
  refine (uncounted_withWorld _).bind fun s m₁ _ => uncounted_heap.bind fun h m₂ _ => ?_
  split
  · exact uncounted_fail _
  refine (uncounted_setCachedField _ _ _ _).bind fun hit m₃ _ => ?_
  split
  · exact alike_pure _
  refine (uncounted_withWorld _).bind fun _ m₄ _ => uncounted_heap.bind fun h' m₅ _ => ?_
  refine .uncounted (fun _ => rfl) ?_
  split
  · exact uncounted_rememberProperty _ _ _
  · exact alike_pure _

theorem uncounted_importModule (index : Nat) : Alike CountedApart (importModule index) m := by
  refine .uncounted (fun _ => rfl) ?_
  split
  · exact (alike_constantName _).bind fun _ _ _ => uncounted_withWorld _
  · exact alike_pure _

/-- Nothing but the statistics themselves depends on the statistics. -/
theorem congruence_countedApart : Congruence CountedApart where
  control {m m' s} world config _ h := by
    obtain ⟨stats, rfl⟩ := h
    refine ⟨stats, ?_⟩
    unfold Machine.side
    rw [world, config]
  cells _ h := h
  world {m s w es} h _ caches log _ := by
    obtain ⟨stats, rfl⟩ := h
    refine ⟨stats, ?_⟩
    show Side.mk _ _ m.world.caches (m.world.log.hearAll es) = Side.mk _ _ w.caches w.log
    rw [log, caches]
    rfl
  use m side := by
    cases side with
    | read r name site => exact uncounted_getObjectProperty r name site
    | write r name v site => exact uncounted_setObjectProperty r name v site
    | clear => exact uncounted_withWorld fun w => ((), { w with caches := w.caches.clear })
    | importing index => exact uncounted_importModule index

end Exec

namespace Machine

/-- What was left over before a script has no influence on it, and nor have the statistics. -/
theorem startScript_of_lasting {m m₁ : Machine} (same : m.Lasting m₁) (p : Proto) :
    ∃ s, CountedApart m s ∧ m₁.startScript p = (m.withSide s).startScript p := by
  refine ⟨{ m.side with stats := m₁.stats }, ⟨_, rfl⟩, ?_⟩
  obtain ⟨config, globals, output, diagnostics, world⟩ := same
  have reset : { m₁.reset with lastUnwind := none } =
      { (m.withSide { m.side with stats := m₁.stats }).reset with lastUnwind := none } := by
    unfold Machine.reset
    rw [config, globals, output, diagnostics, world]
    rfl
  unfold startScript
  rw [reset]

/-- A script leaves the machine at rest, whatever its code is and whatever state the machine was in,
also with calls, regions and iterations that an earlier script has left behind. What it does depends
only on the options, the globals, the output, the diagnostics and the world. -/
theorem interpret_ends_at_rest {fuel : Nat} {m m' : Machine} {p : Proto} {o : Outcome}
    (run : m.interpret fuel p = some (o, m')) (answered : o ≠ .missingConstant) :
    m'.AtRest ∧ ∀ m₁, m.Lasting m₁ → ∃ stats, m₁.interpret fuel p = some (o, { m' with stats }) := by
  constructor
  · obtain ⟨past, a, ran, ended⟩ := Activity.Run.ends .start run
    exact ran.atRest ended answered
  · intro m₁ same
    obtain ⟨s, apart, start⟩ := startScript_of_lasting same p
    obtain ⟨s', started, apart'⟩ := alike_startScript congruence_countedApart apart p
    rcases Activity.run_alike congruence_countedApart fuel (m.startScript p) apart' with
      ⟨none, -⟩ | ⟨o', m'', s'', run', other, stats, rfl⟩
    · cases none.symm.trans run
    · cases run'.symm.trans run
      refine ⟨stats, ?_⟩
      unfold interpret
      rw [start, started, other]
      rfl

/-- A script that ends with a region and an iteration open and with a variable captured. -/
def unbalancedScript : Proto :=
  { id := 1
    chunk :=
      { code := #[{ op := .tryBegin }, { op := .pushTrue }, { op := .closure }, { op := .array }, { op := .getIter }]
        constants := #[.function { id := 0, captures := [⟨true, 1⟩] }] } }

/-- A machine that an earlier script has left in the middle of its work. -/
def littered : Machine :=
  { stack := #[.null, .bool true]
    frames := [default, default]
    handlers := [⟨7, 1, 0, 0, 3⟩]
    iterations := [.snapshot [.null]]
    openCells := [⟨1, ⟨0⟩⟩]
    runBase := 2 }

/-- The answer to `unbalancedScript` on the machine `littered`. -/
def tidied : Outcome × Machine := (littered.interpret 8 unbalancedScript).getD default

theorem unbalancedScript_ends_at_rest :
    littered.interpret 8 unbalancedScript = some (.value .null, tidied.2) ∧ tidied.2.AtRest ∧
      ∃ stats, interpret 8 {} unbalancedScript = some (.value .null, { tidied.2 with stats }) := by
  have run : littered.interpret 8 unbalancedScript = some (.value .null, tidied.2) := rfl
  obtain ⟨rest, same⟩ := interpret_ends_at_rest run nofun
  exact ⟨run, rest, same {} ⟨rfl, rfl, rfl, rfl, rfl⟩⟩

end Machine

end ScriptVm
