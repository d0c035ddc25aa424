import ScriptVm.Proofs.CallsAndRegions
import ScriptVm.Proofs.Unlogged

/-!
# The level of the log

Two sessions that differ only in the level of the log do the same and say the same, log records
apart, with one exception: an `importModule` instruction looks at its name only if the name is
wanted for the log, and fails if its operand selects no text. So the level shows at an import without
a name, and nowhere else.

The main result is `Session.level_shows_only_at_nameless_imports`.
-/

set_option autoImplicit false

namespace ScriptVm

open Exec World Logging

/-! ## Logs with different levels -/

namespace Logging

/-- Whether the log wants the names of imported modules. -/
def wantsImports (l : Logging) : Bool := l.enabled "vm" .debug

/-- Logs with one capturing sink that differ in their level and the records captured so far. Whether
they want the names of imported modules is given. -/
structure Relevelled (own other : Bool) (l l' : Logging) : Prop where
  capturing : l.Capturing
  rest : l' = { l.withCaptured l'.streams.captured with level := l'.level }
  own : l.wantsImports = own
  other : l'.wantsImports = other

variable {own other : Bool} {l l' : Logging}

theorem Relevelled.capturing_right (h : Relevelled own other l l') : l'.Capturing := by
  rw [h.rest]
  exact ⟨h.capturing.started, h.capturing.sinks⟩

theorem Relevelled.symm (h : Relevelled own other l l') : Relevelled other own l' l := by
  refine ⟨h.capturing_right, ?_, h.other, h.own⟩
  rw [h.rest]
  rfl

/-- A record that only the first log captures. -/
theorem Relevelled.note (h : Relevelled own other l l') (logger : Text) (level : Level) (message : Text) :
    Relevelled own other (l.hear (.note logger level message)) l' := by
  rw [h.capturing.hear_note]
  split
  · refine ⟨⟨h.capturing.started, h.capturing.sinks⟩, ?_, h.own, h.other⟩
    rw [h.rest]
    rfl
  · exact h

theorem Relevelled.hear (h : Relevelled own other l l') (e : LogEvent) :
    Relevelled own other (l.hear e) (l'.hear e) := by
  cases e with
  | note logger level message => exact ((h.note logger level message).symm.note logger level message).symm
  | print t =>
    refine ⟨⟨h.capturing.started, h.capturing.sinks⟩, ?_, h.own, h.other⟩
    rw [h.rest]
    rfl

theorem Relevelled.cleared (h : Relevelled own other l l') :
    Relevelled own other { l with streams := {} } { l' with streams := {} } := by
  refine ⟨⟨h.capturing.started, h.capturing.sinks⟩, ?_, h.own, h.other⟩
  rw [h.rest]
  rfl

end Logging

/-! ## Backings with different levels -/

/-- Backings that differ in the level of the log and the records captured so far. -/
def Backing.Relevelled (own other : Bool) (b b' : Backing) : Prop :=
  ∃ l, b' = b.withLog l ∧ Logging.Relevelled own other b.world.log l

theorem unlogged_relevelled (own other : Bool) : Unlogged (Backing.Relevelled own other) where
  log := by
    rintro b _ ⟨l, rfl, -⟩
    rfl
  hear := by
    rintro b _ ⟨l, rfl, levels⟩ e
    exact ⟨l.hear e, rfl, levels.hear e⟩
  cleared := by
    rintro b _ ⟨l, rfl, levels⟩
    exact ⟨{ l with streams := {} }, rfl, levels.cleared⟩
  printed := by
    rintro b _ ⟨l, rfl, levels⟩
    show l.streams.out = b.world.log.streams.out
    rw [levels.rest]
    rfl
  newClosure := by
    rintro b _ ⟨l, rfl, levels⟩ proto cells
    exact ⟨l, rfl, levels⟩
  change := by
    rintro b _ ⟨l, rfl, levels⟩ c log -
    exact ⟨l, rfl, log ▸ levels⟩

namespace Exec

variable {own other : Bool} {m : Machine} {i : Nat}

/-- Both heaps are the same, so any change of them is. -/
theorem same_anyHeap (g : Heap → Heap) : Same (Backing.Relevelled own other) (modifyHeap g) m := by
  unfold modifyHeap withHeap
  refine same_withWorld fun b hb => ?_
  obtain ⟨l, rfl, levels⟩ := hb
  exact ⟨rfl, l, rfl, levels⟩

theorem same_defineMethod (name : Text) (isStatic : Bool) :
    Same (Backing.Relevelled own other) (defineMethod name isStatic) m := by
  have hR := unlogged_relevelled own other
  refine same_pop.bind fun v m₁ _ => ?_
  cases v with
  | closure f =>
    refine (same_classOnTop hR.hostBisimulation.toBisimulation).bind fun r m₂ _ => ?_
    refine (same_unloggedHeap hR).bind fun h m₃ _ => (hR.same_republish _).bind fun _ m₄ _ => ?_
    exact same_anyHeap _
  | _ => exact .readUnlogged hR (fun _ => rfl) (same_unloggedFail hR _)

/-- An import of a named module says so to the log and does nothing else. -/
theorem run_importModule {t : Text} (named : m.nameAt? i = some t) :
    (importModule i).run m =
      .ok () (m.on (m.backing.withLog (m.world.log.hear (.note "vm" .debug ("import " ++ t))))) := by
  unfold importModule
  rw [run_bind_of_ok (run_get m)]
  unfold Logging.hear
  simp only
  split
  next on =>
    rw [run_bind_of_ok (run_constantName named)]
    unfold note World.note
    rw [run_withWorld]
    simp only [on]
    rfl
  next => rfl

/-- An import is the same if both logs want the name of the module, if neither does, or if there is a
name. -/
theorem same_importModule (indifferent : own = other ∨ ∃ t, m.nameAt? i = some t) :
    Same (Backing.Relevelled own other) (importModule i) m := by
  rcases indifferent with rfl | ⟨t, named⟩
  · have hB := (unlogged_relevelled own own).hostBisimulation.toBisimulation
    refine .read (fun b hb => ?_) ?_
    · obtain ⟨l, rfl, levels⟩ := hb
      have wanted : l.enabled "vm" .debug = m.world.log.enabled "vm" .debug := levels.other.trans levels.own.symm
      show (if l.enabled "vm" .debug then _ else _) = _
      rw [wanted]
    · split
      · exact (same_constantName hB i).bind fun name m₁ _ => same_note hB _ _
      · exact same_pure ()
  · rintro b ⟨l, rfl, levels⟩
    rw [run_importModule named, run_importModule (m := m.on (m.backing.withLog l)) named]
    refine .ok (m := m.on _) (b := m.backing.withLog _) rfl ⟨_, rfl, ?_⟩
    exact levels.hear (.note "vm" .debug _)

/-- An import without a name goes through if and only if the log does not want the name. -/
theorem importModule_ok_iff (nameless : m.nameAt? i = none) :
    (∃ m', (importModule i).run m = .ok () m') ↔ m.world.log.wantsImports = false := by
  have run : (importModule i).run m =
      ((if m.world.log.wantsImports then constantName i >>= fun name => note .debug fun _ => "import " ++ name
        else Pure.pure () : Exec Unit)).run m := rfl
  rw [run]
  cases m.world.log.wantsImports with
  | false => exact ⟨fun _ => rfl, fun _ => ⟨m, rfl⟩⟩
  | true =>
    refine ⟨?_, nofun⟩
    rintro ⟨m', ok⟩
    obtain ⟨t, named, -⟩ | ⟨-, f, failed⟩ := constantName_cases m i
    · cases nameless.symm.trans named
    · rw [if_pos rfl, run_bind_of_error failed] at ok
      cases ok

end Exec

/-! ## Moves -/

/-- Whether the next move executes an import whose operand selects no text. -/
def Activity.importsNameless (a : Activity) : Bool :=
  match a.control with
  | .execute =>
    match fetch.run a.machine with
    | .ok i m => i.op = .importModule && (m.nameAt? i.a.toNat).isNone
    | .error _ _ => false
  | _ => false

namespace Activity

variable {own other : Bool} {a : Activity}

theorem together_relevelled (indifferent : own = other ∨ a.importsNameless = false) :
    a.Together (Backing.Relevelled own other) := by
  have hR := unlogged_relevelled own other
  refine together_of_unlogged hR fun i m₁ control fetched suspect => ?_
  have name : ∀ k, Same (Backing.Relevelled own other) (constantName k) m₁ :=
    same_constantName hR.hostBisimulation.toBisimulation
  unfold Instruction.isSuspect at suspect
  unfold execute
  cases op : i.op with
  | importModule =>
    refine same_andNext (same_importModule (indifferent.imp_right fun named => ?_))
    unfold importsNameless at named
    simp only [control, fetched, op, decide_true, Bool.true_and] at named
    exact Option.ne_none_iff_exists'.1 fun none => by simp [none] at named
  | method => exact same_andNext ((name _).bind fun t _ _ => same_defineMethod t false)
  | staticMethod => exact same_andNext ((name _).bind fun t _ _ => same_defineMethod t true)
  | _ =>
    rw [op] at suspect
    cases suspect

/-- What an activity that imports without a name is about to execute. -/
theorem importsNameless_iff :
    a.importsNameless = true ↔ a.control = .execute ∧ ∃ i m, fetch.run a.machine = .ok i m ∧
      i.op = .importModule ∧ m.nameAt? i.a.toNat = none := by
  unfold importsNameless
  cases a.control with
  | execute =>
    cases fetch.run a.machine with
    | ok i m => simp
    | error f m => simp
  | _ => simp

/-- An import without a name is where the level of the log shows: the machine goes on if and only if
the log does not want the name. -/
theorem nameless_goes_on_iff (nameless : a.importsNameless = true) :
    (∃ m, a.step = .continue ⟨m, a.pending, .execute⟩) ↔ a.machine.world.log.wantsImports = false := by
  obtain ⟨control, i, m, fetched, op, none⟩ := importsNameless_iff.1 nameless
  obtain ⟨fs, -, rfl⟩ := fetched_eq fetched (by rw [op]; nofun)
  have executed : (fetch >>= execute).run a.machine =
      (andNext (importModule i.a.toNat)).run { a.machine with frames := fs } := by
    rw [run_bind_of_ok fetched]
    unfold execute
    simp only [op]
  have moved : a.step = stepExecute a.machine a.pending := by
    unfold step
    rw [control]
  have decides := importModule_ok_iff none
  unfold stepExecute at moved
  rw [moved, executed]
  refine Iff.trans ?_ decides
  cases imported : (importModule i.a.toNat).run { a.machine with frames := fs } with
  | ok v m₁ =>
    rw [show (andNext (importModule i.a.toNat)).run _ = .ok .next m₁ from run_bind_of_ok imported]
    exact ⟨fun _ => ⟨m₁, rfl⟩, fun _ => ⟨m₁, rfl⟩⟩
  | error f m₁ =>
    rw [show (andNext (importModule i.a.toNat)).run _ = .error f m₁ from run_bind_of_error imported]
    refine ⟨?_, nofun⟩
    rintro ⟨m, going⟩
    cases f <;> cases going

end Activity

/-! ## Sessions -/

/-- The log without its level and the records captured so far. -/
def Logging.unlevelled (l : Logging) : Logging := { l.withCaptured #[] with level := .off }

theorem Logging.Relevelled.unlevelled {own other : Bool} {l l' : Logging} (h : Relevelled own other l l') :
    l'.unlevelled = l.unlevelled := by
  rw [h.rest]
  rfl

namespace Session

/-- The session with another level of its log. -/
def atLevel (s : Session) (level : Level) : Session :=
  { s with
    machine := { s.machine with
      world := { s.machine.world with log := { s.machine.world.log with level } } } }

/-- A reply and the machine after it, without the level of the log and what it has captured. -/
def unlevelled (r : Reply × Session) : Reply × Machine :=
  ({ r.1 with log := [] },
    { r.2.machine with world := { r.2.machine.world with log := r.2.machine.world.log.unlevelled } })

variable {own other : Bool} {s s' : Session}

theorem StepTwin.unlevelled {r r' : Reply × Session} (h : StepTwin Eq (Backing.Relevelled own other) r r') :
    Session.unlevelled r' = Session.unlevelled r := by
  obtain ⟨_, machine, l, rfl, levels⟩ := h.session.machine
  have reply : { r'.1 with log := [] } = { r.1 with log := [] } := by
    have stats : r'.1.stats = r.1.stats := by
      rw [h.stats.1, h.stats.2, machine]
      rfl
    calc { r'.1 with log := [] } = { r'.1.unlogged with stats := r'.1.stats } := rfl
      _ = { r.1.unlogged with stats := r.1.stats } := by rw [h.reply, stats]
  unfold Session.unlevelled
  rw [reply, machine]
  show (_, { r.2.machine with world := { r.2.machine.world with log := l.unlevelled } }) = _
  rw [levels.unlevelled]
  rfl

/-- Two levels of one session. -/
theorem twin_atLevel (capturing : s.machine.world.log.Capturing) (l l' : Level) :
    (s.atLevel l).Twin Eq
      (Backing.Relevelled (s.atLevel l).machine.world.log.wantsImports (s.atLevel l').machine.world.log.wantsImports)
      (s.atLevel l') := by
  refine ⟨⟨(s.atLevel l').machine.backing, rfl, (s.atLevel l').machine.world.log, rfl, ?_⟩,
    kept_refl likeness_eq s.kept, rfl⟩
  exact ⟨⟨capturing.started, capturing.sinks⟩, rfl, rfl, rfl⟩

/-- Whether the level of the log can be seen. Take any session that a host can get to, set its log to
any two levels, and let it go on with any commands. If the log wants the names of imported modules at
both levels or at neither, or if no import lacks a name, then the replies and the sessions after every
command are the same but for the level and the captured records. And an import without a name is the
one place where the level shows: the machine goes on with the next instruction if and only if the log
does not want the name. -/
theorem level_shows_only_at_nameless_imports (reachable : s.Reachable) (l l' : Level) (cs : List Command) :
    (((s.atLevel l).machine.world.log.wantsImports = (s.atLevel l').machine.world.log.wantsImports ∨
        ∀ a ∈ (s.atLevel l).activities cs, a.importsNameless = false) →
      ((s.atLevel l').history cs).map unlevelled = ((s.atLevel l).history cs).map unlevelled) ∧
    ∀ a ∈ (s.atLevel l).activities cs, a.importsNameless = true →
      ((∃ m, a.step = .continue ⟨m, a.pending, .execute⟩) ↔
        (s.atLevel l).machine.world.log.wantsImports = false) := by
  have capturing := reachable.settled.2
  refine ⟨fun indifferent => ?_, fun a ha nameless => ?_⟩
  · have hR := unlogged_relevelled (s.atLevel l).machine.world.log.wantsImports
      (s.atLevel l').machine.world.log.wantsImports
    have together : ∀ a ∈ (s.atLevel l).activities cs, a.Together _ := fun a ha =>
      Activity.together_relevelled (indifferent.imp_right fun named => named a ha)
    have twins := twin_history hR.hostBisimulation (twin_atLevel capturing l l') together
      fun c _ special _ _ twin => twin.dispatch_special hR special
    rw [← List.forall₂_eq_eq_eq, List.forall₂_map_left_iff, List.forall₂_map_right_iff]
    exact twins.flip.imp fun _ _ twin => twin.unlevelled
  · -- The level stays as it is: the session is its own twin.
    have hR := unlogged_relevelled (s.atLevel l).machine.world.log.wantsImports
      (s.atLevel l).machine.world.log.wantsImports
    obtain ⟨_, _, -, levels⟩ := related_of_activities hR.hostBisimulation (twin_atLevel capturing l l)
      (fun a _ => Activity.together_relevelled (.inl rfl))
      (fun c _ special _ _ twin => twin.dispatch_special hR special) a ha
    rw [← levels.own]
    exact Activity.nameless_goes_on_iff nameless

/-- A script that imports what a constant says and returns null. -/
def importing (k : Constant) : List Command :=
  [.interpret (.function "main" 0 0 [] [] [.plain k]
    [({ op := .importModule, a := 0 }, 1), ({ op := .pushNull }, 1), ({ op := .ret }, 1)]) none]

theorem level_hidden_by_named_import :
    (∀ a ∈ ((Session.start {} .info 100).atLevel .trace).activities (importing (.text "lib/util")),
        a.importsNameless = false) ∧
      (((Session.start {} .info 100).atLevel .off).history (importing (.text "lib/util"))).map unlevelled =
        (((Session.start {} .info 100).atLevel .trace).history (importing (.text "lib/util"))).map unlevelled := by
  have named : ∀ a ∈ ((Session.start {} .info 100).atLevel .trace).activities (importing (.text "lib/util")),
      a.importsNameless = false := by decide +kernel
  exact ⟨named, (level_shows_only_at_nameless_imports (.start {} .info 100) .trace .off _).1 (.inr named)⟩

/-- A script that imports the number 1 gives null while the log is at `info`, and fails at `debug`. -/
theorem nameless_import_fails_at_debug :
    (((Session.start {} .off 100).atLevel .debug).history (importing (.int 1))).map unlevelled ≠
      (((Session.start {} .off 100).atLevel .info).history (importing (.int 1))).map unlevelled := by
  intro same
  have errors := congrArg (List.map fun r => r.1.diagnostics.length) same
  revert errors
  decide +kernel

end Session

end ScriptVm
