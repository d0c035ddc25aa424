import ScriptVm.Proofs.CacheUse
import ScriptVm.Proofs.HostOperations

/-!
# Inline caches cannot be seen

Two sessions that differ only in the sides of their machines reply to every command in the same
way, as far as replies do not speak of the caches themselves, and differ only in their sides
afterwards. So a session gives the same results with inline caches and without them.

The main result is `Session.caches_invisible`.
-/

set_option autoImplicit false

namespace ScriptVm

open World Logging Exec

/-- The command, with caches in use or not if it starts a new machine. -/
def Command.withCaches (useCaches : Bool) : Command → Command
  | .newMachine config => .newMachine { config with useCaches }
  | c => c

/-- Whether the command puts a method into a cache from outside. -/
def Command.recordsMethod : Command → Bool
  | .recordMethod .. => true
  | _ => false

/-- What an answer says of anything but the caches. -/
def Answer.visible : Answer → Answer
  | .flag _ => .done
  | .state r =>
    .state { r with propertySites := 0, methodSites := 0, config := { r.config with useCaches := true } }
  | a => a

/-- What a reply says of anything but the caches and trace records. -/
def Reply.visible (r : Reply) : Reply :=
  { r with answer := r.answer.visible, stats := {}, log := Captured.notable r.log }

/-- The log without trace records. -/
def Logging.visible (l : Logging) : Logging :=
  l.withCaptured (Captured.notable l.streams.captured.toList).toArray

/-- The machine without its caches, their statistics and trace records. -/
def Machine.visible (m : Machine) : Machine :=
  m.withSide { useCaches := true, stats := {}, caches := {}, log := m.world.log.visible }

namespace Session

/-- The session with another side of its machine. -/
def withSide (s : Session) (t : Side) : Session := { s with machine := s.machine.withSide t }

/-- The session with its caches in use or not. -/
def withCaches (s : Session) (useCaches : Bool) : Session :=
  { s with machine := { s.machine with config := { s.machine.config with useCaches } } }

/-- What there is to see of a session. -/
def visible (s : Session) : Session := { s with machine := s.machine.visible }

/-- The replies to commands one after the other, with the session after each. -/
def history (s : Session) : List Command → List (Reply × Session)
  | [] => []
  | c :: rest => s.perform c :: (s.perform c).2.history rest

variable {s : Session} {t : Side}

/-! ## Operations of the host -/

/-- A host makes the same values on both sides. -/
theorem alike_realise (h : SidesAgree s.machine t) (ls : List Literal) :
    ∃ t', (s.withSide t).realise ls = ((s.realise ls).1, (s.realise ls).2.withSide t') ∧
      SidesAgree (s.realise ls).2.machine t' := by
  obtain ⟨t', values, machine, h'⟩ :=
    Machine.alike_world sidesAgree_worldCongruence h (blind_realiseAll s.scope ls s.machine.world)
  refine ⟨t', ?_, h'⟩
  have same : (s.withSide t).realise ls =
      ((realiseAll s.scope (s.machine.withSide t).world ls).1,
        { s with machine := { s.machine.withSide t with
          world := (realiseAll s.scope (s.machine.withSide t).world ls).2 } }) := rfl
  rw [same, values, machine]
  rfl

theorem foldl_withNative_withSide (natives : List Native) (m : Machine) (t : Side) :
    natives.foldl Machine.withNative (m.withSide t) = (natives.foldl Machine.withNative m).withSide t := by
  induction natives generalizing m with
  | nil => rfl
  | cons n rest ih =>
    have step : Machine.withNative (m.withSide t) n = (Machine.withNative m n).withSide t := rfl
    rw [List.foldl_cons, List.foldl_cons, step, ih]

/-- Native functions are put into the heap without a word in the log. -/
theorem evolves_foldl_withNative (natives : List Native) (m : Machine) :
    Evolves m.world (natives.foldl Machine.withNative m).world ∧
      (natives.foldl Machine.withNative m).world.log = m.world.log := by
  induction natives generalizing m with
  | nil => exact ⟨.refl, rfl⟩
  | cons n rest ih =>
    obtain ⟨evolves, log⟩ := ih (m.withNative n)
    exact ⟨.head (.newNative m.world n) evolves, log⟩

/-- A new machine in either world. -/
theorem sidesAgree_fresh {m : Machine} (h : SidesAgree m t) (config : Config) (u v : Bool) :
    Machine.fresh { config with useCaches := v } preludeNatives (m.withSide t).world =
        (Machine.fresh { config with useCaches := u } preludeNatives m.world).withSide
          { t with useCaches := v, stats := {} } ∧
      SidesAgree (Machine.fresh { config with useCaches := u } preludeNatives m.world)
        { t with useCaches := v, stats := {} } := by
  have same : Machine.fresh { config with useCaches := v } preludeNatives (m.withSide t).world =
      (Machine.fresh { config with useCaches := u } preludeNatives m.world).withSide
        { t with useCaches := v, stats := {} } :=
    foldl_withNative_withSide preludeNatives
      { config := { config with useCaches := u }, world := m.world } { t with useCaches := v, stats := {} }
  obtain ⟨evolves, log⟩ := evolves_foldl_withNative preludeNatives
    { config := { config with useCaches := u }, world := m.world }
  obtain ⟨evolves', -⟩ := evolves_foldl_withNative preludeNatives
    { config := { config with useCaches := v }, world := (m.withSide t).world }
  refine ⟨same, evolves.regular h.regular, evolves.methodCachesRight h.methods, ?_, ?_⟩
  · rw [← same]
    exact evolves'.methodCachesRight h.others
  · rw [Machine.fresh_eq, log]
    exact h.log

/-! ## Commands -/

/-- The two sessions give the same answer and differ only in their sides afterwards. -/
def SameStep (r r' : Answer × Session) : Prop :=
  ∃ t', r'.1.visible = r.1.visible ∧ r'.2 = r.2.withSide t' ∧ SidesAgree r.2.machine t'

/-- Two runs that go alike end with the same answer. -/
theorem sameStep_conclude (h : SidesAgree s.machine t) (a : Activity) {t₁ : Side}
    (ha : SidesAgree a.machine t₁) (fuel : Nat) :
    SameStep (s.conclude (a.run fuel)) ((s.withSide t).conclude ((a.withSide t₁).run fuel)) := by
  rcases Activity.run_alike sidesAgree_congruence fuel a ha with ⟨none₁, none₂⟩ | ⟨o, m, t', run₁, run₂, hm⟩
  · rw [none₁, none₂]
    exact ⟨t, rfl, rfl, h⟩
  · rw [run₁, run₂]
    refine ⟨t', ?_, ?_, ?_⟩ <;> cases o <;> first | rfl | exact hm

theorem sameStep_runScript (h : SidesAgree s.machine t) (p : Proto) :
    SameStep (s.runScript p) ((s.withSide t).runScript p) := by
  obtain ⟨t', start, h'⟩ := Machine.alike_startScript sidesAgree_congruence h p
  have same : (s.withSide t).runScript p = (s.withSide t).conclude (((s.machine.withSide t).startScript p).run s.fuel) :=
    rfl
  rw [same, start]
  exact sameStep_conclude h _ h' s.fuel

theorem sameStep_callValue (h : SidesAgree s.machine t) (callee : Value) (args : List Value) :
    SameStep (s.conclude (Machine.callValue s.fuel s.machine callee args))
      ((s.withSide t).conclude (Machine.callValue s.fuel (s.machine.withSide t) callee args)) :=
  sameStep_conclude h (s.machine.startCall callee args) h s.fuel

theorem sameStep_callGlobal (h : SidesAgree s.machine t) (name : Text) (args : List Value) :
    SameStep (s.conclude (Machine.callGlobal s.fuel s.machine name args))
      ((s.withSide t).conclude (Machine.callGlobal s.fuel (s.machine.withSide t) name args)) := by
  unfold Machine.callGlobal
  have globals : (s.machine.withSide t).globals = s.machine.globals := rfl
  rw [globals]
  cases s.machine.globals.get? name with
  | some callee => exact sameStep_callValue h callee args
  | none =>
    refine ⟨t, rfl, rfl, ?_⟩
    exact sidesAgree_worldCongruence.control (m := s.machine) rfl rfl rfl h

/-- A host may record whatever offset it likes. -/
theorem sidesAgree_recordProperty {m : Machine} (h : SidesAgree m t) (site : Site) (k : CacheKey)
    (offset : Nat) :
    ∃ t', { m.withSide t with world := ((m.withSide t).world.recordProperty site k offset).2 } =
        Machine.withSide { m with world := (m.world.recordProperty site k offset).2 } t' ∧
      SidesAgree { m with world := (m.world.recordProperty site k offset).2 } t' := by
  have evolves := evolves_recordProperty m.world site k offset
  have evolves' := evolves_recordProperty (m.withSide t).world site k offset
  obtain ⟨l, agree, own⟩ : ∃ l, Agree m.world.log l ∧ (m.world.recordProperty site k offset).2 = _ :=
    recorded h.log.capturing _ _ site k
  obtain ⟨l', agree', other⟩ :
      ∃ l', Agree t.log l' ∧ ((m.withSide t).world.recordProperty site k offset).2 = _ :=
    recorded (w := (m.withSide t).world) h.log.capturing_right _ _ site k
  rw [own] at evolves
  rw [other] at evolves'
  rw [own, other]
  refine ⟨{ t with caches := _, log := l' }, rfl, ?_⟩
  exact ⟨evolves.regular h.regular, evolves.methodCachesRight h.methods, evolves'.methodCachesRight h.others,
    agree.symm.trans (h.log.trans agree')⟩

/-- An entry that a host records is on the side of the caches, whatever it says. -/
theorem sameStep_recordProperty (h : SidesAgree s.machine t) (site : Site) (name : Text) (shape : ShapeId)
    (offset : Nat) :
    SameStep (s.dispatch (.recordProperty site name shape offset))
      ((s.withSide t).dispatch (.recordProperty site name shape offset)) := by
  obtain ⟨t₁, symbol, machine, h₁⟩ :=
    Machine.alike_world sidesAgree_worldCongruence h (blind_intern s.machine.world name)
  obtain ⟨t', recorded, h'⟩ :=
    sidesAgree_recordProperty h₁ site ⟨(s.machine.world.intern name).1, shape⟩ offset
  refine ⟨t', rfl, ?_, h'⟩
  rw [← machine] at recorded
  have symbol : ((s.withSide t).machine.world.intern name).1 = (s.machine.world.intern name).1 := symbol
  simp only [dispatch, symbol]
  exact congrArg (fun machine => ({ s with machine } : Session)) recorded

/-- A host builds the same class on both sides. -/
theorem sameStep_buildClass (h : SidesAgree s.machine t) (plan : ClassPlan) :
    SameStep (.done, s.buildClass plan) (.done, (s.withSide t).buildClass plan) := by
  obtain ⟨t', value, machine, h'⟩ :=
    Machine.alike_world sidesAgree_worldCongruence h (s.blind_buildIn plan s.machine.world)
  refine ⟨t', rfl, ?_, ?_⟩
  · have built := congrArg
      (fun m : Machine => ({ s with
        machine := { m with
          globals := m.globals.insert plan.global (.cls (s.buildIn plan s.machine.world).1) } } : Session))
      machine
    have value : ((s.withSide t).buildIn plan (s.withSide t).machine.world).1 =
        (s.buildIn plan s.machine.world).1 := value
    simp only
    rw [buildClass_eq, buildClass_eq, value]
    exact built
  · rw [buildClass_eq]
    exact sidesAgree_worldCongruence.control
      (m := { s.machine with world := (s.buildIn plan s.machine.world).2 }) rfl rfl rfl h'

/-- Every command but the recording of a method is answered alike, with caches or without. -/
theorem sameStep_dispatch (h : SidesAgree s.machine t) (c : Command) (host : c.recordsMethod = false)
    (u v : Bool) : SameStep (s.dispatch (c.withCaches u)) ((s.withSide t).dispatch (c.withCaches v)) := by
  have hR := sidesAgree_worldCongruence
  cases c with
  | interpret script keepAs =>
    have h' : SidesAgree
        { s.machine with
          world := { s.machine.world with
            nextProto := (Blueprint.build s.machine.world.nextProto script).2 } } t :=
      ⟨(Change.nextProto s.machine.world _).regular h.regular, h.methods.congr rfl rfl rfl,
        h.others.congr rfl rfl rfl, h.log⟩
    exact sameStep_runScript (s := { s with kept := _, machine := _ }) h' _
  | interpretKept name =>
    have kept : (s.withSide t).kept = s.kept := rfl
    simp only [dispatch, Command.withCaches, kept]
    cases s.kept.get? name with
    | some p => exact sameStep_runScript h p
    | none => exact ⟨t, rfl, rfl, h⟩
  | callGlobal name args =>
    obtain ⟨t', same, h'⟩ := alike_realise h args
    simp only [dispatch, Command.withCaches]
    rw [same]
    exact sameStep_callGlobal h' name _
  | callValue callee args =>
    obtain ⟨t', same, h'⟩ := alike_realise h (callee :: args)
    simp only [dispatch, Command.withCaches]
    rw [same]
    exact sameStep_callValue h' _ _
  | callMany callee count arg =>
    obtain ⟨t', same, h'⟩ := alike_realise h [callee, arg]
    simp only [dispatch, Command.withCaches]
    rw [same]
    exact sameStep_callValue h' _ _
  | setGlobal name value =>
    obtain ⟨t', same, h'⟩ := alike_realise h [value]
    simp only [dispatch, Command.withCaches]
    rw [same]
    exact ⟨t', rfl, rfl, hR.control (m := (s.realise [value]).2.machine) rfl rfl rfl h'⟩
  | getGlobal name =>
    have globals : (s.withSide t).machine.globals = s.machine.globals := rfl
    simp only [dispatch, Command.withCaches, globals]
    cases s.machine.globals.get? name with
    | some v => exact ⟨t, rfl, rfl, h⟩
    | none => exact ⟨t, rfl, rfl, h⟩
  | reset => exact ⟨t, rfl, rfl, hR.control (m := s.machine) rfl rfl rfl h⟩
  | clearOutput => exact ⟨t, rfl, rfl, hR.control (m := s.machine) rfl rfl rfl h⟩
  | clearDiagnostics => exact ⟨t, rfl, rfl, hR.control (m := s.machine) rfl rfl rfl h⟩
  | newMachine config =>
    obtain ⟨same, h'⟩ := sidesAgree_fresh h config u v
    exact ⟨_, rfl, congrArg (fun machine => { s with machine }) same, h'⟩
  | state => exact ⟨t, rfl, rfl, h⟩
  | recordProperty site name shape offset => exact sameStep_recordProperty h site name shape offset
  | recordMethod site name table owner method => cases host
  | buildClass plan => exact sameStep_buildClass h plan

/-! ## Steps of a session -/

/-- Logs agree but for trace records. -/
theorem SidesAgree.visible_log {m : Machine} (h : SidesAgree m t) : t.log.visible = m.world.log.visible := by
  unfold Logging.visible
  rw [h.log.captured, h.log.rest]
  rfl

/-- What a reply shows of a machine is not on its side. -/
theorem visible_withSide {m : Machine} (h : SidesAgree m t) : (m.withSide t).visible = m.visible := by
  have log : (m.withSide t).world.log.visible = m.world.log.visible := SidesAgree.visible_log h
  unfold Machine.visible
  rw [log]
  rfl

theorem sidesAgree_withoutStreams (h : SidesAgree s.machine t) :
    SidesAgree s.withoutStreams.machine { t with log := { t.log with streams := {} } } :=
  ⟨⟨h.regular.symbols, h.regular.shapes, h.regular.rows, h.regular.tables, h.regular.distinct⟩,
    h.methods.congr rfl rfl rfl, h.others.congr rfl rfl rfl, h.log.cleared⟩

/-- The reply that a session gives from the state of its machine. -/
def replyOf (lines errors : Nat) (answer : Answer) (m : Machine) : Reply :=
  { answer
    output := m.output.toList.drop lines
    frameDepth := m.frames.length
    stackDepth := m.stack.size
    lastUnwind := m.lastUnwind
    stats := m.stats
    diagnostics := m.diagnostics.toList.drop errors
    echoed := m.world.log.streams.outText
    echoes := m.config.echoPrint
    log := m.world.log.streams.captured.toList }

theorem perform_eq (s : Session) (c : Command) :
    s.perform c =
      (replyOf s.machine.output.size s.machine.diagnostics.size (s.withoutStreams.dispatch c).1
          (s.withoutStreams.dispatch c).2.machine,
        (s.withoutStreams.dispatch c).2) := rfl

/-- Replies show the same. -/
theorem visible_replyOf {m : Machine} (h : SidesAgree m t) (lines errors : Nat) {a a' : Answer}
    (answer : a'.visible = a.visible) :
    (replyOf lines errors a' (m.withSide t)).visible = (replyOf lines errors a m).visible := by
  have echoed : t.log.streams.outText = m.world.log.streams.outText := by
    rw [h.log.rest]
    rfl
  have log : Captured.notable t.log.streams.captured.toList =
      Captured.notable m.world.log.streams.captured.toList := h.log.captured
  unfold Reply.visible replyOf
  simp only [answer]
  congr 1

/-- One step of two sessions that differ in their sides. -/
theorem perform_alike (h : SidesAgree s.machine t) {c : Command} (host : c.recordsMethod = false)
    (u v : Bool) :
    ∃ t', ((s.withSide t).perform (c.withCaches v)).1.visible = (s.perform (c.withCaches u)).1.visible ∧
      ((s.withSide t).perform (c.withCaches v)).2 = (s.perform (c.withCaches u)).2.withSide t' ∧
      SidesAgree (s.perform (c.withCaches u)).2.machine t' := by
  obtain ⟨t', answer, session, h'⟩ := sameStep_dispatch (sidesAgree_withoutStreams h) c host u v
  refine ⟨t', ?_, session, h'⟩
  rw [perform_eq, perform_eq]
  have same : (s.withSide t).withoutStreams =
      s.withoutStreams.withSide { t with log := { t.log with streams := {} } } := rfl
  rw [same, session]
  exact visible_replyOf h' _ _ answer

/-- What is to be seen of a step: its reply and the session after it. -/
def seen (r : Reply × Session) : Reply × Session := (r.1.visible, r.2.visible)

/-- Whole histories are alike, by induction on the commands. -/
theorem history_alike (h : SidesAgree s.machine t) (u v : Bool) {cs : List Command}
    (host : ∀ c ∈ cs, c.recordsMethod = false) :
    ((s.withSide t).history (cs.map (Command.withCaches v))).map seen =
      (s.history (cs.map (Command.withCaches u))).map seen := by
  induction cs generalizing s t with
  | nil => rfl
  | cons c rest ih =>
    obtain ⟨t', reply, session, h'⟩ := perform_alike h (host c List.mem_cons_self) u v
    simp only [List.map_cons, history]
    rw [session, ih h' fun c hc => host c (List.mem_cons_of_mem _ hc)]
    have head : seen ((s.withSide t).perform (c.withCaches v)) = seen (s.perform (c.withCaches u)) := by
      unfold seen
      rw [reply, session]
      exact congrArg (Prod.mk _) (congrArg
        (fun machine => ({ (s.perform (c.withCaches u)).2 with machine } : Session)) (visible_withSide h'))
    rw [head]

/-- The sessions that a host can get to. -/
inductive Reachable : Session → Prop where
  | start (config : Config) (level : Level) (fuel : Nat) : Reachable (Session.start config level fuel)
  | perform {s : Session} (h : Reachable s) (c : Command) : Reachable (s.perform c).2

/-- A law of the world that is kept by everything that programs and hosts do, methods recorded from
outside apart. -/
structure Law (P : World → Prop) : Prop where
  change : ∀ {w w' : World}, Change w w' → P w → P w'
  cells : ∀ {w : World} (cells : Pool .cell Cell), P w → P { w with heap := { w.heap with cells } }
  cleared : ∀ {w : World}, P w → P { w with log := { w.log with streams := {} } }

namespace Law

variable {P : World → Prop} (law : Law P)
include law

/-- A law holds however the world evolves. -/
theorem evolves {w w' : World} (e : Evolves w w') (h : P w) : P w' := Activity.law_of_evolves law.change e h

theorem step {a : Activity} (h : P a.machine.world) : P a.step.machine.world := by
  obtain ⟨t', -, -, kept⟩ := Activity.step_alike (Activity.congruence_of_law law.change law.cells) a
    (s := a.machine.side) ⟨rfl, h⟩
  exact kept

/-- A law holds after a run. -/
theorem conclude {a : Activity} {fuel : Nat} (h : P s.machine.world) (ha : P a.machine.world) :
    P (s.conclude (a.run fuel)).2.machine.world := by
  unfold Session.conclude
  split
  · exact h
  next o m run =>
    have kept := Activity.run_law law.change law.cells run ha
    cases o <;> exact kept

theorem runScript (h : P s.machine.world) (p : Proto) : P (s.runScript p).2.machine.world :=
  law.conclude (a := s.machine.startScript p) h (Activity.startScript_law law.change law.cells p h)

theorem callValue (h : P s.machine.world) (callee : Value) (args : List Value) :
    P (s.conclude (Machine.callValue s.fuel s.machine callee args)).2.machine.world :=
  law.conclude (a := s.machine.startCall callee args) h h

theorem callGlobal (h : P s.machine.world) (name : Text) (args : List Value) :
    P (s.conclude (Machine.callGlobal s.fuel s.machine name args)).2.machine.world := by
  unfold Machine.callGlobal
  split
  · exact law.callValue h _ args
  · exact h

theorem realise (h : P s.machine.world) (ls : List Literal) : P (s.realise ls).2.machine.world :=
  law.evolves (blind_realiseAll s.scope ls s.machine.world).evolves h

/-- A law holds after every command but the recording of a method. -/
theorem dispatch (h : P s.machine.world) {c : Command} (host : c.recordsMethod = false) :
    P (s.dispatch c).2.machine.world := by
  cases c with
  | interpret script keepAs =>
    have numbered := law.change (Change.nextProto s.machine.world
      (Blueprint.build s.machine.world.nextProto script).2) h
    exact law.runScript (s := { s with kept := _, machine := _ }) numbered _
  | interpretKept name =>
    simp only [Session.dispatch]
    cases s.kept.get? name with
    | some p => exact law.runScript h p
    | none => exact h
  | callGlobal name args => exact law.callGlobal (law.realise h args) name _
  | callValue callee args => exact law.callValue (law.realise h (callee :: args)) _ _
  | callMany callee count arg => exact law.callValue (law.realise h [callee, arg]) _ _
  | setGlobal name value => exact law.realise h [value]
  | getGlobal name =>
    simp only [Session.dispatch]
    cases s.machine.globals.get? name with
    | some v => exact h
    | none => exact h
  | reset => exact h
  | clearOutput => exact h
  | clearDiagnostics => exact h
  | newMachine config => exact law.evolves (evolves_foldl_withNative preludeNatives _).1 h
  | state => exact h
  | recordProperty site name shape offset =>
    have interned := law.evolves (blind_intern s.machine.world name).evolves h
    exact law.evolves (evolves_recordProperty _ site _ offset) interned
  | recordMethod => cases host
  | buildClass plan =>
    show P (s.buildClass plan).machine.world
    rw [buildClass_eq]
    exact law.evolves (s.blind_buildIn plan s.machine.world).evolves h

theorem perform (h : P s.machine.world) {c : Command} (host : c.recordsMethod = false) :
    P (s.perform c).2.machine.world :=
  law.dispatch (s := s.withoutStreams) (law.cleared h) host

/-- A law that says nothing about the caches is kept whatever is recorded about a method, right or wrong. -/
theorem recordMethod (recorded : ∀ {w : World} (caches : CacheRegistry), P w → P { w with caches }) {w : World}
    (h : P w) (site : Site) (k : CacheKey) (found : FoundMethod) : P (w.recordMethod site k found).2 := by
  unfold World.recordMethod
  simp only
  split
  · exact recorded _ h
  · exact law.evolves (evolves_noteRefused _ site k) (recorded _ h)

/-- A law that says nothing about the caches is kept by every command. -/
theorem performed (recorded : ∀ {w : World} (caches : CacheRegistry), P w → P { w with caches })
    (h : P s.machine.world) (c : Command) : P (s.perform c).2.machine.world := by
  cases c with
  | recordMethod site name table owner method =>
    have realised := law.realise (s := s.withoutStreams) (law.cleared h) [method]
    exact law.recordMethod recorded (law.evolves (blind_intern _ name).evolves realised) site _ _
  | _ => exact law.perform h rfl

/-- A law that says nothing about the caches holds in every session that a host can get to. -/
theorem reachable (recorded : ∀ {w : World} (caches : CacheRegistry), P w → P { w with caches })
    (initial : ∀ {log : Logging}, log.Capturing → P { log }) (reachable : s.Reachable) : P s.machine.world := by
  induction reachable with
  | start config level fuel => exact law.evolves (evolves_foldl_withNative preludeNatives _).1 (initial ⟨rfl, rfl⟩)
  | perform _ c ih => exact law.performed recorded ih c

end Law

/-- What every world of a session keeps. -/
def Settled (w : World) : Prop := w.Regular ∧ w.log.Capturing

/-- That method caches are right and shapes are laid out is a law. -/
theorem law_settled : Law Settled where
  change c h := ⟨c.regular h.1, c.capturing h.2⟩
  cells _ h := ⟨⟨h.1.symbols, h.1.shapes, h.1.rows, h.1.tables, h.1.distinct⟩, h.2⟩
  cleared h :=
    ⟨⟨h.1.symbols, h.1.shapes, h.1.rows, h.1.tables, h.1.distinct⟩, ⟨h.2.started, h.2.sinks⟩⟩

theorem Reachable.settled (reachable : s.Reachable) : Settled s.machine.world :=
  law_settled.reachable
    (fun _ h => ⟨⟨h.1.symbols, h.1.shapes, h.1.rows, h.1.tables, h.1.distinct⟩, h.2⟩)
    (fun capturing => ⟨regular_initial _, capturing⟩) reachable

/-- Whether inline caches are in use cannot be seen. Take any session that a host can get to in
which the method caches hold what the classes say, and let it go on with any commands that record
no methods from outside, once with caches and once without: the replies and the sessions after
every command are the same but for statistics, cache registry and trace records. -/
theorem caches_invisible (reachable : s.Reachable) (right : s.machine.world.MethodCachesRight)
    (cs : List Command) (host : ∀ c ∈ cs, c.recordsMethod = false) :
    ((s.withCaches true).history (cs.map (Command.withCaches true))).map seen =
      ((s.withCaches false).history (cs.map (Command.withCaches false))).map seen := by
  obtain ⟨regular, capturing⟩ := reachable.settled
  have agree : SidesAgree (s.withCaches true).machine (s.withCaches false).machine.side :=
    ⟨regular, right, right, capturing.agree⟩
  exact (history_alike agree true false host).symm

/-- A class `Point` with a field `x`, a wrong offset recorded for it at the site of the script, and
the script `Point.new().x`. -/
def misledSession : List Command :=
  [.buildClass { global := "Point", name := "Point", fields := [("x", .int 5, false)] },
    .recordProperty (Site.of 1 2) "x" 1 7,
    .interpret (.function "main" 0 0 [] [] [.plain (.text "Point"), .plain (.text "x")]
      [({ op := .getGlobal, a := 0 }, 1), ({ op := .new, a := 0 }, 1), ({ op := .getProperty, a := 1 }, 1),
        ({ op := .ret }, 1)]) none]

theorem caches_invisible_misledSession :
    (Session.start {} .info 100).machine.world.MethodCachesRight ∧
      (((Session.start {} .info 100).withCaches true).history
          (misledSession.map (Command.withCaches true))).map seen =
        (((Session.start {} .info 100).withCaches false).history
          (misledSession.map (Command.withCaches false))).map seen := by
  have right : (Session.start {} .info 100).machine.world.MethodCachesRight :=
    (evolves_foldl_withNative preludeNatives _).1.methodCachesRight (fun _ _ _ _ h => nomatch h)
  refine ⟨right, caches_invisible (.start {} .info 100) right misledSession ?_⟩
  intro c hc
  simp only [misledSession, List.mem_cons, List.not_mem_nil, or_false] at hc
  rcases hc with rfl | rfl | rfl <;> rfl

end Session

end ScriptVm
