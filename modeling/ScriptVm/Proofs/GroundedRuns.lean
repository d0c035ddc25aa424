import ScriptVm.Proofs.GroundedInstructions
import ScriptVm.Proofs.MirroredSessions

/-!
# Runs and sessions that stay grounded

From instructions to moves, and from moves to the commands of a host. A host names classes by globals
and literals, so what it passes to a machine or to a new class refers to classes that there are.

`Session.Grounded.perform` and `Activity.Grounded.step` are the main results.
-/

set_option autoImplicit false

namespace ScriptVm

open Referring Machine Exec

instance : Referring Control where
  Below n
    | .execute => True
    | .invoke callee args => Below n (callee :: args)
    | .deliver v => Below n v
    | _ => True
  mono {n k c} le h := by
    cases c with
    | invoke callee args => exact mono le (show Below n (callee :: args) from h)
    | deliver v => exact mono le (show Below n v from h)
    | _ => trivial

/-- All references to classes of a machine at work lead to classes. -/
structure Activity.Grounded (a : Activity) : Prop where
  machine : a.machine.Grounded
  control : Below a.machine.classCount a.control

/-- A move leaves everything grounded. -/
def Move.Grounded : Move → Prop
  | .continue a => a.Grounded
  | .done _ m => m.Grounded

/-! ## Moves -/

namespace Exec.Lands

variable {α : Type} [Referring α] {x : Exec α} {m m' : Machine}

/-- What a grounded operation gives, and the machine that it leaves. -/
theorem ok (h : Lands x m) {a : α} (run : x.run m = .ok a m') :
    m'.Grounded ∧ m.classCount ≤ m'.classCount ∧ Below m'.classCount a := by
  have after : x.after m = m' := after_of_ok run
  exact ⟨after ▸ h.grounded, after ▸ h.more, h.result a m' run⟩

/-- An operation that fails leaves the machine grounded too. -/
theorem error (h : Lands x m) {f : Fault} (run : x.run m = .error f m') :
    m'.Grounded ∧ m.classCount ≤ m'.classCount := by
  have after : x.after m = m' := after_of_error run
  exact ⟨after ▸ h.grounded, after ▸ h.more⟩

end Exec.Lands

namespace Activity

variable {m : Machine} {pending : List Pending}

/-- A fault leaves the machine grounded. -/
theorem grounded_onFault (h : m.Grounded) (f : Fault) (pending : List Pending) :
    (onFault f m pending).Grounded := by
  cases f with
  | error e => exact ⟨h, trivial⟩
  | missingConstant => exact { h with }

/-- A native function passes on what it was given. -/
theorem grounded_reenter (h : m.Grounded) {r : Reentry} (hr : Below m.classCount r) (pending : List Pending)
    (byEntry : Bool) : (reenter m pending r byEntry).Grounded := by
  cases r with
  | call => exact ⟨h, hr⟩
  | own => exact ⟨h, trivial⟩

/-- An instruction keeps the machine grounded. -/
theorem grounded_stepExecute (h : m.Grounded) (pending : List Pending) : (stepExecute m pending).Grounded := by
  have lands : Lands (fetch >>= execute) m :=
    ((grounds_fetch (n := 0)).andThen fun i => grounds_execute i) m h (Nat.zero_le _)
  unfold stepExecute
  cases run : (fetch >>= execute).run m with
  | ok p m' =>
    obtain ⟨grounded, -, result⟩ := lands.ok run
    cases p with
    | next => exact ⟨grounded, trivial⟩
    | returned v => exact ⟨grounded, result⟩
    | reenter r => exact grounded_reenter grounded result pending _
  | error f m' => exact grounded_onFault (lands.error run).1 f pending

/-- Callee and arguments are put on the stack. -/
theorem grounds_beginCall {n : Nat} {callee : Value} {args : List Value} (h : Below n (callee :: args)) :
    Grounds n (beginCall callee args) := by
  unfold beginCall
  split
  · exact grounds_fail _
  · refine Grounds.andThen (α := Unit) (grounds_restack (g := fun st => st.push callee ++ args.toArray)
      fun k _ le hs => ?_) fun _ => grounds_call _
    have given : Below k (callee :: args) := mono le h
    exact below_joined (below_push hs (given callee List.mem_cons_self)) fun a ha =>
      given a (List.mem_cons_of_mem _ ha)

/-- Beginning a call keeps the machine grounded, if callee and arguments are. -/
theorem grounded_stepInvoke (h : m.Grounded) (pending : List Pending) {callee : Value} {args : List Value}
    (given : Below m.classCount (callee :: args)) : (stepInvoke m pending callee args).Grounded := by
  have lands : Lands (beginCall callee args) m := grounds_beginCall given m h (Nat.le_refl _)
  unfold stepInvoke
  cases run : (beginCall callee args).run m with
  | ok request m' =>
    obtain ⟨grounded, -, result⟩ := lands.ok run
    cases request with
    | none =>
      simp only
      split
      · exact ⟨{ grounded with }, trivial⟩
      · exact ⟨{ grounded with stack := below_pop grounded.stack }, below_last (b := Value.null) grounded.stack trivial⟩
    | some r => exact grounded_reenter grounded (result r rfl) pending _
  | error f m' => exact grounded_onFault (lands.error run).1 f pending

theorem grounded_complete (h : m.Grounded) (pending : List Pending) (byEntry : Bool) {v : Value}
    (hv : Below m.classCount v) : (complete m pending byEntry v).Grounded := by
  cases byEntry with
  | true => exact ⟨h, hv⟩
  | false => exact ⟨{ h with stack := below_push h.stack hv }, trivial⟩

/-- The result of an entry goes to the native function or onto the stack. -/
theorem grounded_resume (h : m.Grounded) (pending : List Pending) (caller : Caller) {v : Value}
    (hv : Below m.classCount v) : (resume m pending caller v).Grounded := by
  cases caller with
  | instruction c => exact grounded_complete h pending false hv
  | own => exact ⟨h, trivial⟩
  | _ => exact grounded_complete h pending true hv

/-- Handing a result over keeps the machine grounded. -/
theorem grounded_stepDeliver (h : m.Grounded) (pending : List Pending) {v : Value} (hv : Below m.classCount v) :
    (stepDeliver m pending v).Grounded := by
  cases pending with
  | nil => exact h
  | cons p rest =>
    have kept : Machine.Grounded { m with runBase := p.runBase } := { h with }
    unfold stepDeliver
    simp only
    split
    · exact { h with stack := below_nil }
    · exact kept
    · exact grounded_resume kept rest _ hv
    · exact grounded_resume kept rest _ hv
    · exact grounded_resume kept rest _ hv

theorem grounded_recordError (h : m.Grounded) (e : RuntimeError) : (m.recordError e).Grounded := { h with }

/-- Going back to the depths of an entry adds no reference. -/
theorem grounded_unwindTo (h : m.Grounded) (d : Depths) : (m.unwindTo d).Grounded := by
  have count : (m.unwindTo d).classCount = m.classCount := congrArg Pool.size (classes_unwindTo m d)
  unfold Machine.Grounded
  rw [count]
  exact below_unwindTo h d

/-- What a native function makes of an error refers to no class. -/
theorem grounded_stepCallbackError (h : m.Grounded) (pending : List Pending) (p : Pending) (c : Callback)
    (e : RuntimeError) : (stepCallbackError m pending p c e).Grounded := by
  have lands : Lands (callbackError c e) ((m.recordError e).unwindTo p.depths) :=
    grounds_callbackError c e _ (grounded_unwindTo (grounded_recordError h e) p.depths) (Nat.le_refl _)
  unfold stepCallbackError
  cases run : (callbackError c e).run ((m.recordError e).unwindTo p.depths) with
  | ok v m' => exact grounded_resume (lands.ok run).1 pending _ (lands.ok run).2.2
  | error f m' => exact grounded_onFault (lands.error run).1 f pending

theorem grounded_reset (h : m.Grounded) : m.reset.Grounded := { h with stack := below_nil, iterations := below_nil }

/-- Handing an error over keeps the machine grounded. -/
theorem grounded_stepRaise (h : m.Grounded) (pending : List Pending) (e : RuntimeError) :
    (stepRaise m pending e).Grounded := by
  cases pending with
  | nil => exact h
  | cons p rest =>
    have kept : Machine.Grounded { m with runBase := p.runBase } := { h with }
    unfold stepRaise
    simp only
    split
    · exact grounded_reset (grounded_recordError kept e)
    · exact grounded_unwindTo (grounded_recordError kept e) p.depths
    · exact grounded_stepCallbackError kept rest p _ e
    · exact grounded_stepCallbackError kept rest p _ e
    · exact ⟨grounded_unwindTo (grounded_recordError kept e) p.depths, trivial⟩

/-- A move of a grounded machine leaves it grounded. -/
theorem Grounded.step {a : Activity} (h : a.Grounded) : a.step.Grounded := by
  obtain ⟨m, pending, control⟩ := a
  obtain ⟨machine, given⟩ := h
  cases control with
  | execute => exact grounded_stepExecute machine pending
  | invoke callee args => exact grounded_stepInvoke machine pending given
  | ask byEntry c => exact grounded_complete machine pending byEntry (v := .null) trivial
  | deliver v => exact grounded_stepDeliver machine pending given
  | raise e => exact grounded_stepRaise machine pending e

/-- A run leaves a grounded machine. -/
theorem Grounded.run {a : Activity} (h : a.Grounded) {fuel : Nat} {o : Outcome} {m : Machine}
    (run : a.run fuel = some (o, m)) : m.Grounded := by
  induction fuel generalizing a with
  | zero => cases run
  | succ fuel ih =>
    have moved := h.step
    unfold Activity.run at run
    cases step : a.step with
    | «continue» b =>
      rw [step] at run moved
      exact ih moved run
    | done o' m' =>
      rw [step] at run moved
      cases run
      exact moved

/-- A host may call what refers to existing classes. -/
theorem grounded_startCall (h : m.Grounded) {callee : Value} {args : List Value}
    (given : Below m.classCount (callee :: args)) : (m.startCall callee args).Grounded := ⟨h, given⟩

end Activity

/-- An operation of the world keeps the machine grounded. -/
theorem Machine.Grounded.onWorld {α : Type} [Referring α] {m : Machine} (h : m.Grounded) {f : World → α × World}
    (grounds : World.Grounds m.classCount f) :
    Machine.Grounded { m with world := (f m.world).2 } ∧ m.classCount ≤ (f m.world).2.classCount ∧
      Below (f m.world).2.classCount (f m.world).1 :=
  (grounds_withWorld grounds m h (Nat.le_refl _)).ok rfl

/-- A script begins with its own closure, which refers to no class. -/
theorem Activity.grounded_startScript {m : Machine} (h : m.Grounded) (p : Proto) : (m.startScript p).Grounded := by
  have start : Machine.Grounded { m.reset with lastUnwind := none } := { Activity.grounded_reset h with }
  obtain ⟨made, -, -⟩ := start.onWorld (World.grounds_newClosure p)
  have ready : Machine.Grounded { m.reset with
      lastUnwind := none, stack := #[.closure (m.world.newClosure p).1], world := (m.world.newClosure p).2 } :=
    { made with stack := below_cons (a := Value.closure (m.world.newClosure p).1) trivial below_nil }
  have lands := grounds_pushFrame { closure := (m.world.newClosure p).1 } _ ready (Nat.le_refl _)
  unfold Machine.startScript
  simp only
  split
  next run => exact ⟨(lands.ok run).1, trivial⟩
  next run => exact ⟨(lands.error run).1, trivial⟩
  next run => exact ⟨(lands.error run).1, trivial⟩

/-! ## Building classes -/

namespace Session

open World

variable {s : Session} {n : Nat}

/-- A class that a host names is the value of a global. -/
theorem below_globalClass? (h : Below n s.machine.globals) {name : Text} {r : Ref .cls}
    (found : s.globalClass? name = some r) : Below n r := by
  have value : Below n (s.globalValue name) := below_optionGetD (fun v known => h name v known) trivial
  unfold globalClass? at found
  cases known : s.globalValue name with
  | cls c =>
    rw [known] at found value
    cases found
    exact value
  | _ =>
    rw [known] at found
    cases found

theorem below_scope (h : Below n s.machine.globals) : Below n s.scope := ⟨h, below_nil⟩

/-- The fields of a new class have values that the host makes. -/
theorem grounds_draftFields {scope : Literal.Scope} (h : Below n scope) (fields : List (Text × Literal × Bool))
    {draft : Class} (hd : Below n draft) : Grounds n (draftFields scope fields draft) := by
  induction fields generalizing draft n with
  | nil => exact grounds_pure hd
  | cons f rest ih =>
    obtain ⟨name, initial, isConst⟩ := f
    refine (grounds_realise h initial).bind
      (g := fun v w => draftFields scope rest (w.draftField draft name v isConst).1
        (w.draftField draft name v isConst).2) fun k v le hv => ?_
    exact (grounds_draftField (mono le hd) name hv isConst).bind (g := fun draft => draftFields scope rest draft)
      fun _ _ le' hd' => ih (mono (Nat.le_trans le le') h) hd'

/-- Static fields have values that the host makes. -/
theorem grounds_declareStatics {scope : Literal.Scope} (h : Below n scope) (r : Ref .cls)
    (statics : List (Text × Literal × Bool)) : Grounds n (declareStatics scope r statics) := by
  induction statics generalizing n with
  | nil => exact grounds_pure trivial
  | cons f rest ih =>
    obtain ⟨name, initial, isConst⟩ := f
    refine (grounds_realise h initial).bind
      (g := fun v w => declareStatics scope r rest { w with heap := w.heap.defineStatic r name v isConst })
      fun k v le hv => ?_
    exact (grounds_defineStatic r name hv isConst).bind (g := fun _ => declareStatics scope r rest)
      fun _ _ le' _ => ih (mono (Nat.le_trans le le') h)

theorem grounds_draftIn (plan : ClassPlan) : Grounds n (s.draftIn plan) := by
  unfold draftIn
  split
  next r _ => exact grounds_of_classes (fun _ => rfl) fun _ _ _ hw => ⟨hw, hw.heap.classes r⟩
  next => exact grounds_draftClass _

theorem below_withSuper (h : Below n s.machine.globals) (plan : ClassPlan) {draft : Class} (hd : Class.Bounded n draft) :
    Class.Bounded n (s.withSuper plan draft) := by
  unfold withSuper
  split
  next r found =>
    obtain ⟨name, -, known⟩ := Option.bind_eq_some_iff.1 found
    exact ⟨below_some (below_globalClass? h known), hd.fields, hd.nested⟩
  next => exact hd

/-- A plan may name superclass, methods and nested classes, which are globals. -/
theorem below_furnish (h : Below n s.machine.globals) (plan : ClassPlan) {draft : Class} (hd : Class.Bounded n draft)
    (w : World) : Class.Bounded n (s.furnish plan draft w) := by
  have nested : ∀ (rs : List (Ref .cls)) (table : Assoc Text (Ref .cls)), Below n rs → Below n table →
      Below n (rs.foldl (fun table r => table.insert (w.heap.classes.get r).name r) table) := by
    intro rs
    induction rs with
    | nil => exact fun _ _ ht => ht
    | cons r rest ih =>
      exact fun table hr ht => ih _ (fun a ha => hr a (List.mem_cons_of_mem _ ha))
        (below_insert ht _ (hr r List.mem_cons_self))
  unfold furnish
  rw [withMethods_eq]
  refine ⟨hd.superclass, hd.fields, nested _ _ (fun r hr => ?_) hd.nested⟩
  obtain ⟨name, -, known⟩ := List.mem_filterMap.1 hr
  exact below_globalClass? h known

/-- A class that a host builds refers to existing classes. -/
theorem grounds_buildIn (h : Below n s.machine.globals) (plan : ClassPlan) : Grounds n (s.buildIn plan) := by
  refine (grounds_draftIn plan).bind
    (g := fun d w =>
      let f := draftFields s.scope plan.fields (s.withSuper plan d) w
      let c := f.2.publish (s.furnish plan f.1 f.2)
      (c.1, (declareStatics s.scope c.1 plan.statics c.2).2)) fun k draft le hd => ?_
  have h : Below k s.machine.globals := mono le h
  refine (grounds_draftFields (below_scope h) plan.fields (below_withSuper h plan hd)).bind
    (g := fun d w =>
      let c := w.publish (s.furnish plan d w)
      (c.1, (declareStatics s.scope c.1 plan.statics c.2).2)) fun k₁ draft₁ le₁ hd₁ => ?_
  have h₁ : Below k₁ s.machine.globals := mono le₁ h
  have published : Grounds k₁ fun w => w.publish (s.furnish plan draft₁ w) := fun w =>
    grounds_publish (below_furnish h₁ plan hd₁ w) w
  refine published.bind (g := fun r w => (r, (declareStatics s.scope r plan.statics w).2)) fun k₂ r le₂ hr => ?_
  exact (grounds_declareStatics (below_scope (mono le₂ h₁)) r plan.statics).bind (g := fun _ w => (r, w))
    fun _ _ le₃ _ => grounds_pure (mono le₃ hr)

/-! ## Commands -/

/-- All references to classes of a session lead to classes. -/
def Grounded (s : Session) : Prop := s.machine.Grounded

/-- Values that a host makes may bring new classes with them. -/
theorem grounded_realise (h : s.Grounded) (ls : List Literal) :
    (s.realise ls).2.Grounded ∧ s.machine.classCount ≤ (s.realise ls).2.machine.classCount ∧
      Below (s.realise ls).2.machine.classCount (s.realise ls).1 :=
  Machine.Grounded.onWorld h (grounds_realiseAll (below_scope h.globals) ls)

/-- A session is grounded after a run. -/
theorem grounded_conclude (h : s.Grounded) {a : Activity} (ha : a.Grounded) (fuel : Nat) :
    (s.conclude (a.run fuel)).2.Grounded := by
  unfold conclude
  split
  · exact h
  next o m answer => cases o <;> exact ha.run answer

theorem grounded_define (h : s.Grounded) (name : Text) {v : Value} (hv : Below s.machine.classCount v) :
    (s.define name v).Grounded := { h with globals := below_insert h.globals name hv }

/-- A new machine refers to native functions only. -/
theorem grounded_fresh (config : Config) (natives : List Native) {w : World} (h : w.Grounded) :
    (Machine.fresh config natives w).Grounded := by
  have added : ∀ (natives : List Native) (m : Machine), m.Grounded → (natives.foldl Machine.withNative m).Grounded := by
    intro natives
    induction natives with
    | nil => exact fun _ hm => hm
    | cons f rest ih =>
      intro m hm
      obtain ⟨made, -, value⟩ := hm.onWorld (grounds_allocNative f)
      exact ih _ { made with globals := below_insert made.globals f.name value }
  exact added natives { config, world := w } ⟨h, below_nil, below_nil, fun _ _ found => nomatch found⟩

theorem grounded_keeping (h : s.Grounded) (keepAs : Option Text) (built : Proto × Nat) :
    (s.keeping keepAs built).Grounded := { h with world := { h.world with } }

/-- The activity that a command sets going is grounded. -/
theorem Grounded.entry {c : Command} {a : Activity} (h : s.Grounded) (entry : s.entry? c = some a) : a.Grounded := by
  have realised := grounded_realise h
  cases c with
  | interpret script keepAs =>
    cases entry
    exact Activity.grounded_startScript (grounded_keeping h none _) _
  | interpretKept name =>
    obtain ⟨p, -, rfl⟩ := Option.map_eq_some_iff.1 entry
    exact Activity.grounded_startScript h p
  | callGlobal name args =>
    obtain ⟨callee, known, rfl⟩ := Option.map_eq_some_iff.1 entry
    obtain ⟨grounded, -, values⟩ := realised args
    exact Activity.grounded_startCall grounded (below_cons (grounded.globals name callee known) values)
  | callValue callee args =>
    cases entry
    obtain ⟨grounded, -, values⟩ := realised (callee :: args)
    exact Activity.grounded_startCall grounded
      (below_cons (below_headD values trivial) fun a ha => values a (List.mem_of_mem_tail ha))
  | callMany callee count arg =>
    cases entry
    obtain ⟨grounded, -, values⟩ := realised [callee, arg]
    exact Activity.grounded_startCall grounded
      (below_cons (below_headD values trivial) (below_replicate count (below_getD values 1 trivial)))
  | _ => cases entry

/-- Every command of a host keeps a session grounded. -/
theorem grounded_dispatch (h : s.Grounded) (c : Command) : (s.dispatch c).2.Grounded := by
  have realised := grounded_realise h
  cases c with
  | interpret script keepAs =>
    have kept := grounded_keeping h keepAs (script.build s.machine.world.nextProto)
    exact grounded_conclude kept (h.entry (c := .interpret script keepAs) rfl) _
  | interpretKept name =>
    simp only [dispatch]
    cases s.kept.get? name with
    | some p => exact grounded_conclude h (Activity.grounded_startScript h p) _
    | none => exact h
  | callGlobal name args =>
    obtain ⟨grounded, -, values⟩ := realised args
    simp only [dispatch, Machine.callGlobal]
    split
    next callee known =>
      exact grounded_conclude grounded
        (Activity.grounded_startCall grounded (below_cons (grounded.globals name callee known) values)) _
    next => exact { grounded with }
  | callValue callee args =>
    exact grounded_conclude (realised (callee :: args)).1 (h.entry (c := .callValue callee args) rfl) _
  | callMany callee count arg =>
    exact grounded_conclude (realised [callee, arg]).1 (h.entry (c := .callMany callee count arg) rfl) _
  | setGlobal name value =>
    obtain ⟨grounded, -, values⟩ := realised [value]
    exact grounded_define grounded name (below_headD (b := Value.null) values trivial)
  | getGlobal name =>
    simp only [dispatch]
    cases s.machine.globals.get? name <;> exact h
  | reset => exact Activity.grounded_reset h
  | clearOutput | clearDiagnostics => exact { h with }
  | newMachine config => exact grounded_fresh config preludeNatives h.world
  | state => exact h
  | recordProperty site name shape offset =>
    obtain ⟨interned, -, -⟩ := Machine.Grounded.onWorld h (grounds_intern name)
    exact (interned.onWorld (grounds_recordProperty site ⟨(s.machine.world.intern name).1, shape⟩ offset)).1
  | recordMethod site name table owner method =>
    obtain ⟨grounded, -, values⟩ := realised [method]
    obtain ⟨interned, more, -⟩ := grounded.onWorld (grounds_intern name)
    refine (interned.onWorld (grounds_recordMethod site
      ⟨((s.realise [method]).2.machine.world.intern name).1, table⟩
      (f := ⟨owner, (s.realise [method]).1.headD .null⟩) ?_)).1
    exact mono more (below_headD (b := Value.null) values trivial)
  | buildClass plan =>
    obtain ⟨built, -, cls⟩ := Machine.Grounded.onWorld h (grounds_buildIn h.globals plan)
    show (s.buildClass plan).Grounded
    rw [buildClass_eq]
    exact { built with globals := below_insert built.globals plan.global (v := .cls _) cls }

theorem Grounded.withoutStreams (h : s.Grounded) : s.withoutStreams.Grounded := { h with world := { h.world with } }

/-- A command of a host leaves a grounded session grounded. -/
theorem Grounded.perform (h : s.Grounded) (c : Command) : (s.perform c).2.Grounded :=
  grounded_dispatch (s := s.withoutStreams) h.withoutStreams c

/-- A new world has no class and no reference. -/
theorem grounded_initial (log : Logging) : World.Grounded { log } where
  heap :=
    { arrays := below_noObjects below_nil
      tables := below_noObjects below_nil
      closures := below_noObjects below_none
      classes := below_noObjects ⟨below_none, below_nil, fun _ _ found => nomatch found⟩
      statics := below_noObjects fun _ _ found => nomatch found
      objects := below_noObjects below_nil
      bounds := below_noObjects (α := BoundMethod) trivial
      methods := below_noObjects (α := ValueMethod) trivial
      cells := below_noObjects (α := Cell) trivial
      ordered := fun _ _ super => nomatch super }
  caches := fun _ _ found => nomatch found

theorem grounded_start (config : Config) (level : Level) (fuel : Nat) : (Session.start config level fuel).Grounded :=
  grounded_fresh config preludeNatives (grounded_initial _)

end Session

end ScriptVm
