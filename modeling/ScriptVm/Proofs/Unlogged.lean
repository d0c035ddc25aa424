import ScriptVm.Proofs.MirroredSessions

/-!
# Backings that differ in their logs at most

`Unlogged R` says that backings related by `R` differ in their logs at most, and that they stay related
whatever is done to both in the same way, functions apart. Such a relation is a `HostBisimulation`, and
sessions whose machines differ by it give the same replies to all commands, also to those that look at
the registries or change them from outside.

The relation may say something about the logs, or about the functions of a world that is related to
itself only.
-/

set_option autoImplicit false

namespace ScriptVm

open Exec World Logging

/-- The backing with another log. -/
def Backing.withLog (b : Backing) (log : Logging) : Backing := { b with world := { b.world with log } }

/-- A relation between backings that differ in their logs at most. -/
structure Unlogged (R : Backing → Backing → Prop) : Prop where
  log : ∀ {b b'}, R b b' → b' = b.withLog b'.world.log
  hear : ∀ {b b'}, R b b' → ∀ e, R (b.hear e) (b'.hear e)
  /-- Everything written so far may be taken away. -/
  cleared : ∀ {b b'}, R b b' →
    R (b.withLog { b.world.log with streams := {} }) (b'.withLog { b'.world.log with streams := {} })
  printed : ∀ {b b'}, R b b' → b'.world.log.streams.out = b.world.log.streams.out
  newClosure : ∀ {b b'}, R b b' → ∀ proto cells,
    R (b.withHeap (b.world.heap.allocClosure { proto, cells }).2)
      (b'.withHeap (b'.world.heap.allocClosure { proto, cells }).2)
  /-- Whatever is done to both in the same way, functions and logs apart. -/
  change : ∀ {b b'}, R b b' → ∀ c : Backing, c.world.log = b.world.log →
    c.world.heap.closures = b.world.heap.closures → R c (c.withLog b'.world.log)

variable {R : Backing → Backing → Prop} {m : Machine} {α : Type}

namespace Unlogged

variable (hR : Unlogged R)
include hR

/-- Related backings differ in their logs at most. -/
theorem withLog {b b' : Backing} (hb : R b b') : ∃ l, b' = b.withLog l := ⟨_, hR.log hb⟩

/-- They stay related when both logs hear the same. -/
theorem hearAll {b b' : Backing} (hb : R b b') (es : List LogEvent) :
    R (b.withLog (b.world.log.hearAll es)) (b'.withLog (b'.world.log.hearAll es)) := by
  induction es generalizing b b' with
  | nil => exact hb
  | cons e rest ih => exact ih (hR.hear hb e)

/-- What is done to both in the same way, and what both logs hear. -/
theorem heard {b : Backing} {l : Logging} (hb : R b (b.withLog l)) (es : List LogEvent) (c : Backing)
    (log : c.world.log = b.world.log.hearAll es) (closures : c.world.heap.closures = b.world.heap.closures) :
    R c (c.withLog (l.hearAll es)) := hR.change (hR.hearAll hb es) c log closures

/-! ## Operations of the world -/

/-- An operation on the world that does not look at the log goes in parallel. -/
theorem parallel_of_eq {f : World → α × World}
    (same : ∀ w l, f { w with log := l } = ((f w).1, { (f w).2 with log := l }))
    (log : ∀ w, (f w).2.log = w.log) (closures : ∀ w, (f w).2.heap.closures = w.heap.closures) :
    Parallel R f := by
  intro b b' hb
  obtain ⟨l, rfl⟩ := hR.withLog hb
  have other : f (b.withLog l).world = ((f b.world).1, { (f b.world).2 with log := l }) := same b.world l
  rw [other]
  exact ⟨rfl, hR.change hb { b with world := (f b.world).2 } (log _) (closures _)⟩

/-- An operation that does not look at the log. -/
theorem parallel_of_blind {f : World → α × World} (blind : ∀ w, Blind f w)
    (closures : ∀ w, (f w).2.heap.closures = w.heap.closures) : Parallel R f := by
  intro b b' hb
  obtain ⟨l, rfl⟩ := hR.withLog hb
  obtain ⟨es, run⟩ := blind b.world
  have here := congrArg (fun r => r.2.log) (run b.world.caches b.world.log).1
  have there : f (b.withLog l).world =
      ((f b.world).1, (f b.world).2.withSides b.world.caches (l.hearAll es)) := (run b.world.caches l).1
  have caches := congrArg (fun r => r.2.caches) (run b.world.caches b.world.log).1
  have caches : (f b.world).2.caches = b.world.caches := caches
  rw [there, ← caches]
  exact ⟨rfl, hR.heard hb es { b with world := (f b.world).2 } here (closures _)⟩

theorem parallel_intern (name : Text) : Parallel R fun w => w.intern name :=
  hR.parallel_of_eq (fun _ _ => rfl) (fun _ => rfl) fun _ => rfl

theorem parallel_bind (receiver method : Value) : Parallel R fun w => w.bind receiver method := by
  refine hR.parallel_of_blind (fun w => blind_bind w receiver method) fun w => ?_
  unfold World.bind
  split <;> rfl

/-- A record in the caches: a refusal is noted in both logs. -/
theorem parallel_recorded (record : CacheRegistry → Bool × CacheRegistry) (site : Site) (k : CacheKey) :
    Parallel R fun w =>
      ((record w.caches).1,
        if (record w.caches).1 then { w with caches := (record w.caches).2 }
        else World.noteRefused { w with caches := (record w.caches).2 } site k) := by
  intro b b' hb
  obtain ⟨l, rfl⟩ := hR.withLog hb
  have caches : (b.withLog l).world.caches = b.world.caches := rfl
  refine ⟨rfl, ?_⟩
  simp only [caches, noteRefused, note_eq]
  split
  · exact hR.change hb { b with world := { b.world with caches := _ } } rfl rfl
  · exact hR.heard hb [.note "ic" .trace _] { b with world := { b.world with caches := _, log := _ } } rfl rfl

end Unlogged

namespace Exec

open Machine

section

variable (hR : Unlogged R)
include hR

/-- What does not read the log reads the same. -/
theorem Same.readUnlogged {body : Machine → Exec α} (blind : ∀ l, body (m.on (m.backing.withLog l)) = body m)
    (next : Same R (body m) m) : Same R (get >>= body) m := by
  refine .read (fun b hb => ?_) next
  obtain ⟨l, rfl⟩ := hR.withLog hb
  exact blind l

theorem same_unloggedHeap : Same R heap m := .readUnlogged hR (fun _ => rfl) (same_pure _)

theorem same_unloggedFail (c : Cause) : Same R (fail c : Exec α) m :=
  .readUnlogged hR (fun _ => rfl) (mirrors_raise _)

/-! ## Caches and properties -/

theorem same_count (f : CacheStats → CacheStats) : Same R (count f) m := by
  intro b hb
  obtain ⟨l, rfl⟩ := hR.withLog hb
  exact .ok (m := { m with stats := f m.stats }) (b := ⟨_, _⟩) rfl
    (hR.change hb { m.backing with stats := f m.stats } rfl rfl)

/-- Caches are asked and changed alike. -/
theorem same_withCaches (f : CacheRegistry → α × CacheRegistry) : Same R (withCaches f) m :=
  (hR.parallel_of_eq (f := fun w => ((f w.caches).1, { w with caches := (f w.caches).2 })) (fun _ _ => rfl)
    (fun _ => rfl) fun _ => rfl).same m

theorem same_rememberProperty (site : Site) (k : CacheKey) (offset : Nat) :
    Same R (rememberProperty site k offset) m := by
  refine same_config.bind fun c m₁ _ => ?_
  split
  · exact Same.bind ((hR.parallel_recorded (fun c => c.recordProperty site k offset) site k).same m₁)
      fun _ _ _ => same_pure _
  · exact same_pure _

theorem same_rememberMethod (site : Site) (k : CacheKey) (found : FoundMethod) :
    Same R (rememberMethod site k found) m := by
  refine same_config.bind fun c m₁ _ => ?_
  split
  · exact Same.bind ((hR.parallel_recorded (fun c => c.recordMethod site k found) site k).same m₁)
      fun _ _ _ => same_pure _
  · exact same_pure _

theorem same_cachedField (site : Site) (o : ShapedObject) (s : Symbol) : Same R (cachedField site o s) m := by
  refine same_config.bind fun c m₁ _ => ?_
  split
  · refine (same_withCaches hR _).bind fun cache m₂ _ => ?_
    split
    · exact (same_count hR _).bind fun _ _ _ => same_pure _
    · exact (same_count hR _).bind fun _ _ _ => same_pure _
  · exact same_pure _

theorem same_placedField (site : Site) (o : ShapedObject) (s : Symbol) : Same R (placedField site o s) m := by
  refine .readUnlogged hR (fun _ => rfl) ?_
  simp only
  split
  · exact (same_rememberProperty hR _ _ _).bind fun _ _ _ => same_pure _
  · exact same_pure _

theorem same_cachedMethod (site : Site) (k : CacheKey) : Same R (cachedMethod site k) m := by
  refine same_config.bind fun c m₁ _ => ?_
  split
  · refine (same_withCaches hR _).bind fun cache m₂ _ => ?_
    split
    · exact (same_count hR _).bind fun _ _ _ => same_pure _
    · exact (same_count hR _).bind fun _ _ _ => same_pure _
  · exact same_pure _

theorem same_classMethod (site : Site) (cls : Ref .cls) (s : Symbol) (name : Text) :
    Same R (classMethod site cls s name) m := by
  refine (same_unloggedHeap hR).bind fun h m₁ _ => ?_
  split
  · exact (same_rememberMethod hR _ _ _).bind fun _ _ _ => same_pure _
  · exact same_pure _

/-- A property is read alike, and from the same cache. -/
theorem same_getObjectProperty (r : Ref .object) (name : Text) (site : Site) :
    Same R (getObjectProperty r name site) m := by
  refine ((hR.parallel_intern name).same m).bind fun s m₁ _ => (same_unloggedHeap hR).bind fun h m₂ _ => ?_
  refine (same_cachedField hR site _ s).bind fun field m₃ _ => ?_
  split
  · exact same_pure _
  refine (same_placedField hR site _ s).bind fun field m₄ _ => ?_
  split
  · exact same_pure _
  refine (same_unloggedHeap hR).bind fun h m₅ _ => (same_cachedMethod hR site _).bind fun method m₆ _ => ?_
  split
  · exact (hR.parallel_bind _ _).same m₆
  refine (same_classMethod hR site _ s name).bind fun method m₇ _ => ?_
  split
  · exact (hR.parallel_bind _ _).same m₇
  · exact same_unloggedFail hR _

theorem same_setCachedField (site : Site) (r : Ref .object) (s : Symbol) (v : Value) :
    Same R (setCachedField site r s v) m := by
  intro b hb
  obtain ⟨l, rfl⟩ := hR.withLog hb
  cases use : m.config.useCaches with
  | false =>
    rw [run_setCachedField_off site r s v use, run_setCachedField_off (m := m.on _) site r s v use]
    exact .ok rfl hb
  | true =>
    rw [run_setCachedField_on site r s v use, run_setCachedField_on (m := m.on _) site r s v use]
    have written : ∀ offset,
        (withOpened (m.on (m.backing.withLog l)) site).world.setFieldAt? r offset s v =
          ((withOpened m site).world.setFieldAt? r offset s v).map fun w => { w with log := l } := by
      intro offset
      have fields : (withOpened (m.on (m.backing.withLog l)) site).world.heap.objects.get r =
          (withOpened m site).world.heap.objects.get r := rfl
      unfold World.setFieldAt?
      simp only
      rw [fields]
      cases ((withOpened m site).world.heap.objects.get r).fields.setFieldAt? offset s v <;> rfl
    have caches : (m.on (m.backing.withLog l)).world.caches = m.world.caches := rfl
    have shape : (m.on (m.backing.withLog l)).heap.objects.get r = m.heap.objects.get r := rfl
    have missed : R { withOpened m site with
          stats := { m.stats with propertyMisses := m.stats.propertyMisses + 1 } }.backing
        { (withOpened (m.on (m.backing.withLog l)) site) with
          stats := { m.stats with propertyMisses := m.stats.propertyMisses + 1 } }.backing :=
      hR.change hb (Machine.backing { withOpened m site with stats := _ }) rfl rfl
    simp only [written, caches, shape]
    cases (m.world.caches.propertyCache site).1.lookup ⟨s, (m.heap.objects.get r).fields.shape⟩ with
    | none => exact .ok rfl missed
    | some offset =>
      simp only [Option.bind_some]
      cases hw : (withOpened m site).world.setFieldAt? r offset s v with
      | none => exact .ok rfl missed
      | some w =>
        obtain ⟨fields, -, rfl⟩ := (World.setFieldAt?_eq_some_iff ..).1 hw
        exact .ok (m := { m with world := _, stats := _ }) (b := ⟨_, _⟩) rfl
          (hR.change hb (Machine.backing { m with world := _, stats := _ }) rfl rfl)

/-- A field is set alike, and the same shape is made for it. -/
theorem parallel_setField (r : Ref .object) (s : Symbol) (v : Value) :
    Parallel R fun w => ((), w.setField r s v) := by
  intro b b' hb
  obtain ⟨l, rfl⟩ := hR.withLog hb
  refine ⟨rfl, ?_⟩
  simp only [setField_eq]
  exact hR.heard hb _ ⟨_, _⟩ rfl rfl

/-- A property is assigned alike, and remembered alike. -/
theorem same_setObjectProperty (r : Ref .object) (name : Text) (v : Value) (site : Site) :
    Same R (setObjectProperty r name v site) m := by
  refine ((hR.parallel_intern name).same m).bind fun s m₁ _ => (same_unloggedHeap hR).bind fun h m₂ h₂ => ?_
  split
  · exact same_unloggedFail hR _
  · refine (same_setCachedField hR site r s v).bind fun done m₃ h₃ => ?_
    split
    · exact same_pure _
    · refine ((parallel_setField hR r s v).same m₃).bind fun _ m₄ _ =>
        (same_unloggedHeap hR).bind fun h m₅ _ => ?_
      refine .readUnlogged hR (fun _ => rfl) ?_
      split
      · exact same_rememberProperty hR _ _ _
      · exact same_pure _

end

end Exec

namespace Unlogged

/-- Backings that differ in their logs at most make no difference. -/
theorem hostBisimulation (hR : Unlogged R) : HostBisimulation Eq R where
  likeness := likeness_eq
  resembles hb := by
    obtain ⟨l, rfl⟩ := hR.withLog hb
    exact resembles_of_eq likeness_eq rfl rfl rfl
  pools hb p := by
    obtain ⟨l, rfl⟩ := hR.withLog hb
    exact hR.change hb (Backing.withHeap _ _) rfl rfl
  hear := hR.hear
  newClosure := by
    rintro b b' hb p _ ⟨rfl⟩ cells
    exact hR.newClosure hb p cells
  newObject hb cls := by
    obtain ⟨l, rfl⟩ := hR.withLog hb
    simp only [newObject_eq]
    exact hR.heard hb _ ⟨_, _⟩ rfl rfl
  newClass hb name := by
    obtain ⟨l, rfl⟩ := hR.withLog hb
    exact hR.change hb ⟨_, _⟩ rfl rfl
  read := by
    rintro p _ ⟨rfl⟩ ip r name m
    exact same_getObjectProperty hR r name _
  write := by
    rintro p _ ⟨rfl⟩ ip r name v m
    exact same_setObjectProperty hR r name v _
  sealing hb r := by
    obtain ⟨l, rfl⟩ := hR.withLog hb
    exact hR.change hb (Backing.sealing _ r) rfl rfl
  forget hb := by
    obtain ⟨l, rfl⟩ := hR.withLog hb
    exact hR.change hb (Backing.forget _) rfl rfl
  bareObject hb cls := by
    obtain ⟨l, rfl⟩ := hR.withLog hb
    exact hR.change hb ⟨_, _⟩ rfl rfl
  build hb s := by
    obtain ⟨l, rfl⟩ := hR.withLog hb
    exact ⟨rfl, hR.change hb ⟨_, _⟩ rfl rfl⟩
  withoutStreams := hR.cleared
  fresh hb := by
    obtain ⟨l, rfl⟩ := hR.withLog hb
    exact hR.change hb ⟨_, _⟩ rfl rfl
  printed := hR.printed

/-! ## Classes -/

variable (hR : Unlogged R)
include hR

/-- A draft becomes a class with the same number. -/
theorem same_republish (draft : Class) : Same R (republish draft) m := by
  have published : Parallel R fun w => w.publish draft :=
    hR.parallel_of_eq (fun _ _ => rfl) (fun _ => rfl) fun _ => rfl
  refine (published.same m).bind fun r m₁ _ => ?_
  have top : Same R (replaceTop (.cls r)) m₁ := .readUnlogged hR (fun _ => rfl) (same_setSlot _ _)
  exact top.bind fun _ _ _ => same_pure _

theorem same_inherit : Same R inherit m := by
  refine same_pop.bind fun v m₁ _ => ?_
  split
  · refine (same_classOnTop hR.hostBisimulation.toBisimulation).bind fun r m₂ _ => ?_
    exact (same_unloggedHeap hR).bind fun h m₃ _ => (hR.same_republish _).bind fun _ _ _ => same_pure _
  · exact .readUnlogged hR (fun _ => rfl) (same_unloggedFail hR _)

theorem parallel_draftField (draft : Class) (name : Text) (v : Value) (isConst : Bool) :
    Parallel R fun w => w.draftField draft name v isConst :=
  hR.parallel_of_eq (fun _ _ => rfl) (fun _ => rfl) fun _ => rfl

theorem same_defineField (name : Text) (isConst : Bool) : Same R (defineField name false isConst) m := by
  refine same_pop.bind fun initial m₁ _ => ?_
  refine (same_classOnTop hR.hostBisimulation.toBisimulation).bind fun r m₂ _ => ?_
  refine (same_unloggedHeap hR).bind fun h m₃ _ => ?_
  refine ((hR.parallel_draftField _ name initial isConst).same m₃).bind fun draft m₄ _ => ?_
  exact (hR.same_republish draft).bind fun _ _ _ => same_pure _

/-- The numbers of shapes and method tables are the same. -/
theorem same_telling {body : NativeBody} (tells : body.tells = true) (args : List Value) :
    Same R (plainNative body args) m := by
  cases body with
  | shape =>
    exact .readUnlogged hR (fun _ => rfl)
      ((same_expectObject hR.hostBisimulation.toBisimulation _).bind fun _ _ _ => same_pure _)
  | table =>
    exact .readUnlogged hR (fun _ => rfl)
      ((same_expectClass hR.hostBisimulation.toBisimulation _).bind fun _ _ _ => same_pure _)
  | _ => cases tells

end Unlogged

/-! ## Moves -/

/-- Instructions that adopt a function, or look at the level of the log. -/
def Instruction.isSuspect (i : Instruction) : Bool :=
  match i.op with
  | .importModule | .method | .staticMethod => true
  | _ => false

/-- A move is the same on backings that differ in their logs at most, if the instruction is that adopts
a function or looks at the log. -/
theorem Activity.together_of_unlogged (hR : Unlogged R) {a : Activity}
    (suspect : ∀ i m₁, a.control = .execute → fetch.run a.machine = .ok i m₁ → i.isSuspect = true →
      Same R (execute i) m₁) : a.Together R := by
  refine together_of hR.hostBisimulation.toBisimulation (fun i m₁ control fetched special => ?_)
    fun body _ tells args m' => hR.same_telling tells args
  have name : ∀ k, Same R (constantName k) m₁ := same_constantName hR.hostBisimulation.toBisimulation
  have suspect := suspect i m₁ control fetched
  unfold Instruction.isSuspect at suspect
  unfold Instruction.isSpecial at special
  unfold execute at suspect ⊢
  cases op : i.op with
  | importModule | method | staticMethod =>
    rw [op] at suspect
    exact suspect rfl
  | inherit => exact same_andNext hR.same_inherit
  | field => exact same_andNext ((name _).bind fun t _ _ => hR.same_defineField t false)
  | constField => exact same_andNext ((name _).bind fun t _ _ => hR.same_defineField t true)
  | _ =>
    rw [op] at special
    cases special

/-! ## Commands -/

namespace Session

variable {s s' : Session}

section

variable (hR : Unlogged R)
include hR

theorem parallel_draftIn (plan : ClassPlan) : Parallel R (s.draftIn plan) := by
  unfold draftIn
  cases plan.base.bind s.globalClass? with
  | some r => exact hR.parallel_of_eq (fun _ _ => rfl) (fun _ => rfl) fun _ => rfl
  | none => exact hR.parallel_of_eq (fun _ _ => rfl) (fun _ => rfl) fun _ => rfl

theorem parallel_draftFields (scope : Literal.Scope) (fields : List (Text × Literal × Bool)) (draft : Class) :
    Parallel R (draftFields scope fields draft) := by
  induction fields generalizing draft with
  | nil => exact .pure draft
  | cons f rest ih =>
    obtain ⟨name, initial, isConst⟩ := f
    refine (parallel_realise hR.hostBisimulation scope initial).bind
      (g := fun v w => draftFields scope rest (w.draftField draft name v isConst).1
        (w.draftField draft name v isConst).2) fun v => ?_
    exact (hR.parallel_draftField draft name v isConst).bind ih

/-- A host builds the same class. -/
theorem parallel_buildIn (plan : ClassPlan) : Parallel R (s.buildIn plan) := by
  refine (parallel_draftIn hR plan).bind
    (g := fun d w =>
      let f := draftFields s.scope plan.fields (s.withSuper plan d) w
      let c := f.2.publish (s.furnish plan f.1 f.2)
      (c.1, (declareStatics s.scope c.1 plan.statics c.2).2)) fun d => ?_
  refine (parallel_draftFields hR s.scope plan.fields _).bind
    (g := fun d w =>
      let c := w.publish (s.furnish plan d w)
      (c.1, (declareStatics s.scope c.1 plan.statics c.2).2)) fun d => ?_
  refine Parallel.bind (f := fun w => w.publish (s.furnish plan d w))
    (g := fun r w => (r, (declareStatics s.scope r plan.statics w).2)) ?_ fun r => ?_
  · exact hR.parallel_of_eq (fun _ _ => rfl) (fun _ => rfl) fun _ => rfl
  · exact (parallel_declareStatics hR.hostBisimulation s.scope r plan.statics).map fun _ => r

/-- Commands that look at the registries or change them get the same answers. -/
theorem Twin.dispatch_special (h : s.Twin Eq R s') {c : Command} (special : c.isSpecial = true) :
    Corresponds Eq R (s.dispatch c) (s'.dispatch c) := by
  cases c with
  | state =>
    refine ⟨?_, h⟩
    obtain ⟨b, machine, hb⟩ := h.machine
    obtain ⟨l, rfl⟩ := hR.withLog hb
    simp only [Session.dispatch, machine]
    rfl
  | recordProperty site name shape offset =>
    obtain ⟨value, twin⟩ := h.onWorld ((hR.parallel_intern name).bind fun symbol =>
      hR.parallel_recorded (fun c => c.recordProperty site ⟨symbol, shape⟩ offset) site ⟨symbol, shape⟩)
    exact ⟨congrArg Answer.flag value, twin⟩
  | recordMethod site name table owner method =>
    obtain ⟨values, twin⟩ := h.realise hR.hostBisimulation [method]
    simp only [Session.dispatch, values]
    obtain ⟨value, twin⟩ := twin.onWorld ((hR.parallel_intern name).bind fun symbol =>
      hR.parallel_recorded
        (fun c => c.recordMethod site ⟨symbol, table⟩ ⟨owner, (s.realise [method]).1.headD .null⟩) site
        ⟨symbol, table⟩)
    exact ⟨congrArg Answer.flag value, twin⟩
  | buildClass plan =>
    obtain ⟨value, twin⟩ := h.onWorld (parallel_buildIn (s := s) hR plan)
    have same : s'.buildIn plan = s.buildIn plan := by
      obtain ⟨b, machine, -⟩ := h.machine
      exact buildIn_congr (by rw [machine]; rfl) plan
    refine ⟨rfl, ?_⟩
    simp only [Session.dispatch, buildClass_eq, same, value]
    exact twin.define plan.global (.cls (s.buildIn plan s.machine.world).1)
  | _ => cases special

end

end Session

end ScriptVm
