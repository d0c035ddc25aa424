import ScriptVm.Proofs.MirroredSessions
import ScriptVm.Proofs.Renumbering

/-!
# Machines whose numbers differ

Two backings are interchangeable when their worlds are akin, their method caches are sound and their
logs agree but for trace records: no program can tell them apart, as long as it does not ask for numbers.
The caches of the two may hold anything else, since a property cache is never believed and a sound method
cache is right about every class that there is.
-/

set_option autoImplicit false

namespace ScriptVm

open Exec World Logging

/-- Gives a function a home. -/
def World.adopt (w : World) (f : Ref .closure) (c : Class) : World :=
  { w with
    heap := { w.heap with
      closures := w.heap.closures.set f
        { w.heap.closures.get f with home := c.name, homeSuper := c.superclass } } }

namespace Backing

/-- Backings whose worlds are akin, whatever their caches hold. -/
structure Lookalike (b b' : Backing) : Prop where
  worlds : b.world.Akin b'.world
  log : Agree b.world.log b'.world.log

/-- Backings that a program cannot tell apart. -/
structure Interchangeable (b b' : Backing) : Prop extends Lookalike b b' where
  caches : b.world.MethodCachesSound
  others : b'.world.MethodCachesSound

namespace Interchangeable

variable {b b' c c' : Backing}

/-- Both worlds change as a world may, and stay akin. -/
theorem evolve (h : b.Interchangeable b') (evolves : Evolves b.world c.world) (evolves' : Evolves b'.world c'.world)
    (worlds : c.world.Akin c'.world) (log : Agree c.world.log c'.world.log) : c.Interchangeable c' :=
  ⟨⟨worlds, log⟩, evolves.methodCachesSound h.worlds.own.regular h.caches,
    evolves'.methodCachesSound h.worlds.other.regular h.others⟩

/-- Changes that have nothing to do with the numbers and the method caches. -/
theorem keep (h : b.Interchangeable b') (kept : KeepsNumbers b.world c.world) (kept' : KeepsNumbers b'.world c'.world)
    (caches : c.world.caches = b.world.caches) (caches' : c'.world.caches = b'.world.caches)
    (pools : c'.world.heap.pools = c.world.heap.pools)
    (closures : c.world.heap.closures.Pairs (Closure.Resembles Constant.Renumbered) c'.world.heap.closures)
    (log : Agree c.world.log c'.world.log) : c.Interchangeable c' := by
  refine ⟨⟨h.worlds.keep kept kept' pools closures, log⟩, ?_, ?_⟩
  · exact h.caches.congr kept.symbols kept.classes (by rw [kept.shapes]) (by rw [caches])
  · exact h.others.congr kept'.symbols kept'.classes (by rw [kept'.shapes]) (by rw [caches'])

/-- Both worlds make an instance of the class. -/
theorem newObject (h : b.Interchangeable b') (cls : Ref .cls) :
    Interchangeable { b with world := (b.world.newObject cls).2 } { b' with world := (b'.world.newObject cls).2 } := by
  refine h.evolve (.single (.newObject b.world cls)) (.single (.newObject b'.world cls)) (h.worlds.newObject cls) ?_
  simp only [newObject_eq]
  exact h.log.traces (isTrace_layOut _ _ _) (isTrace_layOut _ _ _)

/-- Both worlds make a class of corresponding drafts. -/
theorem publish (h : b.Interchangeable b') {d d' : Class} (drafts : Akin.Drafts b.world b'.world d d') :
    (b'.world.publish d').1 = (b.world.publish d).1 ∧
      Interchangeable { b with world := (b.world.publish d).2 } { b' with world := (b'.world.publish d').2 } := by
  obtain ⟨ref, worlds⟩ := h.worlds.publish drafts
  exact ⟨ref, h.evolve (.single (.publish b.world d drafts.made)) (.single (.publish b'.world d' drafts.made')) worlds
    h.log⟩

/-- Both worlds give the name a symbol. -/
theorem intern (h : b.Interchangeable b') (name : Text) :
    Interchangeable { b with world := (b.world.intern name).2 } { b' with world := (b'.world.intern name).2 } :=
  h.evolve (.single (.intern b.world name)) (.single (.intern b'.world name)) (h.worlds.intern name) h.log

/-- The home of a function is set on both sides. -/
theorem adopt (h : b.Interchangeable b') (f : Ref .closure) {d d' : Class} (resemble : d.Resembles d') :
    Interchangeable { b with world := b.world.adopt f d } { b' with world := b'.world.adopt f d' } := by
  have old := h.worlds.closures.each f
  have name : d'.name = d.name := by rw [resemble.same]
  have superclass : d'.superclass = d.superclass := by rw [resemble.same]
  refine h.keep ⟨rfl, rfl, rfl, rfl⟩ ⟨rfl, rfl, rfl, rfl⟩ rfl rfl h.worlds.pools ?_ h.log
  exact h.worlds.closures.set f ⟨old.proto, old.cells, name, superclass⟩

end Interchangeable

end Backing

open Backing

namespace Exec

open Machine

variable {m : Machine} {α : Type}

/-! ## Properties -/

theorem same_lookalikeFail (c : Cause) : Same Lookalike (fail c : Exec α) m :=
  .read (fun b hb => by rw [span_of_resembles likeness_renumbered hb.worlds.resembles]) (mirrors_raise _)

theorem parallel_lookalikeBind (receiver method : Value) :
    Parallel Lookalike fun w => w.bind receiver method := by
  intro b b' hb
  unfold World.bind
  cases Callable.ofValue? method with
  | none => exact ⟨rfl, hb⟩
  | some target =>
    have bounds : b'.world.heap.bounds = b.world.heap.bounds := hb.worlds.resembles.bounds
    have pools := congrArg (fun p : Pools => { p with bounds := (p.bounds.alloc { receiver, target }).2 })
      hb.worlds.pools
    refine ⟨?_, hb.worlds.keep ⟨rfl, rfl, rfl, rfl⟩ ⟨rfl, rfl, rfl, rfl⟩ pools hb.worlds.closures, hb.log⟩
    simp only [Heap.allocBound, bounds]

/-- A property of an instance by its name, the symbol of which is known. -/
def readNamed (r : Ref .object) (name : Text) : Exec Value := do
  let m ← get
  match Assoc.find (some name) (m.world.row r) with
  | some v => return v
  | none =>
    match m.heap.findMethod (m.heap.objects.get r).cls name with
    | some (method, _) => bindMethod (.object r) method.toValue
    | none => fail (.noSuchProperty (m.heap.className r) name)

/-- The machine with a name interned. -/
def interned (m : Machine) (name : Text) : Machine := { m with world := (m.world.intern name).2 }

/-- Reading a field by its symbol is reading it by its name. -/
theorem run_readField (lawful : m.world.Lawful) (r : Ref .object) (name : Text) :
    (readField r name).run m = (readNamed r name).run (interned m name) := by
  have known : (interned m name).world.symbols.lookup name = some (m.world.intern name).1 :=
    SymbolTable.lookup_intern_self _ _
  have found : ((interned m name).heap.objects.get r).fields.get (interned m name).world.shapes
      (m.world.intern name).1 = Assoc.find (some name) ((interned m name).world.row r) :=
    (lawful.intern name).get_eq known r
  have interns : (Exec.intern name).run m = .ok (m.world.intern name).1 (interned m name) := rfl
  unfold readField readNamed
  rw [run_bind_of_ok interns, run_bind_of_ok (run_get _), run_bind_of_ok (run_get _)]
  simp only [found]
  rfl

/-- Reading a field by its name does not depend on numbers. -/
theorem same_readNamed (r : Ref .object) (name : Text) : Same Lookalike (readNamed r name) m := by
  refine .read (fun b hb => ?_) ?_
  · have row : (m.on b).world.row r = m.world.row r := hb.worlds.rows r
    have cls : ((m.on b).heap.objects.get r).cls = (m.heap.objects.get r).cls := hb.worlds.objects.each r
    have method : (m.on b).heap.findMethod = m.heap.findMethod := hb.worlds.resembles.findMethod
    have className : (m.on b).heap.className r = m.heap.className r := hb.worlds.resembles.className r
    simp only [row, cls, method, className]
  · split
    · exact same_pure _
    split
    · exact (parallel_lookalikeBind _ _).same m
    · exact same_lookalikeFail _

theorem same_readField (r : Ref .object) (name : Text) : Same Lookalike (readField r name) m := by
  intro b hb
  rw [run_readField hb.worlds.own, run_readField (m := m.on b) hb.worlds.other]
  exact same_readNamed r name { b with world := (b.world.intern name).2 } ⟨hb.worlds.intern name, hb.log⟩

/-- Writing a field is refused for a constant one, and otherwise sets it. -/
theorem run_writeField (m : Machine) (r : Ref .object) (name : Text) (v : Value) :
    (writeField r name v).run m =
      if (interned m name).heap.isConstField ((interned m name).heap.objects.get r).cls (m.world.intern name).1 then
        (fail (.constantField name) : Exec Unit).run (interned m name)
      else .ok () (withField (interned m name) r (m.world.intern name).1 v) := by
  have interns : (Exec.intern name).run m = .ok (m.world.intern name).1 (interned m name) := rfl
  unfold writeField
  rw [run_bind_of_ok interns, run_bind_of_ok (run_heap _)]
  split <;> rfl

/-- Writing a field does not depend on numbers. -/
theorem same_writeField (r : Ref .object) (name : Text) (v : Value) : Same Lookalike (writeField r name v) m := by
  intro b hb
  have worlds := hb.worlds.intern name
  have known : (m.world.intern name).2.symbols.lookup name = some (m.world.intern name).1 :=
    SymbolTable.lookup_intern_self _ _
  have known' : (b.world.intern name).2.symbols.lookup name = some (b.world.intern name).1 :=
    SymbolTable.lookup_intern_self _ _
  have cls : ((interned (m.on b) name).heap.objects.get r).cls = ((interned m name).heap.objects.get r).cls :=
    worlds.objects.each r
  have const : (interned (m.on b) name).heap.isConstField ((interned (m.on b) name).heap.objects.get r).cls
        ((m.on b).world.intern name).1 =
      (interned m name).heap.isConstField ((interned m name).heap.objects.get r).cls (m.world.intern name).1 := by
    rw [cls]
    exact worlds.isConstField known known' _
  rw [run_writeField m, run_writeField (m.on b)]
  split
  next constant =>
    rw [if_pos (const.trans constant)]
    exact same_lookalikeFail _ { b with world := (b.world.intern name).2 } ⟨worlds, hb.log⟩
  next writable =>
    have writable := Bool.eq_false_iff.2 writable
    have writable' := const.trans writable
    rw [if_neg (Bool.eq_false_iff.1 writable')]
    refine .ok (m := withField (interned m name) r (m.world.intern name).1 v)
      (b := { b with world := World.setField _ r _ v }) rfl ⟨?_, ?_⟩
    · exact worlds.setField known known' writable writable' v
    · unfold withField Machine.backing
      simp only [setField_eq]
      exact hb.log.traces (isTrace_placementEvents _ _) (isTrace_placementEvents _ _)

/-- Two machines that were interchangeable, and whose worlds are akin whatever happened to their sides. -/
theorem twin_sided {b b₁ : Backing} {m₁ : Machine} {s s' : Side} (hb : m.backing.Interchangeable b)
    (hb₁ : m₁.backing.Lookalike b₁) (keeps : Keeps 0 m (m₁.withSide s))
    (keeps' : Keeps 0 (m.on b) ((m₁.on b₁).withSide s')) (log : Agree m₁.world.log s.log)
    (log' : Agree b₁.world.log s'.log) : (m₁.withSide s).Twin Interchangeable ((m₁.on b₁).withSide s') := by
  refine ⟨((m₁.on b₁).withSide s').backing, ?_, ⟨?_, ?_⟩, ?_, ?_⟩
  · have config : ((m₁.on b₁).withSide s').config = (m₁.withSide s).config := keeps'.config.trans keeps.config.symm
    calc (m₁.on b₁).withSide s'
        = { (m₁.withSide s).on ((m₁.on b₁).withSide s').backing with
            config := ((m₁.on b₁).withSide s').config } := rfl
      _ = (m₁.withSide s).on ((m₁.on b₁).withSide s').backing := by rw [config]; rfl
  · exact hb₁.worlds.keep ⟨rfl, rfl, rfl, rfl⟩ ⟨rfl, rfl, rfl, rfl⟩ hb₁.worlds.pools hb₁.worlds.closures
  · exact log.symm.trans (hb₁.log.trans log')
  · exact keeps.world.methodCachesSound hb.worlds.own.regular hb.caches
  · exact keeps'.world.methodCachesSound hb.worlds.other.regular hb.others

/-- Computations that use the caches to no effect are the same, if they are without caches. -/
theorem mirrors_of_follows {x x' y : Exec α} (plain : ∀ m, Plain true 0 x m) (plain' : ∀ m, Plain true 0 x' m)
    (follows : ∀ m, Sound m → Follows x m y m) (follows' : ∀ m, Sound m → Follows x' m y m)
    (same : ∀ m, Same Lookalike y m) : Mirrors Interchangeable Eq x x' m := by
  intro b hb
  obtain ⟨s, run, log⟩ := follows m ⟨hb.worlds.own.regular, hb.caches, hb.log.capturing⟩
  obtain ⟨s', run', log'⟩ := follows' (m.on b) ⟨hb.worlds.other.regular, hb.others, hb.log.capturing_right⟩
  have keeps := (plain m).keeps
  have keeps' := (plain' (m.on b)).keeps
  cases hy : y.run m with
  | ok v m₁ =>
    obtain ⟨_, b₁, hy', rfl, hb₁⟩ := (same m).ok hb.toLookalike hy
    rw [after_of_ok hy] at log
    rw [after_of_ok hy'] at log'
    rw [hy] at run
    rw [hy'] at run'
    rw [after_of_ok run] at keeps
    rw [after_of_ok run'] at keeps'
    rw [run, run']
    exact .of_twin rfl (twin_sided hb hb₁ keeps keeps' log log')
  | error f m₁ =>
    obtain ⟨b₁, hy', hb₁⟩ := (same m).error hb.toLookalike hy
    rw [after_of_error hy] at log
    rw [after_of_error hy'] at log'
    rw [hy] at run
    rw [hy'] at run'
    rw [after_of_error run] at keeps
    rw [after_of_error run'] at keeps'
    obtain ⟨b₂, twin, hb₂⟩ := twin_sided hb hb₁ keeps keeps' log log'
    rw [run, run']
    show Ends Interchangeable Eq (.error f (m₁.withSide s)) (.error f ((m₁.on b₁).withSide s'))
    rw [twin]
    exact .error f hb₂

end Exec

/-! ## What is promised to programs and hosts -/

/-- Hosts cannot tell interchangeable backings apart. -/
theorem interchangeable_hostBisimulation : HostBisimulation Constant.Renumbered Interchangeable where
  likeness := likeness_renumbered
  resembles h := h.worlds.resembles
  pools h p := h.keep ⟨rfl, rfl, rfl, rfl⟩ ⟨rfl, rfl, rfl, rfl⟩ rfl rfl rfl h.worlds.closures h.log
  hear h e :=
    h.keep ⟨rfl, rfl, rfl, rfl⟩ ⟨rfl, rfl, rfl, rfl⟩ rfl rfl h.worlds.pools h.worlds.closures (h.log.hear e)
  newClosure h := fun related cells =>
    h.keep ⟨rfl, rfl, rfl, rfl⟩ ⟨rfl, rfl, rfl, rfl⟩ rfl rfl h.worlds.pools
      (h.worlds.closures.alloc ⟨related, rfl, rfl, rfl⟩) h.log
  newObject h cls := h.newObject cls
  newClass h name :=
    h.evolve (evolves_newClass _ name) (evolves_newClass _ name) (h.worlds.newClass name) h.log
  read _ ip r name m :=
    mirrors_of_follows (fun _ => plain_getObjectProperty r name _) (fun _ => plain_getObjectProperty r name _)
      (fun _ sound => follows_getObjectProperty sound r name _)
      (fun _ sound => follows_getObjectProperty sound r name _) fun _ => same_readField r name
  write _ ip r name v m :=
    mirrors_of_follows (fun _ => plain_setObjectProperty r name v _) (fun _ => plain_setObjectProperty r name v _)
      (fun _ sound => follows_setObjectProperty sound r name v _)
      (fun _ sound => follows_setObjectProperty sound r name v _) fun _ => same_writeField r name v
  sealing h r :=
    h.evolve (.single (.sealShape _ _)) (.single (.sealShape _ _)) (h.worlds.sealShape _ _) h.log
  forget h :=
    h.evolve (.single (.clearCaches _)) (.single (.clearCaches _))
      (h.worlds.keep ⟨rfl, rfl, rfl, rfl⟩ ⟨rfl, rfl, rfl, rfl⟩ h.worlds.pools h.worlds.closures) h.log
  bareObject h cls :=
    h.evolve (.single (.bareObject _ cls)) (.single (.bareObject _ cls)) (h.worlds.bareObject cls) h.log
  build h s :=
    ⟨renumbered_build _ _ s,
      h.keep ⟨rfl, rfl, rfl, rfl⟩ ⟨rfl, rfl, rfl, rfl⟩ rfl rfl h.worlds.pools h.worlds.closures h.log⟩
  withoutStreams h :=
    h.keep ⟨rfl, rfl, rfl, rfl⟩ ⟨rfl, rfl, rfl, rfl⟩ rfl rfl h.worlds.pools h.worlds.closures h.log.cleared
  fresh h := ⟨⟨h.worlds, h.log⟩, h.caches, h.others⟩
  printed h := by
    rw [h.log.rest]
    rfl

/-! ## Classes -/

namespace World

/-- Publishes a class anew with changes that leave its method table and fields alone. -/
def rebuild (r : Ref .cls) (g : Class → Class) (w : World) : Ref .cls × World :=
  w.publish (g (w.heap.classes.get r))

/-- Publishes a class anew with a field. -/
def refield (r : Ref .cls) (name : Text) (initial : Value) (isConst : Bool) (w : World) : Ref .cls × World :=
  let d := w.draftField (w.heap.classes.get r) name initial isConst
  d.2.publish d.1

variable {r : Ref .cls} {g : Class → Class}

/-- A class is rebuilt alike if what is made of it does not look at the numbers. -/
theorem parallel_rebuild (blind : ∀ c tableId fields, g { c with tableId, fields } = { g c with tableId, fields })
    (fields : ∀ c, (g c).fields = c.fields) (made : ∀ c, c.WellMade → (g c).WellMade) :
    Parallel Interchangeable (rebuild r g) :=
  fun _ _ hb => hb.publish ((hb.worlds.drafts_get r).map blind fields made)

/-- So it is when a function finds its home in the class. -/
theorem parallel_rebuildAdopting (f : Ref .closure)
    (blind : ∀ c tableId fields, g { c with tableId, fields } = { g c with tableId, fields })
    (fields : ∀ c, (g c).fields = c.fields) (made : ∀ c, c.WellMade → (g c).WellMade) :
    Parallel Interchangeable fun w => ((rebuild r g w).1, (rebuild r g w).2.adopt f (w.heap.classes.get r)) := by
  intro b b' hb
  obtain ⟨ref, hb₁⟩ := parallel_rebuild blind fields made b b' hb
  exact ⟨ref, hb₁.adopt f (hb.worlds.classes.each r)⟩

theorem parallel_refield (name : Text) (initial : Value) (isConst : Bool) :
    Parallel Interchangeable (refield r name initial isConst) := by
  intro b b' hb
  obtain ⟨drafts, -⟩ := hb.worlds.draftField (hb.worlds.drafts_get r) name initial isConst
  exact (hb.intern name).publish drafts

end World

namespace Backing.Interchangeable

variable {m : Machine}

theorem same_replaceTop (v : Value) : Same Interchangeable (replaceTop v) m := .read (fun _ _ => rfl) (same_setSlot _ _)

/-- A class inherits alike. -/
theorem same_inherit : Same Interchangeable inherit m := by
  have hB := interchangeable_hostBisimulation.toBisimulation
  refine same_pop.bind fun v m₁ _ => ?_
  cases v with
  | cls superclass =>
    refine (same_classOnTop hB).bind fun r m₂ _ => ?_
    have rebuilt : (heap >>= fun h =>
        republish { h.classes.get r with superclass := some superclass } >>= fun _ => Pure.pure ()) =
          withWorld (rebuild r fun c => { c with superclass := some superclass }) >>= fun c =>
            replaceTop (.cls c) := rfl
    show Same Interchangeable (heap >>= _) m₂
    rw [rebuilt]
    refine Same.bind (Parallel.same (parallel_rebuild ?_ ?_ ?_) m₂) fun _ _ _ => same_replaceTop _
    · exact fun _ _ _ => rfl
    · exact fun _ => rfl
    · exact fun _ made => ⟨made.once, made.init⟩
  | _ => exact same_failType hB _ _

/-- The class with one more method. -/
def withMethod (name : Text) (isStatic : Bool) (f : Ref .closure) (c : Class) : Class :=
  if isStatic then { c with staticMethods := c.staticMethods.insert name f }
  else c.withMethod name f

/-- A method is declared alike. -/
theorem same_defineMethod (name : Text) (isStatic : Bool) : Same Interchangeable (defineMethod name isStatic) m := by
  have hB := interchangeable_hostBisimulation.toBisimulation
  refine same_pop.bind fun v m₁ _ => ?_
  cases v with
  | closure f =>
    refine (same_classOnTop hB).bind fun r m₂ _ => ?_
    have rebuilt : (heap >>= fun h =>
        republish (withMethod name isStatic f (h.classes.get r)) >>= fun _ =>
          modifyHeap fun heap =>
            { heap with
              closures := heap.closures.set f
                { heap.closures.get f with
                  home := (h.classes.get r).name, homeSuper := (h.classes.get r).superclass } }) =
        withWorld (fun w =>
          ((rebuild r (withMethod name isStatic f) w).1,
            (rebuild r (withMethod name isStatic f) w).2.adopt f (w.heap.classes.get r))) >>= fun c =>
          replaceTop (.cls c) := rfl
    show Same Interchangeable (heap >>= _) m₂
    refine Eq.subst (motive := fun x => Same Interchangeable x m₂) rebuilt.symm ?_
    refine Same.bind (Parallel.same (parallel_rebuildAdopting f ?_ ?_ ?_) m₂) fun _ _ _ => same_replaceTop _
    · intro c tableId fields
      cases isStatic <;> rfl
    · intro c
      cases isStatic <;> rfl
    · intro c made
      cases isStatic
      · exact made.withMethod name f
      · exact ⟨made.once, made.init⟩
  | _ => exact same_failType hB _ _

/-- A field is declared alike, under its name. -/
theorem same_defineField (name : Text) (isConst : Bool) : Same Interchangeable (defineField name false isConst) m := by
  have hB := interchangeable_hostBisimulation.toBisimulation
  refine same_pop.bind fun initial m₁ _ => (same_classOnTop hB).bind fun r m₂ _ => ?_
  have rebuilt : (heap >>= fun h =>
      (withWorld fun w => w.draftField (h.classes.get r) name initial isConst) >>= fun draft =>
        republish draft >>= fun _ => Pure.pure ()) =
      withWorld (refield r name initial isConst) >>= fun c => replaceTop (.cls c) := rfl
  show Same Interchangeable (heap >>= _) m₂
  rw [rebuilt]
  exact ((parallel_refield name initial isConst).same m₂).bind fun _ _ _ => same_replaceTop _

/-- Whether a module is named to the log depends on settings that agree. -/
theorem same_importModule (i : Nat) : Same Interchangeable (importModule i) m := by
  have hB := interchangeable_hostBisimulation.toBisimulation
  refine .read (fun b hb => ?_) ?_
  · have enabled : (m.on b).world.log.enabled "vm" .debug = m.world.log.enabled "vm" .debug :=
      hb.log.enabled "vm" .debug
    rw [enabled]
  · split
    · exact (same_constantName hB i).bind fun name m₁ _ => same_note hB _ _
    · exact same_pure ()

end Backing.Interchangeable

/-- A move is the same on interchangeable backings, unless it calls a native function that tells a number. -/
theorem Activity.together_of_interchangeable {a : Activity}
    (silent : ∀ body, a.nativeCalled? = some body → body.tells = false) : a.Together Interchangeable := by
  have hB := interchangeable_hostBisimulation.toBisimulation
  refine together_of hB (fun i m₁ _ _ special => ?_) fun body called tells => ?_
  · have name : ∀ k, Same Interchangeable (constantName k) m₁ := same_constantName hB
    unfold Instruction.isSpecial at special
    unfold execute
    cases op : i.op with
    | importModule => exact same_andNext (Interchangeable.same_importModule _)
    | inherit => exact same_andNext Interchangeable.same_inherit
    | method => exact same_andNext ((name _).bind fun t _ _ => Interchangeable.same_defineMethod t false)
    | staticMethod => exact same_andNext ((name _).bind fun t _ _ => Interchangeable.same_defineMethod t true)
    | field => exact same_andNext ((name _).bind fun t _ _ => Interchangeable.same_defineField t false)
    | constField => exact same_andNext ((name _).bind fun t _ _ => Interchangeable.same_defineField t true)
    | _ =>
      rw [op] at special
      cases special
  · rw [silent body called] at tells
    cases tells

/-! ## Classes that a host builds -/

namespace Session

variable {b b' : Backing} {d d' : Class} {s s' : Session}

/-- A plan begins with corresponding drafts. -/
theorem drafts_draftIn (h : b.Interchangeable b') (plan : ClassPlan) :
    Akin.Drafts (s.draftIn plan b.world).2 (s.draftIn plan b'.world).2 (s.draftIn plan b.world).1
        (s.draftIn plan b'.world).1 ∧
      Interchangeable { b with world := (s.draftIn plan b.world).2 }
        { b' with world := (s.draftIn plan b'.world).2 } := by
  unfold draftIn
  cases plan.base.bind s.globalClass? with
  | some r => exact ⟨h.worlds.drafts_get r, h⟩
  | none =>
    have ref : (b'.world.heap.allocStatics).1 = b.world.heap.allocStatics.1 := by
      unfold Heap.allocStatics
      rw [h.worlds.resembles.statics]
    have started := parallel_onPools (g := Heap.allocStatics) interchangeable_hostBisimulation
      (fun p => ((p.statics.alloc Assoc.empty).1, { p with statics := (p.statics.alloc Assoc.empty).2 })) (fun _ => rfl)
      b b' h
    refine ⟨⟨?_, fun _ hd => absurd hd List.not_mem_nil, fun _ hd => absurd hd List.not_mem_nil,
      fun _ => Class.wellMade_bare _ _, fun _ => Class.wellMade_bare _ _⟩, started.2⟩
    simp only [World.draftClass, ref]
    exact Class.resembles_refl _

/-- The fields of a plan are declared alike. -/
theorem drafts_draftFields (h : b.Interchangeable b') (scope : Literal.Scope) (fields : List (Text × Literal × Bool))
    (drafts : Akin.Drafts b.world b'.world d d') :
    Akin.Drafts (draftFields scope fields d b.world).2 (draftFields scope fields d' b'.world).2
        (draftFields scope fields d b.world).1 (draftFields scope fields d' b'.world).1 ∧
      Interchangeable { b with world := (draftFields scope fields d b.world).2 }
        { b' with world := (draftFields scope fields d' b'.world).2 } := by
  induction fields generalizing b b' d d' with
  | nil => exact ⟨drafts, h⟩
  | cons f rest ih =>
    obtain ⟨name, initial, isConst⟩ := f
    obtain ⟨value, h₁⟩ := parallel_realise interchangeable_hostBisimulation scope initial b b' h
    have drafts₁ := drafts.evolve (blind_realise scope initial b.world).evolves
      (blind_realise scope initial b'.world).evolves
    obtain ⟨drafts₂, -⟩ := h₁.worlds.draftField drafts₁ name (initial.realise scope b.world).1 isConst
    simp only [draftFields, value]
    exact ih (h₁.intern name) drafts₂

/-- The methods of a plan do not depend on the number of the class. -/
theorem withMethods_blind (find : Text → Option (Ref .closure)) (c : Class) (named : List (Text × Text))
    (tableId : ShapeId) (fields : List FieldDecl) :
    withMethods find { c with tableId, fields } named = { withMethods find c named with tableId, fields } := by
  induction named generalizing c with
  | nil => rfl
  | cons f rest ih =>
    obtain ⟨name, global⟩ := f
    unfold withMethods
    rw [List.foldl_cons, List.foldl_cons]
    dsimp only
    split
    · exact ih (c.withMethod name _)
    · exact ih c

/-- Functions, classes and the superclass of a plan are added in the same way. -/
theorem drafts_furnish (h : b.Interchangeable b') (plan : ClassPlan)
    (drafts : Akin.Drafts b.world b'.world d d') :
    Akin.Drafts b.world b'.world (s.furnish plan d b.world) (s.furnish plan d' b'.world) := by
  have same : s.furnish plan d' b'.world = s.furnish plan d' b.world := by
    unfold furnish
    simp only [h.worlds.resembles.class_name]
  rw [same]
  refine drafts.map (g := fun c => s.furnish plan c b.world) (fun c tableId fields => ?_) (fun c => ?_)
    fun _ made => s.wellMade_furnish plan made b.world
  · unfold furnish
    rw [withMethods_blind]
  · unfold furnish
    rw [withMethods_eq]

theorem drafts_withSuper (plan : ClassPlan) (drafts : Akin.Drafts b.world b'.world d d') :
    Akin.Drafts b.world b'.world (s.withSuper plan d) (s.withSuper plan d') := by
  unfold withSuper
  cases plan.superclass.bind s.globalClass? with
  | some r =>
    exact drafts.map (g := fun c => { c with superclass := some r }) (fun _ _ _ => rfl) (fun _ => rfl)
      fun _ made => ⟨made.once, made.init⟩
  | none => exact drafts

/-- A host builds the same class in both worlds. -/
theorem parallel_buildClass (plan : ClassPlan) : Parallel Interchangeable (s.buildIn plan) := by
  intro b b' h
  obtain ⟨drafts, h⟩ := drafts_draftIn (s := s) h plan
  obtain ⟨drafts, h⟩ := drafts_draftFields h s.scope plan.fields (drafts_withSuper (s := s) plan drafts)
  obtain ⟨ref, h⟩ := h.publish (drafts_furnish (s := s) h plan drafts)
  obtain ⟨-, h⟩ := parallel_declareStatics interchangeable_hostBisimulation s.scope _ plan.statics _ _ h
  refine ⟨ref, ?_⟩
  unfold buildIn
  simp only [ref]
  exact h

/-- A class is built in the same way in interchangeable worlds. -/
theorem Twin.dispatch_buildClass (h : s.Twin Constant.Renumbered Interchangeable s') (plan : ClassPlan) :
    Corresponds Constant.Renumbered Interchangeable (s.dispatch (.buildClass plan))
      (s'.dispatch (.buildClass plan)) := by
  obtain ⟨value, twin⟩ := h.onWorld (parallel_buildClass (s := s) plan)
  have same : s'.buildIn plan = s.buildIn plan := by
    obtain ⟨b, machine, -⟩ := h.machine
    exact buildIn_congr (by rw [machine]; rfl) plan
  refine ⟨rfl, ?_⟩
  simp only [Session.dispatch, buildClass_eq, same, value]
  exact twin.define plan.global (.cls (s.buildIn plan s.machine.world).1)

end Session

end ScriptVm
