import ScriptVm.Proofs.RenumberedMachines

/-!
# New machines on used registries

The symbol table, the shapes, the caches and the counters outlive the machines that filled them. A new
machine that starts on what earlier programs have left runs every session as it would on any other such
remains: it gets other numbers, finds other shapes, some of them sealed, and caches with entries about
classes that are gone, and none of this shows, except to those who ask for it.
-/

set_option autoImplicit false

namespace ScriptVm

open World Logging Backing

/-! ## What earlier programs leave -/

/-- The world that is left when all objects are gone, with another log. -/
def World.vacated (w : World) (log : Logging) : World :=
  { symbols := w.symbols, shapes := w.shapes, caches := w.caches, nextProto := w.nextProto, log }

/-- What the registries keep. -/
structure World.Lasting (w : World) : Prop where
  regular : w.Regular
  paired : w.symbols.Paired
  caches : w.MethodCachesSound

namespace World.Lasting

variable {w w' : World}

theorem change (c : Change w w') (h : w.Lasting) : w'.Lasting := by
  refine ⟨c.regular h.regular, ?_, c.methodCachesSound h.regular h.caches⟩
  cases c with
  | intern name => exact h.paired.intern name
  | newObject cls =>
    rw [newObject_eq]
    exact h.paired
  | setField r s v =>
    rw [setField_eq]
    exact h.paired
  | setFieldAt r offset s v _ done =>
    obtain ⟨fields, -, rfl⟩ := (setFieldAt?_eq_some_iff ..).1 done
    exact h.paired
  | _ => exact h.paired

theorem law : Session.Law Lasting where
  change := change
  cells _ h :=
    ⟨⟨h.regular.symbols, h.regular.shapes, h.regular.rows, h.regular.tables, h.regular.distinct⟩, h.paired,
      h.caches.congr rfl rfl rfl rfl⟩
  cleared h :=
    ⟨⟨h.regular.symbols, h.regular.shapes, h.regular.rows, h.regular.tables, h.regular.distinct⟩, h.paired,
      h.caches.congr rfl rfl rfl rfl⟩

theorem initial (log : Logging) : Lasting { log } :=
  ⟨regular_initial log, SymbolTable.paired_empty, fun _ _ _ _ h => absurd h (by simp [Assoc.get?_empty])⟩

/-- The registries without any objects. -/
theorem vacated_lawful (h : w.Lasting) (log : Logging) : (w.vacated log).Lawful where
  regular :=
    { symbols := h.regular.symbols
      shapes := h.regular.shapes
      rows := fun _ => ShapedObject.fits_empty h.regular.shapes
      tables := fun _ known => absurd known (Nat.not_lt_zero _)
      distinct := fun _ _ known => absurd known (Nat.not_lt_zero _) }
  paired := h.paired
  covers _ _ he := absurd he List.not_mem_nil
  declares _ _ hd := absurd hd List.not_mem_nil

/-- What the caches hold of classes that are gone does no harm. -/
theorem vacated_caches (h : w.Lasting) (log : Logging) : (w.vacated log).MethodCachesSound := by
  intro site cache k found hc hk
  obtain ⟨positive, bound, -⟩ := h.caches site cache k found hc hk
  exact ⟨positive, bound, fun _ known => absurd known (Nat.not_lt_zero _)⟩

/-- Whatever the registries hold, without objects the worlds are interchangeable. -/
theorem interchangeable (h : w.Lasting) (h' : w'.Lasting) {log : Logging} (capturing : log.Capturing) :
    Interchangeable ⟨{}, w.vacated log⟩ ⟨{}, w'.vacated log⟩ where
  worlds :=
    { pools := rfl
      closures := Pool.pairs_refl (fun _ => ⟨.refl _, rfl, rfl, rfl⟩) _
      classes := Pool.pairs_refl Class.resembles_refl _
      objects := Pool.pairs_refl (P := fun o o' : Instance => o'.cls = o.cls) (fun _ => rfl) _
      rows := fun _ => rfl
      own := h.vacated_lawful log
      other := h'.vacated_lawful log }
  log := capturing.agree
  caches := h.vacated_caches log
  others := h'.vacated_caches log

end World.Lasting

/-! ## Sessions -/

/-- Whether the command looks at the registries or records something in the caches. -/
def Command.looksInside : Command → Bool
  | .state | .recordProperty .. | .recordMethod .. => true
  | _ => false

/-- Whether the next move calls a native function that tells the number of a shape or method table. -/
def Activity.tellsNumber (a : Activity) : Bool :=
  match a.nativeCalled? with
  | some body => body.tells
  | none => false

namespace Session

/-- The session with a shape sealed. -/
def sealing (s : Session) (id : ShapeId) : Session :=
  { s with
    machine := { s.machine with
      world := { s.machine.world with shapes := s.machine.world.shapes.sealShape id } } }

/-- What earlier programs can come to: any commands, methods recorded from outside apart, and any shapes
sealed at any time. -/
inductive Earlier : Session → Prop where
  | start (config : Config) (level : Level) (fuel : Nat) : Earlier (Session.start config level fuel)
  | perform {s : Session} (h : Earlier s) {c : Command} (host : c.recordsMethod = false) : Earlier (s.perform c).2
  | sealing {s : Session} (h : Earlier s) (id : ShapeId) : Earlier (s.sealing id)

/-- A session with a new machine on the registries that are left of an earlier one. -/
def startAfter (earlier : Session) (config : Config) (level : Level) (fuel : Nat) : Session :=
  let log : Logging := { level, sinks := [.capture], started := true }
  { machine := Machine.fresh config preludeNatives (earlier.machine.world.vacated log), fuel }

variable {e e' : Session}

theorem Earlier.lasting (earlier : e.Earlier) : e.machine.world.Lasting := by
  induction earlier with
  | start config level fuel =>
    exact Lasting.law.evolves (evolves_foldl_withNative preludeNatives _).1 (.initial _)
  | perform _ host ih => exact Lasting.law.perform ih host
  | sealing _ id ih => exact ih.change (.sealShape _ id)

theorem twin_startAfter (earlier : e.Earlier) (earlier' : e'.Earlier) (config : Config) (level : Level) (fuel : Nat) :
    (e.startAfter config level fuel).Twin Constant.Renumbered Interchangeable (e'.startAfter config level fuel) where
  machine := twin_fresh interchangeable_hostBisimulation
    (earlier.lasting.interchangeable earlier'.lasting ⟨rfl, rfl⟩) config preludeNatives
  kept := kept_refl likeness_renumbered Assoc.empty
  fuel := rfl

/-- What there is to see of a step: the reply without statistics and log records, and the rows of all
instances, names and values in the order of storage. -/
def shown (r : Reply × Session) : Reply × (Ref .object → List (Option Text × Value)) :=
  (r.1.unlogged, r.2.machine.world.row)

/-- The registries carry nothing from one program to the next. Take the symbols, shapes, caches and
counters that any two earlier sessions leave, whatever shapes have been sealed, and start a new machine
on each, with the same configuration. Let both go through the same commands, which do not look at the
registries, and let no program ask for the number of a shape or method table. Then the replies to every
command are the same, statistics and log records apart, and so are the rows of all instances. -/
theorem registries_carry_nothing (earlier : e.Earlier) (earlier' : e'.Earlier) (config : Config) (level : Level)
    (fuel : Nat) {cs : List Command} (outside : ∀ c ∈ cs, c.looksInside = false)
    (silent : ∀ a ∈ (e.startAfter config level fuel).activities cs, a.tellsNumber = false) :
    ((e'.startAfter config level fuel).history cs).map shown =
      ((e.startAfter config level fuel).history cs).map shown := by
  have together : ∀ a ∈ (e.startAfter config level fuel).activities cs, a.Together Interchangeable := by
    intro a ha
    refine Activity.together_of_interchangeable fun body called => ?_
    have tells := silent a ha
    unfold Activity.tellsNumber at tells
    rwa [called] at tells
  have special : ∀ c ∈ cs, c.isSpecial = true → ∀ s s' : Session, s.Twin Constant.Renumbered Interchangeable s' →
      Corresponds Constant.Renumbered Interchangeable (s.dispatch c) (s'.dispatch c) := by
    intro c hc special s s' twin
    have outside := outside c hc
    cases c with
    | buildClass plan => exact twin.dispatch_buildClass plan
    | state | recordProperty | recordMethod => cases outside
    | _ => cases special
  have twins := twin_history interchangeable_hostBisimulation (twin_startAfter earlier earlier' config level fuel)
    together special
  rw [← List.forall₂_eq_eq_eq, List.forall₂_map_left_iff, List.forall₂_map_right_iff]
  refine twins.flip.imp fun r' r twin => ?_
  obtain ⟨b, machine, hb⟩ := twin.session.machine
  refine Prod.ext twin.reply (funext fun o => ?_)
  have row := hb.worlds.rows o
  simp only [shown, machine]
  exact row

/-- A class with the field `x`, and an instance of it that gets a field `y`. -/
def plotting : List Command :=
  [.buildClass { global := "Point", name := "Point", fields := [("x", .int 5, false)] },
    .interpret (.function "main" 0 0 [] []
      [.plain (.text "Point"), .plain (.text "p"), .plain (.text "y"), .plain (.int 7)]
      [({ op := .getGlobal, a := 0 }, 1), ({ op := .new, a := 0 }, 1), ({ op := .defineGlobal, a := 1 }, 1),
        ({ op := .getGlobal, a := 1 }, 2), ({ op := .constant, a := 3 }, 2), ({ op := .setProperty, a := 2 }, 2),
        ({ op := .pop }, 2), ({ op := .getGlobal, a := 1 }, 3), ({ op := .ret }, 3)]) none]

/-- A session that has used other names, with the shape of objects without fields sealed. -/
def sealedSession : Session :=
  ((Session.start {} .info 100).perform (.buildClass
    { global := "Pair", name := "Pair", fields := [("y", .int 1, false), ("z", .null, true)] })).2.sealing 0

theorem registries_carry_nothing_plotting :
    sealedSession.machine.world.symbols.lookup "y" = some 0 ∧ sealedSession.machine.world.shapes.isSealed 0 = true ∧
      (∀ a ∈ ((Session.start {} .off 100).startAfter {} .off 100).activities plotting, a.tellsNumber = false) ∧
      ((sealedSession.startAfter {} .off 100).history plotting).map shown =
        (((Session.start {} .off 100).startAfter {} .off 100).history plotting).map shown := by
  have outside : ∀ c ∈ plotting, c.looksInside = false := by
    intro c hc
    simp only [plotting, List.mem_cons, List.not_mem_nil, or_false] at hc
    rcases hc with rfl | rfl <;> rfl
  have silent : ∀ a ∈ ((Session.start {} .off 100).startAfter {} .off 100).activities plotting,
      a.tellsNumber = false := by decide +kernel
  refine ⟨by decide +kernel, by decide +kernel, silent, ?_⟩
  exact registries_carry_nothing (.start {} .off 100) (.sealing (.perform (.start {} .info 100) rfl) 0) {} .off 100
    outside silent

end Session

end ScriptVm
