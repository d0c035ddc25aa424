import Mathlib.Data.List.Nodup
import ScriptVm.Proofs.InstructionHistory
import ScriptVm.Proofs.MirroredSessions
import ScriptVm.Proofs.OpenCells

/-!
# Captured variables are shared faithfully

A slot has at most one open cell, in every machine that comes up in a session, between two commands
or while one is carried out (`Machine.Occurs.orderly`). So all functions that capture a slot share
one cell, and that cell is as good as the slot: reading, assigning and giving the slot up cannot be
told from reading and assigning a variable.

The main result is `Machine.cells_are_shared_variables`.
-/

set_option autoImplicit false

namespace ScriptVm

open Machine Exec Variables

/-! ## One cell for a slot -/

namespace Variables

variable {c : Variables} {values : Array Value}

/-- Open cells are on their slots, no two of them on the same one. -/
structure Orderly (c : Variables) : Prop where
  sound : c.Sound
  apart : (c.openCells.map OpenCell.slot).Nodup

theorem Orderly.nothing (cells : Pool .cell Cell) : Orderly ⟨[], cells⟩ := ⟨nofun, List.nodup_nil⟩

/-- Giving slots up keeps the cells on the rest in order. -/
theorem Orderly.close (h : c.Orderly) (values : Array Value) (start : Nat) : (c.close values start).Orderly :=
  ⟨(closes_close h.sound values start).sound h.sound, h.apart.sublist (List.filter_sublist.map _)⟩

theorem Orderly.closeAll (h : c.Orderly) (values : Array Value) (starts : List Nat) :
    (c.closeAll values starts).Orderly := by
  induction starts generalizing c with
  | nil => exact h
  | cons start starts ih => exact ih (h.close values start)

/-- Cells on one slot are one cell. -/
theorem Orderly.unique (h : c.Orderly) {o o' : OpenCell} (ho : o ∈ c.openCells) (ho' : o' ∈ c.openCells)
    (same : o.slot = o'.slot) : o = o' :=
  List.inj_on_of_nodup_map h.apart ho ho' same

end Variables

namespace Exec

variable {m m' : Machine} {f : Frame} {rest : List Frame} {s : Nat} {r : Ref .cell}

/-- Capturing a slot that has a cell gives that cell. -/
theorem run_captureSlot_of_open (orderly : m.captured.Orderly) {o : OpenCell} (ho : o ∈ m.openCells) :
    (captureSlot o.slot).run m = .ok o.cell m := by
  cases found : m.openCells.find? fun o' => o'.slot = o.slot with
  | none => exact absurd (decide_eq_true rfl) (List.find?_eq_none.1 found o ho)
  | some o' =>
    have same : o' = o :=
      orderly.unique (List.mem_of_find?_eq_some found) ho (by simpa using List.find?_some found)
    unfold captureSlot
    rw [run_bind_of_ok (run_get m), found, same]
    rfl

/-- Capturing a slot without a cell makes one. -/
theorem run_captureSlot_of_free (free : ∀ o ∈ m.openCells, o.slot ≠ s) :
    (captureSlot s).run m =
      .ok (m.heap.cells.alloc (.onStack s)).1
        (m.withVariables
          { openCells := ⟨s, (m.heap.cells.alloc (.onStack s)).1⟩ :: m.openCells
            cells := (m.heap.cells.alloc (.onStack s)).2 }) := by
  have none : (m.openCells.find? fun o => o.slot = s) = none := by
    rw [List.find?_eq_none]
    exact fun o ho => by simpa using free o ho
  unfold captureSlot
  rw [run_bind_of_ok (run_get m), none]
  rfl

/-- A slot has its cell when it has been captured. -/
theorem captureSlot_opens (orderly : m.captured.Orderly) (s : Nat) :
    ∃ r m', (captureSlot s).run m = .ok r m' ∧ m'.captured.Orderly ∧ ⟨s, r⟩ ∈ m'.openCells ∧
      ∀ o ∈ m.openCells, o ∈ m'.openCells := by
  by_cases opened : ∃ o ∈ m.openCells, o.slot = s
  · obtain ⟨o, ho, rfl⟩ := opened
    exact ⟨o.cell, m, run_captureSlot_of_open orderly ho, orderly, ho, fun _ => id⟩
  · have free : ∀ o ∈ m.openCells, o.slot ≠ s := fun o ho same => opened ⟨o, ho, same⟩
    refine ⟨_, _, run_captureSlot_of_free free, ⟨?_, ?_⟩, .head _, fun o ho => .tail _ ho⟩
    · exact (captures_alloc m.captured (rfl : s = s) : Captures (s = ·) _ _).sound orderly.sound
    · refine List.nodup_cons.2 ⟨fun again => ?_, orderly.apart⟩
      obtain ⟨o, ho, same⟩ := List.mem_map.1 again
      exact free o ho same

/-- The new function has the open cell of each slot that it captures. -/
theorem captureAll_opens (orderly : m.captured.Orderly) (base : Nat) (cs : List Capture) :
    ∃ cells m', (captureAll base cs).run m = .ok cells m' ∧ m'.captured.Orderly ∧
      (∀ o ∈ m.openCells, o ∈ m'.openCells) ∧
      List.Forall₂ (fun c r => c.isLocal = true → ⟨base + c.index, r⟩ ∈ m'.openCells) cs cells := by
  induction cs generalizing m with
  | nil => exact ⟨[], m, rfl, orderly, fun _ => id, .nil⟩
  | cons c rest ih =>
    obtain ⟨r, m₁, first, orderly₁, kept₁, here⟩ : ∃ r m₁,
        (if c.isLocal then captureSlot (base + c.index) else ownCell c.index : Exec (Ref .cell)).run m = .ok r m₁ ∧
          m₁.captured.Orderly ∧ (∀ o ∈ m.openCells, o ∈ m₁.openCells) ∧
          (c.isLocal = true → ⟨base + c.index, r⟩ ∈ m₁.openCells) := by
      split
      next isLocal =>
        obtain ⟨r, m₁, run, orderly₁, here, kept⟩ := captureSlot_opens orderly (base + c.index)
        exact ⟨r, m₁, run, orderly₁, kept, fun _ => here⟩
      next own => exact ⟨_, m, rfl, orderly, fun _ => id, fun isLocal => absurd isLocal own⟩
    obtain ⟨cells, m₂, others, orderly₂, kept₂, there⟩ := ih orderly₁
    refine ⟨r :: cells, m₂, ?_, orderly₂, fun o ho => kept₂ o (kept₁ o ho), .cons (fun h => kept₂ _ (here h)) there⟩
    unfold captureAll
    simp only
    split
    next isLocal =>
      rw [if_pos isLocal] at first
      rw [run_bind_of_ok first, run_bind_of_ok others]
      rfl
    next own =>
      rw [if_neg own] at first
      rw [run_bind_of_ok first, run_bind_of_ok others]
      rfl

/-! ## Every instruction and every move -/

/-- What spares captured variables keeps them in order. -/
theorem Sparing.orderly {α : Type} {x : Exec α} (h : Sparing x m) (orderly : m.captured.Orderly) :
    (x.after m).captured.Orderly := by
  rw [h]
  exact orderly

/-- Two computations, one after the other, keep them in order. -/
theorem orderly_bind {α β : Type} {x : Exec α} {g : α → Exec β} (first : (x.after m).captured.Orderly)
    (next : ∀ v m', m'.captured.Orderly → ((g v).after m').captured.Orderly) :
    ((x >>= g).after m).captured.Orderly := by
  cases run : x.run m with
  | ok v m' =>
    rw [after_of_ok run] at first
    rw [after_bind run]
    exact next v m' first
  | error e m' =>
    rw [after_of_error run] at first
    rw [after_of_error (run_bind_of_error run)]
    exact first

/-- A new cell goes where its slot belongs. -/
theorem orderly_captureAll (orderly : m.captured.Orderly) (base : Nat) (cs : List Capture) :
    ((captureAll base cs).after m).captured.Orderly := by
  obtain ⟨cells, m', run, orderly', -⟩ := captureAll_opens orderly base cs
  rw [after_of_ok run]
  exact orderly'

theorem orderly_closure (orderly : m.captured.Orderly) (x y : UInt16) :
    ((execute ⟨.closure, x, y⟩).after m).captured.Orderly := by
  refine orderly_bind ?_ fun v m' => (plain_pushed (b := true) (n := 0) v).sparing.orderly
  refine orderly_bind ((plain_constant (b := true) (n := 0) x.toNat).sparing.orderly orderly) fun k m₁ h₁ => ?_
  cases k with
  | function p =>
    refine orderly_bind ((plain_frame (b := true) (n := 0)).sparing.orderly h₁) fun f m₂ h₂ => ?_
    exact orderly_bind (orderly_captureAll h₂ f.base p.captures) fun cells m₃ h₃ => h₃
  | _ => exact (plain_fail (b := true) (n := 0) _).sparing.orderly h₁

/-- Every instruction keeps captured variables in order. -/
theorem orderly_execute (i : Instruction) (frames : m.frames = f :: rest) (orderly : m.captured.Orderly) :
    ((execute i).after m).captured.Orderly := by
  obtain ⟨op, x, y⟩ := i
  by_cases closure : op = .closure
  · subst closure
    exact orderly_closure orderly x y
  by_cases ret : op = .ret
  · subst ret
    rw [show (execute ⟨.ret, x, y⟩).after m = returnFrom.after m from rfl, captured_ret frames]
    exact orderly.close _ _
  by_cases throwTop : op = .throwTop
  · subst throwTop
    rcases throwTop_cases m with ⟨h, hs, m', -, -, run, -, captured⟩ | ⟨e, m', run, keeps⟩
    · rw [show (execute ⟨.throwTop, x, y⟩).after m = m' from after_of_ok run, captured]
      exact orderly.closeAll _ _
    · rw [show (execute ⟨.throwTop, x, y⟩).after m = m' from after_of_error run, keeps.captured]
      exact orderly
  by_cases closeUpvalue : op = .closeUpvalue
  · subst closeUpvalue
    rw [show ((execute ⟨.closeUpvalue, x, y⟩).after m).captured = m.captured.close m.stack (m.stack.size - 1) from
      captured_closeCells m _]
    exact orderly.close _ _
  · have same : ((execute ⟨op, x, y⟩).after m).captured.openCells = m.captured.openCells :=
      openCells_execute frames closeUpvalue closure ret throwTop
    exact ⟨(turn_execute _ frames orderly.sound).sound orderly.sound, same ▸ orderly.apart⟩

end Exec

namespace Activity

variable {a b : Activity} {m : Machine}

/-- So does every move. -/
theorem orderly_step (standing : a.Standing) (orderly : a.machine.captured.Orderly) :
    a.step.machine.captured.Orderly := by
  rcases captured_step standing with ⟨p, i, m, f, rest, -, executing, after⟩ | ⟨-, starts, after⟩ | dropping
  · rw [after]
    exact orderly_execute i executing.frames (captured_fetched executing ▸ orderly)
  · rw [after]
    exact orderly.closeAll _ _
  · obtain ⟨e, m, step, captured⟩ := step_of_dropping dropping
    rw [step, show (Move.done (.error e) m).machine = m from rfl, captured]
    exact .nothing _

theorem HostEntry.orderly (entry : HostEntry m a) (orderly : m.captured.Orderly) : a.machine.captured.Orderly := by
  cases entry with
  | script p =>
    rw [captured_startScript]
    exact .nothing _
  | call callee args => exact orderly

/-- So does every run. -/
theorem Run.orderly {ok : Activity → Prop} {past : List Activity} (run : Run ok a past b) (entry : HostEntry m a)
    (orderly : m.captured.Orderly) : b.machine.captured.Orderly :=
  run.invariant (P := fun m => m.captured.Orderly) entry.standing (entry.orderly orderly) fun standing _ =>
    orderly_step standing

end Activity

/-! ## Sessions -/

namespace Session

open Activity

variable {s : Session}

/-- What the host does to the world leaves captured variables alone. -/
theorem captured_of_evolves {world : World} (evolves : World.Evolves s.machine.world world) :
    ({ s.machine with world } : Machine).captured = s.machine.captured :=
  congrArg (Variables.mk s.machine.openCells) evolves.cells

theorem cells_recordMethod (w : World) (site : Site) (k : CacheKey) (found : FoundMethod) :
    (w.recordMethod site k found).2.heap.cells = w.heap.cells := by
  unfold World.recordMethod
  simp only
  split
  · rfl
  · exact (World.evolves_noteRefused _ site k).cells

theorem orderly_realise (orderly : s.machine.captured.Orderly) (ls : List Literal) :
    (s.realise ls).2.machine.captured.Orderly := by
  rw [← captured_of_evolves (blind_realiseAll s.scope ls s.machine.world).evolves] at orderly
  exact orderly

theorem orderly_conclude {a : Activity} (orderly : s.machine.captured.Orderly) (entry : HostEntry s.machine a) :
    (s.conclude (a.run s.fuel)).2.machine.captured.Orderly := by
  unfold conclude
  split
  · exact orderly
  next o m answer =>
    obtain ⟨inner, b, run, ended⟩ := Run.ends .start answer
    have after : m.captured.Orderly := by
      have step := orderly_step (run.standing entry.standing) (run.orderly entry orderly)
      rw [ended] at step
      exact step
    cases o <;> exact after

/-- So does every command of a host. -/
theorem orderly_dispatch (orderly : s.machine.captured.Orderly) (c : Command) :
    (s.dispatch c).2.machine.captured.Orderly := by
  have realised : ∀ ls, (s.realise ls).2.machine.captured.Orderly := orderly_realise orderly
  cases c with
  | interpret script keepAs => exact orderly_conclude (s := { s with kept := _, machine := _ }) orderly (.script _)
  | interpretKept name =>
    simp only [dispatch]
    cases s.kept.get? name with
    | some p => exact orderly_conclude orderly (.script p)
    | none => exact orderly
  | callGlobal name args =>
    simp only [dispatch, Machine.callGlobal]
    split
    · exact orderly_conclude (realised args) (.call _ _)
    · exact realised args
  | callValue callee args => exact orderly_conclude (realised (callee :: args)) (.call _ _)
  | callMany callee count arg => exact orderly_conclude (realised [callee, arg]) (.call _ _)
  | getGlobal name =>
    simp only [dispatch]
    cases s.machine.globals.get? name <;> exact orderly
  | newMachine config =>
    show (Machine.fresh config preludeNatives s.machine.world).captured.Orderly
    rw [captured_fresh]
    exact .nothing _
  | reset => exact .nothing _
  | setGlobal name value => exact realised [value]
  | recordProperty site name shape offset =>
    have evolves := (World.blind_intern s.machine.world name).evolves.trans
      (World.evolves_recordProperty _ site ⟨(s.machine.world.intern name).1, shape⟩ offset)
    rw [← captured_of_evolves evolves] at orderly
    exact orderly
  | recordMethod site name table owner method =>
    have cells := (cells_recordMethod _ site ⟨((s.realise [method]).2.machine.world.intern name).1, table⟩
      ⟨owner, (s.realise [method]).1.headD .null⟩).trans
        (World.blind_intern (s.realise [method]).2.machine.world name).evolves.cells
    have before := realised [method]
    rw [show (s.realise [method]).2.machine.captured = _ from congrArg (Variables.mk s.machine.openCells) cells.symm]
      at before
    exact before
  | buildClass plan =>
    show (s.buildClass plan).machine.captured.Orderly
    rw [buildClass_eq]
    rw [← captured_of_evolves (s.blind_buildIn plan s.machine.world).evolves] at orderly
    exact orderly
  | clearOutput | clearDiagnostics | state => exact orderly

/-- Captured variables are in order in every session. -/
theorem Reachable.orderly (reachable : s.Reachable) : s.machine.captured.Orderly := by
  induction reachable with
  | start config level fuel =>
    show (Machine.fresh config preludeNatives _).captured.Orderly
    rw [captured_fresh]
    exact .nothing _
  | @perform s _ c ih => exact orderly_dispatch (s := s.withoutStreams) ih c

/-- A command enters a machine with orderly captured variables. -/
theorem hostEntry_of_entry {c : Command} {a : Activity} (orderly : s.machine.captured.Orderly)
    (entry : s.entry? c = some a) : ∃ m, HostEntry m a ∧ m.captured.Orderly := by
  have realised : ∀ ls, (s.realise ls).2.machine.captured.Orderly := orderly_realise orderly
  cases c with
  | interpret script keepAs =>
    cases entry
    exact ⟨_, .script _, orderly⟩
  | interpretKept name =>
    obtain ⟨p, -, rfl⟩ := Option.map_eq_some_iff.1 entry
    exact ⟨_, .script p, orderly⟩
  | callGlobal name args =>
    obtain ⟨callee, -, rfl⟩ := Option.map_eq_some_iff.1 entry
    exact ⟨_, .call callee _, realised args⟩
  | callValue callee args =>
    cases entry
    exact ⟨_, .call _ _, realised (callee :: args)⟩
  | callMany callee count arg =>
    cases entry
    exact ⟨_, .call _ _, realised [callee, arg]⟩
  | _ => cases entry

end Session

/-- The machine comes up in a session of a host: between two commands, or while one is carried out. -/
inductive Machine.Occurs : Machine → Prop where
  | between {s : Session} (reachable : s.Reachable) : Occurs s.machine
  | during {s : Session} {c : Command} {a b : Activity} {past : List Activity} (reachable : s.Reachable)
      (entry : s.withoutStreams.entry? c = some a) (run : Activity.Run (fun _ => True) a past b) : Occurs b.machine

namespace Machine

variable {m m' : Machine} {f : Frame} {rest : List Frame} {k : Nat} {r : Ref .cell}

/-- And in every machine that occurs. -/
theorem Occurs.orderly (occurs : m.Occurs) : m.captured.Orderly := by
  cases occurs with
  | between reachable => exact reachable.orderly
  | @during s c a b past reachable entry run =>
    obtain ⟨m, hostEntry, orderly⟩ := Session.hostEntry_of_entry (s := s.withoutStreams) reachable.orderly entry
    exact run.orderly hostEntry orderly

/-! ## Giving slots up -/

/-- In `m'` the cells of `m` on slots from `k` on have values of their own, and nobody can tell. -/
structure GivesUp (m : Machine) (k : Nat) (m' : Machine) : Prop where
  stack : m'.stack = m.stack
  openCells : m'.openCells = m.openCells.filter fun o => o.slot < k
  closed : ∀ o ∈ m.openCells, k ≤ o.slot → ∃ v, m'.heap.cells.get o.cell = .closed v
  others : ∀ r, (∀ o ∈ m.openCells, o.cell = r → o.slot < k) → m'.heap.cells.get r = m.heap.cells.get r
  reads : ∀ r, ∃ v, (readCell r).run m = .ok v m ∧ (readCell r).run m' = .ok v m'
  detached : ∀ r v, m'.heap.cells.get r = .closed v → m'.Detached r

/-- The cells from slot `k` on take their values over, and the others stay. -/
theorem givesUp_closeCells (sound : m.captured.Sound) (k : Nat) : m.GivesUp k (m.closeCells k) := by
  have captured := captured_closeCells m k
  have stack : (m.closeCells k).stack = m.stack := by
    rw [closeCells_eq]
    rfl
  have openCells : (m.closeCells k).openCells = m.openCells.filter fun o => o.slot < k :=
    congrArg Variables.openCells captured
  have cell : ∀ r,
      ((m.closeCells k).heap.cells.get r = m.heap.cells.get r ∧ ∀ o ∈ m.openCells, o.cell = r → o.slot < k) ∨
        ∃ o ∈ m.openCells, o.cell = r ∧ k ≤ o.slot ∧
          (m.closeCells k).heap.cells.get r = .closed (m.slot o.slot) := by
    intro r
    have closes := closes_close sound m.stack k
    rw [← captured] at closes
    have left : ∀ o, o ∈ (m.closeCells k).openCells ↔ o ∈ m.openCells ∧ o.slot < k := fun o => by
      rw [openCells, List.mem_filter, decide_eq_true_eq]
    rcases closes.cell r with ⟨same, kept⟩ | ⟨o, ho, cell, gone, closed⟩
    · exact .inl ⟨same, fun o ho cell => ((left o).1 (kept o ho cell)).2⟩
    · exact .inr ⟨o, ho, cell, Nat.le_of_not_lt fun below => gone ((left o).2 ⟨ho, below⟩), closed⟩
  refine ⟨stack, openCells, fun o ho above => ?_, fun r below => ?_, fun r => ?_, fun r v => detached_of_closed⟩
  · rcases cell o.cell with ⟨-, below⟩ | ⟨o', -, -, -, closed⟩
    · exact absurd (below o ho rfl) (Nat.not_lt.2 above)
    · exact ⟨_, closed⟩
  · rcases cell r with ⟨same, -⟩ | ⟨o, ho, same, above, -⟩
    · exact same
    · exact absurd (below o ho same) (Nat.not_lt.2 above)
  · refine ⟨m.valueOf r, run_readCell m r, ?_⟩
    rw [run_readCell]
    congr 1
    rcases cell r with ⟨same, -⟩ | ⟨o, ho, rfl, -, closed⟩
    · simp only [valueOf, same, slot, stack]
    · have before : m.heap.cells.get o.cell = .onStack o.slot := sound o ho
      simp only [valueOf, before, closed]

/-- The stack was cut to `depth` slots, whatever was pushed then, and no open cell is on a slot beyond. -/
structure CutBack (m : Machine) (depth : Nat) : Prop where
  cut : ∃ values : Array Value, values.size = depth ∧ (m.stack = values ∨ ∃ v, m.stack = values.push v)
  below : ∀ o ∈ m.openCells, o.slot < depth

/-- A return cuts the stack back to the slot of its callee. -/
theorem cutBack_ret (frames : m.frames = f :: rest) (x y : UInt16) :
    ((execute ⟨.ret, x, y⟩).after m).CutBack f.base := by
  rw [show (execute ⟨.ret, x, y⟩).after m = returnFrom.after m from rfl]
  constructor
  · obtain ⟨m', stacked, -, run⟩ := run_returnFrom frames
    have stack : m'.stack = resized m.stack.pop f.base := congrArg Stacks.values stacked
    refine ⟨resized m.stack.pop f.base, size_resized _ _, ?_⟩
    split at run
    · rw [after_of_ok run]
      exact .inl stack
    · rw [after_of_ok (show returnFrom.run m = .ok .next { m' with stack := m'.stack.push (m.result f) } from run), stack]
      exact .inr ⟨_, rfl⟩
  · intro o ho
    have ho : o ∈ (m.captured.close m.stack.pop f.base).openCells := captured_ret frames ▸ ho
    exact of_decide_eq_true (List.mem_filter.1 ho).2

/-- A throw cuts it back to the depth of the region that catches it. -/
theorem cutBack_throwTop {x y : UInt16} {p : Progress} (run : (execute ⟨.throwTop, x, y⟩).run m = .ok p m') :
    ∃ h ∈ m.handlers.head?, m'.CutBack h.stackDepth := by
  rcases throwTop_cases m with ⟨h, hs, m₁, handlers, -, run', stacked, captured⟩ | ⟨e, m₁, run', -⟩
  · cases run'.symm.trans run
    refine ⟨h, by rw [handlers]; rfl, ⟨resized m.stack.pop h.stackDepth, size_resized _ _, .inr ⟨m.top, ?_⟩⟩, ?_⟩
    · exact congrArg Stacks.values stacked
    · intro o ho
      have openCells : m'.openCells = _ := congrArg Variables.openCells captured
      rw [openCells] at ho
      exact slot_lt_of_mem_closeAll ho
  · cases run'.symm.trans run

/-- An error cuts it back to the depth of the entry. -/
theorem cutBack_unwindTo (sound : m.captured.Sound) (live : m.Live) (d : Depths) :
    (m.unwindTo d).CutBack (min m.stack.size d.stack) := by
  have stack : (m.unwindTo d).stack = m.stack.shrink d.stack := congrArg Stacks.values (stacked_unwindTo m d)
  refine ⟨⟨_, ?_, .inl stack⟩, fun o ho => ?_⟩
  · rw [Array.size_shrink]
    omega
  · have openCells : (m.unwindTo d).openCells = _ := congrArg Variables.openCells (captured_unwindTo m d)
    rw [openCells] at ho
    have below := slot_lt_of_mem_closeAll ho
    have before := live o ((closes_closeAll sound _ _).left o ho)
    omega

/-- Cells are faithful shared variables. Take any machine that comes up in a session. No two open cells
are on one slot. A return, a throw that is caught and an unwinding leave no cell open on a slot that
they cut off. If all open cells are on slots of the stack, then capturing a slot gives the cell that is open
on it, or else one more cell, so functions that capture a slot share its cell; reading and assigning
through an open cell is reading and writing its slot; and giving slots up closes the cells on them and no
others, changes no variable, and leaves nothing that the stack could change. -/
theorem cells_are_shared_variables (occurs : m.Occurs) :
    (m.openCells.map OpenCell.slot).Nodup ∧
    (∀ f rest x y, m.frames = f :: rest → ((execute ⟨.ret, x, y⟩).after m).CutBack f.base) ∧
    (∀ x y p m', (execute ⟨.throwTop, x, y⟩).run m = .ok p m' → ∃ h ∈ m.handlers.head?, m'.CutBack h.stackDepth) ∧
    (m.Live →
      (∀ d, (m.unwindTo d).CutBack (min m.stack.size d.stack)) ∧
      (∀ o ∈ m.openCells, (captureSlot o.slot).run m = .ok o.cell m) ∧
      (∀ s, (∀ o ∈ m.openCells, o.slot ≠ s) →
        ∃ r m', (captureSlot s).run m = .ok r m' ∧ m'.openCells = ⟨s, r⟩ :: m.openCells ∧ m'.stack = m.stack ∧
          ¬m.heap.cells.has r ∧ m'.heap.cells.get r = .onStack s) ∧
      (∀ base cs, ∃ cells m', (captureAll base cs).run m = .ok cells m' ∧
        (m'.openCells.map OpenCell.slot).Nodup ∧ (∀ o ∈ m.openCells, o ∈ m'.openCells) ∧
        List.Forall₂ (fun c r => c.isLocal = true → ⟨base + c.index, r⟩ ∈ m'.openCells) cs cells) ∧
      (∀ o ∈ m.openCells, m.Aliases o.cell o.slot) ∧
      ∀ k, m.GivesUp k (m.closeCells k)) := by
  have orderly := occurs.orderly
  refine ⟨orderly.apart, fun f rest x y frames => cutBack_ret frames x y, fun x y p m' => cutBack_throwTop,
    fun live => ⟨cutBack_unwindTo orderly.sound live, fun o => run_captureSlot_of_open orderly, fun s free => ?_,
      fun base cs => ?_, fun o ho => aliases_of_onStack (orderly.sound o ho), givesUp_closeCells orderly.sound⟩⟩
  · exact ⟨_, _, run_captureSlot_of_free free, rfl, rfl, Nat.lt_irrefl _, m.heap.cells.get_alloc_self _⟩
  · obtain ⟨cells, m', run, orderly', kept, shared⟩ := captureAll_opens orderly base cs
    exact ⟨cells, m', run, orderly'.apart, kept, shared⟩

/-- A script with two functions that capture the same local. -/
def sharingScript : Blueprint :=
  .function "main" 0 0 [] [] [.function (.function "get" 0 0 [] [⟨true, 1⟩] [] [])]
    [({ op := .pushTrue }, 1), ({ op := .closure, a := 0 }, 1), ({ op := .closure, a := 0 }, 1), ({ op := .ret }, 1)]

/-- A session that begins to run `sharingScript`. -/
def sharing : Activity :=
  ((Session.start {} .off 100).withoutStreams.entry? (.interpret sharingScript none)).getD default

/-- The second function of `sharingScript` got the cell that the first one had opened on slot 1, and no value
changes when slot 1 is given up. -/
theorem cells_are_shared_variables_in_sharing :
    (sharing.after 3).machine.Occurs ∧ (sharing.after 3).machine.openCells = [⟨1, ⟨0⟩⟩] ∧
      (captureSlot 1).run (sharing.after 3).machine = .ok ⟨0⟩ (sharing.after 3).machine ∧
      (sharing.after 3).machine.Aliases ⟨0⟩ 1 ∧
      (sharing.after 3).machine.GivesUp 1 ((sharing.after 3).machine.closeCells 1) := by
  have goes : ∀ k, k < 3 → Activity.goesOn (sharing.after k).step = true := by decide +kernel
  obtain ⟨past, run⟩ := Activity.run_after goes
  have occurs : (sharing.after 3).machine.Occurs :=
    .during (c := .interpret sharingScript none) (.start {} .off 100) rfl run
  have openCells : (sharing.after 3).machine.openCells = [⟨1, ⟨0⟩⟩] := by decide +kernel
  have mem : ⟨1, ⟨0⟩⟩ ∈ (sharing.after 3).machine.openCells := by rw [openCells]; exact .head _
  have live : (sharing.after 3).machine.Live := by
    intro o ho
    rw [openCells, List.mem_singleton] at ho
    rw [ho]
    decide +kernel
  obtain ⟨-, -, -, faithful⟩ := cells_are_shared_variables occurs
  obtain ⟨-, captured, -, -, aliases, givesUp⟩ := faithful live
  exact ⟨occurs, openCells, captured _ mem, aliases _ mem, givesUp 1⟩

end Machine

end ScriptVm
