import Mathlib.Data.List.Nodup
import ScriptVm.Proofs.CallsAndRegions
import ScriptVm.Proofs.MirroredSessions
import ScriptVm.Proofs.TableHistory

/-!
# Iterations

A loop opens an iteration with `getIter` and draws from it with `forIter`. Only the innermost iteration is
drawn from, and iterations are closed from the innermost one outwards, so an iteration that is still open is
as the last drawing has left it (`Activity.open_step`).

Keys and characters are fixed when the iteration is opened. The items of an array are those that it has when
they are drawn. `Activity.loops_yield_items` says so, whatever the machine does between two drawings, and
whatever is done to its world.
-/

set_option autoImplicit false

namespace ScriptVm

open Machine Exec

/-! ## What is iterated over -/

/-- What an iteration goes through. -/
inductive Iterable where
  /-- The items of an array, whatever they are when their turn comes. -/
  | array (r : Ref .array)
  /-- The items that there were at the beginning. -/
  | fixed (items : List Value)

namespace Iterable

/-- What a value is iterated over by: keys in the order of their insertion, and characters. -/
def of? (h : Heap) : Value → Option Iterable
  | .array r => some (.array r)
  | .hash r => some (.fixed ((h.tables.get r).keys.map Key.toValue))
  | .str t => some (.fixed ((Text.chars t).map .str))
  | _ => none

/-- The item with an index. -/
def item? (s : Iterable) (h : Heap) (k : Nat) : Option Value :=
  match s with
  | array r => (h.arrays.get r)[k]?
  | fixed items => items[k]?

/-- The iteration when `k` items have been drawn. -/
def behind (s : Iterable) (k : Nat) : Iteration :=
  match s with
  | array r => .live r k
  | fixed items => .snapshot (items.drop k)

/-- Drawing gives the next item. -/
theorem advance_behind (s : Iterable) (h : Heap) (k : Nat) :
    advance h (s.behind k) = (s.item? h k).map fun v => (v, s.behind (k + 1)) := by
  cases s with
  | array r => rfl
  | fixed items =>
    simp only [behind, item?]
    by_cases inside : k < items.length
    · rw [List.drop_eq_getElem_cons inside, List.getElem?_eq_getElem inside]
      rfl
    · rw [List.drop_eq_nil_of_le (Nat.le_of_not_lt inside), List.getElem?_eq_none (Nat.le_of_not_lt inside)]
      rfl

/-- If all items that have been drawn come from the beginning, the next one extends them. -/
theorem prefix_of_item? {items ys : List Value} {h : Heap} {v : Value} (drawn : ys <+: items)
    (next : (fixed items).item? h ys.length = some v) : ys ++ [v] <+: items := by
  obtain ⟨rest, rfl⟩ := drawn
  simp only [item?] at next
  rw [List.getElem?_append_right (Nat.le_refl _), Nat.sub_self] at next
  cases rest with
  | nil => cases next
  | cons w rest =>
    cases next
    refine ⟨rest, ?_⟩
    rw [List.append_assoc]
    rfl

/-- If there is no next item, all have been drawn. -/
theorem eq_of_item? {items ys : List Value} {h : Heap} (drawn : ys <+: items)
    (none : (fixed items).item? h ys.length = none) : ys = items :=
  drawn.eq_of_length_le (List.getElem?_eq_none_iff.1 none)

end Iterable

/-- The keys of a table are different values. -/
theorem Table.Made.nodup_keys {t : Table} (made : t.Made) : (t.keys.map Key.toValue).Nodup := by
  obtain ⟨es, steps, rfl⟩ := made
  refine List.Nodup.map ?_ (shows_run es steps).1.nodup
  intro k k' same
  have back := congrArg Key.ofValue? same
  rw [Key.ofValue?_toValue, Key.ofValue?_toValue] at back
  exact Option.some.inj back

/-! ## Jumps -/

namespace Exec

variable {m : Machine} {f : Frame} {rest : List Frame}

theorem run_modifyFrame (frames : m.frames = f :: rest) (g : Frame → Frame) :
    (modifyFrame g).run m = .ok () { m with frames := g f :: rest } := by
  cases m
  cases frames
  rfl

/-- A jump moves the innermost call on, and nothing else. -/
theorem run_jump (frames : m.frames = f :: rest) (n : Nat) :
    (jump n).run m = .ok () { m with frames := { f with ip := f.ip + n } :: rest } :=
  run_modifyFrame frames _

end Exec

/-! ## Runs -/

namespace Activity

variable {a b c x : Activity} {i : Instruction} {m : Machine} {v : Value} {src : Iterable} {d : Nat}

/-- The next move performs instruction `i`, and `m` is the machine that has fetched it. -/
structure Performs (a : Activity) (i : Instruction) (m : Machine) : Prop where
  control : a.control = .execute
  fetched : fetch.run a.machine = .ok i m

/-- The same activity in another world. -/
def inWorld (a : Activity) (w : World) : Activity := { a with machine := { a.machine with world := w } }

/-- What can come of an activity by moves, while other machines and hosts do anything to the world. -/
inductive Amid (a : Activity) : Activity → Prop
  | here : Amid a a
  | move {b c : Activity} (before : Amid a b) (step : b.step = .continue c) : Amid a c
  | world {b : Activity} (before : Amid a b) (w : World) : Amid a (b.inWorld w)

/-- The next move opens an iteration over the value `v`, which gives the items of `src`. -/
def Iterates (a : Activity) (v : Value) (src : Iterable) : Prop :=
  ∃ i m, a.Performs i m ∧ i.op = .getIter ∧ m.top = v ∧ Iterable.of? a.machine.heap v = some src

/-- The next move draws from the iteration that has `d` iterations around it. -/
def DrawsFrom (a : Activity) (d : Nat) : Prop :=
  a.machine.iterations.length = d + 1 ∧ ∃ i m, a.Performs i m ∧ i.op = .forIter

/-- What can come of an activity while the iteration with `d` iterations around it stays open, with the items
that have been drawn from it. Other machines and hosts may do anything to the world in between. -/
inductive Looping (a : Activity) (d : Nat) : List Value → Activity → Prop
  | here : Looping a d [] a
  | draw {ys : List Value} {b c : Activity} (before : Looping a d ys b) (draws : b.DrawsFrom d)
      (step : b.step = .continue c) (still : d < c.machine.iterations.length) :
      Looping a d (ys ++ [c.machine.top]) c
  | other {ys : List Value} {b c : Activity} (before : Looping a d ys b) (elsewhere : ¬b.DrawsFrom d)
      (step : b.step = .continue c) (still : d < c.machine.iterations.length) : Looping a d ys c
  | world {ys : List Value} {b : Activity} (before : Looping a d ys b) (w : World) : Looping a d ys (b.inWorld w)

/-- Nothing about entries depends on the world. -/
theorem Standing.inWorld (h : a.Standing) (w : World) : (a.inWorld w).Standing := ⟨h.nested, h.rooted, h.depth⟩

theorem Amid.standing (amid : a.Amid b) (h : a.Standing) : b.Standing := by
  induction amid with
  | here => exact h
  | move _ step ih => exact ih.step step
  | world _ w ih => exact ih.inWorld w

/-- A loop is busy with the innermost entry at every turn. -/
theorem Looping.standing {ys : List Value} (looping : a.Looping d ys x) (h : a.Standing) : x.Standing := by
  induction looping with
  | here => exact h
  | draw _ _ step _ ih => exact ih.step step
  | other _ _ step _ ih => exact ih.step step
  | world _ w ih => exact ih.inWorld w

/-! ## What a move does to the iterations -/

/-- The iterations after a move: some have been closed, one has been opened, or the innermost one has been
drawn from. -/
inductive Turned (a : Activity) : List Iteration → Prop
  | closed {its : List Iteration} (suffix : its <:+ a.machine.iterations) : Turned a its
  | opened (it : Iteration) : Turned a (it :: a.machine.iterations)
  | drawn {i : Instruction} {m : Machine} {it : Iteration} {head its : List Iteration} (performs : a.Performs i m)
      (op : i.op = .forIter) (current : a.machine.iterations = it :: its) (short : head.length ≤ 1) :
      Turned a (head ++ its)

/-- Iterations that stay as they are have not turned. -/
theorem turned_of_eq {its : List Iteration} (same : its = a.machine.iterations) : a.Turned its :=
  .closed (same ▸ List.suffix_refl _)

/-- An instruction opens an iteration, advances the innermost one, or closes some. -/
theorem turned_of_effect {f : Frame} {rest : List Frame} {out : Except Fault Progress} {s : Stacks}
    (performs : a.Performs i m) (stays : Stacks.Stays 0 a.machine.stacked m.stacked)
    (effect : Effect i m f rest out s) : a.Turned s.iterations := by
  have same : m.iterations = a.machine.iterations := stays.iterations
  cases effect with
  | stays _ _ stays => exact turned_of_eq (stays.iterations.trans same)
  | assignsLocal => exact turned_of_eq same
  | assignsCell => exact turned_of_eq same
  | enters _ stays => exact turned_of_eq (stays.iterations.trans same)
  | ends => exact .closed (same ▸ truncated_suffix _ _)
  | goesBack => exact .closed (same ▸ truncated_suffix _ _)
  | protects => exact turned_of_eq same
  | releases => exact turned_of_eq same
  | catches => exact .closed (same ▸ truncated_suffix _ _)
  | iterates op it =>
    show a.Turned (it :: m.iterations)
    rw [same]
    exact .opened it
  | advances op current head =>
    obtain ⟨head, rest, short⟩ := head
    rw [rest]
    exact .drawn performs op (same.symm.trans current) short

theorem Completed.turned {ps : List Pending} {byEntry : Bool} (completed : Completed m ps v byEntry b)
    (closed : m.iterations <:+ a.machine.iterations) : a.Turned b.machine.iterations := by
  cases completed <;> exact .closed closed

/-- A native function that goes on leaves the iterations. -/
theorem Resumed.turned {ps : List Pending} {caller : Caller} (resumed : Resumed m ps caller b)
    (closed : m.iterations <:+ a.machine.iterations) : a.Turned b.machine.iterations := by
  cases resumed with
  | returns _ completed => exact completed.turned closed
  | asks => exact .closed closed

/-- Asking the host leaves the iterations alone. -/
theorem closed_of_acted {c : HostCall} {m m' : Machine} (acted : Acted c m m') : m'.iterations <:+ m.iterations := by
  have same : m'.iterations = m.iterations := congrArg Stacks.iterations acted.stacked
  exact same ▸ List.suffix_refl _

/-- An error closes the iterations that the entry did not find. -/
theorem closed_unwound {m m' : Machine} {p : Pending} {e : RuntimeError}
    (stacked : m'.stacked = (unwound m p e).stacked) : m'.iterations <:+ m.iterations := by
  have same : m'.iterations = _ := congrArg Stacks.iterations (stacked.trans (stacked_unwound_eq m p e))
  rw [same]
  exact truncated_suffix _ _

/-- Every move opens an iteration, advances the innermost one, or closes some. -/
theorem turned_step (standing : a.Standing) (step : a.step = .continue b) : a.Turned b.machine.iterations := by
  cases standing.next step with
  | executed control executing effect =>
    exact turned_of_effect ⟨control, executing.fetched⟩ executing.stays effect
  | called control executing effect =>
    exact turned_of_effect ⟨control, executing.fetched⟩ executing.stays effect
  | entered _ stays => exact turned_of_eq stays.iterations
  | answered _ stays => exact turned_of_eq stays.iterations
  | reentered _ stays => exact turned_of_eq stays.iterations
  | completed _ acted completed => exact completed.turned (closed_of_acted acted)
  | calledBack _ acted => exact .closed (closed_of_acted acted)
  | told _ acted => exact .closed (closed_of_acted acted)
  | delivered _ _ resumed => exact resumed.turned (List.suffix_refl _)
  | recovered _ _ stacked _ resumed => exact resumed.turned (closed_unwound stacked)
  | rethrown _ _ _ _ stacked => exact .closed (closed_unwound stacked)

/-- An iteration that stays open is left alone by every move that does not draw from it. -/
theorem open_step {inner outer : List Iteration} {it : Iteration} (standing : a.Standing)
    (here : a.machine.iterations = inner ++ it :: outer) (elsewhere : ¬a.DrawsFrom outer.length)
    (step : a.step = .continue b) (still : outer.length < b.machine.iterations.length) :
    ∃ inner, b.machine.iterations = inner ++ it :: outer := by
  have turned := turned_step standing step
  generalize b.machine.iterations = its at turned still ⊢
  cases turned with
  | closed suffix =>
    rw [here] at suffix
    obtain ⟨closed, rest⟩ := suffix
    have around : it :: outer <:+ its := by
      have inside : it :: outer <:+ closed ++ its := by
        rw [rest]
        exact List.suffix_append _ _
      exact List.suffix_of_suffix_length_le inside (List.suffix_append _ _) still
    obtain ⟨inner, rfl⟩ := around
    exact ⟨inner, rfl⟩
  | opened first => exact ⟨first :: inner, by rw [here, List.cons_append]⟩
  | @drawn i m first head its performs op current short =>
    rw [here] at current
    cases inner with
    | nil =>
      refine absurd ⟨?_, i, m, performs, op⟩ elsewhere
      rw [here]
      rfl
    | cons other inner =>
      rw [List.cons_append, List.cons.injEq] at current
      refine ⟨head ++ inner, ?_⟩
      rw [← current.2, List.append_assoc]

/-! ## Opening and drawing -/

/-- What executing the instruction comes to. -/
theorem Performs.step (performs : a.Performs i m) : a.step =
    match (execute i).run m with
    | .ok .next m => .continue ⟨m, a.pending, .execute⟩
    | .ok (.returned v) m => .continue ⟨m, a.pending, .deliver v⟩
    | .ok (.reenter r) m => reenter m a.pending r false
    | .error f m => onFault f m a.pending := by
  have step := step_of_execute performs.control
  rw [stepExecute, run_bind_of_ok performs.fetched] at step
  exact step

/-- Fetching moves the innermost call on. -/
theorem Performs.stays (performs : a.Performs i m) : Stacks.Stays 0 a.machine.stacked m.stacked := by
  have stays := staying_fetch (m := a.machine)
  unfold Staying at stays
  rwa [after_of_ok performs.fetched] at stays

theorem Performs.heap_eq (performs : a.Performs i m) (op : i.op ≠ .ret) : m.heap = a.machine.heap := by
  obtain ⟨fs, -, rfl⟩ := fetched_eq performs.fetched op
  rfl

/-- An iteration over a value begins before its first item. -/
theorem run_openIteration (source : Iterable.of? m.heap v = some src) :
    (openIteration v).run m = .ok () { m with iterations := src.behind 0 :: m.iterations } := by
  unfold openIteration
  rw [run_bind_of_ok (run_get m)]
  cases v <;> cases source <;> rfl

/-- An iteration is opened in front of the others. -/
theorem Iterates.step (iterates : a.Iterates v src) : ∃ i m, a.Performs i m ∧
    a.step = .continue ⟨{ m with stack := m.stack.pop, iterations := src.behind 0 :: a.machine.iterations },
      a.pending, .execute⟩ := by
  obtain ⟨⟨op, x, y⟩, m, performs, rfl, rfl, source⟩ := iterates
  refine ⟨_, m, performs, ?_⟩
  rw [← performs.heap_eq nofun] at source
  have same : m.iterations = a.machine.iterations := performs.stays.iterations
  have run : (execute ⟨.getIter, x, y⟩).run m =
      .ok .next { m with stack := m.stack.pop, iterations := src.behind 0 :: m.iterations } := by
    show (andNext (do openIteration (← pop))).run m = _
    unfold andNext
    rw [EStateM.run_bind, run_bind_of_ok (run_pop m), run_openIteration (m := { m with stack := m.stack.pop }) source]
    rfl
  rw [performs.step, run, same]

/-- What drawing from the innermost iteration comes to: the next item is pushed, or the iteration is closed and the
loop is left. -/
theorem Performs.draws {f : Frame} {rest : List Frame} (performs : a.Performs i m) (op : i.op = .forIter)
    (frames : m.frames = f :: rest) {outer : List Iteration} {k : Nat}
    (current : a.machine.iterations = src.behind k :: outer) : a.step =
      match src.item? a.machine.heap k with
      | some v =>
        .continue ⟨{ m with stack := m.stack.push v, iterations := src.behind (k + 1) :: outer }, a.pending, .execute⟩
      | none =>
        .continue ⟨{ m with frames := { f with ip := f.ip + i.a.toNat } :: rest, iterations := outer },
          a.pending, .execute⟩ := by
  obtain ⟨op', x, y⟩ := i
  cases op
  have same : m.iterations = src.behind k :: outer := performs.stays.iterations.trans current
  have next := run_nextItem m
  rw [same] at next
  simp only [src.advance_behind, performs.heap_eq nofun] at next
  rw [performs.step]
  cases item : src.item? a.machine.heap k with
  | some v =>
    rw [item] at next
    have run : (execute ⟨.forIter, x, y⟩).run m =
        .ok .next { m with stack := m.stack.push v, iterations := src.behind (k + 1) :: outer } :=
      run_bind_of_ok next
    rw [run]
  | none =>
    rw [item] at next
    have left := run_jump (m := { m with iterations := outer }) frames x.toNat
    have run : (execute ⟨.forIter, x, y⟩).run m =
        .ok .next { m with frames := { f with ip := f.ip + x.toNat } :: rest, iterations := outer } :=
      (run_bind_of_ok next).trans (run_bind_of_ok left)
    rw [run]

/-- What is known of an iteration that is still open. -/
structure Tracks (src : Iterable) (outer : List Iteration) (ys : List Value) (x : Activity) : Prop where
  place : ∃ inner, x.machine.iterations = inner ++ src.behind ys.length :: outer
  drawn : ∀ items, src = .fixed items → ys <+: items

/-- At the loop itself, the innermost iteration is behind the items that have been drawn. -/
theorem Tracks.current {outer : List Iteration} {ys : List Value} (tracks : Tracks src outer ys x)
    (depth : x.machine.iterations.length = outer.length + 1) :
    x.machine.iterations = src.behind ys.length :: outer := by
  obtain ⟨inner, place⟩ := tracks.place
  have innermost : inner = [] := by
    rw [place, List.length_append, List.length_cons] at depth
    exact List.length_eq_zero_iff.1 (by omega)
  rw [place, innermost, List.nil_append]

/-- The machine that executes an instruction has a call under way. -/
theorem Performs.frames (performs : a.Performs i m) (standing : a.Standing) : ∃ f rest, m.frames = f :: rest := by
  obtain ⟨p, i', m', f, rest, executing⟩ := standing.executing performs.control
  have same := executing.fetched.symm.trans performs.fetched
  cases same
  exact ⟨f, rest, executing.frames⟩

/-- Drawing gives the item that comes next. -/
theorem Tracks.draw {outer : List Iteration} {ys : List Value} (tracks : Tracks src outer ys b) (standing : b.Standing)
    (draws : b.DrawsFrom outer.length) (step : b.step = .continue c)
    (still : outer.length < c.machine.iterations.length) : Tracks src outer (ys ++ [c.machine.top]) c := by
  obtain ⟨depth, i, m, performs, op⟩ := draws
  obtain ⟨f, rest, frames⟩ := performs.frames standing
  have drawn := performs.draws op frames (tracks.current depth)
  rw [step] at drawn
  cases item : src.item? b.machine.heap ys.length with
  | none =>
    rw [item] at drawn
    cases drawn
    exact absurd still (Nat.lt_irrefl _)
  | some v =>
    rw [item] at drawn
    cases drawn
    have top : Machine.top { m with stack := m.stack.push v, iterations := src.behind (ys.length + 1) :: outer } = v := by
      unfold Machine.top
      rw [Array.back?_push]
      rfl
    rw [top]
    refine ⟨⟨[], ?_⟩, ?_⟩
    · rw [List.length_append]
      rfl
    · rintro items rfl
      exact Iterable.prefix_of_item? (tracks.drawn items rfl) item

/-- By induction on the turns, the iteration of a loop is behind the items that the loop has drawn. -/
theorem Looping.tracks {outer : List Iteration} {ys : List Value} (looping : a.Looping outer.length ys x)
    (standing : a.Standing) (opened : a.machine.iterations = src.behind 0 :: outer) : Tracks src outer ys x := by
  induction looping with
  | here => exact ⟨⟨[], opened⟩, fun items _ => List.nil_prefix⟩
  | draw before draws step still ih => exact ih.draw (before.standing standing) draws step still
  | other before elsewhere step still ih =>
    obtain ⟨inner, place⟩ := ih.place
    exact ⟨open_step (before.standing standing) place elsewhere step still, ih.drawn⟩
  | world _ w ih => exact ⟨ih.place, ih.drawn⟩

end Activity

theorem Session.standing_entry {s : Session} {c : Command} {a : Activity} (entry : s.entry? c = some a) :
    a.Standing := by
  cases c with
  | interpret script keepAs =>
    cases entry
    exact Activity.standing_startScript _ _
  | interpretKept name =>
    obtain ⟨p, -, rfl⟩ := Option.map_eq_some_iff.1 entry
    exact Activity.standing_startScript _ _
  | callGlobal name args =>
    obtain ⟨callee, -, rfl⟩ := Option.map_eq_some_iff.1 entry
    exact Activity.standing_startCall _ _ _
  | callValue callee args =>
    cases entry
    exact Activity.standing_startCall _ _ _
  | callMany callee count arg =>
    cases entry
    exact Activity.standing_startCall _ _ _
  | _ => cases entry

namespace Activity

/-- **Loops yield what there is to iterate over.** Take any run that a host has started, and any move of it that opens
an iteration, with anything done to the world in between by others. As long as the iteration is open, whatever the
machine does, the items drawn from it are the keys of the hash or the characters of the text from the beginning, each
once and in order, and the iterations around it stay as they are. (No key comes twice in a table that has been `Made`,
as all tables of a session have: `Session.Reachable.tablesMade`.) When it is the innermost one again, drawing from it
pushes the next item and goes on behind the instruction, which for an array is the item that has this index then. If
there is no such item, drawing closes this iteration and no other, and goes on as far ahead as the operand says; a hash
or a text has then been drawn completely. -/
theorem loops_yield_items {s : Session} {c : Command} {a₀ a : Activity} {v : Value} {src : Iterable}
    (entry : s.entry? c = some a₀) (amid : a₀.Amid a) (iterates : a.Iterates v src) :
    ∃ b, a.step = .continue b ∧ b.machine.iterations = src.behind 0 :: a.machine.iterations ∧
      ∀ ys x, b.Looping a.machine.iterations.length ys x →
        (∃ inner, x.machine.iterations = inner ++ src.behind ys.length :: a.machine.iterations) ∧
        (∀ items, src = .fixed items → ys <+: items) ∧
        (∀ r, v = .hash r → (a.machine.heap.tables.get r).Made → ys.Nodup) ∧
        ∀ i m, x.Performs i m → i.op = .forIter → x.machine.iterations.length = a.machine.iterations.length + 1 →
          ∃ f rest, m.frames = f :: rest ∧
            match src.item? x.machine.heap ys.length with
            | some w =>
              x.step = .continue ⟨{ m with
                stack := m.stack.push w
                iterations := src.behind (ys.length + 1) :: a.machine.iterations }, x.pending, .execute⟩
            | none =>
              x.step = .continue ⟨{ m with
                frames := { f with ip := f.ip + i.a.toNat } :: rest
                iterations := a.machine.iterations }, x.pending, .execute⟩ ∧
              ∀ items, src = .fixed items → ys = items := by
  have standing : a.Standing := amid.standing (Session.standing_entry entry)
  obtain ⟨i, m, performs, step⟩ := iterates.step
  refine ⟨_, step, rfl, ?_⟩
  intro ys x looping
  have tracks := looping.tracks (standing.step step) rfl
  refine ⟨tracks.place, tracks.drawn, ?_, ?_⟩
  · rintro r rfl made
    obtain ⟨-, -, -, -, -, source⟩ := iterates
    have items := tracks.drawn _ (Option.some.inj source).symm
    exact items.sublist.nodup made.nodup_keys
  · intro i m performs op depth
    obtain ⟨f, rest, frames⟩ := performs.frames (looping.standing (standing.step step))
    refine ⟨f, rest, frames, ?_⟩
    have draws := performs.draws op frames (tracks.current depth)
    cases item : src.item? x.machine.heap ys.length with
    | some w =>
      rw [item] at draws
      exact draws
    | none =>
      rw [item] at draws
      refine ⟨draws, ?_⟩
      rintro items rfl
      exact Iterable.eq_of_item? (tracks.drawn items rfl) item

/-- A script that goes through the characters of a text. -/
def spellingScript : Blueprint :=
  .function "main" 0 0 [] [] [.plain (.text "ab")]
    [({ op := .constant, a := 0 }, 1), ({ op := .getIter }, 1), ({ op := .forIter, a := 2 }, 1), ({ op := .pop }, 1),
      ({ op := .loop, a := 3 }, 1), ({ op := .pushNull }, 2), ({ op := .ret }, 2)]

/-- A session that begins to run `spellingScript`. -/
def spelling : Activity :=
  ((Session.start {} .off 100).withoutStreams.entry? (.interpret spellingScript none)).getD default

/-- The instruction that comes next. -/
def nextOp? (a : Activity) : Option OpCode :=
  match a.control, fetch.run a.machine with
  | .execute, .ok i _ => some i.op
  | _, _ => none

theorem performs_of_nextOp? {a : Activity} {op : OpCode} (next : a.nextOp? = some op) :
    ∃ i m, a.Performs i m ∧ i.op = op := by
  unfold nextOp? at next
  split at next
  next i m control fetched =>
    cases next
    exact ⟨i, m, ⟨control, fetched⟩, rfl⟩
  next => cases next

/-- The first drawing of `spellingScript` gives the first character. -/
theorem spelling_draws_first_character :
    (spelling.after 1).Iterates (.str "ab") (.fixed [.str "a", .str "b"]) ∧
      (spelling.after 2).Looping 0 [(spelling.after 3).machine.top] (spelling.after 3) ∧
      (spelling.after 3).machine.top = .str "a" := by
  have goes : ∀ k, k < 3 → goesOn (spelling.after k).step = true := by decide +kernel
  have amid : spelling.Amid (spelling.after 1) := .move .here (step_after (n := 0) (goes 0 (by decide)))
  have iterates : (spelling.after 1).Iterates (.str "ab") (.fixed [.str "a", .str "b"]) := by
    have next : (spelling.after 1).nextOp? = some .getIter := by decide +kernel
    obtain ⟨i, m, performs, op⟩ := performs_of_nextOp? next
    refine ⟨i, m, performs, op, ?_, rfl⟩
    have text : Key.ofValue? (spelling.after 1).machine.top = some (.text "ab") := by decide +kernel
    obtain ⟨fs, -, rfl⟩ := fetched_eq performs.fetched (by rw [op]; nofun)
    exact Key.ofValue?_inj text rfl
  have draws : (spelling.after 2).DrawsFrom 0 :=
    ⟨by decide +kernel, performs_of_nextOp? (by decide +kernel)⟩
  obtain ⟨b, step, opened, holds⟩ := loops_yield_items (s := (Session.start {} .off 100).withoutStreams)
    (c := .interpret spellingScript none) rfl amid iterates
  rw [step_after (goes 1 (by decide))] at step
  cases step
  have outer : (spelling.after 1).machine.iterations.length = 0 := by decide +kernel
  have looping : (spelling.after 2).Looping 0 ([] ++ [(spelling.after 3).machine.top]) (spelling.after 3) :=
    .draw .here draws (step_after (goes 2 (by decide))) (by decide +kernel)
  obtain ⟨-, drawn, -⟩ := holds _ _ (outer ▸ looping)
  obtain ⟨rest, same⟩ := drawn _ rfl
  exact ⟨iterates, looping, (List.cons.inj same).1⟩

end Activity

end ScriptVm
