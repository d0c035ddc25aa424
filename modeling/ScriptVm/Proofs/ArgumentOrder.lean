import Mathlib.Data.List.Nodup
import ScriptVm.Proofs.RequiredParameters

/-!
# The order of arguments

A window of arguments is read from left to right. A mark takes the next value, whatever it is, and
makes a pair with it; every other value is positional. `Parses` says what a window is read as, and
`Dangling` that it ends in a mark which nothing follows.

`Exec.reorder_is_exact` says when a window with marks can be put into the order of the parameters
and what the result is. Only the positional values in their order and the set of pairs matter for it,
so pairs may stand anywhere.
-/

set_option autoImplicit false

namespace ScriptVm.NamedArgs

variable {params : List Text} {g g' : Given} {window window' args args' : List Value} {i : Nat} {v : Value}

/-! ## Reading a window -/

/-- The window is read as the arguments `g`. -/
inductive Parses : List Value → Given → Prop where
  | nil : Parses [] {}
  | positional {v : Value} {rest : List Value} {g : Given} (unmarked : v.isNamedArg = false) (tail : Parses rest g) :
    Parses (v :: rest) { g with positional := v :: g.positional }
  | pair {name : Text} {v : Value} {rest : List Value} {g : Given} (tail : Parses rest g) :
    Parses (.namedArg name :: v :: rest) { g with named := (name, v) :: g.named }

/-- The last value is a mark, and what stands before it can be read. -/
def Dangling (window : List Value) : Prop := ∃ front name g, window = front ++ [.namedArg name] ∧ Parses front g

theorem isNamedArg_of_ne (h : ∀ name, v = .namedArg name → False) : v.isNamedArg = false := by
  cases v with
  | namedArg name => exact (h name rfl).elim
  | _ => rfl

theorem sortOut_cons (unmarked : v.isNamedArg = false) (rest : List Value) :
    sortOut (v :: rest) =
      match sortOut rest with
      | .ok g => .ok { g with positional := v :: g.positional }
      | .error c => .error c := by
  cases v with
  | namedArg name => cases unmarked
  | _ => rfl

theorem sortOut_of_parses (h : Parses window g) : sortOut window = .ok g := by
  induction h with
  | nil => rfl
  | positional unmarked _ ih => rw [sortOut_cons unmarked, ih]
  | pair _ ih => simp only [sortOut, ih]

theorem parses_of_sortOut (h : sortOut window = .ok g) : Parses window g := by
  fun_induction sortOut window generalizing g with
  | case1 =>
    cases h
    exact .nil
  | case3 name v rest g' sorted ih =>
    cases h
    exact .pair (ih sorted)
  | case5 v rest unmarked g' sorted ih =>
    cases h
    exact .positional (isNamedArg_of_ne unmarked) (ih sorted)
  | case2 | case4 | case6 => cases h

theorem dangling_of_sortOut {c : Cause} (h : sortOut window = .error c) : Dangling window := by
  fun_induction sortOut window generalizing c with
  | case2 name => exact ⟨[], name, {}, rfl, .nil⟩
  | case4 name v rest c' sorted ih =>
    obtain ⟨front, last, g, rfl, read⟩ := ih sorted
    exact ⟨_, last, _, rfl, .pair read⟩
  | case6 v rest unmarked c' sorted ih =>
    obtain ⟨front, last, g, rfl, read⟩ := ih sorted
    exact ⟨_, last, _, rfl, .positional (isNamedArg_of_ne unmarked) read⟩
  | case1 | case3 | case5 => cases h

/-- A mark without a value is an error, however far the window was read. -/
theorem Parses.sortOut_mark {front : List Value} (h : Parses front g) (name : Text) :
    sortOut (front ++ [.namedArg name]) = .error (.noValueFor name) := by
  induction h with
  | nil => rfl
  | positional unmarked _ ih => rw [List.cons_append, sortOut_cons unmarked, ih]
  | pair _ ih => simp only [List.cons_append, sortOut, ih]

/-- A window can be read, and in one way only, unless it ends in a mark without a value. -/
theorem existsUnique_parses_iff : (∃! g, Parses window g) ↔ ¬Dangling window := by
  constructor
  · rintro ⟨g, read, -⟩ ⟨front, name, g', rfl, read'⟩
    cases (sortOut_of_parses read).symm.trans (read'.sortOut_mark name)
  · intro complete
    cases sorted : sortOut window with
    | error c => exact absurd (dangling_of_sortOut sorted) complete
    | ok g =>
      refine ⟨g, parses_of_sortOut sorted, fun g' read => ?_⟩
      cases (sortOut_of_parses read).symm.trans sorted
      rfl

/-- Where there is a mark there is a pair. -/
theorem Parses.named_ne_nil (h : Parses window g) (marked : window.any Value.isNamedArg = true) : g.named ≠ [] := by
  induction h with
  | nil => cases marked
  | positional unmarked _ ih =>
    rw [List.any_cons, unmarked, Bool.false_or] at marked
    exact ih marked
  | pair _ _ => exact List.cons_ne_nil _ _

/-! ## Places for the pairs -/

/-- Each name is that of a parameter, the first one of which comes after the positional values and
belongs to no earlier pair. -/
def Given.Seated (g : Given) (params : List Text) : Prop :=
  ∀ earlier name v later, g.named = earlier ++ (name, v) :: later →
    ∃ i, params.findIdx? (· = name) = some i ∧ g.positional.length ≤ i ∧
      ∀ e ∈ earlier, params.findIdx? (· = e.1) ≠ some i

theorem seated_iff_fits : g.Seated params ↔ g.Fits params := by
  constructor
  · intro seated
    refine ⟨fun e he => ?_, ?_⟩
    · obtain ⟨earlier, later, split⟩ := List.append_of_mem he
      obtain ⟨i, place, behind, -⟩ := seated earlier e.1 e.2 later split
      exact ⟨i, place, behind⟩
    · -- The names of the first pairs are distinct, however many pairs are taken.
      have distinct : ∀ first later, g.named = first ++ later → (first.map Prod.fst).Nodup := by
        intro first
        induction first using List.reverseRecOn with
        | nil => exact fun _ _ => List.nodup_nil
        | append_singleton first e ih =>
          intro later split
          rw [List.append_assoc, List.singleton_append] at split
          obtain ⟨i, place, -, taken⟩ := seated first e.1 e.2 later split
          rw [List.map_append, List.map_singleton, List.nodup_append]
          refine ⟨ih _ split, List.nodup_singleton _, fun name mem name' last same => ?_⟩
          obtain ⟨e', he', rfl⟩ := List.mem_map.1 mem
          rw [List.mem_singleton.1 last] at same
          exact taken e' he' (same ▸ place)
      exact distinct g.named [] (List.append_nil _).symm
  · intro fits earlier name v later split
    obtain ⟨i, place, behind⟩ := fits.known (name, v) (by rw [split]; simp)
    refine ⟨i, place, behind, fun e he taken => ?_⟩
    have distinct := fits.distinct
    rw [split, List.map_append, List.nodup_append] at distinct
    have same : e.1 = name := Option.some.inj ((name_of_findIdx? taken).symm.trans (name_of_findIdx? place))
    exact distinct.2.2 e.1 (List.mem_map.2 ⟨e, he, rfl⟩) name (by simp) same

/-! ## One result for one set of arguments -/

theorem Given.Supplies.of_perm (h : g.Supplies params i v) (positional : g'.positional = g.positional)
    (named : g'.named.Perm g.named) : g'.Supplies params i v := by
  rcases h with here | ⟨name, mem, place⟩
  · exact .inl (positional ▸ here)
  · exact .inr ⟨name, named.mem_iff.2 mem, place⟩

theorem Given.Fits.of_perm (h : g.Fits params) (positional : g'.positional = g.positional)
    (named : g'.named.Perm g.named) : g'.Fits params :=
  ⟨fun e he => positional ▸ h.known e (named.mem_iff.1 he), (named.map Prod.fst).nodup_iff.2 h.distinct⟩

theorem Arranged.of_perm (h : Arranged params g args) (positional : g'.positional = g.positional)
    (named : g'.named.Perm g.named) : Arranged params g' args := by
  have supplies : ∀ i v, g'.Supplies params i v ↔ g.Supplies params i v := fun i v =>
    ⟨fun h => h.of_perm positional.symm named.symm, fun h => h.of_perm positional named⟩
  exact ⟨by simpa only [supplies] using h.reach, by simpa only [supplies] using h.given,
    by simpa only [supplies] using h.gaps⟩

theorem Arranged.unique (h : Arranged params g args) (h' : Arranged params g args') : args = args' := by
  have length : args.length = args'.length :=
    Nat.le_antisymm (Nat.le_of_not_lt fun lt => Nat.lt_irrefl _ ((h'.reach _).2 ((h.reach _).1 lt)))
      (Nat.le_of_not_lt fun lt => Nat.lt_irrefl _ ((h.reach _).2 ((h'.reach _).1 lt)))
  refine List.ext_getElem? fun i => ?_
  by_cases inside : i < args.length
  · by_cases supplied : ∃ v, g.Supplies params i v
    · obtain ⟨v, supplies⟩ := supplied
      rw [h.given i v supplies, h'.given i v supplies]
    · have missing : ∀ v, ¬g.Supplies params i v := fun v supplies => supplied ⟨v, supplies⟩
      rw [h.gaps i inside missing, h'.gaps i (length ▸ inside) missing]
  · rw [List.getElem?_eq_none (by omega), List.getElem?_eq_none (by omega)]

/-- The arranged list ends with the last parameter that was given. -/
theorem Arranged.length_eq (h : Arranged params g args) (filled : ∃ i v, g.Supplies params i v) :
    ∃ last, args.length = last + 1 ∧ (∃ v, g.Supplies params last v) ∧
      ∀ i v, g.Supplies params i v → i ≤ last := by
  obtain ⟨i, v, supplies⟩ := filled
  have inside := (h.reach i).2 ⟨i, v, Nat.le_refl _, supplies⟩
  obtain ⟨j, w, le, last⟩ := (h.reach (args.length - 1)).1 (by omega)
  have bound : ∀ i v, g.Supplies params i v → i < args.length := fun i v supplies =>
    (h.reach i).2 ⟨i, v, Nat.le_refl _, supplies⟩
  have end' := bound j w last
  obtain rfl : j = args.length - 1 := by omega
  exact ⟨_, by omega, ⟨w, last⟩, fun i v supplies => by have := bound i v supplies; omega⟩

end ScriptVm.NamedArgs

namespace ScriptVm

open Exec NamedArgs

variable {m : Machine} {callee : Value} {argc start : Nat} {p : Proto} {args window : List Value}

/-! ## Windows on the stack -/

/-- The machine with the values `args` from slot `start` on. -/
def Machine.rewindow (m : Machine) (start : Nat) (args : List Value) : Machine :=
  { m with stack := m.stack.shrink start ++ args.toArray }

theorem Machine.size_rewindow (room : start ≤ m.stack.size) (window : List Value) :
    (m.rewindow start window).stack.size = start + window.length := (loaded_rewritten room window).size

theorem Machine.rewindow_rewindow (room : start ≤ m.stack.size) (window args : List Value) :
    (m.rewindow start window).rewindow start args = m.rewindow start args := by
  have below : (m.stack.shrink start ++ window.toArray).shrink start = m.stack.shrink start := by
    rw [← Array.toList_inj, Array.toList_shrink, Array.toList_append, Array.toList_shrink]
    exact List.take_left' (by rw [List.length_take, Array.length_toList]; omega)
  simp only [rewindow, below]

theorem Machine.window_rewindow (room : start ≤ m.stack.size) (window : List Value) :
    (m.rewindow start window).window window.length = window := by
  have size := size_rewindow room window
  have loaded := loaded_window (m := m.rewindow start window) (show window.length ≤ _ by omega)
  refine List.ext_getElem? fun i => ?_
  rw [← loaded.slots i, ← (loaded_rewritten room window).slots i, size, Nat.add_sub_cancel]
  rfl

namespace Exec

theorem run_window (argc : Nat) (m : Machine) : (peekMany argc).run m = .ok (m.window argc) m := rfl

/-- A window without marks is left alone. -/
theorem run_reorder_of_unmarked (unmarked : (m.window argc).any Value.isNamedArg = false) :
    (reorder callee argc).run m = .ok argc m := by
  unfold reorder
  rw [run_bind_of_ok (run_window argc m), if_neg (by simp [unmarked])]
  rfl

/-- A window with marks is replaced by the arranged arguments. -/
theorem run_reorder_of_marked (proto : targetProto m.heap callee = some p)
    (marked : (m.window argc).any Value.isNamedArg = true) :
    (reorder callee argc).run m =
      match arrange p.params (m.window argc) with
      | .ok args => .ok args.length (m.rewindow (m.stack.size - argc) args)
      | .error c =>
        (fail c : Exec Nat).run (m.rewindow (m.stack.size - argc) (vacatedWindow (m.window argc))) := by
  unfold reorder
  rw [run_bind_of_ok (run_window argc m), if_pos marked, run_bind_of_ok (run_heap m), proto]
  dsimp only
  rw [run_bind_of_ok (run_get m)]
  cases arrange p.params (m.window argc) with
  | ok args => rfl
  | error c => rfl

/-- Where all arguments are named or placed, reordering is arranging. -/
theorem run_reorder_of_parses (proto : targetProto m.heap callee = some p) {g : Given}
    (read : Parses (m.window argc) g) (seated : g.Seated p.params) (named : g.named ≠ []) :
    ∃ args, Arranged p.params g args ∧
      (reorder callee argc).run m = .ok args.length (m.rewindow (m.stack.size - argc) args) := by
  have marked : (m.window argc).any Value.isNamedArg = true := by
    rw [← Bool.not_eq_false]
    intro unmarked
    refine named ?_
    cases (sortOut_of_parses read).symm.trans (sortOut_of_unnamed unmarked)
    rfl
  obtain ⟨args, arranges, arranged⟩ := arrange_of_fits (sortOut_of_parses read) (seated_iff_fits.1 seated)
  exact ⟨args, arranged, by rw [run_reorder_of_marked proto marked, arranges]⟩

/-- A window with marks for a callee that has a prototype is put into the order of the parameters
exactly if every mark has a value and every name a free parameter, the first of its name. The result
ends with the last parameter given and has null in the gaps. It is the same wherever the pairs stand.
A window without marks stays as it is. -/
theorem reorder_is_exact (m : Machine) (callee : Value) (argc : Nat) :
    ((m.window argc).any Value.isNamedArg = false → (reorder callee argc).run m = .ok argc m) ∧
    ∀ p, targetProto m.heap callee = some p → (m.window argc).any Value.isNamedArg = true →
      ((∃! g, Parses (m.window argc) g) ↔ ¬Dangling (m.window argc)) ∧
      ((∃ k m', (reorder callee argc).run m = .ok k m') ↔
        ¬Dangling (m.window argc) ∧ ∀ g, Parses (m.window argc) g → g.Seated p.params) ∧
      ∀ g, Parses (m.window argc) g → g.Seated p.params →
        ∃ args last,
          (reorder callee argc).run m = .ok args.length (m.rewindow (m.stack.size - argc) args) ∧
          args.length = last + 1 ∧ (∃ v, g.Supplies p.params last v) ∧
          (∀ i v, g.Supplies p.params i v → i ≤ last) ∧
          (∀ (i : Nat) v, g.positional[i]? = some v → args[i]? = some v) ∧
          (∀ name v i, (name, v) ∈ g.named → p.params.findIdx? (· = name) = some i → args[i]? = some v) ∧
          (∀ i, i < args.length → (∀ v, ¬g.Supplies p.params i v) → args[i]? = some .null) ∧
          ∀ window g', Parses window g' → g'.positional = g.positional → g'.named.Perm g.named →
            (reorder callee window.length).run (m.rewindow (m.stack.size - argc) window) =
              .ok args.length (m.rewindow (m.stack.size - argc) args) := by
  refine ⟨run_reorder_of_unmarked, fun p proto marked => ⟨existsUnique_parses_iff, ⟨?_, ?_⟩, ?_⟩⟩
  · rintro ⟨k, m', run⟩
    rw [run_reorder_of_marked proto marked] at run
    cases arranges : arrange p.params (m.window argc) with
    | error c =>
      rw [arranges] at run
      cases run
    | ok args =>
      obtain ⟨g, sorted, fits⟩ := fits_of_arrange arranges
      have unique : ∀ g', Parses (m.window argc) g' → g' = g := fun g' read =>
        Except.ok.inj ((sortOut_of_parses read).symm.trans sorted)
      refine ⟨existsUnique_parses_iff.1 ⟨g, parses_of_sortOut sorted, unique⟩, fun g' read => ?_⟩
      rw [unique g' read]
      exact seated_iff_fits.2 fits
  · rintro ⟨complete, seated⟩
    obtain ⟨g, read, -⟩ := existsUnique_parses_iff.2 complete
    obtain ⟨args, -, run⟩ := run_reorder_of_parses proto read (seated g read) (read.named_ne_nil marked)
    exact ⟨_, _, run⟩
  · intro g read seated
    have named := read.named_ne_nil marked
    obtain ⟨args, arranged, run⟩ := run_reorder_of_parses proto read seated named
    have filled : ∃ i v, g.Supplies p.params i v := by
      obtain ⟨⟨name, v⟩, mem⟩ := List.exists_mem_of_ne_nil _ named
      obtain ⟨i, place, -⟩ := (seated_iff_fits.1 seated).known (name, v) mem
      exact ⟨i, v, .inr ⟨name, mem, place⟩⟩
    obtain ⟨last, length, given, bound⟩ := arranged.length_eq filled
    refine ⟨args, last, run, length, given, bound, fun i v here => arranged.given i v (.inl here),
      fun name v i mem place => arranged.given i v (.inr ⟨name, mem, place⟩), arranged.gaps, ?_⟩
    intro window g' read' positional pairs
    have start : m.stack.size - argc ≤ m.stack.size := Nat.sub_le _ _
    have seated' : g'.Seated p.params :=
      seated_iff_fits.2 ((seated_iff_fits.1 seated).of_perm positional pairs)
    have named' : g'.named ≠ [] := fun none => named (List.perm_nil.1 (none ▸ pairs.symm))
    rw [← Machine.window_rewindow start window] at read'
    obtain ⟨args', arranged', run'⟩ := run_reorder_of_parses (m := m.rewindow (m.stack.size - argc) window)
      proto read' seated' named'
    rw [run', Machine.size_rewindow start, Nat.add_sub_cancel, Machine.rewindow_rewindow start,
      arranged'.unique (arranged.of_perm positional pairs)]

/-- A machine that is about to call a function of three parameters, with the last of them by name and
in front of the first. -/
def aboutToCall : Machine :=
  { stack := #[.str "below", .closure ⟨0⟩, .namedArg "c", .int 3, .int 1]
    world := { heap := { closures := { items := #[{ proto := { id := 1, params := ["a", "b", "c"] } }] } } } }

/-- The gap between the two arguments is filled, and with the pair behind the positional argument the
stack becomes the same. -/
theorem reorder_is_exact_about_to_call :
    (reorder (.closure ⟨0⟩) 3).run aboutToCall = .ok 3 (aboutToCall.rewindow 2 [.int 1, .null, .int 3]) ∧
      (reorder (.closure ⟨0⟩) 3).run (aboutToCall.rewindow 2 [.int 1, .namedArg "c", .int 3]) =
        .ok 3 (aboutToCall.rewindow 2 [.int 1, .null, .int 3]) := by
  have read : Parses (aboutToCall.window 3) ⟨[.int 1], [("c", .int 3)]⟩ := .pair (.positional rfl .nil)
  have read' : Parses [.int 1, .namedArg "c", .int 3] ⟨[.int 1], [("c", .int 3)]⟩ := .positional rfl (.pair .nil)
  have seated : Given.Seated ⟨[.int 1], [("c", .int 3)]⟩ ["a", "b", "c"] :=
    seated_iff_fits.2 ⟨fun e he => ⟨2, by rw [List.mem_singleton.1 he]; rfl, by decide⟩, List.nodup_singleton _⟩
  obtain ⟨-, exact'⟩ := reorder_is_exact aboutToCall (.closure ⟨0⟩) 3
  obtain ⟨-, -, result⟩ := exact' _ rfl rfl
  obtain ⟨args, last, run, -, -, -, -, -, -, others⟩ := result _ read seated
  have concrete : (reorder (.closure ⟨0⟩) 3).run aboutToCall = .ok 3 (aboutToCall.rewindow 2 [.int 1, .null, .int 3]) :=
    rfl
  exact ⟨concrete, (others _ _ read' rfl (List.Perm.refl _)).trans (run.symm.trans concrete)⟩

end Exec

end ScriptVm
