import Mathlib.Algebra.Group.Int.Defs
import Mathlib.Algebra.Group.Nat.Defs
import ScriptVm.Proofs.Operands

/-!
# The limit of sequences

A range and a repeated text must not become longer than `Config.maxSequence`. `Exec.sequence_limits_are_exact`
says that the limit is compared with the length that the sequence has as an integer, and that a sequence within it
is what it should be.

A machine of 64-bit words finds this out with other questions: the distance of the ends modulo `2 ^ 64`, and a
quotient instead of a product. `RangeInWords` and `RepetitionInWords` ask them, and run the loops that follow. These
come to their ends, with the same results.
-/

set_option autoImplicit false

namespace ScriptVm

variable {a b times i : Int64} {limit size : UInt64} {s acc out : Text}

/-! ## Words and integers -/

/-- The integer of a word that is read with a sign. -/
theorem toInt_eq_word (n : Int64) : n.toInt =
    if 2 * n.toUInt64.toNat < 2 ^ 64 then (n.toUInt64.toNat : Int) else n.toUInt64.toNat - 2 ^ 64 :=
  BitVec.toInt_eq_toNat_cond n.toBitVec

/-- Modulo `2 ^ 64` the distance is the distance, even if it has no sign to spare. -/
theorem toNat_distance (forward : a ≤ b) : (b.toUInt64 - a.toUInt64).toNat = (b.toInt - a.toInt).toNat := by
  rw [Int64.le_iff_toInt_le, toInt_eq_word a, toInt_eq_word b] at forward
  rw [UInt64.toNat_sub, toInt_eq_word a, toInt_eq_word b]
  have := a.toUInt64.toNat_lt
  have := b.toUInt64.toNat_lt
  omega

/-- A positive number keeps its value as an unsigned one. -/
theorem toNat_toUInt64 (positive : 0 < times.toInt) : times.toUInt64.toNat = times.toInt.toNat := by
  have value := toInt_eq_word times
  have := times.toUInt64.toNat_lt
  omega

/-- A sum of words, read with a sign. -/
theorem toInt64_add_word (a : Int64) (k : UInt64) : (a.toUInt64 + k).toInt64 = Int64.ofInt (a.toInt + k.toNat) := by
  have word : Int64.ofInt k.toNat = k.toInt64 := by
    rw [Int64.ofInt_eq_ofNat, ← UInt64.toInt64_ofNat', UInt64.ofNat_toNat]
  rw [UInt64.toInt64_add, Int64.toInt64_toUInt64, Int64.ofInt_add, Int64.ofInt_toInt, word]

/-! ## Ranges in words -/

/-- Counting up from a word until `last` is passed, with the words on the way. Words wrap around, so the loop need
not come to an end. -/
inductive CountsTo (last : UInt64) : UInt64 → List UInt64 → Prop
  | done {k : UInt64} (passed : last < k) : CountsTo last k []
  | next {k : UInt64} {ks : List UInt64} (within : k ≤ last) (rest : CountsTo last (k + 1) ks) :
    CountsTo last k (k :: ks)

namespace CountsTo

variable {last k : UInt64} {ks js : List UInt64}

/-- A count has one way to its end. -/
theorem unique (h : CountsTo last k ks) (h' : CountsTo last k js) : ks = js := by
  induction h generalizing js with
  | done passed =>
    cases h' with
    | done => rfl
    | next within => exact absurd passed (UInt64.not_lt.2 within)
  | next within _ ih =>
    cases h' with
    | done passed => exact absurd passed (UInt64.not_lt.2 within)
    | next _ rest => rw [ih rest]

/-- The loop comes to its end if there is a word behind the last one. -/
theorem exists_of_room (room : last.toNat + 1 < 2 ^ 64) {d : Nat} (left : k.toNat + d = last.toNat + 1) :
    ∃ ks, CountsTo last k ks ∧ ks.map UInt64.toNat = List.range' k.toNat d := by
  induction d generalizing k with
  | zero => exact ⟨[], .done (UInt64.lt_iff_toNat_lt.2 (by omega)), rfl⟩
  | succ d ih =>
    have next : (k + 1).toNat = k.toNat + 1 := by
      rw [UInt64.toNat_add]
      exact Nat.mod_eq_of_lt (by show k.toNat + 1 < 2 ^ 64; omega)
    obtain ⟨ks, counts, places⟩ := ih (k := k + 1) (by omega)
    refine ⟨k :: ks, .next (UInt64.le_iff_toNat_le.2 (by omega)) counts, ?_⟩
    rw [List.map_cons, places, next, List.range'_succ]

end CountsTo

/-- How words compute a range. Nothing stands for a range that is too large. -/
inductive RangeInWords (limit : UInt64) (a b : Int64) : Option (List Int64) → Prop
  | empty (backward : b < a) : RangeInWords limit a b (some [])
  | refused (forward : a ≤ b) (far : limit ≤ b.toUInt64 - a.toUInt64) : RangeInWords limit a b none
  | counted {ks : List UInt64} (forward : a ≤ b) (near : b.toUInt64 - a.toUInt64 < limit)
      (loop : CountsTo (b.toUInt64 - a.toUInt64) 0 ks) :
    RangeInWords limit a b (some (ks.map fun k => (a.toUInt64 + k).toInt64))

/-! ## Repetitions in words -/

/-- Appending a text until the counter has reached `times`. -/
inductive RepeatsTo (times : Int64) (s : Text) : Int64 → Text → Text → Prop
  | done {i : Int64} {acc : Text} (passed : times ≤ i) : RepeatsTo times s i acc acc
  | next {i : Int64} {acc out : Text} (within : i < times) (rest : RepeatsTo times s (i + 1) (acc ++ s) out) :
    RepeatsTo times s i acc out

namespace RepeatsTo

/-- The counter never wraps around, so the loop comes to its end. -/
theorem iff_of_left {d : Nat} (left : i.toInt + d = times.toInt) :
    RepeatsTo times s i acc out ↔ out = acc ++ (List.replicate d s).flatten := by
  induction d generalizing i acc with
  | zero =>
    have passed : times ≤ i := Int64.le_iff_toInt_le.2 (by omega)
    constructor
    · intro h
      cases h with
      | done => simp
      | next within => exact absurd within (Int64.not_lt.2 passed)
    · rintro rfl
      simpa using RepeatsTo.done passed
  | succ d ih =>
    have within : i < times := Int64.lt_iff_toInt_lt.2 (by omega)
    have next : (i + 1).toInt = i.toInt + 1 := by
      have := i.le_toInt
      have := times.toInt_lt
      rw [Int64.toInt_add]
      exact Int.bmod_eq_of_le (by show -_ ≤ i.toInt + 1; omega) (by show i.toInt + 1 < _; omega)
    have rest : RepeatsTo times s (i + 1) (acc ++ s) out ↔ out = acc ++ s ++ (List.replicate d s).flatten :=
      ih (by omega)
    rw [List.append_assoc, ← List.flatten_cons, ← List.replicate_succ] at rest
    rw [← rest]
    constructor
    · intro h
      cases h with
      | done passed => exact absurd within (Int64.not_lt.2 passed)
      | next _ rest => exact rest
    · exact .next within

end RepeatsTo

/-- How words compute a repetition of a text with `size` bytes. Nothing stands for a text that is too long. -/
inductive RepetitionInWords (limit size : UInt64) (s : Text) (times : Int64) : Option Text → Prop
  | empty (nothing : times ≤ 0 ∨ s = []) : RepetitionInWords limit size s times (some [])
  | refused (something : ¬(times ≤ 0 ∨ s = [])) (long : limit / size < times.toUInt64) :
    RepetitionInWords limit size s times none
  | repeated {out : Text} (something : ¬(times ≤ 0 ∨ s = [])) (short : times.toUInt64 ≤ limit / size)
      (loop : RepeatsTo times s 0 [] out) : RepetitionInWords limit size s times (some out)

namespace Exec

variable {m : Machine} {vs : List Value}

/-! ## What the limit decides -/

/-- The integers from one to another, in order. -/
def integers (a b : Int64) : List Int := (List.range (b.toInt - a.toInt + 1).toNat).map fun (k : Nat) => a.toInt + k

/-- No integer of a range wraps around. -/
theorem toInt_ofInt_of_mem {n : Int} (mem : n ∈ integers a b) : (Int64.ofInt n).toInt = n := by
  obtain ⟨k, inside, rfl⟩ := List.mem_map.1 mem
  rw [List.mem_range] at inside
  have := a.le_toInt
  have := b.toInt_lt
  exact Int64.toInt_ofInt_of_le (by omega) (by omega)

/-- A range that ends before it begins is empty. -/
theorem integers_of_lt (backward : b < a) : integers a b = [] := by
  rw [Int64.lt_iff_toInt_lt] at backward
  unfold integers
  rw [show (b.toInt - a.toInt + 1).toNat = 0 by omega]
  rfl

theorem map_toInt_integers (a b : Int64) : ((integers a b).map Int64.ofInt).map Int64.toInt = integers a b := by
  rw [List.map_map]
  exact (List.map_congr_left fun n mem => toInt_ofInt_of_mem mem).trans (List.map_id _)

/-- A range is refused if it has more items than the limit allows. -/
theorem rangeItems?_eq (limit : Nat) (a b : Int64) : rangeItems? limit a.toInt b.toInt =
    if (limit : Int) < b.toInt - a.toInt + 1 then none
    else some (((integers a b).map Int64.ofInt).map Value.int) := by
  unfold rangeItems? integers
  simp only [List.map_map]
  by_cases large : (limit : Int) < b.toInt - a.toInt + 1
  · rw [if_pos large, if_pos (by omega)]
  · rw [if_neg large, if_neg (by omega)]
    rfl

/-- An empty repetition is within every limit. -/
theorem repetition?_of_empty (limit : Nat) (nothing : times.toInt ≤ 0 ∨ s = []) :
    repetition? limit s times.toInt = some [] := by
  refine if_pos ?_
  rcases nothing with none | rfl
  · rw [decide_eq_true none, Bool.true_or]
  · rw [List.isEmpty_nil, Bool.or_true]

/-- A repetition is refused if it has more bytes than the limit allows. -/
theorem repetition?_of_filled (limit : Nat) (something : ¬(times.toInt ≤ 0 ∨ s = [])) :
    repetition? limit s times.toInt =
      if (limit : Int) < s.length * times.toInt then none else some (List.replicate times.toInt.toNat s).flatten := by
  obtain ⟨positive, filled⟩ := not_or.1 something
  have here : (times.toInt ≤ 0 || s.isEmpty) = false := by
    rw [Bool.or_eq_false_iff]
    exact ⟨decide_eq_false positive, List.isEmpty_eq_false_iff.2 filled⟩
  have product : ((s.length * times.toInt.toNat : Nat) : Int) = s.length * times.toInt := by
    rw [Int.natCast_mul, Int.toNat_of_nonneg (by omega)]
  unfold repetition?
  rw [here]
  simp only [← product, Int.ofNat_lt]
  rfl

/-! ## Words find the same -/

theorem exists_rangeInWords (limit : UInt64) (a b : Int64) : ∃ r, RangeInWords limit a b r := by
  by_cases forward : a ≤ b
  · by_cases far : limit ≤ b.toUInt64 - a.toUInt64
    · exact ⟨_, .refused forward far⟩
    · have near := UInt64.not_le.1 far
      have room : (b.toUInt64 - a.toUInt64).toNat + 1 < 2 ^ 64 := by
        have := UInt64.lt_iff_toNat_lt.1 near
        have := limit.toNat_lt
        omega
      obtain ⟨ks, loop, -⟩ := CountsTo.exists_of_room room (k := 0) (Nat.zero_add _)
      exact ⟨_, .counted forward near loop⟩
  · exact ⟨_, .empty (Int64.not_le.1 forward)⟩

/-- Counting in unsigned words comes to the same as counting in integers. -/
theorem rangeItems?_of_words {r : Option (List Int64)} (words : RangeInWords limit a b r) :
    rangeItems? limit.toNat a.toInt b.toInt = r.map (·.map Value.int) := by
  rw [rangeItems?_eq]
  cases words with
  | empty backward =>
    rw [integers_of_lt backward]
    rw [Int64.lt_iff_toInt_lt] at backward
    exact if_neg (by omega)
  | refused forward far =>
    rw [UInt64.le_iff_toNat_le, toNat_distance forward] at far
    rw [Int64.le_iff_toInt_le] at forward
    exact if_pos (by omega)
  | @counted ks forward near loop =>
    have distance := toNat_distance forward
    rw [UInt64.lt_iff_toNat_lt, distance] at near
    rw [Int64.le_iff_toInt_le] at forward
    have := limit.toNat_lt
    have room : (b.toUInt64 - a.toUInt64).toNat + 1 < 2 ^ 64 := by omega
    have left : (0 : UInt64).toNat + (b.toInt - a.toInt + 1).toNat = (b.toUInt64 - a.toUInt64).toNat + 1 := by
      rw [distance, UInt64.toNat_zero]
      omega
    obtain ⟨js, loop', places⟩ := CountsTo.exists_of_room room left
    cases loop.unique loop'
    have counted : integers a b = ks.map fun k => a.toInt + k.toNat := by
      unfold integers
      rw [List.range_eq_range', show 0 = (0 : UInt64).toNat from rfl, ← places, List.map_map]
      rfl
    have words : (integers a b).map Int64.ofInt = ks.map fun k => (a.toUInt64 + k).toInt64 := by
      rw [counted, List.map_map]
      exact List.map_congr_left fun k _ => (toInt64_add_word a k).symm
    rw [if_neg (by omega), words, Option.map_some]

theorem exists_repetitionInWords (limit size : UInt64) (s : Text) (times : Int64) :
    ∃ r, RepetitionInWords limit size s times r := by
  by_cases nothing : times ≤ 0 ∨ s = []
  · exact ⟨_, .empty nothing⟩
  · by_cases short : times.toUInt64 ≤ limit / size
    · have positive : 0 < times.toInt := Int64.lt_iff_toInt_lt.1 (Int64.not_le.1 (not_or.1 nothing).1)
      have left : (0 : Int64).toInt + times.toInt.toNat = times.toInt := by
        rw [Int64.toInt_zero]
        omega
      have loop : RepeatsTo times s 0 [] (List.replicate times.toInt.toNat s).flatten :=
        (RepeatsTo.iff_of_left left).2 rfl
      exact ⟨_, .repeated nothing short loop⟩
    · exact ⟨_, .refused nothing (UInt64.not_le.1 short)⟩

/-- A quotient decides what the product decides. -/
theorem quotient_lt_iff (counted : s.length = size.toNat) (filled : s ≠ []) (positive : 0 < times.toInt) :
    limit / size < times.toUInt64 ↔ (limit.toNat : Int) < s.length * times.toInt := by
  have some : 0 < size.toNat := counted ▸ List.length_pos_iff.2 filled
  have product : ((times.toInt.toNat * size.toNat : Nat) : Int) = s.length * times.toInt := by
    rw [Int.natCast_mul, Int.toNat_of_nonneg (Int.le_of_lt positive), counted, Int.mul_comm]
  rw [UInt64.lt_iff_toNat_lt, UInt64.toNat_div, toNat_toUInt64 positive, Nat.div_lt_iff_lt_mul some, ← product,
    Int.ofNat_lt]

/-- Dividing the limit by the size refuses what the product would refuse. -/
theorem repetition?_of_words {r : Option Text} (counted : s.length = size.toNat)
    (words : RepetitionInWords limit size s times r) : repetition? limit.toNat s times.toInt = r := by
  have zero : times ≤ 0 ↔ times.toInt ≤ 0 := Int64.le_iff_toInt_le
  cases words with
  | empty nothing => exact repetition?_of_empty _ (nothing.imp_left zero.1)
  | refused something long =>
    obtain ⟨positive, filled⟩ := not_or.1 something
    rw [zero, Int.not_le] at positive
    rw [zero] at something
    rw [repetition?_of_filled _ something, if_pos ((quotient_lt_iff counted filled positive).1 long)]
  | repeated something short loop =>
    obtain ⟨positive, filled⟩ := not_or.1 something
    rw [zero, Int.not_le] at positive
    rw [zero] at something
    have within := mt (quotient_lt_iff counted filled positive).2 (UInt64.not_lt.2 short)
    have out := (RepeatsTo.iff_of_left (d := times.toInt.toNat) (by show 0 + _ = _; omega)).1 loop
    rw [repetition?_of_filled _ something, if_neg within, out, List.nil_append]

/-! ## The instructions -/

/-- The instruction takes the operands off the stack and pushes a new array with the given items. -/
def Yields (i : Instruction) (vs items : List Value) (m : Machine) : Prop :=
  ∃ r h, m.heap.allocArray items.toArray = (.array r, h) ∧ h.arrays.get r = items.toArray ∧
    (execute i).run (m.withOperands vs) =
      .ok .next (Machine.withOperands { m with world := { m.world with heap := h } } [.array r])

/-- A range makes a new array. -/
theorem run_range (a b : Int64) (m : Machine) : (range (.int a) (.int b)).run m =
    (match rangeItems? m.config.maxSequence a.toInt b.toInt with
      | some items => newArray items
      | none => fail .rangeTooLarge : Exec Value).run m := by
  unfold range
  exact run_bind_of_ok (run_config m)

/-- A repetition makes a text. -/
theorem run_repeatText (s : Text) (times : Int64) (m : Machine) : (repeatText s times).run m =
    (match repetition? m.config.maxSequence s times.toInt with
      | some t => return .str t
      | none => fail .repetitionTooLarge : Exec Value).run m := by
  unfold repeatText
  exact run_bind_of_ok (run_config m)

theorem yields_range (x y : UInt16) (items : rangeItems? m.config.maxSequence a.toInt b.toInt = some vs) :
    Yields ⟨.range, x, y⟩ [.int a, .int b] vs m := by
  refine ⟨_, _, rfl, Pool.get_alloc_self _ _, run_binary_of_ok (f := range) ?_⟩
  rw [run_range, items]
  rfl

theorem refuses_range (x y : UInt16) (none : rangeItems? m.config.maxSequence a.toInt b.toInt = none) :
    Refuses ⟨.range, x, y⟩ [.int a, .int b] .rangeTooLarge m := by
  refine refuses_of_binary (f := range) rfl ?_
  rw [run_range, none]

/-- A range is empty if it goes backward, too large for the limit, or made of its integers. -/
theorem range_of_limit (a b : Int64) (x y : UInt16) (m : Machine) :
    if b < a then Yields ⟨.range, x, y⟩ [.int a, .int b] [] m
    else if (m.config.maxSequence : Int) < b.toInt - a.toInt + 1 then
      Refuses ⟨.range, x, y⟩ [.int a, .int b] (.general "Range too large") m
    else ∃ ks : List Int64, ks.map Int64.toInt = integers a b ∧
      Yields ⟨.range, x, y⟩ [.int a, .int b] (ks.map Value.int) m := by
  have items := rangeItems?_eq m.config.maxSequence a b
  split
  next backward =>
    rw [integers_of_lt backward] at items
    rw [Int64.lt_iff_toInt_lt] at backward
    rw [if_neg (by omega)] at items
    exact yields_range x y items
  next =>
    split
    next large => exact refuses_range x y (items.trans (if_pos large))
    next within => exact ⟨_, map_toInt_integers a b, yields_range x y (items.trans (if_neg within))⟩

/-- A repetition is empty if there is nothing to repeat, too long for the limit, or the text so many times. -/
theorem repetition_of_limit {v w : Value} (s : Text) (times : Int64) (x y : UInt16) (m : Machine)
    (repeats : (multiply v w).run m = (repeatText s times).run m) :
    if times.toInt ≤ 0 ∨ s = [] then Gives ⟨.multiply, x, y⟩ [v, w] (.str []) m
    else if (m.config.maxSequence : Int) < s.length * times.toInt then
      Refuses ⟨.multiply, x, y⟩ [v, w] (.general "String repetition too large") m
    else Gives ⟨.multiply, x, y⟩ [v, w] (.str (List.replicate times.toInt.toNat s).flatten) m := by
  rw [run_repeatText] at repeats
  split
  next nothing =>
    rw [repetition?_of_empty _ nothing] at repeats
    exact gives_of_binary rfl repeats
  next something =>
    rw [repetition?_of_filled _ something] at repeats
    split
    next long =>
      rw [if_pos long] at repeats
      exact refuses_of_binary rfl repeats
    next short =>
      rw [if_neg short] at repeats
      exact gives_of_binary rfl repeats

/-- **The limit of sequences is exact.** For all ends, texts, counters and limits, on every machine: a range is empty
if it goes backward; else it fails if it has more integers than the limit allows, and if not it is the array of these
integers in order, none of which wraps around. A text repeated is empty if there is nothing to repeat; else it fails
if the bytes would be more than the limit allows, and if not it is the text so many times. Words find the same, and
their loops come to an end, whatever the limit is. -/
theorem sequence_limits_are_exact (m : Machine) (x y : UInt16) :
    (∀ a b : Int64,
      if b < a then Yields ⟨.range, x, y⟩ [.int a, .int b] [] m
      else if (m.config.maxSequence : Int) < b.toInt - a.toInt + 1 then
        Refuses ⟨.range, x, y⟩ [.int a, .int b] (.general "Range too large") m
      else ∃ ks : List Int64, ks.map Int64.toInt = integers a b ∧
        Yields ⟨.range, x, y⟩ [.int a, .int b] (ks.map Value.int) m) ∧
    (∀ (s : Text) (times : Int64), ∀ vs ∈ [[.str s, .int times], [.int times, .str s]],
      if times.toInt ≤ 0 ∨ s = [] then Gives ⟨.multiply, x, y⟩ vs (.str []) m
      else if (m.config.maxSequence : Int) < s.length * times.toInt then
        Refuses ⟨.multiply, x, y⟩ vs (.general "String repetition too large") m
      else Gives ⟨.multiply, x, y⟩ vs (.str (List.replicate times.toInt.toNat s).flatten) m) ∧
    (∀ (limit : UInt64) (a b : Int64), (∃ r, RangeInWords limit a b r) ∧
      ∀ r, RangeInWords limit a b r → rangeItems? limit.toNat a.toInt b.toInt = r.map (·.map Value.int)) ∧
    ∀ (limit size : UInt64) (s : Text) (times : Int64), s.length = size.toNat →
      (∃ r, RepetitionInWords limit size s times r) ∧
      ∀ r, RepetitionInWords limit size s times r → repetition? limit.toNat s times.toInt = r := by
  refine ⟨fun a b => range_of_limit a b x y m, fun s times vs order => ?_, fun limit a b => ?_,
    fun limit size s times counted => ?_⟩
  · simp only [List.mem_cons, List.not_mem_nil, or_false] at order
    rcases order with rfl | rfl
    · exact repetition_of_limit s times x y m rfl
    · exact repetition_of_limit s times x y m rfl
  · exact ⟨exists_rangeInWords limit a b, fun r => rangeItems?_of_words⟩
  · exact ⟨exists_repetitionInWords limit size s times, fun r => repetition?_of_words counted⟩

end Exec

end ScriptVm
