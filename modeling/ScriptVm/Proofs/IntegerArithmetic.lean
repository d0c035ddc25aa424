import Mathlib.Algebra.Group.Int.Defs
import ScriptVm.Proofs.Operands

/-!
# Integer arithmetic

The operators on two integers, compared with the arithmetic of `Int`. `Exec.integer_arithmetic_is_exact` says
that they are exact or fail, for all operands.

`Checked` asks the integers whether a result fits. A processor cannot, so `Checked.neg?_eq`, `Checked.div?_eq`
and `Checked.rem_eq` say which operands have to be kept from its instructions, and that no others have to.
-/

set_option autoImplicit false

namespace ScriptVm

namespace Checked

variable {n : Int} {a b k : Int64}

/-- 64 bits hold the number. -/
def Fits (n : Int) : Prop := -2 ^ 63 ≤ n ∧ n < 2 ^ 63

/-- A machine integer fits. -/
theorem fits_toInt (a : Int64) : Fits a.toInt := ⟨a.le_toInt, a.toInt_lt⟩

theorem fit?_of_fits (fits : Fits n) : fit? n = some (Int64.ofInt n) :=
  if_pos ⟨fits.1, Int.le_sub_one_of_lt fits.2⟩

/-- A number is refused if it does not fit. -/
theorem fit?_eq_none_iff : fit? n = none ↔ ¬Fits n := by
  constructor
  · intro beyond fits
    rw [fit?_of_fits fits] at beyond
    cases beyond
  · intro beyond
    exact if_neg fun inside => beyond ⟨inside.1, Int.lt_of_le_sub_one inside.2⟩

theorem fit?_toInt (a : Int64) : fit? a.toInt = some a := by
  rw [fit?_of_fits (fits_toInt a), Int64.ofInt_toInt]

/-- A number that fits is the machine integer of this value. -/
theorem fit?_eq_some_iff : fit? n = some k ↔ k.toInt = n := by
  constructor
  · intro held
    by_cases fits : Fits n
    · rw [fit?_of_fits fits] at held
      cases held
      exact Int64.toInt_ofInt_of_le fits.1 fits.2
    · rw [fit?_eq_none_iff.2 fits] at held
      cases held
  · rintro rfl
    exact fit?_toInt k

theorem eq_minValue_iff : a = Int64.minValue ↔ a.toInt = -2 ^ 63 := by
  rw [← Int64.toInt_inj, Int64.toInt_minValue]

theorem eq_neg_one_iff : b = -1 ↔ b.toInt = -1 := by
  rw [← Int64.toInt_inj]
  rfl

/-- Only the least integer has no opposite. -/
theorem neg?_eq (a : Int64) : neg? a = if a = Int64.minValue then none else some (-a) := by
  unfold neg?
  split
  next least =>
    rw [least]
    rfl
  next other =>
    rw [eq_minValue_iff] at other
    have fits : Fits (-a.toInt) := by
      have bounds := fits_toInt a
      unfold Fits at bounds ⊢
      omega
    rw [fit?_of_fits fits, Int64.ofInt_neg, Int64.ofInt_toInt]

/-- Only the least integer divided by -1 has a quotient that does not fit. -/
theorem div?_eq (a b : Int64) : div? a b = if a = Int64.minValue ∧ b = -1 then none else some (a / b) := by
  unfold div?
  split
  next corner =>
    rw [corner.1, corner.2]
    rfl
  next other =>
    have quotient : (a / b).toInt = a.toInt.tdiv b.toInt := by
      by_cases least : a = Int64.minValue
      · exact Int64.toInt_div_of_ne_right a b fun negative => other ⟨least, negative⟩
      · exact Int64.toInt_div_of_ne_left a b least
    rw [← quotient, fit?_toInt]

/-- One quotient does not fit: the smallest number by minus one. -/
theorem not_fits_tdiv_iff : ¬Fits (a.toInt.tdiv b.toInt) ↔ a = Int64.minValue ∧ b = -1 := by
  rw [← fit?_eq_none_iff, ← div?, div?_eq]
  split
  next corner => exact iff_of_true rfl corner
  next other => exact iff_of_false nofun other

/-- The remainder has the sign of the dividend. -/
theorem toInt_rem (a b : Int64) : (rem a b).toInt = a.toInt.tmod b.toInt := by
  rw [rem, ← Int64.toInt_mod, Int64.ofInt_toInt]

/-- The remainder by -1 needs no division. -/
theorem rem_eq (a b : Int64) : rem a b = if b = -1 then 0 else a % b := by
  rw [← Int64.toInt_inj, toInt_rem]
  split
  next negative =>
    rw [eq_neg_one_iff.1 negative, Int.tmod_neg, Int.tmod_one]
    rfl
  next => rw [Int64.toInt_mod]

end Checked

/-- What is left over by the quotient toward zero: it is smaller than the divisor, and on the side of the dividend. -/
structure IsRemainder (a b r : Int) : Prop where
  identity : a = a.tdiv b * b + r
  small : r.natAbs < b.natAbs
  side : r = 0 ∨ r.sign = a.sign

/-- The remainder of a division towards zero is the only one of its kind. -/
theorem isRemainder_iff {a b r : Int} (divisor : b ≠ 0) : IsRemainder a b r ↔ r = a.tmod b := by
  have parts := Int.tdiv_mul_add_tmod a b
  constructor
  · intro h
    have identity := h.identity
    omega
  · rintro rfl
    refine ⟨parts.symm, ?_, ?_⟩
    · rw [Int.natAbs_tmod]
      exact Nat.mod_lt _ (Int.natAbs_pos.2 divisor)
    · have sign := Int.sign_tmod a b
      split at sign
      · exact .inl (Int.sign_eq_zero_iff_zero.1 sign)
      · exact .inr sign

namespace Exec

open Checked

variable {m : Machine} {i : Instruction} {vs : List Value} {n : Int} {a b : Int64}

/-- The value is the integer `n`. -/
def IsInt (n : Int) (v : Value) : Prop := ∃ k : Int64, k.toInt = n ∧ v = .int k

/-- The integer `n` is out of reach. -/
def Overflows (n : Int) (c : Cause) : Prop := c = .general "Integer overflow" ∧ ¬Fits n

/-- An instruction that pushes a checked integer gives this integer if it fits, and else it fails. -/
theorem answers_of_checked
    (run : (execute i).run (m.withOperands vs) = (do push (← checked (fit? n)); return .next : Exec Progress).run m) :
    Answers i vs (IsInt n) (Overflows n) m := by
  by_cases fits : Fits n
  · have held := fit?_of_fits fits
    rw [held] at run
    refine answers_of_gives (v := .int (Int64.ofInt n)) run (fun w => ?_) fun c failure => failure.2 fits
    constructor
    · rintro ⟨k, value, rfl⟩
      rw [fit?_eq_some_iff.2 value] at held
      cases held
      rfl
    · rintro rfl
      exact ⟨_, fit?_eq_some_iff.1 held, rfl⟩
  · have none := fit?_eq_none_iff.2 fits
    rw [none] at run
    refine answers_of_refuses (c := .integerOverflow) run (fun d => and_iff_left fits) ?_
    rintro v ⟨k, value, -⟩
    rw [fit?_eq_some_iff.2 value] at none
    cases none

/-- An operator that checks its exact result gives that number or overflows. -/
theorem answers_of_binary {f : Value → Value → Exec Value} (op : execute i = binary f)
    (run : (f (.int a) (.int b)).run m = (checked (fit? n)).run m) :
    Answers i [.int a, .int b] (IsInt n) (Overflows n) m := by
  refine answers_of_checked ?_
  rw [op, run_binary, EStateM.run_bind, EStateM.run_bind, run]

theorem answers_negate (a : Int64) (x y : UInt16) (m : Machine) :
    Answers ⟨.negate, x, y⟩ [.int a] (IsInt (-a.toInt)) (Overflows (-a.toInt)) m :=
  answers_of_checked (run_bind_of_ok (run_pop_withOperands [] (.int a) m))

theorem run_divide (a b : Int64) (m : Machine) : (divide (.int a) (.int b)).run m =
    (if b = 0 then fail .divisionByZero else checked (div? a b) : Exec Value).run m := by
  unfold divide
  rw [run_bind_of_ok (run_get m)]
  simp only [Value.number?, isZero, beq_iff_eq]

theorem run_modulo (a b : Int64) (m : Machine) : (modulo (.int a) (.int b)).run m =
    (if b = 0 then fail .divisionByZero else return .int (rem a b) : Exec Value).run m := by
  unfold modulo
  rw [run_bind_of_ok (run_get m)]
  simp only [Value.number?, isZero, beq_iff_eq]

/-- A division by zero is refused before the quotient is checked. -/
theorem answers_divide (a b : Int64) (x y : UInt16) (m : Machine) :
    Answers ⟨.divide, x, y⟩ [.int a, .int b] (fun v => b ≠ 0 ∧ IsInt (a.toInt.tdiv b.toInt) v)
      (fun c => c = .divisionByZero ∧ b = 0 ∨ c = .general "Integer overflow" ∧ a = .minValue ∧ b = -1) m := by
  have run := run_divide a b m
  by_cases zero : b = 0
  · rw [if_pos zero] at run
    refine answers_of_refuses (refuses_of_binary rfl run) (fun d => ?_) fun v result => result.1 zero
    constructor
    · rintro (⟨cause, -⟩ | ⟨-, -, negative⟩)
      · exact cause
      · rw [zero] at negative
        cases negative
    · exact fun cause => .inl ⟨cause, zero⟩
  · rw [if_neg zero] at run
    refine (answers_of_binary rfl run).congr (fun v => (and_iff_right zero).symm) fun c => ?_
    rw [Overflows, not_fits_tdiv_iff]
    exact ⟨.inr, fun failure => failure.resolve_left fun byZero => zero byZero.2⟩

/-- A remainder always fits, so only a zero divisor is refused. -/
theorem answers_modulo (a b : Int64) (x y : UInt16) (m : Machine) :
    Answers ⟨.modulo, x, y⟩ [.int a, .int b]
      (fun v => b ≠ 0 ∧ ∃ r : Int64, IsRemainder a.toInt b.toInt r.toInt ∧ v = .int r)
      (fun c => c = .divisionByZero ∧ b = 0) m := by
  have run := run_modulo a b m
  by_cases zero : b = 0
  · rw [if_pos zero] at run
    exact answers_of_refuses (refuses_of_binary rfl run) (fun d => and_iff_left zero) fun v result => result.1 zero
  · rw [if_neg zero] at run
    have divisor : b.toInt ≠ 0 := fun same => zero (Int64.toInt_inj.1 same)
    refine answers_of_gives (gives_of_binary rfl run) (fun w => ?_) fun c failure => zero failure.2
    rw [and_iff_right zero]
    constructor
    · rintro ⟨r, remainder, rfl⟩
      rw [isRemainder_iff divisor, ← toInt_rem, Int64.toInt_inj] at remainder
      rw [remainder]
    · rintro rfl
      exact ⟨_, (isRemainder_iff divisor).2 (toInt_rem a b), rfl⟩

/-- **Integer arithmetic is exact, or it fails.** For all integers of 64 bits, on every machine: sum, difference,
product and opposite are those of the integers if 64 bits hold them, and else the instruction fails. Division by zero
fails; every other quotient is the one toward zero, except that the least integer divided by -1 overflows. The
remainder is the one of this quotient for every divisor but zero, and never overflows. For the instructions of a
processor these are the only corners. -/
theorem integer_arithmetic_is_exact (a b : Int64) (x y : UInt16) (m : Machine) :
    Answers ⟨.add, x, y⟩ [.int a, .int b] (IsInt (a.toInt + b.toInt)) (Overflows (a.toInt + b.toInt)) m ∧
    Answers ⟨.subtract, x, y⟩ [.int a, .int b] (IsInt (a.toInt - b.toInt)) (Overflows (a.toInt - b.toInt)) m ∧
    Answers ⟨.multiply, x, y⟩ [.int a, .int b] (IsInt (a.toInt * b.toInt)) (Overflows (a.toInt * b.toInt)) m ∧
    Answers ⟨.negate, x, y⟩ [.int a] (IsInt (-a.toInt)) (Overflows (-a.toInt)) m ∧
    Answers ⟨.divide, x, y⟩ [.int a, .int b] (fun v => b ≠ 0 ∧ IsInt (a.toInt.tdiv b.toInt) v)
      (fun c => c = .divisionByZero ∧ b = 0 ∨ c = .general "Integer overflow" ∧ a = .minValue ∧ b = -1) m ∧
    Answers ⟨.modulo, x, y⟩ [.int a, .int b]
      (fun v => b ≠ 0 ∧ ∃ r : Int64, IsRemainder a.toInt b.toInt r.toInt ∧ v = .int r)
      (fun c => c = .divisionByZero ∧ b = 0) m ∧
    neg? a = (if a = .minValue then none else some (-a)) ∧
    div? a b = (if a = .minValue ∧ b = -1 then none else some (a / b)) ∧
    rem a b = if b = -1 then 0 else a % b :=
  ⟨answers_of_binary rfl rfl, answers_of_binary rfl rfl, answers_of_binary rfl rfl, answers_negate a x y m,
    answers_divide a b x y m, answers_modulo a b x y m, neg?_eq a, div?_eq a b, rem_eq a b⟩

end Exec

end ScriptVm
