import ScriptVm.Number.Binary64

/-!
# The shortest decimal of a float

The decimals that read back as a float form an interval around it: they lie no farther from it
than half the way to its neighbours, and the ends belong to it when the mantissa is even.
`shortest` is the decimal of that interval with the fewest digits; of two with equally many it
is the nearer one, and of two that are equally near the one with the even last digit.

All arithmetic is on natural numbers over a common denominator.
-/

set_option autoImplicit false

namespace ScriptVm.Binary64

/-- The number `digits · 10 ^ exponent`. -/
structure Decimal where
  digits : Nat
  exponent : Int
  deriving Repr, DecidableEq

/-- A positive value and the ends of the interval that rounds to it, over one denominator. -/
structure Interval where
  low : Nat
  value : Nat
  high : Nat
  denominator : Nat
  closed : Bool

/-- The interval of a positive float. Below a power of two the lower neighbour is only half as
far away as the upper one. -/
def interval (x : Float) : Interval :=
  let p := Parts.ofFloat x
  let below := if fractionField x = 0 && 1 < exponentField x then 1 else 2
  let scale := Nat.pow 2 (p.exponent - 2).toNat
  { low := (4 * p.mantissa - below) * scale
    value := 4 * p.mantissa * scale
    high := (4 * p.mantissa + 2) * scale
    denominator := Nat.pow 2 (2 - p.exponent).toNat
    closed := p.mantissa % 2 == 0 }

/-- The interval of the value divided by `10 ^ k`. -/
def Interval.divPow10 (i : Interval) (k : Int) : Interval :=
  let up := Nat.pow 10 (-k).toNat
  { i with
    low := i.low * up
    value := i.value * up
    high := i.high * up
    denominator := i.denominator * Nat.pow 10 k.toNat }

/-- Whether the whole number `d` lies in the interval. -/
def Interval.has (i : Interval) (d : Nat) : Bool :=
  if i.closed then i.low ≤ d * i.denominator && d * i.denominator ≤ i.high
  else i.low < d * i.denominator && d * i.denominator < i.high

/-- The whole number of the interval that is nearest to its value, if there is one: one of the
two neighbours of the value. -/
def Interval.nearest? (i : Interval) : Option Nat :=
  let d := i.value / i.denominator
  let rest := i.value % i.denominator
  match i.has d, i.has (d + 1) with
  | true, false => some d
  | false, true => some (d + 1)
  | false, false => none
  | true, true =>
    if 2 * rest < i.denominator then some d
    else if i.denominator < 2 * rest then some (d + 1)
    else if d % 2 = 0 then some d else some (d + 1)

/-- The least `j` at or after `j` with `denominator ≤ value · 10 ^ j`, within the fuel. -/
def leadingZeros (value denominator : Nat) : Nat → Nat → Nat
  | 0, j => j
  | fuel + 1, j =>
    if denominator ≤ value then j else leadingZeros (value * 10) denominator fuel (j + 1)

/-- The number of decimal digits of `n`, within the fuel. -/
def digitCount : Nat → Nat → Nat
  | 0, _ => 1
  | fuel + 1, n => if n < 10 then 1 else digitCount fuel (n / 10) + 1

/-- The decimal exponent of the leading digit of the interval's value. -/
def Interval.magnitude (i : Interval) : Int :=
  if i.denominator ≤ i.value then
    let whole := i.value / i.denominator
    digitCount whole whole - 1
  else -(leadingZeros i.value i.denominator 400 0 : Nat)

/-- Searches the grids of `n`, `n + 1`, … digits, within the fuel, for one with a point in the
interval. -/
def searchGrids (i : Interval) (magnitude : Int) : Nat → Nat → Decimal
  | 0, _ => ⟨0, 0⟩
  | fuel + 1, n =>
    let k := magnitude - (n - 1 : Nat)
    match (i.divPow10 k).nearest? with
    | some d => ⟨d, k⟩
    | none => searchGrids i magnitude fuel (n + 1)

/-- The same number without zeros at the end of its digits, within the fuel. -/
def Decimal.stripZeros : Nat → Decimal → Decimal
  | 0, d => d
  | fuel + 1, d =>
    if d.digits ≠ 0 && d.digits % 10 = 0 then stripZeros fuel ⟨d.digits / 10, d.exponent + 1⟩
    else d

/-- The shortest decimal that reads back as the positive float `x`. Seventeen digits always
suffice. -/
def shortest (x : Float) : Decimal :=
  let i := interval x
  Decimal.stripZeros 20 (searchGrids i i.magnitude 18 1)

end ScriptVm.Binary64
