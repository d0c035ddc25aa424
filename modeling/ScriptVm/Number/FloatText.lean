import ScriptVm.Text
import ScriptVm.Number.Shortest

/-!
# The text of a float

A whole number below `10 ^ 15` is written like an integer, so the sign of a zero is lost. Every
other finite float is written with its shortest digits, positionally or with an exponent,
whichever is shorter, and positionally if both are equally long. A positional text of a whole
number shows all digits of its exact value.
-/

set_option autoImplicit false

namespace ScriptVm.Binary64

/-- The value as a natural number, if it is one. -/
def Parts.whole? (p : Parts) : Option Nat :=
  if 0 ≤ p.exponent then some (p.mantissa * Nat.pow 2 p.exponent.toNat)
  else
    let d := Nat.pow 2 (-p.exponent).toNat
    if p.mantissa % d = 0 then some (p.mantissa / d) else none

/-- `d` with a decimal point and no exponent. `exact` is the value that a text of a whole number
shows. -/
def positional (d : Decimal) (exact : Option Nat) : Text :=
  let digits := Text.ofNat d.digits
  if 0 ≤ d.exponent then
    match exact with
    | some n => Text.ofNat n
    | none => digits ++ List.replicate d.exponent.toNat 48
  else
    let places := (-d.exponent).toNat
    if places < digits.length then
      digits.take (digits.length - places) ++ "." ++ digits.drop (digits.length - places)
    else "0." ++ Text.padLeft places 48 digits

/-- `d` with one digit before the point and an exponent of at least two digits. -/
def scientific (d : Decimal) : Text :=
  let digits := Text.ofNat d.digits
  let exponent := d.exponent + (digits.length - 1 : Nat)
  let sign : Text := if exponent < 0 then "-" else "+"
  let mantissa : Text :=
    match digits with
    | [] => []
    | [b] => [b]
    | b :: rest => b :: "." ++ rest
  mantissa ++ "e" ++ sign ++ Text.padLeft 2 48 (Text.ofNat exponent.natAbs)

/-- The text of a positive finite float that is not a small whole number. -/
def positiveText (x : Float) : Text :=
  let d := shortest x
  let fixed := positional d (Parts.ofFloat x).whole?
  let scaled := scientific d
  if fixed.length ≤ scaled.length then fixed else scaled

/-- From here on whole numbers are no longer written like integers. -/
def wholeLimit : Nat := 1000000000000000

/-- The text of a float. -/
def floatText (x : Float) : Text :=
  if x.isNaN then "NaN"
  else if x.isInf then (if isNegative x then "-inf" else "inf")
  else
    let p := Parts.ofFloat x
    let sign : Text := if p.negative then "-" else ""
    match p.whole? with
    | some 0 => "0"
    | some n => if n < wholeLimit then sign ++ Text.ofNat n else sign ++ positiveText x
    | none => sign ++ positiveText x

end ScriptVm.Binary64
