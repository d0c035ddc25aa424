/-!
# The parts of a 64-bit float

A finite float is a sign and a natural number times a power of two. `Parts.ofFloat` reads them
off the bit pattern, and `Parts.toFloat` packs them again when the mantissa has at most 53 bits
and the exponent is at least that of the smallest positive float.

`remainder` is the exact remainder of two floats, computed on the parts.
-/

set_option autoImplicit false

namespace ScriptVm.Binary64

/-- The finite number `± mantissa · 2 ^ exponent`. -/
structure Parts where
  negative : Bool
  mantissa : Nat
  exponent : Int

/-- The exponent of the smallest positive float. -/
def leastExponent : Int := -1074

/-- The place value of the bit in front of the fraction field, `2 ^ 52`. -/
def hiddenBit : Nat := 4503599627370496

/-- The place value of the sign bit, `2 ^ 63`. -/
def signBit : Nat := 9223372036854775808

/-- The fraction field of the bit pattern. -/
def fractionField (x : Float) : Nat := x.toBits.toNat % hiddenBit

/-- The exponent field of the bit pattern. -/
def exponentField (x : Float) : Nat := x.toBits.toNat / hiddenBit % 2048

/-- The sign bit. -/
def isNegative (x : Float) : Bool := x.toBits.toNat / signBit == 1

/-- The parts of a finite float. -/
def Parts.ofFloat (x : Float) : Parts :=
  if exponentField x = 0 then ⟨isNegative x, fractionField x, leastExponent⟩
  else ⟨isNegative x, hiddenBit + fractionField x, exponentField x - 1075⟩

/-- The float with the given parts, for a mantissa below `2 ^ 53` and an exponent that is not
below `leastExponent`. -/
def Parts.toFloat (p : Parts) : Float :=
  let sign := if p.negative then signBit else 0
  if p.mantissa = 0 then Float.ofBits (UInt64.ofNat sign)
  else
    let shift := min (52 - p.mantissa.log2) (p.exponent - leastExponent).toNat
    let mantissa := p.mantissa * Nat.pow 2 shift
    let field :=
      if mantissa < hiddenBit then mantissa
      else (p.exponent - shift + 1075).toNat * hiddenBit + (mantissa - hiddenBit)
    Float.ofBits (UInt64.ofNat (sign + field))

/-- Not a number. -/
def notANumber : Float := Float.ofBits 0x7ff8000000000000

/-- The remainder of `a` by `b` with the sign of `a`: `a - q * b` for the quotient `q` rounded
toward zero, without rounding. -/
def remainder (a b : Float) : Float :=
  if a.isNaN || b.isNaN || a.isInf || b == 0 then notANumber
  else if b.isInf then a
  else
    let p := Parts.ofFloat a
    let q := Parts.ofFloat b
    let exponent := min p.exponent q.exponent
    let dividend := p.mantissa * Nat.pow 2 (p.exponent - exponent).toNat
    let divisor := q.mantissa * Nat.pow 2 (q.exponent - exponent).toNat
    Parts.toFloat ⟨p.negative, dividend % divisor, exponent⟩

end ScriptVm.Binary64
