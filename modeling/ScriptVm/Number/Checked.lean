/-!
# Checked integers

Integers of the language have 64 bits. An operation gives the mathematical result when it fits
and nothing when it does not; no result ever wraps around.
-/

set_option autoImplicit false

namespace ScriptVm.Checked

/-- The 64-bit integer with value `n`, if there is one. -/
def fit? (n : Int) : Option Int64 :=
  if -9223372036854775808 ≤ n ∧ n ≤ 9223372036854775807 then some (Int64.ofInt n) else none

def add? (a b : Int64) : Option Int64 := fit? (a.toInt + b.toInt)

def sub? (a b : Int64) : Option Int64 := fit? (a.toInt - b.toInt)

def mul? (a b : Int64) : Option Int64 := fit? (a.toInt * b.toInt)

def neg? (a : Int64) : Option Int64 := fit? (-a.toInt)

/-- The quotient toward zero. The caller has excluded a zero divisor. -/
def div? (a b : Int64) : Option Int64 := fit? (a.toInt.tdiv b.toInt)

/-- The remainder with the sign of the dividend, which always fits. The caller has excluded a
zero divisor. -/
def rem (a b : Int64) : Int64 := Int64.ofInt (a.toInt.tmod b.toInt)

end ScriptVm.Checked
