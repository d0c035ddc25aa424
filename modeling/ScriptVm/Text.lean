/-!
# Byte texts

A text of the language is a list of bytes. Nothing asks it to be valid UTF-8, so every
operation here is total on arbitrary bytes. String literals of this library coerce to their
UTF-8 bytes.

The module holds the decimal spelling of numbers, padding, the byte order, and the ASCII
classes that the string methods use.
-/

set_option autoImplicit false

namespace ScriptVm

/-- A text is a list of bytes. -/
abbrev Text := List UInt8

namespace Text

/-- The UTF-8 bytes of a literal. -/
def ofString (s : String) : Text := s.toUTF8.data.toList

instance : Coe String Text := ⟨ofString⟩

/-! ## Decimal spelling -/

/-- The ASCII digit of `d`, for `d < 10`. -/
def digit (d : Nat) : UInt8 := UInt8.ofNat (48 + d)

/-- The decimal digits of `n`, as long as the fuel exceeds their number. -/
def decimalDigits : Nat → Nat → Text
  | 0, _ => []
  | fuel + 1, n =>
    if n < 10 then [digit n] else decimalDigits fuel (n / 10) ++ [digit (n % 10)]

/-- The decimal spelling of `n`, without leading zeros. -/
def ofNat (n : Nat) : Text := decimalDigits (n + 1) n

/-- The decimal spelling of `n`, with a minus sign in front of a negative number. -/
def ofInt : Int → Text
  | .ofNat n => ofNat n
  | .negSucc n => 45 :: ofNat (n + 1)

/-! ## Padding, joining, cutting -/

/-- `t` preceded by as many copies of `fill` as bring it to `width` bytes. -/
def padLeft (width : Nat) (fill : UInt8) (t : Text) : Text :=
  List.replicate (width - t.length) fill ++ t

/-- `t` followed by as many spaces as bring it to `width` bytes. -/
def padRight (width : Nat) (t : Text) : Text :=
  t ++ List.replicate (width - t.length) 32

/-- The parts with `separator` between neighbours. -/
def join (separator : Text) : List Text → Text
  | [] => []
  | [t] => t
  | t :: rest => t ++ separator ++ join separator rest

/-- The bytes before the first zero byte. -/
def beforeNul (t : Text) : Text := t.takeWhile (· != 0)

/-! ## Byte order -/

/-- Lexicographic order by unsigned bytes; a proper beginning comes first. -/
def less : Text → Text → Bool
  | [], [] => false
  | [], _ :: _ => true
  | _ :: _, [] => false
  | a :: s, b :: t => if a = b then less s t else a.toNat < b.toNat

/-- `s` comes before `t` or is the same text. -/
def atMost (s t : Text) : Bool := !less t s

/-- Inserts `t` into an ascending list of texts, behind the texts that are not greater. -/
def insertSorted (t : Text) : List Text → List Text
  | [] => [t]
  | u :: rest => if less t u then t :: u :: rest else u :: insertSorted t rest

/-- The texts in ascending byte order. -/
def sorted (ts : List Text) : List Text := ts.foldl (fun acc t => insertSorted t acc) []

/-! ## ASCII classes -/

/-- Space, tab, line feed, vertical tab, form feed and carriage return. -/
def isBlank (b : UInt8) : Bool := b == 32 || (9 ≤ b.toNat && b.toNat ≤ 13)

/-- The capital of an ASCII small letter, and every other byte itself. -/
def upperByte (b : UInt8) : UInt8 := if 97 ≤ b.toNat && b.toNat ≤ 122 then b - 32 else b

/-- The small letter of an ASCII capital, and every other byte itself. -/
def lowerByte (b : UInt8) : UInt8 := if 65 ≤ b.toNat && b.toNat ≤ 90 then b + 32 else b

def upper (t : Text) : Text := t.map upperByte

def lower (t : Text) : Text := t.map lowerByte

end Text

end ScriptVm
