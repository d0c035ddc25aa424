import ScriptVm.Text

/-!
# Cutting texts into segments

Three ways to cut a text: into characters, at a separator, and into words.

* `chars` reads the width of a character off its lead byte alone, so it also cuts bytes that
  are no UTF-8; its pieces put together give the text (`flatten_chars`).
* `splitAt` cuts at the leftmost occurrences of a separator that do not overlap.
* `words` are the maximal runs of bytes that are not blank.

Each is a structural recursion over the bytes.
-/

set_option autoImplicit false

namespace ScriptVm.Text

/-- The number of bytes that a lead byte announces for its character. -/
def charWidth (lead : UInt8) : Nat :=
  if 240 ≤ lead.toNat then 4
  else if 224 ≤ lead.toNat then 3
  else if 192 ≤ lead.toNat then 2
  else 1

/-- Cuts `t` given that `wanted` more bytes belong to the character under way: the bytes found
for it, and the characters behind it. -/
def cutChars : Nat → Text → Text × List Text
  | _, [] => ([], [])
  | 0, b :: rest =>
    let (own, behind) := cutChars (charWidth b - 1) rest
    ([], (b :: own) :: behind)
  | wanted + 1, b :: rest =>
    let (own, behind) := cutChars wanted rest
    (b :: own, behind)

/-- The characters of a text. The last one may be shorter than its lead byte announces. -/
def chars (t : Text) : List Text := (cutChars 0 t).2

theorem append_flatten_cutChars (wanted : Nat) (t : Text) :
    (cutChars wanted t).1 ++ (cutChars wanted t).2.flatten = t := by
  induction t generalizing wanted with
  | nil => simp [cutChars]
  | cons b rest ih =>
    cases wanted with
    | zero => simpa [cutChars] using ih (charWidth b - 1)
    | succ n => simpa [cutChars] using ih n

theorem cutChars_zero_fst (t : Text) : (cutChars 0 t).1 = [] := by
  cases t <;> simp [cutChars]

/-- The characters put together give the text. -/
theorem flatten_chars (t : Text) : (chars t).flatten = t := by
  simpa [chars, cutChars_zero_fst] using append_flatten_cutChars 0 t

/-- Puts a byte in front of the first part. -/
def consFirst (b : UInt8) : List Text → List Text
  | [] => [[b]]
  | part :: parts => (b :: part) :: parts

/-- Cuts at `separator`, passing first over `skip` bytes of an occurrence already found. -/
def splitFrom (separator : Text) : Nat → Text → List Text
  | _, [] => [[]]
  | skip + 1, _ :: rest => splitFrom separator skip rest
  | 0, b :: rest =>
    if separator.isPrefixOf (b :: rest) then
      [] :: splitFrom separator (separator.length - 1) rest
    else consFirst b (splitFrom separator 0 rest)

/-- The parts of `t` between the leftmost occurrences of `separator` that do not overlap. An
empty separator cuts between all characters. -/
def splitAt (separator : Text) (t : Text) : List Text :=
  if separator.isEmpty then chars t else splitFrom separator 0 t

/-- The maximal runs of bytes that are not blank. -/
def words : Text → List Text
  | [] => []
  | [b] => if isBlank b then [] else [[b]]
  | b :: c :: rest =>
    if isBlank b then words (c :: rest)
    else if isBlank c then [b] :: words (c :: rest)
    else consFirst b (words (c :: rest))

/-- `t` without the blanks at its two ends. -/
def trim (t : Text) : Text := ((t.dropWhile isBlank).reverse.dropWhile isBlank).reverse

/-- Whether `needle` occurs in a text. -/
def includes (needle : Text) : Text → Bool
  | [] => needle.isEmpty
  | b :: rest => needle.isPrefixOf (b :: rest) || includes needle rest

end ScriptVm.Text
