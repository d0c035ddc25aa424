import ScriptVm.Proofs.Iterations
import ScriptVm.Proofs.Operands
import ScriptVm.Proofs.SplitTexts

/-!
# Characters

`Text.chars` reads the width of a character off its first byte. `Text.Segments` is the loop that does so, over
positions and without a bound on its length, so a derivation is a loop that has come to its end. It does so for
all bytes, and nothing is lost.

The text of code points, `Text.ofChars`, is cut into their encodings. `Exec.SeenAs` is what a script sees of the
characters of a text: their number, the one with an index, the loop through them, and the parts at an empty
separator. `Exec.characters_are_code_points` says that all of these go by code points.
-/

set_option autoImplicit false

namespace ScriptVm

namespace Text

variable {t u piece : Text} {pieces : List Text} {i : Nat}

/-! ## Cutting into characters -/

theorem cutChars_eq (wanted : Nat) (t : Text) : cutChars wanted t = (t.take wanted, chars (t.drop wanted)) := by
  induction t generalizing wanted with
  | nil => simp [cutChars, chars]
  | cons b rest ih =>
    cases wanted with
    | zero => exact Prod.ext (cutChars_zero_fst _) rfl
    | succ n => rw [cutChars, ih, List.take_succ_cons, List.drop_succ_cons]

theorem chars_cons (b : UInt8) (rest : Text) :
    chars (b :: rest) = (b :: rest.take (charWidth b - 1)) :: chars (rest.drop (charWidth b - 1)) := by
  rw [chars, cutChars, cutChars_eq]

theorem charWidth_bounds (b : UInt8) : 1 ≤ charWidth b ∧ charWidth b ≤ 4 := by
  unfold charWidth
  repeat' split
  all_goals decide

/-- A character is never empty, and it is no longer than the widest lead byte announces. -/
theorem mem_chars (mem : piece ∈ chars t) : piece ≠ [] ∧ piece.length ≤ 4 := by
  induction size : t.length using Nat.strong_induction_on generalizing t with
  | _ n ih =>
    cases t with
    | nil => cases mem
    | cons b rest =>
      rw [chars_cons, List.mem_cons] at mem
      rcases mem with rfl | mem
      · have := charWidth_bounds b
        refine ⟨List.cons_ne_nil _ _, ?_⟩
        rw [List.length_cons, List.length_take]
        omega
      · refine ih _ ?_ mem rfl
        rw [← size, List.length_cons, List.length_drop]
        omega

/-- Bytes that continue nothing stand for themselves, and the last character may be cut short. -/
example : chars [0x80, 0xE2, 0x82] = [[0x80], [0xE2, 0x82]] := by decide

/-! ## The loop over positions -/

/-- The bytes from a position on that belong to the character of the byte there: as many as this byte announces,
but no more than there are. -/
def widthAt (t : Text) (i : Nat) (lead : UInt8) : Nat :=
  if t.length < i + charWidth lead then t.length - i else charWidth lead

/-- From one character to the next, until the text ends. -/
inductive Segments (t : Text) : Nat → List Text → Prop
  | done {i : Nat} (passed : t.length ≤ i) : Segments t i []
  | next {i : Nat} {lead : UInt8} {pieces : List Text} (byte : t[i]? = some lead)
      (rest : Segments t (i + widthAt t i lead) pieces) :
    Segments t i ((t.drop i).take (widthAt t i lead) :: pieces)

/-- What the loop cuts off is the first character of what is left. -/
theorem chars_drop {lead : UInt8} (byte : t[i]? = some lead) :
    chars (t.drop i) = (t.drop i).take (widthAt t i lead) :: chars (t.drop (i + widthAt t i lead)) := by
  obtain ⟨inside, rfl⟩ := List.getElem?_eq_some_iff.1 byte
  have bounds := charWidth_bounds t[i]
  rw [← List.drop_drop]
  rw [List.drop_eq_getElem_cons inside, chars_cons]
  unfold widthAt
  split
  next short =>
    obtain ⟨k, left⟩ : ∃ k, t.length - i = k + 1 := ⟨t.length - i - 1, by omega⟩
    have all : (t.drop (i + 1)).length ≤ k := by
      rw [List.length_drop]
      omega
    have more : k ≤ charWidth t[i] - 1 := by omega
    rw [left, List.take_succ_cons, List.drop_succ_cons, List.take_of_length_le all, List.drop_eq_nil_of_le all,
      List.take_of_length_le (all.trans more), List.drop_eq_nil_of_le (all.trans more)]
  next =>
    obtain ⟨k, width⟩ : ∃ k, charWidth t[i] = k + 1 := ⟨charWidth t[i] - 1, by omega⟩
    rw [width, List.take_succ_cons, List.drop_succ_cons, Nat.add_sub_cancel]

theorem widthAt_pos {lead : UInt8} (byte : t[i]? = some lead) : 0 < widthAt t i lead := by
  obtain ⟨inside, -⟩ := List.getElem?_eq_some_iff.1 byte
  have := charWidth_bounds lead
  unfold widthAt
  split <;> omega

/-- The loop comes to its end, with the characters. -/
theorem segments_iff : Segments t i pieces ↔ pieces = chars (t.drop i) := by
  constructor
  · intro h
    induction h with
    | done passed =>
      rw [List.drop_eq_nil_of_le passed]
      rfl
    | next byte rest ih => rw [chars_drop byte, ih]
  · rintro rfl
    induction left : t.length - i using Nat.strong_induction_on generalizing i with
    | _ left ih =>
      by_cases passed : t.length ≤ i
      · rw [List.drop_eq_nil_of_le passed]
        exact .done passed
      · obtain ⟨lead, byte⟩ : ∃ lead, t[i]? = some lead := ⟨_, List.getElem?_eq_getElem (Nat.not_le.1 passed)⟩
        have := widthAt_pos byte
        rw [chars_drop byte]
        exact .next byte (ih _ (by omega) rfl)

/-! ## Code points -/

/-- The text of code points. -/
def ofChars (cs : List Char) : Text := cs.flatMap String.utf8EncodeChar

/-- These are the texts that are valid UTF-8. -/
theorem isValidUTF8_iff : t.toByteArray.IsValidUTF8 ↔ ∃ cs, t = ofChars cs := by
  constructor
  · rintro ⟨cs, same⟩
    have bytes := congrArg ByteArray.data same
    rw [List.utf8Encode, List.data_toByteArray, List.data_toByteArray] at bytes
    exact ⟨cs, List.toArray_inj bytes⟩
  · rintro ⟨cs, rfl⟩
    exact ⟨cs, rfl⟩

/-- A text is complete if it has as many bytes as its first one announces. -/
def Complete (u : Text) : Prop := ∃ lead, u.head? = some lead ∧ u.length = charWidth lead

theorem chars_append (complete : Complete u) (t : Text) : chars (u ++ t) = u :: chars t := by
  obtain ⟨lead, first, length⟩ := complete
  obtain ⟨rest, rfl⟩ := List.head?_eq_some_iff.1 first
  have width : charWidth lead - 1 = rest.length := by
    rw [List.length_cons] at length
    omega
  rw [List.cons_append, chars_cons, width, List.take_left, List.drop_left]

theorem charWidth_ofNat {b : Nat} (small : b < 256) : charWidth (UInt8.ofNat b) =
    if 240 ≤ b then 4 else if 224 ≤ b then 3 else if 192 ≤ b then 2 else 1 := by
  unfold charWidth
  rw [UInt8.toNat_ofNat_of_lt' small]

/-- The first byte of an encoded code point announces how many there are. -/
theorem complete_utf8EncodeChar (c : Char) : Complete (String.utf8EncodeChar c) := by
  unfold String.utf8EncodeChar
  dsimp only
  split
  next one =>
    refine ⟨_, rfl, ?_⟩
    rw [charWidth_ofNat (by omega), if_neg (by omega), if_neg (by omega), if_neg (by omega)]
    rfl
  split
  next two =>
    refine ⟨_, rfl, ?_⟩
    rw [charWidth_ofNat (by omega), if_neg (by omega), if_neg (by omega), if_pos (by omega)]
    rfl
  split
  next three =>
    refine ⟨_, rfl, ?_⟩
    rw [charWidth_ofNat (by omega), if_neg (by omega), if_pos (by omega)]
    rfl
  next four =>
    refine ⟨_, rfl, ?_⟩
    rw [charWidth_ofNat (by omega), if_pos (by omega)]
    rfl

theorem chars_ofChars (cs : List Char) : chars (ofChars cs) = cs.map String.utf8EncodeChar := by
  induction cs with
  | nil => rfl
  | cons c cs ih =>
    rw [ofChars, List.flatMap_cons, chars_append (complete_utf8EncodeChar c), ← ofChars, ih, List.map_cons]

end Text

/-- The items that an iteration gives when it is drawn from until it is closed, whatever the machine has become before
each drawing. -/
inductive Iteration.Gives : Iteration → List Value → Prop
  | closes {it : Iteration}
      (left : ∀ (x y : UInt16) (m : Machine) (f : Frame) (rest : List Frame), m.frames = f :: rest →
        (Exec.execute ⟨.forIter, x, y⟩).run { m with iterations := it :: m.iterations } =
          .ok .next { m with frames := { f with ip := f.ip + x.toNat } :: rest }) : Gives it []
  | draws {it it' : Iteration} {v : Value} {vs : List Value}
      (drawn : ∀ (x y : UInt16) (m : Machine),
        (Exec.execute ⟨.forIter, x, y⟩).run { m with iterations := it :: m.iterations } =
          .ok .next { m with stack := m.stack.push v, iterations := it' :: m.iterations })
      (rest : it'.Gives vs) : Gives it (v :: vs)

theorem Iteration.gives_snapshot (items : List Value) : (Iteration.snapshot items).Gives items := by
  induction items with
  | nil =>
    refine .closes fun x y m f rest frames => ?_
    exact (Exec.run_bind_of_ok rfl).trans (Exec.run_bind_of_ok (Exec.run_jump frames _))
  | cons v rest ih => exact .draws (fun x y m => rfl) ih

/-- The item with an index, which counts from the end if it is negative. -/
def itemAt? {α : Type} (items : List α) (i : Int) : Option α :=
  if 0 ≤ i then items[i.toNat]? else items.reverse[(-i - 1).toNat]?

namespace Exec

open Text

variable {α : Type} {i : Int} {n p : Nat}

/-- A position is that of the index from the beginning, or from the end. -/
theorem position?_eq_some_iff : position? i n = some p ↔ p < n ∧ (i = p ∨ i + n = p) := by
  unfold position?
  dsimp only
  rw [ite_eq_iff]
  by_cases negative : i < 0
  · rw [if_pos negative, Option.some.injEq]
    simp only [reduceCtorEq, and_false, or_false]
    omega
  · rw [if_neg negative, Option.some.injEq]
    simp only [reduceCtorEq, and_false, or_false]
    omega

theorem position?_eq_none_iff : position? i n = none ↔ ¬(-(n : Int) ≤ i ∧ i < n) := by
  rw [Option.eq_none_iff_forall_ne_some]
  simp only [ne_eq, position?_eq_some_iff]
  constructor
  · intro none inside
    by_cases negative : i < 0
    · exact none (i + n).toNat (by omega)
    · exact none i.toNat (by omega)
  · intro outside p found
    omega

theorem itemAt?_eq (items : List α) (i : Int) :
    itemAt? items i = (position? i items.length).bind fun p => items[p]? := by
  cases found : position? i items.length with
  | some p =>
    obtain ⟨inside, place | place⟩ := position?_eq_some_iff.1 found
    · rw [itemAt?, if_pos (by omega), place, Int.toNat_natCast]
      rfl
    · rw [itemAt?, if_neg (by omega), List.getElem?_reverse (by omega)]
      show items[_]? = items[p]?
      congr 1
      omega
  | none =>
    have outside := position?_eq_none_iff.1 found
    rw [itemAt?]
    show _ = none
    split
    next => exact List.getElem?_eq_none (by omega)
    next =>
      refine List.getElem?_eq_none ?_
      rw [List.length_reverse]
      omega

/-- What a script sees of the characters of a text. -/
structure SeenAs (t : Text) (pieces : List Text) : Prop where
  /-- The number of characters, as a method and as a property. -/
  length (site : Site) (m : Machine) :
    (callMethod (.str t) "length" []).run m = .ok (.int (Int64.ofNat pieces.length)) m ∧
      (getProperty (.str t) "length" site).run m = .ok (.int (Int64.ofNat pieces.length)) m
  /-- The character with an index, if there is one. -/
  index (i : Int64) (x y : UInt16) (m : Machine) : Answers ⟨.getIndex, x, y⟩ [.str t, .int i]
    (fun v => ∃ piece, itemAt? pieces i.toInt = some piece ∧ v = .str piece)
    (fun c => ¬(-(pieces.length : Int) ≤ i.toInt ∧ i.toInt < pieces.length) ∧
      c = .indexOutOfBounds i pieces.length) m
  /-- The characters one after the other. -/
  iteration (x y : UInt16) (m : Machine) : ∃ it : Iteration, it.Gives (pieces.map .str) ∧
    (execute ⟨.getIter, x, y⟩).run (m.withOperands [.str t]) =
      .ok .next { m with iterations := it :: m.iterations }
  /-- The parts of the text at an empty separator, in a new array. -/
  parts (m : Machine) : ∃ r m', (callMethod (.str t) "split" [.str []]).run m = .ok (.array r) m' ∧
    m'.heap.arrays.get r = (pieces.map Value.str).toArray

theorem run_getIndex (t : Text) (i : Int64) (m : Machine) : (getIndex (.str t) (.int i)).run m =
    (match position? i.toInt (chars t).length with
      | some p => return .str ((chars t).getD p [])
      | none => fail (.indexOutOfBounds i (chars t).length) : Exec Value).run m := by
  unfold getIndex
  exact run_bind_of_ok (run_get m)

theorem answers_getIndex (t : Text) (i : Int64) (x y : UInt16) (m : Machine) :
    Answers ⟨.getIndex, x, y⟩ [.str t, .int i]
      (fun v => ∃ piece, itemAt? (chars t) i.toInt = some piece ∧ v = .str piece)
      (fun c => ¬(-((chars t).length : Int) ≤ i.toInt ∧ i.toInt < (chars t).length) ∧
        c = .indexOutOfBounds i (chars t).length) m := by
  have run := run_getIndex t i m
  have item := itemAt?_eq (chars t) i.toInt
  cases found : position? i.toInt (chars t).length with
  | some p =>
    have inside := (position?_eq_some_iff.1 found).1
    rw [found, Option.bind_some, List.getElem?_eq_getElem inside] at item
    rw [found] at run
    simp only [List.getD_eq_getElem?_getD, List.getElem?_eq_getElem inside, Option.getD_some] at run
    have gives : Gives ⟨.getIndex, x, y⟩ [.str t, .int i] (.str (chars t)[p]) m :=
      gives_of_binary (f := getIndex) rfl run
    refine answers_of_gives gives ?_ ?_
    · intro v
      rw [item]
      simp
    · rintro c ⟨outside, -⟩
      rw [position?_eq_none_iff.2 outside] at found
      cases found
  | none =>
    rw [found] at item run
    have outside := position?_eq_none_iff.1 found
    have refuses : Refuses ⟨.getIndex, x, y⟩ [.str t, .int i] (.indexOutOfBounds i (chars t).length) m :=
      refuses_of_binary (f := getIndex) rfl run
    refine answers_of_refuses refuses (fun c => and_iff_right outside) ?_
    rintro v ⟨piece, found', -⟩
    rw [item] at found'
    cases found'

theorem run_getIter (t : Text) (x y : UInt16) (m : Machine) :
    (execute ⟨.getIter, x, y⟩).run (m.withOperands [.str t]) =
      .ok .next { m with iterations := .snapshot ((chars t).map .str) :: m.iterations } := by
  show (andNext (do openIteration (← pop))).run _ = _
  unfold andNext
  have popped : (do openIteration (← pop) : Exec Unit).run (m.withOperands [.str t]) =
      (openIteration (.str t)).run m :=
    run_bind_of_ok (run_pop_withOperands [] (.str t) m)
  rw [EStateM.run_bind, popped]
  rfl

theorem seenAs_chars (t : Text) : SeenAs t (chars t) where
  length _ _ := ⟨rfl, rfl⟩
  index := answers_getIndex t
  iteration x y m := ⟨_, Iteration.gives_snapshot _, run_getIter t x y m⟩
  parts m := run_textArray m (chars t)

/-- **Characters are code points.** Every text is cut into pieces of one to four bytes that make up the text, and
the loop that cuts it comes to its end, whatever the bytes are. These pieces are what a script counts, selects, goes
through and splits into. If the text is valid UTF-8, so that of code points, they are the encodings of the code points
in order. -/
theorem characters_are_code_points :
    (∀ t : Text, (chars t).flatten = t ∧ (∀ piece ∈ chars t, piece ≠ [] ∧ piece.length ≤ 4) ∧
      (∀ pieces, Segments t 0 pieces ↔ pieces = chars t) ∧ SeenAs t (chars t)) ∧
    (∀ t : Text, t.toByteArray.IsValidUTF8 ↔ ∃ cs, t = ofChars cs) ∧
    ∀ cs : List Char, chars (ofChars cs) = cs.map String.utf8EncodeChar ∧
      SeenAs (ofChars cs) (cs.map String.utf8EncodeChar) := by
  refine ⟨fun t => ?_, fun t => isValidUTF8_iff, fun cs => ?_⟩
  · exact ⟨flatten_chars t, fun piece => mem_chars, fun pieces => segments_iff, seenAs_chars t⟩
  · have same := chars_ofChars cs
    exact ⟨same, same ▸ seenAs_chars (ofChars cs)⟩

end Exec

end ScriptVm
