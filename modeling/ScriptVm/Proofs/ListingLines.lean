import Mathlib.Data.List.Nodup
import ScriptVm.Bytecode.Listing
import ScriptVm.Machine.Instruction

/-!
# Lines of a listing

The line of an instruction can be read back. Behind the margin the mnemonic ends at the first space or at the end of the
line, so it is the first word, and no two operations share one. Then the operands stand at the front of what is left:
behind spaces or a label comes a number, and no digit follows it, whatever bytes a name or constant has.
-/

set_option autoImplicit false

namespace ScriptVm

/-! ## Reading numbers and words -/

namespace Text

/-- An ASCII digit. -/
def isDigit (b : UInt8) : Bool := 48 ≤ b.toNat && b.toNat ≤ 57

/-- The value of a row of digits. -/
def value (t : Text) : Nat := t.foldl (fun n b => 10 * n + (b.toNat - 48)) 0

/-- The number at the front of a text. -/
def number (t : Text) : Nat := value (t.takeWhile isDigit)

/-- The bytes before the first space. -/
def firstWord (t : Text) : Text := t.takeWhile (· ≠ 32)

/-- The text without the spaces at its front. -/
def trimmed (t : Text) : Text := t.dropWhile (· = 32)

/-- No digit stands at the front. -/
def StopsDigits (t : Text) : Prop := ∀ b ∈ t.head?, isDigit b = false

theorem toNat_digit {d : Nat} (small : d < 10) : (digit d).toNat = 48 + d := by
  unfold digit
  rw [UInt8.toNat_ofNat']
  omega

theorem isDigit_digit {d : Nat} (small : d < 10) : isDigit (digit d) = true := by
  unfold isDigit
  rw [toNat_digit small]
  simp
  omega

theorem value_append_digit (t : Text) {d : Nat} (small : d < 10) : value (t ++ [digit d]) = 10 * value t + d := by
  simp [value, List.foldl_append, toNat_digit small]

theorem isDigit_of_mem_decimalDigits {fuel n : Nat} {b : UInt8} (mem : b ∈ decimalDigits fuel n) :
    isDigit b = true := by
  induction fuel generalizing n with
  | zero => cases mem
  | succ fuel ih =>
    unfold decimalDigits at mem
    split at mem
    next small =>
      rw [List.mem_singleton] at mem
      rw [mem]
      exact isDigit_digit small
    next =>
      rw [List.mem_append, List.mem_singleton] at mem
      rcases mem with front | last
      · exact ih front
      · rw [last]
        exact isDigit_digit (Nat.mod_lt n (by omega))

/-- The digits of a number have its value, if the fuel lasts. -/
theorem value_decimalDigits {fuel n : Nat} (enough : n < fuel) : value (decimalDigits fuel n) = n := by
  induction fuel generalizing n with
  | zero => omega
  | succ fuel ih =>
    unfold decimalDigits
    split
    next small => simp [value, toNat_digit small]
    next =>
      rw [value_append_digit _ (Nat.mod_lt n (by omega)), ih (by omega)]
      omega

theorem decimalDigits_ne_nil (fuel n : Nat) : decimalDigits (fuel + 1) n ≠ [] := by
  unfold decimalDigits
  split <;> simp

theorem isDigit_of_mem_ofNat {n : Nat} {b : UInt8} (mem : b ∈ ofNat n) : isDigit b = true :=
  isDigit_of_mem_decimalDigits mem

/-- A number is read back from its decimal spelling. -/
theorem number_ofNat_append (n : Nat) {rest : Text} (stops : StopsDigits rest) : number (ofNat n ++ rest) = n := by
  have none : rest.takeWhile isDigit = [] := by
    cases rest with
    | nil => rfl
    | cons b rest => rw [List.takeWhile_cons, stops b rfl, if_neg (by simp)]
  unfold number
  rw [List.takeWhile_append_of_pos fun b mem => isDigit_of_mem_ofNat mem, none, List.append_nil]
  exact value_decimalDigits n.lt_succ_self

/-- Padding goes away with the spaces at the front. -/
theorem trimmed_padLeft_append (width n : Nat) (rest : Text) :
    trimmed (padLeft width 32 (ofNat n) ++ rest) = ofNat n ++ rest := by
  have spaces (k : Nat) (t : Text) : trimmed (List.replicate k 32 ++ t) = trimmed t := by
    unfold trimmed
    rw [List.dropWhile_append_of_pos]
    intro b mem
    simp [List.eq_of_mem_replicate mem]
  unfold padLeft
  rw [List.append_assoc, spaces]
  cases digits : ofNat n with
  | nil => exact absurd digits (decimalDigits_ne_nil n n)
  | cons b t =>
    have isDigit : isDigit b = true := isDigit_of_mem_ofNat (n := n) (by rw [digits]; exact List.mem_cons_self)
    have other : b ≠ 32 := by
      rintro rfl
      cases isDigit
    simp [trimmed, other]

/-- A padded number is read back. -/
theorem number_trimmed_padLeft_append (width n : Nat) {rest : Text} (stops : StopsDigits rest) :
    number (trimmed (padLeft width 32 (ofNat n) ++ rest)) = n := by
  rw [trimmed_padLeft_append, number_ofNat_append n stops]

/-- What follows a number. -/
theorem dropWhile_ofNat_append (n : Nat) {rest : Text} (stops : StopsDigits rest) :
    (ofNat n ++ rest).dropWhile isDigit = rest := by
  rw [List.dropWhile_append_of_pos fun b mem => isDigit_of_mem_ofNat mem]
  cases rest with
  | nil => rfl
  | cons b rest => rw [List.dropWhile_cons, stops b rfl, if_neg (by simp)]

/-- A word that is padded, or that nothing follows, is the first word. -/
theorem firstWord_padRight_append {column : Nat} {word rest : Text} (solid : 32 ∉ word)
    (ends : rest = [] ∨ word.length < column) : firstWord (padRight column word ++ rest) = word := by
  have keeps : ∀ b ∈ word, decide (b ≠ 32) = true := by
    intro b mem
    have other : b ≠ 32 := fun space => solid (space ▸ mem)
    simp [other]
  unfold firstWord padRight
  rw [List.append_assoc, List.takeWhile_append_of_pos keeps]
  obtain rfl | longer := ends
  · cases h : column - word.length <;> simp [List.replicate_succ]
  · obtain ⟨gap, h⟩ : ∃ gap, column - word.length = gap + 1 := ⟨column - word.length - 1, by omega⟩
    simp [h, List.replicate_succ]

end Text

/-! ## Operations -/

namespace OpCode

theorem nodup_mnemonics : (all.map fun op => op.row.mnemonic).Nodup := by
  decide +kernel

/-- An operation is known by its mnemonic. -/
theorem mnemonic_inj {op op' : OpCode} (same : op.row.mnemonic = op'.row.mnemonic) : op = op' :=
  List.inj_on_of_nodup_map nodup_mnemonics (mem_all op) (mem_all op') same

theorem mnemonic_solid (op : OpCode) : 32 ∉ op.row.mnemonic := by
  have solid : ∀ op ∈ all, 32 ∉ op.row.mnemonic := by decide +kernel
  exact solid op (mem_all op)

/-- A mnemonic with operands behind it is padded. -/
theorem mnemonic_padded (op : OpCode) : op.row.shown = .nothing ∨ op.row.mnemonic.length < op.row.column := by
  have padded : ∀ op ∈ all, op.row.shown = .nothing ∨ op.row.mnemonic.length < op.row.column := by decide +kernel
  exact padded op (mem_all op)

end OpCode

/-! ## Operands -/

/-- The number of operands that an operation has: none, one, or the two targets of a protected region. -/
def OpCode.operandCount : OpCode → Nat
  | pushNull | pushTrue | pushFalse | pop | dup | closeUpvalue
  | add | subtract | multiply | divide | modulo | negate
  | equal | notEqual | less | lessEqual | greater | greaterEqual | not
  | ret | range | getIndex | setIndex | spread | inherit | getThis
  | tryEnd | throwTop | getIter | unknown => 0
  | tryBegin => 2
  | _ => 1

/-- The operands that an instruction has. -/
def Instruction.operandWords (i : Instruction) : List UInt16 := [i.a, i.b].take i.op.operandCount

/-- The number of operands shown. -/
def Shown.count : Shown → Nat
  | nothing => 0
  | number | name | value => 1
  | targets => 2

/-- A listing shows the operands that the operation has. -/
theorem OpCode.count_shown (op : OpCode) : op.row.shown.count = op.operandCount := by
  cases op <;> rfl

/-- Execution reads no operand that the operation does not have. -/
theorem Exec.execute_of_operands {i j : Instruction} (op : i.op = j.op) (operands : i.operandWords = j.operandWords) :
    execute i = execute j := by
  obtain ⟨code, a, b⟩ := i
  obtain ⟨code', a', b'⟩ := j
  cases op
  have none (h : code.operandCount = 0) : execute ⟨code, a, b⟩ = execute ⟨code, a', b'⟩ := by
    cases code <;> cases h <;> rfl
  have one (h : code.operandCount = 1) : execute ⟨code, a, b⟩ = execute ⟨code, a, b'⟩ := by
    cases code <;> cases h <;> rfl
  unfold Instruction.operandWords at operands
  dsimp only at operands
  rcases count : code.operandCount with _ | _ | more
  · exact none count
  · rw [count] at operands
    cases operands
    exact one count
  · rw [count, List.take_of_length_le (by simp), List.take_of_length_le (by simp)] at operands
    cases operands
    rfl

/-- Reads operands back: a number behind spaces, or two numbers behind labels of two and three bytes. -/
def Shown.read (t : Text) : Shown → List Nat
  | .nothing => []
  | .number | .name | .value => [Text.number (Text.trimmed t)]
  | .targets => [Text.number (t.drop 2), Text.number (((t.drop 2).dropWhile Text.isDigit).drop 3)]

namespace Chunk

variable {c : Code} {ip : Nat} {i j : Instruction}

/-- The operands shown are read back, whatever the constants are. -/
theorem read_operandText (c : Code) (i : Instruction) :
    i.op.row.shown.read (c.operandText i) = i.operandWords.map UInt16.toNat := by
  have ends : Text.StopsDigits [] := nofun
  have label : Text.StopsDigits (" f:" ++ Text.ofNat i.b.toNat) := by
    intro b front
    cases front
    rfl
  have padded {rest : Text} (stops : Text.StopsDigits rest) :
      Text.number (Text.trimmed (Text.padLeft i.op.row.width 32 (Text.ofNat i.a.toNat) ++ rest)) = i.a.toNat :=
    Text.number_trimmed_padLeft_append i.op.row.width i.a.toNat stops
  have bracketed (t : Text) :
      Text.number (Text.trimmed (Text.padLeft i.op.row.width 32 (Text.ofNat i.a.toNat) ++ " (" ++ t ++ ")")) =
        i.a.toNat := by
    rw [List.append_assoc, List.append_assoc]
    apply padded
    intro b front
    cases front
    rfl
  unfold operandText Instruction.operandWords
  rw [← i.op.count_shown]
  cases i.op.row.shown with
  | nothing => rfl
  | number =>
    have back := padded ends
    rw [List.append_nil] at back
    exact congrArg (fun n => [n]) back
  | name => exact congrArg (fun n => [n]) (bracketed (c.nameText i.a.toNat))
  | value => exact congrArg (fun n => [n]) (bracketed (c.constantText i.a.toNat))
  | targets =>
    have first := Text.number_ofNat_append i.a.toNat label
    have second := Text.number_ofNat_append i.b.toNat ends
    have behind := Text.dropWhile_ofNat_append i.a.toNat label
    rw [List.append_nil] at second
    have behindC (t : Text) : (("c:" : Text) ++ t).drop 2 = t := rfl
    have behindF (t : Text) : ((" f:" : Text) ++ t).drop 3 = t := rfl
    simp only [Shown.read, List.append_assoc, behindC, first, behind, behindF, second]
    rfl

/-- Operands that are not shown are not in the line. -/
theorem operandText_congr (c : Code) (op : i.op = j.op) (operands : i.operandWords = j.operandWords) :
    c.operandText i = c.operandText j := by
  obtain ⟨code, a, b⟩ := i
  obtain ⟨code', a', b'⟩ := j
  cases op
  unfold Instruction.operandWords at operands
  unfold operandText
  dsimp only at operands ⊢
  rw [← code.count_shown] at operands
  cases kind : code.row.shown <;> simp_all [Shown.count]

/-- The first word behind the margin is the mnemonic. -/
theorem firstWord_line (c : Code) (i : Instruction) :
    Text.firstWord (Text.padRight i.op.row.column i.op.row.mnemonic ++ c.operandText i) = i.op.row.mnemonic := by
  apply Text.firstWord_padRight_append i.op.mnemonic_solid
  rcases i.op.mnemonic_padded with none | padded
  · left
    unfold operandText
    rw [none]
    rfl
  · right
    exact padded

/-- Two instructions have the same line at an index exactly if they are the same operation and show the same operands. -/
theorem lineOf_eq_iff (c : Code) (ip : Nat) (i j : Instruction) :
    c.lineOf ip i = c.lineOf ip j ↔ i.op = j.op ∧ i.operandWords = j.operandWords := by
  constructor
  · intro same
    unfold lineOf at same
    rw [List.append_assoc, List.append_assoc, List.append_right_inj] at same
    have mnemonic := congrArg Text.firstWord same
    rw [firstWord_line, firstWord_line] at mnemonic
    have op := OpCode.mnemonic_inj mnemonic
    rw [op, List.append_right_inj] at same
    have operands := congrArg j.op.row.shown.read same
    rw [read_operandText, ← op, read_operandText] at operands
    exact ⟨op, List.map_injective_iff.2 (fun _ _ => UInt16.toNat_inj.1) operands⟩
  · rintro ⟨op, operands⟩
    unfold lineOf
    rw [op, operandText_congr c op operands]

/-- Instructions that have the same line at an index do the same. -/
theorem execute_eq_of_lineOf_eq (same : c.lineOf ip i = c.lineOf ip j) : Exec.execute i = Exec.execute j := by
  obtain ⟨op, operands⟩ := (lineOf_eq_iff c ip i j).1 same
  exact Exec.execute_of_operands op operands

/-! ## Lines of a chunk -/

/-- The chunk with another instruction at an index. -/
def place (c : Code) (ip : Nat) (i : Instruction) : Code := { c with code := c.code.setIfInBounds ip i }

/-- The line where an instruction was placed is its line: neither the margin nor the names depend on the code. -/
theorem lineText_place (there : ip < c.size) (i : Instruction) : (c.place ip i).lineText ip = c.lineOf ip i := by
  have found : (c.place ip i).code.getD ip { op := .unknown } = i := by
    unfold place
    rw [Array.getD_eq_getD_getElem?, Array.getElem?_setIfInBounds_self_of_lt there, Option.getD_some]
  unfold lineText
  rw [found]
  rfl

/-- **A line determines its instruction.** Two instructions that are placed at the same index of an otherwise equal chunk,
with whatever constants and bytes in its names, have the same line exactly if they are the same operation and agree on
the operands that it has and a listing shows: none, the first, or both for a protected region. -/
theorem line_determines_instruction (c : Code) (ip : Nat) (there : ip < c.size) (i j : Instruction) :
    (c.place ip i).lineText ip = (c.place ip j).lineText ip ↔ i.op = j.op ∧ i.operandWords = j.operandWords := by
  rw [lineText_place there, lineText_place there]
  exact lineOf_eq_iff c ip i j

/-- A chunk whose only name looks like the mark of an operand that selects none. -/
def masquerade : Code := { code := #[{ op := .ret }], lines := #[1], constants := #[.text "?7"] }

/-- The operands 0 and 7 select the same name there, but have different lines. The second operand of a look-up is not
shown, that of a protected region is. -/
theorem lines_of_masquerade :
    masquerade.nameText 0 = masquerade.nameText 7 ∧
    (masquerade.place 0 ⟨.getGlobal, 0, 0⟩).lineText 0 ≠ (masquerade.place 0 ⟨.getGlobal, 7, 0⟩).lineText 0 ∧
    (masquerade.place 0 ⟨.getGlobal, 7, 1⟩).lineText 0 = (masquerade.place 0 ⟨.getGlobal, 7, 2⟩).lineText 0 ∧
    (masquerade.place 0 ⟨.tryBegin, 7, 1⟩).lineText 0 ≠ (masquerade.place 0 ⟨.tryBegin, 7, 2⟩).lineText 0 := by
  have there : 0 < masquerade.size := by decide
  refine ⟨by decide +kernel, ?_, ?_, ?_⟩
  · rw [ne_eq, line_determines_instruction masquerade 0 there]
    decide
  · rw [line_determines_instruction masquerade 0 there]
    decide
  · rw [ne_eq, line_determines_instruction masquerade 0 there]
    decide

end Chunk

end ScriptVm
