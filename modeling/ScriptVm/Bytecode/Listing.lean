import ScriptVm.Bytecode.Chunk
import ScriptVm.Number.FloatText

/-!
# Listings

The readable form of bytecode: one line for each instruction, with its index, its source line
unless that of the instruction before, the mnemonic and the operands. A listing of a function
ends with the listings of the functions among its constants.
-/

set_option autoImplicit false

namespace ScriptVm

namespace Chunk

/-- The name that an operand selects, or a mark with the operand if it selects none. -/
def nameText (c : Code) (index : Nat) : Text :=
  match (c.constants[index]?).bind Constant.text? with
  | some t => t
  | none => "?" ++ Text.ofNat index

end Chunk

/-- A constant as a listing shows it. -/
def Constant.listed : Constant → Text
  | null => "null"
  | bool b => if b then "true" else "false"
  | int n => Text.ofInt n.toInt
  | float x => Binary64.floatText x
  | decimal t => t ++ "D"
  | text t => "\"" ++ t ++ "\""
  | function p => "<fn " ++ p.name ++ ">"

namespace Chunk

/-- The constant that an operand selects, as a listing shows it. -/
def constantText (c : Code) (index : Nat) : Text :=
  match c.constants[index]? with
  | some k => k.listed
  | none => "???"

/-- The operands of an instruction, as the row of its operation wants them. -/
def operandText (c : Code) (i : Instruction) : Text :=
  let padded := Text.padLeft i.op.row.width 32 (Text.ofNat i.a.toNat)
  match i.op.row.shown with
  | .nothing => ""
  | .number => padded
  | .name => padded ++ " (" ++ c.nameText i.a.toNat ++ ")"
  | .value => padded ++ " (" ++ c.constantText i.a.toNat ++ ")"
  | .targets => "c:" ++ Text.ofNat i.a.toNat ++ " f:" ++ Text.ofNat i.b.toNat

/-- The index and the source line in front of an instruction. -/
def marginText (c : Code) (ip : Nat) : Text :=
  let line : Text :=
    if 0 < ip && c.lineAt ip == c.lineAt (ip - 1) then "   |"
    else Text.padLeft 4 32 (Text.ofNat (c.lineAt ip))
  Text.padLeft 4 48 (Text.ofNat ip) ++ " " ++ line ++ " "

/-- The line of an instruction `i` at index `ip`. -/
def lineOf (c : Code) (ip : Nat) (i : Instruction) : Text :=
  c.marginText ip ++ Text.padRight i.op.row.column i.op.row.mnemonic ++ c.operandText i

/-- The line of the instruction at index `ip`. -/
def lineText (c : Code) (ip : Nat) : Text := c.lineOf ip (c.code.getD ip { op := .unknown })

/-- The lines of all instructions. -/
def lineTexts (c : Code) : List Text := (List.range c.size).map c.lineText

end Chunk

/-- The title line and the instructions of a function. -/
def Proto.ownListing (p : Proto) : Text :=
  let title : Text :=
    "== " ++ p.title ++ " (arity=" ++ Text.ofNat p.arity ++ ", upvalues="
      ++ Text.ofNat p.captures.length ++ ") ==\n"
  title ++ p.chunk.lineTexts.flatMap fun line => line ++ Text.ofString "\n"

mutual

/-- The listing of a function and of the functions among its constants. -/
def Proto.listing : Proto → Text
  | ⟨id, name, arity, defaults, params, captures, chunk⟩ =>
    Proto.ownListing ⟨id, name, arity, defaults, params, captures, chunk⟩ ++ nestedIn chunk

/-- The listings of the functions in a chunk, each behind an empty line. -/
def nestedIn : Code → Text
  | ⟨_, _, ⟨constants⟩⟩ => nestedAmong constants

/-- The listings of the functions in a list of constants. -/
def nestedAmong : List Constant → Text
  | [] => []
  | k :: rest => nestedOf k ++ nestedAmong rest

/-- The listing of a constant that is a function. -/
def nestedOf : Constant → Text
  | .function p => "\n" ++ Proto.listing p
  | _ => []

end

end ScriptVm
