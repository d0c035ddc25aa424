import ScriptVm.Bytecode.OpCode

/-!
# Chunks and function prototypes

A chunk is a piece of code: instructions, the source line of each, and a pool of constants.
A text occurs at most once in a pool; every other constant gets a place of its own. A pool
holds at most `Chunk.capacity` constants, so that an operand can select each of them.

A prototype is a chunk with the description of its parameters and captured variables. Its
number is unique, and call sites are named after it.
-/

set_option autoImplicit false

namespace ScriptVm

/-- Instructions with their lines, and a pool of constants of type `κ`. -/
structure Chunk (κ : Type) where
  code : Array Instruction := #[]
  lines : Array Nat := #[]
  constants : Array κ := #[]

/-- A variable that a function captures when its closure is made. -/
structure Capture where
  /-- Whether it is a local of the enclosing call, and else one of its captured variables. -/
  isLocal : Bool
  index : Nat
  deriving Repr, DecidableEq, Inhabited

/-- A function prototype over constants of type `κ`. -/
structure ProtoOf (κ : Type) where
  id : Nat
  name : Text := []
  /-- The number of required parameters. -/
  arity : Nat := 0
  /-- The number of optional parameters. -/
  defaults : Nat := 0
  params : List Text := []
  captures : List Capture := []
  chunk : Chunk κ := {}

/-- The constants of a pool. -/
inductive Constant where
  | null
  | bool (b : Bool)
  | int (n : Int64)
  | float (x : Float)
  | decimal (t : Text)
  | text (t : Text)
  | function (p : ProtoOf Constant)

instance : Inhabited Constant := ⟨.null⟩

/-- A function prototype. -/
abbrev Proto := ProtoOf Constant

instance : Inhabited Proto := ⟨{ id := 0 }⟩

/-- A piece of code. -/
abbrev Code := Chunk Constant

/-- The number of parameters, required and optional. Named parameters count even where the two
numbers are smaller. -/
def ProtoOf.totalParams {κ : Type} (p : ProtoOf κ) : Nat := max p.params.length (p.arity + p.defaults)

/-- The name of a function for people. Only a script has none. -/
def ProtoOf.title {κ : Type} (p : ProtoOf κ) : Text := if p.name.isEmpty then "<script>" else p.name

/-- The text of a text constant. -/
def Constant.text? : Constant → Option Text
  | text t => some t
  | _ => none

namespace Chunk

/-- The largest number of constants. -/
def capacity : Nat := 65536

/-- Why a constant was refused. -/
inductive Refusal where
  | tooManyConstants
  deriving Repr, DecidableEq, Inhabited

def Refusal.message : Refusal → Text
  | .tooManyConstants => "too many constants in one chunk"

variable {κ : Type}

def size (c : Chunk κ) : Nat := c.code.size

/-- Appends an instruction and gives its index. -/
def emit (c : Chunk κ) (i : Instruction) (line : Nat) : Nat × Chunk κ :=
  (c.code.size, { c with code := c.code.push i, lines := c.lines.push line })

/-- The source line of an instruction, 0 if there is no such instruction. -/
def lineAt (c : Chunk κ) (ip : Nat) : Nat := c.lines.getD ip 0

/-- Sets the first operand of the instruction at `ip`. -/
def patchOperand (c : Chunk κ) (ip : Nat) (a : UInt16) : Chunk κ :=
  { c with code := c.code.modify ip fun i => { i with a } }

/-- Points the forward jump at `ip` to the end of the code, counted modulo the width of an
operand. -/
def patchJump (c : Chunk κ) (ip : Nat) : Chunk κ :=
  c.patchOperand ip (UInt16.ofNat (c.code.size - ip - 1))

/-- Appends a constant to the pool, if there is room, and gives its index. -/
def appendConstant (c : Chunk κ) (k : κ) : Except Refusal Nat × Chunk κ :=
  if c.constants.size < capacity then
    (.ok c.constants.size, { c with constants := c.constants.push k })
  else (.error .tooManyConstants, c)

/-- The index of a text in the pool, which it enters if it is not there. -/
def addText (c : Code) (t : Text) : Except Refusal Nat × Code :=
  match c.constants.findIdx? fun k => k.text? = some t with
  | some i => (.ok i, c)
  | none => c.appendConstant (.text t)

/-- Adds a constant and gives its index. A text that is there already is not added again. -/
def addConstant (c : Code) (k : Constant) : Except Refusal Nat × Code :=
  match k with
  | .text t => c.addText t
  | k => c.appendConstant k

end Chunk

end ScriptVm
