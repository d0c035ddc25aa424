import ScriptVm.Text

/-!
# Operations of the stack machine

Every operation has a name, and a row of the listing format: its mnemonic, the column up to
which the mnemonic is padded, and what is shown of its operands. Both are rows of one table,
`OpCode.row`.
-/

set_option autoImplicit false

namespace ScriptVm

/-- The operations. `unknown` is the sentinel `OpCode_COUNT` that ends the enumeration: it is no
operation, and of the codes that are none it is the only one that occurs here. -/
inductive OpCode where
  | constant | pushNull | pushTrue | pushFalse | pop | dup
  | getLocal | setLocal | getGlobal | setGlobal | defineGlobal
  | getUpvalue | setUpvalue | closeUpvalue
  | add | subtract | multiply | divide | modulo | negate
  | equal | notEqual | less | lessEqual | greater | greaterEqual | not
  | jump | jumpIfFalse | loop | jumpIfFalseNoPop | jumpIfTrueNoPop | nullishJump
  | call | closure | ret
  | array | hash | range | getIndex | setIndex | buildString | spread
  | getProperty | setProperty
  | newClass | inherit | method | staticMethod | new | getThis | getSuper
  | field | staticField | constField | staticConstField
  | tryBegin | tryEnd | throwTop
  | getIter | forIter
  | print | namedArg | importModule
  | unknown
  deriving Repr, DecidableEq, Inhabited

/-- What a listing shows of the operands. -/
inductive Shown where
  /-- Nothing. -/
  | nothing
  /-- The first operand. -/
  | number
  /-- The first operand and the name that it selects. -/
  | name
  /-- The first operand and the constant that it selects. -/
  | value
  /-- Both operands, as the two targets of a protected region. -/
  | targets
  deriving Repr, DecidableEq, Inhabited

/-- A row of the operation table. -/
structure OpRow where
  name : Text
  mnemonic : Text
  shown : Shown := .nothing
  /-- The mnemonic is padded to this width. -/
  column : Nat := 0
  /-- The first operand is padded to this width. -/
  width : Nat := 5

namespace OpCode

/-- A row whose operand starts behind column 13. -/
def plain (name mnemonic : Text) (shown : Shown) : OpRow := ⟨name, mnemonic, shown, 13, 5⟩

/-- A row without operands. -/
def bare (name mnemonic : Text) : OpRow := ⟨name, mnemonic, .nothing, 0, 0⟩

/-- A row whose mnemonic reaches column 14. -/
def wide (name mnemonic : Text) : OpRow := ⟨name, mnemonic, .number, 14, 4⟩

/-- The operation table. -/
def row : OpCode → OpRow
  | constant => ⟨"Constant", "CONSTANT", .value, 9, 5⟩
  | pushNull => bare "Null" "NULL"
  | pushTrue => bare "True" "TRUE"
  | pushFalse => bare "False" "FALSE"
  | pop => bare "Pop" "POP"
  | dup => bare "Dup" "DUP"
  | getLocal => plain "GetLocal" "GET_LOCAL" .number
  | setLocal => plain "SetLocal" "SET_LOCAL" .number
  | getGlobal => plain "GetGlobal" "GET_GLOBAL" .name
  | setGlobal => plain "SetGlobal" "SET_GLOBAL" .name
  | defineGlobal => plain "DefineGlobal" "DEF_GLOBAL" .name
  | getUpvalue => plain "GetUpvalue" "GET_UPVALUE" .number
  | setUpvalue => plain "SetUpvalue" "SET_UPVALUE" .number
  | closeUpvalue => bare "CloseUpvalue" "CLOSE_UPVALUE"
  | add => bare "Add" "ADD"
  | subtract => bare "Subtract" "SUBTRACT"
  | multiply => bare "Multiply" "MULTIPLY"
  | divide => bare "Divide" "DIVIDE"
  | modulo => bare "Modulo" "MODULO"
  | negate => bare "Negate" "NEGATE"
  | equal => bare "Equal" "EQUAL"
  | notEqual => bare "NotEqual" "NOT_EQUAL"
  | less => bare "Less" "LESS"
  | lessEqual => bare "LessEqual" "LESS_EQUAL"
  | greater => bare "Greater" "GREATER"
  | greaterEqual => bare "GreaterEqual" "GREATER_EQUAL"
  | not => bare "Not" "NOT"
  | jump => plain "Jump" "JUMP" .number
  | jumpIfFalse => wide "JumpIfFalse" "JUMP_IF_FALSE"
  | loop => plain "Loop" "LOOP" .number
  | jumpIfFalseNoPop => wide "JumpIfFalseNoPop" "JUMP_FALSE_NP"
  | jumpIfTrueNoPop => wide "JumpIfTrueNoPop" "JUMP_TRUE_NP"
  | nullishJump => plain "NullishJump" "NULLISH_JUMP" .number
  | call => plain "Call" "CALL" .number
  | closure => plain "Closure" "CLOSURE" .value
  | ret => bare "Return" "RETURN"
  | array => plain "Array" "ARRAY" .number
  | hash => plain "Hash" "HASH" .number
  | range => bare "Range" "RANGE"
  | getIndex => bare "GetIndex" "GET_INDEX"
  | setIndex => bare "SetIndex" "SET_INDEX"
  | buildString => plain "BuildString" "BUILD_STRING" .number
  | spread => bare "Spread" "SPREAD"
  | getProperty => plain "GetProperty" "GET_PROPERTY" .name
  | setProperty => plain "SetProperty" "SET_PROPERTY" .name
  | newClass => plain "Class" "CLASS" .name
  | inherit => bare "Inherit" "INHERIT"
  | method => plain "Method" "METHOD" .name
  | staticMethod => plain "StaticMethod" "STATIC_METH" .name
  | new => plain "New" "NEW" .number
  | getThis => bare "GetThis" "GET_THIS"
  | getSuper => plain "GetSuper" "GET_SUPER" .name
  | field => plain "Field" "FIELD" .name
  | staticField => plain "StaticField" "STATIC_FIELD" .name
  | constField => plain "ConstField" "CONST_FIELD" .name
  | staticConstField => plain "StaticConstField" "STATIC_CONST" .name
  | tryBegin => plain "TryBegin" "TRY_BEGIN" .targets
  | tryEnd => bare "TryEnd" "TRY_END"
  | throwTop => bare "Throw" "THROW"
  | getIter => bare "GetIter" "GET_ITER"
  | forIter => plain "ForIter" "FOR_ITER" .number
  | print => plain "Print" "PRINT" .number
  | namedArg => plain "NamedArg" "NAMED_ARG" .name
  | importModule => plain "Import" "IMPORT" .name
  | unknown => bare "Unknown" "UNKNOWN"

/-- The name of the operation. -/
def name (op : OpCode) : Text := op.row.name

/-- All operations, `unknown` last. -/
def all : List OpCode :=
  [constant, pushNull, pushTrue, pushFalse, pop, dup,
   getLocal, setLocal, getGlobal, setGlobal, defineGlobal,
   getUpvalue, setUpvalue, closeUpvalue,
   add, subtract, multiply, divide, modulo, negate,
   equal, notEqual, less, lessEqual, greater, greaterEqual, not,
   jump, jumpIfFalse, loop, jumpIfFalseNoPop, jumpIfTrueNoPop, nullishJump,
   call, closure, ret,
   array, hash, range, getIndex, setIndex, buildString, spread,
   getProperty, setProperty,
   newClass, inherit, method, staticMethod, new, getThis, getSuper,
   field, staticField, constField, staticConstField,
   tryBegin, tryEnd, throwTop,
   getIter, forIter,
   print, namedArg, importModule,
   unknown]

theorem mem_all (op : OpCode) : op ∈ all := by
  cases op <;> decide

/-- The operation of a name. -/
def ofName? (t : Text) : Option OpCode := all.find? fun op => op.name = t

end OpCode

/-- An operation with its two operands. -/
structure Instruction where
  op : OpCode
  a : UInt16 := 0
  b : UInt16 := 0
  deriving Repr, DecidableEq, Inhabited

end ScriptVm
