import ScriptVm.Text

/-!
# Runtime errors and diagnostics

A runtime error is a cause with its payload and the source position of the instruction that
failed. The wording of every cause is in this module: `Cause.message` for the kinds, and one
named constructor for each type error and general error that the machine itself raises.
-/

set_option autoImplicit false

namespace ScriptVm

/-- A source position. Column 0 stands for an unknown column. -/
structure Span where
  line : Nat := 0
  column : Nat := 0
  deriving Repr, DecidableEq, Inhabited

/-- `line:column`. -/
def Span.text (s : Span) : Text := Text.ofNat s.line ++ ":" ++ Text.ofNat s.column

/-- Why a run failed. -/
inductive Cause where
  | divisionByZero
  | undefinedVariable (name : Text)
  | notCallable
  | wrongArity (expected got : Nat)
  | typeError (detail : Text)
  | indexOutOfBounds (index : Int64) (length : Nat)
  | noSuchProperty (valueType property : Text)
  | notAClass (name : Text)
  | general (message : Text)
  deriving Repr, DecidableEq, Inhabited

namespace Cause

/-- The name of the kind of error. -/
def kind : Cause → Text
  | divisionByZero => "DivisionByZero"
  | undefinedVariable _ => "UndefinedVariable"
  | notCallable => "NotCallable"
  | wrongArity _ _ => "WrongArity"
  | typeError _ => "TypeError"
  | indexOutOfBounds _ _ => "IndexOutOfBounds"
  | noSuchProperty _ _ => "NoSuchProperty"
  | notAClass _ => "NotAClass"
  | general _ => "General"

/-- The message, without a position. -/
def message : Cause → Text
  | divisionByZero => "Division by zero"
  | undefinedVariable name => "Undefined variable '" ++ name ++ "'"
  | notCallable => "Cannot call non-function value"
  | wrongArity expected got =>
    "Wrong number of arguments: expected " ++ Text.ofNat expected ++ ", got " ++ Text.ofNat got
  | typeError detail => "Type error: " ++ detail
  | indexOutOfBounds index length =>
    "Index out of bounds: " ++ Text.ofInt index.toInt ++ " (length " ++ Text.ofNat length ++ ")"
  | noSuchProperty valueType property =>
    "Cannot access property '" ++ property ++ "' on " ++ valueType
  | notAClass name => "Cannot instantiate '" ++ name ++ "'"
  | general message => message

/-! ## General errors of the machine -/

def integerOverflow : Cause := general "Integer overflow"

def stackOverflow : Cause := general "Stack overflow"

def rangeTooLarge : Cause := general "Range too large"

def repetitionTooLarge : Cause := general "String repetition too large"

def invalidOpcode : Cause := general "Invalid opcode"

def classExpected : Cause := general "Expected a class on the stack"

def tooManyArguments (n : Nat) : Cause := general ("Too many arguments (" ++ Text.ofNat n ++ ")")

def notAName (index : Nat) : Cause := general ("Constant " ++ Text.ofNat index ++ " is not a name")

def notAFunction (index : Nat) : Cause :=
  general ("Constant " ++ Text.ofNat index ++ " is not a function")

/-- A mark of a named argument is the last of the arguments. -/
def noValueFor (name : Text) : Cause := general ("Named argument '" ++ name ++ "' has no value")

/-! ## Type errors of the machine: the arguments are names of types unless said otherwise -/

def cannotAdd (a b : Text) : Cause := typeError ("Cannot add " ++ a ++ " and " ++ b)

/-- The text names the operands the other way round. -/
def cannotSubtract (a b : Text) : Cause := typeError ("Cannot subtract " ++ b ++ " from " ++ a)

def cannotMultiply (a b : Text) : Cause := typeError ("Cannot multiply " ++ a ++ " and " ++ b)

def cannotDivide (a b : Text) : Cause := typeError ("Cannot divide " ++ a ++ " by " ++ b)

def cannotModulo (a b : Text) : Cause := typeError ("Cannot modulo " ++ a ++ " by " ++ b)

def cannotNegate (a : Text) : Cause := typeError ("Cannot negate " ++ a)

def cannotCompare (a b : Text) : Cause := typeError ("Cannot compare " ++ a ++ " and " ++ b)

def rangeOperands : Cause := typeError "Range requires integer operands"

def cannotIndex (object index : Text) : Cause :=
  typeError ("Cannot index " ++ object ++ " with " ++ index)

def cannotSetIndex (object : Text) : Cause := typeError ("Cannot set index on " ++ object)

def badKey (key : Text) : Cause := typeError ("Cannot use " ++ key ++ " as hash key")

def cannotIterate (object : Text) : Cause := typeError ("Cannot iterate over " ++ object)

def cannotSetProperty (object : Text) : Cause := typeError ("Cannot set property on " ++ object)

/-- The argument is the name of a field. -/
def constantField (field : Text) : Cause :=
  typeError ("Cannot assign to constant field '" ++ field ++ "'")

def badSuperclass (got : Text) : Cause := typeError ("Superclass must be a class, got " ++ got)

/-- The first argument is the name of a method. -/
def badMethod (method got : Text) : Cause :=
  typeError ("Method '" ++ method ++ "' must be a function, got " ++ got)

def superOutside : Cause := typeError "'super' used outside of a subclass method"

/-- Named arguments need parameters with names. -/
def namedUnsupported (callee : Text) : Cause :=
  typeError ("Named arguments are not supported for " ++ callee)

/-- The argument is the name of a parameter. -/
def unknownNamed (name : Text) : Cause := typeError ("Unknown named argument '" ++ name ++ "'")

/-- The argument is the name of a parameter. -/
def duplicateNamed (name : Text) : Cause := typeError ("Duplicate argument '" ++ name ++ "'")

/-- The first argument is the name of a method. -/
def stringWanted (method got : Text) : Cause :=
  typeError (method ++ " expects a string, got " ++ got)

end Cause

/-- A failure at a source position. -/
structure RuntimeError where
  cause : Cause
  span : Span
  deriving Repr, DecidableEq, Inhabited

/-- The message without the position. -/
def RuntimeError.message (e : RuntimeError) : Text := e.cause.message

/-- The message with the position, up to a zero byte. -/
def RuntimeError.report (e : RuntimeError) : Text :=
  Text.beforeNul (e.message ++ " at " ++ e.span.text)

/-- One line of a stack trace. -/
structure TraceEntry where
  function : Text
  line : Nat
  column : Nat := 0
  deriving Repr, DecidableEq, Inhabited

/-- How grave a diagnostic is. -/
inductive Severity where
  | info
  | warning
  | error
  deriving Repr, DecidableEq, Inhabited

/-- A recorded failure with the calls that were under way, innermost first. -/
structure Diagnostic where
  severity : Severity := .error
  error : RuntimeError
  trace : List TraceEntry
  deriving Repr, DecidableEq, Inhabited

end ScriptVm
