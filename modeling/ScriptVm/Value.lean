import ScriptVm.Text

/-!
# Values

A value is null, a boolean, a number, a text, or a reference to an object of the heap.
References are typed by the kind of object they lead to. A reference that has been moved out of its
place leaves one behind that leads nowhere; what becomes of a program that follows it is undefined.

Four kinds of value can be a key of a hash: null, booleans, integers and texts.
-/

set_option autoImplicit false

namespace ScriptVm

/-- The kinds of object in the heap. -/
inductive Kind where
  | array
  | table
  | closure
  | native
  | cls
  | statics
  | object
  | bound
  | method
  | cell
  deriving Repr, DecidableEq, Inhabited

/-- A reference to an object of kind `k`. -/
structure Ref (k : Kind) where
  index : Nat
  deriving Repr, DecidableEq, Inhabited

/-- The sorts of reference that a value can be. -/
inductive RefSort where
  | array
  | hash
  | closure
  | native
  | cls
  | object
  | bound
  | method
  | superOf
  deriving Repr, DecidableEq, Inhabited

/-- The values of the language. -/
inductive Value where
  | null
  | bool (b : Bool)
  | int (n : Int64)
  | float (x : Float)
  /-- A decimal literal, kept as written. -/
  | decimal (t : Text)
  | str (t : Text)
  | array (r : Ref .array)
  | hash (r : Ref .table)
  | closure (r : Ref .closure)
  | native (r : Ref .native)
  | cls (r : Ref .cls)
  | object (r : Ref .object)
  /-- A method taken from a receiver. -/
  | bound (r : Ref .bound)
  /-- A builtin method of an array, hash or text, resolved by name when called. -/
  | method (r : Ref .method)
  /-- The methods of a class, seen from a subclass. -/
  | superOf (r : Ref .cls)
  /-- The mark in front of a named argument. -/
  | namedArg (name : Text)
  /-- What is left of a reference that has been moved out: it leads nowhere. -/
  | moved (s : RefSort)

namespace Value

instance : Inhabited Value := ⟨.null⟩

def isNull : Value → Bool
  | null => true
  | _ => false

def isNamedArg : Value → Bool
  | namedArg _ => true
  | _ => false

/-- The number of an integer or float, as a float. -/
def number? : Value → Option Float
  | int n => some n.toFloat
  | float x => some x
  | _ => none

/-- What stays in a slot after its value has been moved out. Texts leave an empty text, and references
one that leads nowhere; other values are copied. -/
def vacated : Value → Value
  | decimal _ => decimal []
  | str _ => str []
  | namedArg _ => namedArg []
  | array _ => moved .array
  | hash _ => moved .hash
  | closure _ => moved .closure
  | native _ => moved .native
  | cls _ => moved .cls
  | object _ => moved .object
  | bound _ => moved .bound
  | method _ => moved .method
  | superOf _ => moved .superOf
  | v => v

end Value

/-- The keys of a hash. -/
inductive Key where
  | null
  | bool (b : Bool)
  | int (n : Int64)
  | text (t : Text)
  deriving Repr, DecidableEq, Inhabited

namespace Key

/-- The key that a value makes, if it can be a key. -/
def ofValue? : Value → Option Key
  | .null => some .null
  | .bool b => some (.bool b)
  | .int n => some (.int n)
  | .str t => some (.text t)
  | _ => none

def toValue : Key → Value
  | null => .null
  | bool b => .bool b
  | int n => .int n
  | text t => .str t

@[simp] theorem ofValue?_toValue (k : Key) : ofValue? k.toValue = some k := by
  cases k <;> rfl

end Key

end ScriptVm
