import ScriptVm.Heap

/-!
# Truth, types and equality of values

`Heap.same` asks for the same object, or for equal values that are no objects. `Heap.equals`
compares arrays item by item, hashes entry by entry whatever their order, and numbers across
integers and floats; all other objects are equal only to themselves, except that two methods
taken from the same receiver are equal.

Equality descends through arrays and hashes. The number of containers bounds the depth of
values that do not contain themselves.
-/

set_option autoImplicit false

namespace ScriptVm

namespace Heap

/-- Null, false, 0 and everything empty are false. Floats are true, zero included. -/
def isTruthy (h : Heap) : Value → Bool
  | .null => false
  | .bool b => b
  | .int n => n ≠ 0
  | .str t => !t.isEmpty
  | .array r => !(h.arrays.get r).isEmpty
  | .hash r => !(h.tables.get r).isEmpty
  | _ => true

/-- The name of the class of an instance. -/
def className (h : Heap) (r : Ref .object) : Text := (h.classes.get (h.objects.get r).cls).name

/-- The name of the type of a reference that leads nowhere. An instance takes it from its class, which
is then undefined. -/
def movedTypeName : RefSort → Text
  | .array => "array"
  | .hash => "hash"
  | .closure => "Function"
  | .native => "Function"
  | .cls => "Class"
  | .object => []
  | .bound => "Method"
  | .method => "Method"
  | .superOf => "Super"

/-- The name of a value's type in error messages. -/
def typeName (h : Heap) : Value → Text
  | .null => "null"
  | .bool _ => "bool"
  | .int _ => "int"
  | .float _ => "float"
  | .decimal _ => "decimal"
  | .str _ => "string"
  | .array _ => "array"
  | .hash _ => "hash"
  | .closure _ => "Function"
  | .native _ => "Function"
  | .cls _ => "Class"
  | .object r => h.className r
  | .bound _ => "Method"
  | .method _ => "Method"
  | .superOf _ => "Super"
  | .namedArg _ => "NamedArg"
  | .moved s => movedTypeName s

/-- The same object, or equal values that are no objects. -/
def same : Value → Value → Bool
  | .null, .null => true
  | .bool a, .bool b => a == b
  | .int a, .int b => a == b
  | .float a, .float b => a == b
  | .decimal a, .decimal b => a == b
  | .str a, .str b => a == b
  | .array a, .array b => a = b
  | .hash a, .hash b => a = b
  | .closure a, .closure b => a = b
  | .native a, .native b => a = b
  | .cls a, .cls b => a = b
  | .object a, .object b => a = b
  | .bound a, .bound b => a = b
  | .method a, .method b => a = b
  | .superOf a, .superOf b => a = b
  | .namedArg a, .namedArg b => a == b
  | .moved a, .moved b => a = b
  | _, _ => false

/-- Equality of values whose containers are nested no deeper than the fuel. -/
def equalsTo (h : Heap) : Nat → Value → Value → Bool
  | 0, _, _ => false
  | fuel + 1, a, b =>
    match a, b with
    | .int m, .float y => m.toFloat == y
    | .float x, .int n => x == n.toFloat
    | .array r, .array s =>
      let xs := (h.arrays.get r).toList
      let ys := (h.arrays.get s).toList
      r = s || (xs.length == ys.length && (xs.zip ys).all fun (x, y) => equalsTo h fuel x y)
    | .hash r, .hash s =>
      let t := h.tables.get r
      let u := h.tables.get s
      r = s || (t.size == u.size && t.entries.toList.all fun (k, x) =>
        match u.get? k with
        | some y => equalsTo h fuel x y
        | none => false)
    | .bound r, .bound s =>
      same (h.bounds.get r).receiver (h.bounds.get s).receiver
        && (h.bounds.get r).target = (h.bounds.get s).target
    | .method r, .method s =>
      (h.methods.get r).name == (h.methods.get s).name
        && same (h.methods.get r).receiver (h.methods.get s).receiver
    | a, b => same a b

/-- Equality of values. -/
def equals (h : Heap) (a b : Value) : Bool := h.equalsTo (h.containers + 2) a b

end Heap

end ScriptVm
