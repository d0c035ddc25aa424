import ScriptVm.Heap.Comparison
import ScriptVm.Number.FloatText

/-!
# The text of a value

What a program prints of a value. Arrays and hashes show their contents; the number of
containers bounds the depth of values that do not contain themselves. The text of a reference that
leads nowhere is undefined, and empty here.

`Heap.isCyclic` tells whether a value contains itself, in which case it has no text.
-/

set_option autoImplicit false

namespace ScriptVm

namespace Heap

/-- The name of a function. -/
def callableName (h : Heap) : Callable → Text
  | .closure r => (h.closures.get r).proto.name
  | .native r => (h.natives.get r).name

/-- The text of a value whose containers are nested no deeper than the fuel. -/
def textTo (h : Heap) : Nat → Value → Text
  | 0, _ => []
  | fuel + 1, v =>
    match v with
    | .null => "null"
    | .bool b => if b then "true" else "false"
    | .int n => Text.ofInt n.toInt
    | .float x => Binary64.floatText x
    | .decimal t => t
    | .str t => t
    | .array r => "[" ++ Text.join ", " ((h.arrays.get r).toList.map (textTo h fuel)) ++ "]"
    | .hash r =>
      let entry : Key × Value → Text := fun (k, x) => textTo h fuel k.toValue ++ " => " ++ textTo h fuel x
      "\x7b" ++ Text.join ", " ((h.tables.get r).entries.toList.map entry) ++ "\x7d"
    | .closure r => "<fn " ++ h.callableName (.closure r) ++ ">"
    | .native r => "<native fn " ++ h.callableName (.native r) ++ ">"
    | .cls r => "<class " ++ (h.classes.get r).name ++ ">"
    | .object r => "<" ++ h.className r ++ " instance>"
    | .bound r =>
      let b := h.bounds.get r
      "<method " ++ h.typeName b.receiver ++ "." ++ h.callableName b.target ++ ">"
    | .method r =>
      let m := h.methods.get r
      "<method " ++ h.typeName m.receiver ++ "." ++ m.name ++ ">"
    | .superOf r => "<super of " ++ (h.classes.get r).name ++ ">"
    | .namedArg name => "<named arg " ++ name ++ ">"
    | .moved _ => []

/-- The text of a value. -/
def text (h : Heap) (v : Value) : Text := h.textTo (h.containers + 2) v

/-- Whether a value leads back into one of the containers in `path`, or contains itself, as far
as the fuel reaches. -/
def cyclicTo (h : Heap) : Nat → List (Kind × Nat) → Value → Bool
  | 0, _, _ => false
  | fuel + 1, path, v =>
    match v with
    | .array r =>
      path.contains (.array, r.index)
        || (h.arrays.get r).toList.any (cyclicTo h fuel ((.array, r.index) :: path))
    | .hash r =>
      path.contains (.table, r.index)
        || (h.tables.get r).values.any (cyclicTo h fuel ((.table, r.index) :: path))
    | _ => false

/-- Whether an array or hash contains itself through arrays and hashes. -/
def isCyclic (h : Heap) (v : Value) : Bool := h.cyclicTo (h.containers + 2) [] v

/-- The text of a value, unless it contains itself. -/
def text? (h : Heap) (v : Value) : Option Text := if h.isCyclic v then none else some (h.text v)

end Heap

end ScriptVm
