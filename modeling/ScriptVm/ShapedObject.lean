import ScriptVm.Shape
import ScriptVm.Value

/-!
# Shaped objects

A shaped object stores its properties in a row, each with its symbol. Its shape gives the
offsets of the first properties. Properties that came after the shape was sealed follow behind
them and are found by searching the row.
-/

set_option autoImplicit false

namespace ScriptVm

/-- A row of properties laid out by a shape. -/
structure ShapedObject where
  shape : ShapeId := ShapeRegistry.root
  fields : Array (Symbol × Value) := #[]

namespace ShapedObject

instance : Inhabited ShapedObject := ⟨{}⟩

def size (o : ShapedObject) : Nat := o.fields.size

/-- The value at an offset, if the property there is `s`. -/
def fieldAt (o : ShapedObject) (offset : Nat) (s : Symbol) : Option Value :=
  match o.fields[offset]? with
  | some (t, v) => if t = s then some v else none
  | none => none

/-- Replaces the value at an offset, if the property there is `s`. -/
def setFieldAt? (o : ShapedObject) (offset : Nat) (s : Symbol) (v : Value) : Option ShapedObject :=
  match o.fields[offset]? with
  | some (t, _) => if t = s then some { o with fields := o.fields.setIfInBounds offset (t, v) } else none
  | none => none

/-- The first value of `s` in the row. -/
def search (o : ShapedObject) (s : Symbol) : Option Value :=
  (o.fields.find? fun f => f.1 = s).map Prod.snd

/-- The value of a property. -/
def get (o : ShapedObject) (r : ShapeRegistry) (s : Symbol) : Option Value :=
  match (r.offset? o.shape s).bind fun offset => o.fieldAt offset s with
  | some v => some v
  | none => o.search s

def has (o : ShapedObject) (r : ShapeRegistry) (s : Symbol) : Bool := (o.get r s).isSome

/-- The row with `(s, v)` at `offset`, filled up with nulls before it. -/
def placeAt (fields : Array (Symbol × Value)) (offset : Nat) (s : Symbol) (v : Value) :
    Array (Symbol × Value) :=
  (fields ++ Array.replicate (offset + 1 - fields.size) (s, Value.null)).setIfInBounds offset (s, v)

/-- The outcome of setting a property. -/
structure Update where
  object : ShapedObject
  registry : ShapeRegistry
  /-- The place that a new property got by a step to another shape. -/
  placement : Option ShapeRegistry.Placement := none

/-- Sets a property that the row does not hold yet. It gets a step to the next shape, unless the
shape is sealed or the row has already outgrown it; then it goes behind the row. -/
def append (o : ShapedObject) (r : ShapeRegistry) (s : Symbol) (v : Value) : Update :=
  let behind : ShapedObject := { o with fields := o.fields.push (s, v) }
  if r.total o.shape < o.fields.size then { object := behind, registry := r }
  else
    let (place, r) := r.addProperty o.shape s
    if place.shape = o.shape then { object := behind, registry := r }
    else
      { object := { shape := place.shape, fields := placeAt o.fields place.offset s v }
        registry := r
        placement := some place }

/-- Sets a property: in place if the object has it, and else by `append`. -/
def set (o : ShapedObject) (r : ShapeRegistry) (s : Symbol) (v : Value) : Update :=
  match (r.offset? o.shape s).bind fun offset => o.setFieldAt? offset s v with
  | some o => { object := o, registry := r }
  | none =>
    match o.fields.findIdx? fun f => f.1 = s with
    | some i => { object := { o with fields := o.fields.setIfInBounds i (s, v) }, registry := r }
    | none => o.append r s v

end ShapedObject

end ScriptVm
