import ScriptVm.Assoc
import ScriptVm.SymbolTable

/-!
# Shapes

A shape says at which offset an object stores each of its properties. Shapes form a tree: the
root has no properties, and every other shape adds one property behind those of its parent.
Objects that gain the same properties in the same order share their shape, since the step from
a shape by a symbol is remembered, both in one table for all shapes and in the shape itself.

A sealed shape has no further steps. Shapes are numbered from one counter, which also numbers
the method tables of classes, so no number has two meanings.
-/

set_option autoImplicit false

namespace ScriptVm

/-- The number of a shape or of a method table. -/
abbrev ShapeId := Nat

/-- A node of the tree of shapes. -/
structure Shape where
  parent : Option ShapeId := none
  /-- The property that this shape adds, and its offset. -/
  own : Option (Symbol × Nat) := none
  /-- The shapes one step further, by the symbol that they add. -/
  next : Assoc Symbol ShapeId := Assoc.empty
  isSealed : Bool := false

instance : Inhabited Shape := ⟨{}⟩

/-- The offset of `s`, if this shape adds it. -/
def Shape.ownOffset? (n : Shape) (s : Symbol) : Option Nat :=
  match n.own with
  | some (t, offset) => if t = s then some offset else none
  | none => none

/-- All shapes, the steps between them, and the counter of numbers. -/
structure ShapeRegistry where
  nodes : Assoc ShapeId Shape
  transitions : Assoc (ShapeId × Symbol) ShapeId := Assoc.empty
  nextId : ShapeId := 1

namespace ShapeRegistry

/-- The number of the shape without properties. -/
def root : ShapeId := 0

/-- Only the root. -/
def initial : ShapeRegistry := { nodes := ⟨[(root, {})]⟩ }

instance : Inhabited ShapeRegistry := ⟨initial⟩

/-- A number that nothing has yet. The counter has no end: numbers are never used again. -/
def drawId (r : ShapeRegistry) : ShapeId × ShapeRegistry :=
  (r.nextId, { r with nextId := r.nextId + 1 })

def get? (r : ShapeRegistry) (id : ShapeId) : Option Shape := r.nodes.get? id

def size (r : ShapeRegistry) : Nat := r.nodes.size

/-- The shape `id` and its ancestors, as many as the fuel allows. -/
def chainFrom (r : ShapeRegistry) : Nat → ShapeId → List Shape
  | 0, _ => []
  | fuel + 1, id =>
    match r.get? id with
    | none => []
    | some n =>
      n :: match n.parent with
        | none => []
        | some p => chainFrom r fuel p

/-- The shape `id` and all its ancestors. A parent has a smaller number than its child, so `id`
bounds the number of steps. -/
def chain (r : ShapeRegistry) (id : ShapeId) : List Shape := r.chainFrom (id + 1) id

/-- The offset of a property in a shape. -/
def offset? (r : ShapeRegistry) (id : ShapeId) (s : Symbol) : Option Nat :=
  (r.chain id).findSome? fun n => n.ownOffset? s

def has (r : ShapeRegistry) (id : ShapeId) (s : Symbol) : Bool := (r.offset? id s).isSome

/-- The number of properties of a shape. -/
def total (r : ShapeRegistry) (id : ShapeId) : Nat := ((r.chain id).filterMap Shape.own).length

def isSealed (r : ShapeRegistry) (id : ShapeId) : Bool :=
  match r.get? id with
  | some n => n.isSealed
  | none => false

/-- Forbids further steps from a shape. -/
def sealShape (r : ShapeRegistry) (id : ShapeId) : ShapeRegistry :=
  match r.get? id with
  | some n => { r with nodes := r.nodes.insert id { n with isSealed := true } }
  | none => r

/-- Where a property ended up. -/
structure Placement where
  shape : ShapeId
  offset : Nat
  /-- The shape that a new shape was made from. -/
  grownFrom : Option ShapeId := none

/-- Makes the shape one step from `parent` by `s`. -/
def grow (r : ShapeRegistry) (parent : ShapeId) (node : Shape) (s : Symbol) :
    Placement × ShapeRegistry :=
  let offset := r.total parent
  let (child, r) := r.drawId
  let nodes := r.nodes.insert parent { node with next := node.next.insert s child }
  ({ shape := child, offset, grownFrom := some parent },
    { r with
      nodes := nodes.insert child { parent := some parent, own := some (s, offset) }
      transitions := r.transitions.insert (parent, s) child })

/-- The shape and offset of `s` after adding it to `id`. The step is made if it is new. A sealed
shape stays as it is, and the offset is then one behind its properties. An unknown shape counts
as the root. -/
def addProperty (r : ShapeRegistry) (id : ShapeId) (s : Symbol) : Placement × ShapeRegistry :=
  let base := if r.nodes.contains id then id else root
  match r.get? base with
  | none => ({ shape := base, offset := 0 }, r)
  | some node =>
    if node.isSealed then ({ shape := base, offset := r.total base }, r)
    else match r.transitions.get? (base, s) with
      | some child =>
        ({ shape := child, offset := ((r.get? child).bind fun n => n.ownOffset? s).getD 0 }, r)
      | none => r.grow base node s

end ShapeRegistry

end ScriptVm
