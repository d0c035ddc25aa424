import ScriptVm.Bytecode.Chunk
import ScriptVm.Native
import ScriptVm.ShapedObject
import ScriptVm.Table

/-!
# The heap

The objects of a program, one pool for each kind. A pool only grows, and a reference is a
position in its pool, so two references are equal exactly when they lead to the same object.

`Pool.get_alloc`, `Pool.get_alloc_self` and `Pool.get_set` are the laws of a pool.
-/

set_option autoImplicit false

namespace ScriptVm

/-- A growing store of objects of kind `k`. -/
structure Pool (k : Kind) (α : Type) where
  items : Array α := #[]

namespace Pool

variable {k : Kind} {α : Type}

instance : Inhabited (Pool k α) := ⟨{}⟩

def size (p : Pool k α) : Nat := p.items.size

/-- The object of a reference. -/
def get [Inhabited α] (p : Pool k α) (r : Ref k) : α := p.items.getD r.index default

/-- Replaces an object. -/
def set (p : Pool k α) (r : Ref k) (a : α) : Pool k α := ⟨p.items.setIfInBounds r.index a⟩

/-- Stores a new object. -/
def alloc (p : Pool k α) (a : α) : Ref k × Pool k α := (⟨p.items.size⟩, ⟨p.items.push a⟩)

/-- Whether a reference leads to an object. -/
def has (p : Pool k α) (r : Ref k) : Prop := r.index < p.items.size

/-- An object is found where it was put. -/
theorem get_alloc_self [Inhabited α] (p : Pool k α) (a : α) :
    (p.alloc a).2.get (p.alloc a).1 = a := by
  simp [alloc, get]

/-- The other objects are where they were. -/
theorem get_alloc [Inhabited α] (p : Pool k α) (a : α) (r : Ref k) (h : p.has r) :
    (p.alloc a).2.get r = p.get r := by
  have h : r.index < p.items.size := h
  simp [alloc, get, Array.getD_eq_getD_getElem?, Array.getElem?_push, Nat.ne_of_lt h]

/-- A written object is found in its place, and the others in theirs. -/
theorem get_set [Inhabited α] (p : Pool k α) (r s : Ref k) (a : α) (h : p.has r) :
    (p.set r a).get s = if r = s then a else p.get s := by
  have h : r.index < p.items.size := h
  obtain ⟨i⟩ := r
  obtain ⟨j⟩ := s
  by_cases e : i = j
  · subst e
    simp only at h
    simp [set, get, h]
  · simp [set, get, Array.getD_eq_getD_getElem?, e]

end Pool

/-- A captured variable: a slot of the stack while its call is under way, and later a value of
its own. -/
inductive Cell where
  | onStack (slot : Nat)
  | closed (v : Value)

instance : Inhabited Cell := ⟨.closed .null⟩

/-- A function with its captured variables. -/
structure Closure where
  proto : Proto
  cells : List (Ref .cell) := []
  /-- The name of the class that holds this function as a method. -/
  home : Text := []
  /-- The superclass of that class. -/
  homeSuper : Option (Ref .cls) := none

instance : Inhabited Closure := ⟨{ proto := default }⟩

/-- A function of either sort. -/
inductive Callable where
  | closure (r : Ref .closure)
  | native (r : Ref .native)
  deriving Repr, DecidableEq, Inhabited

/-- The function as a value. -/
def Callable.toValue : Callable → Value
  | closure r => .closure r
  | native r => .native r

/-- The function in a value. -/
def Callable.ofValue? : Value → Option Callable
  | .closure r => some (.closure r)
  | .native r => some (.native r)
  | _ => none

/-- A method with its receiver. -/
structure BoundMethod where
  receiver : Value
  target : Callable
  deriving Inhabited

/-- The name of a builtin method with its receiver. -/
structure ValueMethod where
  receiver : Value
  name : Text
  deriving Inhabited

/-- A field that a class declares for its instances. -/
structure FieldDecl where
  symbol : Symbol
  name : Text
  initial : Value
  isConst : Bool
  deriving Inhabited

/-- A field of a class itself. -/
structure StaticField where
  value : Value
  isConst : Bool
  deriving Inhabited

/-- The static fields that a class and its rebuilt versions share. -/
abbrev StaticFields := Assoc Text StaticField

/-- A class. Only its static fields change after it has been built. -/
structure Class where
  name : Text
  superclass : Option (Ref .cls) := none
  /-- The number of the method table, new for every build. -/
  tableId : ShapeId := 0
  methods : Assoc Text (Ref .closure) := Assoc.empty
  /-- The method that prepares a new instance, if the class has one of its own. -/
  constructor : Option (Ref .closure) := none
  staticMethods : Assoc Text (Ref .closure) := Assoc.empty
  nativeMethods : Assoc Text (Ref .native) := Assoc.empty
  nativeStatics : Assoc Text (Ref .native) := Assoc.empty
  fields : List FieldDecl := []
  statics : Ref .statics
  nested : Assoc Text (Ref .cls) := Assoc.empty
  deriving Inhabited

/-- An instance of a class. -/
structure Instance where
  cls : Ref .cls
  fields : ShapedObject := {}
  deriving Inhabited

/-- All objects. -/
structure Heap where
  arrays : Pool .array (Array Value) := {}
  tables : Pool .table Table := {}
  closures : Pool .closure Closure := {}
  natives : Pool .native Native := {}
  classes : Pool .cls Class := {}
  statics : Pool .statics StaticFields := {}
  objects : Pool .object Instance := {}
  bounds : Pool .bound BoundMethod := {}
  methods : Pool .method ValueMethod := {}
  cells : Pool .cell Cell := {}

namespace Heap

instance : Inhabited Heap := ⟨{}⟩

def allocArray (h : Heap) (items : Array Value) : Value × Heap :=
  let (r, arrays) := h.arrays.alloc items
  (.array r, { h with arrays })

def allocTable (h : Heap) (t : Table) : Value × Heap :=
  let (r, tables) := h.tables.alloc t
  (.hash r, { h with tables })

def allocClosure (h : Heap) (c : Closure) : Ref .closure × Heap :=
  let (r, closures) := h.closures.alloc c
  (r, { h with closures })

def allocNative (h : Heap) (n : Native) : Value × Heap :=
  let (r, natives) := h.natives.alloc n
  (.native r, { h with natives })

def allocClass (h : Heap) (c : Class) : Ref .cls × Heap :=
  let (r, classes) := h.classes.alloc c
  (r, { h with classes })

def allocStatics (h : Heap) : Ref .statics × Heap :=
  let (r, statics) := h.statics.alloc Assoc.empty
  (r, { h with statics })

def allocObject (h : Heap) (o : Instance) : Ref .object × Heap :=
  let (r, objects) := h.objects.alloc o
  (r, { h with objects })

def allocBound (h : Heap) (b : BoundMethod) : Value × Heap :=
  let (r, bounds) := h.bounds.alloc b
  (.bound r, { h with bounds })

def allocMethod (h : Heap) (m : ValueMethod) : Value × Heap :=
  let (r, methods) := h.methods.alloc m
  (.method r, { h with methods })

def allocCell (h : Heap) (c : Cell) : Ref .cell × Heap :=
  let (r, cells) := h.cells.alloc c
  (r, { h with cells })

/-- The number of arrays and hashes. -/
def containers (h : Heap) : Nat := h.arrays.size + h.tables.size

/-- The number of objects that a snapshot descends into. -/
def descendable (h : Heap) : Nat :=
  h.containers + h.objects.size + h.bounds.size + h.methods.size

end Heap

end ScriptVm
