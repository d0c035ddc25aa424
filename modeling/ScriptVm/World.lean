import ScriptVm.Cache
import ScriptVm.Heap.Classes
import ScriptVm.Logging

/-!
# The world

What outlives one machine: the heap, the symbol table, the shapes, the inline caches, the
counter of prototypes and the log. Machines that run one after the other in one world share
all of it.

The module also builds classes. A class under construction is a plain `Class`; `World.publish`
gives it the number of its method table and puts it into the heap, where it stays as it is.
-/

set_option autoImplicit false

namespace ScriptVm

/-- The state that machines share. -/
structure World where
  heap : Heap := {}
  symbols : SymbolTable := {}
  shapes : ShapeRegistry := ShapeRegistry.initial
  caches : CacheRegistry := {}
  /-- The number of the next prototype. -/
  nextProto : Nat := 1
  log : Logging := {}

namespace World

instance : Inhabited World := ⟨{}⟩

/-- Logs a message of the library. The message is made only if it is wanted. -/
def note (w : World) (logger : Text) (level : Level) (message : Unit → Text) : World :=
  if w.log.enabled logger level then { w with log := w.log.note logger level (message ()) } else w

def intern (w : World) (name : Text) : Symbol × World :=
  let (s, symbols) := w.symbols.intern name
  (s, { w with symbols })

/-- A number for a shape or method table. -/
def drawId (w : World) : ShapeId × World :=
  let (id, shapes) := w.shapes.drawId
  (id, { w with shapes })

/-- A number for a prototype. -/
def drawProtoId (w : World) : Nat × World := (w.nextProto, { w with nextProto := w.nextProto + 1 })

/-! ## Inline caches -/

/-- Logs that a full cache refused a key. -/
def noteRefused (w : World) (site : Site) (k : CacheKey) : World :=
  w.note "ic" .trace fun _ =>
    "site " ++ Text.ofNat site ++ " megamorphic, rejected symbol " ++ Text.ofNat k.symbol
      ++ " on shape " ++ Text.ofNat k.shape

/-- Records the offset of a property at a call site. -/
def recordProperty (w : World) (site : Site) (k : CacheKey) (offset : Nat) : Bool × World :=
  let (inserted, caches) := w.caches.recordProperty site k offset
  let w := { w with caches }
  (inserted, if inserted then w else w.noteRefused site k)

/-- Records a method at a call site. -/
def recordMethod (w : World) (site : Site) (k : CacheKey) (found : FoundMethod) : Bool × World :=
  let (inserted, caches) := w.caches.recordMethod site k found
  let w := { w with caches }
  (inserted, if inserted then w else w.noteRefused site k)

/-! ## Fields of instances -/

/-- Logs that a shape was made. -/
def notePlacement (w : World) (s : Symbol) (place : Option ShapeRegistry.Placement) : World :=
  match place with
  | some ⟨shape, offset, some parent⟩ =>
    w.note "shape" .trace fun _ =>
      "shape " ++ Text.ofNat parent ++ " -> " ++ Text.ofNat shape ++ " adds symbol " ++ Text.ofNat s
        ++ " at offset " ++ Text.ofNat offset
  | _ => w

/-- Sets a property of a shaped object that is not in the heap. -/
def setShaped (w : World) (o : ShapedObject) (s : Symbol) (v : Value) : ShapedObject × World :=
  let u := o.set w.shapes s v
  (u.object, { w with shapes := u.registry }.notePlacement s u.placement)

/-- Sets a field of an instance. -/
def setField (w : World) (r : Ref .object) (s : Symbol) (v : Value) : World :=
  let o := w.heap.objects.get r
  let (fields, w) := w.setShaped o.fields s v
  { w with heap := { w.heap with objects := w.heap.objects.set r { o with fields } } }

/-- Replaces a field of an instance at an offset, if the field there is `s`. -/
def setFieldAt? (w : World) (r : Ref .object) (offset : Nat) (s : Symbol) (v : Value) :
    Option World :=
  let o := w.heap.objects.get r
  match o.fields.setFieldAt? offset s v with
  | some fields =>
    some { w with heap := { w.heap with objects := w.heap.objects.set r { o with fields } } }
  | none => none

/-- A field of an instance by name, if the name is a symbol at all. -/
def namedField (w : World) (r : Ref .object) (name : Text) : Option Value :=
  match w.symbols.lookup name with
  | some s => (w.heap.objects.get r).fields.get w.shapes s
  | none => none

/-- The declared fields with their initial values, set one after the other. -/
def initialFields (w : World) (decls : List FieldDecl) : ShapedObject × World :=
  decls.foldl (fun (o, w) d => w.setShaped o d.symbol d.initial) ({}, w)

/-- A new instance with its declared fields. -/
def newObject (w : World) (cls : Ref .cls) : Ref .object × World :=
  let (fields, w) := w.initialFields (w.heap.fieldDecls cls)
  let (r, heap) := w.heap.allocObject { cls, fields }
  (r, { w with heap })

/-! ## Building classes -/

/-- A class under construction, with static fields of its own. -/
def draftClass (w : World) (name : Text) : Class × World :=
  let (statics, heap) := w.heap.allocStatics
  ({ name, statics }, { w with heap })

/-- Puts a class into the heap under a new method table. -/
def publish (w : World) (draft : Class) : Ref .cls × World :=
  let (tableId, w) := w.drawId
  let (r, heap) := w.heap.allocClass { draft with tableId }
  (r, { w with heap })

/-- A class without members. -/
def newClass (w : World) (name : Text) : Ref .cls × World :=
  let (draft, w) := w.draftClass name
  w.publish draft

/-- Adds a field to a class under construction. A field with the same name keeps its place. -/
def draftField (w : World) (draft : Class) (name : Text) (initial : Value) (isConst : Bool) :
    Class × World :=
  let (s, w) := w.intern name
  let fields :=
    if draft.fields.any fun d => d.symbol = s then
      draft.fields.map fun d => if d.symbol = s then { d with initial, isConst } else d
    else draft.fields ++ [⟨s, name, initial, isConst⟩]
  ({ draft with fields }, w)

end World

end ScriptVm
