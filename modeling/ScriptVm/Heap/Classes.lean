import ScriptVm.Heap

/-!
# Class look-ups

A member of a class is searched in the class and then in its superclasses. Every class is built
after its superclass, so the position of a class in the heap bounds the length of its chain.

Look-ups are searches in `Heap.chain`, the class first.
-/

set_option autoImplicit false

namespace ScriptVm

/-- The name of the method that prepares a new instance. -/
def constructorName : Text := "init"

namespace Class

/-- A method of the class itself, written in the language or native. -/
def ownMethod? (c : Class) (name : Text) : Option Callable :=
  match c.methods.get? name with
  | some r => some (.closure r)
  | none => (c.nativeMethods.get? name).map .native

/-- A static method of the class itself. -/
def ownStaticMethod? (c : Class) (name : Text) : Option Callable :=
  match c.staticMethods.get? name with
  | some r => some (.closure r)
  | none => (c.nativeStatics.get? name).map .native

/-- The class with one more method, in place of an earlier one of the same name. A method `init` is the
constructor from then on. -/
def withMethod (c : Class) (name : Text) (f : Ref .closure) : Class :=
  { c with
    methods := c.methods.insert name f
    constructor := if name = constructorName then some f else c.constructor }

/-- The declaration of a field in the class itself. -/
def ownField? (c : Class) (s : Symbol) : Option FieldDecl := c.fields.find? fun d => d.symbol = s

end Class

namespace Heap

/-- The class and its superclasses, as many as the fuel allows. -/
def chainFrom (h : Heap) : Nat → Ref .cls → List (Ref .cls)
  | 0, _ => []
  | fuel + 1, r =>
    r :: match (h.classes.get r).superclass with
      | none => []
      | some s => chainFrom h fuel s

/-- The class and all its superclasses. -/
def chain (h : Heap) (r : Ref .cls) : List (Ref .cls) := h.chainFrom (r.index + 1) r

/-- A method and the class that holds it. -/
def findMethod (h : Heap) (r : Ref .cls) (name : Text) : Option (Callable × Ref .cls) :=
  (h.chain r).findSome? fun c => ((h.classes.get c).ownMethod? name).map (·, c)

/-- A static method. -/
def findStaticMethod (h : Heap) (r : Ref .cls) (name : Text) : Option Callable :=
  (h.chain r).findSome? fun c => (h.classes.get c).ownStaticMethod? name

/-- The static fields of the class itself. -/
def ownStatics (h : Heap) (r : Ref .cls) : StaticFields := h.statics.get (h.classes.get r).statics

/-- The first class of the chain that declares the static field. -/
def staticOwner? (h : Heap) (r : Ref .cls) (name : Text) : Option (Ref .cls) :=
  (h.chain r).find? fun c => (h.ownStatics c).contains name

/-- The value of a static field. -/
def findStaticField (h : Heap) (r : Ref .cls) (name : Text) : Option Value :=
  (h.chain r).findSome? fun c => ((h.ownStatics c).get? name).map StaticField.value

/-- Writes a static field of the class itself. -/
def putStatic (h : Heap) (r : Ref .cls) (name : Text) (f : StaticField) : Heap :=
  let cell := (h.classes.get r).statics
  { h with statics := h.statics.set cell ((h.statics.get cell).insert name f) }

/-- Declares a static field of the class itself, or declares it anew. -/
def defineStatic (h : Heap) (r : Ref .cls) (name : Text) (value : Value) (isConst : Bool) : Heap :=
  h.putStatic r name ⟨value, isConst⟩

/-- Assigns to a static field where the chain declares it first, and else in the class itself.
Nothing, if that field is constant. -/
def setStatic? (h : Heap) (r : Ref .cls) (name : Text) (value : Value) : Option Heap :=
  match h.staticOwner? r name with
  | none => some (h.putStatic r name ⟨value, false⟩)
  | some c =>
    match (h.ownStatics c).get? name with
    | some ⟨_, true⟩ => none
    | _ => some (h.putStatic c name ⟨value, false⟩)

/-- A class nested in the class itself. -/
def findNested (h : Heap) (r : Ref .cls) (name : Text) : Option (Ref .cls) :=
  (h.classes.get r).nested.get? name

/-- The constructor, of the class or of its nearest superclass that has one. -/
def findConstructor (h : Heap) (r : Ref .cls) : Option (Ref .closure) :=
  (h.chain r).findSome? fun c => (h.classes.get c).constructor

/-- The declared fields, those of the base class first. -/
def fieldDecls (h : Heap) (r : Ref .cls) : List FieldDecl :=
  (h.chain r).reverse.flatMap fun c => (h.classes.get c).fields

/-- Whether the nearest declaration of a field makes it constant. -/
def isConstField (h : Heap) (r : Ref .cls) (s : Symbol) : Bool :=
  match (h.chain r).findSome? fun c => (h.classes.get c).ownField? s with
  | some d => d.isConst
  | none => false

/-- Whether `r` is `other` or inherits from it. -/
def isSubclass (h : Heap) (r other : Ref .cls) : Bool := (h.chain r).contains other

end Heap

end ScriptVm
