import ScriptVm.World

/-!
# Literals

Descriptions of values by a host: plain data, and new objects of every kind. Making the value
of a literal creates its objects, from the outside in and from left to right.
-/

set_option autoImplicit false

namespace ScriptVm

/-- A description of a value. -/
inductive Literal where
  | null
  | bool (b : Bool)
  | int (n : Int64)
  | float (x : Float)
  | decimal (t : Text)
  | str (t : Text)
  | namedArg (name : Text)
  | array (items : List Literal)
  | hash (keys : List Key) (values : List Literal)
  /-- A new class without members. -/
  | cls (name : Text)
  /-- An instance of a new class without members. -/
  | object (className : Text)
  /-- An instance of the class that the literal gives, without fields. -/
  | objectOf (cls : Literal)
  /-- The methods of a new class, seen from a subclass. -/
  | superNamed (name : Text)
  /-- The methods of the class that the literal gives, seen from a subclass. -/
  | superOf (cls : Literal)
  /-- A native function that gives null. -/
  | native (name : Text)
  /-- A function with an empty body. -/
  | closure (name : Text)
  | method (name : Text) (receiver : Literal)
  | bound (function receiver : Literal)
  /-- The value of a global. -/
  | global (name : Text)
  /-- The same object as an earlier value of a list. -/
  | earlier (index : Nat)

instance : Inhabited Literal := ⟨.null⟩

/-- What a literal can refer to. -/
structure Literal.Scope where
  globals : Assoc Text Value := Assoc.empty
  earlier : Array Value := #[]

/-- The class in a value. -/
def Value.cls? : Value → Option (Ref .cls)
  | .cls r => some r
  | _ => none

namespace World

/-- An instance without fields. -/
def bareObject (w : World) (cls : Ref .cls) : Value × World :=
  let (r, heap) := w.heap.allocObject { cls }
  (.object r, { w with heap })

/-- A closure without captured variables. -/
def newClosure (w : World) (proto : Proto) : Ref .closure × World :=
  let (r, heap) := w.heap.allocClosure { proto }
  (r, { w with heap })

/-- A method with its receiver; a value that is no function stands for itself. -/
def bind (w : World) (receiver function : Value) : Value × World :=
  match Callable.ofValue? function with
  | some target =>
    let (v, heap) := w.heap.allocBound { receiver, target }
    (v, { w with heap })
  | none => (function, w)

end World

mutual

/-- The value of a literal. A literal that asks for a class and gets something else is null. -/
def Literal.realise (scope : Literal.Scope) (w : World) : Literal → Value × World
  | .null => (.null, w)
  | .bool b => (.bool b, w)
  | .int n => (.int n, w)
  | .float x => (.float x, w)
  | .decimal t => (.decimal t, w)
  | .str t => (.str t, w)
  | .namedArg name => (.namedArg name, w)
  | .array items =>
    let (vs, w) := realiseAll scope w items
    let (v, heap) := w.heap.allocArray vs.toArray
    (v, { w with heap })
  | .hash keys values =>
    let (vs, w) := realiseAll scope w values
    let (v, heap) := w.heap.allocTable (Table.ofList (keys.zip vs))
    (v, { w with heap })
  | .cls name =>
    let (r, w) := w.newClass name
    (.cls r, w)
  | .object className =>
    let (r, w) := w.newClass className
    w.bareObject r
  | .objectOf cls =>
    let (v, w) := Literal.realise scope w cls
    match v.cls? with
    | some r => w.bareObject r
    | none => (.null, w)
  | .superNamed name =>
    let (r, w) := w.newClass name
    (.superOf r, w)
  | .superOf cls =>
    let (v, w) := Literal.realise scope w cls
    match v.cls? with
    | some r => (.superOf r, w)
    | none => (.null, w)
  | .native name =>
    let (v, heap) := w.heap.allocNative ⟨name, none, .nothing⟩
    (v, { w with heap })
  | .closure name =>
    let (id, w) := w.drawProtoId
    let (r, w) := w.newClosure { id, name }
    (.closure r, w)
  | .method name receiver =>
    let (v, w) := Literal.realise scope w receiver
    let (v, heap) := w.heap.allocMethod ⟨v, name⟩
    (v, { w with heap })
  | .bound function receiver =>
    let (f, w) := Literal.realise scope w function
    let (v, w) := Literal.realise scope w receiver
    w.bind v f
  | .global name => ((scope.globals.get? name).getD .null, w)
  | .earlier index => (scope.earlier.getD index .null, w)

/-- The values of a list of literals, from left to right. -/
def realiseAll (scope : Literal.Scope) (w : World) : List Literal → List Value × World
  | [] => ([], w)
  | l :: rest =>
    let (v, w) := l.realise scope w
    let (vs, w) := realiseAll scope w rest
    (v :: vs, w)

end

end ScriptVm
