import ScriptVm.Machine.State
import ScriptVm.Text.Segments

/-!
# Properties

Reading a property of an instance looks for a field, in the inline cache of the call site, by
the shape, and in the whole row, and then for a method, in the method cache and in the class.
Writing one refuses constant fields and else sets the field. What was found without the cache
is recorded in it.

Classes answer for their static fields, static methods and nested classes; hashes for their
entries; arrays, hashes and texts for their builtin methods.
-/

set_option autoImplicit false

namespace ScriptVm.Exec

/-- The call site of the instruction under way. -/
def site : Exec Site := do
  let f ← frame
  return Site.of ((← get).protoOf f).id (f.ip - 1)

def intern (name : Text) : Exec Symbol := withWorld fun w => w.intern name

/-- A method with its receiver; a value that is no function stands for itself. -/
def bindMethod (receiver method : Value) : Exec Value := withWorld fun w => w.bind receiver method

def newMethod (receiver : Value) (name : Text) : Exec Value :=
  withHeap fun h => h.allocMethod ⟨receiver, name⟩

/-- Changes the statistics of the caches. -/
def count (f : CacheStats → CacheStats) : Exec Unit := modify fun m => { m with stats := f m.stats }

/-- Changes the cache registry. -/
def withCaches {α : Type} (f : CacheRegistry → α × CacheRegistry) : Exec α :=
  withWorld fun w =>
    let (a, caches) := f w.caches
    (a, { w with caches })

/-- Records the offset of a property, if caches are in use. -/
def rememberProperty (site : Site) (k : CacheKey) (offset : Nat) : Exec Unit := do
  if (← config).useCaches then
    let _ ← withWorld fun w => w.recordProperty site k offset

/-- Records a method, if caches are in use. -/
def rememberMethod (site : Site) (k : CacheKey) (found : FoundMethod) : Exec Unit := do
  if (← config).useCaches then
    let _ ← withWorld fun w => w.recordMethod site k found

/-- The field that the property cache leads to. -/
def cachedField (site : Site) (o : ShapedObject) (s : Symbol) : Exec (Option Value) := do
  if (← config).useCaches then
    let cache ← withCaches fun c => c.propertyCache site
    match (cache.lookup ⟨s, o.shape⟩).bind fun offset => o.fieldAt offset s with
    | some v =>
      count fun c => { c with propertyHits := c.propertyHits + 1 }
      return some v
    | none =>
      count fun c => { c with propertyMisses := c.propertyMisses + 1 }
      return none
  else return none

/-- The method that the method cache holds. -/
def cachedMethod (site : Site) (k : CacheKey) : Exec (Option Value) := do
  if (← config).useCaches then
    let cache ← withCaches fun c => c.methodCache site
    match cache.lookup k with
    | some found =>
      count fun c => { c with methodHits := c.methodHits + 1 }
      return some found.method
    | none =>
      count fun c => { c with methodMisses := c.methodMisses + 1 }
      return none
  else return none

/-- The field of an object without the cache. A field that its shape places is recorded. -/
def placedField (site : Site) (o : ShapedObject) (s : Symbol) : Exec (Option Value) := do
  let place := ((← get).world.shapes.offset? o.shape s).bind fun offset =>
    (o.fieldAt offset s).map (offset, ·)
  match place with
  | some (offset, v) =>
    rememberProperty site ⟨s, o.shape⟩ offset
    return some v
  | none => return o.search s

/-- The method of a class without the cache, which is then recorded. -/
def classMethod (site : Site) (cls : Ref .cls) (s : Symbol) (name : Text) : Exec (Option Value) := do
  let h ← heap
  match h.findMethod cls name with
  | some (method, owner) =>
    rememberMethod site ⟨s, (h.classes.get cls).tableId⟩ ⟨(h.classes.get owner).name, method.toValue⟩
    return some method.toValue
  | none => return none

/-- Reads a property of an instance. -/
def getObjectProperty (r : Ref .object) (name : Text) (site : Site) : Exec Value := do
  let s ← intern name
  let object := (← heap).objects.get r
  match ← cachedField site object.fields s with
  | some v => return v
  | none =>
    match ← placedField site object.fields s with
    | some v => return v
    | none =>
      let cls := (← heap).classes.get object.cls
      match ← cachedMethod site ⟨s, cls.tableId⟩ with
      | some method => bindMethod (.object r) method
      | none =>
        match ← classMethod site object.cls s name with
        | some method => bindMethod (.object r) method
        | none => fail (.noSuchProperty cls.name name)

/-- Reads a property of a class. -/
def getClassProperty (r : Ref .cls) (name : Text) : Exec Value := do
  let h ← heap
  match h.findStaticField r name with
  | some v => return v
  | none =>
    match h.findStaticMethod r name with
    | some method => bindMethod (.cls r) method.toValue
    | none =>
      match h.findNested r name with
      | some nested => return .cls nested
      | none => fail (.noSuchProperty (h.classes.get r).name name)

/-- A method of a superclass, with the receiver of the innermost call. -/
def getSuperMethod (r : Ref .cls) (name : Text) : Exec Value := do
  let h ← heap
  match h.findMethod r name with
  | some (method, _) => bindMethod ((← get).slot (← frame).base) method.toValue
  | none => fail (.noSuchProperty ("super(" ++ (h.classes.get r).name ++ ")") name)

/-- Reads a property. -/
def getProperty (object : Value) (name : Text) (site : Site) : Exec Value := do
  match object with
  | .object r => getObjectProperty r name site
  | .cls r => getClassProperty r name
  | .hash r =>
    match ((← heap).tables.get r).get? (.text name) with
    | some v => return v
    | none => newMethod object name
  | .array _ => newMethod object name
  | .str t =>
    if name = Text.ofString "length" then return .int (Int64.ofNat (Text.chars t).length)
    else newMethod object name
  | .superOf r => getSuperMethod r name
  | object => fail (.noSuchProperty ((← get).typeName object) name)

/-- Assigns to a field through the property cache, if the cache leads to it. -/
def setCachedField (site : Site) (r : Ref .object) (s : Symbol) (v : Value) : Exec Bool := do
  if (← config).useCaches then
    let o := ((← heap).objects.get r).fields
    let cache ← withCaches fun c => c.propertyCache site
    let w := (← get).world
    match (cache.lookup ⟨s, o.shape⟩).bind fun offset => w.setFieldAt? r offset s v with
    | some w =>
      modify fun m => { m with world := w }
      count fun c => { c with propertyHits := c.propertyHits + 1 }
      return true
    | none =>
      count fun c => { c with propertyMisses := c.propertyMisses + 1 }
      return false
  else return false

/-- Assigns to a field of an instance. -/
def setObjectProperty (r : Ref .object) (name : Text) (v : Value) (site : Site) : Exec Unit := do
  let s ← intern name
  let h ← heap
  if h.isConstField (h.objects.get r).cls s then fail (.constantField name)
  else if ← setCachedField site r s v then return
  else
    withWorld fun w => ((), w.setField r s v)
    let shape := ((← heap).objects.get r).fields.shape
    match (← get).world.shapes.offset? shape s with
    | some offset => rememberProperty site ⟨s, shape⟩ offset
    | none => return

/-- Assigns to a property. -/
def setProperty (object : Value) (name : Text) (v : Value) (site : Site) : Exec Unit := do
  match object with
  | .object r => setObjectProperty r name v site
  | .cls r =>
    match (← heap).setStatic? r name v with
    | some h => modifyHeap fun _ => h
    | none => fail (.constantField name)
  | .hash r =>
    modifyHeap fun h => { h with tables := h.tables.set r ((h.tables.get r).set (.text name) v) }
  | object => fail (.cannotSetProperty ((← get).typeName object))

/-! ## Class construction by instructions -/

/-- The class on top of the stack. -/
def classOnTop : Exec (Ref .cls) := do
  match (← get).stack.back?.bind Value.cls? with
  | some r => return r
  | none => fail .classExpected

/-- Replaces the top of the stack. -/
def replaceTop (v : Value) : Exec Unit := do
  setSlot ((← get).stack.size - 1) v

/-- Puts a class on the stack in place of the one it was made from. -/
def republish (draft : Class) : Exec (Ref .cls) := do
  let r ← withWorld fun w => w.publish draft
  replaceTop (.cls r)
  return r

/-- Gives the class below the top of the stack a superclass. -/
def inherit : Exec Unit := do
  match ← pop with
  | .cls superclass =>
    let r ← classOnTop
    let _ ← republish { (← heap).classes.get r with superclass := some superclass }
  | v => fail (.badSuperclass ((← get).typeName v))

/-- Gives the class below the top of the stack a method, whose home it becomes. -/
def defineMethod (name : Text) (isStatic : Bool) : Exec Unit := do
  match ← pop with
  | .closure f =>
    let r ← classOnTop
    let c := (← heap).classes.get r
    let _ ← republish
      (if isStatic then { c with staticMethods := c.staticMethods.insert name f }
       else c.withMethod name f)
    modifyHeap fun h =>
      { h with
        closures := h.closures.set f
          { h.closures.get f with home := c.name, homeSuper := c.superclass } }
  | v => fail (.badMethod name ((← get).typeName v))

/-- Gives the class below the top of the stack a field. -/
def defineField (name : Text) (isStatic isConst : Bool) : Exec Unit := do
  let initial ← pop
  let r ← classOnTop
  if isStatic then modifyHeap fun h => h.defineStatic r name initial isConst
  else
    let c := (← heap).classes.get r
    let draft ← withWorld fun w => w.draftField c name initial isConst
    let _ ← republish draft

/-- A method of the superclass of the innermost function's home. -/
def getSuper (name : Text) : Exec Value := do
  let f ← frame
  match ((← heap).closures.get f.closure).homeSuper with
  | some r => getSuperMethod r name
  | none => fail .superOutside

end ScriptVm.Exec
