import Mathlib.Logic.Relation
import ScriptVm.Literal

/-!
# How the world changes

`World.Change` lists everything that instructions and hosts do to the world, captured variables
apart: objects are made, arrays, hashes, fields and static fields are written, classes are
published, names are interned, shapes are sealed, caches and the log are kept. Whatever a whole
run does to the world is a chain of such changes, `World.Evolves`, so a law of the world is
proved by cases on `Change`.

The caches and the log are the sides of the world that programs cannot see. `World.Blind` says
of an operation that it does not look at them either, and adds to the log at most.
-/

set_option autoImplicit false

namespace ScriptVm

/-! ## The log as a list of events -/

/-- What is said to the log. -/
inductive LogEvent where
  | note (logger : Text) (level : Level) (message : Text)
  | print (t : Text)

namespace Logging

/-- The log after an event. A note that is not wanted leaves no trace. -/
def hear (l : Logging) : LogEvent → Logging
  | .note logger level message =>
    if l.enabled logger level then l.note logger level message else l
  | .print t => { l with streams := l.streams.print t }

/-- A log that hears several events. -/
def hearAll (l : Logging) (es : List LogEvent) : Logging := es.foldl hear l

@[simp] theorem hearAll_nil (l : Logging) : l.hearAll [] = l := rfl

/-- Events are heard one after the other. -/
theorem hearAll_append (l : Logging) (es fs : List LogEvent) :
    l.hearAll (es ++ fs) = (l.hearAll es).hearAll fs := List.foldl_append

end Logging

/-! ## Symbols -/

namespace SymbolTable

/-- The symbol that interning a name gives is the name's symbol. -/
theorem lookup_intern_self (t : SymbolTable) (name : Text) :
    (t.intern name).2.lookup name = some (t.intern name).1 := by
  unfold intern
  split
  next s h => exact h
  next => simp [lookup, Assoc.get?_insert]

/-- A known name keeps its symbol. -/
theorem lookup_intern {t : SymbolTable} {name : Text} {s : Symbol} (other : Text)
    (h : t.lookup name = some s) : (t.intern other).2.lookup name = some s := by
  unfold intern
  split
  next => exact h
  next hn =>
    have ne : other ≠ name := fun e => by rw [e, h] at hn; cases hn
    simp only [lookup, Assoc.get?_insert, if_neg ne]
    exact h

end SymbolTable

/-- A class declares no field twice, and its constructor is its own method `init`. -/
structure Class.WellMade (c : Class) : Prop where
  once : (c.fields.map FieldDecl.symbol).Nodup
  init : c.constructor = c.methods.get? constructorName

/-- A class without members is well made, whatever its name is. -/
theorem Class.wellMade_bare (name : Text) (statics : Ref .statics) : ({ name, statics } : Class).WellMade :=
  ⟨List.nodup_nil, rfl⟩

/-- One more method leaves the fields alone, and is the constructor if its name is `init`. -/
theorem Class.WellMade.withMethod {c : Class} (made : c.WellMade) (name : Text) (f : Ref .closure) :
    (c.withMethod name f).WellMade where
  once := made.once
  init := by
    unfold Class.withMethod
    simp only [Assoc.get?_insert, made.init]

namespace World

/-- The world with other caches and another log. -/
def withSides (w : World) (c : CacheRegistry) (l : Logging) : World := { w with caches := c, log := l }

/-! ## Operations of the world in terms of its parts -/

/-- A message is an event for the log. -/
theorem note_eq (w : World) (logger : Text) (level : Level) (message : Unit → Text) :
    w.note logger level message = { w with log := w.log.hear (.note logger level (message ())) } := by
  unfold note Logging.hear
  simp only
  split <;> rfl

/-- What the log hears when a property is placed. -/
def placementEvents (s : Symbol) : Option ShapeRegistry.Placement → List LogEvent
  | some ⟨shape, offset, some parent⟩ =>
    [.note "shape" .trace
      ("shape " ++ Text.ofNat parent ++ " -> " ++ Text.ofNat shape ++ " adds symbol " ++ Text.ofNat s
        ++ " at offset " ++ Text.ofNat offset)]
  | _ => []

/-- A placement is noted as events that it determines. -/
theorem notePlacement_eq (w : World) (s : Symbol) (place : Option ShapeRegistry.Placement) :
    w.notePlacement s place = { w with log := w.log.hearAll (placementEvents s place) } := by
  obtain _ | ⟨shape, offset, _ | parent⟩ := place
  · rfl
  · rfl
  · simp only [notePlacement, note_eq]
    rfl

/-- Setting a field of a row changes the row, the shapes and the log. -/
theorem setShaped_eq (w : World) (o : ShapedObject) (s : Symbol) (v : Value) :
    w.setShaped o s v =
      ((o.set w.shapes s v).object,
        { w with
          shapes := (o.set w.shapes s v).registry
          log := w.log.hearAll (placementEvents s (o.set w.shapes s v).placement) }) := by
  simp only [setShaped, notePlacement_eq]

/-- The row, the registry and the events that setting declared fields comes to. -/
def layOut : List FieldDecl → ShapedObject → ShapeRegistry → ShapedObject × ShapeRegistry × List LogEvent
  | [], o, r => (o, r, [])
  | d :: rest, o, r =>
    let u := o.set r d.symbol d.initial
    let (o', r', es) := layOut rest u.object u.registry
    (o', r', placementEvents d.symbol u.placement ++ es)

/-- Laying out declarations is setting one field after the other. -/
theorem foldl_setShaped_eq (decls : List FieldDecl) (o : ShapedObject) (w : World) :
    decls.foldl (fun (o, w) d => w.setShaped o d.symbol d.initial) (o, w) =
      ((layOut decls o w.shapes).1,
        { w with
          shapes := (layOut decls o w.shapes).2.1
          log := w.log.hearAll (layOut decls o w.shapes).2.2 }) := by
  induction decls generalizing o w with
  | nil => rfl
  | cons d rest ih =>
    show rest.foldl _ (w.setShaped o d.symbol d.initial) = _
    rw [setShaped_eq, ih]
    simp only [layOut, Logging.hearAll_append]

/-- A new instance has the row that its declarations lay out. -/
theorem newObject_eq (w : World) (cls : Ref .cls) :
    w.newObject cls =
      let lay := layOut (w.heap.fieldDecls cls) {} w.shapes
      ((w.heap.allocObject { cls, fields := lay.1 }).1,
        { w with
          heap := (w.heap.allocObject { cls, fields := lay.1 }).2
          shapes := lay.2.1
          log := w.log.hearAll lay.2.2 }) := by
  simp only [newObject, initialFields, foldl_setShaped_eq]

/-- Setting a field writes the row of the instance. -/
theorem setField_eq (w : World) (r : Ref .object) (s : Symbol) (v : Value) :
    w.setField r s v =
      let o := w.heap.objects.get r
      let u := o.fields.set w.shapes s v
      { w with
        heap := { w.heap with objects := w.heap.objects.set r { o with fields := u.object } }
        shapes := u.registry
        log := w.log.hearAll (placementEvents s u.placement) } := by
  simp only [setField, setShaped_eq]

/-- `setFieldAt?` changes nothing but the row of the instance. -/
theorem setFieldAt?_eq_some_iff (w w' : World) (r : Ref .object) (offset : Nat) (s : Symbol) (v : Value) :
    w.setFieldAt? r offset s v = some w' ↔
      ∃ fields, (w.heap.objects.get r).fields.setFieldAt? offset s v = some fields ∧
        { w with
          heap := { w.heap with
            objects := w.heap.objects.set r { w.heap.objects.get r with fields } } } = w' := by
  unfold setFieldAt?
  simp only
  cases (w.heap.objects.get r).fields.setFieldAt? offset s v <;> simp

/-- A field that is declared again keeps its place. -/
theorem wellMade_draftField {c : Class} (made : c.WellMade) (w : World) (name : Text) (initial : Value)
    (isConst : Bool) : (w.draftField c name initial isConst).1.WellMade := by
  refine ⟨?_, made.init⟩
  have fields : (w.draftField c name initial isConst).1.fields =
      if c.fields.any fun d => d.symbol = (w.intern name).1 then
        c.fields.map fun d => if d.symbol = (w.intern name).1 then { d with initial, isConst } else d
      else c.fields ++ [⟨(w.intern name).1, name, initial, isConst⟩] := rfl
  rw [fields]
  generalize (w.intern name).1 = s
  split
  · rw [List.map_map]
    have same : c.fields.map (FieldDecl.symbol ∘ fun d => if d.symbol = s then { d with initial, isConst } else d) =
        c.fields.map FieldDecl.symbol :=
      List.map_congr_left fun d _ => by
        rw [Function.comp_apply]
        split <;> rfl
    rw [same]
    exact made.once
  next new =>
    rw [List.map_append, List.nodup_append]
    refine ⟨made.once, by simp, fun a declared b added same => ?_⟩
    obtain ⟨d, hd, rfl⟩ := List.mem_map.1 declared
    rw [List.map_singleton, List.mem_singleton] at added
    exact new (List.any_eq_true.2 ⟨d, hd, decide_eq_true (same.trans added)⟩)

/-! ## Changes -/

/-- What an instruction or a host can do to the world. -/
inductive Change : World → World → Prop where
  | newArray (w : World) (items : Array Value) :
    Change w { w with heap := (w.heap.allocArray items).2 }
  | setArray (w : World) (r : Ref .array) (items : Array Value) :
    Change w { w with heap := { w.heap with arrays := w.heap.arrays.set r items } }
  | newTable (w : World) (es : List (Key × Value)) :
    Change w { w with heap := (w.heap.allocTable (Table.ofList es)).2 }
  | setEntry (w : World) (r : Ref .table) (k : Key) (v : Value) :
    Change w
      { w with heap := { w.heap with tables := w.heap.tables.set r ((w.heap.tables.get r).set k v) } }
  | removeEntry (w : World) (r : Ref .table) (k : Key) :
    Change w
      { w with
        heap := { w.heap with tables := w.heap.tables.set r ((w.heap.tables.get r).remove k).2 } }
  | newClosure (w : World) (c : Closure) :
    Change w { w with heap := (w.heap.allocClosure c).2 }
  | adopt (w : World) (f : Ref .closure) (c : Class) :
    Change w
      { w with
        heap := { w.heap with
          closures := w.heap.closures.set f
            { w.heap.closures.get f with home := c.name, homeSuper := c.superclass } } }
  | newBound (w : World) (b : BoundMethod) :
    Change w { w with heap := (w.heap.allocBound b).2 }
  | newMethod (w : World) (m : ValueMethod) :
    Change w { w with heap := (w.heap.allocMethod m).2 }
  | newNative (w : World) (n : Native) :
    Change w { w with heap := (w.heap.allocNative n).2 }
  | newObject (w : World) (cls : Ref .cls) : Change w (w.newObject cls).2
  | bareObject (w : World) (cls : Ref .cls) : Change w (w.bareObject cls).2
  | setField (w : World) (r : Ref .object) (s : Symbol) (v : Value)
      (writable : w.heap.isConstField (w.heap.objects.get r).cls s = false) :
    Change w (w.setField r s v)
  | setFieldAt {w w' : World} (r : Ref .object) (offset : Nat) (s : Symbol) (v : Value)
      (writable : w.heap.isConstField (w.heap.objects.get r).cls s = false)
      (done : w.setFieldAt? r offset s v = some w') : Change w w'
  | newStatics (w : World) : Change w { w with heap := w.heap.allocStatics.2 }
  | publish (w : World) (draft : Class)
      (made : (∀ r, (w.heap.classes.get r).WellMade) → draft.WellMade) : Change w (w.publish draft).2
  | putStatic (w : World) (r : Ref .cls) (name : Text) (f : StaticField) :
    Change w { w with heap := w.heap.putStatic r name f }
  | intern (w : World) (name : Text) : Change w (w.intern name).2
  | nextProto (w : World) (n : Nat) : Change w { w with nextProto := n }
  | sealShape (w : World) (id : ShapeId) : Change w { w with shapes := w.shapes.sealShape id }
  | propertyCaches (w : World) (properties : Assoc Site (Cache Nat)) :
    Change w { w with caches := { w.caches with properties } }
  | openMethods (w : World) (site : Site) : Change w { w with caches := (w.caches.methodCache site).2 }
  | recordMethod (w : World) (site : Site) (s : Symbol) (name : Text) (cls owner : Ref .cls)
      (method : Callable) (symbol : w.symbols.lookup name = some s)
      (found : w.heap.findMethod cls name = some (method, owner)) :
    Change w
      { w with
        caches := (w.caches.recordMethod site ⟨s, (w.heap.classes.get cls).tableId⟩
          ⟨(w.heap.classes.get owner).name, method.toValue⟩).2 }
  | clearCaches (w : World) : Change w { w with caches := w.caches.clear }
  | log (w : World) (e : LogEvent) : Change w { w with log := w.log.hear e }

/-- Any number of changes. -/
abbrev Evolves : World → World → Prop := Relation.ReflTransGen Change

theorem evolves_noteRefused (w : World) (site : Site) (k : CacheKey) :
    Evolves w (w.noteRefused site k) := by
  unfold noteRefused
  rw [note_eq]
  exact .single (.log w _)

theorem evolves_recordProperty (w : World) (site : Site) (k : CacheKey) (offset : Nat) :
    Evolves w (w.recordProperty site k offset).2 := by
  have h : Evolves w { w with caches := (w.caches.recordProperty site k offset).2 } :=
    .single (.propertyCaches w _)
  unfold recordProperty
  simp only
  split
  · exact h
  · exact h.trans (evolves_noteRefused _ _ _)

/-- What a class look-up found may be recorded. -/
theorem evolves_recordMethod (w : World) (site : Site) {s : Symbol} {name : Text} {cls owner : Ref .cls}
    {method : Callable} (symbol : w.symbols.lookup name = some s)
    (found : w.heap.findMethod cls name = some (method, owner)) :
    Evolves w
      (w.recordMethod site ⟨s, (w.heap.classes.get cls).tableId⟩
        ⟨(w.heap.classes.get owner).name, method.toValue⟩).2 := by
  have h := Relation.ReflTransGen.single (Change.recordMethod w site s name cls owner method symbol found)
  unfold recordMethod
  simp only
  split
  · exact h
  · exact h.trans (evolves_noteRefused _ _ _)

/-- A world evolves when a class is made. -/
theorem evolves_newClass (w : World) (name : Text) : Evolves w (w.newClass name).2 :=
  (Relation.ReflTransGen.single (Change.newStatics w)).tail (Change.publish _ _ fun _ => Class.wellMade_bare _ _)

/-- An operation that does the same to `w` whatever the caches and the log are: it leaves the
caches alone, and the log hears the same events. -/
def Blind {α : Type} (f : World → α × World) (w : World) : Prop :=
  ∃ es, ∀ c l,
    f (w.withSides c l) = ((f w).1, (f w).2.withSides c (l.hearAll es)) ∧
      Evolves (w.withSides c l) (f (w.withSides c l)).2

/-- A change of the heap. -/
def onHeap {α : Type} (g : Heap → α × Heap) (w : World) : α × World :=
  ((g w.heap).1, { w with heap := (g w.heap).2 })

namespace Blind

variable {α β : Type} {w : World}

/-- What is blind to the log evolves the world. -/
theorem evolves {f : World → α × World} (h : Blind f w) : Evolves w (f w).2 := by
  obtain ⟨es, h⟩ := h
  exact (h w.caches w.log).2

theorem pure (a : α) : Blind (fun w => (a, w)) w := ⟨[], fun _ _ => ⟨rfl, .refl⟩⟩

/-- One operation after the other. -/
theorem bind {f : World → α × World} {g : α → World → β × World} (first : Blind f w)
    (next : Blind (g (f w).1) (f w).2) : Blind (fun w => g (f w).1 (f w).2) w := by
  obtain ⟨es, hf⟩ := first
  obtain ⟨fs, hg⟩ := next
  refine ⟨es ++ fs, fun c l => ?_⟩
  obtain ⟨run, evolves⟩ := hf c l
  obtain ⟨run', evolves'⟩ := hg c (l.hearAll es)
  rw [run] at evolves
  simp only [run, Logging.hearAll_append]
  exact ⟨run', evolves.trans evolves'⟩

/-- A result may be used in any way. -/
theorem map {f : World → α × World} (h : Blind f w) (g : α → β) :
    Blind (fun w => (g (f w).1, (f w).2)) w := h.bind (g := fun a w => (g a, w)) (.pure _)

/-- An operation on the heap does not hear the log. -/
theorem onHeap {g : Heap → α × Heap}
    (change : ∀ w', w'.heap = w.heap → Change w' { w' with heap := (g w'.heap).2 }) :
    Blind (World.onHeap g) w :=
  ⟨[], fun c l => ⟨rfl, .single (change (w.withSides c l) rfl)⟩⟩

end Blind

theorem blind_note (w : World) (logger : Text) (level : Level) (message : Unit → Text) :
    Blind (fun w => ((), w.note logger level message)) w := by
  refine ⟨[.note logger level (message ())], fun c l => ⟨?_, ?_⟩⟩
  · simp only [note_eq]
    rfl
  · simp only [note_eq]
    exact .single (.log _ _)

theorem blind_intern (w : World) (name : Text) : Blind (fun w => w.intern name) w :=
  ⟨[], fun _ _ => ⟨rfl, .single (.intern _ _)⟩⟩

theorem blind_bind (w : World) (receiver method : Value) : Blind (fun w => w.bind receiver method) w := by
  refine ⟨[], fun c l => ?_⟩
  cases h : Callable.ofValue? method with
  | none =>
    simp only [World.bind, h]
    exact ⟨rfl, .refl⟩
  | some target =>
    simp only [World.bind, h]
    exact ⟨rfl, .single (.newBound _ _)⟩

/-- A field that is not constant can be set whatever the log is. -/
theorem blind_setField (w : World) {r : Ref .object} {s : Symbol} (v : Value)
    (writable : w.heap.isConstField (w.heap.objects.get r).cls s = false) :
    Blind (fun w => ((), w.setField r s v)) w := by
  refine ⟨placementEvents s ((w.heap.objects.get r).fields.set w.shapes s v).placement, fun c l => ⟨?_, ?_⟩⟩
  · simp only [setField_eq]
    rfl
  · exact .single (.setField (w.withSides c l) r s v writable)

/-- No change of a world touches a captured variable. -/
theorem Change.cells {w w' : World} (h : Change w w') : w'.heap.cells = w.heap.cells := by
  cases h with
  | newObject cls => rw [newObject_eq]; rfl
  | setField r s v => rw [setField_eq]
  | setFieldAt r offset s v _ done =>
    obtain ⟨fields, -, rfl⟩ := (setFieldAt?_eq_some_iff ..).1 done
    rfl
  | _ => rfl

/-- No change touches a captured variable. -/
theorem Evolves.cells {w w' : World} (h : Evolves w w') : w'.heap.cells = w.heap.cells := by
  induction h with
  | refl => rfl
  | tail _ hc ih => exact hc.cells.trans ih

/-- No change of a world takes a symbol from its name. -/
theorem Change.lookup {w w' : World} (h : Change w w') {name : Text} {s : Symbol}
    (known : w.symbols.lookup name = some s) : w'.symbols.lookup name = some s := by
  cases h with
  | newObject cls => rw [newObject_eq]; exact known
  | setField r s v => rw [setField_eq]; exact known
  | setFieldAt r offset s v _ done =>
    obtain ⟨fields, -, rfl⟩ := (setFieldAt?_eq_some_iff ..).1 done
    exact known
  | intern other => exact SymbolTable.lookup_intern other known
  | _ => exact known

/-- A symbol stays the symbol of its name. -/
theorem Evolves.lookup {w w' : World} (h : Evolves w w') {name : Text} {s : Symbol}
    (known : w.symbols.lookup name = some s) : w'.symbols.lookup name = some s := by
  induction h with
  | refl => exact known
  | tail _ hc ih => exact hc.lookup ih

end World

end ScriptVm
