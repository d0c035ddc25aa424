import ScriptVm.Heap.Snapshot
import ScriptVm.World

/-!
# Worlds that look alike

Two worlds resemble each other when a program cannot tell them apart without asking for numbers:
they have the same arrays, hashes and other plain objects, and functions, classes and instances
that differ only in the numbers of prototypes, method tables, shapes and symbols. The rows of
instances have the same names and values in the same order.

How the constants of prototypes correspond is a parameter `K`, a `Likeness`: equality, where the
prototypes are to be the same, or equality but for the numbers of the functions among them.

Everything that instructions and hosts read of a world is the same in one that resembles it.
-/

set_option autoImplicit false

namespace ScriptVm

/-! ## Prototypes -/

/-- The same prototypes but for their numbers, with constants that correspond by `K`. -/
structure ProtoOf.Resembles (K : Constant → Constant → Prop) (p p' : Proto) : Prop where
  name : p'.name = p.name
  arity : p'.arity = p.arity
  defaults : p'.defaults = p.defaults
  params : p'.params = p.params
  captures : p'.captures = p.captures
  code : p'.chunk.code = p.chunk.code
  lines : p'.chunk.lines = p.chunk.lines
  constants : ∀ i : Nat, Option.Rel K p.chunk.constants[i]? p'.chunk.constants[i]?

/-- A relation between constants that a program cannot tell apart. -/
structure Likeness (K : Constant → Constant → Prop) : Prop where
  refl : ∀ k, K k k
  /-- Only functions may differ. -/
  cases : ∀ {k k'}, K k k' →
    k' = k ∨ ∃ p p', k = .function p ∧ k' = .function p' ∧ ProtoOf.Resembles K p p'

namespace Likeness

variable {K : Constant → Constant → Prop}

/-- Nothing is like nothing, and every constant is like itself. -/
theorem rel_refl (hK : Likeness K) (k : Option Constant) : Option.Rel K k k := by
  cases k with
  | none => exact .none
  | some k => exact .some (hK.refl k)

/-- A prototype resembles itself. -/
theorem proto_refl (hK : Likeness K) (p : Proto) : p.Resembles K p :=
  ⟨rfl, rfl, rfl, rfl, rfl, rfl, rfl, fun _ => hK.rel_refl _⟩

/-- Like constants have the same text. -/
theorem text? (hK : Likeness K) {k k' : Constant} (h : K k k') : k'.text? = k.text? := by
  rcases hK.cases h with rfl | ⟨p, p', rfl, rfl, -⟩
  · rfl
  · rfl

theorem proto (hK : Likeness K) {p p' : Proto} (h : K (.function p) (.function p')) : p.Resembles K p' := by
  rcases hK.cases h with same | ⟨q, q', eq, eq', resembles⟩
  · cases same
    exact hK.proto_refl p
  · cases eq
    cases eq'
    exact resembles

theorem title (hK : Likeness K) {p p' : Proto} (h : K (.function p) (.function p')) : p'.title = p.title := by
  unfold ProtoOf.title
  rw [(hK.proto h).name]

theorem totalParams (hK : Likeness K) {p p' : Proto} (h : K (.function p) (.function p')) :
    p'.totalParams = p.totalParams := by
  unfold ProtoOf.totalParams
  rw [(hK.proto h).params, (hK.proto h).arity, (hK.proto h).defaults]

end Likeness

/-- Equality is a likeness. -/
theorem likeness_eq : Likeness Eq where
  refl _ := rfl
  cases h := .inl h.symm

/-! ## Pools -/

namespace Pool

variable {k : Kind} {α : Type} [Inhabited α] {P : α → α → Prop} {p p' : Pool k α}

/-- Two pools with the same references whose objects correspond. -/
structure Pairs (P : α → α → Prop) (p p' : Pool k α) : Prop where
  size : p'.size = p.size
  each : ∀ r, P (p.get r) (p'.get r)

theorem pairs_refl (refl : ∀ a, P a a) (p : Pool k α) : Pairs P p p := ⟨rfl, fun _ => refl _⟩

/-- The next object gets the same reference in both pools. -/
theorem Pairs.alloc_ref (h : Pairs P p p') (a a' : α) : (p'.alloc a').1 = (p.alloc a).1 :=
  congrArg Ref.mk h.size

/-- An object is found where it has been put, and the others are where they were. -/
theorem get_alloc_eq (p : Pool k α) (a : α) (r : Ref k) :
    (p.alloc a).2.get r = if r.index = p.size then a else p.get r := by
  unfold alloc get
  simp only [Array.getD_eq_getD_getElem?, Array.getElem?_push, size]
  split <;> rfl

/-- An object is found where it has been written, if there was one. -/
theorem get_set_eq (p : Pool k α) (s : Ref k) (a : α) (r : Ref k) :
    (p.set s a).get r = if s = r ∧ r.index < p.size then a else p.get r := by
  obtain ⟨i⟩ := s
  obtain ⟨j⟩ := r
  unfold set get
  simp only [Array.getD_eq_getD_getElem?, Array.getElem?_setIfInBounds, size, Ref.mk.injEq]
  by_cases same : i = j
  · subst same
    by_cases inside : i < p.items.size
    · simp [inside]
    · simp [inside]
  · simp [same]

/-- Corresponding objects can be put into both pools. -/
theorem Pairs.alloc (h : Pairs P p p') {a a' : α} (new : P a a') : Pairs P (p.alloc a).2 (p'.alloc a').2 := by
  refine ⟨?_, fun r => ?_⟩
  · have size := h.size
    unfold Pool.size at size
    simp only [Pool.alloc, Pool.size, Array.size_push, size]
  · rw [get_alloc_eq, get_alloc_eq, h.size]
    split
    · exact new
    · exact h.each r

/-- Corresponding objects can be written at the same reference. -/
theorem Pairs.set (h : Pairs P p p') (s : Ref k) {a a' : α} (new : P a a') :
    Pairs P (p.set s a) (p'.set s a') := by
  refine ⟨?_, fun r => ?_⟩
  · have size := h.size
    unfold Pool.size at size
    simp only [Pool.set, Pool.size, Array.size_setIfInBounds, size]
  · rw [get_set_eq, get_set_eq, h.size]
    split
    · exact new
    · exact h.each r

end Pool

/-- The pools whose objects hold nothing but values and names. -/
structure Pools where
  arrays : Pool .array (Array Value)
  tables : Pool .table Table
  natives : Pool .native Native
  statics : Pool .statics StaticFields
  bounds : Pool .bound BoundMethod
  methods : Pool .method ValueMethod
  cells : Pool .cell Cell

namespace Heap

/-- The objects that are the same in worlds that resemble each other. -/
def pools (h : Heap) : Pools := ⟨h.arrays, h.tables, h.natives, h.statics, h.bounds, h.methods, h.cells⟩

/-- The heap with other plain objects. -/
def withPools (h : Heap) (p : Pools) : Heap :=
  { h with
    arrays := p.arrays, tables := p.tables, natives := p.natives, statics := p.statics
    bounds := p.bounds, methods := p.methods, cells := p.cells }

end Heap

/-! ## Functions, classes and instances -/

/-- The same functions but for the numbers of their prototypes. -/
structure Closure.Resembles (K : Constant → Constant → Prop) (c c' : Closure) : Prop where
  proto : K (.function c.proto) (.function c'.proto)
  cells : c'.cells = c.cells
  home : c'.home = c.home
  homeSuper : c'.homeSuper = c.homeSuper

/-- What a declared field shows: all but its symbol. -/
def FieldDecl.shown (d : FieldDecl) : Text × Value × Bool := (d.name, d.initial, d.isConst)

/-- The same classes but for the number of the method table and the symbols of fields. -/
structure Class.Resembles (c c' : Class) : Prop where
  same : c' = { c with tableId := c'.tableId, fields := c'.fields }
  fields : c'.fields.map FieldDecl.shown = c.fields.map FieldDecl.shown

/-- The names and values in the row of an instance. -/
def World.row (w : World) (r : Ref .object) : List (Option Text × Value) :=
  (w.heap.objects.get r).fields.fields.toList.map fun f => (w.symbols.name f.1, f.2)

/-- Two worlds that a program cannot tell apart without asking for numbers. -/
structure World.Resembles (K : Constant → Constant → Prop) (w w' : World) : Prop where
  pools : w'.heap.pools = w.heap.pools
  closures : w.heap.closures.Pairs (Closure.Resembles K) w'.heap.closures
  classes : w.heap.classes.Pairs Class.Resembles w'.heap.classes
  objects : w.heap.objects.Pairs (fun o o' => o'.cls = o.cls) w'.heap.objects
  rows : ∀ r, w'.row r = w.row r
  fields : ∀ r name, w'.namedField r name = w.namedField r name

theorem Class.resembles_refl (c : Class) : c.Resembles c := ⟨rfl, rfl⟩

/-- Worlds with the same heap, symbols and shapes. -/
theorem World.resembles_of_eq {K : Constant → Constant → Prop} (hK : Likeness K) {w w' : World}
    (heap : w'.heap = w.heap) (symbols : w'.symbols = w.symbols) (shapes : w'.shapes = w.shapes) :
    w.Resembles K w' where
  pools := by rw [heap]
  closures := by
    rw [heap]
    exact Pool.pairs_refl (fun c => ⟨hK.refl _, rfl, rfl, rfl⟩) _
  classes := by
    rw [heap]
    exact Pool.pairs_refl Class.resembles_refl _
  objects := by
    rw [heap]
    exact Pool.pairs_refl (P := fun o o' : Instance => o'.cls = o.cls) (fun _ => rfl) _
  rows r := by
    unfold World.row
    rw [heap, symbols]
  fields r name := by
    unfold World.namedField
    rw [heap, symbols, shapes]

/-! ## What can be read -/

namespace World.Resembles

variable {K : Constant → Constant → Prop} {w w' : World}

section

variable (h : w.Resembles K w')
include h

theorem arrays : w'.heap.arrays = w.heap.arrays := congrArg Pools.arrays h.pools

theorem tables : w'.heap.tables = w.heap.tables := congrArg Pools.tables h.pools

theorem natives : w'.heap.natives = w.heap.natives := congrArg Pools.natives h.pools

theorem statics : w'.heap.statics = w.heap.statics := congrArg Pools.statics h.pools

theorem bounds : w'.heap.bounds = w.heap.bounds := congrArg Pools.bounds h.pools

theorem methods : w'.heap.methods = w.heap.methods := congrArg Pools.methods h.pools

theorem cells : w'.heap.cells = w.heap.cells := congrArg Pools.cells h.pools

theorem containers : w'.heap.containers = w.heap.containers := by
  unfold Heap.containers
  rw [h.arrays, h.tables]

theorem class_name (r : Ref .cls) : (w'.heap.classes.get r).name = (w.heap.classes.get r).name := by
  rw [(h.classes.each r).same]

theorem class_superclass (r : Ref .cls) :
    (w'.heap.classes.get r).superclass = (w.heap.classes.get r).superclass := by
  rw [(h.classes.each r).same]

/-- Classes declare the same methods. -/
theorem class_methods (r : Ref .cls) : (w'.heap.classes.get r).methods = (w.heap.classes.get r).methods := by
  rw [(h.classes.each r).same]

theorem class_constructor (r : Ref .cls) :
    (w'.heap.classes.get r).constructor = (w.heap.classes.get r).constructor := by
  rw [(h.classes.each r).same]

theorem class_statics (r : Ref .cls) : (w'.heap.classes.get r).statics = (w.heap.classes.get r).statics := by
  rw [(h.classes.each r).same]

/-- Instances belong to classes of the same name. -/
theorem className (r : Ref .object) : w'.heap.className r = w.heap.className r := by
  unfold Heap.className
  rw [h.objects.each r, h.class_name]

theorem typeName : w'.heap.typeName = w.heap.typeName := by
  funext v
  cases v with
  | object r => exact h.className r
  | _ => rfl

theorem isTruthy : w'.heap.isTruthy = w.heap.isTruthy := by
  funext v
  cases v with
  | array r => simp only [Heap.isTruthy, h.arrays]
  | hash r => simp only [Heap.isTruthy, h.tables]
  | _ => rfl

/-- Comparisons find the same values inside. -/
theorem equalsTo (fuel : Nat) : w'.heap.equalsTo fuel = w.heap.equalsTo fuel := by
  induction fuel with
  | zero => rfl
  | succ fuel ih =>
    funext a b
    unfold Heap.equalsTo
    simp only [ih, h.arrays, h.tables, h.bounds, h.methods]

theorem equals : w'.heap.equals = w.heap.equals := by
  funext a b
  unfold Heap.equals
  rw [h.containers, h.equalsTo]

/-! ## Classes -/

/-- Classes have the same chains. -/
theorem chainFrom (fuel : Nat) (r : Ref .cls) : w'.heap.chainFrom fuel r = w.heap.chainFrom fuel r := by
  induction fuel generalizing r with
  | zero => rfl
  | succ fuel ih =>
    unfold Heap.chainFrom
    rw [h.class_superclass]
    simp only [ih]

theorem chain : w'.heap.chain = w.heap.chain := by
  funext r
  exact h.chainFrom _ r

/-- A method is found in the same class. -/
theorem findMethod : w'.heap.findMethod = w.heap.findMethod := by
  have own : ∀ r name, (w'.heap.classes.get r).ownMethod? name = (w.heap.classes.get r).ownMethod? name := by
    intro r name
    rw [(h.classes.each r).same]
    rfl
  funext r name
  unfold Heap.findMethod
  simp only [h.chain, own]

theorem findStaticMethod : w'.heap.findStaticMethod = w.heap.findStaticMethod := by
  have own : ∀ r name,
      (w'.heap.classes.get r).ownStaticMethod? name = (w.heap.classes.get r).ownStaticMethod? name := by
    intro r name
    rw [(h.classes.each r).same]
    rfl
  funext r name
  unfold Heap.findStaticMethod
  simp only [h.chain, own]

theorem ownStatics : w'.heap.ownStatics = w.heap.ownStatics := by
  funext r
  unfold Heap.ownStatics
  rw [h.class_statics, h.statics]

/-- A static field is found in the same cell. -/
theorem findStaticField : w'.heap.findStaticField = w.heap.findStaticField := by
  funext r name
  unfold Heap.findStaticField
  rw [h.chain, h.ownStatics]

theorem staticOwner? : w'.heap.staticOwner? = w.heap.staticOwner? := by
  funext r name
  unfold Heap.staticOwner?
  rw [h.chain, h.ownStatics]

theorem findNested : w'.heap.findNested = w.heap.findNested := by
  funext r name
  unfold Heap.findNested
  rw [(h.classes.each r).same]

theorem findConstructor : w'.heap.findConstructor = w.heap.findConstructor := by
  funext r
  unfold Heap.findConstructor
  simp only [h.chain, h.class_constructor]

/-- The same classes inherit from each other. -/
theorem isSubclass : w'.heap.isSubclass = w.heap.isSubclass := by
  funext r other
  unfold Heap.isSubclass
  rw [h.chain]

end

/-! ## Functions and texts -/

section

variable (hK : Likeness K) (h : w.Resembles K w')
include hK h

theorem closure_proto (r : Ref .closure) :
    ProtoOf.Resembles K (w.heap.closures.get r).proto (w'.heap.closures.get r).proto :=
  hK.proto (h.closures.each r).proto

/-- Functions have the same names. -/
theorem callableName : w'.heap.callableName = w.heap.callableName := by
  funext c
  cases c with
  | closure r => exact (h.closure_proto hK r).name
  | native r => simp only [Heap.callableName, h.natives]

/-- Values have the same texts. -/
theorem textTo (fuel : Nat) : w'.heap.textTo fuel = w.heap.textTo fuel := by
  induction fuel with
  | zero => rfl
  | succ fuel ih =>
    funext v
    unfold Heap.textTo
    simp only [ih, h.arrays, h.tables, h.bounds, h.methods, h.callableName hK, h.class_name, h.className,
      h.typeName]

theorem text : w'.heap.text = w.heap.text := by
  funext v
  unfold Heap.text
  rw [h.containers, h.textTo hK]

omit hK in

/-- The same values contain themselves. -/
theorem cyclicTo (fuel : Nat) : w'.heap.cyclicTo fuel = w.heap.cyclicTo fuel := by
  induction fuel with
  | zero => rfl
  | succ fuel ih =>
    funext path v
    unfold Heap.cyclicTo
    simp only [ih, h.arrays, h.tables]

theorem text? : w'.heap.text? = w.heap.text? := by
  funext v
  unfold Heap.text? Heap.isCyclic
  rw [h.containers, h.cyclicTo, h.text hK]

omit hK in
/-- Whatever is made of the names and values of a row is the same. -/
theorem row_map {β : Type} (g : Option Text → Value → β) (r : Ref .object) :
    (w'.heap.objects.get r).fields.fields.toList.map (fun f => g (w'.symbols.name f.1) f.2) =
      (w.heap.objects.get r).fields.fields.toList.map (fun f => g (w.symbols.name f.1) f.2) := by
  have rows := congrArg (List.map fun f => g f.1 f.2) (h.rows r)
  unfold World.row at rows
  rw [List.map_map, List.map_map] at rows
  exact rows

/-- A host sees the same of a value, since it sees the fields under their names. -/
theorem snapshotTo (fuel : Nat) :
    w'.heap.snapshotTo w'.symbols fuel = w.heap.snapshotTo w.symbols fuel := by
  induction fuel with
  | zero => rfl
  | succ fuel ih =>
    funext path v
    have names := h.row_map fun name _ => name.getD []
    have values := fun path => h.row_map fun _ v => w.heap.snapshotTo w.symbols fuel path v
    have protos := fun r => (h.closure_proto hK r).name
    have homes := fun r => (h.closures.each r).home
    unfold Heap.snapshotTo
    simp only [ih, h.arrays, h.tables, h.bounds, h.methods, h.natives, h.callableName hK, h.class_name,
      h.className, h.class_superclass, names, values, protos, homes]

theorem snapshot : w'.heap.snapshot w'.symbols = w.heap.snapshot w.symbols := by
  have size : w'.heap.descendable = w.heap.descendable := by
    unfold Heap.descendable
    rw [h.containers, h.objects.size, h.bounds, h.methods]
  funext v
  unfold Heap.snapshot
  rw [size, h.snapshotTo hK]

end

end World.Resembles

end ScriptVm
