import ScriptVm.Proofs.WorldRegular
import ScriptVm.Session

/-!
# What a host does to the world

A host makes the values of literals and builds classes. Neither looks at the caches or the log,
so both are `World.Blind`.
-/

set_option autoImplicit false

namespace ScriptVm

open World

/-! ## Literals -/

namespace World

theorem blind_newClass (w : World) (name : Text) : Blind (fun w => w.newClass name) w :=
  ⟨[], fun _ _ => ⟨rfl, evolves_newClass _ _⟩⟩

theorem blind_bareObject (w : World) (cls : Ref .cls) : Blind (fun w => w.bareObject cls) w :=
  ⟨[], fun _ _ => ⟨rfl, .single (.bareObject _ _)⟩⟩

theorem blind_newClosure (w : World) (p : Proto) : Blind (fun w => w.newClosure p) w :=
  ⟨[], fun _ _ => ⟨rfl, .single (.newClosure _ _)⟩⟩

/-- Prototypes are numbered whatever the log is. -/
theorem blind_drawProtoId (w : World) : Blind drawProtoId w :=
  ⟨[], fun _ _ => ⟨rfl, .single (.nextProto _ _)⟩⟩

/-- An operation for the class in a value, and null for any other value. -/
def ofClass (f : Ref .cls → World → Value × World) (v : Value) (w : World) : Value × World :=
  match v.cls? with
  | some r => f r w
  | none => (.null, w)

/-- What is blind for every class is blind. -/
theorem blind_ofClass {f : Ref .cls → World → Value × World} (h : ∀ r w, Blind (f r) w) (v : Value)
    (w : World) : Blind (ofClass f v) w := by
  unfold ofClass
  cases v.cls? with
  | some r => exact h r w
  | none => exact .pure _

end World

mutual

/-- Making the value of a literal does not look at caches and log. -/
theorem blind_realise (scope : Literal.Scope) (l : Literal) (w : World) :
    Blind (fun w => l.realise scope w) w := by
  cases l with
  | null | bool | int | float | decimal | str | namedArg | global | earlier =>
    simp only [Literal.realise]
    exact .pure _
  | array items =>
    simp only [Literal.realise]
    exact (blind_realiseAll scope items w).bind (g := fun vs => onHeap fun h => h.allocArray vs.toArray)
      (.onHeap fun w' _ => .newArray w' _)
  | hash keys values =>
    simp only [Literal.realise]
    exact (blind_realiseAll scope values w).bind
      (g := fun vs => onHeap fun h => h.allocTable (Table.ofList (keys.zip vs)))
      (.onHeap fun w' _ => .newTable w' _)
  | cls name =>
    simp only [Literal.realise]
    exact (blind_newClass w name).map Value.cls
  | object className =>
    simp only [Literal.realise]
    exact (blind_newClass w className).bind (g := fun r w => w.bareObject r) (blind_bareObject _ _)
  | objectOf cls =>
    simp only [Literal.realise]
    exact (blind_realise scope cls w).bind (g := ofClass fun r w => w.bareObject r)
      (blind_ofClass (fun r w => blind_bareObject w r) _ _)
  | superNamed name =>
    simp only [Literal.realise]
    exact (blind_newClass w name).map Value.superOf
  | superOf cls =>
    simp only [Literal.realise]
    exact (blind_realise scope cls w).bind (g := ofClass fun r w => (Value.superOf r, w))
      (blind_ofClass (fun r w => .pure (Value.superOf r)) _ _)
  | native name =>
    simp only [Literal.realise]
    exact Blind.onHeap (g := fun h => h.allocNative ⟨name, none, .nothing⟩) fun w' _ => .newNative w' _
  | closure name =>
    simp only [Literal.realise]
    exact (blind_drawProtoId w).bind
      (g := fun id w => (Value.closure (w.newClosure { id, name }).1, (w.newClosure { id, name }).2))
      ((blind_newClosure _ _).map Value.closure)
  | method name receiver =>
    simp only [Literal.realise]
    exact (blind_realise scope receiver w).bind (g := fun v => onHeap fun h => h.allocMethod ⟨v, name⟩)
      (.onHeap fun w' _ => .newMethod w' _)
  | bound function receiver =>
    simp only [Literal.realise]
    refine (blind_realise scope function w).bind
      (g := fun f w => World.bind (receiver.realise scope w).2 (receiver.realise scope w).1 f) ?_
    exact (blind_realise scope receiver _).bind (g := fun v w => w.bind v (function.realise scope _).1)
      (blind_bind _ _ _)

/-- A host makes values whatever the log is. -/
theorem blind_realiseAll (scope : Literal.Scope) (ls : List Literal) (w : World) :
    Blind (fun w => realiseAll scope w ls) w := by
  cases ls with
  | nil =>
    simp only [realiseAll]
    exact .pure _
  | cons l rest =>
    simp only [realiseAll]
    exact (blind_realise scope l w).bind
      (g := fun v w => (v :: (realiseAll scope w rest).1, (realiseAll scope w rest).2))
      ((blind_realiseAll scope rest _).map fun vs => _ :: vs)

end

/-! ## Classes -/

theorem World.blind_draftField (w : World) (draft : Class) (name : Text) (v : Value) (isConst : Bool) :
    Blind (fun w => w.draftField draft name v isConst) w :=
  ⟨[], fun _ _ => ⟨rfl, .single (.intern _ _)⟩⟩

namespace Session

/-- `withFields` in any world. -/
def draftFields (scope : Literal.Scope) :
    List (Text × Literal × Bool) → Class → World → Class × World
  | [], draft, w => (draft, w)
  | (name, initial, isConst) :: rest, draft, w =>
    let v := initial.realise scope w
    let d := v.2.draftField draft name v.1 isConst
    draftFields scope rest d.1 d.2

/-- The fields of a plan, as an operation on the world. -/
theorem withFields_eq (s : Session) (draft : Class) (fields : List (Text × Literal × Bool)) :
    s.withFields draft fields = draftFields s.scope fields draft s.machine.world := by
  unfold withFields
  generalize s.machine.world = w
  induction fields generalizing draft w with
  | nil => rfl
  | cons f rest ih => exact ih _ _

theorem blind_draftFields (scope : Literal.Scope) (fields : List (Text × Literal × Bool)) (draft : Class)
    (w : World) : Blind (draftFields scope fields draft) w := by
  induction fields generalizing draft w with
  | nil => exact .pure draft
  | cons f rest ih =>
    obtain ⟨name, initial, isConst⟩ := f
    refine (blind_realise scope initial w).bind
      (g := fun v w => draftFields scope rest (w.draftField draft name v isConst).1
        (w.draftField draft name v isConst).2) ?_
    exact (blind_draftField _ draft name _ isConst).bind (ih _ _)

/-- Declared fields keep a draft well made. -/
theorem wellMade_draftFields (scope : Literal.Scope) (fields : List (Text × Literal × Bool)) {draft : Class}
    (made : draft.WellMade) (w : World) : (draftFields scope fields draft w).1.WellMade := by
  induction fields generalizing draft w with
  | nil => exact made
  | cons f rest ih => exact ih (wellMade_draftField made _ _ _ _) _

/-- `withStatics` as an operation. -/
def declareStatics (scope : Literal.Scope) (r : Ref .cls) :
    List (Text × Literal × Bool) → World → Unit × World
  | [], w => ((), w)
  | (name, initial, isConst) :: rest, w =>
    let v := initial.realise scope w
    declareStatics scope r rest { v.2 with heap := v.2.heap.defineStatic r name v.1 isConst }

/-- The static fields of a plan, as an operation on the world. -/
theorem withStatics_eq (s : Session) (w : World) (r : Ref .cls) (statics : List (Text × Literal × Bool)) :
    s.withStatics w r statics = (declareStatics s.scope r statics w).2 := by
  unfold withStatics
  induction statics generalizing w with
  | nil => rfl
  | cons f rest ih => exact ih _

theorem blind_declareStatics (scope : Literal.Scope) (r : Ref .cls) (statics : List (Text × Literal × Bool))
    (w : World) : Blind (declareStatics scope r statics) w := by
  induction statics generalizing w with
  | nil => exact .pure ()
  | cons f rest ih =>
    obtain ⟨name, initial, isConst⟩ := f
    refine (blind_realise scope initial w).bind
      (g := fun v w =>
        declareStatics scope r rest { w with heap := w.heap.defineStatic r name v isConst }) ?_
    have declared : Blind
        (onHeap fun h => ((), h.defineStatic r name (initial.realise scope w).1 isConst))
        (initial.realise scope w).2 :=
      .onHeap fun w' _ => .putStatic w' r name _
    exact declared.bind (g := fun _ => declareStatics scope r rest) (ih _)

variable (s : Session)

/-- The class that a plan starts from, in any world. -/
def draftIn (plan : ClassPlan) (w : World) : Class × World :=
  match plan.base.bind s.globalClass? with
  | some r => (w.heap.classes.get r, w)
  | none => w.draftClass plan.name

theorem blind_draftIn (plan : ClassPlan) (w : World) : Blind (s.draftIn plan) w := by
  unfold draftIn
  split
  · exact ⟨[], fun _ _ => ⟨rfl, .refl⟩⟩
  · exact ⟨[], fun _ _ => ⟨rfl, .single (.newStatics _)⟩⟩

/-- The class that a plan starts from is well made, if every class is later on. -/
theorem wellMade_draftIn (plan : ClassPlan) {w w' : World} (later : Evolves (s.draftIn plan w).2 w')
    (made : ∀ r, (w'.heap.classes.get r).WellMade) : (s.draftIn plan w).1.WellMade := by
  unfold draftIn at later ⊢
  split at later
  next r _ => exact Evolves.wellMade later made r
  next => exact Class.wellMade_bare _ _

/-- Adding methods changes nothing but methods and constructor. -/
theorem withMethods_eq (find : Text → Option (Ref .closure)) (draft : Class) (named : List (Text × Text)) :
    withMethods find draft named =
      { draft with
        methods := (withMethods find draft named).methods
        constructor := (withMethods find draft named).constructor } := by
  induction named generalizing draft with
  | nil => rfl
  | cons f rest ih =>
    obtain ⟨name, global⟩ := f
    unfold withMethods
    rw [List.foldl_cons]
    dsimp only
    split
    · exact ih _
    · exact ih _

/-- Methods keep a draft well made: the constructor is set with the method. -/
theorem wellMade_withMethods (find : Text → Option (Ref .closure)) {draft : Class} (made : draft.WellMade)
    (named : List (Text × Text)) :
    (withMethods find draft named).WellMade := by
  induction named generalizing draft with
  | nil => exact made
  | cons f rest ih =>
    obtain ⟨name, global⟩ := f
    unfold withMethods
    rw [List.foldl_cons]
    dsimp only
    split
    · exact ih (made.withMethod name _)
    · exact ih made

/-- A class under construction with the functions and classes of a plan. -/
def furnish (plan : ClassPlan) (draft : Class) (w : World) : Class :=
  { withMethods s.globalClosure? draft plan.methods with
    staticMethods := withFunctions s.globalClosure? draft.staticMethods plan.staticMethods
    nativeMethods := withFunctions s.globalNative? draft.nativeMethods plan.nativeMethods
    nativeStatics := withFunctions s.globalNative? draft.nativeStatics plan.nativeStatics
    nested := (plan.nested.filterMap s.globalClass?).foldl
      (fun table r => table.insert (w.heap.classes.get r).name r) draft.nested }

/-- Superclass, methods and nested classes keep it well made. -/
theorem wellMade_furnish (plan : ClassPlan) {draft : Class} (made : draft.WellMade) (w : World) :
    (s.furnish plan draft w).WellMade :=
  have methods := wellMade_withMethods s.globalClosure? made plan.methods
  ⟨methods.once, methods.init⟩

/-- A class under construction with the superclass of a plan. -/
def withSuper (plan : ClassPlan) (draft : Class) : Class :=
  match plan.superclass.bind s.globalClass? with
  | some r => { draft with superclass := some r }
  | none => draft

theorem wellMade_withSuper (plan : ClassPlan) {draft : Class} (made : draft.WellMade) :
    (s.withSuper plan draft).WellMade := by
  unfold withSuper
  split
  · exact ⟨made.once, made.init⟩
  · exact made

/-- `buildClass` as an operation of the world. -/
def buildIn (plan : ClassPlan) (w : World) : Ref .cls × World :=
  let d := s.draftIn plan w
  let f := draftFields s.scope plan.fields (s.withSuper plan d.1) d.2
  let c := f.2.publish (s.furnish plan f.1 f.2)
  (c.1, (declareStatics s.scope c.1 plan.statics c.2).2)

/-- Building a class is an operation on the world, whose result becomes a global. -/
theorem buildClass_eq (plan : ClassPlan) :
    s.buildClass plan =
      { s with
        machine := { s.machine with
          world := (s.buildIn plan s.machine.world).2
          globals := s.machine.globals.insert plan.global (.cls (s.buildIn plan s.machine.world).1) } } := by
  unfold buildClass
  simp only [withFields_eq, withStatics_eq]
  rfl

/-- Of a session, building a class reads the globals. -/
theorem buildIn_congr {s s' : Session} (globals : s'.machine.globals = s.machine.globals) (plan : ClassPlan) :
    s'.buildIn plan = s.buildIn plan := by
  have scope : s'.scope = s.scope := by
    unfold Session.scope
    rw [globals]
  have value : s'.globalValue = s.globalValue := by
    funext name
    unfold globalValue
    rw [globals]
  have cls : s'.globalClass? = s.globalClass? := by
    funext name
    unfold globalClass?
    rw [value]
  have closure : s'.globalClosure? = s.globalClosure? := by
    funext name
    unfold globalClosure?
    rw [value]
  have native : s'.globalNative? = s.globalNative? := by
    funext name
    unfold globalNative?
    rw [value]
  funext w
  unfold buildIn draftIn withSuper furnish
  rw [scope, cls, closure, native]

/-- Building a class does not look at caches and log. -/
theorem blind_buildIn (plan : ClassPlan) (w : World) : Blind (s.buildIn plan) w := by
  refine (s.blind_draftIn plan w).bind
    (g := fun d w =>
      let f := draftFields s.scope plan.fields (s.withSuper plan d) w
      let c := f.2.publish (s.furnish plan f.1 f.2)
      (c.1, (declareStatics s.scope c.1 plan.statics c.2).2)) ?_
  refine (blind_draftFields s.scope plan.fields _ _).bind
    (g := fun d w =>
      let c := w.publish (s.furnish plan d w)
      (c.1, (declareStatics s.scope c.1 plan.statics c.2).2)) ?_
  refine Blind.bind (f := fun w => w.publish (s.furnish plan _ w))
    (g := fun r w => (r, (declareStatics s.scope r plan.statics w).2)) ?_ ?_
  · refine ⟨[], fun _ _ => ⟨rfl, .single (.publish _ _ fun made => ?_)⟩⟩
    have start := s.wellMade_draftIn plan (blind_draftFields s.scope plan.fields _ _).evolves made
    refine s.wellMade_furnish plan (wellMade_draftFields s.scope plan.fields (s.wellMade_withSuper plan start) _) _
  · exact (blind_declareStatics s.scope _ plan.statics _).map fun _ => _

end Session

end ScriptVm
