import ScriptVm.Proofs.Mirrors

/-!
# Operations that are the same on related backings

One lemma for each operation that instructions are made of, up to builtin methods and native
functions: it does the same on machines whose backings are related by a bisimulation. Of the native
functions, those that tell the number of a shape or method table are left to the relation at hand.
-/

set_option autoImplicit false

namespace ScriptVm.Exec

open Machine World

variable {K : Constant → Constant → Prop} {R : Backing → Backing → Prop} {m : Machine} {b : Backing}
  {α β : Type}

/-! ## What can be read of a machine -/

/-- The lines of code are no numbers of the world. -/
theorem lineOf_of_resembles (hK : Likeness K) (h : m.world.Resembles K b.world) : (m.on b).lineOf = m.lineOf := by
  funext f
  have lines : ((m.on b).protoOf f).chunk.lines = (m.protoOf f).chunk.lines := (h.closure_proto hK f.closure).lines
  unfold lineOf Chunk.lineAt
  rw [lines]

theorem span_of_resembles (hK : Likeness K) (h : m.world.Resembles K b.world) : (m.on b).span = m.span := by
  unfold span
  rw [lineOf_of_resembles hK h]
  rfl

section

variable (hB : Bisimulation K R)
include hB

section

variable (hb : R m.backing b)
include hb

theorem on_arrays : (m.on b).heap.arrays = m.heap.arrays := (hB.resembles hb).arrays

theorem on_tables : (m.on b).heap.tables = m.heap.tables := (hB.resembles hb).tables

theorem on_cells : (m.on b).heap.cells = m.heap.cells := (hB.resembles hb).cells

/-- A value has the same text on either backing. -/
theorem on_text : (m.on b).text = m.text := (hB.resembles hb).text hB.likeness

theorem on_typeName : (m.on b).typeName = m.typeName := (hB.resembles hb).typeName

theorem on_isTruthy : (m.on b).isTruthy = m.isTruthy := (hB.resembles hb).isTruthy

theorem on_equals : (m.on b).heap.equals = m.heap.equals := (hB.resembles hb).equals

/-- A field has the same value under its name. -/
theorem on_namedField : (m.on b).world.namedField = m.world.namedField := by
  funext r name
  exact (hB.resembles hb).fields r name

theorem on_protoOf (f : Frame) : ProtoOf.Resembles K (m.protoOf f) ((m.on b).protoOf f) :=
  (hB.resembles hb).closure_proto hB.likeness f.closure

theorem on_lineOf : (m.on b).lineOf = m.lineOf := lineOf_of_resembles hB.likeness (hB.resembles hb)

theorem on_span : (m.on b).span = m.span := span_of_resembles hB.likeness (hB.resembles hb)

/-- The calls under way have the same names and lines. -/
theorem on_trace : (m.on b).trace = m.trace := by
  have names : ∀ r : Ref .closure,
      traceName ((m.on b).heap.closures.get r) = traceName (m.heap.closures.get r) := by
    intro r
    have name : ((m.on b).heap.closures.get r).proto.name = (m.heap.closures.get r).proto.name :=
      ((hB.resembles hb).closure_proto hB.likeness r).name
    have home : ((m.on b).heap.closures.get r).home = (m.heap.closures.get r).home :=
      ((hB.resembles hb).closures.each r).home
    unfold traceName
    rw [name, home]
  unfold trace
  rw [on_lineOf hB hb]
  simp only [names]
  rfl

/-- An error is reported in the same words. -/
theorem on_recordError (e : RuntimeError) : (m.on b).recordError e = (m.recordError e).on b := by
  unfold recordError
  rw [on_trace hB hb]
  rfl

theorem on_thrownMessage : (m.on b).thrownMessage = m.thrownMessage := by
  funext v
  unfold thrownMessage
  rw [on_text hB hb, on_namedField hB hb]

end

/-! ## The machine -/

theorem same_fail (c : Cause) : Same R (fail c : Exec α) m :=
  .read (fun b hb => by rw [on_span hB hb]) (mirrors_raise _)

omit hB in
theorem same_frame : Same R frame m := .read (fun _ _ => rfl) (same_pure _)

omit hB in
/-- The configuration belongs to the machine, not to its backing. -/
theorem same_config : Same R config m := .read (fun _ _ => rfl) (same_pure _)

omit hB in
theorem same_peek (k : Nat) : Same R (peek k) m :=
  .read (fun _ _ => rfl) (.read (fun _ _ => rfl) (same_pure _))

omit hB in
theorem same_peekMany (k : Nat) : Same R (peekMany k) m :=
  .read (fun _ _ => rfl) (.read (fun _ _ => rfl) (.read (fun _ _ => rfl) (same_pure _)))

omit hB in
/-- A change of the stack. -/
theorem same_stack (f : Array Value → α × Array Value) :
    Same R (modifyGet fun m => ((f m.stack).1, { m with stack := (f m.stack).2 })) m :=
  same_modifyGet (fun _ _ => rfl) rfl

omit hB in
theorem same_push (v : Value) : Same R (push v) m := same_stack fun st => ((), st.push v)

omit hB in
theorem same_pop : Same R pop m := same_stack fun st => (st.back?.getD .null, st.pop)

omit hB in
theorem same_popMany (k : Nat) : Same R (popMany k) m :=
  same_stack fun st => ((st.extract (st.size - k) st.size).toList, st.shrink (st.size - k))

omit hB in
theorem same_setSlot (i : Nat) (v : Value) : Same R (setSlot i v) m :=
  same_stack fun st => ((), st.setIfInBounds i v)

omit hB in
theorem same_resize (k : Nat) : Same R (resize k) m := same_stack fun st => ((), resized st k)

omit hB in

/-- An operation on the stack does not look at the backing. -/
theorem same_restack (g : Array Value → Array Value) :
    Same R (modify fun m => { m with stack := g m.stack }) m := same_stack fun st => ((), g st)

/-- The prototypes of the innermost call correspond. -/
theorem mirrors_proto : Mirrors R (fun p p' => K (.function p) (.function p')) proto proto m :=
  fun _ hb => .ok ((hB.resembles hb).closures.each _).proto hb

/-- The constants that an operand selects correspond. -/
theorem mirrors_constant (i : Nat) : Mirrors R K (constant i) (constant i) m := by
  refine (mirrors_proto hB).bind fun p p' m₁ _ related => ?_
  have constants := (hB.likeness.proto related).constants i
  generalize p.chunk.constants[i]? = k at constants ⊢
  generalize p'.chunk.constants[i]? = k' at constants ⊢
  cases constants with
  | none => exact mirrors_raise _
  | some related => exact mirrors_pure related

theorem same_constantName (i : Nat) : Same R (constantName i) m := by
  refine (mirrors_constant hB i).bind fun k k' m₁ _ related => ?_
  rw [hB.likeness.text? related]
  cases k.text? with
  | some t => exact same_pure t
  | none => exact same_fail hB _

/-! ## The world -/

theorem same_note (level : Level) (message : Unit → Text) : Same R (note level message) m := by
  refine same_withWorld fun b hb => ⟨rfl, ?_⟩
  simp only [note_eq]
  exact hB.hear hb _

omit hB in

/-- An operation on the heap changes nothing but the backing. -/
theorem run_withHeap (g : Heap → α × Heap) (m : Machine) :
    (withHeap g).run m = .ok (g m.heap).1 (m.on (m.backing.withHeap (g m.heap).2)) := rfl

/-- An operation that does the same to the plain objects of both heaps. -/
theorem same_withHeap {g : Heap → α × Heap}
    (plain : ∀ b, R m.backing b → ∃ a p, g m.heap = (a, m.heap.withPools p) ∧
      g b.world.heap = (a, b.world.heap.withPools p)) : Same R (withHeap g) m := by
  intro b hb
  obtain ⟨a, p, own, other⟩ := plain b hb
  have other : g (m.on b).heap = (a, b.world.heap.withPools p) := other
  rw [run_withHeap, run_withHeap, own, other]
  exact .ok (m := m.on (m.backing.withHeap (m.heap.withPools p))) rfl (hB.pools hb p)

/-- An operation on the plain objects of a heap. -/
theorem same_onPools {g : Heap → α × Heap} (k : Pools → α × Pools)
    (plain : ∀ h : Heap, g h = ((k h.pools).1, h.withPools (k h.pools).2)) : Same R (withHeap g) m := by
  refine same_withHeap hB fun b hb => ⟨_, _, plain m.heap, ?_⟩
  have pools : b.world.heap.pools = m.heap.pools := (hB.resembles hb).pools
  rw [plain b.world.heap, pools]

theorem same_newArray (items : List Value) : Same R (newArray items) m :=
  same_onPools hB
    (fun p => (.array (p.arrays.alloc items.toArray).1, { p with arrays := (p.arrays.alloc items.toArray).2 }))
    fun _ => rfl

/-- An array is written in the same way, whatever is made of it. -/
theorem same_setArray (r : Ref .array) (g : Array Value → Array Value) :
    Same R (modifyHeap fun h => { h with arrays := h.arrays.set r (g (h.arrays.get r)) }) m :=
  same_onPools hB (fun p => ((), { p with arrays := p.arrays.set r (g (p.arrays.get r)) })) fun _ => rfl

/-- A table is written in the same way, whatever is made of it. -/
theorem same_setTable (r : Ref .table) (g : Table → Table) :
    Same R (modifyHeap fun h => { h with tables := h.tables.set r (g (h.tables.get r)) }) m :=
  same_onPools hB (fun p => ((), { p with tables := p.tables.set r (g (p.tables.get r)) })) fun _ => rfl

theorem same_newTable (t : Table) : Same R (withHeap fun h => h.allocTable t) m :=
  same_onPools hB (fun p => (.hash (p.tables.alloc t).1, { p with tables := (p.tables.alloc t).2 })) fun _ => rfl

theorem same_newMethod (receiver : Value) (name : Text) : Same R (newMethod receiver name) m :=
  same_onPools hB
    (fun p => (.method (p.methods.alloc ⟨receiver, name⟩).1,
      { p with methods := (p.methods.alloc ⟨receiver, name⟩).2 }))
    fun _ => rfl

theorem same_newCell (c : Cell) : Same R (withHeap fun h => h.allocCell c) m :=
  same_onPools hB (fun p => ((p.cells.alloc c).1, { p with cells := (p.cells.alloc c).2 })) fun _ => rfl

theorem same_setCell (r : Ref .cell) (c : Cell) :
    Same R (modifyHeap fun h => { h with cells := h.cells.set r c }) m :=
  same_onPools hB (fun p => ((), { p with cells := p.cells.set r c })) fun _ => rfl

/-- A method is bound to the same receiver. -/
theorem same_bindMethod (receiver method : Value) : Same R (bindMethod receiver method) m := by
  unfold bindMethod World.bind
  cases Callable.ofValue? method with
  | none => exact same_withWorld fun b hb => ⟨rfl, hb⟩
  | some target =>
    refine same_onPools (g := fun h => h.allocBound { receiver, target }) hB
      (fun p => (.bound (p.bounds.alloc { receiver, target }).1,
        { p with bounds := (p.bounds.alloc { receiver, target }).2 }))
      fun _ => rfl

/-- Writing a static field of a class. -/
theorem same_putStatic (r : Ref .cls) (name : Text) (f : StaticField) :
    Same R (modifyHeap fun h => h.putStatic r name f) m := by
  refine same_withHeap hB fun b hb => ⟨(), { m.heap.pools with
    statics := m.heap.statics.set (m.heap.classes.get r).statics
      ((m.heap.statics.get (m.heap.classes.get r).statics).insert name f) }, rfl, ?_⟩
  have pools : b.world.heap.pools = m.heap.pools := (hB.resembles hb).pools
  have statics : b.world.heap.statics = m.heap.statics := (hB.resembles hb).statics
  have cell : (b.world.heap.classes.get r).statics = (m.heap.classes.get r).statics :=
    (hB.resembles hb).class_statics r
  rw [← pools, ← statics, ← cell]
  rfl

/-- Prototypes that correspond make closures that correspond, at the same reference. -/
theorem mirrors_newClosure {p p' : Proto} (related : K (.function p) (.function p')) (cells : List (Ref .cell)) :
    Mirrors R Eq (withHeap fun h => h.allocClosure { proto := p, cells })
      (withHeap fun h => h.allocClosure { proto := p', cells }) m := by
  intro b hb
  have ref := (hB.resembles hb).closures.alloc_ref { proto := p, cells } { proto := p', cells }
  rw [run_withHeap, run_withHeap]
  exact .ok (m := m.on (m.backing.withHeap (m.heap.allocClosure { proto := p, cells }).2)) ref.symm
    (hB.newClosure hb related cells)

/-! ## Operators -/

theorem same_checked (r : Option Int64) : Same R (checked r) m := by
  unfold checked
  split
  · exact same_pure _
  · exact same_fail hB _

/-- Sums and joined texts depend on the operands and their texts only. -/
theorem same_add (x y : Value) : Same R (add x y) m := by
  refine .read (fun b hb => by simp only [on_text hB hb, on_typeName hB hb, on_arrays hB hb]) ?_
  split
  · exact same_checked hB _
  · exact same_pure _
  · exact same_pure _
  · exact same_newArray hB _
  · split
    · exact same_pure _
    · exact same_fail hB _

theorem same_subtract (x y : Value) : Same R (subtract x y) m := by
  refine .read (fun b hb => by simp only [on_typeName hB hb]) ?_
  split
  · exact same_checked hB _
  · split
    · exact same_pure _
    · exact same_fail hB _

theorem same_repeatText (s : Text) (times : Int64) : Same R (repeatText s times) m := by
  refine same_config.bind fun c _ _ => ?_
  split
  · exact same_pure _
  · exact same_fail hB _

theorem same_multiply (x y : Value) : Same R (multiply x y) m := by
  refine .read (fun b hb => by simp only [on_typeName hB hb]) ?_
  split
  · exact same_checked hB _
  · exact same_repeatText hB _ _
  · exact same_repeatText hB _ _
  · split
    · exact same_pure _
    · exact same_fail hB _

theorem same_divide (x y : Value) : Same R (divide x y) m := by
  refine .read (fun b hb => by simp only [on_typeName hB hb]) ?_
  split
  · split
    · exact same_fail hB _
    · split
      · exact same_checked hB _
      · exact same_pure _
  · exact same_fail hB _

theorem same_modulo (x y : Value) : Same R (modulo x y) m := by
  refine .read (fun b hb => by simp only [on_typeName hB hb]) ?_
  split
  · split
    · exact same_fail hB _
    · split <;> exact same_pure _
  · exact same_fail hB _

/-- Failing with the type of a value. -/
theorem same_failType (c : Text → Cause) (v : Value) :
    Same R (do fail (c ((← get).typeName v)) : Exec α) m :=
  .read (fun b hb => by rw [on_typeName hB hb]) (same_fail hB _)

theorem same_negate (v : Value) : Same R (negate v) m := by
  unfold negate
  split
  · exact same_checked hB _
  · exact same_pure _
  · exact same_failType hB _ _

theorem same_less (x y : Value) : Same R (less x y) m := by
  refine .read (fun b hb => by simp only [on_typeName hB hb]) ?_
  split
  · exact same_pure _
  · exact same_pure _
  · split
    · exact same_pure _
    · exact same_fail hB _

theorem same_lessEqual (x y : Value) : Same R (lessEqual x y) m := by
  refine .read (fun b hb => by simp only [on_typeName hB hb]) ?_
  split
  · exact same_pure _
  · exact same_pure _
  · split
    · exact same_pure _
    · exact same_fail hB _

theorem same_expectKey (v : Value) : Same R (expectKey v) m := by
  unfold expectKey
  split
  · exact same_pure _
  · exact same_failType hB _ _

theorem same_getIndex (object index : Value) : Same R (getIndex object index) m := by
  refine .read (fun b hb => by simp only [on_typeName hB hb, on_tables hB hb, on_arrays hB hb]) ?_
  split
  · exact (same_expectKey hB _).bind fun _ _ _ => same_pure _
  · simp only
    split
    · exact same_pure _
    · exact same_fail hB _
  · simp only
    split
    · exact same_pure _
    · exact same_fail hB _
  · exact same_fail hB _

theorem same_setIndex (object index v : Value) : Same R (setIndex object index v) m := by
  refine .read (fun b hb => by simp only [on_typeName hB hb, on_arrays hB hb]) ?_
  split
  · exact (same_expectKey hB _).bind fun key _ _ => same_setTable hB _ (·.set key v)
  · simp only
    split
    · exact same_setArray hB _ (·.setIfInBounds _ v)
    · exact same_fail hB _
  · exact same_fail hB _

theorem same_range (x y : Value) : Same R (range x y) m := by
  unfold range
  split
  · refine same_config.bind fun c _ _ => ?_
    split
    · exact same_newArray hB _
    · exact same_fail hB _
  · exact same_fail hB _

/-- A hash literal makes the same table of the same operands, or fails with the same key. -/
theorem same_hashLiteral (k : Nat) : Same R (hashLiteral k) m := by
  refine (same_peekMany _).bind fun window m' _ => .read (fun _ _ => rfl) ?_
  simp only
  split
  · exact (same_resize _).bind fun _ _ _ => same_newTable hB _
  · exact (same_restack fun st => st.shrink _ ++ (moveEntries _ window).toArray).bind fun _ _ _ =>
      same_failType hB _ _

/-! ## Builtin methods -/

theorem same_expectArgs (args : List Value) (k : Nat) : Same R (expectArgs args k) m := by
  unfold expectArgs
  split
  · exact same_pure _
  · exact same_fail hB _

theorem same_expectAtMost (args : List Value) (k : Nat) : Same R (expectAtMost args k) m := by
  unfold expectAtMost
  split
  · exact same_pure _
  · exact same_fail hB _

theorem same_expectText (v : Value) (method : Text) : Same R (expectText v method) m := by
  unfold expectText
  split
  · exact same_pure _
  · exact same_failType hB _ _

theorem same_noMethod (receiver : Value) (name : Text) : Same R (noMethod receiver name) m :=
  same_failType hB (fun t => .noSuchProperty t name) receiver

theorem same_arrayMethod (r : Ref .array) (method : ArrayMethod) (args : List Value) :
    Same R (arrayMethod r method args) m := by
  refine .read (fun b hb => by simp only [on_arrays hB hb, on_text hB hb, on_equals hB hb]) ?_
  cases method with
  | length | first | last | includes => exact (same_expectArgs hB _ _).bind fun _ _ _ => same_pure _
  | push => exact (same_setArray hB r (· ++ args.toArray)).bind fun _ _ _ => same_pure _
  | pop =>
    refine (same_expectArgs hB _ _).bind fun _ _ _ => ?_
    exact (same_setArray hB r Array.pop).bind fun _ _ _ => same_pure _
  | join =>
    refine (same_expectAtMost hB _ _).bind fun _ _ _ => ?_
    cases args with
    | nil => exact same_pure _
    | cons v _ => exact (same_expectText hB _ _).bind fun _ _ _ => same_pure _
  | reverse => exact (same_expectArgs hB _ _).bind fun _ _ _ => same_newArray hB _

theorem same_hashMethod (r : Ref .table) (method : HashMethod) (args : List Value) :
    Same R (hashMethod r method args) m := by
  refine .read (fun b hb => by simp only [on_tables hB hb]) ?_
  cases method with
  | length => exact (same_expectArgs hB _ _).bind fun _ _ _ => same_pure _
  | keys | values => exact (same_expectArgs hB _ _).bind fun _ _ _ => same_newArray hB _
  | hasKey =>
    refine (same_expectArgs hB _ _).bind fun _ _ _ => ?_
    exact (same_expectKey hB _).bind fun _ _ _ => same_pure _
  | delete =>
    refine (same_expectArgs hB _ _).bind fun _ _ _ => (same_expectKey hB _).bind fun key _ _ => ?_
    split
    · exact same_pure _
    · exact (same_setTable hB r fun t => (t.remove key).2).bind fun _ _ _ => same_pure _

theorem same_textMethod (t : Text) (method : TextMethod) (args : List Value) :
    Same R (textMethod t method args) m := by
  unfold textMethod
  cases method with
  | length | upcase | downcase | trim => exact (same_expectArgs hB _ _).bind fun _ _ _ => same_pure _
  | split =>
    refine (same_expectAtMost hB _ _).bind fun _ _ _ => ?_
    cases args with
    | nil => exact same_newArray hB _
    | cons v _ => exact (same_expectText hB _ _).bind fun _ _ _ => same_newArray hB _
  | includes =>
    refine (same_expectArgs hB _ _).bind fun _ _ _ => ?_
    exact (same_expectText hB _ _).bind fun _ _ _ => same_pure _

/-- Builtin methods do the same to the same receivers. -/
theorem same_callMethod (receiver : Value) (name : Text) (args : List Value) :
    Same R (callMethod receiver name args) m := by
  unfold callMethod
  cases receiver with
  | array r =>
    simp only
    split
    · exact same_arrayMethod hB _ _ _
    · exact same_noMethod hB _ _
  | hash r =>
    simp only
    split
    · exact same_hashMethod hB _ _ _
    · exact same_noMethod hB _ _
  | str t =>
    simp only
    split
    · exact same_textMethod hB _ _ _
    · exact same_noMethod hB _ _
  | _ => exact same_noMethod hB _ _

/-! ## Native functions -/

theorem same_nativeFail (message : Text) : Same R (nativeFail message : Exec α) m := same_fail hB _

theorem same_expectObject (v : Value) : Same R (expectObject v) m := by
  unfold expectObject
  split
  · exact same_pure _
  · exact same_nativeFail hB _

theorem same_expectClass (v : Value) : Same R (expectClass v) m := by
  unfold expectClass
  split
  · exact same_pure _
  · exact same_nativeFail hB _

theorem same_expectString (v : Value) : Same R (expectString v) m := by
  unfold expectString
  split
  · exact same_pure _
  · exact same_nativeFail hB _

omit hB in
theorem same_mapM {f : α → Exec β} (h : ∀ a m, Same R (f a) m) (as : List α) (m : Machine) :
    Same R (as.mapM f) m := by
  induction as generalizing m with
  | nil => exact same_pure _
  | cons a rest ih =>
    rw [List.mapM_cons]
    exact (h a m).bind fun _ _ _ => (ih _).bind fun _ _ _ => same_pure _

theorem same_classMembers (r : Ref .cls) : Same R (classMembers r) m := by
  have members : ∀ ds : List FieldDecl,
      (ds.mapM fun d => newArray [.str d.name, d.initial, .bool d.isConst] : Exec (List Value)) =
        (ds.map FieldDecl.shown).mapM fun d => newArray [.str d.1, d.2.1, .bool d.2.2] := by
    intro ds
    rw [List.mapM_map]
    rfl
  unfold classMembers
  simp only [members]
  refine .readHeap (fun b hb => ?_) ?_
  · have methods : (b.world.heap.classes.get r).methods = (m.heap.classes.get r).methods :=
      (hB.resembles hb).class_methods r
    have fields : (b.world.heap.classes.get r).fields.map FieldDecl.shown =
        (m.heap.classes.get r).fields.map FieldDecl.shown := ((hB.resembles hb).classes.each r).fields
    rw [methods, fields]
  · exact (same_mapM (fun _ _ => same_newArray hB _) _ m).bind fun _ _ _ => same_newArray hB _

/-- An error is recorded with the same calls. -/
theorem same_recordError (e : RuntimeError) : Same R (modify fun m => m.recordError e) m := by
  intro b hb
  have run : ∀ m : Machine, (modify fun m => m.recordError e : Exec Unit).run m = .ok () (m.recordError e) :=
    fun _ => rfl
  rw [run, run, on_recordError hB hb]
  exact .ok rfl hb

theorem same_callNamed (name : Text) (args : List Value) : Same R (callNamed name args) m := by
  refine .read (fun b hb => by rw [on_span hB hb]; rfl) ?_
  split
  · exact same_pure _
  · exact (same_recordError hB _).bind fun _ _ _ => same_pure _

/-- Caches are cleared on both backings. -/
theorem same_clearCaches :
    Same R (modify fun m => { m with world := { m.world with caches := m.world.caches.clear } }) m :=
  same_withWorld (f := fun w => ((), { w with caches := w.caches.clear })) fun _ hb => ⟨rfl, hB.forget hb⟩

/-- The shapes of an instance are sealed on both sides, whatever their numbers are. -/
theorem same_sealing (args : List Value) : Same R (plainNative .sealShape args) m := by
  intro b hb
  have otherwise : ∀ m : Machine, (∀ r, args.headD .null ≠ .object r) →
      (plainNative .sealShape args).run m = (nativeFail "instance expected" : Exec Value).run m := by
    intro m none
    unfold plainNative expectObject
    rw [run_bind_of_ok (run_get _)]
    generalize args.headD .null = first at none
    cases first with
    | object r => exact absurd rfl (none r)
    | _ => rfl
  by_cases object : ∃ r, args.headD .null = .object r
  · obtain ⟨r, object⟩ := object
    have run : ∀ m : Machine,
        (plainNative .sealShape args).run m = .ok .null (m.on (m.backing.sealing r)) := by
      intro m
      unfold plainNative
      rw [run_bind_of_ok (run_get _), object]
      rfl
    rw [run, run]
    exact .ok (m := m.on (m.backing.sealing r)) rfl (hB.sealing hb r)
  · have none : ∀ r, args.headD .null ≠ .object r := fun r h => object ⟨r, h⟩
    rw [otherwise m none, otherwise (m.on b) none]
    exact same_nativeFail hB _ b hb

/-- A native function does the same, unless it tells the number of a shape or method table. -/
theorem same_plainNative {body : NativeBody} (args : List Value)
    (numbers : body = .shape ∨ body = .table → Same R (plainNative body args) m) :
    Same R (plainNative body args) m := by
  cases body with
  | shape => exact numbers (.inl rfl)
  | table => exact numbers (.inr rfl)
  | sealShape => exact same_sealing hB args
  | args | pair => exact .read (fun _ _ => rfl) (same_newArray hB _)
  | fail => exact .read (fun b hb => by simp only [on_text hB hb]) (same_nativeFail hB _)
  | raise => exact .read (fun b hb => by simp only [on_text hB hb]) (mirrors_raise _)
  | text => exact .read (fun b hb => by simp only [on_text hB hb]) (same_pure _)
  | type => exact .read (fun b hb => by simp only [on_typeName hB hb]) (same_pure _)
  | truthy => exact .read (fun b hb => by simp only [on_isTruthy hB hb]) (same_pure _)
  | field =>
    refine .read (fun b hb => by simp only [on_namedField hB hb]) ?_
    refine (same_expectObject hB _).bind fun _ _ _ => ?_
    exact (same_expectString hB _).bind fun _ _ _ => same_pure _
  | superOf => exact .read (fun _ _ => rfl) ((same_expectClass hB _).bind fun _ _ _ => same_pure _)
  | isSubclass =>
    refine .read (fun b hb => ?_) ?_
    · have subclass : (m.on b).heap.isSubclass = m.heap.isSubclass := (hB.resembles hb).isSubclass
      simp only [subclass]
    · refine (same_expectClass hB _).bind fun _ _ _ => ?_
      exact (same_expectClass hB _).bind fun _ _ _ => same_pure _
  | members =>
    exact .read (fun _ _ => rfl) ((same_expectClass hB _).bind fun _ _ _ => same_classMembers hB _)
  | valueMethod =>
    refine .read (fun _ _ => rfl) ((same_expectString hB _).bind fun name _ _ => ?_)
    exact same_newMethod hB _ name
  | clearCaches => exact .read (fun _ _ => rfl) ((same_clearCaches hB).bind fun _ _ _ => same_pure _)
  | _ => exact .read (fun _ _ => rfl) (same_pure _)

/-- A native function that tells no number does the same. -/
theorem same_runNative {body : NativeBody} (args : List Value)
    (numbers : body = .shape ∨ body = .table → Same R (plainNative body args) m) :
    Same R (runNative body args) m := by
  unfold runNative
  cases body with
  | apply | attempt =>
    cases args with
    | nil => exact same_nativeFail hB _
    | cons callee rest => exact same_pure _
  | callName =>
    cases args with
    | nil => exact same_nativeFail hB _
    | cons v rest => exact (same_expectString hB _).bind fun _ _ _ => same_callNamed hB _ _
  | own => exact same_pure _
  | _ => exact (same_plainNative hB args numbers).bind fun _ _ _ => same_pure _

theorem same_callbackError (c : Callback) (e : RuntimeError) : Same R (callbackError c e) m := by
  cases c with
  | apply => exact same_nativeFail hB _
  | attempt => exact same_newArray hB _
  | callName => exact same_pure _

end

end ScriptVm.Exec
