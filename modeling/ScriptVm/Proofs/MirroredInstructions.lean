import ScriptVm.Proofs.MirroredOperations

/-!
# Instructions that are the same on related backings

Captured variables, calls, properties and then instructions. What a relation between backings does
not promise in general is left to the relation at hand: the instructions of `Instruction.isSpecial`,
which build classes anew or look at the level of the log, and native functions that tell numbers.

`same_execute` is the main result.
-/

set_option autoImplicit false

namespace ScriptVm

/-- Two machines that differ in related backings. -/
def Machine.Twin (R : Backing → Backing → Prop) (m m' : Machine) : Prop := ∃ b, m' = m.on b ∧ R m.backing b

/-- What the native function does that a value leads to. -/
def Heap.nativeBody? (h : Heap) : Value → Option NativeBody
  | .native r => some (h.natives.get r).body
  | .bound r =>
    match (h.bounds.get r).target with
    | .native f => some (h.natives.get f).body
    | .closure _ => none
  | _ => none

/-- Whether a native function tells the number of a shape or method table. -/
def NativeBody.tells : NativeBody → Bool
  | .shape | .table => true
  | _ => false

/-- Instructions that build a class anew from another one, or look at the level of the log. -/
def Instruction.isSpecial (i : Instruction) : Bool :=
  match i.op with
  | .importModule | .inherit | .method | .staticMethod | .field | .constField => true
  | _ => false

/-- What is left to do to catch a value when the calls inside the region are gone. -/
def Machine.landing (r : Handler) (v : Value) (m : Machine) : Machine :=
  { m with
    stack := (resized m.stack r.stackDepth).push v
    iterations := truncated m.iterations r.iterDepth
    frames := match m.frames with
      | [] => []
      | f :: rest => { f with ip := r.catchIp } :: rest
    lastUnwind := some r }

namespace Machine.Twin

variable {K : Constant → Constant → Prop} {R : Backing → Backing → Prop} {m m' : Machine}

/-- A machine on a related backing is a twin. -/
theorem of_rel {b : Backing} (hb : R m.backing b) : Twin R m (m.on b) := ⟨b, rfl, hb⟩

/-- A change that leaves the backing alone and does not look at it. -/
theorem map (h : Twin R m m') {g : Machine → Machine} (blind : ∀ m b, g (m.on b) = (g m).on b)
    (kept : (g m).backing = m.backing) : Twin R (g m) (g m') := by
  obtain ⟨b, rfl, hb⟩ := h
  exact ⟨b, blind m b, kept ▸ hb⟩

section

variable (hB : Bisimulation K R)
include hB

/-- Twins have the same captured variables. -/
theorem captured (h : Twin R m m') : m'.captured = m.captured := by
  obtain ⟨b, rfl, hb⟩ := h
  exact congrArg (Variables.mk m.openCells) (Exec.on_cells hB hb)

/-- The captured variables of twins can be changed in the same way. -/
theorem withVariables (h : Twin R m m') (c : Variables) : Twin R (m.withVariables c) (m'.withVariables c) := by
  obtain ⟨b, rfl, hb⟩ := h
  have pools : b.world.heap.pools = m.heap.pools := (hB.resembles hb).pools
  have rel := hB.pools hb { m.heap.pools with cells := c.cells }
  rw [← pools] at rel
  refine ⟨b.withHeap (b.world.heap.withPools { b.world.heap.pools with cells := c.cells }), rfl, ?_⟩
  have own : (m.withVariables c).backing =
      m.backing.withHeap (m.backing.world.heap.withPools { m.heap.pools with cells := c.cells }) := rfl
  rw [own, ← pools]
  exact rel

/-- Twins close their captured variables alike. -/
theorem closeCells (h : Twin R m m') (k : Nat) : Twin R (m.closeCells k) (m'.closeCells k) := by
  have stack : m'.stack = m.stack := by
    obtain ⟨b, rfl, -⟩ := h
    rfl
  rw [closeCells_eq, closeCells_eq, h.captured hB, stack]
  exact h.withVariables hB _

/-- Twins end their calls alike. -/
theorem endFrames (h : Twin R m m') (depth : Nat) (fs : List Frame) :
    Twin R (m.endFrames depth fs) (m'.endFrames depth fs) := by
  have cut := h.map (g := fun m => { m with frames := truncated fs depth }) (fun _ _ => rfl) rfl
  rw [endFrames_eq, endFrames_eq, h.captured hB]
  obtain ⟨b, rfl, -⟩ := h
  exact cut.withVariables hB (m.captured.closeAll m.stack (endingBases depth fs))

/-- Twins go back to the same depths. -/
theorem unwindTo (h : Twin R m m') (d : Depths) : Twin R (m.unwindTo d) (m'.unwindTo d) := by
  have frames : m'.frames = m.frames := by
    obtain ⟨b, rfl, -⟩ := h
    rfl
  unfold Machine.unwindTo
  rw [frames]
  exact ((h.endFrames hB d.frames m.frames).closeCells hB d.stack).map
    (g := fun m => { m with
      stack := m.stack.shrink d.stack
      handlers := truncated m.handlers d.handlers
      iterations := truncated m.iterations d.iterations }) (fun _ _ => rfl) rfl

/-- Twins catch a throw alike. -/
theorem enterCatch (h : Twin R m m') (r : Handler) (v : Value) :
    Twin R (m.enterCatch r v) (m'.enterCatch r v) := by
  have frames : m'.frames = m.frames := by
    obtain ⟨b, rfl, -⟩ := h
    rfl
  unfold Machine.enterCatch
  rw [frames]
  exact ((h.endFrames hB r.frameDepth m.frames).closeCells hB r.stackDepth).map (g := landing r v)
    (fun _ _ => rfl) rfl

/-- Twins report an error alike. -/
theorem recordError (h : Twin R m m') (e : RuntimeError) : Twin R (m.recordError e) (m'.recordError e) := by
  obtain ⟨b, rfl, hb⟩ := h
  rw [Exec.on_recordError hB hb]
  exact ⟨b, rfl, hb⟩

end

end Machine.Twin

namespace Exec

open Machine World

variable {K : Constant → Constant → Prop} {R : Backing → Backing → Prop} {m : Machine} {b : Backing}
  {α β : Type}

/-- Twins that give corresponding values have ended alike. -/
theorem Ends.of_twin {V : α → β → Prop} {v : α} {v' : β} {m m' : Machine} (values : V v v')
    (h : Twin R m m') : Ends R V (.ok v m) (.ok v' m') := by
  obtain ⟨b, rfl, hb⟩ := h
  exact .ok values hb

/-- A change of the machine that takes twins to twins. -/
theorem same_twin {g : Machine → Machine} (twin : ∀ {m'}, Twin R m m' → Twin R (g m) (g m')) :
    Same R (modify g) m := fun _ hb => .of_twin rfl (twin (.of_rel hb))

section

variable (hB : Bisimulation K R)
include hB

/-! ## Captured variables -/

theorem same_closeCells (k : Nat) : Same R (closeCells k) m := same_twin fun h => h.closeCells hB k

theorem same_readCell (r : Ref .cell) : Same R (readCell r) m := by
  refine .read (fun b hb => by simp only [on_cells hB hb]; rfl) ?_
  split
  · exact same_pure _
  · exact same_pure _

theorem same_writeCell (r : Ref .cell) (v : Value) : Same R (writeCell r v) m := by
  refine .readHeap (fun b hb => ?_) ?_
  · have cells : b.world.heap.cells = m.heap.cells := on_cells hB hb
    simp only [cells]
  · split
    · exact same_setSlot _ _
    · exact same_setCell hB _ _

theorem same_captureSlot (slot : Nat) : Same R (captureSlot slot) m := by
  refine .read (fun _ _ => rfl) ?_
  split
  · exact same_pure _
  · refine (same_newCell hB _).bind fun r m₁ _ => ?_
    exact (same_modify (fun _ _ => rfl) rfl).bind fun _ _ _ => same_pure _

theorem same_ownCell (i : Nat) : Same R (ownCell i) m := by
  refine same_frame.bind fun f m₁ _ => .readHeap (fun b hb => ?_) (.readHeap (fun b hb => ?_) (same_pure _))
  · have cells : (b.world.heap.closures.get f.closure).cells = (m₁.heap.closures.get f.closure).cells :=
      ((hB.resembles hb).closures.each f.closure).cells
    simp only [cells]
  · have cells : b.world.heap.cells = m₁.heap.cells := on_cells hB hb
    simp only [cells]

/-- A closure captures the same slots and cells. -/
theorem same_captureAll (base : Nat) (cs : List Capture) (m : Machine) : Same R (captureAll base cs) m := by
  induction cs generalizing m with
  | nil => exact same_pure _
  | cons c rest ih =>
    have others : ∀ (r : Ref .cell) (m' : Machine), Same R (do return r :: (← captureAll base rest)) m' :=
      fun r m' => (ih m').bind fun _ _ _ => same_pure _
    unfold captureAll
    simp only
    split
    · exact (same_captureSlot hB _).bind fun r m' _ => others r m'
    · exact (same_ownCell hB _).bind fun r m' _ => others r m'

/-- A closure is made of the prototype that corresponds. -/
theorem same_makeClosure (i : Nat) : Same R (makeClosure i) m := by
  refine (mirrors_constant hB i).bind fun k k' m₁ _ related => ?_
  have made : ∀ {p p' : Proto}, K (.function p) (.function p') →
      Mirrors R Eq
        (do
          let cells ← captureAll (← frame).base p.captures
          return .closure (← withHeap fun h => h.allocClosure { proto := p, cells }))
        (do
          let cells ← captureAll (← frame).base p'.captures
          return .closure (← withHeap fun h => h.allocClosure { proto := p', cells }) : Exec Value) m₁ := by
    intro p p' related
    rw [(hB.likeness.proto related).captures]
    refine Mirrors.bind same_frame fun f f' m₂ _ same => ?_
    subst same
    refine Mirrors.bind (same_captureAll hB f.base p.captures m₂) fun cells cells' m₃ _ same => ?_
    subst same
    refine (mirrors_newClosure hB related cells).bind fun r r' m₄ _ same => ?_
    subst same
    exact same_pure _
  rcases hB.likeness.cases related with rfl | ⟨p, p', rfl, rfl, -⟩
  · cases k' with
    | function p => exact made related
    | _ => exact same_fail hB _
  · exact made related

/-! ## Calls -/

/-- A frame is pushed under the same limit. -/
theorem same_pushFrame (f : Frame) : Same R (pushFrame f) m := by
  refine .read (fun b hb => ?_) ?_
  · have title : ((m.on b).protoOf f).title = (m.protoOf f).title :=
      hB.likeness.title ((hB.resembles hb).closures.each f.closure).proto
    rw [title]
    rfl
  · split
    · exact same_fail hB _
    · exact (same_note hB _ _).bind fun _ _ _ => same_modify (fun _ _ => rfl) rfl

/-- A closure takes the same arguments, pads them alike and is refused alike. -/
theorem same_callClosure (r : Ref .closure) (argc : Nat) (isConstructor : Bool) :
    Same R (callClosure r argc isConstructor) m := by
  refine .readHeap (fun b hb => ?_) ?_
  · have total : (b.world.heap.closures.get r).proto.totalParams = (m.heap.closures.get r).proto.totalParams :=
      hB.likeness.totalParams ((hB.resembles hb).closures.each r).proto
    have arity : (b.world.heap.closures.get r).proto.arity = (m.heap.closures.get r).proto.arity :=
      ((hB.resembles hb).closure_proto hB.likeness r).arity
    simp only [total, arity]
  · simp only
    split
    · exact same_fail hB _
    · refine (same_restack fun st => st ++ Array.replicate _ .null).bind fun _ m₁ _ => ?_
      refine .read (fun _ _ => rfl) ?_
      split
      · exact same_fail hB _
      · exact same_pushFrame hB _

/-- A native function that tells numbers is left to the relation at hand. -/
theorem same_callNative (r : Ref .native) (argc : Nat) (withReceiver : Bool)
    (numbers : (m.heap.natives.get r).body.tells = true →
      ∀ args m', Same R (plainNative (m.heap.natives.get r).body args) m') :
    Same R (callNative r argc withReceiver) m := by
  refine .readHeap (fun b hb => ?_) ?_
  · have natives : b.world.heap.natives = m.heap.natives := (hB.resembles hb).natives
    simp only [natives]
  · simp only
    split
    · exact same_fail hB _
    · refine (same_popMany argc).bind fun args _ _ => same_pop.bind fun receiver m₁ _ => ?_
      refine Same.bind (same_runNative hB _ fun tells => numbers ?_ _ m₁) fun answer _ _ => ?_
      · rcases tells with tells | tells <;> rw [tells] <;> rfl
      · split
        · exact (same_push _).bind fun _ _ _ => same_pure _
        · exact same_pure _

theorem same_newObject (r : Ref .cls) : Same R (withWorld fun w => w.newObject r) m := by
  refine same_withWorld fun b hb => ⟨?_, hB.newObject hb r⟩
  rw [newObject_eq, newObject_eq]
  exact (congrArg Ref.mk (hB.resembles hb).objects.size).symm

/-- Instances of one class begin with the same fields. -/
theorem same_instantiate (r : Ref .cls) (argc : Nat) : Same R (instantiate r argc) m := by
  refine (same_newObject hB r).bind fun object m₁ _ => .read (fun _ _ => rfl) ?_
  refine (same_setSlot _ _).bind fun _ m₂ _ => .readHeap (fun b hb => ?_) ?_
  · have init : b.world.heap.findConstructor = m₂.heap.findConstructor := (hB.resembles hb).findConstructor
    rw [init]
  · split
    · exact same_callClosure hB _ _ _
    · split
      · exact same_fail hB _
      · exact same_pure _

/-- The parameter names that a callee offers are the same. -/
theorem on_targetProto (hb : R m.backing b) (callee : Value) :
    Option.Rel (fun p p' : Proto => p'.params = p.params) (targetProto m.heap callee)
      (targetProto b.world.heap callee) := by
  have params : ∀ r : Ref .closure,
      (b.world.heap.closures.get r).proto.params = (m.heap.closures.get r).proto.params :=
    fun r => ((hB.resembles hb).closure_proto hB.likeness r).params
  have bounds : b.world.heap.bounds = m.heap.bounds := (hB.resembles hb).bounds
  have init : b.world.heap.findConstructor = m.heap.findConstructor := (hB.resembles hb).findConstructor
  cases callee with
  | closure r => exact .some (params r)
  | bound r =>
    simp only [targetProto, bounds]
    split
    · exact .some (params _)
    · exact .none
  | cls r =>
    simp only [targetProto, init]
    cases m.heap.findConstructor r with
    | none => exact .none
    | some f => exact .some (params f)
  | _ => exact .none

/-- Named arguments are arranged by the names of the prototype. -/
theorem same_reorder (callee : Value) (argc : Nat) : Same R (reorder callee argc) m := by
  refine (same_peekMany _).bind fun window m₁ _ => ?_
  split
  · refine .readHeap (fun b hb => ?_) ?_
    · have offered := on_targetProto hB hb callee
      generalize targetProto m₁.heap callee = p at offered ⊢
      generalize targetProto b.world.heap callee = p' at offered ⊢
      cases offered with
      | none => rfl
      | some params => simp only [params]
    · split
      · exact same_failType hB _ _
      · refine .read (fun _ _ => rfl) ?_
        simp only
        split
        · exact (same_restack fun st => st.shrink _ ++ List.toArray _).bind fun _ _ _ => same_pure _
        · exact (same_restack fun st => st.shrink _ ++ List.toArray _).bind fun _ _ _ => same_fail hB _
  · exact same_pure _

omit hB in
/-- Reordering the arguments does not touch the heap. -/
theorem heap_of_reorder {callee : Value} {argc k : Nat} {m' : Machine}
    (run : (reorder callee argc).run m = .ok k m') : m'.heap = m.heap := by
  unfold reorder at run
  rw [run_bind_of_ok (run_peekMany argc m)] at run
  split at run
  · rw [run_bind_of_ok (run_heap m)] at run
    split at run
    · cases run
    · rw [run_bind_of_ok (run_get m)] at run
      simp only at run
      split at run
      · cases run
        rfl
      · cases run
  · cases run
    rfl

/-- A call does the same, unless its callee tells numbers. -/
theorem same_call (argc : Nat)
    (numbers : ∀ body, m.heap.nativeBody? (m.slot (m.stack.size - 1 - argc)) = some body → body.tells = true →
      ∀ args m', Same R (plainNative body args) m') : Same R (call argc) m := by
  refine (same_peek argc).bind fun callee m₁ h₁ => ?_
  rw [run_peek] at h₁
  obtain ⟨callee_eq, rfl⟩ := EStateM.Result.ok.inj h₁
  refine (same_reorder hB callee argc).bind fun k m₂ h₂ => ?_
  rw [callee_eq, ← heap_of_reorder h₂] at numbers
  cases callee with
  | closure r => exact (same_callClosure hB r k false).bind fun _ _ _ => same_pure _
  | native r => exact same_callNative hB r k false fun tells => numbers _ rfl tells
  | cls r => exact (same_instantiate hB r k).bind fun _ _ _ => same_pure _
  | bound r =>
    refine .readHeap (fun b hb => ?_) (.read (fun _ _ => rfl) ((same_setSlot _ _).bind fun _ m₃ h₃ => ?_))
    · have bounds : b.world.heap.bounds = m₂.heap.bounds := (hB.resembles hb).bounds
      simp only [bounds]
    · cases h₃
      simp only [Heap.nativeBody?] at numbers
      generalize (m₂.heap.bounds.get r).target = target at numbers ⊢
      cases target with
      | closure f => exact (same_callClosure hB f k false).bind fun _ _ _ => same_pure _
      | native f => exact same_callNative hB f k true fun tells => numbers _ rfl tells
  | method r =>
    refine .readHeap (fun b hb => ?_) ((same_popMany k).bind fun args _ _ => same_pop.bind fun _ _ _ => ?_)
    · have methods : b.world.heap.methods = m₂.heap.methods := (hB.resembles hb).methods
      simp only [methods]
    · exact (same_callMethod hB _ _ _).bind fun v _ _ => (same_push v).bind fun _ _ _ => same_pure _
  | _ => exact same_fail hB _

theorem same_new (argc : Nat) : Same R (new argc) m := by
  refine (same_peek argc).bind fun callee m₁ _ => ?_
  split
  · exact (same_reorder hB _ argc).bind fun k _ _ => same_instantiate hB _ k
  · exact same_failType hB _ _

/-! ## Properties -/

omit hB in
/-- Call sites at the same instruction of corresponding prototypes. -/
theorem mirrors_site (hB : Bisimulation K R) :
    Mirrors R (fun s s' => ∃ (p p' : Proto) (ip : Nat), K (.function p) (.function p') ∧ s = Site.of p.id ip ∧
      s' = Site.of p'.id ip) site site m :=
  fun _ hb => .ok ⟨_, _, _, ((hB.resembles hb).closures.each _).proto, rfl, rfl⟩ hb

theorem same_getClassProperty (r : Ref .cls) (name : Text) : Same R (getClassProperty r name) m := by
  refine .readHeap (fun b hb => ?_) ?_
  · have h := hB.resembles hb
    have fields : b.world.heap.findStaticField = m.heap.findStaticField := h.findStaticField
    have methods : b.world.heap.findStaticMethod = m.heap.findStaticMethod := h.findStaticMethod
    have nested : b.world.heap.findNested = m.heap.findNested := h.findNested
    have title : (b.world.heap.classes.get r).name = (m.heap.classes.get r).name := h.class_name r
    simp only [fields, methods, nested, title]
  · split
    · exact same_pure _
    · split
      · exact same_bindMethod hB _ _
      · split
        · exact same_pure _
        · exact same_fail hB _

theorem same_getSuperMethod (r : Ref .cls) (name : Text) : Same R (getSuperMethod r name) m := by
  refine .readHeap (fun b hb => ?_) ?_
  · have methods : b.world.heap.findMethod = m.heap.findMethod := (hB.resembles hb).findMethod
    have title : (b.world.heap.classes.get r).name = (m.heap.classes.get r).name :=
      (hB.resembles hb).class_name r
    simp only [methods, title]
  · split
    · exact .read (fun _ _ => rfl) (same_frame.bind fun _ _ _ => same_bindMethod hB _ _)
    · exact same_fail hB _

theorem same_getSuper (name : Text) : Same R (getSuper name) m := by
  refine same_frame.bind fun f m₁ _ => .readHeap (fun b hb => ?_) ?_
  · have home : (b.world.heap.closures.get f.closure).homeSuper = (m₁.heap.closures.get f.closure).homeSuper :=
      ((hB.resembles hb).closures.each f.closure).homeSuper
    rw [home]
  · split
    · exact same_getSuperMethod hB _ _
    · exact same_fail hB _

/-- A property is read alike at call sites that correspond, although they have other numbers. -/
theorem mirrors_getProperty {p p' : Proto} (related : K (.function p) (.function p')) (ip : Nat) (object : Value)
    (name : Text) :
    Mirrors R Eq (getProperty object name (Site.of p.id ip)) (getProperty object name (Site.of p'.id ip)) m := by
  unfold getProperty
  cases object with
  | object r => exact hB.read related ip r name m
  | cls r => exact same_getClassProperty hB r name
  | hash r =>
    refine Same.readHeap (fun b hb => ?_) ?_
    · have tables : b.world.heap.tables = m.heap.tables := on_tables hB hb
      simp only [tables]
    · split
      · exact same_pure _
      · exact same_newMethod hB _ _
  | array r => exact same_newMethod hB _ _
  | str t =>
    simp only
    split
    · exact same_pure _
    · exact same_newMethod hB _ _
  | superOf r => exact same_getSuperMethod hB r name
  | _ => exact same_failType hB (fun t => .noSuchProperty t name) _

/-- An assignment to a static field writes the same field in both heaps, or is refused in both. -/
theorem setStatic?_cases (hb : R m.backing b) (r : Ref .cls) (name : Text) (v : Value) :
    (m.heap.setStatic? r name v = none ∧ b.world.heap.setStatic? r name v = none) ∨
      ∃ c, m.heap.setStatic? r name v = some (m.heap.putStatic c name ⟨v, false⟩) ∧
        b.world.heap.setStatic? r name v = some (b.world.heap.putStatic c name ⟨v, false⟩) := by
  have owner : b.world.heap.staticOwner? = m.heap.staticOwner? := (hB.resembles hb).staticOwner?
  have statics : b.world.heap.ownStatics = m.heap.ownStatics := (hB.resembles hb).ownStatics
  unfold Heap.setStatic?
  rw [owner, statics]
  cases m.heap.staticOwner? r name with
  | none => exact .inr ⟨r, rfl, rfl⟩
  | some c =>
    simp only
    split
    · exact .inl ⟨rfl, rfl⟩
    · exact .inr ⟨c, rfl, rfl⟩

/-- So is one assigned. -/
theorem mirrors_setProperty {p p' : Proto} (related : K (.function p) (.function p')) (ip : Nat) (object : Value)
    (name : Text) (v : Value) :
    Mirrors R Eq (setProperty object name v (Site.of p.id ip)) (setProperty object name v (Site.of p'.id ip)) m := by
  unfold setProperty
  cases object with
  | object r => exact hB.write related ip r name v m
  | cls r =>
    intro b hb
    rw [run_bind_of_ok (run_heap m), run_bind_of_ok (run_heap (m.on b))]
    rcases setStatic?_cases hB hb r name v with ⟨own, other⟩ | ⟨c, own, other⟩
    · have other : (m.on b).heap.setStatic? r name v = none := other
      rw [own, other]
      exact same_fail hB _ b hb
    · have other : (m.on b).heap.setStatic? r name v = some ((m.on b).heap.putStatic c name ⟨v, false⟩) := other
      rw [own, other]
      exact same_putStatic hB c name ⟨v, false⟩ b hb
  | hash r => exact same_setTable hB r (·.set (.text name) v)
  | _ => exact same_failType hB _ _

/-! ## Classes -/

theorem same_classOnTop : Same R classOnTop m := by
  refine .read (fun _ _ => rfl) ?_
  split
  · exact same_pure _
  · exact same_fail hB _

theorem same_newClass (name : Text) : Same R (withWorld fun w => w.newClass name) m :=
  same_withWorld fun _ hb => ⟨(congrArg Ref.mk (hB.resembles hb).classes.size).symm, hB.newClass hb name⟩

/-- A static field is declared in the same cell. -/
theorem same_defineStatic (name : Text) (isConst : Bool) : Same R (defineField name true isConst) m := by
  refine same_pop.bind fun initial _ _ => (same_classOnTop hB).bind fun r _ _ => ?_
  exact same_putStatic hB r name ⟨initial, isConst⟩

/-! ## Instructions -/

/-- Constants that correspond make the same value. -/
theorem mirrors_constantValue {k k' : Constant} (related : K k k') :
    Mirrors R Eq (constantValue k) (constantValue k') m := by
  have made : ∀ {p p' : Proto}, K (.function p) (.function p') →
      Mirrors R Eq (constantValue (.function p)) (constantValue (.function p')) m := by
    intro p p' related
    refine Mirrors.bind (mirrors_newClosure hB related []) fun r r' m₁ _ same => ?_
    subst same
    exact same_pure _
  rcases hB.likeness.cases related with rfl | ⟨p, p', rfl, rfl, -⟩
  · cases k' with
    | function p => exact made related
    | _ => exact same_pure _
  · exact made related

theorem same_getGlobal (name : Text) : Same R (getGlobal name) m := by
  refine .read (fun _ _ => rfl) ?_
  split
  · exact same_pure _
  · exact same_fail hB _

omit hB in
theorem same_defineGlobal (name : Text) (v : Value) : Same R (defineGlobal name v) m :=
  same_modify (fun _ _ => rfl) rfl

theorem same_setGlobal (name : Text) (v : Value) : Same R (setGlobal name v) m := by
  refine .read (fun _ _ => rfl) ?_
  split
  · exact same_defineGlobal name v
  · exact same_fail hB _

omit hB in
theorem same_pushed (v : Value) : Same R (pushed v) m := (same_push v).bind fun _ _ _ => same_pure _

omit hB in
theorem same_andNext {x : Exec Unit} (h : Same R x m) : Same R (andNext x) m :=
  h.bind fun _ _ _ => same_pure _

omit hB in
theorem Same.pushing {x : Exec Value} (h : Same R x m) : Same R (x >>= pushed) m :=
  h.bind fun v _ _ => same_pushed v

omit hB in
theorem same_binary {f : Value → Value → Exec Value} (h : ∀ x y m, Same R (f x y) m) :
    Same R (binary f) m :=
  same_pop.bind fun y _ _ => same_pop.bind fun x _ _ => (h x y _).bind fun v _ _ =>
    (same_push v).bind fun _ _ _ => same_pure _

omit hB in
theorem same_compare {f : Value → Value → Exec Bool} (h : ∀ x y m, Same R (f x y) m) :
    Same R (compare f) m :=
  same_binary fun x y m => (h x y m).bind fun _ _ _ => same_pure _

/-- A return leaves the same call. -/
theorem same_returnFrom : Same R returnFrom m := by
  refine same_pop.bind fun result m₁ _ => .read (fun _ _ => rfl) ?_
  split
  · exact same_pure _
  next f rest _ =>
    refine Same.bind (same_twin fun {m'} h => ?_) fun _ m₂ _ => .read (fun _ _ => rfl) ?_
    · exact (h.map (g := fun m =>
        { m with handlers := m.handlers.dropWhile fun h => rest.length + 1 ≤ h.frameDepth, frames := rest })
        (fun _ _ => rfl) rfl).closeCells hB f.base
    · refine (same_modify (fun _ _ => rfl) rfl).bind fun _ _ _ => ?_
      split
      · exact same_pure _
      · exact same_pushed _

/-- A throw is caught by the same region. -/
theorem same_throwValue (v : Value) : Same R (throwValue v) m := by
  refine .read (fun b hb => ?_) ?_
  · have message : (m.on b).thrownMessage v = m.thrownMessage v := congrFun (on_thrownMessage hB hb) v
    rw [message]
    rfl
  · split
    next h rest _ =>
      refine Same.bind (same_twin fun twin => ?_) fun _ m₁ _ => .read (fun _ _ => rfl) (same_note hB _ _)
      exact (twin.map (g := fun m => { m with handlers := rest }) (fun _ _ => rfl) rfl).enterCatch hB h v
    next => exact (same_note hB _ _).bind fun _ _ _ => same_fail hB _

theorem same_openIteration (v : Value) : Same R (openIteration v) m := by
  refine .read (fun b hb => by simp only [on_typeName hB hb, on_tables hB hb]) ?_
  have opened : ∀ (it : Iteration) (m' : Machine),
      Same R (modify fun m => { m with iterations := it :: m.iterations }) m' :=
    fun it m' => same_modify (fun _ _ => rfl) rfl
  simp only
  split
  · exact (same_pure _).bind fun it m' _ => opened it m'
  · exact (same_pure _).bind fun it m' _ => opened it m'
  · exact (same_pure _).bind fun it m' _ => opened it m'
  · exact (same_fail hB _).bind fun it m' _ => opened it m'

theorem same_nextItem : Same R nextItem m := by
  refine same_modifyGet (fun b hb => ?_) ?_
  · have next : ∀ it, advance (m.on b).heap it = advance m.heap it := by
      intro it
      cases it with
      | live r i => simp only [advance, on_arrays hB hb]
      | snapshot rest => cases rest <;> rfl
    have iterations : (m.on b).iterations = m.iterations := rfl
    rw [iterations]
    cases m.iterations with
    | nil => rfl
    | cons it rest =>
      simp only [next]
      cases advance m.heap it <;> rfl
  · cases m.iterations with
    | nil => rfl
    | cons it rest =>
      simp only
      cases advance m.heap it <;> rfl

omit hB in
/-- The innermost call goes on elsewhere. -/
theorem same_modifyFrame (g : Frame → Frame) : Same R (modifyFrame g) m := by
  refine same_modify (fun b _ => ?_) ?_
  · cases hf : m.frames <;> simp [Machine.on, hf]
  · cases m.frames <;> rfl

omit hB in
theorem same_jumpIf (c : Bool) (k : Nat) : Same R (jumpIf c k) m := by
  refine same_andNext ?_
  split
  · exact same_modifyFrame _
  · exact same_pure _

theorem same_fetch : Same R fetch m := by
  refine same_frame.bind fun f m₁ _ => .read (fun b hb => ?_) ?_
  · have code : ((m₁.on b).protoOf f).chunk.code = (m₁.protoOf f).chunk.code := (on_protoOf hB hb f).code
    simp only [code]
  · split
    · exact (same_modifyFrame _).bind fun _ _ _ => same_pure _
    · exact (same_push _).bind fun _ _ _ => same_pure _

theorem same_printLine (k : Nat) : Same R (printLine k) m := by
  refine .read (fun b hb => by simp only [on_text hB hb]; rfl) ((same_popMany k).bind fun vs m₁ _ => ?_)
  have emitted : ∀ (line : Text) (m' : Machine),
      Same R (modify fun m => { m with output := m.output.push line }) m' :=
    fun line m' => same_modify (fun _ _ => rfl) rfl
  split
  · refine Same.bind (same_withWorld fun b hb => ⟨rfl, ?_⟩) fun _ m₂ _ => emitted _ m₂
    exact hB.hear hb (.print _)
  · exact emitted _ m₁

/-- A call of a native function that tells numbers is left to the relation at hand. -/
theorem same_callProgress (argc : Nat)
    (numbers : ∀ body, m.heap.nativeBody? (m.slot (m.stack.size - 1 - argc)) = some body → body.tells = true →
      ∀ args m', Same R (plainNative body args) m') : Same R (callProgress argc) m := by
  refine (same_call hB argc numbers).bind fun r _ _ => ?_
  split <;> exact same_pure _

/-- An instruction does the same on related backings. -/
theorem same_execute (i : Instruction) (special : i.isSpecial = true → Same R (execute i) m)
    (numbers : i.op = .call → ∀ body, m.heap.nativeBody? (m.slot (m.stack.size - 1 - i.a.toNat)) = some body →
      body.tells = true → ∀ args m', Same R (plainNative body args) m') : Same R (execute i) m := by
  obtain ⟨op, x, y⟩ := i
  cases op with
  | importModule | inherit | method | staticMethod | field | constField => exact special rfl
  | constant =>
    refine (mirrors_constant hB _).bind fun k k' m₁ _ related => ?_
    refine (mirrors_constantValue hB related).bind fun v v' m₂ _ same => ?_
    subst same
    exact same_pushed v
  | pushNull | pushTrue | pushFalse => exact same_pushed _
  | pop => exact same_pop.bind fun _ _ _ => same_pure _
  | dup => exact (same_peek _).pushing
  | getLocal | getThis => exact .read (fun _ _ => rfl) (same_frame.bind fun _ _ _ => same_pushed _)
  | setLocal =>
    refine same_andNext (same_frame.bind fun f m₁ _ => ?_)
    exact (same_peek _).bind fun v m₂ _ => same_setSlot _ v
  | getGlobal => exact (same_constantName hB _).bind fun _ _ _ => (same_getGlobal hB _).pushing
  | setGlobal =>
    refine same_andNext ((same_constantName hB _).bind fun _ _ _ => ?_)
    exact (same_peek 0).bind fun _ _ _ => same_setGlobal hB _ _
  | defineGlobal =>
    refine same_andNext ((same_constantName hB _).bind fun _ _ _ => ?_)
    exact same_pop.bind fun _ _ _ => same_defineGlobal _ _
  | getUpvalue => exact (same_ownCell hB _).bind fun _ _ _ => (same_readCell hB _).pushing
  | setUpvalue =>
    refine same_andNext ((same_ownCell hB _).bind fun r m₁ _ => ?_)
    exact (same_peek _).bind fun v m₂ _ => same_writeCell hB r v
  | closeUpvalue =>
    refine .read (fun _ _ => rfl) ((same_closeCells hB _).bind fun _ _ _ => ?_)
    exact same_pop.bind fun _ _ _ => same_pure _
  | add => exact same_binary fun _ _ _ => same_add hB _ _
  | subtract => exact same_binary fun _ _ _ => same_subtract hB _ _
  | multiply => exact same_binary fun _ _ _ => same_multiply hB _ _
  | divide => exact same_binary fun _ _ _ => same_divide hB _ _
  | modulo => exact same_binary fun _ _ _ => same_modulo hB _ _
  | negate => exact same_pop.bind fun _ _ _ => (same_negate hB _).pushing
  | equal | notEqual =>
    refine same_compare fun x y m => .readHeap (fun b hb => ?_) (same_pure _)
    have equals : b.world.heap.equals = m.heap.equals := on_equals hB hb
    simp only [equals]
  | less | greater => exact same_compare fun _ _ _ => same_less hB _ _
  | lessEqual | greaterEqual => exact same_compare fun _ _ _ => same_lessEqual hB _ _
  | not =>
    exact same_pop.bind fun v _ _ => .read (fun b hb => by simp only [on_isTruthy hB hb]) (same_pushed _)
  | jump | loop => exact same_andNext (same_modifyFrame _)
  | jumpIfFalse =>
    exact same_pop.bind fun v _ _ => .read (fun b hb => by simp only [on_isTruthy hB hb]) (same_jumpIf _ _)
  | jumpIfFalseNoPop | jumpIfTrueNoPop =>
    refine .read (fun b hb => by simp only [on_isTruthy hB hb]) ?_
    exact (same_peek 0).bind fun _ _ _ => same_jumpIf _ _
  | nullishJump => exact (same_peek 0).bind fun _ _ _ => same_jumpIf _ _
  | call => exact same_callProgress hB _ (numbers rfl)
  | closure => exact (same_makeClosure hB _).pushing
  | ret => exact same_returnFrom hB
  | array => exact (same_popMany _).bind fun _ _ _ => (same_newArray hB _).pushing
  | hash => exact (same_hashLiteral hB _).pushing
  | range => exact same_binary fun _ _ _ => same_range hB _ _
  | getIndex => exact same_binary fun _ _ _ => same_getIndex hB _ _
  | setIndex =>
    refine same_pop.bind fun _ _ _ => same_pop.bind fun _ _ _ => same_pop.bind fun _ _ _ => ?_
    exact (same_setIndex hB _ _ _).bind fun _ _ _ => same_pushed _
  | buildString =>
    refine .read (fun b hb => by simp only [on_text hB hb]) ((same_popMany _).bind fun _ _ _ => ?_)
    exact same_pushed _
  | spread => exact same_pure _
  | getProperty =>
    refine (same_constantName hB _).bind fun name _ _ => same_pop.bind fun object _ _ => ?_
    refine (mirrors_site hB).bind fun s s' m₁ _ sites => ?_
    obtain ⟨p, p', ip, related, rfl, rfl⟩ := sites
    refine (mirrors_getProperty hB related ip object name).bind fun v v' _ _ same => ?_
    subst same
    exact same_pushed v
  | setProperty =>
    refine (same_constantName hB _).bind fun name _ _ => same_pop.bind fun value _ _ => ?_
    refine same_pop.bind fun object _ _ => (mirrors_site hB).bind fun s s' m₁ _ sites => ?_
    obtain ⟨p, p', ip, related, rfl, rfl⟩ := sites
    exact (mirrors_setProperty hB related ip object name value).bind fun _ _ _ _ _ => same_pushed value
  | newClass =>
    refine (same_constantName hB _).bind fun name _ _ => ?_
    exact (same_newClass hB name).bind fun _ _ _ => same_pushed _
  | new => exact same_andNext (same_new hB _)
  | getSuper =>
    refine (same_constantName hB _).bind fun _ _ _ => same_pop.bind fun _ _ _ => ?_
    exact (same_getSuper hB _).pushing
  | staticField | staticConstField =>
    exact same_andNext ((same_constantName hB _).bind fun _ _ _ => same_defineStatic hB _ _)
  | tryBegin | tryEnd => exact same_andNext (same_modify (fun _ _ => rfl) rfl)
  | throwTop => exact same_andNext (same_pop.bind fun v _ _ => same_throwValue hB v)
  | getIter => exact same_andNext (same_pop.bind fun v _ _ => same_openIteration hB v)
  | forIter =>
    refine (same_nextItem hB).bind fun item _ _ => ?_
    split
    · exact same_pushed _
    · exact same_andNext (same_modifyFrame _)
  | print => exact (same_printLine hB _).bind fun _ _ _ => same_pushed _
  | namedArg => exact (same_constantName hB _).bind fun _ _ _ => same_pushed _
  | unknown => exact same_fail hB _

end

end Exec

end ScriptVm
