import ScriptVm.Proofs.ClassChains
import ScriptVm.Proofs.ClassWrites
import ScriptVm.Proofs.GroundedRuns
import ScriptVm.Proofs.StaticCells

/-!
# What becomes of static fields

Whatever programs and hosts do, classes and cells are only added, every class has a cell, and a constant entry
of a cell stays as it is until an instruction or a host declares a field of this name in this cell again.
`Heap.Preserves` says so of two heaps, one after the other.

`Exec.preserves_execute`, `Activity.preserves_step` and `Session.preserves_perform` are the steps: an instruction,
a move, and a command of a host.
-/

set_option autoImplicit false

namespace ScriptVm

open Referring

namespace Heap

variable {h h' h'' : Heap} {anew anew' : Ref .statics → Text → Prop} {cell : Ref .statics} {name : Text}

/-- Every class has a cell for its static fields. -/
def Celled (h : Heap) : Prop := ∀ r, h.classes.has r → h.statics.has (h.classes.get r).statics

/-- An assignment writes a cell that there is. -/
theorem Celled.has_assignedCell (celled : h.Celled) (ordered : h.Ordered) {r : Ref .cls} (known : h.classes.has r)
    (name : Text) : h.statics.has (h.assignedCell r name) := by
  unfold assignedCell
  cases declares : h.declaringCell? r name with
  | none => exact celled r known
  | some cell =>
    obtain ⟨c, mem, rfl⟩ := List.mem_map.1 (List.mem_of_find?_eq_some declares)
    exact celled c (ordered.has_of_mem_chain known c mem)

/-- What is left of the classes and the static fields of `h` in a later heap `h'`, if the entries of `anew` may
have been declared anew. -/
structure Preserves (anew : Ref .statics → Text → Prop) (h h' : Heap) : Prop where
  classes : ∀ r, h.classes.has r → h'.classes.has r ∧ h'.classes.get r = h.classes.get r
  cells : ∀ cell, h.statics.has cell → h'.statics.has cell
  celled : h.Celled → h'.Celled
  constant : ∀ cell name v, h.fieldIn? cell name = some ⟨v, true⟩ →
    h'.fieldIn? cell name = some ⟨v, true⟩ ∨ anew cell name

namespace Preserves

/-- Nothing happens to static fields where classes and cells stay as they are. -/
theorem of_classState (same : h'.classState = h.classState) : Preserves anew h h' := by
  obtain ⟨classes, statics⟩ := Prod.mk.inj same
  refine ⟨fun r known => ?_, fun cell known => ?_, fun celled => ?_, fun cell name v entry => .inl ?_⟩
  · rw [classes]
    exact ⟨known, rfl⟩
  · rwa [statics]
  · unfold Celled
    rw [classes, statics]
    exact celled
  · unfold fieldIn?
    rw [statics]
    exact entry

/-- Nothing has happened. -/
theorem refl (h : Heap) : Preserves anew h h := of_classState rfl

/-- What is new in either step is new. -/
theorem trans (first : Preserves anew h h') (next : Preserves anew h' h'') : Preserves anew h h'' where
  classes r known := by
    obtain ⟨known', same⟩ := first.classes r known
    obtain ⟨known'', same'⟩ := next.classes r known'
    exact ⟨known'', same'.trans same⟩
  cells cell known := next.cells cell (first.cells cell known)
  celled celled := next.celled (first.celled celled)
  constant cell name v entry := (first.constant cell name v entry).elim (next.constant cell name v) .inr

/-- More entries may count as new. -/
theorem mono (h₁ : Preserves anew h h') (more : ∀ cell name, anew cell name → anew' cell name) :
    Preserves anew' h h' :=
  { h₁ with constant := fun cell name v entry => (h₁.constant cell name v entry).imp_right (more cell name) }

/-- A cell that is new has no entries. -/
theorem newCell (h : Heap) : Preserves anew h h.allocStatics.2 := by
  refine ⟨fun r known => ⟨known, rfl⟩, fun cell known => Pool.has_alloc.2 (.inl known), fun celled r known => ?_,
    fun cell name v entry => .inl ?_⟩
  · exact Pool.has_alloc.2 (.inl (celled r known))
  · have known : h.statics.has cell := by
      by_contra unknown
      unfold fieldIn? at entry
      rw [Pool.get_of_not_has unknown] at entry
      cases entry
    unfold fieldIn? at entry ⊢
    rw [← entry]
    exact congrArg (Assoc.get? · name) (Pool.get_alloc h.statics _ cell known)

/-- A class that is published must have a cell. -/
theorem publish (draft : Class) (cell : h.Celled → h.statics.has draft.statics) :
    Preserves anew h (h.allocClass draft).2 := by
  refine ⟨fun r known => ⟨Pool.has_alloc.2 (.inl known), Pool.get_alloc h.classes _ r known⟩, fun _ known => known,
    fun celled r known => ?_, fun _ _ _ entry => .inl entry⟩
  show h.statics.has ((h.classes.alloc draft).2.get r).statics
  rcases Pool.has_alloc.1 known with known | rfl
  · rw [Pool.get_alloc _ _ _ known]
    exact celled r known
  · rw [Pool.get_alloc_self]
    exact cell celled

/-- A constant entry may be written only if it may be declared anew. -/
theorem putEntry (f : StaticField) (free : ∀ v, h.fieldIn? cell name = some ⟨v, true⟩ → anew cell name) :
    Preserves anew h (h.putEntry cell name f) := by
  refine ⟨fun r known => ⟨known, rfl⟩, fun other known => (Pool.has_set ..).2 known,
    fun celled r known => (Pool.has_set ..).2 (celled r known), fun other n v entry => ?_⟩
  rcases h.fieldIn?_putEntry_cases cell name f other n with same | ⟨rfl, rfl, -⟩
  · exact .inl (same.trans entry)
  · exact .inr (free v entry)

/-- An assignment writes no constant entry. -/
theorem setStatic? {r : Ref .cls} {v : Value} (done : h.setStatic? r name v = some h') : Preserves anew h h' := by
  obtain ⟨free, rfl⟩ := setStatic?_eq_some done
  exact putEntry _ fun old entry => absurd entry (fieldIn?_assignedCell free old)

end Preserves

end Heap

/-! ## Instructions -/

/-- The instruction, which has been fetched, declares the static field in the cell, which is that of the class
below the top of the stack. -/
def Instruction.Declares (i : Instruction) (m : Machine) (cell : Ref .statics) (name : Text) : Prop :=
  (i.op = .staticField ∨ i.op = .staticConstField) ∧ m.nameAt? i.a.toNat = some name ∧
    ∃ r, m.stack.pop.back? = some (.cls r) ∧ (m.heap.classes.get r).statics = cell

namespace Exec

open Heap Machine

variable {α β : Type} {anew : Ref .statics → Text → Prop} {m : Machine} {x : Exec α}

theorem Leaves.preserves (h : Leaves x) (m : Machine) : m.heap.Preserves anew (x.after m).heap := .of_classState (h m)

/-- Something may be done before. -/
theorem Leaves.before {f : α → Exec β} (first : Leaves x)
    (next : ∀ v m', x.run m = .ok v m' → m'.heap.Preserves anew ((f v).after m').heap) :
    m.heap.Preserves anew ((x >>= f).after m).heap := by
  cases run : x.run m with
  | ok v m' =>
    rw [after_bind run]
    exact (Preserves.of_classState (first.ok run)).trans (next v m' run)
  | error e m' =>
    rw [after_of_error (run_bind_of_error run)]
    exact .of_classState (first.error run)

/-- Something may be done behind. -/
theorem preserves_then {f : α → Exec β} (first : m.heap.Preserves anew (x.after m).heap) (next : ∀ v, Leaves (f v)) :
    m.heap.Preserves anew ((x >>= f).after m).heap := by
  cases run : x.run m with
  | ok v m' =>
    rw [after_of_ok run] at first
    rw [after_bind run]
    exact first.trans ((next v).preserves m')
  | error e m' =>
    rw [after_of_error run] at first
    rw [after_of_error (run_bind_of_error run)]
    exact first

/-- An instruction that names a constant goes on with that name, or fails before it does anything. -/
theorem preserves_named {f : Text → Exec β} {index : Nat}
    (next : ∀ name, m.nameAt? index = some name → m.heap.Preserves anew ((f name).after m).heap) :
    m.heap.Preserves anew ((constantName index >>= f).after m).heap := by
  obtain ⟨name, named, run⟩ | ⟨-, fault, run⟩ := constantName_cases m index
  · rw [after_bind run]
    exact next name named
  · rw [after_of_error (run_bind_of_error run)]
    exact .refl _

/-- An instruction on the class on top of the stack fails if there is none. -/
theorem preserves_classOnTop {f : Ref .cls → Exec Unit}
    (next : ∀ r, m.stack.back? = some (.cls r) → m.heap.Preserves anew ((f r).after m).heap) :
    m.heap.Preserves anew ((classOnTop >>= f).after m).heap := by
  cases top : m.stack.back?.bind Value.cls? with
  | none =>
    rw [after_classOnTop f top]
    exact .refl _
  | some r =>
    have run := run_classOnTop m
    rw [top] at run
    obtain ⟨v, here, isClass⟩ := Option.bind_eq_some_iff.1 top
    rw [after_bind run]
    exact next r (Value.eq_cls_of_cls? isClass ▸ here)

/-- The class on top of the stack of a grounded machine is there. -/
theorem has_of_back? (h : m.Grounded) {r : Ref .cls} (top : m.stack.back? = some (.cls r)) : m.heap.classes.has r :=
  h.stack (.cls r) (Array.mem_toList_iff.2 (Array.mem_of_back? top))

/-- With one value less on the stack, the machine is as grounded as before. -/
theorem preserves_popped {f : Value → Exec β} (grounded : m.Grounded)
    (next : ∀ v (m' : Machine), m'.Grounded → m'.heap = m.heap → m'.stack = m.stack.pop →
      m'.heap.Preserves anew ((f v).after m').heap) :
    m.heap.Preserves anew ((pop >>= f).after m).heap := by
  have run : pop.run m = .ok (m.stack.back?.getD .null) { m with stack := m.stack.pop } := rfl
  rw [after_bind run]
  exact next _ { m with stack := m.stack.pop } { grounded with stack := below_pop grounded.stack } rfl rfl

/-- A class that is made from a known one shares its cell. -/
theorem preserves_republish {r : Ref .cls} {draft : Class} (known : m.heap.classes.has r)
    (same : draft.statics = (m.heap.classes.get r).statics) :
    m.heap.Preserves anew ((republish draft).after m).heap := by
  refine preserves_then ?_ fun s => (leaves_get.bind fun _ => leaves_setSlot _ _).bind fun _ => leaves_pure _
  show m.heap.Preserves anew (m.heap.allocClass { draft with tableId := m.world.drawId.1 }).2
  refine .publish _ fun celled => ?_
  rw [same]
  exact celled r known

/-- A class that inherits is rebuilt with the same cell. -/
theorem preserves_inherit (grounded : m.Grounded) : m.heap.Preserves anew (inherit.after m).heap := by
  refine preserves_popped grounded fun v m₁ grounded _ _ => ?_
  split
  · refine preserves_classOnTop fun r top => ?_
    rw [after_bind (run_heap _)]
    exact preserves_then (preserves_republish (has_of_back? grounded top) rfl) fun _ => leaves_pure _
  · exact (leaves_failType _ _).preserves m₁

/-- A class with one more method is rebuilt with the same cell. -/
theorem preserves_defineMethod (grounded : m.Grounded) (name : Text) (isStatic : Bool) :
    m.heap.Preserves anew ((defineMethod name isStatic).after m).heap := by
  refine preserves_popped grounded fun v m₁ grounded _ _ => ?_
  split
  · refine preserves_classOnTop fun r top => ?_
    rw [after_bind (run_heap _)]
    refine preserves_then (preserves_republish (has_of_back? grounded top) ?_) fun _ => leaves_modifyHeap _ fun _ => rfl
    split <;> rfl
  · exact (leaves_failType _ _).preserves m₁

/-- A static field is declared in the cell of the class, and any other field in a rebuilt class. -/
theorem preserves_defineField (grounded : m.Grounded) (name : Text) (isStatic isConst : Bool)
    (free : ∀ r, isStatic = true → m.stack.pop.back? = some (.cls r) → anew (m.heap.classes.get r).statics name) :
    m.heap.Preserves anew ((defineField name isStatic isConst).after m).heap := by
  refine preserves_popped grounded fun initial m₁ grounded heap stack => ?_
  rw [← heap, ← stack] at free
  refine preserves_classOnTop fun r top => ?_
  cases isStatic with
  | true => exact Preserves.putEntry (h := m₁.heap) _ fun _ _ => free r rfl top
  | false =>
    rw [if_neg Bool.false_ne_true, after_bind (run_heap _)]
    refine Leaves.before (leaves_withWorld _ fun _ => rfl) fun draft m₂ run => ?_
    cases run
    exact preserves_then (preserves_republish (r := r) (has_of_back? grounded top) rfl) fun _ => leaves_pure _

/-- An assignment to a static field checks that the field is not constant. -/
theorem preserves_setProperty (object : Value) (name : Text) (v : Value) (site : Site) (m : Machine) :
    m.heap.Preserves anew ((setProperty object name v site).after m).heap := by
  unfold setProperty
  split
  · exact (leaves_setObjectProperty _ _ _ _).preserves m
  · rw [after_bind (run_heap _)]
    split
    next h' done => exact Preserves.setStatic? done
    next => exact (leaves_fail _).preserves m
  · exact .of_classState rfl
  · exact (leaves_failType _ _).preserves m

/-- **What an instruction does to classes and static fields.** Only the declaration of a static field may change
a constant entry, and then the one that it declares. -/
theorem preserves_execute (i : Instruction) (grounded : m.Grounded) :
    m.heap.Preserves (i.Declares m) ((execute i).after m).heap := by
  obtain ⟨op, x, y⟩ := i
  by_cases writes : op.writesClasses = true
  · unfold execute
    cases op with
    | newClass =>
      refine preserves_named fun name _ => ?_
      refine preserves_then ?_ fun r => leaves_pushed _
      exact (Preserves.newCell m.heap).trans
        (.publish _ fun _ => Pool.has_alloc.2 (.inr rfl))
    | setProperty =>
      refine preserves_named fun name _ => Leaves.before leaves_pop fun v m₁ _ => ?_
      refine Leaves.before leaves_pop fun object m₂ _ => Leaves.before idle_site.leaves fun site m₃ _ => ?_
      exact preserves_then (preserves_setProperty object name v site m₃) fun _ => leaves_pushed _
    | inherit =>
      rw [Activity.after_andNext]
      exact preserves_inherit grounded
    | method | staticMethod =>
      rw [Activity.after_andNext]
      exact preserves_named fun name _ => preserves_defineMethod grounded name _
    | field | constField =>
      rw [Activity.after_andNext]
      exact preserves_named fun name _ => preserves_defineField grounded name _ _ fun _ => nofun
    | staticField =>
      rw [Activity.after_andNext]
      exact preserves_named fun name named => preserves_defineField grounded name _ _ fun r _ top =>
        ⟨.inl rfl, named, r, top, rfl⟩
    | staticConstField =>
      rw [Activity.after_andNext]
      exact preserves_named fun name named => preserves_defineField grounded name _ _ fun r _ top =>
        ⟨.inr rfl, named, r, top, rfl⟩
    | _ => cases writes
  · exact (leaves_execute ⟨op, x, y⟩ (Bool.not_eq_true _ ▸ writes)).preserves m

end Exec

/-! ## Moves and runs -/

namespace Activity

open Heap Exec

variable {a : Activity} {anew : Ref .statics → Text → Prop}

/-- The next move declares the static field in the cell. -/
def Declares (a : Activity) (cell : Ref .statics) (name : Text) : Prop :=
  a.control = .execute ∧ ∃ i m, fetch.run a.machine = .ok i m ∧ i.Declares m cell name

theorem heap_onFault (f : Fault) (m : Machine) (pending : List Pending) :
    (onFault f m pending).machine.heap = m.heap := by
  cases f <;> rfl

theorem heap_resume (m : Machine) (pending : List Pending) (caller : Caller) (v : Value) :
    (resume m pending caller v).machine.heap = m.heap := by
  cases caller <;> rfl

theorem heap_complete (m : Machine) (pending : List Pending) (byEntry : Bool) (v : Value) :
    (complete m pending byEntry v).machine.heap = m.heap := by
  cases byEntry <;> rfl

theorem leaves_beginCall (callee : Value) (args : List Value) : Leaves (beginCall callee args) := by
  unfold beginCall
  split
  · exact leaves_fail _
  · exact Leaves.bind (leaves_modify _ fun _ => rfl) fun _ => leaves_call _

theorem leaves_callbackError (c : Callback) (e : RuntimeError) : Leaves (callbackError c e) := by
  cases c with
  | apply => exact leaves_fail _
  | attempt => exact leaves_newArray _
  | callName => exact leaves_pure _

theorem classState_stepDeliver (m : Machine) (pending : List Pending) (v : Value) :
    (stepDeliver m pending v).machine.heap.classState = m.heap.classState := by
  cases pending with
  | nil => rfl
  | cons p rest =>
    unfold stepDeliver
    dsimp only
    split
    · rfl
    · rfl
    · exact congrArg Heap.classState (heap_resume _ _ _ _)
    · exact congrArg Heap.classState (heap_resume _ _ _ _)
    · exact congrArg Heap.classState (heap_resume _ _ _ _)

theorem classState_stepCallbackError (m : Machine) (pending : List Pending) (p : Pending) (c : Callback)
    (e : RuntimeError) : (stepCallbackError m pending p c e).machine.heap.classState = m.heap.classState := by
  have unwound : ((m.recordError e).unwindTo p.depths).heap.classState = m.heap.classState :=
    classState_unwindTo (m.recordError e) p.depths
  unfold stepCallbackError
  cases run : (callbackError c e).run ((m.recordError e).unwindTo p.depths) with
  | ok v m' =>
    dsimp only
    rw [heap_resume, (leaves_callbackError c e).ok run, unwound]
  | error f m' =>
    dsimp only
    rw [heap_onFault, (leaves_callbackError c e).error run, unwound]

theorem classState_stepRaise (m : Machine) (pending : List Pending) (e : RuntimeError) :
    (stepRaise m pending e).machine.heap.classState = m.heap.classState := by
  cases pending with
  | nil => rfl
  | cons p rest =>
    unfold stepRaise
    dsimp only
    split
    · rfl
    · exact classState_unwindTo _ _
    · exact classState_stepCallbackError _ _ _ _ _
    · exact classState_stepCallbackError _ _ _ _ _
    · exact classState_unwindTo _ _

/-- What one move keeps. -/
theorem preserves_step (grounded : a.Grounded) : a.machine.heap.Preserves a.Declares a.step.machine.heap := by
  obtain ⟨m, pending, control⟩ := a
  cases control with
  | execute =>
    show m.heap.Preserves _ (stepExecute m pending).machine.heap
    cases fetched : fetch.run m with
    | ok i m₁ =>
      obtain ⟨ready, -, -⟩ := (grounds_fetch (n := 0) m grounded.machine (Nat.zero_le _)).ok fetched
      obtain ⟨k, moved⟩ := machine_stepExecute fetched pending
      rw [moved]
      refine (Preserves.of_classState (leaves_fetch.ok fetched)).trans ((preserves_execute i ready).mono ?_)
      intro cell name declares
      exact ⟨rfl, i, m₁, fetched, declares⟩
    | error f m₁ =>
      unfold stepExecute
      rw [run_bind_of_error fetched]
      dsimp only
      rw [heap_onFault]
      exact .of_classState (leaves_fetch.error fetched)
  | invoke callee args =>
    obtain ⟨k, stack, moved⟩ := machine_stepInvoke m pending callee args
    show m.heap.Preserves _ (stepInvoke m pending callee args).machine.heap
    rw [moved]
    exact (leaves_beginCall callee args).preserves m
  | ask byEntry c => exact .of_classState (congrArg Heap.classState (heap_complete m pending byEntry .null))
  | deliver v => exact .of_classState (classState_stepDeliver m pending v)
  | raise e => exact .of_classState (classState_stepRaise m pending e)

/-- What a run keeps whose moves declare anew nothing but what `anew` allows. -/
theorem preserves_run {fuel : Nat} {o : Outcome} {m : Machine} (grounded : a.Grounded)
    (within : ∀ b ∈ a.moves fuel, ∀ cell name, b.Declares cell name → anew cell name)
    (run : a.run fuel = some (o, m)) : a.machine.heap.Preserves anew m.heap := by
  induction fuel generalizing a with
  | zero => cases run
  | succ fuel ih =>
    have moved := preserves_step grounded
    have next := grounded.step
    unfold Activity.run at run
    unfold moves at within
    cases step : a.step with
    | «continue» b =>
      rw [step] at run within moved next
      have here := within a (List.mem_append.2 (.inr List.mem_cons_self))
      exact (moved.mono here).trans (ih next (fun c mem => within c (List.mem_append.2 (.inl mem))) run)
    | done o' m' =>
      rw [step] at run within moved
      cases run
      exact moved.mono (within a List.mem_cons_self)

end Activity

/-! ## What a host does -/

section

open World

variable {anew : Ref .statics → Text → Prop}

/-- A new class gets a new cell. -/
theorem World.preserves_newClass (w : World) (name : Text) : w.heap.Preserves anew (w.newClass name).2.heap :=
  (Heap.Preserves.newCell w.heap).trans (.publish _ fun _ => Pool.has_alloc.2 (.inr rfl))

theorem World.classState_bind (w : World) (receiver function : Value) :
    (w.bind receiver function).2.heap.classState = w.heap.classState := by
  unfold World.bind
  split <;> rfl

theorem World.preserves_ofClass {f : Ref .cls → World → Value × World}
    (h : ∀ r w, (f r w).2.heap.classState = w.heap.classState) (v : Value) (w : World) :
    w.heap.Preserves anew (ofClass f v w).2.heap := by
  unfold ofClass
  split
  · exact .of_classState (h _ w)
  · exact .refl _

mutual

/-- Making the value of a literal declares no static fields. -/
theorem preserves_realise (scope : Literal.Scope) (l : Literal) (w : World) :
    w.heap.Preserves anew (l.realise scope w).2.heap := by
  cases l with
  | null | bool | int | float | decimal | str | namedArg | global | earlier =>
    simp only [Literal.realise]
    exact .refl _
  | array items =>
    simp only [Literal.realise]
    exact (preserves_realiseAll scope items w).trans (.of_classState rfl)
  | hash keys values =>
    simp only [Literal.realise]
    exact (preserves_realiseAll scope values w).trans (.of_classState rfl)
  | cls name =>
    simp only [Literal.realise]
    exact preserves_newClass w name
  | object className =>
    simp only [Literal.realise]
    exact (preserves_newClass w className).trans (.of_classState rfl)
  | objectOf cls =>
    simp only [Literal.realise]
    exact (preserves_realise scope cls w).trans
      (preserves_ofClass (f := fun r w => w.bareObject r) (fun _ _ => rfl) _ _)
  | superNamed name =>
    simp only [Literal.realise]
    exact preserves_newClass w name
  | superOf cls =>
    simp only [Literal.realise]
    exact (preserves_realise scope cls w).trans
      (preserves_ofClass (f := fun r w => (Value.superOf r, w)) (fun _ _ => rfl) _ _)
  | native name =>
    simp only [Literal.realise]
    exact .of_classState rfl
  | closure name =>
    simp only [Literal.realise]
    exact .of_classState rfl
  | method name receiver =>
    simp only [Literal.realise]
    exact (preserves_realise scope receiver w).trans (.of_classState rfl)
  | bound function receiver =>
    simp only [Literal.realise]
    refine (preserves_realise scope function w).trans ?_
    exact (preserves_realise scope receiver _).trans (.of_classState (classState_bind _ _ _))

/-- Values that the host makes add classes at most. -/
theorem preserves_realiseAll (scope : Literal.Scope) (ls : List Literal) (w : World) :
    w.heap.Preserves anew (realiseAll scope w ls).2.heap := by
  cases ls with
  | nil =>
    simp only [realiseAll]
    exact .refl _
  | cons l rest =>
    simp only [realiseAll]
    exact (preserves_realise scope l w).trans (preserves_realiseAll scope rest _)

end

end

namespace Session

variable {s : Session} {anew : Ref .statics → Text → Prop}

/-- The fields of a draft are values that the host makes, and the draft keeps its cell. -/
theorem preserves_draftFields (anew : Ref .statics → Text → Prop) (scope : Literal.Scope)
    (fields : List (Text × Literal × Bool)) (draft : Class) (w : World) :
    w.heap.Preserves anew (draftFields scope fields draft w).2.heap ∧
      (draftFields scope fields draft w).1.statics = draft.statics := by
  induction fields generalizing draft w with
  | nil => exact ⟨.refl _, rfl⟩
  | cons f rest ih =>
    obtain ⟨name, initial, isConst⟩ := f
    have realised : w.heap.Preserves anew (initial.realise scope w).2.heap := preserves_realise scope initial w
    generalize hv : initial.realise scope w = v at realised
    obtain ⟨drafted, same⟩ := ih (v.2.draftField draft name v.1 isConst).1 (v.2.draftField draft name v.1 isConst).2
    unfold draftFields
    rw [hv]
    exact ⟨realised.trans drafted, same⟩

/-- The host declares static fields in the cell of the class that it has built. -/
theorem preserves_declareStatics (scope : Literal.Scope) {r : Ref .cls} (statics : List (Text × Literal × Bool))
    {w : World} (known : w.heap.classes.has r)
    (allowed : ∀ name ∈ statics.map Prod.fst, anew (w.heap.classes.get r).statics name) :
    w.heap.Preserves anew (declareStatics scope r statics w).2.heap := by
  induction statics generalizing w with
  | nil => exact .refl _
  | cons f rest ih =>
    obtain ⟨name, initial, isConst⟩ := f
    have realised : w.heap.Preserves anew (initial.realise scope w).2.heap := preserves_realise scope initial w
    obtain ⟨known', same⟩ := realised.classes r known
    rw [← same] at allowed
    have declared : (initial.realise scope w).2.heap.Preserves anew
        ((initial.realise scope w).2.heap.defineStatic r name (initial.realise scope w).1 isConst) :=
      .putEntry _ fun _ _ => allowed name List.mem_cons_self
    have later := ih (w := { (initial.realise scope w).2 with
        heap := (initial.realise scope w).2.heap.defineStatic r name (initial.realise scope w).1 isConst })
      known' fun n mem => allowed n (List.mem_cons_of_mem _ mem)
    exact (realised.trans declared).trans later

/-- A plan starts from a class that there is, or with a new cell. -/
theorem preserves_draftIn (anew : Ref .statics → Text → Prop) (grounded : s.Grounded)
    (celled : s.machine.heap.Celled) (plan : ClassPlan) :
    s.machine.heap.Preserves anew (s.draftIn plan s.machine.world).2.heap ∧
      (s.draftIn plan s.machine.world).2.heap.statics.has (s.draftIn plan s.machine.world).1.statics := by
  unfold draftIn
  split
  next r found =>
    obtain ⟨name, -, known⟩ := Option.bind_eq_some_iff.1 found
    exact ⟨.refl _, celled r (below_globalClass? grounded.globals known)⟩
  next => exact ⟨.newCell _, Pool.has_alloc.2 (.inr rfl)⟩

/-- A draft keeps its cell when it gets a superclass. -/
theorem statics_withSuper (s : Session) (plan : ClassPlan) (draft : Class) :
    (s.withSuper plan draft).statics = draft.statics := by
  unfold withSuper
  split <;> rfl

/-- A host declares static fields only in the cell of the class that it builds. -/
theorem preserves_buildIn (grounded : s.Grounded) (celled : s.machine.heap.Celled) (plan : ClassPlan) :
    s.machine.heap.Preserves (fun cell name => name ∈ plan.statics.map Prod.fst ∧
        ((s.buildIn plan s.machine.world).2.heap.classes.get (s.buildIn plan s.machine.world).1).statics = cell)
      (s.buildIn plan s.machine.world).2.heap := by
  unfold buildIn
  dsimp only
  generalize hd : s.draftIn plan s.machine.world = d
  generalize hf : draftFields s.scope plan.fields (s.withSuper plan d.1) d.2 = f
  generalize hc : f.2.publish (s.furnish plan f.1 f.2) = c
  let anew : Ref .statics → Text → Prop := fun cell name =>
    name ∈ plan.statics.map Prod.fst ∧ (c.2.heap.classes.get c.1).statics = cell
  -- The draft has its cell from the start, and keeps it until it is published.
  obtain ⟨started, cell⟩ := preserves_draftIn anew grounded celled plan
  obtain ⟨drafted, kept⟩ := preserves_draftFields anew s.scope plan.fields (s.withSuper plan d.1) d.2
  rw [hd] at started cell
  rw [hf, statics_withSuper] at kept
  rw [hf] at drafted
  have published : f.2.heap.Preserves anew c.2.heap := by
    rw [← hc]
    refine .publish _ fun _ => ?_
    have cell' : (s.furnish plan f.1 f.2).statics = f.1.statics := by
      unfold Session.furnish
      rw [withMethods_eq]
    rw [cell', kept]
    exact drafted.cells _ cell
  have known : c.2.heap.classes.has c.1 := by
    rw [← hc]
    exact Pool.has_alloc.2 (.inr rfl)
  have declared : c.2.heap.Preserves anew (declareStatics s.scope c.1 plan.statics c.2).2.heap :=
    preserves_declareStatics s.scope plan.statics known fun name mem => ⟨mem, rfl⟩
  rw [(declared.classes c.1 known).2]
  exact ((started.trans drafted).trans published).trans declared

/-- What a command may declare: what its moves declare, and what the plan of a class declares. -/
def Declares (s : Session) (c : Command) (cell : Ref .statics) (name : Text) : Prop :=
  (∃ a ∈ s.movesOf c, a.Declares cell name) ∨
    ∃ plan, c = .buildClass plan ∧ name ∈ plan.statics.map Prod.fst ∧
      ((s.buildIn plan s.machine.world).2.heap.classes.get (s.buildIn plan s.machine.world).1).statics = cell

/-- Beginning a script makes a closure. -/
theorem leaves_startScript (m : Machine) (p : Proto) :
    (m.startScript p).machine.heap.classState = m.heap.classState := by
  rw [Machine.startScript_eq]
  have pushed := Exec.leaves_pushFrame { closure := (m.world.newClosure p).1 } (m.laidOut p)
  unfold Exec.after at pushed
  split
  next run => rwa [run] at pushed
  next run => rwa [run] at pushed
  next run => rwa [run] at pushed

theorem preserves_realised (s : Session) (ls : List Literal) :
    s.machine.heap.Preserves anew (s.realise ls).2.machine.heap := preserves_realiseAll _ _ _

/-- The activity that a command sets going begins with the classes and static fields of the session. -/
theorem preserves_entry {c : Command} {a : Activity} (entry : s.entry? c = some a) :
    s.machine.heap.Preserves anew a.machine.heap := by
  cases c with
  | interpret script keepAs =>
    cases entry
    exact .of_classState (leaves_startScript _ _)
  | interpretKept name =>
    obtain ⟨p, -, rfl⟩ := Option.map_eq_some_iff.1 entry
    exact .of_classState (leaves_startScript _ _)
  | callGlobal name args =>
    obtain ⟨callee, -, rfl⟩ := Option.map_eq_some_iff.1 entry
    exact s.preserves_realised _
  | callValue callee args =>
    cases entry
    exact s.preserves_realised (callee :: args)
  | callMany callee count arg =>
    cases entry
    exact s.preserves_realised [callee, arg]
  | _ => cases entry

/-- A new machine has its native functions in the heap, and no class. -/
theorem classState_fresh (config : Config) (natives : List Native) (w : World) :
    (Machine.fresh config natives w).heap.classState = w.heap.classState := by
  have added : ∀ (natives : List Native) (m : Machine),
      (natives.foldl Machine.withNative m).heap.classState = m.heap.classState := by
    intro natives
    induction natives with
    | nil => exact fun _ => rfl
    | cons n rest ih => exact fun m => ih (m.withNative n)
  rw [Machine.fresh_eq]
  exact added natives _

/-- What a command keeps whose run comes to its end. -/
theorem preserves_ran {c : Command} {a : Activity} {o : Outcome} {m : Machine} (grounded : s.Grounded)
    (entry : s.entry? c = some a) (run : a.run s.fuel = some (o, m)) :
    s.machine.heap.Preserves (s.Declares c) m.heap := by
  have moves : s.movesOf c = a.moves s.fuel := by
    unfold movesOf
    rw [entry]
  refine (preserves_entry entry).trans (Activity.preserves_run (grounded.entry entry) ?_ run)
  intro b mem cell name declares
  exact .inl ⟨b, moves ▸ mem, declares⟩

/-- A session ends a run with the machine that the run has left. -/
theorem preserves_conclude {s₁ : Session} {r : Option (Outcome × Machine)}
    (before : s.machine.heap.Preserves anew s₁.machine.heap)
    (ran : ∀ o m, r = some (o, m) → s.machine.heap.Preserves anew m.heap) :
    s.machine.heap.Preserves anew (s₁.conclude r).2.machine.heap := by
  cases r with
  | none => exact before
  | some answer =>
    obtain ⟨o, m⟩ := answer
    have kept := ran o m rfl
    cases o <;> exact kept

/-- What a command keeps. -/
theorem preserves_dispatch (grounded : s.Grounded) (celled : s.machine.heap.Celled) (c : Command) :
    s.machine.heap.Preserves (s.Declares c) (s.dispatch c).2.machine.heap := by
  have ran : ∀ {a o m}, s.entry? c = some a → a.run s.fuel = some (o, m) →
      s.machine.heap.Preserves (s.Declares c) m.heap := preserves_ran grounded
  cases c with
  | interpret script keepAs =>
    have kept : s.machine.heap.Preserves (s.Declares (.interpret script keepAs))
        (s.keeping keepAs (script.build s.machine.world.nextProto)).machine.heap := .of_classState rfl
    exact preserves_conclude kept fun o m run => ran rfl run
  | interpretKept name =>
    simp only [dispatch]
    cases known : s.kept.get? name with
    | some p => exact preserves_conclude (.refl _) fun o m run => ran (Option.map_eq_some_iff.2 ⟨p, known, rfl⟩) run
    | none => exact .refl _
  | callGlobal name args =>
    simp only [dispatch, Machine.callGlobal]
    cases known : (s.realise args).2.machine.globals.get? name with
    | some callee =>
      refine preserves_conclude (s.preserves_realised args) fun o m run => ?_
      exact ran (Option.map_eq_some_iff.2 ⟨callee, known, rfl⟩) run
    | none => exact s.preserves_realised args
  | callValue callee args =>
    exact preserves_conclude (s.preserves_realised (callee :: args)) fun o m run => ran rfl run
  | callMany callee count arg =>
    exact preserves_conclude (s.preserves_realised [callee, arg]) fun o m run => ran rfl run
  | setGlobal name value => exact s.preserves_realised [value]
  | getGlobal name =>
    simp only [dispatch]
    cases s.machine.globals.get? name <;> exact .refl _
  | reset | clearOutput | clearDiagnostics | state => exact .of_classState rfl
  | newMachine config => exact .of_classState (classState_fresh config preludeNatives s.machine.world)
  | recordProperty site name shape offset =>
    exact .of_classState ((Exec.quiet_recordProperty site ⟨(s.machine.world.intern name).1, shape⟩ offset).leaves
      { s.machine with world := (s.machine.world.intern name).2 })
  | recordMethod site name table owner method =>
    refine (s.preserves_realised [method]).trans (.of_classState ?_)
    exact (Exec.quiet_recordMethod site ⟨((s.realise [method]).2.machine.world.intern name).1, table⟩
      ⟨owner, (s.realise [method]).1.headD .null⟩).leaves
        { (s.realise [method]).2.machine with world := ((s.realise [method]).2.machine.world.intern name).2 }
  | buildClass plan =>
    show s.machine.heap.Preserves _ (s.buildClass plan).machine.heap
    rw [buildClass_eq]
    refine (preserves_buildIn grounded celled plan).mono fun cell name both => ?_
    exact .inr ⟨plan, rfl, both.1, both.2⟩

/-- What a step of a session keeps. -/
theorem preserves_perform (grounded : s.Grounded) (celled : s.machine.heap.Celled) (c : Command) :
    s.machine.heap.Preserves (s.withoutStreams.Declares c) (s.perform c).2.machine.heap :=
  preserves_dispatch (s := s.withoutStreams) grounded.withoutStreams celled c

end Session

end ScriptVm
