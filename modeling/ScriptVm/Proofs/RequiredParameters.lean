import ScriptVm.Proofs.CallsAndRegions
import ScriptVm.Proofs.NamedArguments

/-!
# Required parameters

A call has a window of arguments above its callee, with marks in front of the named ones.
`Exec.answered_call` and `Exec.answered_new` say what becomes of a call whose callee has a body:
the window cannot be arranged, the number of arranged arguments is wrong, there is no room, or the
call begins with the arranged arguments in its slots.

The number that is compared with the arity is the length of the arranged list, which counts the
gaps before its last argument. So a call without gaps that reach past the required parameters
begins only if each of them was given (`Activity.required_given_or_gapped`), and one with such a gap
begins with null in it.
-/

set_option autoImplicit false

namespace ScriptVm

open Machine Exec NamedArgs

/-! ## Bodies and windows -/

/-- The function that a call of a value executes, if it is one of the language. -/
def Heap.bodyOf (h : Heap) : Value → Option (Ref .closure)
  | .closure r => some r
  | .bound r =>
    match (h.bounds.get r).target with
    | .closure f => some f
    | .native _ => none
  | .cls r => h.findConstructor r
  | _ => none

/-- The prototype of a function. -/
def Heap.protoOf (h : Heap) (r : Ref .closure) : Proto := (h.closures.get r).proto

theorem Exec.targetProto_eq (h : Heap) (callee : Value) :
    targetProto h callee = (h.bodyOf callee).map h.protoOf := by
  cases callee with
  | bound r =>
    simp only [targetProto, Heap.bodyOf]
    cases (h.bounds.get r).target <;> rfl
  | _ => rfl

/-- The top `argc` values of the stack. -/
def Machine.window (m : Machine) (argc : Nat) : List Value :=
  (m.stack.extract (m.stack.size - argc) m.stack.size).toList

/-- The stack ends with the arguments `args` from slot `start` on. -/
structure Machine.Loaded (m : Machine) (start : Nat) (args : List Value) : Prop where
  size : m.stack.size = start + args.length
  slots : ∀ i, m.stack[start + i]? = args[i]?

theorem Machine.loaded_window {m : Machine} {argc : Nat} (room : argc ≤ m.stack.size) :
    m.Loaded (m.stack.size - argc) (m.window argc) := by
  have length : (m.window argc).length = argc := by
    rw [window, Array.length_toList, Array.size_extract]
    omega
  refine ⟨by omega, fun i => ?_⟩
  rw [window, Array.getElem?_toList, Array.getElem?_extract]
  split
  · rfl
  · rw [Array.getElem?_eq_none_iff]
    omega

theorem Machine.loaded_rewritten {m : Machine} {start : Nat} (room : start ≤ m.stack.size) (args : List Value) :
    Loaded { m with stack := m.stack.shrink start ++ args.toArray } start args := by
  have size : (m.stack.shrink start).size = start := by
    rw [Array.size_shrink]
    omega
  refine ⟨by rw [Array.size_append, size, List.size_toArray], fun i => ?_⟩
  rw [Array.getElem?_append_right (by omega), size, Nat.add_sub_cancel_left, List.getElem?_toArray]

/-- The callee slot is below the arguments. -/
theorem Machine.Loaded.setCallee {m : Machine} {start : Nat} {args : List Value} (h : m.Loaded start args)
    (below : 0 < start) (v : Value) :
    Loaded { m with stack := m.stack.setIfInBounds (m.stack.size - args.length - 1) v } start args := by
  refine ⟨by rw [Array.size_setIfInBounds, h.size], fun i => ?_⟩
  rw [Array.getElem?_setIfInBounds_ne (by have := h.size; omega), h.slots]

namespace Exec

/-! ## What becomes of a call -/

/-- What becomes of a call of the function `r` with prototype `p` on the window that starts at slot
`start` of machine `m`. -/
inductive Answered {α : Type} (m : Machine) (r : Ref .closure) (p : Proto) (start : Nat) (window : List Value)
    (v : α) : EStateM.Result Fault Machine α → Prop where
  | confused {c : Cause} {span : Span} {m' : Machine} (disorder : arrange p.params window = .error c)
      (frames : m'.frames = m.frames) : Answered m r p start window v (.error (.error ⟨c, span⟩) m')
  | refused {args : List Value} {span : Span} {m' : Machine} (order : arrange p.params window = .ok args)
      (arity : args.length < p.arity ∨ p.totalParams < args.length) (frames : m'.frames = m.frames) :
      Answered m r p start window v (.error (.error ⟨.wrongArity p.totalParams args.length, span⟩) m')
  | full {args : List Value} {span : Span} {m' : Machine} (order : arrange p.params window = .ok args)
      (arity : p.arity ≤ args.length ∧ args.length ≤ p.totalParams)
      (full : m.config.maxStack < start + p.totalParams ∨ m.config.maxFrames ≤ m.frames.length)
      (frames : m'.frames = m.frames) : Answered m r p start window v (.error (.error ⟨.stackOverflow, span⟩) m')
  | entered {args : List Value} {m' : Machine} {f : Frame} (order : arrange p.params window = .ok args)
      (arity : p.arity ≤ args.length ∧ args.length ≤ p.totalParams) (frames : m'.frames = f :: m.frames)
      (closure : f.closure = r) (ip : f.ip = 0) (base : f.base + 1 = start)
      (slots : ∀ i, i < p.totalParams → m'.stack[start + i]? = some (args.getD i .null)) :
      Answered m r p start window v (.ok v m')

/-- A call that goes on after it has begun. -/
theorem Answered.andThen {α β : Type} {m : Machine} {r : Ref .closure} {p : Proto} {start : Nat}
    {window : List Value} {x : Exec α} {f : α → Exec β} {v : α} {w : β} {m₁ : Machine}
    (h : Answered m r p start window v (x.run m₁)) (gives : f v = pure w) :
    Answered m r p start window w ((x >>= f).run m₁) := by
  generalize run : x.run m₁ = result at h
  cases h with
  | confused disorder frames => exact run_bind_of_error run ▸ .confused disorder frames
  | refused order arity frames => exact run_bind_of_error run ▸ .refused order arity frames
  | full order arity full frames => exact run_bind_of_error run ▸ .full order arity full frames
  | entered order arity frames closure ip base slots =>
    rw [run_bind_of_ok run, gives]
    exact .entered order arity frames closure ip base slots

section

variable {m m₁ : Machine} {r : Ref .closure} {p : Proto} {start : Nat} {window args : List Value}

/-- The machine `m₁` has the arguments of a call on `m` in order. -/
structure InOrder (m m₁ : Machine) (p : Proto) (start : Nat) (window args : List Value) : Prop where
  order : arrange p.params window = .ok args
  loaded : m₁.Loaded start args
  frames : m₁.frames = m.frames
  config : m₁.config = m.config
  classes : m₁.heap.classes = m.heap.classes
  closures : m₁.heap.closures = m.heap.closures
  bounds : m₁.heap.bounds = m.heap.bounds

theorem InOrder.setCallee (h : InOrder m m₁ p start window args) (below : 0 < start) (v : Value) :
    InOrder m { m₁ with stack := m₁.stack.setIfInBounds (m₁.stack.size - args.length - 1) v } p start window
      args :=
  { h with loaded := h.loaded.setCallee below v }

/-- The missing optional parameters are filled up with null. -/
theorem InOrder.padded (h : InOrder m m₁ p start window args) (few : args.length ≤ p.totalParams) {i : Nat}
    (hi : i < p.totalParams) :
    (m₁.stack ++ Array.replicate (p.totalParams - args.length) Value.null)[start + i]? =
      some (args.getD i .null) := by
  have size := h.loaded.size
  rw [Array.getElem?_append, List.getD_eq_getElem?_getD]
  split
  next inside =>
    rw [h.loaded.slots, List.getElem?_eq_getElem (by omega)]
    rfl
  next outside =>
    rw [Array.getElem?_replicate, if_pos (by omega), List.getElem?_eq_none (by omega)]
    rfl

theorem run_setSlot (i : Nat) (v : Value) (m : Machine) :
    (setSlot i v).run m = .ok ⟨⟩ { m with stack := m.stack.setIfInBounds i v } := rfl

theorem answered_callClosure (h : InOrder m m₁ p start window args) (below : 0 < start)
    (proto : m₁.heap.protoOf r = p) (isConstructor : Bool) :
    Answered m r p start window () ((callClosure r args.length isConstructor).run m₁) := by
  have size := h.loaded.size
  unfold callClosure
  rw [run_bind_of_ok (run_heap m₁)]
  simp only
  rw [show (m₁.heap.closures.get r).proto = p from proto]
  split
  next arity =>
    simp only [Bool.or_eq_true, decide_eq_true_eq] at arity
    exact .refused h.order arity h.frames
  next arity =>
    simp only [Bool.or_eq_true, decide_eq_true_eq, not_or, Nat.not_lt] at arity
    -- the stack as the body will find it
    obtain ⟨m₂, same⟩ : ∃ m₂ : Machine,
        m₂ = { m₁ with stack := m₁.stack ++ Array.replicate (p.totalParams - args.length) .null } := ⟨_, rfl⟩
    have run : (modify fun m => { m with stack := m.stack ++ Array.replicate (p.totalParams - args.length) .null } :
        Exec PUnit).run m₁ = .ok ⟨⟩ m₂ := by
      rw [same]
      rfl
    have size₂ : m₂.stack.size = start + p.totalParams := by
      rw [same, Array.size_append, Array.size_replicate]
      omega
    have frames₂ : m₂.frames = m.frames := by
      rw [same]
      exact h.frames
    have config₂ : m₂.config = m.config := by
      rw [same]
      exact h.config
    have slots : ∀ i, i < p.totalParams → m₂.stack[start + i]? = some (args.getD i .null) := fun i hi => by
      rw [same]
      exact h.padded arity.2 hi
    rw [run_bind_of_ok run, run_bind_of_ok (run_get m₂)]
    split
    next overflow =>
      exact .full h.order arity (.inl (by rw [← size₂, ← config₂]; exact overflow)) frames₂
    next =>
      rw [run_pushFrame]
      split
      next overflow =>
        exact .full h.order arity (.inr (by rw [← config₂, ← frames₂]; exact overflow)) frames₂
      next =>
        obtain ⟨f, made⟩ : ∃ f : Frame,
            f = ⟨r, 0, m₂.stack.size - p.totalParams - 1, isConstructor, m₂.iterations.length⟩ := ⟨_, rfl⟩
        refine .entered (f := f) h.order arity ?_ ?_ ?_ ?_ slots
        · rw [← frames₂, made]
        · rw [made]
        · rw [made]
        · rw [made]
          show m₂.stack.size - p.totalParams - 1 + 1 = start
          omega

/-- Reordering puts the arguments in order, or fails. -/
theorem reorder_cases {argc : Nat} {callee : Value} (room : argc ≤ m.stack.size)
    (body : m.heap.bodyOf callee = some r) (proto : m.heap.protoOf r = p) :
    (∃ args m₁, (reorder callee argc).run m = .ok args.length m₁ ∧
        InOrder m m₁ p (m.stack.size - argc) (m.window argc) args) ∨
      ∃ c m₁, (reorder callee argc).run m = .error (.error ⟨c, m.span⟩) m₁ ∧
        arrange p.params (m.window argc) = .error c ∧ m₁.frames = m.frames := by
  have loaded := loaded_window room
  unfold reorder
  rw [run_bind_of_ok (run_peekMany argc m)]
  split
  next marked =>
    rw [run_bind_of_ok (run_heap m), targetProto_eq, body]
    simp only [Option.map_some, proto]
    rw [run_bind_of_ok (run_get m)]
    cases order : arrange p.params (m.window argc) with
    | ok args =>
      refine .inl ⟨args, { m with stack := m.stack.shrink (m.stack.size - argc) ++ args.toArray }, ?_,
        order, loaded_rewritten (Nat.sub_le _ _) args, rfl, rfl, rfl, rfl, rfl⟩
      rw [window] at order
      simp only [order]
      rfl
    | error c =>
      refine .inr ⟨c,
        { m with
          stack := m.stack.shrink (m.stack.size - argc) ++ (vacatedWindow (m.window argc)).toArray },
        ?_, rfl, rfl⟩
      rw [window] at order
      simp only [order]
      rfl
  next unmarked =>
    rw [Bool.not_eq_true] at unmarked
    have length : (m.window argc).length = argc := by
      have := loaded.size
      omega
    refine .inl ⟨m.window argc, m, by rw [length]; rfl, ?_⟩
    exact ⟨arrange_of_unnamed p.params unmarked, loaded, rfl, rfl, rfl, rfl, rfl⟩

theorem chainFrom_congr {h h' : Heap} (classes : h'.classes = h.classes) (fuel : Nat) (c : Ref .cls) :
    h'.chainFrom fuel c = h.chainFrom fuel c := by
  induction fuel generalizing c with
  | zero => rfl
  | succ fuel ih =>
    unfold Heap.chainFrom
    rw [classes]
    cases (h.classes.get c).superclass with
    | none => rfl
    | some s => simp only [ih]

theorem findConstructor_congr {h h' : Heap} (classes : h'.classes = h.classes) (c : Ref .cls) :
    h'.findConstructor c = h.findConstructor c := by
  unfold Heap.findConstructor Heap.chain
  rw [chainFrom_congr classes, classes]

theorem answered_instantiate {cls : Ref .cls} (h : InOrder m m₁ p start window args) (below : 0 < start)
    (body : m₁.heap.findConstructor cls = some r) (proto : m₁.heap.protoOf r = p) :
    Answered m r p start window () ((instantiate cls args.length).run m₁) := by
  -- a new instance leaves the classes and functions alone
  obtain ⟨w, object, run, classes, closures, bounds⟩ : ∃ w object,
      (withWorld fun w => w.newObject cls).run m₁ = .ok object { m₁ with world := w } ∧
        w.heap.classes = m₁.heap.classes ∧ w.heap.closures = m₁.heap.closures ∧
        w.heap.bounds = m₁.heap.bounds := by
    refine ⟨_, _, run_withWorld _ m₁, ?_⟩
    rw [World.newObject_eq]
    exact ⟨rfl, rfl, rfl⟩
  have made : InOrder m { m₁ with world := w } p start window args :=
    { h with
      loaded := ⟨h.loaded.size, h.loaded.slots⟩
      classes := classes.trans h.classes
      closures := closures.trans h.closures
      bounds := bounds.trans h.bounds }
  have placed := made.setCallee below (.object object)
  have body : w.heap.findConstructor cls = some r := (findConstructor_congr classes cls).trans body
  have proto : w.heap.protoOf r = p := by
    rw [← proto, Heap.protoOf, Heap.protoOf, closures]
  unfold instantiate
  rw [run_bind_of_ok run, run_bind_of_ok (run_get _), run_bind_of_ok (run_setSlot _ _ _),
    run_bind_of_ok (run_heap _)]
  simp only [Machine.heap, body]
  exact answered_callClosure placed below proto true

/-- What becomes of a call. -/
theorem answered_call {argc : Nat} {callee : Value} (room : argc < m.stack.size)
    (top : m.slot (m.stack.size - 1 - argc) = callee) (body : m.heap.bodyOf callee = some r) :
    Answered m r (m.heap.protoOf r) (m.stack.size - argc) (m.window argc) none ((call argc).run m) := by
  have below : 0 < m.stack.size - argc := by omega
  unfold call
  rw [run_bind_of_ok (run_peek argc m), top]
  rcases reorder_cases (Nat.le_of_lt room) body rfl with ⟨args, m₁, run, h⟩ | ⟨c, m₁, run, disorder, frames⟩
  · rw [run_bind_of_ok run]
    have proto : m₁.heap.protoOf r = m.heap.protoOf r := by rw [Heap.protoOf, Heap.protoOf, h.closures]
    cases callee with
    | closure f =>
      cases body
      exact (answered_callClosure h below proto false).andThen rfl
    | cls c =>
      have body : m₁.heap.findConstructor c = some r := (findConstructor_congr h.classes c).trans body
      exact (answered_instantiate h below body proto).andThen rfl
    | bound b =>
      simp only
      rw [run_bind_of_ok (run_heap m₁), run_bind_of_ok (run_get m₁)]
      generalize (m₁.heap.bounds.get b).receiver = receiver
      rw [run_bind_of_ok (run_setSlot _ _ _), h.bounds]
      unfold Heap.bodyOf at body
      simp only at body
      cases target : (m.heap.bounds.get b).target with
      | native f =>
        rw [target] at body
        cases body
      | closure f =>
        rw [target] at body
        cases body
        exact (answered_callClosure (h.setCallee below receiver) below proto false).andThen rfl
    | _ => cases body
  · rw [run_bind_of_error run]
    exact .confused disorder frames

/-- What becomes of an instantiation. -/
theorem answered_new {argc : Nat} {cls : Ref .cls} (room : argc < m.stack.size)
    (top : m.slot (m.stack.size - 1 - argc) = .cls cls) (body : m.heap.findConstructor cls = some r) :
    Answered m r (m.heap.protoOf r) (m.stack.size - argc) (m.window argc) () ((new argc).run m) := by
  have below : 0 < m.stack.size - argc := by omega
  unfold new
  rw [run_bind_of_ok (run_peek argc m), top]
  simp only
  have body' : m.heap.bodyOf (.cls cls) = some r := body
  rcases reorder_cases (Nat.le_of_lt room) body' rfl with
    ⟨args, m₁, run, h⟩ | ⟨c, m₁, run, disorder, frames⟩
  · rw [run_bind_of_ok run]
    refine answered_instantiate h below ((findConstructor_congr h.classes cls).trans body) ?_
    rw [Heap.protoOf, Heap.protoOf, h.closures]
  · rw [run_bind_of_error run]
    exact .confused disorder frames

end

end Exec

namespace Activity

/-! ## Calls of an activity -/

/-- The next move calls `callee` with the arguments `window`, the first of which is in slot `start`: an
instruction does, or a native function or the host from outside. -/
inductive Asks (a : Activity) : Value → Nat → List Value → Prop where
  | call {i : Instruction} {m : Machine} (control : a.control = .execute) (fetched : fetch.run a.machine = .ok i m)
      (op : i.op = .call) (room : i.a.toNat < m.stack.size) :
      Asks a (m.slot (m.stack.size - 1 - i.a.toNat)) (m.stack.size - i.a.toNat) (m.window i.a.toNat)
  | new {i : Instruction} {m : Machine} {r : Ref .cls} (control : a.control = .execute)
      (fetched : fetch.run a.machine = .ok i m) (op : i.op = .new) (room : i.a.toNat < m.stack.size)
      (callee : m.slot (m.stack.size - 1 - i.a.toNat) = .cls r) :
      Asks a (.cls r) (m.stack.size - i.a.toNat) (m.window i.a.toNat)
  | outside {callee : Value} {args : List Value} (control : a.control = .invoke callee args) :
      Asks a callee (a.machine.stack.size + 1) args

/-- A call from outside has not too many arguments. -/
def Admits (a : Activity) (window : List Value) : Prop :=
  a.control = .execute ∨ window.length ≤ maxArguments

/-- The next move begins the function `r` in the frame `f`, on top of the calls under way. -/
structure Begins (a : Activity) (r : Ref .closure) (b : Activity) (f : Frame) : Prop where
  step : a.step = .continue b
  control : b.control = .execute
  frames : ∃ rest, b.machine.frames = f :: rest ∧ SameCalls a.machine.frames rest
  closure : f.closure = r
  ip : f.ip = 0

/-- The next move fails with the error `e` and makes no frame. -/
def Refuses (a : Activity) (e : RuntimeError) : Prop :=
  ∃ m, a.step = .continue ⟨m, a.pending, .raise e⟩ ∧ SameCalls a.machine.frames m.frames

/-- What the next move does with a call of the function `r` with prototype `p`. -/
inductive Replies (a : Activity) (r : Ref .closure) (p : Proto) (start : Nat) (window : List Value) : Prop where
  | confused {c : Cause} {span : Span} (disorder : arrange p.params window = .error c)
      (refuses : a.Refuses ⟨c, span⟩)
  | refused {args : List Value} {span : Span} (order : arrange p.params window = .ok args)
      (arity : args.length < p.arity ∨ p.totalParams < args.length)
      (refuses : a.Refuses ⟨.wrongArity p.totalParams args.length, span⟩)
  | full {args : List Value} {span : Span} (order : arrange p.params window = .ok args)
      (arity : p.arity ≤ args.length ∧ args.length ≤ p.totalParams)
      (full : a.machine.config.maxStack < start + p.totalParams ∨
        a.machine.config.maxFrames ≤ a.machine.frames.length)
      (refuses : a.Refuses ⟨.stackOverflow, span⟩)
  | begun {args : List Value} {b : Activity} {f : Frame} (order : arrange p.params window = .ok args)
      (arity : p.arity ≤ args.length ∧ args.length ≤ p.totalParams) (begins : a.Begins r b f)
      (slots : ∀ i, i < p.totalParams → b.machine.slot (f.base + 1 + i) = args.getD i .null)

section

variable {a : Activity} {callee : Value} {start : Nat} {window : List Value} {r : Ref .closure} {p : Proto}

theorem replies_of_answered {α : Type} {v : α} {m : Machine} {result : EStateM.Result Fault Machine α}
    (answered : Answered m r p start window v result) (same : SameCalls a.machine.frames m.frames)
    (config : m.config = a.machine.config)
    (fails : ∀ e m', result = .error (.error e) m' → a.step = .continue ⟨m', a.pending, .raise e⟩)
    (goes : ∀ m', result = .ok v m' → m.frames.length < m'.frames.length →
      ∃ k, a.step = .continue ⟨{ m' with runBase := k }, a.pending, .execute⟩) :
    a.Replies r p start window := by
  have length := same.length_eq
  cases answered with
  | confused disorder frames => exact .confused disorder ⟨_, fails _ _ rfl, frames ▸ same⟩
  | refused order arity frames => exact .refused order arity ⟨_, fails _ _ rfl, frames ▸ same⟩
  | full order arity full frames =>
    rw [config, length] at full
    exact .full order arity full ⟨_, fails _ _ rfl, frames ▸ same⟩
  | @entered args m' f order arity frames closure ip base slots =>
    have deeper : m.frames.length < m'.frames.length := by
      rw [frames, List.length_cons]
      omega
    obtain ⟨k, step⟩ := goes m' rfl deeper
    refine .begun order arity ⟨step, rfl, ⟨m.frames, frames, same⟩, closure, ip⟩ fun i hi => ?_
    show m'.stack.getD (f.base + 1 + i) .null = _
    rw [base, Array.getD_eq_getD_getElem?, slots i hi]
    rfl

/-- A call of a value with a body is answered in one of four ways. -/
theorem Asks.replies (asks : a.Asks callee start window) (body : a.machine.heap.bodyOf callee = some r)
    (admits : a.Admits window) : a.Replies r (a.machine.heap.protoOf r) start window := by
  cases asks with
  | @call i m control fetched op room =>
    obtain ⟨fs, same, rfl⟩ := fetched_eq fetched (by simp [op])
    have answered := answered_call room rfl body
    have run : (execute i).run { a.machine with frames := fs } =
        (callProgress i.a.toNat).run { a.machine with frames := fs } := by rw [execute, op]
    have step := step_of_execute control
    rw [stepExecute, run_bind_of_ok fetched, run, callProgress] at step
    refine replies_of_answered answered same rfl (fun e m' failed => ?_) (fun m' gone _ => ⟨m'.runBase, ?_⟩)
    · rw [step, run_bind_of_error failed]
      rfl
    · rw [step, run_bind_of_ok gone]
      rfl
  | @new i m cls control fetched op room top =>
    obtain ⟨fs, same, rfl⟩ := fetched_eq fetched (by simp [op])
    have answered := answered_new room top body
    have run : (execute i).run { a.machine with frames := fs } =
        (andNext (Exec.new i.a.toNat)).run { a.machine with frames := fs } := by rw [execute, op]
    have step := step_of_execute control
    rw [stepExecute, run_bind_of_ok fetched, run, andNext] at step
    refine replies_of_answered answered same rfl (fun e m' failed => ?_) (fun m' gone _ => ⟨m'.runBase, ?_⟩)
    · rw [step, run_bind_of_error failed]
      rfl
    · rw [step, run_bind_of_ok gone]
      rfl
  | outside control =>
    rcases admits with executes | few
    · rw [control] at executes
      cases executes
    -- callee and arguments are put on the stack first
    obtain ⟨m, pushed⟩ : ∃ m : Machine,
        m = { a.machine with stack := a.machine.stack.push callee ++ window.toArray } := ⟨_, rfl⟩
    have begin' : (beginCall callee window).run a.machine = (Exec.call window.length).run m := by
      rw [beginCall, if_neg (Nat.not_lt.2 few), pushed]
      rfl
    have size : m.stack.size = a.machine.stack.size + 1 + window.length := by
      simp only [pushed, Array.size_append, Array.size_push, List.size_toArray]
    have frames : m.frames = a.machine.frames := by rw [pushed]
    have config : m.config = a.machine.config := by rw [pushed]
    have heap : m.heap = a.machine.heap := by rw [pushed]; rfl
    have top : m.slot (m.stack.size - 1 - window.length) = callee := by
      have at' : m.stack.size - 1 - window.length = a.machine.stack.size := by omega
      rw [at', slot, pushed, Array.getD_eq_getD_getElem?,
        Array.getElem?_append_left (by rw [Array.size_push]; omega), Array.getElem?_push_size]
      rfl
    have args : m.window window.length = window := by
      refine List.ext_getElem? fun i => ?_
      rw [← (loaded_window (by omega)).slots i, size, Nat.add_sub_cancel, pushed,
        Array.getElem?_append_right (by rw [Array.size_push]; omega), Array.size_push, Nat.add_sub_cancel_left,
        List.getElem?_toArray]
    have answered := answered_call (by omega) top (heap ▸ body)
    rw [args, heap, show m.stack.size - window.length = a.machine.stack.size + 1 by omega] at answered
    have step := step_of_invoke control
    rw [stepInvoke, begin'] at step
    have same : SameCalls a.machine.frames m.frames := by
      rw [frames]
      exact .refl _
    refine replies_of_answered answered same config (fun e m' failed => ?_)
      (fun m' gone deeper => ⟨a.machine.frames.length, ?_⟩)
    · rw [step, failed]
      rfl
    · rw [step, gone]
      simp only
      rw [if_pos (by rw [← frames]; exact deeper)]

/-! ## What was given -/

/-- A required parameter that was not given. -/
def Lacks (p : Proto) (g : Given) (i : Nat) : Prop := i < p.arity ∧ ∀ v, ¬g.Supplies p.params i v

/-- A required parameter was not given, but the last required one or one behind it was. -/
def Gapped (p : Proto) (g : Given) : Prop :=
  (∃ i, Lacks p g i) ∧ ∃ j v, p.arity ≤ j + 1 ∧ g.Supplies p.params j v

variable {g : Given} {args : List Value}

/-- Enough arguments have a gap, or they give every required parameter. -/
theorem gapped_of_lacks (arranged : Arranged p.params g args) (enough : p.arity ≤ args.length) {i : Nat}
    (lacks : Lacks p g i) : Gapped p g := by
  have lt := lacks.1
  obtain ⟨j, v, le, given⟩ := (arranged.reach (p.arity - 1)).1 (by omega)
  exact ⟨⟨i, lacks⟩, j, v, by omega, given⟩

theorem enough_of_gapped (arranged : Arranged p.params g args) (gapped : Gapped p g) :
    p.arity ≤ args.length := by
  obtain ⟨-, j, v, le, given⟩ := gapped
  have := (arranged.reach j).2 ⟨j, v, Nat.le_refl j, given⟩
  omega

/-- Where a required parameter was not given, the positional arguments end before it, and names reach
no further than the parameters. -/
theorem length_le_of_lacks (arranged : Arranged p.params g args) {i : Nat} (lacks : Lacks p g i) :
    args.length ≤ p.totalParams := by
  refine Nat.le_of_not_lt fun many => ?_
  obtain ⟨j, v, le, given⟩ := (arranged.reach p.totalParams).1 many
  rw [ProtoOf.totalParams] at le
  rcases given with here | ⟨name, -, place⟩
  · have lt := (List.getElem?_eq_some_iff.1 here).1
    have := lacks.1
    have inside : i < g.positional.length := by omega
    exact lacks.2 g.positional[i] (.inl (List.getElem?_eq_getElem inside))
  · have := (List.findIdx?_eq_some_iff_getElem.1 place).1
    omega

/-- The arguments that fit are those that were arranged. -/
theorem arranged_of_arrange (order : arrange p.params window = .ok args) (sorted : sortOut window = .ok g)
    (fits : g.Fits p.params) : Arranged p.params g args := by
  obtain ⟨args', order', arranged⟩ := arrange_of_fits sorted fits
  cases order.symm.trans order'
  exact arranged

/-- What a body finds in the slots of its parameters. -/
theorem slot_of_arranged (arranged : Arranged p.params g args) (i : Nat) :
    (∀ v, g.Supplies p.params i v → args.getD i .null = v) ∧
      ((∀ v, ¬g.Supplies p.params i v) → args.getD i .null = .null) := by
  rw [List.getD_eq_getElem?_getD]
  constructor
  · intro v given
    rw [arranged.given i v given]
    rfl
  · intro missing
    by_cases inside : i < args.length
    · rw [arranged.gaps i inside missing]
      rfl
    · rw [List.getElem?_eq_none (by omega)]
      rfl

theorem Asks.refuses_of_many (asks : a.Asks callee start window) (many : ¬a.Admits window) :
    a.Refuses ⟨.tooManyArguments window.length, a.machine.span⟩ := by
  rw [Admits, not_or, Nat.not_le] at many
  cases asks with
  | call control => exact absurd control many.1
  | new control => exact absurd control many.1
  | outside control =>
    refine ⟨a.machine, ?_, .refl _⟩
    rw [Activity.step, control]
    simp only [stepInvoke, beginCall, if_pos many.2]
    rfl

/-- A call that begins has arranged its arguments. -/
theorem Asks.arranged (asks : a.Asks callee start window) (body : a.machine.heap.bodyOf callee = some r)
    (proto : a.machine.heap.protoOf r = p) {b : Activity} {f : Frame} (begins : a.Begins r b f) :
    ∃ g args, sortOut window = .ok g ∧ g.Fits p.params ∧ Arranged p.params g args ∧ p.arity ≤ args.length ∧
      ∀ i, i < p.totalParams → b.machine.slot (f.base + 1 + i) = args.getD i .null := by
  have raised : ∀ {e : RuntimeError}, ¬a.Refuses e := by
    rintro e ⟨m, step, -⟩
    cases begins.step.symm.trans step
    exact nomatch begins.control
  by_cases admits : a.Admits window
  · cases proto ▸ asks.replies body admits with
    | confused _ refuses => exact absurd refuses raised
    | refused _ _ refuses => exact absurd refuses raised
    | full _ _ _ refuses => exact absurd refuses raised
    | @begun args b' f' order arity begins' slots =>
      cases begins.step.symm.trans begins'.step
      obtain ⟨rest, frames, -⟩ := begins.frames
      obtain ⟨rest', frames', -⟩ := begins'.frames
      cases frames.symm.trans frames'
      obtain ⟨g, sorted, fits⟩ := fits_of_arrange order
      exact ⟨g, args, sorted, fits, arranged_of_arrange order sorted fits, arity.1, slots⟩
  · exact absurd (asks.refuses_of_many admits) raised

/-- A call of a function begins or fails. If it begins, each required parameter was given, and has its
value, unless there is a gap among the arguments, which has null. If a required parameter was not
given, the call fails with a wrong arity, unless there is such a gap: then it begins if there is
room. -/
theorem required_given_or_gapped (asks : a.Asks callee start window)
    (body : a.machine.heap.bodyOf callee = some r) (proto : a.machine.heap.protoOf r = p) :
    ((∃ b f, a.Begins r b f) ∨ ∃ e, a.Refuses e) ∧
      (∀ b f, a.Begins r b f → ∃ g, sortOut window = .ok g ∧ g.Fits p.params ∧
        ∀ i, i < p.arity →
          (∃ v, g.Supplies p.params i v ∧ b.machine.slot (f.base + 1 + i) = v) ∨
            Gapped p g ∧ b.machine.slot (f.base + 1 + i) = .null) ∧
      ∀ g i, sortOut window = .ok g → g.Fits p.params → Lacks p g i → a.Admits window →
        (¬Gapped p g → ∃ n span, a.Refuses ⟨.wrongArity p.totalParams n, span⟩) ∧
          (Gapped p g → start + p.totalParams ≤ a.machine.config.maxStack →
            a.machine.frames.length < a.machine.config.maxFrames →
            ∃ b f, a.Begins r b f ∧ b.machine.slot (f.base + 1 + i) = .null) := by
  have required : ∀ {i}, i < p.arity → i < p.totalParams := fun hi => by
    rw [ProtoOf.totalParams]
    omega
  refine ⟨?_, fun b f begins => ?_, fun g i sorted fits lacks admits => ?_⟩
  · by_cases admits : a.Admits window
    · cases asks.replies body admits with
      | confused _ refuses => exact .inr ⟨_, refuses⟩
      | refused _ _ refuses => exact .inr ⟨_, refuses⟩
      | full _ _ _ refuses => exact .inr ⟨_, refuses⟩
      | begun _ _ begins => exact .inl ⟨_, _, begins⟩
    · exact .inr ⟨_, asks.refuses_of_many admits⟩
  · obtain ⟨g, args, sorted, fits, arranged, enough, slots⟩ := asks.arranged body proto begins
    refine ⟨g, sorted, fits, fun i hi => ?_⟩
    rw [slots i (required hi)]
    by_cases given : ∃ v, g.Supplies p.params i v
    · obtain ⟨v, given⟩ := given
      exact .inl ⟨v, given, (slot_of_arranged arranged i).1 v given⟩
    · rw [not_exists] at given
      exact .inr ⟨gapped_of_lacks arranged enough ⟨hi, given⟩, (slot_of_arranged arranged i).2 given⟩
  · have replies := proto ▸ asks.replies body admits
    obtain ⟨args, order, arranged⟩ := arrange_of_fits sorted fits
    have few := length_le_of_lacks arranged lacks
    constructor
    · intro whole
      cases replies with
      | confused disorder => cases order.symm.trans disorder
      | refused _ _ refuses => exact ⟨_, _, refuses⟩
      | full order' arity =>
        cases order.symm.trans order'
        exact absurd (gapped_of_lacks arranged arity.1 lacks) whole
      | begun order' arity =>
        cases order.symm.trans order'
        exact absurd (gapped_of_lacks arranged arity.1 lacks) whole
    · intro gapped room calls
      have enough := enough_of_gapped arranged gapped
      cases replies with
      | confused disorder => cases order.symm.trans disorder
      | refused order' arity =>
        cases order.symm.trans order'
        omega
      | full _ _ full => omega
      | begun order' _ begins slots =>
        cases order.symm.trans order'
        refine ⟨_, _, begins, ?_⟩
        rw [slots i (required lacks.1)]
        exact (slot_of_arranged arranged i).2 lacks.2

/-- A call of a function of two required parameters `a` and `b` with one argument, given by its
name. -/
def namingCall (name : Text) : Activity :=
  startCall
    { world := { heap := { closures := ⟨#[{ proto := { id := 0, arity := 2, params := ["a", "b"] } }]⟩ } } }
    (.closure ⟨0⟩) [.namedArg name, .bool true]

/-- The parameters of the function that `namingCall` calls. -/
abbrev namingParams : List Text := ["a", "b"]

/-- One named argument gives one parameter. -/
theorem supplies_single {name : Text} {v w : Value} {i k : Nat}
    (place : namingParams.findIdx? (· = name) = some k)
    (given : Given.Supplies { named := [(name, v)] } namingParams i w) : i = k := by
  rcases given with here | ⟨other, mem, at'⟩
  · cases here
  · cases List.mem_singleton.1 mem
    exact Option.some.inj (at'.symm.trans place)

theorem fits_single {name : Text} {v : Value} {k : Nat} (place : namingParams.findIdx? (· = name) = some k) :
    Given.Fits { named := [(name, v)] } namingParams := by
  refine ⟨fun e he => ⟨k, ?_, Nat.zero_le k⟩, List.nodup_cons.2 ⟨List.not_mem_nil, List.nodup_nil⟩⟩
  cases List.mem_singleton.1 he
  exact place

/-- With only `a` given, the call fails with a wrong arity. -/
theorem required_given_or_gapped_namingFirst :
    ∃ n span, (namingCall "a").Refuses ⟨.wrongArity 2 n, span⟩ := by
  have place : namingParams.findIdx? (· = ("a" : Text)) = some 0 := by decide
  have asks : (namingCall "a").Asks (.closure ⟨0⟩) 1 [.namedArg "a", .bool true] := .outside rfl
  refine ((required_given_or_gapped asks rfl rfl).2.2 { named := [("a", .bool true)] } 1 rfl (fits_single place)
    ⟨Nat.lt_add_one 1, fun v given => ?_⟩ (.inr (by decide))).1 ?_
  · exact nomatch supplies_single place given
  · rintro ⟨-, j, v, behind, given⟩
    cases supplies_single place given
    exact absurd behind (by decide)

/-- With only `b` given, the call begins, although `a` is required. -/
theorem namingSecond_begins_without_first :
    ∃ b f, (namingCall "b").Asks (.closure ⟨0⟩) 1 [.namedArg "b", .bool true] ∧
      (namingCall "b").machine.heap.bodyOf (.closure ⟨0⟩) = some ⟨0⟩ ∧ (namingCall "b").Begins ⟨0⟩ b f ∧
      ∃ g, sortOut [.namedArg "b", .bool true] = .ok g ∧
        g.Fits ((namingCall "b").machine.heap.protoOf ⟨0⟩).params ∧
        Lacks ((namingCall "b").machine.heap.protoOf ⟨0⟩) g 0 := by
  have place : namingParams.findIdx? (· = ("b" : Text)) = some 1 := by decide
  refine ⟨(namingCall "b").after 1, ⟨⟨0⟩, 0, 0, false, 0⟩, .outside rfl, rfl, ?_,
    { named := [("b", .bool true)] }, rfl, fits_single place, Nat.zero_lt_two, fun v given => ?_⟩
  · exact ⟨rfl, rfl, ⟨[], rfl, .nil⟩, rfl, rfl⟩
  · exact nomatch supplies_single place given

end

end Activity

end ScriptVm
