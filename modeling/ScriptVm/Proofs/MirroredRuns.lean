import ScriptVm.Proofs.MirroredInstructions
import ScriptVm.Proofs.OpenCells

/-!
# Runs that are the same on related backings

From single instructions to moves, and from moves to runs: two activities that differ in related
backings move together, and so their runs end alike or do not end.

`Activity.together_of` says what is left to the relation at hand, and `Activity.run_together` carries
it along a run.
-/

set_option autoImplicit false

namespace ScriptVm

open Exec Machine

/-! ## The name that an operand selects -/

/-- The text that an operand selects. -/
def Machine.nameAt? (m : Machine) (i : Nat) : Option Text :=
  (m.protoOf (m.frames.headD default)).chunk.constants[i]?.bind Constant.text?

namespace Exec

/-- The name that an operand selects, or a fault. -/
theorem constantName_cases (m : Machine) (i : Nat) :
    (∃ t, m.nameAt? i = some t ∧ (constantName i).run m = .ok t m) ∨
      m.nameAt? i = none ∧ ∃ f, (constantName i).run m = .error f m := by
  have proto : Exec.proto.run m = .ok (m.protoOf (m.frames.headD default)) m := rfl
  have selected : (constant i).run m =
      (m.protoOf (m.frames.headD default)).chunk.constants[i]?.elim (.error .missingConstant m) (.ok · m) := by
    unfold constant
    rw [run_bind_of_ok proto]
    cases (m.protoOf (m.frames.headD default)).chunk.constants[i]? <;> rfl
  unfold Machine.nameAt? constantName
  cases constant : (m.protoOf (m.frames.headD default)).chunk.constants[i]? with
  | none =>
    rw [constant] at selected
    exact .inr ⟨rfl, _, run_bind_of_error selected⟩
  | some k =>
    rw [constant] at selected
    rw [Option.bind_some, run_bind_of_ok selected]
    cases k.text? with
    | some t => exact .inl ⟨t, rfl, rfl⟩
    | none => exact .inr ⟨rfl, _, rfl⟩

theorem run_constantName {m : Machine} {i : Nat} {t : Text} (named : m.nameAt? i = some t) :
    (constantName i).run m = .ok t m := by
  obtain ⟨t', named', run⟩ | ⟨nameless, -⟩ := constantName_cases m i
  · cases named.symm.trans named'
    exact run
  · cases named.symm.trans nameless

end Exec

/-! ## Moves -/

/-- The activity on another backing. -/
def Activity.on (a : Activity) (b : Backing) : Activity := { a with machine := a.machine.on b }

/-- Two moves that differ in related backings. -/
inductive Move.Twin (R : Backing → Backing → Prop) : Move → Move → Prop where
  | continue {a : Activity} {b : Backing} (rel : R a.machine.backing b) : Twin R (.continue a) (.continue (a.on b))
  | done (o : Outcome) {m : Machine} {b : Backing} (rel : R m.backing b) : Twin R (.done o m) (.done o (m.on b))

namespace Activity

variable {K : Constant → Constant → Prop} {R : Backing → Backing → Prop} {a : Activity} {m m' : Machine}

/-- The activity moves in the same way on related backings. -/
def Together (R : Backing → Backing → Prop) (a : Activity) : Prop :=
  ∀ b, R a.machine.backing b → Move.Twin R a.step (a.on b).step

/-- What the native function does that the next move calls. -/
def nativeCalled? (a : Activity) : Option NativeBody :=
  match a.control with
  | .execute =>
    match fetch.run a.machine with
    | .ok i m => if i.op = .call then m.heap.nativeBody? (m.slot (m.stack.size - 1 - i.a.toNat)) else none
    | .error _ _ => none
  | .invoke callee _ => a.machine.heap.nativeBody? callee
  | _ => none

theorem twin_continue (h : m.Twin R m') (pending : List Pending) (control : Control) :
    Move.Twin R (.continue ⟨m, pending, control⟩) (.continue ⟨m', pending, control⟩) := by
  obtain ⟨b, rfl, hb⟩ := h
  exact .continue (a := ⟨m, pending, control⟩) hb

theorem twin_done (h : m.Twin R m') (o : Outcome) : Move.Twin R (.done o m) (.done o m') := by
  obtain ⟨b, rfl, hb⟩ := h
  exact .done o hb

theorem twin_onFault (h : m.Twin R m') (f : Fault) (pending : List Pending) :
    Move.Twin R (onFault f m pending) (onFault f m' pending) := by
  cases f with
  | error e => exact twin_continue h pending _
  | missingConstant =>
    have outer : outerBase m' pending = outerBase m pending := by
      obtain ⟨b, rfl, -⟩ := h
      rfl
    unfold onFault
    rw [outer]
    exact twin_done (h.map (g := fun m' => { m' with runBase := outerBase m pending }) (fun _ _ => rfl) rfl) _

theorem twin_reenter (h : m.Twin R m') (pending : List Pending) (r : Reentry) (byEntry : Bool) :
    Move.Twin R (reenter m pending r byEntry) (reenter m' pending r byEntry) := by
  obtain ⟨b, rfl, hb⟩ := h
  cases r <;> exact twin_continue (.of_rel hb) _ _

theorem twin_complete (h : m.Twin R m') (pending : List Pending) (byEntry : Bool) (v : Value) :
    Move.Twin R (complete m pending byEntry v) (complete m' pending byEntry v) := by
  cases byEntry with
  | true => exact twin_continue h _ _
  | false => exact twin_continue (h.map (g := fun m => { m with stack := m.stack.push v }) (fun _ _ => rfl) rfl) _ _

theorem twin_resume (h : m.Twin R m') (pending : List Pending) (caller : Caller) (v : Value) :
    Move.Twin R (resume m pending caller v) (resume m' pending caller v) := by
  cases caller with
  | instruction c => exact twin_complete h pending false v
  | own => exact twin_continue h _ _
  | _ => exact twin_complete h pending true v

theorem twin_stepDeliver (h : m.Twin R m') (pending : List Pending) (v : Value) :
    Move.Twin R (stepDeliver m pending v) (stepDeliver m' pending v) := by
  cases pending with
  | nil => exact twin_done h _
  | cons p rest =>
    have kept := h.map (g := fun m => { m with runBase := p.runBase }) (fun _ _ => rfl) rfl
    unfold stepDeliver
    simp only
    split
    · exact twin_done (kept.map (g := fun m => { m with stack := #[] }) (fun _ _ => rfl) rfl) _
    · exact twin_done kept _
    · exact twin_resume kept rest _ v
    · exact twin_resume kept rest _ v
    · exact twin_resume kept rest _ v

section

variable (hB : Bisimulation K R)
include hB

theorem twin_stepExecute (h : m.Twin R m') (pending : List Pending)
    (same : ∀ i m₁, fetch.run m = .ok i m₁ → Same R (execute i) m₁) :
    Move.Twin R (stepExecute m pending) (stepExecute m' pending) := by
  obtain ⟨b, rfl, hb⟩ := h
  have ends := (same_fetch hB).bind same b hb
  unfold stepExecute
  generalize (fetch >>= execute).run m = r at ends ⊢
  generalize (fetch >>= execute).run (m.on b) = r' at ends ⊢
  cases ends with
  | ok values rel =>
    subst values
    rename_i progress m₁ b₁
    cases progress with
    | next => exact twin_continue (.of_rel rel) _ _
    | returned v => exact twin_continue (.of_rel rel) _ _
    | reenter r => exact twin_reenter (.of_rel rel) _ _ _
  | error f rel => exact twin_onFault (.of_rel rel) f pending

omit hB in
/-- The callee of a call from outside is where the call looks for it. -/
theorem slot_of_callee (m : Machine) (callee : Value) (args : List Value) :
    ({ m with stack := m.stack.push callee ++ args.toArray } : Machine).slot
      ((m.stack.push callee ++ args.toArray).size - 1 - args.length) = callee := by
  have index : (m.stack.push callee ++ args.toArray).size - 1 - args.length = m.stack.size := by
    simp only [Array.size_append, Array.size_push, List.size_toArray]
    omega
  unfold slot
  rw [index, Array.getD_eq_getD_getElem?, Array.getElem?_append_left (by simp), Array.getElem?_push_size]
  rfl

theorem same_beginCall (callee : Value) (args : List Value)
    (numbers : ∀ body, m.heap.nativeBody? callee = some body → body.tells = true →
      ∀ args m', Same R (plainNative body args) m') : Same R (beginCall callee args) m := by
  unfold beginCall
  split
  · exact same_fail hB _
  · refine (same_restack fun st => st.push callee ++ args.toArray).bind fun _ m₁ h₁ => ?_
    cases h₁
    refine same_call hB args.length fun body found => numbers body ?_
    rw [slot_of_callee] at found
    exact found

theorem twin_stepInvoke (h : m.Twin R m') (pending : List Pending) (callee : Value) (args : List Value)
    (numbers : ∀ body, m.heap.nativeBody? callee = some body → body.tells = true →
      ∀ args m', Same R (plainNative body args) m') :
    Move.Twin R (stepInvoke m pending callee args) (stepInvoke m' pending callee args) := by
  obtain ⟨b, rfl, hb⟩ := h
  have ends := same_beginCall hB callee args numbers b hb
  have depth : (m.on b).frames.length = m.frames.length := rfl
  unfold stepInvoke
  generalize (beginCall callee args).run m = r at ends ⊢
  generalize (beginCall callee args).run (m.on b) = r' at ends ⊢
  cases ends with
  | ok values rel =>
    subst values
    rename_i request m₁ b₁
    have twin : m₁.Twin R (m₁.on b₁) := .of_rel rel
    cases request with
    | none =>
      have depth₁ : (m₁.on b₁).frames.length = m₁.frames.length := rfl
      simp only [depth, depth₁]
      split
      · exact twin_continue
          (twin.map (g := fun m' => { m' with runBase := m.frames.length }) (fun _ _ => rfl) rfl) _ _
      · exact twin_continue (twin.map (g := fun m => { m with stack := m.stack.pop }) (fun _ _ => rfl) rfl) _ _
    | some r => exact twin_reenter twin _ _ _
  | error f rel => exact twin_onFault (.of_rel rel) f pending

theorem twin_stepCallbackError (h : m.Twin R m') (pending : List Pending) (p : Pending) (c : Callback)
    (e : RuntimeError) :
    Move.Twin R (stepCallbackError m pending p c e) (stepCallbackError m' pending p c e) := by
  have twin := (h.recordError hB e).unwindTo hB p.depths
  unfold stepCallbackError
  generalize (m.recordError e).unwindTo p.depths = m₁ at twin ⊢
  generalize (m'.recordError e).unwindTo p.depths = m₁' at twin ⊢
  obtain ⟨b₁, rfl, hb₁⟩ := twin
  have ends := same_callbackError hB c e b₁ hb₁
  generalize (callbackError c e).run m₁ = r at ends ⊢
  generalize (callbackError c e).run (m₁.on b₁) = r' at ends ⊢
  cases ends with
  | ok values rel =>
    subst values
    exact twin_resume (.of_rel rel) pending _ _
  | error f rel => exact twin_onFault (.of_rel rel) f pending

theorem twin_stepRaise (h : m.Twin R m') (pending : List Pending) (e : RuntimeError) :
    Move.Twin R (stepRaise m pending e) (stepRaise m' pending e) := by
  cases pending with
  | nil => exact twin_done h _
  | cons p rest =>
    have kept := h.map (g := fun m => { m with runBase := p.runBase }) (fun _ _ => rfl) rfl
    unfold stepRaise
    simp only
    split
    · exact twin_done ((kept.recordError hB e).map (g := reset) (fun _ _ => rfl) rfl) _
    · exact twin_done ((kept.recordError hB e).unwindTo hB p.depths) _
    · exact twin_stepCallbackError hB kept rest p _ e
    · exact twin_stepCallbackError hB kept rest p _ e
    · exact twin_continue ((kept.recordError hB e).unwindTo hB p.depths) _ _

/-- A move is the same on related backings, if the special instruction that it executes is and the
native function that it calls does not tell different numbers. -/
theorem together_of (special : ∀ i m₁, a.control = .execute → fetch.run a.machine = .ok i m₁ →
      i.isSpecial = true → Same R (execute i) m₁)
    (numbers : ∀ body, a.nativeCalled? = some body → body.tells = true →
      ∀ args m', Same R (plainNative body args) m') : a.Together R := by
  intro b hb
  obtain ⟨m, pending, control⟩ := a
  have twin : m.Twin R (m.on b) := .of_rel hb
  cases control with
  | execute =>
    refine twin_stepExecute hB twin pending fun i m₁ fetched => ?_
    refine same_execute hB i (special i m₁ rfl fetched) fun call body found => numbers body ?_
    unfold nativeCalled?
    simp only [fetched, call]
    exact found
  | invoke callee args => exact twin_stepInvoke hB twin pending callee args numbers
  | ask byEntry c => exact twin_complete twin pending byEntry .null
  | deliver v => exact twin_stepDeliver twin pending v
  | raise e => exact twin_stepRaise hB twin pending e

end

/-! ## Runs -/

/-- How two runs end that move together. -/
inductive Concludes (R : Backing → Backing → Prop) :
    Option (Outcome × Machine) → Option (Outcome × Machine) → Prop where
  | unfinished : Concludes R none none
  | finished (o : Outcome) {m : Machine} {b : Backing} (rel : R m.backing b) :
      Concludes R (some (o, m)) (some (o, m.on b))

/-- Activities that move together all along end alike. -/
theorem run_together {fuel : Nat} {b : Backing} (together : ∀ x ∈ a.moves fuel, x.Together R)
    (hb : R a.machine.backing b) : Concludes R (a.run fuel) ((a.on b).run fuel) := by
  induction fuel generalizing a b with
  | zero => exact .unfinished
  | succ fuel ih =>
    have twin := together a (by unfold moves; split <;> simp) b hb
    unfold run
    cases step : a.step with
    | «continue» x =>
      rw [step] at twin
      generalize (a.on b).step = move at twin ⊢
      cases twin with
      | «continue» rel =>
        refine ih (fun y hy => together y ?_) rel
        unfold moves
        rw [step]
        exact List.mem_append_left _ hy
    | done o m =>
      rw [step] at twin
      generalize (a.on b).step = move at twin ⊢
      cases twin with
      | done o rel => exact .finished o rel

/-- Every activity of the run has a related backing. -/
theorem related_of_moves {fuel : Nat} {b : Backing} (together : ∀ x ∈ a.moves fuel, x.Together R)
    (hb : R a.machine.backing b) : ∀ x ∈ a.moves fuel, ∃ b', R x.machine.backing b' := by
  induction fuel generalizing a b with
  | zero => exact fun x hx => nomatch hx
  | succ fuel ih =>
    have twin := together a (by unfold moves; split <;> simp) b hb
    unfold moves at together ⊢
    cases step : a.step with
    | «continue» y =>
      rw [step] at twin together
      generalize (a.on b).step = move at twin
      cases twin with
      | «continue» rel =>
        intro x hx
        rcases List.mem_append.1 hx with hx | hx
        · exact ih (fun z hz => together z (List.mem_append_left _ hz)) rel x hx
        · obtain rfl := List.mem_singleton.1 hx
          exact ⟨b, hb⟩
    | done o m =>
      intro x hx
      obtain rfl := List.mem_singleton.1 hx
      exact ⟨b, hb⟩

end Activity

end ScriptVm
