import ScriptVm.Proofs.StackEffects

/-!
# Instructions and their operands

What an instruction makes of the operands on top of the stack, for instructions that change nothing else. The
machine `m` of a statement is always the one below the operands. So `Exec.Gives` and `Exec.Refuses` say what
becomes of everything else as well: it stays as it is. `Exec.Answers` says all that an instruction can do.
-/

set_option autoImplicit false

namespace ScriptVm

/-- The machine with operands on top of its stack, the last one uppermost. -/
def Machine.withOperands (m : Machine) (vs : List Value) : Machine :=
  { m with stack := vs.foldl Array.push m.stack }

namespace Exec

variable {m m' : Machine} {f : Value → Value → Exec Value} {a b v w : Value} {vs : List Value} {i : Instruction}
  {c d : Cause} {e : Fault} {result : Value → Prop} {failure : Cause → Prop}

/-- The instruction takes the operands off the stack and pushes a value. -/
def Gives (i : Instruction) (vs : List Value) (v : Value) (m : Machine) : Prop :=
  (execute i).run (m.withOperands vs) = .ok .next (m.withOperands [v])

/-- The instruction takes the operands off the stack and fails where it stands. -/
def Refuses (i : Instruction) (vs : List Value) (c : Cause) (m : Machine) : Prop :=
  (execute i).run (m.withOperands vs) = .error (.error ⟨c, m.span⟩) m

theorem Gives.unique (h : Gives i vs v m) (h' : Gives i vs w m) : v = w := by
  have same := h.symm.trans h'
  injection same with _ same
  have pushed : m.stack.push v = m.stack.push w := congrArg Machine.stack same
  exact (Array.push_eq_push.1 pushed).1

theorem Refuses.unique (h : Refuses i vs c m) (h' : Refuses i vs d m) : c = d := by
  have same := h.symm.trans h'
  injection same with same
  injection same with same
  injection same

theorem Gives.not_refuses (h : Gives i vs v m) : ¬Refuses i vs c m := fun h' => nomatch h.symm.trans h'

/-- What an instruction makes of its operands: `result` says which value it gives, `failure` why it fails. -/
structure Answers (i : Instruction) (vs : List Value) (result : Value → Prop) (failure : Cause → Prop)
    (m : Machine) : Prop where
  gives : ∀ v, Gives i vs v m ↔ result v
  refuses : ∀ c, Refuses i vs c m ↔ failure c
  ends : (∃ v, Gives i vs v m) ∨ ∃ c, Refuses i vs c m

theorem answers_of_gives (h : Gives i vs v m) (only : ∀ w, result w ↔ w = v) (never : ∀ c, ¬failure c) :
    Answers i vs result failure m where
  gives w := by
    rw [only]
    exact ⟨fun h' => h'.unique h, fun same => same ▸ h⟩
  refuses c := ⟨fun h' => absurd h' h.not_refuses, fun h' => absurd h' (never c)⟩
  ends := .inl ⟨v, h⟩

theorem answers_of_refuses (h : Refuses i vs c m) (only : ∀ d, failure d ↔ d = c) (never : ∀ v, ¬result v) :
    Answers i vs result failure m where
  gives w := ⟨fun h' => absurd h h'.not_refuses, fun h' => absurd h' (never w)⟩
  refuses d := by
    rw [only]
    exact ⟨fun h' => h'.unique h, fun same => same ▸ h⟩
  ends := .inr ⟨c, h⟩

theorem Answers.congr {result' : Value → Prop} {failure' : Cause → Prop} (h : Answers i vs result failure m)
    (results : ∀ v, result v ↔ result' v) (failures : ∀ c, failure c ↔ failure' c) :
    Answers i vs result' failure' m where
  gives v := (h.gives v).trans (results v)
  refuses c := (h.refuses c).trans (failures c)
  ends := h.ends

/-- Popping takes the last operand. -/
theorem run_pop_withOperands (vs : List Value) (v : Value) (m : Machine) :
    pop.run (m.withOperands (vs ++ [v])) = .ok v (m.withOperands vs) := by
  rw [run_pop]
  unfold Machine.withOperands Machine.top
  simp only [List.foldl_append, List.foldl_cons, List.foldl_nil, Array.back?_push, Array.pop_push,
    Option.getD_some]

theorem stack_withOperands (vs : List Value) (m : Machine) : (m.withOperands vs).stack = m.stack ++ vs.toArray := by
  have pushed : (m.withOperands vs).stack = vs.foldl (fun st v => st.push (id v)) m.stack := rfl
  rw [pushed, List.foldl_push_eq_append, List.map_id]

theorem size_withOperands (vs : List Value) (m : Machine) :
    (m.withOperands vs).stack.size = m.stack.size + vs.length := by
  rw [stack_withOperands]
  simp

/-- Looking at as many values as there are operands gives the operands. -/
theorem run_peekMany_withOperands (vs : List Value) (m : Machine) :
    (peekMany vs.length).run (m.withOperands vs) = .ok vs (m.withOperands vs) := by
  rw [run_peekMany, size_withOperands, stack_withOperands, Nat.add_sub_cancel, Array.extract_append]
  simp

/-- Without its operands the stack is the one below. -/
theorem shrink_withOperands (vs : List Value) (m : Machine) : (m.withOperands vs).stack.shrink m.stack.size = m.stack := by
  rw [stack_withOperands]
  simp

/-- Cutting the stack takes the operands off. -/
theorem run_resize_withOperands (vs : List Value) (m : Machine) :
    (resize m.stack.size).run (m.withOperands vs) = .ok () m := by
  have below : m.stack.size ≤ (m.withOperands vs).stack.size := by
    rw [size_withOperands]
    exact Nat.le_add_right _ _
  have cut : Machine.resized (m.withOperands vs).stack m.stack.size = m.stack := by
    rw [Machine.resized, if_pos below, shrink_withOperands]
  show EStateM.Result.ok () { m.withOperands vs with stack := Machine.resized (m.withOperands vs).stack m.stack.size } = _
  rw [cut]
  rfl

/-- Operands are exchanged for others. -/
theorem run_exchange_withOperands (vs ws : List Value) (m : Machine) :
    (modify fun o : Machine => { o with stack := o.stack.shrink m.stack.size ++ ws.toArray } : Exec Unit).run
      (m.withOperands vs) = .ok () (m.withOperands ws) := by
  show EStateM.Result.ok () { m.withOperands vs with
    stack := (m.withOperands vs).stack.shrink m.stack.size ++ ws.toArray } = _
  rw [shrink_withOperands, ← stack_withOperands]
  rfl

theorem run_binary (f : Value → Value → Exec Value) (a b : Value) (m : Machine) :
    (binary f).run (m.withOperands [a, b]) = (do push (← f a b); return .next : Exec Progress).run m := by
  unfold binary
  exact (run_bind_of_ok (run_pop_withOperands [a] b m)).trans (run_bind_of_ok (run_pop_withOperands [] a m))

theorem run_binary_of_ok (run : (f a b).run m = .ok v m') :
    (binary f).run (m.withOperands [a, b]) = .ok .next (m'.withOperands [v]) := by
  rw [run_binary, run_bind_of_ok run]
  rfl

theorem run_binary_of_error (run : (f a b).run m = .error e m') :
    (binary f).run (m.withOperands [a, b]) = .error e m' := by
  rw [run_binary, run_bind_of_error run]

theorem gives_of_binary (binary : execute i = binary f) (run : (f a b).run m = .ok v m) : Gives i [a, b] v m := by
  rw [Gives, binary]
  exact run_binary_of_ok run

theorem refuses_of_binary (binary : execute i = binary f) (run : (f a b).run m = (fail c : Exec Value).run m) :
    Refuses i [a, b] c m := by
  rw [Refuses, binary]
  exact run_binary_of_error run

end Exec

end ScriptVm
