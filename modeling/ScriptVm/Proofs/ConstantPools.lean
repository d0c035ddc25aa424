import ScriptVm.Bytecode.Blueprint
import ScriptVm.Proofs.Transcripts

/-!
# Constant pools

While a chunk is put together, instructions are emitted and patched and constants are added to its pool, in any order.
An addition does one of three things (`addConstant_cases`): it finds a text that is there already, appends the constant,
or refuses because the pool is full. So a pool never has more constants than an operand can select and no text twice
(`WellPooled`), and it only ever grows at its end: an index that was answered selects the same constant for good.
-/

set_option autoImplicit false

namespace ScriptVm

theorem Constant.text?_eq_some_iff {k : Constant} {t : Text} : k.text? = some t ↔ k = .text t := by
  cases k <;> simp [text?]

namespace Chunk

/-! ## Edits -/

/-- A step in the making of a chunk. -/
inductive Edit where
  | emit (i : Instruction) (line : Nat)
  | patchOperand (ip : Nat) (a : UInt16)
  | patchJump (ip : Nat)
  | addConstant (k : Constant)
  | addText (t : Text)

/-- The constant that an edit adds. -/
def Edit.added? : Edit → Option Constant
  | .addConstant k => some k
  | .addText t => some (.text t)
  | _ => none

/-- The chunk after an edit. Additions have an answer, the index of the constant or a refusal. -/
def serve (c : Code) : Edit → Option (Except Refusal Nat) × Code
  | .emit i line => (none, (c.emit i line).2)
  | .patchOperand ip a => (none, c.patchOperand ip a)
  | .patchJump ip => (none, c.patchJump ip)
  | .addConstant k => (some (c.addConstant k).1, (c.addConstant k).2)
  | .addText t => (some (c.addText t).1, (c.addText t).2)

/-- The chunk that edits make of the empty one. -/
def after (edits : List Edit) : Code := Transcript.after serve {} edits

/-- The answers to edits of the empty chunk. -/
def answers (edits : List Edit) : List (Option (Except Refusal Nat)) := Transcript.answers serve {} edits

/-- The edit number `n` adds the constant `k` and is answered `r`. -/
def Adds (edits : List Edit) (n : Nat) (k : Constant) (r : Except Refusal Nat) : Prop :=
  ∃ e, edits[n]? = some e ∧ e.added? = some k ∧ (answers edits)[n]? = some (some r)

/-- The constant is a text of the pool. -/
def HasText (c : Code) (k : Constant) : Prop := k.text?.isSome ∧ k ∈ c.constants

variable {c : Code} {k k' : Constant} {e : Edit} {edits : List Edit} {i j m n : Nat} {r : Except Refusal Nat}

theorem serve_of_added (h : e.added? = some k) : c.serve e = (some (c.addConstant k).1, (c.addConstant k).2) := by
  cases e <;> cases h <;> rfl

theorem constants_serve (h : e.added? = none) : (c.serve e).2.constants = c.constants := by
  cases e <;> first | rfl | cases h

/-! ## Additions -/

theorem appendConstant_cases (c : Code) (k : Constant) :
    (c.constants.size < capacity ∧
      c.appendConstant k = (.ok c.constants.size, { c with constants := c.constants.push k })) ∨
    (capacity ≤ c.constants.size ∧ c.appendConstant k = (.error .tooManyConstants, c)) := by
  unfold appendConstant
  split
  next room => exact .inl ⟨room, rfl⟩
  next full => exact .inr ⟨Nat.le_of_not_lt full, rfl⟩

/-- What adding a constant can do: find it, append it, or refuse it. -/
theorem addConstant_cases (c : Code) (k : Constant) :
    (∃ i, c.HasText k ∧ c.constants[i]? = some k ∧ c.addConstant k = (.ok i, c)) ∨
    (¬ c.HasText k ∧ c.constants.size < capacity ∧
      c.addConstant k = (.ok c.constants.size, { c with constants := c.constants.push k })) ∨
    (¬ c.HasText k ∧ capacity ≤ c.constants.size ∧ c.addConstant k = (.error .tooManyConstants, c)) := by
  have appends (new : ¬ c.HasText k) (h : c.addConstant k = c.appendConstant k) :
      (¬ c.HasText k ∧ c.constants.size < capacity ∧
        c.addConstant k = (.ok c.constants.size, { c with constants := c.constants.push k })) ∨
      (¬ c.HasText k ∧ capacity ≤ c.constants.size ∧ c.addConstant k = (.error .tooManyConstants, c)) := by
    rw [h]
    rcases appendConstant_cases c k with ⟨room, done⟩ | ⟨full, done⟩
    · exact .inl ⟨new, room, done⟩
    · exact .inr ⟨new, full, done⟩
  cases k with
  | text t =>
    have run : c.addConstant (.text t) = c.addText t := rfl
    cases found : c.constants.findIdx? fun k => k.text? = some t with
    | some i =>
      left
      obtain ⟨inside, is, -⟩ := Array.findIdx?_eq_some_iff_getElem.1 found
      have there : c.constants[i] = .text t := Constant.text?_eq_some_iff.1 (of_decide_eq_true is)
      refine ⟨i, ⟨rfl, there ▸ Array.getElem_mem inside⟩, by rw [Array.getElem?_eq_getElem inside, there], ?_⟩
      rw [run, addText, found]
    | none =>
      right
      apply appends
      · rintro ⟨-, mem⟩
        have other := Array.findIdx?_eq_none_iff.1 found _ mem
        simp [Constant.text?] at other
      · rw [run, addText, found]
  | _ =>
    right
    apply appends
    · rintro ⟨isText, -⟩
      cases isText
    · rfl

/-- A constant that is there stays where it is. -/
theorem getElem?_addConstant (h : c.constants[i]? = some k') : (c.addConstant k).2.constants[i]? = some k' := by
  obtain ⟨inside, -⟩ := Array.getElem?_eq_some_iff.1 h
  rcases addConstant_cases c k with ⟨_, -, -, done⟩ | ⟨-, -, done⟩ | ⟨-, -, done⟩
  · rw [done]
    exact h
  · rw [done]
    rw [Array.getElem?_eq_getElem inside] at h
    exact (Array.getElem?_push_lt inside).trans h
  · rw [done]
    exact h

/-- The index that is answered selects the constant. -/
theorem getElem?_of_addConstant (h : (c.addConstant k).1 = .ok i) : (c.addConstant k).2.constants[i]? = some k := by
  rcases addConstant_cases c k with ⟨_, -, there, done⟩ | ⟨-, -, done⟩ | ⟨-, -, done⟩ <;> rw [done] at h ⊢ <;> cases h
  · exact there
  · simp

/-- A constant that is no text goes to the end. -/
theorem eq_size_of_addConstant (other : k.text? = none) (h : (c.addConstant k).1 = .ok i) : i = c.constants.size := by
  rcases addConstant_cases c k with ⟨_, ⟨isText, -⟩, -⟩ | ⟨-, -, done⟩ | ⟨-, -, done⟩
  · rw [other] at isText
    cases isText
  · rw [done] at h
    cases h
    rfl
  · rw [done] at h
    cases h

/-! ## Pools -/

/-- The constants can all be selected, and no text is there twice. -/
structure WellPooled (c : Code) : Prop where
  size : c.constants.size ≤ capacity
  once : ∀ (i j : Nat) t, c.constants[i]? = some (.text t) → c.constants[j]? = some (.text t) → i = j

theorem wellPooled_empty : WellPooled {} := by
  constructor
  · decide
  · intro i j t h
    cases h

theorem WellPooled.addConstant (h : c.WellPooled) (k : Constant) : (c.addConstant k).2.WellPooled := by
  rcases addConstant_cases c k with ⟨_, -, -, done⟩ | ⟨new, room, done⟩ | ⟨-, -, done⟩
  · rw [done]
    exact h
  · rw [done]
    -- a text that is pushed has not been there
    have absent : ∀ (i : Nat) t, c.constants[i]? = some (.text t) → k ≠ .text t := by
      rintro i t there rfl
      exact new ⟨rfl, Array.mem_of_getElem? there⟩
    constructor
    · rw [Array.size_push]
      exact room
    · intro i j t hi hj
      simp only [Array.getElem?_push] at hi hj
      split at hi <;> split at hj
      · omega
      · exact absurd (Option.some.inj hi) (absent j t hj)
      · exact absurd (Option.some.inj hj) (absent i t hi)
      · exact h.once i j t hi hj
  · rw [done]
    exact h

/-- A pool with room for one more answers each addition, and a full one those of its texts. -/
theorem WellPooled.refuses_iff (h : c.WellPooled) (k : Constant) :
    (c.addConstant k).1 = .error .tooManyConstants ↔ c.constants.size = capacity ∧ ¬ c.HasText k := by
  have size := h.size
  rcases addConstant_cases c k with ⟨_, known, -, done⟩ | ⟨new, room, done⟩ | ⟨new, full, done⟩
  · simp [done, known]
  · simp [done]
    omega
  · simp [done, new]
    omega

/-- A refusal changes nothing. -/
theorem addConstant_of_error {x : Refusal} (h : (c.addConstant k).1 = .error x) : (c.addConstant k).2 = c := by
  rcases addConstant_cases c k with ⟨_, -, -, done⟩ | ⟨-, -, done⟩ | ⟨-, -, done⟩
  · rw [done]
  · rw [done] at h
    cases h
  · rw [done]

theorem WellPooled.serve (h : c.WellPooled) (e : Edit) : (c.serve e).2.WellPooled := by
  cases added : e.added? with
  | none =>
    have same := constants_serve (c := c) added
    exact ⟨same ▸ h.size, same ▸ h.once⟩
  | some k =>
    rw [serve_of_added added]
    exact h.addConstant k

theorem wellPooled_after (edits : List Edit) : (after edits).WellPooled :=
  Transcript.induct (P := fun _ c => WellPooled c) wellPooled_empty (fun _ e h => h.serve e) edits

theorem getElem?_serve (e : Edit) (h : c.constants[i]? = some k) : (c.serve e).2.constants[i]? = some k := by
  cases added : e.added? with
  | none => rwa [constants_serve added]
  | some k' =>
    rw [serve_of_added added]
    exact getElem?_addConstant h

/-- A constant stays where it is, whatever is done to the chunk later. -/
theorem getElem?_after_append (later : List Edit) (h : (after edits).constants[i]? = some k) :
    (after (edits ++ later)).constants[i]? = some k := by
  unfold after at h ⊢
  rw [Transcript.after_append]
  exact Transcript.induct (P := fun _ (c : Code) => c.constants[i]? = some k) h (fun _ e kept => getElem?_serve e kept) later

theorem getElem?_after_take (le : n ≤ m) (h : (after (edits.take n)).constants[i]? = some k) :
    (after (edits.take m)).constants[i]? = some k := by
  have cut := List.take_append_drop n (edits.take m)
  rw [List.take_take, Nat.min_eq_left le] at cut
  rw [← cut]
  exact getElem?_after_append _ h

/-! ## Additions while a chunk is made -/

theorem Adds.step (h : Adds edits n k r) : r = ((after (edits.take n)).addConstant k).1 ∧
    after (edits.take (n + 1)) = ((after (edits.take n)).addConstant k).2 := by
  obtain ⟨e, here, added, answer⟩ := h
  have served := serve_of_added (c := after (edits.take n)) added
  have first : (answers edits)[n]? = some ((after (edits.take n)).serve e).1 := Transcript.answer_eq here
  have then_ : after (edits.take (n + 1)) = ((after (edits.take n)).serve e).2 := Transcript.after_take here
  rw [served] at first then_
  rw [answer, Option.some_inj, Option.some_inj] at first
  exact ⟨first, then_⟩

/-- Every addition is answered. -/
theorem exists_adds (here : edits[n]? = some e) (added : e.added? = some k) : ∃ r, Adds edits n k r := by
  have answer : (answers edits)[n]? = some ((after (edits.take n)).serve e).1 := Transcript.answer_eq here
  rw [serve_of_added added] at answer
  exact ⟨_, e, here, added, answer⟩

/-- An index that is answered selects its constant from then on. -/
theorem Adds.selects (h : Adds edits n k (.ok i)) (later : n < m) : (after (edits.take m)).constants[i]? = some k := by
  obtain ⟨answer, next⟩ := h.step
  apply getElem?_after_take later
  rw [next]
  exact getElem?_of_addConstant answer.symm

theorem Adds.selects_last (h : Adds edits n k (.ok i)) : (after edits).constants[i]? = some k := by
  have kept := getElem?_after_append (edits.drop (n + 1)) (h.selects n.lt_succ_self)
  rwa [List.take_append_drop] at kept

/-- The index of a constant that is no text has not been answered before. -/
theorem Adds.lt_of_lt (other : k.text? = none) (h : Adds edits n k (.ok i)) (h' : Adds edits m k' (.ok j))
    (before : m < n) : j < i := by
  have there := h'.selects before
  rw [eq_size_of_addConstant other h.step.1.symm]
  exact (Array.getElem?_eq_some_iff.1 there).1

/-- The index of a constant that is no text is answered once. -/
theorem Adds.ne (other : k.text? = none) (h : Adds edits n k (.ok i)) (h' : Adds edits m k' (.ok j)) (apart : n ≠ m) :
    i ≠ j := by
  rcases Nat.lt_or_gt_of_ne apart with later | before
  · rintro rfl
    -- both constants would stand at this index, so the later one is no text either
    have same := h.selects_last.symm.trans h'.selects_last
    rw [Option.some_inj] at same
    exact Nat.lt_irrefl i (h'.lt_of_lt (same ▸ other) h later)
  · exact Nat.ne_of_gt (h.lt_of_lt other h' before)

/-! ## Chunks of blueprints -/

theorem exists_edits_withCode (c : Code) (code : List (Instruction × Nat)) :
    ∃ edits, c.withCode code = Transcript.after serve c edits := by
  refine ⟨code.map fun i => .emit i.1 i.2, ?_⟩
  rw [Transcript.after, List.foldl_map]
  rfl

theorem exists_edits_addPlans (next : Nat) (c : Code) (plans : List ConstantPlan) :
    ∃ edits, (addPlans next c plans).1 = Transcript.after serve c edits := by
  induction plans generalizing next c with
  | nil => exact ⟨[], by simp only [addPlans]; rfl⟩
  | cons plan rest ih =>
    obtain ⟨edits, made⟩ := ih (plan.build next).2 (c.addConstant (plan.build next).1).2
    refine ⟨.addConstant (plan.build next).1 :: edits, ?_⟩
    simp only [addPlans]
    exact made

/-- The chunk of a function is made by edits. -/
theorem exists_edits_build (next : Nat) (b : Blueprint) : ∃ edits, (b.build next).1.chunk = after edits := by
  obtain ⟨name, arity, defaults, params, captures, constants, code⟩ := b
  obtain ⟨additions, added⟩ := exists_edits_addPlans (next + 1) {} constants
  obtain ⟨emissions, emitted⟩ := exists_edits_withCode (addPlans (next + 1) {} constants).1 code
  refine ⟨additions ++ emissions, ?_⟩
  rw [after, Transcript.after_append, ← added, ← emitted]
  simp only [Blueprint.build]

/-- **Indices into a constant pool are stable and faithful.** The chunk of every function that is built from
a blueprint has been made step by step. Take any such steps: instructions are emitted and patched, and constants and
texts are added. The pool never has more than 65536 constants and no text twice. Every addition is answered. An index
that is answered fits an operand as it is and selects the constant that was added, after this step and all later ones.
Adding a text again answers the same index, and the index of any other constant is answered for no other addition. An
addition is refused exactly if the pool has 65536 constants and the constant is not one of its texts, and then nothing
changes. -/
theorem constant_indices_are_stable :
    (∀ next (b : Blueprint), ∃ edits, (b.build next).1.chunk = after edits) ∧
    ∀ edits : List Edit,
    (after edits).constants.size ≤ 65536 ∧
    (∀ (i j : Nat) t, (after edits).constants[i]? = some (.text t) → (after edits).constants[j]? = some (.text t) →
      i = j) ∧
    (∀ (n : Nat) e k, edits[n]? = some e → e.added? = some k → ∃ r, Adds edits n k r) ∧
    (∀ n k i, Adds edits n k (.ok i) → (UInt16.ofNat i).toNat = i ∧ (after edits).constants[i]? = some k ∧
      ∀ m, n < m → (after (edits.take m)).constants[i]? = some k) ∧
    (∀ n m t i j, Adds edits n (.text t) (.ok i) → Adds edits m (.text t) (.ok j) → i = j) ∧
    (∀ n m k k' i j, k.text? = none → Adds edits n k (.ok i) → Adds edits m k' (.ok j) → n ≠ m → i ≠ j) ∧
    (∀ n k r, Adds edits n k r →
      (r = .error .tooManyConstants ↔
        (after (edits.take n)).constants.size = 65536 ∧ ¬ (after (edits.take n)).HasText k) ∧
      (r = .error .tooManyConstants → after (edits.take (n + 1)) = after (edits.take n))) := by
  refine ⟨exists_edits_build, ?_⟩
  intro edits
  have pooled := wellPooled_after edits
  refine ⟨pooled.size, pooled.once, fun n e k => exists_adds, ?_, ?_, fun n m k k' i j => Adds.ne, ?_⟩
  · intro n k i h
    have there := h.selects_last
    have inside : i < 65536 := Nat.lt_of_lt_of_le (Array.getElem?_eq_some_iff.1 there).1 pooled.size
    refine ⟨?_, there, fun m => h.selects⟩
    rw [UInt16.toNat_ofNat']
    omega
  · intro n m t i j h h'
    exact pooled.once i j t h.selects_last h'.selects_last
  · intro n k r h
    obtain ⟨answer, next⟩ := h.step
    rw [answer, next]
    exact ⟨(wellPooled_after (edits.take n)).refuses_iff k, addConstant_of_error⟩

end Chunk

end ScriptVm
