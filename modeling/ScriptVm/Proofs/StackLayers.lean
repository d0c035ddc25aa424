import ScriptVm.Proofs.StackEffects

/-!
# Work above a part of the stacks

`Stacks.Above o s` says that a call or an entry which found the stacks `o` has come to the stacks
`s` without touching what was there: its own calls, regions, iterations and values lie on top.

An instruction that keeps to its own call stays above everything that was there before the call.
-/

set_option autoImplicit false

namespace ScriptVm

open Machine

namespace Stacks

/-- `s` is what work above `o` can come to. -/
structure Above (o s : Stacks) : Prop where
  frames : ∃ inner, s.frames = inner ++ o.frames ∧
    ∀ f ∈ inner, o.values.size ≤ f.base ∧ o.iterations.length ≤ f.iterBase
  handlers : ∃ inner, s.handlers = inner ++ o.handlers ∧
    ∀ h ∈ inner, o.frames.length < h.frameDepth ∧ o.values.size ≤ h.stackDepth ∧
      o.iterations.length ≤ h.iterDepth
  /-- The regions below belong to calls below. -/
  owned : ∀ h ∈ o.handlers, h.frameDepth ≤ o.frames.length
  iterations : o.iterations <:+ s.iterations
  size : o.values.size ≤ s.values.size
  values : ∀ i, i < o.values.size → s.values[i]? = o.values[i]?

/-- Every region belongs to a call under way, and inner regions belong to inner calls. -/
structure Ordered (s : Stacks) : Prop where
  sorted : s.handlers.Pairwise fun h h' => h'.frameDepth ≤ h.frameDepth
  live : ∀ h ∈ s.handlers, h.frameDepth ≤ s.frames.length

/-- The stacks after a captured variable has been written. -/
def wrote (s : Stacks) : Option (Nat × Value) → Stacks
  | none => s
  | some (slot, v) => s.assign slot v

variable {o q s s' : Stacks}

theorem Ordered.above (h : s.Ordered) : Above s s :=
  ⟨⟨[], rfl, nofun⟩, ⟨[], rfl, nofun⟩, h.live, List.suffix_refl _, Nat.le_refl _, fun _ _ => rfl⟩

theorem Above.length_le (h : Above o s) : o.frames.length ≤ s.frames.length := by
  obtain ⟨inner, frames, -⟩ := h.frames
  rw [frames, List.length_append]
  exact Nat.le_add_left _ _

theorem Above.trans (h : Above o q) (h' : Above q s) : Above o s := by
  obtain ⟨fs, frames, deep⟩ := h.frames
  obtain ⟨fs', frames', deep'⟩ := h'.frames
  obtain ⟨hs, handlers, own⟩ := h.handlers
  obtain ⟨hs', handlers', own'⟩ := h'.handlers
  have size := h.size
  have depth := h.length_le
  have iterations := h.iterations.length_le
  refine ⟨⟨fs' ++ fs, ?_, fun f hf => ?_⟩, ⟨hs' ++ hs, ?_, fun r hr => ?_⟩, h.owned,
    h.iterations.trans h'.iterations, Nat.le_trans h.size h'.size, fun i hi => ?_⟩
  · rw [frames', frames, List.append_assoc]
  · rcases List.mem_append.1 hf with hf | hf
    · have := deep' f hf
      omega
    · exact deep f hf
  · rw [handlers', handlers, List.append_assoc]
  · rcases List.mem_append.1 hr with hr | hr
    · have := own' r hr
      omega
    · exact own r hr
  · rw [h'.values i (by omega), h.values i hi]

/-- A call above `o` that is under way is one of its own. -/
theorem Above.mem_inner (h : Above o s) {f : Frame} {rest : List Frame} (frames : s.frames = f :: rest)
    (inside : o.frames.length ≤ rest.length) :
    (o.values.size ≤ f.base ∧ o.iterations.length ≤ f.iterBase) ∧
      ∃ inner, rest = inner ++ o.frames ∧
        ∀ g ∈ inner, o.values.size ≤ g.base ∧ o.iterations.length ≤ g.iterBase := by
  obtain ⟨inner, append, deep⟩ := h.frames
  cases inner with
  | nil =>
    rw [frames, List.nil_append] at append
    rw [← append, List.length_cons] at inside
    omega
  | cons g inner =>
    rw [frames, List.cons_append, List.cons.injEq] at append
    obtain ⟨rfl, rest⟩ := append
    exact ⟨deep f List.mem_cons_self, inner, rest, fun g hg => deep g (List.mem_cons_of_mem _ hg)⟩

theorem Above.stays {n : Nat} (h : Above o s) (stays : Stays n s s')
    (inside : o.frames.length < s.frames.length) (room : o.values.size + n ≤ s.values.size) :
    Above o s' := by
  have size := stays.size
  refine ⟨?_, stays.handlers ▸ h.handlers, h.owned, stays.iterations ▸ h.iterations, by omega, fun i hi => ?_⟩
  · have same := stays.frames
    cases frames : s.frames with
    | nil =>
      rw [frames, List.length_nil] at inside
      omega
    | cons f rest =>
      rw [frames] at same inside
      obtain ⟨deep, inner, rfl, others⟩ := h.mem_inner frames (Nat.le_of_lt_succ inside)
      generalize s'.frames = fs at same
      cases same with
      | cons _ ip _ =>
        refine ⟨{ f with ip } :: inner, rfl, fun g hg => ?_⟩
        rcases List.mem_cons.1 hg with rfl | hg
        · exact deep
        · exact others g hg
  · rw [stays.values i (by omega), h.values i hi]

theorem Above.inRun (h : Above o s) (runBase : Nat) : Above o { s with runBase } :=
  ⟨h.frames, h.handlers, h.owned, h.iterations, h.size, h.values⟩

theorem Above.push (h : Above o s) (v : Value) : Above o (s.push v) := by
  refine ⟨h.frames, h.handlers, h.owned, h.iterations, ?_, fun i hi => ?_⟩
  · show _ ≤ (s.values.push v).size
    rw [Array.size_push]
    exact Nat.le_succ_of_le h.size
  · have size := h.size
    show (s.values.push v)[i]? = _
    rw [Array.getElem?_push, if_neg (by omega), h.values i hi]

/-- Own slots may be written. -/
theorem Above.assign_own (h : Above o s) {slot : Nat} (v : Value) (own : o.values.size ≤ slot) :
    Above o (s.assign slot v) := by
  refine ⟨h.frames, h.handlers, h.owned, h.iterations, ?_, fun i hi => ?_⟩
  · show _ ≤ (s.values.setIfInBounds slot v).size
    rw [Array.size_setIfInBounds]
    exact h.size
  · show (s.values.setIfInBounds slot v)[i]? = _
    rw [Array.getElem?_setIfInBounds, if_neg (by omega), h.values i hi]

/-- A captured slot is written wherever it is. -/
theorem Above.assign (h : Above o s) (slot : Nat) (v : Value) : Above (o.assign slot v) (s.assign slot v) := by
  have size : (o.assign slot v).values.size = o.values.size := Array.size_setIfInBounds
  have size' : (s.assign slot v).values.size = s.values.size := Array.size_setIfInBounds
  refine ⟨?_, ?_, h.owned, h.iterations, ?_, fun i hi => ?_⟩
  · rw [size]
    exact h.frames
  · rw [size]
    exact h.handlers
  · rw [size, size']
    exact h.size
  · rw [size] at hi
    have bound := h.size
    show (s.values.setIfInBounds slot v)[i]? = (o.values.setIfInBounds slot v)[i]?
    rw [Array.getElem?_setIfInBounds, Array.getElem?_setIfInBounds, h.values i hi]
    by_cases eq : slot = i
    · rw [if_pos eq, if_pos eq, if_pos (by omega), if_pos (by omega)]
    · rw [if_neg eq, if_neg eq]

theorem Above.wrote (h : Above o s) (w : Option (Nat × Value)) : Above (o.wrote w) (s.wrote w) := by
  cases w with
  | none => exact h
  | some w => exact h.assign w.1 w.2

theorem Above.enter (h : Above o s) {f : Frame} (base : o.values.size ≤ f.base)
    (iterBase : f.iterBase = s.iterations.length) : Above o { s with frames := f :: s.frames } := by
  obtain ⟨inner, frames, deep⟩ := h.frames
  have iterations := h.iterations.length_le
  refine ⟨⟨f :: inner, by rw [frames, List.cons_append], fun g hg => ?_⟩, h.handlers, h.owned, h.iterations,
    h.size, h.values⟩
  rcases List.mem_cons.1 hg with rfl | hg
  · exact ⟨base, iterBase ▸ iterations⟩
  · exact deep g hg

/-- A call above `o` ends. -/
theorem Above.leave (h : Above o s) {f : Frame} {rest : List Frame} (frames : s.frames = f :: rest)
    (inside : o.frames.length ≤ rest.length) (room : f.base + 1 < s.values.size) :
    Above o (s.leave f rest) := by
  obtain ⟨⟨base, iterBase⟩, inner, others, deep⟩ := h.mem_inner frames inside
  obtain ⟨hs, handlers, own⟩ := h.handlers
  obtain ⟨its, iterations⟩ := h.iterations
  refine ⟨⟨inner, others, deep⟩, ?_, h.owned, ?_, ?_, fun i hi => ?_⟩
  · have outer : o.handlers.dropWhile (fun r => decide (rest.length + 1 ≤ r.frameDepth)) = o.handlers := by
      cases hr : o.handlers with
      | nil => rfl
      | cons r _ =>
        have := h.owned r (by rw [hr]; exact List.mem_cons_self)
        rw [List.dropWhile_cons_of_neg]
        simp only [decide_eq_true_eq]
        omega
    refine ⟨hs.dropWhile fun r => decide (rest.length + 1 ≤ r.frameDepth), ?_, fun r hr => ?_⟩
    · show s.handlers.dropWhile _ = _
      rw [handlers, List.dropWhile_append, outer]
      split
      next none => rw [List.isEmpty_iff.1 none, List.nil_append]
      next => rfl
    · exact own r ((List.dropWhile_sublist _).mem hr)
  · show o.iterations <:+ truncated s.iterations f.iterBase
    rw [← iterations, truncated_append _ iterBase]
    exact List.suffix_append _ _
  · show _ ≤ (resized s.values.pop f.base).size
    rw [size_resized]
    exact base
  · show (resized s.values.pop f.base)[i]? = _
    rw [getElem?_resized _ (by omega) (by rw [Array.size_pop]; omega), Array.getElem?_pop,
      if_pos (by omega), h.values i hi]

theorem Above.protect (h : Above o s) {r : Handler} (inside : o.frames.length < s.frames.length)
    (frameDepth : r.frameDepth = s.frames.length) (stackDepth : r.stackDepth = s.values.size)
    (iterDepth : r.iterDepth = s.iterations.length) : Above o { s with handlers := r :: s.handlers } := by
  obtain ⟨hs, handlers, own⟩ := h.handlers
  have size := h.size
  have iterations := h.iterations.length_le
  refine ⟨h.frames, ⟨r :: hs, by rw [handlers, List.cons_append], fun r' hr => ?_⟩, h.owned, h.iterations,
    h.size, h.values⟩
  rcases List.mem_cons.1 hr with rfl | hr
  · omega
  · exact own r' hr

/-- The regions of own calls are on top. -/
theorem Above.own_handler (h : Above o s) {r : Handler} {rest : List Handler} (handlers : s.handlers = r :: rest)
    (inner : o.frames.length < r.frameDepth) :
    (o.values.size ≤ r.stackDepth ∧ o.iterations.length ≤ r.iterDepth) ∧
      ∃ hs, rest = hs ++ o.handlers ∧
        ∀ h ∈ hs, o.frames.length < h.frameDepth ∧ o.values.size ≤ h.stackDepth ∧
          o.iterations.length ≤ h.iterDepth := by
  obtain ⟨hs, append, own⟩ := h.handlers
  rw [handlers] at append
  cases hs with
  | nil =>
    have := h.owned r (by rw [← List.nil_append o.handlers, ← append]; exact List.mem_cons_self)
    omega
  | cons r' hs =>
    rw [List.cons_append, List.cons.injEq] at append
    obtain ⟨rfl, rest⟩ := append
    exact ⟨(own r List.mem_cons_self).2, hs, rest, fun h hh => own h (List.mem_cons_of_mem _ hh)⟩

theorem Above.release (h : Above o s) {r : Handler} {rest : List Handler} (handlers : s.handlers = r :: rest)
    (inner : o.frames.length < r.frameDepth) : Above o { s with handlers := s.handlers.tail } := by
  obtain ⟨-, hs, others, own⟩ := h.own_handler handlers inner
  refine ⟨h.frames, ⟨hs, ?_, own⟩, h.owned, h.iterations, h.size, h.values⟩
  show s.handlers.tail = _
  rw [handlers, List.tail_cons, others]

/-- A region above `o` catches. -/
theorem Above.caught (h : Above o s) {r : Handler} {rest : List Handler} (handlers : s.handlers = r :: rest)
    (inner : o.frames.length < r.frameDepth) (inside : o.frames.length < s.frames.length)
    (room : o.values.size < s.values.size) (v : Value) : Above o (s.caught r rest v) := by
  obtain ⟨⟨stackDepth, iterDepth⟩, hs, others, own⟩ := h.own_handler handlers inner
  obtain ⟨fs, frames, deep⟩ := h.frames
  obtain ⟨its, iterations⟩ := h.iterations
  refine ⟨?_, ⟨hs, others, own⟩, h.owned, ?_, ?_, fun i hi => ?_⟩
  · have cut : truncated s.frames r.frameDepth =
        truncated fs (r.frameDepth - o.frames.length) ++ o.frames := by
      rw [frames, truncated_append _ (by omega)]
    have left : ∀ f ∈ truncated fs (r.frameDepth - o.frames.length), f ∈ fs :=
      fun f hf => List.mem_of_mem_drop hf
    cases top : truncated fs (r.frameDepth - o.frames.length) with
    | nil =>
      have length := length_truncated fs (r.frameDepth - o.frames.length)
      rw [frames, List.length_append] at inside
      rw [top, List.length_nil] at length
      omega
    | cons f tail =>
      rw [top, List.cons_append] at cut
      rw [top] at left
      refine ⟨{ f with ip := r.catchIp } :: tail, ?_, fun g hg => ?_⟩
      · show catching r s.frames = _
        unfold catching
        rw [cut]
        rfl
      · rcases List.mem_cons.1 hg with rfl | hg
        · exact deep f (left f List.mem_cons_self)
        · exact deep g (left g (List.mem_cons_of_mem _ hg))
  · show o.iterations <:+ truncated s.iterations r.iterDepth
    rw [← iterations, truncated_append _ iterDepth]
    exact List.suffix_append _ _
  · show _ ≤ ((resized s.values.pop r.stackDepth).push v).size
    rw [Array.size_push, size_resized]
    omega
  · show ((resized s.values.pop r.stackDepth).push v)[i]? = _
    rw [Array.getElem?_push, size_resized, if_neg (by omega),
      getElem?_resized _ (by omega) (by rw [Array.size_pop]; omega), Array.getElem?_pop, if_pos (by omega),
      h.values i hi]

theorem Above.iterate (h : Above o s) (room : o.values.size < s.values.size) (it : Iteration) :
    Above o { s with values := s.values.pop, iterations := it :: s.iterations } := by
  refine ⟨h.frames, h.handlers, h.owned, h.iterations.trans (List.suffix_cons _ _), ?_, fun i hi => ?_⟩
  · show _ ≤ s.values.pop.size
    rw [Array.size_pop]
    omega
  · show s.values.pop[i]? = _
    rw [Array.getElem?_pop, if_pos (by omega), h.values i hi]

/-- The innermost iteration goes on or is closed. -/
theorem Above.advance (h : Above o s) {it : Iteration} {its : List Iteration} (current : s.iterations = it :: its)
    (head : List Iteration) (own : o.iterations.length < s.iterations.length) :
    Above o { s with iterations := head ++ its } := by
  refine ⟨h.frames, h.handlers, h.owned, ?_, h.size, h.values⟩
  obtain ⟨inner, iterations⟩ := h.iterations
  rw [current] at iterations own
  cases inner with
  | nil =>
    rw [List.nil_append] at iterations
    rw [iterations] at own
    omega
  | cons _ inner =>
    rw [List.cons_append, List.cons.injEq] at iterations
    rw [← iterations.2, ← List.append_assoc]
    exact List.suffix_append _ _

/-- What is level with `o` is `o`. -/
theorem Above.eq_of_level (h : Above o s) (ordered : s.Ordered) (frames : s.frames = o.frames)
    (size : s.values.size = o.values.size) (iterations : s.iterations.length = o.iterations.length)
    (runBase : s.runBase = o.runBase) : s = o := by
  obtain ⟨inner, handlers, own⟩ := h.handlers
  have none : inner = [] := by
    refine List.eq_nil_iff_forall_not_mem.2 fun r hr => ?_
    have live := ordered.live r (by rw [handlers]; exact List.mem_append_left _ hr)
    have := (own r hr).1
    rw [frames] at live
    omega
  have values : s.values = o.values := by
    refine Array.ext_getElem? fun i => ?_
    by_cases lt : i < o.values.size
    · exact h.values i lt
    · rw [Array.getElem?_eq_none (by omega), Array.getElem?_eq_none (by omega)]
  have loops : s.iterations = o.iterations := (h.iterations.eq_of_length iterations.symm).symm
  rw [none, List.nil_append] at handlers
  cases s
  cases o
  simp only [Stacks.mk.injEq]
  exact ⟨values, frames, handlers, loops, runBase⟩

/-- What lies below both `o` and the present stacks is the lower part of `o`. -/
theorem Above.eq_cut (h : Above o s) (below : Above q s) (frames : q.frames.length ≤ o.frames.length)
    (size : q.values.size ≤ o.values.size) (handlers : q.handlers.length ≤ o.handlers.length)
    (iterations : q.iterations.length ≤ o.iterations.length) :
    q =
      { values := o.values.shrink q.values.size
        frames := truncated o.frames q.frames.length
        handlers := truncated o.handlers q.handlers.length
        iterations := truncated o.iterations q.iterations.length
        runBase := q.runBase } := by
  have cut : ∀ {α : Type} {inner inner' all outer deep : List α}, all = inner ++ outer → all = inner' ++ deep →
      deep.length ≤ outer.length → deep = truncated outer deep.length := by
    intro α inner inner' all outer deep split split' le
    rw [← truncated_append_of_le inner le, ← split, split', truncated_append_of_le inner' (Nat.le_refl _),
      truncated_of_le (Nat.le_refl _)]
  obtain ⟨fs, calls, -⟩ := h.frames
  obtain ⟨fs', calls', -⟩ := below.frames
  obtain ⟨hs, regions, -⟩ := h.handlers
  obtain ⟨hs', regions', -⟩ := below.handlers
  obtain ⟨its, loops⟩ := h.iterations
  obtain ⟨its', loops'⟩ := below.iterations
  have values : q.values = o.values.shrink q.values.size := by
    refine Array.ext_getElem? fun i => ?_
    by_cases lt : i < q.values.size
    · rw [Exec.getElem?_shrink _ lt, ← below.values i lt, h.values i (by omega)]
    · rw [Array.getElem?_eq_none (by omega), Array.getElem?_eq_none (by rw [Array.size_shrink]; omega)]
  rw [← cut calls calls' frames, ← cut regions regions' handlers, ← cut loops.symm loops'.symm iterations, ← values]

end Stacks

namespace Instruction

/-- Instruction `i` keeps to its own call `f`: its operands lie above slot 0 of the call, and the
region or iteration that it ends or goes on with is one of the call. -/
structure Confined (i : Instruction) (m : Machine) (f : Frame) : Prop where
  operands : 0 < i.operands → f.base + i.operands < m.stack.size
  region : i.op = .tryEnd → ∃ h rest, m.handlers = h :: rest ∧ h.frameDepth = m.frames.length
  iteration : i.op = .forIter → f.iterBase < m.iterations.length

end Instruction

namespace Exec

open Stacks

variable {i : Instruction} {m : Machine} {f : Frame} {rest : List Frame} {out : Except Fault Progress}
  {s o : Stacks}

/-- An instruction that keeps to its own call leaves everything below the call in place. -/
theorem Effect.above (effect : Effect i m f rest out s) (frames : m.frames = f :: rest)
    (confined : i.Confined m f) (h : Above o m.stacked) (inside : o.frames.length ≤ rest.length)
    (reach : ∀ r rs, m.runBase < r.frameDepth → s = m.stacked.caught r rs m.top →
      o.frames.length < r.frameDepth) : Above (o.wrote (m.cellWrite f i)) s := by
  obtain ⟨⟨base, iterBase⟩, -⟩ := h.mem_inner frames inside
  have depth : m.frames.length = rest.length + 1 := by rw [frames, List.length_cons]
  have inside' : o.frames.length < m.stacked.frames.length := by
    show _ < m.frames.length
    omega
  have size : o.values.size ≤ m.stack.size := h.size
  have silent : i.op ≠ .setUpvalue → o.wrote (m.cellWrite f i) = o := fun op => by
    rw [cellWrite_of_ne op]
    rfl
  have room : ∀ k, i.operands = k + 1 → o.values.size + (k + 1) < m.stack.size := fun k hk => by
    have := confined.operands (by omega)
    omega
  cases effect with
  | stays _ quiet stays =>
    rw [quiet]
    refine h.stays stays inside' ?_
    show _ ≤ m.stack.size
    by_cases none : i.operands = 0
    · omega
    · have := confined.operands (by omega)
      omega
  | assignsLocal op v =>
    rw [silent (by simp [op])]
    exact h.assign_own v (by omega)
  | assignsCell write =>
    rw [write]
    exact h.assign _ _
  | enters op stays same slot iterations =>
    have operands : i.operands = i.a.toNat + 1 := by
      rcases op with op | op <;> simp only [Instruction.operands, op]
    have := room _ operands
    rw [silent (by rcases op with op | op <;> simp [op])]
    refine (h.stays stays inside' ?_).enter (by omega) ?_
    · show _ ≤ m.stack.size
      omega
    · rw [iterations, stays.iterations]
      rfl
  | ends op last =>
    have operands := confined.operands (by simp only [Instruction.operands, op]; omega)
    simp only [Instruction.operands, op] at operands
    rw [silent (by simp [op])]
    exact h.leave frames inside operands
  | goesBack op more =>
    have operands := confined.operands (by simp only [Instruction.operands, op]; omega)
    simp only [Instruction.operands, op] at operands
    rw [silent (by simp [op])]
    exact (h.leave frames inside operands).push _
  | protects op frameDepth stackDepth iterDepth =>
    rw [silent (by simp [op])]
    exact h.protect inside' frameDepth stackDepth iterDepth
  | releases op =>
    obtain ⟨r, rs, handlers, own⟩ := confined.region op
    rw [silent (by simp [op])]
    exact h.release handlers (by omega)
  | catches op handlers reached =>
    have := room 0 (by simp only [Instruction.operands, op])
    rw [silent (by simp [op])]
    refine h.caught handlers (reach _ _ reached rfl) inside' ?_ _
    show _ < m.stack.size
    omega
  | iterates op it =>
    have := room 0 (by simp only [Instruction.operands, op])
    rw [silent (by simp [op])]
    refine h.iterate ?_ it
    show _ < m.stack.size
    omega
  | @advances it its s op current head stays =>
    obtain ⟨head, iterations, -⟩ := head
    have own := confined.iteration op
    have current : ({ s with iterations := m.iterations } : Stacks).iterations = it :: its := current
    rw [silent (by simp [op])]
    have advanced := (h.stays stays inside' h.size).advance current head ?_
    · rw [← iterations] at advanced
      exact advanced
    · show _ < m.iterations.length
      omega

theorem ordered_leave {s : Stacks} (h : s.Ordered) (f : Frame) (rest : List Frame) :
    (s.leave f rest).Ordered := by
  have sorted : (s.handlers.dropWhile fun r => decide (rest.length + 1 ≤ r.frameDepth)).Pairwise
      fun h h' => h'.frameDepth ≤ h.frameDepth := h.sorted.sublist (List.dropWhile_sublist _)
  refine ⟨sorted, fun r hr => ?_⟩
  have hr : r ∈ s.handlers.dropWhile fun r => decide (rest.length + 1 ≤ r.frameDepth) := hr
  show r.frameDepth ≤ rest.length
  -- the first region that is left belongs to an outer call, and no other is further in
  cases left : s.handlers.dropWhile fun r => decide (rest.length + 1 ≤ r.frameDepth) with
  | nil =>
    rw [left] at hr
    cases hr
  | cons first others =>
    have outer : ¬rest.length + 1 ≤ first.frameDepth := by
      have := List.head?_dropWhile_not (fun r : Handler => decide (rest.length + 1 ≤ r.frameDepth)) s.handlers
      simp only [left, List.head?_cons, decide_eq_false_iff_not] at this
      exact this
    rw [left] at hr sorted
    rcases List.mem_cons.1 hr with rfl | hr
    · omega
    · have := (List.pairwise_cons.1 sorted).1 r hr
      omega

theorem ordered_of_stays {n : Nat} {s s' : Stacks} (h : s.Ordered) (stays : Stays n s s') : s'.Ordered := by
  refine ⟨stays.handlers ▸ h.sorted, fun r hr => ?_⟩
  rw [stays.frames.length_eq]
  exact h.live r (stays.handlers ▸ hr)

/-- Every instruction keeps the regions in order. -/
theorem Effect.ordered (effect : Effect i m f rest out s) (h : m.stacked.Ordered) : s.Ordered := by
  cases effect with
  | stays _ _ stays => exact ordered_of_stays h stays
  | assignsLocal op v => exact ⟨h.sorted, h.live⟩
  | assignsCell write => exact ⟨h.sorted, h.live⟩
  | enters op stays same slot iterations =>
    have ordered := ordered_of_stays h stays
    exact ⟨ordered.sorted, fun r hr => Nat.le_succ_of_le (ordered.live r hr)⟩
  | ends op last => exact ordered_leave h f rest
  | goesBack op more =>
    have ordered := ordered_leave h f rest
    exact ⟨ordered.sorted, ordered.live⟩
  | @protects r op frameDepth stackDepth iterDepth =>
    have live : ∀ r' ∈ m.handlers, r'.frameDepth ≤ r.frameDepth := fun r' hr => frameDepth ▸ h.live r' hr
    refine ⟨List.pairwise_cons.2 ⟨live, h.sorted⟩, fun r' hr => ?_⟩
    rcases List.mem_cons.1 hr with rfl | hr
    · exact Nat.le_of_eq frameDepth
    · exact h.live r' hr
  | releases op =>
    exact ⟨h.sorted.sublist (List.tail_sublist _), fun r hr => h.live r (List.mem_of_mem_tail hr)⟩
  | @catches r rs op handlers reached =>
    have sorted := h.sorted
    rw [show m.stacked.handlers = r :: rs from handlers, List.pairwise_cons] at sorted
    refine ⟨sorted.2, fun r' hr => ?_⟩
    have live : r'.frameDepth ≤ m.frames.length :=
      h.live r' (by rw [show m.stacked.handlers = r :: rs from handlers]; exact List.mem_cons_of_mem _ hr)
    show _ ≤ (catching r m.frames).length
    rw [length_catching]
    exact Nat.le_min.2 ⟨live, sorted.1 r' hr⟩
  | iterates op it => exact ⟨h.sorted, h.live⟩
  | advances op current head stays =>
    have ordered := ordered_of_stays h stays
    exact ⟨ordered.sorted, ordered.live⟩

/-- Calls end by a return or by a throw. -/
theorem Effect.shrinks (effect : Effect i m f rest out s) (shorter : s.frames.length < m.frames.length) :
    (i.op = .ret ∧
        (rest.length ≤ m.runBase ∧ out = .ok (.returned (m.result f)) ∧ s = m.stacked.leave f rest ∨
          m.runBase < rest.length ∧ out = .ok .next ∧ s = (m.stacked.leave f rest).push (m.result f))) ∨
      ∃ r rs, i.op = .throwTop ∧ m.handlers = r :: rs ∧ m.runBase < r.frameDepth ∧ out = .ok .next ∧
        s = m.stacked.caught r rs m.top := by
  have longer : ∀ {k : Nat}, m.frames.length ≤ k → k < m.frames.length → False := fun le lt => by omega
  cases effect with
  | stays _ _ stays => exact (longer (Nat.le_of_eq stays.frames.length_eq.symm) shorter).elim
  | enters op stays same slot iterations =>
    rw [List.length_cons, same] at shorter
    omega
  | ends op last => exact .inl ⟨op, .inl ⟨last, rfl, rfl⟩⟩
  | goesBack op more => exact .inl ⟨op, .inr ⟨more, rfl, rfl⟩⟩
  | catches op handlers reached => exact .inr ⟨_, _, op, handlers, reached, rfl, rfl⟩
  | advances op current head stays => exact (longer (Nat.le_of_eq stays.frames.length_eq.symm) shorter).elim
  | _ => exact (longer (Nat.le_refl _) shorter).elim

/-- Only a call makes a frame. -/
theorem Effect.grows (effect : Effect i m f rest out s) (frames : m.frames = f :: rest)
    (longer : m.frames.length < s.frames.length) :
    ∃ s₀ g, (i.op = .call ∨ i.op = .new) ∧ out = .ok .next ∧ m.stacked.Stays i.operands s₀ ∧
      s₀.frames = m.frames ∧ g.base = m.stack.size - i.operands ∧ g.iterBase = m.iterations.length ∧
      s = { s₀ with frames := g :: s₀.frames } := by
  cases effect with
  | @enters s₀ g op stays same slot iterations => exact ⟨s₀, g, op, rfl, stays, same, slot, iterations, rfl⟩
  | stays _ _ stays =>
    rw [stays.frames.length_eq] at longer
    exact absurd longer (Nat.lt_irrefl _)
  | advances op current head stays =>
    have same : s.frames.length = m.frames.length := stays.frames.length_eq
    rw [same] at longer
    exact absurd longer (Nat.lt_irrefl _)
  | ends op last =>
    have longer : m.frames.length < rest.length := longer
    rw [frames, List.length_cons] at longer
    omega
  | goesBack op more =>
    have longer : m.frames.length < rest.length := longer
    rw [frames, List.length_cons] at longer
    omega
  | @catches r rs op handlers reached =>
    have longer : m.frames.length < (catching r m.frames).length := longer
    rw [length_catching] at longer
    omega
  | _ => exact absurd longer (Nat.lt_irrefl _)

end Exec

end ScriptVm
