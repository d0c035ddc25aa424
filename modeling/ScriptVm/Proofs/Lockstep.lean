import ScriptVm.Proofs.PlainInstructions
import ScriptVm.Proofs.Unwinding

/-!
# Machines in lockstep

Two machines that differ only in their sides do the same, step by step, as long as their sides
stay in a relation `R` that is a `Congruence`: it holds on when the visible part of the machine
changes, when the world changes in a way that both logs hear, and when both machines use their
sides, with the same visible result.

`Activity.run_alike` carries this from the single operations to whole runs.
-/

set_option autoImplicit false

namespace ScriptVm

/-- A result with another side of its machine. -/
def Exec.sided {α : Type} (r : EStateM.Result Fault Machine α) (s : Side) :
    EStateM.Result Fault Machine α :=
  match r with
  | .ok v m => .ok v (m.withSide s)
  | .error f m => .error f (m.withSide s)

/-- `x` does the same with a side that is related to the machine's own, and the sides are related
afterwards. -/
def Exec.Alike (R : Machine → Side → Prop) {α : Type} (x : Exec α) (m : Machine) : Prop :=
  ∀ s, R m s → ∃ s', x.run (m.withSide s) = Exec.sided (x.run m) s' ∧ R (x.after m) s'

/-- A relation between a machine and the side of another one that goes on while both do what does
not concern their sides. -/
structure WorldCongruence (R : Machine → Side → Prop) : Prop where
  /-- Only the world, the options and the statistics matter. -/
  control : ∀ {m m' : Machine} {s : Side}, m'.world = m.world → m'.config = m.config →
    m'.stats = m.stats → R m s → R m' s
  /-- Captured variables do not matter. -/
  cells : ∀ {m : Machine} {s : Side} (cells : Pool .cell Cell), R m s →
    R { m with world := { m.world with heap := { m.world.heap with cells } } } s
  /-- Both worlds may change in the same way, if both logs hear of it. -/
  world : ∀ {m : Machine} {s : Side} {w : World} {es : List LogEvent}, R m s →
    World.Evolves m.world w → w.caches = m.world.caches → w.log = m.world.log.hearAll es →
    World.Evolves (m.withSide s).world (w.withSides s.caches (s.log.hearAll es)) →
    R { m with world := w } { s with log := s.log.hearAll es }

/-- A relation that also goes on when both use their sides. -/
structure Congruence (R : Machine → Side → Prop) : Prop extends WorldCongruence R where
  use : ∀ {α : Type} {x : Exec α} (m : Machine), Exec.SideUse x → Exec.Alike R x m

namespace Exec

open Machine

variable {R : Machine → Side → Prop} {α β : Type} {b : Bool} {n : Nat} {m : Machine}

/-! ## Computations -/

theorem alike_pure (a : α) : Alike R (Pure.pure a) m := fun s hs => ⟨s, rfl, hs⟩

theorem alike_raise (f : Fault) : Alike R (throw f : Exec α) m := fun s hs => ⟨s, rfl, hs⟩

/-- One after the other, two computations that do the same on both machines do the same. -/
theorem Alike.bind {x : Exec α} {f : α → Exec β} (first : Alike R x m)
    (next : ∀ v m', x.run m = .ok v m' → Alike R (f v) m') : Alike R (x >>= f) m := by
  intro s hs
  obtain ⟨s₁, run₁, hs₁⟩ := first s hs
  cases hx : x.run m with
  | ok v m' =>
    rw [hx] at run₁
    rw [after_of_ok hx] at hs₁
    obtain ⟨s₂, run₂, hs₂⟩ := next v m' hx s₁ hs₁
    refine ⟨s₂, ?_, ?_⟩
    · rw [run_bind_of_ok run₁, run_bind_of_ok hx, run₂]
    · rw [after_bind hx]
      exact hs₂
  | error e m' =>
    rw [hx] at run₁
    rw [after_of_error hx] at hs₁
    refine ⟨s₁, ?_, ?_⟩
    · rw [run_bind_of_error run₁, run_bind_of_error hx]
      rfl
    · rw [after_of_error (run_bind_of_error hx)]
      exact hs₁

/-- A computation may read the machine if it does not look at the side. -/
theorem Alike.read {body : Machine → Exec α} (blind : ∀ s, body (m.withSide s) = body m)
    (next : Alike R (body m) m) : Alike R (get >>= body) m := by
  intro s hs
  obtain ⟨s', run, hs'⟩ := next s hs
  refine ⟨s', ?_, hs'⟩
  rw [run_bind_of_ok (run_get _), run_bind_of_ok (run_get _), blind, run]

/-- A change of the machine that does not look at the side. -/
theorem alike_modifyGet {g : Machine → α × Machine}
    (blind : ∀ s, g (m.withSide s) = ((g m).1, (g m).2.withSide s))
    (kept : ∀ s, R m s → R (g m).2 s) : Alike R (modifyGet g) m := by
  intro s hs
  refine ⟨s, ?_, kept s hs⟩
  show (match g (m.withSide s) with | (a, m') => EStateM.Result.ok a m') = _
  rw [blind]
  rfl

/-- A change of the visible machine that the relation bears is the same on both. -/
theorem alike_modify {g : Machine → Machine} (blind : ∀ s, g (m.withSide s) = (g m).withSide s)
    (kept : ∀ s, R m s → R (g m) s) : Alike R (modify g) m :=
  alike_modifyGet (fun s => by rw [blind]) kept

/-- A change of the visible part of the machine, apart from the world. -/
theorem alike_control (hR : Congruence R) {g : Machine → Machine}
    (blind : ∀ s, g (m.withSide s) = (g m).withSide s) (world : (g m).world = m.world)
    (config : (g m).config = m.config) (stats : (g m).stats = m.stats) : Alike R (modify g) m :=
  alike_modify blind fun _ => hR.control world config stats

/-- An operation on the world gives its value and leaves the rest of the machine. -/
theorem run_withWorld (f : World → α × World) (m : Machine) :
    (withWorld f).run m = .ok (f m.world).1 { m with world := (f m.world).2 } := rfl

/-- A change of the world that does not look at caches and log. -/
theorem alike_withWorld (hR : WorldCongruence R) {f : World → α × World} (blind : World.Blind f m.world) :
    Alike R (withWorld f) m := by
  intro s hs
  obtain ⟨es, h⟩ := blind
  have own := h m.world.caches m.world.log
  have other := h s.caches s.log
  have result : (f m.world).2 = (f m.world).2.withSides m.world.caches (m.world.log.hearAll es) :=
    congrArg Prod.snd own.1
  have caches := congrArg World.caches result
  have log := congrArg World.log result
  refine ⟨{ s with log := s.log.hearAll es }, ?_, ?_⟩
  · rw [run_withWorld, run_withWorld]
    have same : f (m.withSide s).world = _ := other.1
    rw [same]
    rfl
  · rw [after_of_ok (run_withWorld f m)]
    have evolves := other.2
    rw [other.1] at evolves
    exact hR.world hs own.2 caches log evolves

/-- A plain computation that does not look at the side. -/
theorem Plain.alike (hR : Congruence R) {x : Exec α} (h : Plain false n x m) : Alike R x m := by
  generalize hb : false = b at h
  induction h with
  | pure a => exact alike_pure a
  | raise f => exact alike_raise f
  | chain k le fits first next ih ihn => exact (ih hb).bind fun v m' run => ihn v m' run hb
  | read blind next ih => exact .read blind (ih hb)
  | look next ih => cases hb
  | stack f size slots => exact alike_modifyGet (fun s => rfl) fun s => hR.control rfl rfl rfl
  | world blind => exact alike_withWorld hR.toWorldCongruence blind
  | seeing evolves => cases hb
  | count f => cases hb
  | define name v => exact alike_control hR (fun s => rfl) rfl rfl rfl
  | emit line => exact alike_control hR (fun s => rfl) rfl rfl rfl
  | record e => exact alike_control hR (fun s => rfl) rfl rfl rfl
  | use side _ _ => exact hR.use _ side

/-! ## Captured variables and calls -/

/-- Closing captured variables does not look at the side. -/
theorem closeCells_withSide (m : Machine) (s : Side) (k : Nat) :
    (m.withSide s).closeCells k = (m.closeCells k).withSide s := by
  rw [closeCells_eq, closeCells_eq]
  rfl

/-- The relation bears any change of captured variables, which are visible. -/
theorem rel_withVariables (hR : Congruence R) {s : Side} (c : Variables) (hs : R m s) :
    R (m.withVariables c) s :=
  hR.control (m := { m with world := { m.world with heap := { m.world.heap with cells := c.cells } } })
    rfl rfl rfl (hR.cells c.cells hs)

theorem rel_closeCells (hR : Congruence R) {s : Side} (k : Nat) (hs : R m s) : R (m.closeCells k) s := by
  rw [closeCells_eq]
  exact rel_withVariables hR _ hs

theorem alike_closeCells (hR : Congruence R) (k : Nat) : Alike R (closeCells k) m :=
  alike_modify (fun s => closeCells_withSide m s k) fun _ => rel_closeCells hR k

/-- Ending calls does not look at the side. -/
theorem endFrames_withSide (depth : Nat) (fs : List Frame) (m : Machine) (s : Side) :
    (m.withSide s).endFrames depth fs = (m.endFrames depth fs).withSide s := by
  induction fs generalizing m with
  | nil => rfl
  | cons f rest ih =>
    unfold Machine.endFrames
    split
    · rw [closeCells_withSide, ih]
    · rfl

theorem rel_endFrames (hR : Congruence R) {s : Side} (depth : Nat) (fs : List Frame)
    (hs : R m s) : R (m.endFrames depth fs) s := by
  rw [endFrames_eq]
  exact rel_withVariables hR _ (hR.control (m := m) rfl rfl rfl hs)

theorem alike_writeCell (hR : Congruence R) (r : Ref .cell) (v : Value) : Alike R (writeCell r v) m := by
  refine (plain_heap (n := 0)).alike hR |>.bind fun h m' _ => ?_
  split
  · exact (plain_setSlot (n := m'.stack.size) _ v (Nat.le_add_left _ _)).alike hR
  · exact alike_modify (fun _ => rfl) fun _ => hR.cells _

theorem alike_captureSlot (hR : Congruence R) (slot : Nat) : Alike R (captureSlot slot) m := by
  refine .read (fun _ => rfl) ?_
  split
  · exact alike_pure _
  · refine (alike_modifyGet (fun _ => rfl) fun _ => hR.cells _).bind fun r m' _ => ?_
    exact (alike_control hR (fun _ => rfl) rfl rfl rfl).bind fun _ _ _ => alike_pure _

theorem alike_captureAll (hR : Congruence R) (base : Nat) (cs : List Capture) (m : Machine) :
    Alike R (captureAll base cs) m := by
  induction cs generalizing m with
  | nil => exact alike_pure _
  | cons c rest ih =>
    have others : ∀ (r : Ref .cell) (m' : Machine),
        Alike R (do return r :: (← captureAll base rest)) m' :=
      fun r m' => (ih m').bind fun _ _ _ => alike_pure _
    unfold captureAll
    simp only
    split
    · exact (alike_captureSlot hR _).bind fun r m' _ => others r m'
    · exact ((plain_ownCell (n := 0) _).alike hR).bind fun r m' _ => others r m'

theorem alike_makeClosure (hR : Congruence R) (i : Nat) : Alike R (makeClosure i) m := by
  refine ((plain_constant (n := 0) i).alike hR).bind fun k m' _ => ?_
  split
  · refine ((plain_frame (n := 0)).alike hR).bind fun f _ _ => (alike_captureAll hR _ _ _).bind fun _ _ _ => ?_
    refine Alike.bind (Plain.alike hR (n := 0) (plain_withHeap fun w _ => .newClosure w _)) fun _ _ _ => ?_
    exact alike_pure _
  · exact (plain_fail (n := 0) _).alike hR

/-- Pushing a frame writes a log line, which both sides hear. -/
theorem alike_pushFrame (hR : Congruence R) (f : Frame) : Alike R (pushFrame f) m := by
  refine .read (fun _ => rfl) ?_
  split
  · exact (plain_fail (n := 0) _).alike hR
  · refine ((plain_note (n := 0) _ _).alike hR).bind fun _ _ _ => ?_
    exact alike_control hR (fun _ => rfl) rfl rfl rfl

/-- What plain computations and calls are made of does the same on both machines. -/
theorem Calling.alike (hR : Congruence R) {base : Nat} {v : α} {x : Exec α}
    (h : Calling false n base v x m) : Alike R x m := by
  induction h with
  | plain h leaves => exact h.alike hR
  | chain k le fits first next ih => exact (first.alike hR).bind ih
  | read blind next ih => exact .read blind ih
  | push f start slot => exact alike_pushFrame hR f
  | last gives first ih =>
    refine ih.bind fun _ m' _ => ?_
    rw [gives]
    exact alike_pure _

/-! ## Instructions -/

theorem alike_returnFrom (hR : Congruence R) : Alike R returnFrom m := by
  refine ((plain_pop (b := false)).alike hR).bind fun result m₁ _ => .read (fun _ => rfl) ?_
  split
  · exact alike_pure _
  next f rest _ =>
    refine (alike_modify (fun s => ?_) fun s hs => ?_).bind fun _ m₂ _ => .read (fun _ => rfl) ?_
    · exact closeCells_withSide
        { m₁ with
          handlers := m₁.handlers.dropWhile fun h => rest.length + 1 ≤ h.frameDepth, frames := rest }
        s f.base
    · exact rel_closeCells hR _ (hR.control (m := m₁) rfl rfl rfl hs)
    · refine (alike_control hR (fun _ => rfl) rfl rfl rfl).bind fun _ _ _ => ?_
      split
      · exact alike_pure _
      · exact (plain_pushed (n := 0) _).alike hR

theorem enterCatch_withSide (m : Machine) (s : Side) (h : Handler) (v : Value) :
    (m.withSide s).enterCatch h v = (m.enterCatch h v).withSide s := by
  unfold Machine.enterCatch
  have frames : (m.withSide s).frames = m.frames := rfl
  rw [frames, endFrames_withSide, closeCells_withSide]
  rfl

theorem rel_enterCatch (hR : Congruence R) {s : Side} (h : Handler) (v : Value) (hs : R m s) :
    R (m.enterCatch h v) s :=
  hR.control (m := (m.endFrames h.frameDepth m.frames).closeCells h.stackDepth) rfl rfl rfl
    (rel_closeCells hR _ (rel_endFrames hR _ _ hs))

/-- A throw is caught by the same region on both machines, or fails on both. -/
theorem alike_throwValue (hR : Congruence R) (v : Value) : Alike R (throwValue v) m := by
  refine .read (fun _ => rfl) ?_
  split
  next h rest _ =>
    refine (alike_modify (fun s => ?_) fun s hs => ?_).bind fun _ _ _ => .read (fun _ => rfl) ?_
    · exact enterCatch_withSide { m with handlers := rest } s h v
    · exact rel_enterCatch hR h v (hR.control (m := m) rfl rfl rfl hs)
    · exact (plain_note (n := 0) _ _).alike hR
  next =>
    refine ((plain_note (n := 0) _ _).alike hR).bind fun _ _ _ => ?_
    exact (plain_fail (n := 0) _).alike hR

theorem alike_openIteration (hR : Congruence R) (v : Value) : Alike R (openIteration v) m := by
  refine .read (fun _ => rfl) ?_
  have opened : ∀ (it : Iteration) (m' : Machine),
      Alike R (modify fun m => { m with iterations := it :: m.iterations }) m' :=
    fun it m' => alike_control hR (fun _ => rfl) rfl rfl rfl
  simp only
  split
  · exact (alike_pure _).bind fun it m' _ => opened it m'
  · exact (alike_pure _).bind fun it m' _ => opened it m'
  · exact (alike_pure _).bind fun it m' _ => opened it m'
  · exact ((plain_fail (n := 0) _).alike hR).bind fun it m' _ => opened it m'

theorem alike_nextItem (hR : Congruence R) : Alike R nextItem m := by
  refine alike_modifyGet (fun s => ?_) fun s hs => ?_
  · have same : (m.withSide s).iterations = m.iterations := rfl
    rw [same]
    cases m.iterations with
    | nil => rfl
    | cons it rest =>
      have same : advance (m.withSide s).heap it = advance m.heap it := rfl
      simp only [same]
      cases advance m.heap it <;> rfl
  · split
    · exact hs
    · split <;> exact hR.control (m := m) rfl rfl rfl hs

theorem alike_andNext {x : Exec Unit} (h : Alike R x m) : Alike R (andNext x) m :=
  h.bind fun _ _ _ => alike_pure _

/-- The innermost call goes on elsewhere. -/
theorem alike_modifyFrame (hR : Congruence R) (g : Frame → Frame) : Alike R (modifyFrame g) m := by
  refine alike_modify (fun s => ?_) fun s => ?_
  · cases hf : m.frames <;> simp [Machine.withSide, hf]
  · split
    · exact id
    · exact hR.control rfl rfl rfl

theorem alike_jumpIf (hR : Congruence R) (c : Bool) (k : Nat) : Alike R (jumpIf c k) m := by
  refine alike_andNext ?_
  split
  · exact alike_modifyFrame hR _
  · exact alike_pure _

theorem alike_fetch (hR : Congruence R) : Alike R fetch m := by
  refine ((plain_frame (n := 0)).alike hR).bind fun f _ _ => .read (fun _ => rfl) ?_
  split
  · exact (alike_modifyFrame hR _).bind fun _ _ _ => alike_pure _
  · exact ((plain_push (n := 0) _).alike hR).bind fun _ _ _ => alike_pure _

/-- Every instruction does the same whatever the side is. -/
theorem alike_execute (hR : Congruence R) (i : Instruction) : Alike R (execute i) m := by
  by_cases plain : i.isPlain = true
  · exact (plain_execute plain).alike hR
  obtain ⟨op, x, y⟩ := i
  cases op with
  | setLocal =>
    refine alike_andNext (((plain_frame (n := 0)).alike hR).bind fun f m₁ _ => ?_)
    refine ((plain_peek (n := 0) _).alike hR).bind fun v m₂ _ => ?_
    exact (plain_setSlot (n := m₂.stack.size) _ v (Nat.le_add_left _ _)).alike hR
  | setUpvalue =>
    refine alike_andNext (((plain_ownCell (n := 0) _).alike hR).bind fun r m₁ _ => ?_)
    exact ((plain_peek (n := 0) _).alike hR).bind fun v m₂ _ => alike_writeCell hR r v
  | closeUpvalue =>
    refine .read (fun _ => rfl) ((alike_closeCells hR _).bind fun _ m₁ _ => ?_)
    exact (plain_pop.alike hR).bind fun _ _ _ => alike_pure _
  | jump | loop => exact alike_andNext (alike_modifyFrame hR _)
  | jumpIfFalse =>
    exact (plain_pop.alike hR).bind fun _ _ _ => .read (fun _ => rfl) (alike_jumpIf hR _ _)
  | jumpIfFalseNoPop | jumpIfTrueNoPop =>
    exact .read (fun _ => rfl) (((plain_peek (n := 0) 0).alike hR).bind fun _ _ _ => alike_jumpIf hR _ _)
  | nullishJump => exact ((plain_peek (n := 0) 0).alike hR).bind fun _ _ _ => alike_jumpIf hR _ _
  | call =>
    refine ((calling_call _).alike hR).bind fun r m₁ _ => ?_
    split <;> exact alike_pure _
  | closure => exact (alike_makeClosure hR _).bind fun v _ _ => (plain_pushed (n := 0) v).alike hR
  | ret => exact alike_returnFrom hR
  | new => exact alike_andNext ((calling_new _).alike hR)
  | tryBegin => exact alike_andNext (alike_control hR (fun _ => rfl) rfl rfl rfl)
  | tryEnd => exact alike_andNext (alike_control hR (fun _ => rfl) rfl rfl rfl)
  | throwTop => exact alike_andNext ((plain_pop.alike hR).bind fun v _ _ => alike_throwValue hR v)
  | getIter => exact alike_andNext ((plain_pop.alike hR).bind fun v _ _ => alike_openIteration hR v)
  | forIter =>
    refine (alike_nextItem hR).bind fun item m₁ _ => ?_
    split
    · exact (plain_pushed (n := 0) _).alike hR
    · exact alike_andNext (alike_modifyFrame hR _)
  | _ => exact absurd rfl plain

end Exec

/-! ## Runs -/

/-- The activity with another side of its machine. -/
def Activity.withSide (a : Activity) (s : Side) : Activity := { a with machine := a.machine.withSide s }

namespace Move

/-- The move with another side of its machine. -/
def withSide (v : Move) (s : Side) : Move :=
  match v with
  | .continue a => .continue (a.withSide s)
  | .done o m => .done o (m.withSide s)

/-- The machine after a move. -/
def machine : Move → Machine
  | .continue a => a.machine
  | .done _ m => m

end Move

namespace Activity

open Exec Machine

variable {R : Machine → Side → Prop}

/-- A fault is handed over in the same way, and the sides stay in the relation. -/
theorem alike_onFault (hR : Congruence R) (f : Fault) {m : Machine} {s : Side} (pending : List Pending)
    (hs : R m s) :
    onFault f (m.withSide s) pending = (onFault f m pending).withSide s ∧
      R (onFault f m pending).machine s := by
  cases f with
  | error e => exact ⟨rfl, hs⟩
  | missingConstant => exact ⟨rfl, hR.control (m := m) rfl rfl rfl hs⟩

/-- Entering again does not look at the side. -/
theorem alike_reenter {m : Machine} {s : Side} (pending : List Pending) (r : Reentry) (byEntry : Bool) (hs : R m s) :
    reenter (m.withSide s) pending r byEntry = (reenter m pending r byEntry).withSide s ∧
      R (reenter m pending r byEntry).machine s := by
  cases r <;> exact ⟨rfl, hs⟩

/-- Both machines execute the same instruction. -/
theorem alike_stepExecute (hR : Congruence R) {m : Machine} {s : Side} (pending : List Pending)
    (hs : R m s) :
    ∃ s', stepExecute (m.withSide s) pending = (stepExecute m pending).withSide s' ∧
      R (stepExecute m pending).machine s' := by
  have alike : Alike R (do execute (← fetch)) m :=
    (alike_fetch hR).bind fun i _ _ => alike_execute hR i
  obtain ⟨s', run, hs'⟩ := alike s hs
  refine ⟨s', ?_⟩
  unfold stepExecute
  rw [run]
  unfold Exec.after at hs'
  cases hx : (do execute (← fetch) : Exec Progress).run m with
  | ok progress m' =>
    rw [hx] at hs'
    cases progress with
    | reenter r => exact alike_reenter pending r false hs'
    | _ => exact ⟨rfl, hs'⟩
  | error f m' =>
    rw [hx] at hs'
    exact alike_onFault hR f pending hs'

theorem alike_beginCall (hR : Congruence R) {m : Machine} (callee : Value) (args : List Value) :
    Alike R (beginCall callee args) m := by
  unfold beginCall
  split
  · exact (plain_fail (n := 0) _).alike hR
  · exact (alike_control hR (fun _ => rfl) rfl rfl rfl).bind fun _ _ _ => (calling_call _).alike hR

/-- Both machines begin the same call. -/
theorem alike_stepInvoke (hR : Congruence R) {m : Machine} {s : Side} (pending : List Pending)
    (callee : Value) (args : List Value) (hs : R m s) :
    ∃ s', stepInvoke (m.withSide s) pending callee args =
        (stepInvoke m pending callee args).withSide s' ∧
      R (stepInvoke m pending callee args).machine s' := by
  obtain ⟨s', run, hs'⟩ := alike_beginCall hR callee args s hs
  refine ⟨s', ?_⟩
  unfold stepInvoke
  rw [run]
  unfold Exec.after at hs'
  cases hx : (beginCall callee args).run m with
  | ok r m' =>
    rw [hx] at hs'
    cases r with
    | none =>
      have depth : (m.withSide s).frames.length = m.frames.length := rfl
      have depth' : (m'.withSide s').frames.length = m'.frames.length := rfl
      simp only [sided, depth, depth']
      split
      · exact ⟨rfl, hR.control (m := m') rfl rfl rfl hs'⟩
      · exact ⟨rfl, hR.control (m := m') rfl rfl rfl hs'⟩
    | some r => exact alike_reenter pending r true hs'
  | error f m' =>
    rw [hx] at hs'
    exact alike_onFault hR f pending hs'

theorem alike_complete (hR : Congruence R) {m : Machine} {s : Side} (pending : List Pending) (byEntry : Bool)
    (v : Value) (hs : R m s) :
    complete (m.withSide s) pending byEntry v = (complete m pending byEntry v).withSide s ∧
      R (complete m pending byEntry v).machine s := by
  cases byEntry with
  | true => exact ⟨rfl, hs⟩
  | false => exact ⟨rfl, hR.control (m := m) rfl rfl rfl hs⟩

theorem alike_resume (hR : Congruence R) {m : Machine} {s : Side} (pending : List Pending)
    (caller : Caller) (v : Value) (hs : R m s) :
    resume (m.withSide s) pending caller v = (resume m pending caller v).withSide s ∧
      R (resume m pending caller v).machine s := by
  cases caller with
  | instruction c => exact ⟨rfl, hR.control (m := m) rfl rfl rfl hs⟩
  | _ => exact ⟨rfl, hs⟩

/-- Both machines hand the same result to the same caller. -/
theorem alike_stepDeliver (hR : Congruence R) {m : Machine} {s : Side} (pending : List Pending)
    (v : Value) (hs : R m s) :
    stepDeliver (m.withSide s) pending v = (stepDeliver m pending v).withSide s ∧
      R (stepDeliver m pending v).machine s := by
  cases pending with
  | nil => exact ⟨rfl, hs⟩
  | cons p rest =>
    have kept : R { m with runBase := p.runBase } s := hR.control (m := m) rfl rfl rfl hs
    unfold stepDeliver
    simp only
    split
    · exact ⟨rfl, hR.control (m := m) rfl rfl rfl hs⟩
    · exact ⟨rfl, kept⟩
    · exact alike_resume hR rest _ v kept
    · exact alike_resume hR rest _ v kept
    · exact alike_resume hR rest _ v kept

/-- Going back to the depths of an entry does not look at the side. -/
theorem unwindTo_withSide (m : Machine) (s : Side) (d : Depths) :
    (m.withSide s).unwindTo d = (m.unwindTo d).withSide s := by
  unfold unwindTo
  have frames : (m.withSide s).frames = m.frames := rfl
  rw [frames, endFrames_withSide, closeCells_withSide]
  rfl

theorem rel_unwindTo (hR : Congruence R) {m : Machine} {s : Side} (d : Depths) (hs : R m s) :
    R (m.unwindTo d) s :=
  hR.control (m := (m.endFrames d.frames m.frames).closeCells d.stack) rfl rfl rfl
    (rel_closeCells hR _ (rel_endFrames hR _ _ hs))

/-- A native function makes the same of an error on both machines. -/
theorem alike_stepCallbackError (hR : Congruence R) {m : Machine} {s : Side} (pending : List Pending)
    (p : Pending) (c : Callback) (e : RuntimeError) (hs : R m s) :
    ∃ s', stepCallbackError (m.withSide s) pending p c e =
        (stepCallbackError m pending p c e).withSide s' ∧
      R (stepCallbackError m pending p c e).machine s' := by
  have unwound : ((m.withSide s).recordError e).unwindTo p.depths =
      ((m.recordError e).unwindTo p.depths).withSide s := unwindTo_withSide (m.recordError e) s p.depths
  have kept : R ((m.recordError e).unwindTo p.depths) s :=
    rel_unwindTo hR _ (hR.control (m := m) rfl rfl rfl hs)
  obtain ⟨s', run, hs'⟩ := (plain_callbackError (n := 0) c e).alike hR s kept
  refine ⟨s', ?_⟩
  unfold stepCallbackError
  rw [unwound, run]
  unfold Exec.after at hs'
  cases hx : (callbackError c e).run ((m.recordError e).unwindTo p.depths) with
  | ok v m' =>
    rw [hx] at hs'
    exact alike_resume hR pending _ v hs'
  | error f m' =>
    rw [hx] at hs'
    exact alike_onFault hR f pending hs'

/-- Both machines hand the same error to the same caller. -/
theorem alike_stepRaise (hR : Congruence R) {m : Machine} {s : Side} (pending : List Pending)
    (e : RuntimeError) (hs : R m s) :
    ∃ s', stepRaise (m.withSide s) pending e = (stepRaise m pending e).withSide s' ∧
      R (stepRaise m pending e).machine s' := by
  cases pending with
  | nil => exact ⟨s, rfl, hs⟩
  | cons p rest =>
    have kept : R { m with runBase := p.runBase } s := hR.control (m := m) rfl rfl rfl hs
    unfold stepRaise
    simp only
    split
    · exact ⟨s, rfl, hR.control (m := m) rfl rfl rfl hs⟩
    · refine ⟨s, ?_, rel_unwindTo hR _ (hR.control (m := m) rfl rfl rfl hs)⟩
      have unwound := unwindTo_withSide (recordError { m with runBase := p.runBase } e) s p.depths
      exact congrArg (Move.done _) unwound
    · exact alike_stepCallbackError hR rest p _ e kept
    · exact alike_stepCallbackError hR rest p _ e kept
    next byEntry c _ =>
      refine ⟨s, ?_, rel_unwindTo hR _ (hR.control (m := m) rfl rfl rfl hs)⟩
      have unwound := unwindTo_withSide (recordError { m with runBase := p.runBase } e) s p.depths
      exact congrArg (fun m => Move.continue ⟨m, rest, .ask byEntry (c.answered (.error e))⟩) unwound

/-- One move is the same whatever the side is. -/
theorem step_alike (hR : Congruence R) (a : Activity) {s : Side} (hs : R a.machine s) :
    ∃ s', (a.withSide s).step = a.step.withSide s' ∧ R a.step.machine s' := by
  obtain ⟨m, pending, control⟩ := a
  cases control with
  | execute => exact alike_stepExecute hR pending hs
  | invoke callee args => exact alike_stepInvoke hR pending callee args hs
  | ask byEntry c => exact ⟨s, alike_complete hR pending byEntry .null hs⟩
  | deliver v => exact ⟨s, alike_stepDeliver hR pending v hs⟩
  | raise e => exact alike_stepRaise hR pending e hs

/-- A run ends in the same way whatever the side is, and does not end if the other does not. -/
theorem run_alike (hR : Congruence R) (fuel : Nat) (a : Activity) {s : Side} (hs : R a.machine s) :
    (a.run fuel = none ∧ (a.withSide s).run fuel = none) ∨
      ∃ o m s', a.run fuel = some (o, m) ∧ (a.withSide s).run fuel = some (o, m.withSide s') ∧ R m s' := by
  induction fuel generalizing a s with
  | zero => exact .inl ⟨rfl, rfl⟩
  | succ fuel ih =>
    obtain ⟨s', step, hs'⟩ := step_alike hR a hs
    unfold run
    rw [step]
    cases hx : a.step with
    | «continue» a' =>
      rw [hx] at hs'
      exact ih a' hs'
    | done o m =>
      rw [hx] at hs'
      exact .inr ⟨o, m, s', rfl, rfl, hs'⟩

end Activity

/-! ## Entries -/

namespace Machine

open Exec

variable {R : Machine → Side → Prop} {m : Machine} {s : Side}

/-- The machine at rest with a script's function in slot 0. -/
def laidOut (m : Machine) (p : Proto) : Machine :=
  { m.reset with
    lastUnwind := none, stack := #[.closure (m.world.newClosure p).1], world := (m.world.newClosure p).2 }

theorem startScript_eq (m : Machine) (p : Proto) :
    m.startScript p =
      match (pushFrame { closure := (m.world.newClosure p).1 }).run (m.laidOut p) with
      | .ok _ m' => ⟨m', [⟨.script, (m.laidOut p).depths, 0⟩], .execute⟩
      | .error (.error e) m' => ⟨m', [⟨.script, (m.laidOut p).depths, 0⟩], .raise e⟩
      | .error .missingConstant m' => ⟨m', [⟨.script, (m.laidOut p).depths, 0⟩], .execute⟩ := rfl

/-- The machine with one more native function. -/
def withNative (m : Machine) (n : Native) : Machine :=
  { m with
    globals := m.globals.insert n.name (m.world.heap.allocNative n).1
    world := { m.world with heap := (m.world.heap.allocNative n).2 } }

theorem fresh_eq (config : Config) (natives : List Native) (world : World) :
    Machine.fresh config natives world = natives.foldl withNative { config, world } := rfl

/-- What an operation of the world makes of two machines that differ in their sides. -/
theorem alike_world (hR : WorldCongruence R) {α : Type} {f : World → α × World} (hs : R m s)
    (blind : World.Blind f m.world) :
    ∃ s', (f (m.withSide s).world).1 = (f m.world).1 ∧
      { m.withSide s with world := (f (m.withSide s).world).2 } =
        Machine.withSide { m with world := (f m.world).2 } s' ∧
      R { m with world := (f m.world).2 } s' := by
  obtain ⟨s', run, hs'⟩ := alike_withWorld hR blind s hs
  rw [run_withWorld, run_withWorld] at run
  obtain ⟨value, machine⟩ := EStateM.Result.ok.inj run
  exact ⟨s', value, machine, hs'⟩

/-- A script begins in the same way on both machines. -/
theorem alike_startScript (hR : Congruence R) (hs : R m s) (p : Proto) :
    ∃ s', (m.withSide s).startScript p = (m.startScript p).withSide s' ∧ R (m.startScript p).machine s' := by
  have blind : World.Blind (fun w => w.newClosure p) m.world :=
    ⟨[], fun _ _ => ⟨rfl, .single (.newClosure _ _)⟩⟩
  obtain ⟨s₁, value, machine, hs₁⟩ := alike_world hR.toWorldCongruence hs blind
  have laid : (m.withSide s).laidOut p = (m.laidOut p).withSide s₁ := by
    have stacked := congrArg
      (fun m' : Machine =>
        { m'.reset with lastUnwind := none, stack := #[.closure (m.world.newClosure p).1] }) machine
    exact stacked
  have hs₂ : R (m.laidOut p) s₁ :=
    hR.control (m := { m with world := (m.world.newClosure p).2 }) rfl rfl rfl hs₁
  obtain ⟨s₂, run, hs₃⟩ := alike_pushFrame hR { closure := (m.world.newClosure p).1 } s₁ hs₂
  refine ⟨s₂, ?_⟩
  rw [startScript_eq, startScript_eq, laid, value, run]
  unfold Exec.after at hs₃
  cases hx : (pushFrame { closure := (m.world.newClosure p).1 }).run (m.laidOut p) with
  | ok v m' =>
    rw [hx] at hs₃
    exact ⟨rfl, hs₃⟩
  | error f m' =>
    rw [hx] at hs₃
    cases f <;> exact ⟨rfl, hs₃⟩

end Machine

/-! ## Laws of the world along a run

A machine is in lockstep with itself, so a law that every change keeps is a law of whole runs. -/

namespace Activity

open Exec World

variable {P : World → Prop}

/-- What only uses the side leaves the visible machine alone. -/
theorem plain_of_sideUse {α : Type} {x : Exec α} (side : SideUse x) (m : Machine) : Plain true 0 x m := by
  cases side with
  | read r name site => exact plain_getObjectProperty r name site
  | write r name v site => exact plain_setObjectProperty r name v site
  | clear => exact plain_clearCaches
  | importing i => exact plain_importModule i

/-- What every change of the world keeps holds however the world evolves. -/
theorem law_of_evolves (change : ∀ {w w' : World}, Change w w' → P w → P w') {w w' : World}
    (e : Evolves w w') (h : P w) : P w' := by
  induction e with
  | refl => exact h
  | tail _ c ih => exact change c ih

/-- A property of worlds that every change keeps makes a congruence that both machines satisfy. -/
theorem congruence_of_law (change : ∀ {w w' : World}, Change w w' → P w → P w')
    (cells : ∀ {w : World} (cells : Pool .cell Cell), P w → P { w with heap := { w.heap with cells } }) :
    Congruence fun m s => s = m.side ∧ P m.world where
  control {m m' s} world config stats h := by
    obtain ⟨rfl, h⟩ := h
    refine ⟨?_, world ▸ h⟩
    unfold Machine.side
    rw [world, config, stats]
  cells c h := ⟨h.1, cells c h.2⟩
  world {m s w es} h evolves sameCaches log _ := by
    obtain ⟨rfl, h⟩ := h
    refine ⟨?_, law_of_evolves change evolves h⟩
    show Side.mk _ _ _ (m.world.log.hearAll es) = Side.mk _ _ _ w.log
    rw [log, sameCaches]
    rfl
  use {α x} m side := by
    rintro s ⟨rfl, h⟩
    refine ⟨(x.after m).side, ?_, rfl, law_of_evolves change (plain_of_sideUse side m).keeps.world h⟩
    unfold Exec.after
    rw [Machine.withSide_side]
    cases x.run m <;> rfl

/-- A law that every change keeps holds after a run, if it held before. -/
theorem run_law (change : ∀ {w w' : World}, Change w w' → P w → P w')
    (cells : ∀ {w : World} (cells : Pool .cell Cell), P w → P { w with heap := { w.heap with cells } })
    {fuel : Nat} {a : Activity} {o : Outcome} {m : Machine} (run : a.run fuel = some (o, m))
    (h : P a.machine.world) : P m.world := by
  rcases run_alike (congruence_of_law change cells) fuel a (s := a.machine.side) ⟨rfl, h⟩ with
    ⟨none, -⟩ | ⟨o', m', s', run', -, -, h'⟩
  · rw [none] at run
    cases run
  · rw [run'] at run
    cases run
    exact h'

/-- A law that every change keeps holds when a script has been started. -/
theorem startScript_law (change : ∀ {w w' : World}, Change w w' → P w → P w')
    (cells : ∀ {w : World} (cells : Pool .cell Cell), P w → P { w with heap := { w.heap with cells } })
    {m : Machine} (p : Proto) (h : P m.world) : P (m.startScript p).machine.world := by
  obtain ⟨s', -, -, h'⟩ :=
    Machine.alike_startScript (congruence_of_law change cells) (s := m.side) ⟨rfl, h⟩ p
  exact h'

end Activity

end ScriptVm
