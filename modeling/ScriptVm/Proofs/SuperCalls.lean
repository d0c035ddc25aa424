import ScriptVm.Fallible
import ScriptVm.Proofs.CallsAndRegions
import ScriptVm.Proofs.Unlogged

/-!
# Where `super` starts

A function has one home, which changes whenever a class adopts the function as a method. So `super`
starts at the superclass that the class which adopted the function last had at that moment. For a class
that holds the function it starts at the right place exactly if the class has that superclass: not if the
class got its own superclass after the method, and not if a class with another superclass has adopted
the function since.

The main result is `Session.super_starts_at_last_home`.
-/

set_option autoImplicit false

namespace ScriptVm

open Exec World Machine

/-! ## Homes -/

/-- The superclass of the home of a function. -/
def Heap.homeSuper (h : Heap) (f : Ref .closure) : Option (Ref .cls) := (h.closures.get f).homeSuper

/-- A backing that is related to itself only, in which the home of `f` has the superclass `x`. -/
def Backing.Homed (f : Ref .closure) (x : Option (Ref .cls)) (b b' : Backing) : Prop :=
  b' = b ∧ b.world.heap.homeSuper f = x

/-- The function that a method instruction adopts, with the superclass of the class that adopts it. -/
def Machine.adoption? (m : Machine) : Option (Ref .closure × Option (Ref .cls)) :=
  match m.stack.back?, m.stack.pop.back? with
  | some (.closure f), some (.cls r) =>
    if f.index < m.heap.closures.size then some (f, (m.heap.classes.get r).superclass) else none
  | _, _ => none

/-- The superclass of the home of `f` after an adoption, if it was `x` before. -/
def homeAfter (f : Ref .closure) (x : Option (Ref .cls)) : Option (Ref .closure × Option (Ref .cls)) → Option (Ref .cls)
  | some (g, superclass) => if g = f then superclass else x
  | none => x

namespace Heap

variable {h : Heap} {f g : Ref .closure}

/-- A new function has no home. -/
theorem homeSuper_allocClosure (proto : Proto) (cells : List (Ref .cell)) :
    (h.allocClosure { proto, cells }).2.homeSuper f = h.homeSuper f := by
  show ((h.closures.alloc { proto, cells }).2.get f).homeSuper = (h.closures.get f).homeSuper
  rw [Pool.get_alloc_eq]
  split
  next new =>
    have missing : ¬ h.closures.has f := by
      unfold Pool.has
      rw [new]
      exact Nat.lt_irrefl _
    rw [Pool.get_of_not_has missing]
    rfl
  next => rfl

theorem homeSuper_set (c : Closure) :
    ({ h with closures := h.closures.set g c } : Heap).homeSuper f =
      homeAfter f (h.homeSuper f) (if g.index < h.closures.size then some (g, c.homeSuper) else none) := by
  show ((h.closures.set g c).get f).homeSuper = _
  rw [Pool.get_set_eq]
  by_cases same : g = f
  · subst same
    by_cases known : g.index < h.closures.size
    · rw [if_pos ⟨rfl, known⟩, if_pos known, homeAfter, if_pos rfl]
    · rw [if_neg fun both => known both.2, if_neg known, homeAfter, Heap.homeSuper]
  · rw [if_neg fun both => same both.1]
    split
    · rw [homeAfter, if_neg same, Heap.homeSuper]
    · rfl

end Heap

theorem unlogged_homed (f : Ref .closure) (x : Option (Ref .cls)) : Unlogged (Backing.Homed f x) where
  log := by
    rintro b _ ⟨rfl, -⟩
    rfl
  hear := by
    rintro b _ ⟨rfl, home⟩ e
    exact ⟨rfl, home⟩
  cleared := by
    rintro b _ ⟨rfl, home⟩
    exact ⟨rfl, home⟩
  printed := by
    rintro b _ ⟨rfl, -⟩
    rfl
  newClosure := by
    rintro b _ ⟨rfl, home⟩ proto cells
    exact ⟨rfl, (Heap.homeSuper_allocClosure proto cells).trans home⟩
  change := by
    rintro b _ ⟨rfl, home⟩ c log closures
    refine ⟨?_, ?_⟩
    · rw [← log]
      rfl
    · show (c.world.heap.closures.get f).homeSuper = x
      rw [closures]
      exact home

/-! ## Methods -/

namespace Exec

variable {m : Machine} {f : Ref .closure} {x : Option (Ref .cls)}

/-- What is done to functions by putting a method into a class whose home it becomes. -/
theorem homeSuper_adopting (draft : Class) (g : Ref .closure) (c : Class) :
    ((republish draft >>= fun _ => modifyHeap fun h =>
        { h with
          closures := h.closures.set g { h.closures.get g with home := c.name, homeSuper := c.superclass } }
      : Exec Unit).after m).heap.homeSuper f =
      homeAfter f (m.heap.homeSuper f)
        (if g.index < m.heap.closures.size then some (g, c.superclass) else none) :=
  Heap.homeSuper_set (h := m.heap) _

theorem run_classOnTop (m : Machine) :
    classOnTop.run m =
      match m.stack.back?.bind Value.cls? with
      | some r => .ok r m
      | none => .error (.error ⟨.classExpected, m.span⟩) m := by
  unfold classOnTop
  rw [run_bind_of_ok (run_get _)]
  cases m.stack.back?.bind Value.cls? <;> rfl

/-- Without a class on top of the stack nothing is done. -/
theorem after_classOnTop (body : Ref .cls → Exec Unit) (none : m.stack.back?.bind Value.cls? = none) :
    (classOnTop >>= body).after m = m := by
  have failed := run_classOnTop m
  rw [none] at failed
  exact after_of_error (run_bind_of_error failed)

/-- What a method instruction does to the home of a function. -/
theorem homeSuper_defineMethod (name : Text) (isStatic : Bool) :
    ((defineMethod name isStatic).after m).heap.homeSuper f =
      homeAfter f (m.heap.homeSuper f) m.adoption? := by
  have popped : pop.run m = .ok (m.stack.back?.getD .null) { m with stack := m.stack.pop } := rfl
  unfold defineMethod Machine.adoption?
  rw [after_bind popped]
  cases m.stack.back? with
  | none => rfl
  | some v =>
    cases v with
    | closure g =>
      have found := run_classOnTop { m with stack := m.stack.pop }
      have failed := fun body => after_classOnTop (m := { m with stack := m.stack.pop }) body
      simp only [Option.getD_some] at found failed ⊢
      cases below : m.stack.pop.back? with
      | none =>
        rw [failed _ (by rw [below]; rfl)]
        rfl
      | some w =>
        cases w with
        | cls r =>
          rw [below] at found
          have read : heap.run { m with stack := m.stack.pop } = .ok m.heap { m with stack := m.stack.pop } := rfl
          rw [after_bind found, after_bind read]
          exact homeSuper_adopting _ g (m.heap.classes.get r)
        | _ =>
          rw [failed _ (by rw [below]; rfl)]
          rfl
    | _ => rfl

end Exec

/-! ## Moves -/

namespace Activity

/-- The function that the next move adopts as a method, with the superclass of the class that adopts it. -/
def adopts? (a : Activity) : Option (Ref .closure × Option (Ref .cls)) :=
  match a.control with
  | .execute =>
    match fetch.run a.machine with
    | .ok i m =>
      if (i.op = .method ∨ i.op = .staticMethod) ∧ (m.nameAt? i.a.toNat).isSome then m.adoption? else none
    | .error _ _ => none
  | _ => none

/-- The superclass of the home of `f` after activities, latest first, if it was `x` before them. -/
def lastHome (f : Ref .closure) (x : Option (Ref .cls)) : List Activity → Option (Ref .cls)
  | [] => x
  | a :: before => homeAfter f (lastHome f x before) a.adopts?

variable {f : Ref .closure} {x : Option (Ref .cls)} {a b : Activity}

theorem lastHome_append (later before : List Activity) :
    lastHome f x (later ++ before) = lastHome f (lastHome f x before) later := by
  induction later with
  | nil => rfl
  | cons a rest ih => rw [List.cons_append, lastHome, lastHome, ih]

/-- What executing a method instruction does to the home of a function. -/
theorem homeSuper_executeMethod {i : Instruction} {m : Machine} (op : i.op = .method ∨ i.op = .staticMethod) :
    ((execute i).after m).heap.homeSuper f =
      homeAfter f (m.heap.homeSuper f) (if (m.nameAt? i.a.toNat).isSome then m.adoption? else none) := by
  have executed : ∃ isStatic, execute i = andNext (constantName i.a.toNat >>= fun t => defineMethod t isStatic) := by
    unfold execute
    rcases op with op | op
    · exact ⟨false, by rw [op]⟩
    · exact ⟨true, by rw [op]⟩
  obtain ⟨isStatic, executed⟩ := executed
  rw [executed, after_andNext]
  obtain ⟨t, named, run⟩ | ⟨nameless, fault, run⟩ := constantName_cases m i.a.toNat
  · rw [after_bind run, named, homeSuper_defineMethod]
    rfl
  · rw [after_of_error (run_bind_of_error run), nameless]
    rfl

theorem world_stepExecute {m m' : Machine} {i : Instruction} (fetched : fetch.run m = .ok i m')
    (pending : List Pending) : (stepExecute m pending).machine.world = ((execute i).after m').world := by
  obtain ⟨k, moved⟩ := machine_stepExecute fetched pending
  rw [moved]

/-- Whether the next move executes a method instruction. -/
def Methodical (a : Activity) : Prop :=
  a.control = .execute ∧ ∃ i m, fetch.run a.machine = .ok i m ∧ (i.op = .method ∨ i.op = .staticMethod)

theorem adopts?_of_not_methodical (other : ¬ a.Methodical) : a.adopts? = none := by
  unfold adopts?
  split
  next control =>
    split
    next i m fetched =>
      refine if_neg fun both => other ⟨control, i, m, fetched, both.1⟩
    next => rfl
  next => rfl

/-- A move that executes no method instruction leaves the homes of functions alone. -/
theorem together_homed (other : ¬ a.Methodical) : a.Together (Backing.Homed f x) := by
  have hR := unlogged_homed f x
  have hB := hR.hostBisimulation.toBisimulation
  refine together_of_unlogged hR fun i m control fetched suspect => ?_
  unfold Instruction.isSuspect at suspect
  unfold execute
  cases op : i.op with
  | importModule =>
    have imported : Same (Backing.Homed f x) (importModule i.a.toNat) m := by
      refine .read (fun b hb => ?_) ?_
      · obtain ⟨rfl, -⟩ := hb
        rfl
      · split
        · exact (same_constantName hB _).bind fun name _ _ => same_note hB _ _
        · exact same_pure ()
    exact same_andNext imported
  | method => exact absurd ⟨control, i, m, fetched, .inl op⟩ other
  | staticMethod => exact absurd ⟨control, i, m, fetched, .inr op⟩ other
  | _ =>
    rw [op] at suspect
    cases suspect

/-- One move changes the home of a function only by adopting it. -/
theorem homeSuper_step (home : a.machine.heap.homeSuper f = x) :
    a.step.machine.heap.homeSuper f = homeAfter f x a.adopts? := by
  by_cases methodical : a.Methodical
  · obtain ⟨control, i, m, fetched, op⟩ := methodical
    have adopts : a.adopts? = if (m.nameAt? i.a.toNat).isSome then m.adoption? else none := by
      unfold adopts?
      rw [control]
      simp only [fetched, op, true_and]
    have moved : a.step = stepExecute a.machine a.pending := by
      unfold step
      rw [control]
    obtain ⟨fs, -, rfl⟩ := fetched_eq fetched (by rcases op with op | op <;> rw [op] <;> nofun)
    rw [moved, Machine.heap, world_stepExecute fetched, adopts, ← home]
    exact homeSuper_executeMethod op
  · rw [adopts?_of_not_methodical methodical]
    have twin := together_homed (f := f) (x := x) methodical a.machine.backing ⟨rfl, home⟩
    generalize (a.on a.machine.backing).step = move at twin
    cases step : a.step with
    | «continue» b =>
      rw [step] at twin
      cases twin with
      | «continue» rel => exact rel.2
    | done o m =>
      rw [step] at twin
      cases twin with
      | done o rel => exact rel.2

/-- The home of a function at every activity of a run. -/
theorem homeSuper_moves {n : Nat} {later before : List Activity} (home : a.machine.heap.homeSuper f = x)
    (split : a.moves n = later ++ b :: before) : b.machine.heap.homeSuper f = lastHome f x before := by
  induction n generalizing a x before with
  | zero => cases later <;> cases split
  | succ n ih =>
    have next := homeSuper_step home
    unfold moves at split
    -- The first activity is the last of the list: it is `b`, or `b` comes later.
    obtain rfl | ⟨rest, c, rfl⟩ := List.eq_nil_or_concat before
    · cases step : a.step with
      | «continue» c =>
        rw [step] at split
        cases (List.append_inj' split rfl).2
        exact home
      | done o m =>
        rw [step] at split
        cases later with
        | nil =>
          cases split
          exact home
        | cons c later => cases later <;> cases split
    · rw [List.concat_eq_append] at split ⊢
      cases step : a.step with
      | «continue» c =>
        rw [step] at split next
        obtain ⟨moves, last⟩ := List.append_inj' (split.trans (List.append_assoc later (b :: rest) _).symm) rfl
        cases last
        rw [lastHome_append]
        exact ih next moves
      | done o m =>
        rw [step] at split
        have length := congrArg List.length split
        simp only [List.length_append, List.length_cons, List.length_nil] at length
        omega

/-- The home of a function at the end of a run. -/
theorem homeSuper_run {n : Nat} {o : Outcome} {m : Machine} (home : a.machine.heap.homeSuper f = x)
    (run : a.run n = some (o, m)) : m.heap.homeSuper f = lastHome f x (a.moves n) := by
  induction n generalizing a x with
  | zero => cases run
  | succ n ih =>
    have next := homeSuper_step home
    unfold Activity.run at run
    unfold moves
    cases step : a.step with
    | «continue» c =>
      rw [step] at run next
      rw [lastHome_append]
      exact ih next run
    | done o' m' =>
      rw [step] at run next
      cases run
      exact next

end Activity

/-! ## Looking names up for `super` -/

/-- What a look-up for `super` gives that starts at a class, if there is one. -/
def Heap.superMethod (h : Heap) (start : Option (Ref .cls)) (name : Text) : Fallible Cause Callable :=
  match start with
  | none => .err .superOutside
  | some r =>
    match h.findMethod r name with
    | some (method, _) => .ok method
    | none => .err (.noSuchProperty ("super(" ++ (h.classes.get r).name ++ ")") name)

namespace Activity

/-- The function under way and the name that the next move looks up for `super`. -/
def superCall? (a : Activity) : Option (Ref .closure × Text) :=
  match a.control with
  | .execute =>
    match fetch.run a.machine with
    | .ok i m =>
      if i.op = .getSuper then
        (m.nameAt? i.a.toNat).map fun name => ((m.frames.headD default).closure, name)
      else none
    | .error _ _ => none
  | _ => none

/-- The next move puts a method on the stack, with its receiver, or fails. -/
def Gets (a : Activity) : Fallible Cause Callable → Prop
  | .ok method => ∃ m r, a.step = .continue ⟨m, a.pending, .execute⟩ ∧ m.stack.back? = some (.bound r) ∧
      (m.heap.bounds.get r).target = method
  | .err c => ∃ m span, a.step = .continue ⟨m, a.pending, .raise ⟨c, span⟩⟩

/-- The next move fails since there is no superclass to start at. -/
def FailsOutside (a : Activity) : Prop :=
  ∃ m span, a.step = .continue ⟨m, a.pending, .raise ⟨.superOutside, span⟩⟩

variable {a : Activity} {f : Ref .closure} {name : Text}

theorem superCall?_eq_some_iff :
    a.superCall? = some (f, name) ↔ a.control = .execute ∧ ∃ i m, fetch.run a.machine = .ok i m ∧
      i.op = .getSuper ∧ m.nameAt? i.a.toNat = some name ∧ (m.frames.headD default).closure = f := by
  unfold superCall?
  cases a.control with
  | execute =>
    cases fetch.run a.machine with
    | ok i m => simp [and_comm, and_assoc]
    | error e m => simp
  | _ => simp

/-- What reading a method of a superclass comes to. -/
theorem getSuper_cases (m : Machine) (name : Text) :
    match m.heap.superMethod (m.heap.homeSuper (m.frames.headD default).closure) name with
    | .ok method => ∃ m' r, (getSuper name).run m = .ok (.bound r) m' ∧ (m'.heap.bounds.get r).target = method
    | .err c => (getSuper name).run m = .error (.error ⟨c, m.span⟩) m := by
  have read : (getSuper name).run m =
      match m.heap.homeSuper (m.frames.headD default).closure with
      | some r => (getSuperMethod r name).run m
      | none => .error (.error ⟨.superOutside, m.span⟩) m := by
    have frame : Exec.frame.run m = .ok (m.frames.headD default) m := rfl
    unfold getSuper Heap.homeSuper
    rw [run_bind_of_ok frame, run_bind_of_ok (run_heap m)]
    cases (m.heap.closures.get (m.frames.headD default).closure).homeSuper <;> rfl
  rw [read]
  unfold Heap.superMethod
  cases m.heap.homeSuper (m.frames.headD default).closure with
  | none => rfl
  | some r =>
    unfold getSuperMethod
    simp only
    rw [run_bind_of_ok (run_heap m)]
    cases m.heap.findMethod r name with
    | none => rfl
    | some found =>
      obtain ⟨method, owner⟩ := found
      cases method with
      | closure g => exact ⟨_, _, rfl, congrArg BoundMethod.target (Pool.get_alloc_self _ _)⟩
      | native g => exact ⟨_, _, rfl, congrArg BoundMethod.target (Pool.get_alloc_self _ _)⟩

/-- `super` starts at the superclass of the home of the function under way. -/
theorem gets_superMethod (asks : a.superCall? = some (f, name)) :
    a.Gets (a.machine.heap.superMethod (a.machine.heap.homeSuper f) name) := by
  obtain ⟨control, i, m, fetched, op, named, rfl⟩ := superCall?_eq_some_iff.1 asks
  obtain ⟨fs, -, rfl⟩ := fetched_eq fetched (by rw [op]; nofun)
  have executed : ∀ r,
      (getSuper name >>= pushed).run { a.machine with frames := fs, stack := a.machine.stack.pop } = r →
      (fetch >>= execute).run a.machine = r := by
    rintro r rfl
    rw [run_bind_of_ok fetched]
    unfold execute
    simp only [op]
    rw [run_bind_of_ok (run_constantName named)]
    rfl
  have moved : a.step = stepExecute a.machine a.pending := by
    unfold step
    rw [control]
  have looked := getSuper_cases { a.machine with frames := fs, stack := a.machine.stack.pop } name
  unfold stepExecute at moved
  unfold Gets
  change match a.machine.heap.superMethod (a.machine.heap.homeSuper _) name with
    | .ok method => _
    | .err c => _ at looked
  generalize a.machine.heap.superMethod (a.machine.heap.homeSuper _) name = result at looked ⊢
  cases result with
  | ok method =>
    obtain ⟨m', r, run, target⟩ := looked
    rw [executed _ (run_bind_of_ok run)] at moved
    exact ⟨_, r, moved, by simp, target⟩
  | err c =>
    rw [executed _ (run_bind_of_error looked)] at moved
    exact ⟨_, _, moved⟩

/-- A look-up for `super` fails outside of subclass methods only if there is no class to start at. -/
theorem Gets.failsOutside_iff {start : Option (Ref .cls)} {h : Heap} (gets : a.Gets (h.superMethod start name)) :
    a.FailsOutside ↔ start = none := by
  unfold Heap.superMethod at gets
  constructor
  · rintro ⟨m, span, failed⟩
    cases start with
    | none => rfl
    | some r =>
      cases found : h.findMethod r name with
      | some x =>
        simp only [found] at gets
        obtain ⟨m', r', going, -⟩ := gets
        rw [failed] at going
        cases going
      | none =>
        simp only [found] at gets
        obtain ⟨m', span', other⟩ := gets
        rw [failed] at other
        cases other
  · rintro rfl
    exact gets

end Activity

/-! ## Sessions -/

/-- Whether a run did not end. -/
def Answer.isUnfinished : Answer → Bool
  | .unfinished => true
  | _ => false

namespace Session

open Activity

variable {f : Ref .closure} {x : Option (Ref .cls)} {s : Session}

/-- A session is its own twin. -/
theorem twin_homed (home : s.machine.heap.homeSuper f = x) : s.Twin Eq (Backing.Homed f x) s :=
  ⟨⟨s.machine.backing, rfl, rfl, home⟩, kept_refl likeness_eq s.kept, rfl⟩

/-- A command that sets an activity going ends as the run ends. -/
theorem dispatch_of_entry {c : Command} {a : Activity} (entry : s.entry? c = some a) :
    ∃ s₁ : Session, s.dispatch c = s₁.conclude (a.run s.fuel) := by
  cases c with
  | interpret script keepAs =>
    cases entry
    exact ⟨_, rfl⟩
  | interpretKept name =>
    obtain ⟨p, known, rfl⟩ := Option.map_eq_some_iff.1 entry
    simp only [Session.dispatch, known]
    exact ⟨s, rfl⟩
  | callGlobal name args =>
    obtain ⟨callee, known, rfl⟩ := Option.map_eq_some_iff.1 entry
    simp only [Session.dispatch, Machine.callGlobal, known]
    exact ⟨_, rfl⟩
  | callValue callee args =>
    cases entry
    exact ⟨_, rfl⟩
  | callMany callee count arg =>
    cases entry
    exact ⟨_, rfl⟩
  | _ => cases entry

/-- The home of a function after a command that has ended. -/
theorem homeSuper_dispatch {c : Command} (home : s.machine.heap.homeSuper f = x)
    (ended : (s.dispatch c).1.isUnfinished = false) :
    (s.dispatch c).2.machine.heap.homeSuper f = lastHome f x (s.movesOf c) := by
  have hR := unlogged_homed f x
  unfold movesOf
  cases entry : s.entry? c with
  | none =>
    have together : ∀ a ∈ s.movesOf c, a.Together (Backing.Homed f x) := by
      unfold movesOf
      rw [entry]
      exact fun a ha => nomatch ha
    obtain ⟨-, twin⟩ := (twin_homed home).dispatch hR.hostBisimulation c together
      fun special => (twin_homed home).dispatch_special hR special
    obtain ⟨b, -, -, kept⟩ := twin.machine
    exact kept
  | some a =>
    obtain ⟨b, -, started⟩ := (twin_homed home).entry hR.hostBisimulation entry
    obtain ⟨s₁, concluded⟩ := dispatch_of_entry entry
    rw [concluded] at ended ⊢
    cases run : a.run s.fuel with
    | none =>
      rw [run] at ended
      cases ended
    | some r =>
      obtain ⟨o, m⟩ := r
      have kept := homeSuper_run started run
      cases o <;> exact kept

/-- The home of a function at every activity that a command leads to. -/
theorem homeSuper_movesOf {c : Command} {b : Activity} {later before : List Activity}
    (home : s.machine.heap.homeSuper f = x) (split : s.movesOf c = later ++ b :: before) :
    b.machine.heap.homeSuper f = lastHome f x before := by
  unfold movesOf at split
  cases entry : s.entry? c with
  | none =>
    rw [entry] at split
    cases later <;> cases split
  | some a =>
    rw [entry] at split
    obtain ⟨_, -, started⟩ := (twin_homed home).entry (unlogged_homed f x).hostBisimulation entry
    exact homeSuper_moves started split

/-- The home of a function at every activity of a session whose commands end, the last one apart. -/
theorem homeSuper_activities {cs : List Command} {b : Activity} {later before : List Activity}
    (home : s.machine.heap.homeSuper f = x)
    (ended : ∀ r ∈ (s.history cs).dropLast, r.1.answer.isUnfinished = false)
    (split : s.activities cs = later ++ b :: before) : b.machine.heap.homeSuper f = lastHome f x before := by
  induction cs generalizing s x before with
  | nil => cases later <;> cases split
  | cons c rest ih =>
    have here : s.withoutStreams.machine.heap.homeSuper f = x := home
    obtain ⟨late, -, moves⟩ | ⟨early, others, behind⟩ := List.append_eq_append_iff.1 split
    · exact homeSuper_movesOf here moves
    · cases early with
      | nil =>
        have moves : s.withoutStreams.movesOf c = [] ++ b :: before := behind.symm
        exact homeSuper_movesOf here moves
      | cons e early =>
        rw [List.cons_append] at behind
        obtain ⟨rfl, rfl⟩ := List.cons.inj behind
        cases rest with
        | nil => cases later <;> cases others
        | cons d rest =>
          have performed := homeSuper_dispatch here (ended _ List.mem_cons_self)
          rw [lastHome_append]
          exact ih performed (fun r hr => ended r (List.mem_cons_of_mem _ hr)) others

/-- Where `super` starts. Take any session from its start, whose commands have all ended but perhaps the
last one, and any move in it that looks a name up for `super` in a function. The look-up starts at the
superclass that the class which adopted the function last had at that moment, and fails outside of
subclass methods if and only if there was none. So it starts at the superclass of a class that holds the
function, and fails if and only if that class has none, provided that the class has the same superclass
as the one that adopted the function last. -/
theorem super_starts_at_last_home (config : Config) (level : Level) (fuel : Nat) {cs : List Command}
    {b : Activity} {later before : List Activity} {name : Text}
    (ended : ∀ r ∈ ((Session.start config level fuel).history cs).dropLast, r.1.answer.isUnfinished = false)
    (split : (Session.start config level fuel).activities cs = later ++ b :: before)
    (asks : b.superCall? = some (f, name)) :
    b.Gets (b.machine.heap.superMethod (lastHome f none before) name) ∧
      (b.FailsOutside ↔ lastHome f none before = none) ∧
      ∀ r, (b.machine.heap.classes.get r).superclass = lastHome f none before →
        b.Gets (b.machine.heap.superMethod (b.machine.heap.classes.get r).superclass name) ∧
          (b.FailsOutside ↔ (b.machine.heap.classes.get r).superclass = none) := by
  have homeless : (Session.start config level fuel).machine.heap.homeSuper f = none := rfl
  have home := homeSuper_activities homeless ended split
  have gets := gets_superMethod asks
  have fails := gets.failsOutside_iff
  rw [home] at gets fails
  exact ⟨gets, fails, fun r same => by rw [same]; exact ⟨gets, fails⟩⟩

/-- Two classes, the second one with the first as superclass, whose methods `greet` give a text and ask
`super`. The second class gets its superclass before its method, or after it. -/
def greeting (superFirst : Bool) : List Command :=
  let superclass : List (Instruction × Nat) := [({ op := .getGlobal, a := 0 }, 1), ({ op := .inherit }, 1)]
  let method : List (Instruction × Nat) := [({ op := .closure, a := 4 }, 1), ({ op := .method, a := 1 }, 1)]
  [.interpret (.function "main" 0 0 [] []
      [.plain (.text "Base"), .plain (.text "greet"),
        .function (.function "greet" 0 0 [] [] [.plain (.text "base")]
          [({ op := .constant, a := 0 }, 1), ({ op := .ret }, 1)]),
        .plain (.text "Derived"),
        .function (.function "greet" 0 0 [] [] [.plain (.text "greet")]
          [({ op := .getThis }, 1), ({ op := .getSuper, a := 0 }, 1), ({ op := .call, a := 0 }, 1),
            ({ op := .ret }, 1)])]
      ([({ op := .newClass, a := 0 }, 1), ({ op := .closure, a := 2 }, 1), ({ op := .method, a := 1 }, 1),
        ({ op := .defineGlobal, a := 0 }, 1), ({ op := .newClass, a := 3 }, 1)] ++
        (if superFirst then superclass ++ method else method ++ superclass) ++
        [({ op := .new, a := 0 }, 1), ({ op := .getProperty, a := 1 }, 1), ({ op := .call, a := 0 }, 1),
          ({ op := .ret }, 1)])) none]

/-- What the machine goes through for `greeting`, latest first. -/
def greetingMoves (superFirst : Bool) : List Activity :=
  (Session.start {} .off 100).activities (greeting superFirst)

/-- The function that is the second method of `greeting`, and the name it asks `super` for. -/
def derivedGreet : Ref .closure × Text :=
  (⟨2⟩, "greet")

/-- How many moves of `greeting` come after the one that asks `super`. -/
def afterAsking (superFirst : Bool) : Nat :=
  if superFirst then 6 else 1

/-- The move of `greeting` that asks `super`. -/
def askingMove (superFirst : Bool) : Activity :=
  (greetingMoves superFirst).get ⟨afterAsking superFirst, by cases superFirst <;> decide +kernel⟩

theorem greetingMoves_eq (superFirst : Bool) :
    greetingMoves superFirst = (greetingMoves superFirst).take (afterAsking superFirst) ++
      askingMove superFirst :: (greetingMoves superFirst).drop (afterAsking superFirst + 1) := by
  unfold askingMove
  rw [List.get_eq_getElem, List.getElem_cons_drop, List.take_append_drop]

theorem superCall?_askingMove (superFirst : Bool) : (askingMove superFirst).superCall? = some derivedGreet := by
  cases superFirst <;> decide +kernel

/-- A class that got its superclass before its method: `super` starts at it. -/
theorem super_starts_at_base :
    askingMove true ∈ greetingMoves true ∧ (askingMove true).superCall? = some derivedGreet ∧
      (askingMove true).machine.heap.findMethod ⟨4⟩ "greet" = some (.closure derivedGreet.1, ⟨4⟩) ∧
      ((askingMove true).machine.heap.classes.get ⟨4⟩).superclass = some ⟨1⟩ ∧
      (askingMove true).Gets ((askingMove true).machine.heap.superMethod
        ((askingMove true).machine.heap.classes.get ⟨4⟩).superclass derivedGreet.2) := by
  have home : ((askingMove true).machine.heap.classes.get ⟨4⟩).superclass =
      lastHome derivedGreet.1 none ((greetingMoves true).drop 7) := by decide +kernel
  refine ⟨List.get_mem _ _, superCall?_askingMove true, by decide +kernel, by decide +kernel, ?_⟩
  exact ((super_starts_at_last_home {} .off 100 (fun r hr => absurd hr List.not_mem_nil) (greetingMoves_eq true)
    (superCall?_askingMove true)).2.2 ⟨4⟩ home).1

/-- A class that got its superclass after its method: the method asks `super` for an instance of the
class, whose own method it is and which has a superclass, and fails as if there were none. -/
theorem late_superclass_unknown_to_super :
    askingMove false ∈ greetingMoves false ∧ (askingMove false).superCall? = some derivedGreet ∧
      ((askingMove false).machine.slot ((askingMove false).machine.frames.headD default).base matches
        .object ⟨0⟩) ∧
      ((askingMove false).machine.heap.objects.get ⟨0⟩).cls = ⟨4⟩ ∧
      (askingMove false).machine.heap.findMethod ⟨4⟩ "greet" = some (.closure derivedGreet.1, ⟨4⟩) ∧
      ((askingMove false).machine.heap.classes.get ⟨4⟩).superclass = some ⟨1⟩ ∧
      (askingMove false).FailsOutside := by
  refine ⟨List.get_mem _ _, superCall?_askingMove false, by decide +kernel, by decide +kernel, by decide +kernel,
    by decide +kernel, ?_⟩
  exact (gets_superMethod (superCall?_askingMove false)).failsOutside_iff.2 (by decide +kernel)

end Session

end ScriptVm
