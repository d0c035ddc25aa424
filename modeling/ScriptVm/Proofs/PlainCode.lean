import ScriptVm.Machine.Run
import ScriptVm.Proofs.WorldChange

/-!
# Plain computations

Most of what instructions do leaves the calls, regions, iterations and captured variables alone:
it takes some values off the stack, puts others there, and changes the world. `Plain seeing n x m`
says so of the computation `x` on the machine `m`, for at most `n` values taken.

A machine also has a side that programs cannot see: whether caches are in use, what they hold,
how often they helped, and the log. Computations that are plain with `seeing = false` do not look
at it, except through the few operations of `SideUse`.

`Plain.keeps` says what is left in place by a plain computation.
-/

set_option autoImplicit false

namespace ScriptVm

/-- The side of a machine that programs cannot see. -/
structure Side where
  useCaches : Bool
  stats : CacheStats
  caches : CacheRegistry
  log : Logging

namespace Machine

def side (m : Machine) : Side := ⟨m.config.useCaches, m.stats, m.world.caches, m.world.log⟩

/-- The machine with another side. -/
def withSide (m : Machine) (s : Side) : Machine :=
  { m with
    config := { m.config with useCaches := s.useCaches }
    stats := s.stats
    world := m.world.withSides s.caches s.log }

@[simp] theorem withSide_side (m : Machine) : m.withSide m.side = m := rfl

@[simp] theorem side_withSide (m : Machine) (s : Side) : (m.withSide s).side = s := rfl

@[simp] theorem withSide_withSide (m : Machine) (s t : Side) : (m.withSide s).withSide t = m.withSide t :=
  rfl

end Machine

namespace Exec

/-- The machine that a computation leaves behind, whether it fails or not. -/
def after {α : Type} (x : Exec α) (m : Machine) : Machine :=
  match x.run m with
  | .ok _ m => m
  | .error _ m => m

theorem after_of_ok {α : Type} {x : Exec α} {m m' : Machine} {v : α} (h : x.run m = .ok v m') :
    x.after m = m' := by
  rw [after, h]

theorem after_of_error {α : Type} {x : Exec α} {m m' : Machine} {f : Fault}
    (h : x.run m = .error f m') : x.after m = m' := by
  rw [after, h]

theorem run_bind_of_ok {α β : Type} {x : Exec α} {f : α → Exec β} {m m' : Machine} {v : α}
    (h : x.run m = .ok v m') : (x >>= f).run m = (f v).run m' := by
  rw [EStateM.run_bind, h]

theorem run_bind_of_error {α β : Type} {x : Exec α} {f : α → Exec β} {m m' : Machine} {e : Fault}
    (h : x.run m = .error e m') : (x >>= f).run m = .error e m' := by
  rw [EStateM.run_bind, h]

/-- The computations that look at the side of a machine. -/
inductive SideUse : {α : Type} → Exec α → Prop where
  | read (r : Ref .object) (name : Text) (site : Site) : SideUse (getObjectProperty r name site)
  | write (r : Ref .object) (name : Text) (v : Value) (site : Site) :
    SideUse (setObjectProperty r name v site)
  | clear :
    SideUse (modify fun m => { m with world := { m.world with caches := m.world.caches.clear } })
  | importing (index : Nat) : SideUse (importModule index)

/-- Computations that leave calls, regions, iterations and captured variables alone and take at
most `n` values off the stack. -/
inductive Plain : Bool → Nat → {α : Type} → Exec α → Machine → Prop where
  | pure {b : Bool} {n : Nat} {α : Type} {m : Machine} (a : α) : Plain b n (Pure.pure a) m
  | raise {b : Bool} {n : Nat} {α : Type} {m : Machine} (f : Fault) : Plain b n (throw f : Exec α) m
  | chain {b : Bool} {n t : Nat} {α β : Type} {x : Exec α} {f : α → Exec β} {m : Machine}
      (k : α → Machine → Nat) (le : n ≤ t)
      (fits : ∀ v m', x.run m = .ok v m' → m.stack.size + k v m' ≤ m'.stack.size + t)
      (first : Plain b n x m)
      (next : ∀ v m', x.run m = .ok v m' → Plain b (k v m') (f v) m') : Plain b t (x >>= f) m
  | read {b : Bool} {n : Nat} {α : Type} {body : Machine → Exec α} {m : Machine}
      (blind : ∀ s, body (m.withSide s) = body m) (next : Plain b n (body m) m) :
      Plain b n (get >>= body) m
  | look {n : Nat} {α : Type} {body : Machine → Exec α} {m : Machine}
      (next : Plain true n (body m) m) : Plain true n (get >>= body) m
  | stack {b : Bool} {n : Nat} {α : Type} {m : Machine} (f : Array Value → α × Array Value)
      (size : m.stack.size ≤ (f m.stack).2.size + n)
      (slots : ∀ i, i + n < m.stack.size → (f m.stack).2[i]? = m.stack[i]?) :
      Plain b n (modifyGet fun m => ((f m.stack).1, { m with stack := (f m.stack).2 })) m
  | world {b : Bool} {n : Nat} {α : Type} {m : Machine} {f : World → α × World}
      (blind : World.Blind f m.world) : Plain b n (withWorld f) m
  | seeing {n : Nat} {α : Type} {m : Machine} {f : World → α × World}
      (evolves : World.Evolves m.world (f m.world).2) : Plain true n (withWorld f) m
  | count {n : Nat} {m : Machine} (f : CacheStats → CacheStats) : Plain true n (count f) m
  | define {b : Bool} {n : Nat} {m : Machine} (name : Text) (v : Value) :
      Plain b n (modify fun m => { m with globals := m.globals.insert name v }) m
  | emit {b : Bool} {n : Nat} {m : Machine} (line : Text) :
      Plain b n (modify fun m => { m with output := m.output.push line }) m
  | record {b : Bool} {n : Nat} {m : Machine} (e : RuntimeError) :
      Plain b n (modify fun m => m.recordError e) m
  | use {n : Nat} {α : Type} {x : Exec α} {m : Machine} (side : SideUse x) (plain : Plain true n x m) :
      Plain false n x m

end Exec

/-! ## What stays in place -/

namespace Machine

/-- What is left of `m` in `m'` when at most `n` values have been taken off the stack. -/
structure Keeps (n : Nat) (m m' : Machine) : Prop where
  frames : m'.frames = m.frames
  handlers : m'.handlers = m.handlers
  iterations : m'.iterations = m.iterations
  openCells : m'.openCells = m.openCells
  runBase : m'.runBase = m.runBase
  lastUnwind : m'.lastUnwind = m.lastUnwind
  config : m'.config = m.config
  /-- At most `n` values are missing. -/
  size : m.stack.size ≤ m'.stack.size + n
  /-- What lies deeper is as before. -/
  slots : ∀ i, i + n < m.stack.size → m'.stack[i]? = m.stack[i]?
  world : World.Evolves m.world m'.world

namespace Keeps

theorem refl (n : Nat) (m : Machine) : Keeps n m m where
  frames := rfl
  handlers := rfl
  iterations := rfl
  openCells := rfl
  runBase := rfl
  lastUnwind := rfl
  config := rfl
  size := Nat.le_add_right _ _
  slots _ _ := rfl
  world := .refl

/-- The second step may take `k` values off what is there then, if that is no deeper than `t`. -/
theorem trans {n k t : Nat} {m₀ m₁ m₂ : Machine} (le : n ≤ t) (h : Keeps n m₀ m₁)
    (fits : m₀.stack.size + k ≤ m₁.stack.size + t) (h' : Keeps k m₁ m₂) : Keeps t m₀ m₂ where
  frames := h'.frames.trans h.frames
  handlers := h'.handlers.trans h.handlers
  iterations := h'.iterations.trans h.iterations
  openCells := h'.openCells.trans h.openCells
  runBase := h'.runBase.trans h.runBase
  lastUnwind := h'.lastUnwind.trans h.lastUnwind
  config := h'.config.trans h.config
  size := by
    have := h'.size
    omega
  slots i hi := by rw [h'.slots i (by omega), h.slots i (by omega)]
  world := h.world.trans h'.world

end Keeps

end Machine

namespace Exec

open Machine

theorem after_bind {α β : Type} {x : Exec α} {f : α → Exec β} {m m' : Machine} {v : α}
    (h : x.run m = .ok v m') : (x >>= f).after m = (f v).after m' := by
  rw [after, after, run_bind_of_ok h]

/-- A plain computation leaves everything in place, whether it fails or not. -/
theorem Plain.keeps {b : Bool} {n : Nat} {α : Type} {x : Exec α} {m : Machine} (h : Plain b n x m) :
    Keeps n m (x.after m) := by
  induction h with
  | pure a => exact .refl _ _
  | raise f => exact .refl _ _
  | @chain b n t α β x f m k le fits _ _ first next =>
    cases hx : x.run m with
    | ok v m' =>
      rw [after_of_ok hx] at first
      rw [after_bind hx]
      exact first.trans le (fits v m' hx) (next v m' hx)
    | error e m' =>
      rw [after_of_error hx] at first
      rw [after_of_error (run_bind_of_error hx)]
      have := first.size
      exact first.trans (k := 0) le (by omega) (.refl 0 m')
  | read _ _ next => exact next
  | look _ next => exact next
  | @stack b n α m f size slots => exact { Keeps.refl n m with size, slots }
  | @world b n α m f blind =>
    obtain ⟨es, h⟩ := blind
    exact { Keeps.refl n m with world := (h m.world.caches m.world.log).2 }
  | @seeing n α m f evolves => exact { Keeps.refl n m with world := evolves }
  | @count n m f => exact { Keeps.refl n m with }
  | @define b n m name v => exact { Keeps.refl n m with }
  | @emit b n m line => exact { Keeps.refl n m with }
  | @record b n m e => exact { Keeps.refl n m with }
  | use _ _ ih => exact ih

theorem Plain.keeps_of_ok {b : Bool} {n : Nat} {α : Type} {x : Exec α} {m m' : Machine} {v : α}
    (h : Plain b n x m) (run : x.run m = .ok v m') : Keeps n m m' := by
  have keeps := h.keeps
  rw [after_of_ok run] at keeps
  exact keeps

/-- What two computations in a row take off the stack adds up. -/
theorem Plain.bind {b : Bool} {n k t : Nat} {α β : Type} {x : Exec α} {f : α → Exec β} {m : Machine}
    (le : n + k ≤ t) (first : Plain b n x m)
    (next : ∀ v m', x.run m = .ok v m' → Plain b k (f v) m') : Plain b t (x >>= f) m := by
  refine .chain (fun _ _ => k) (by omega) (fun v m' run => ?_) first next
  have := (first.keeps_of_ok run).size
  omega

end Exec

end ScriptVm
