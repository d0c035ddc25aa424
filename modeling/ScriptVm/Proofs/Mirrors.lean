import ScriptVm.Proofs.Lockstep
import ScriptVm.Proofs.Resemblance

/-!
# Computations on machines with different backings

The backing of a machine is its world with the statistics of the caches; the rest of a machine
consists of values, names and depths. Two machines that agree but for their backings are compared
through a relation `R` between backings. `Mirrors R V x y m` says that `x` on `m` and `y` on the
other machine end alike, with results related by `V` and backings related by `R` again.

`Bisimulation K R` lists what `R` has to promise so that whole runs end alike: related worlds
resemble each other, and every operation that looks at numbers, caches or the log keeps them
related. Related to themselves, backings with an invariant are a special case.
-/

set_option autoImplicit false

namespace ScriptVm

/-- The world of a machine and the statistics of its caches. -/
structure Backing where
  stats : CacheStats
  world : World

namespace Backing

/-- The backing with another heap. -/
def withHeap (b : Backing) (heap : Heap) : Backing := { b with world := { b.world with heap } }

/-- The backing after an event for the log. -/
def hear (b : Backing) (e : LogEvent) : Backing :=
  { b with world := { b.world with log := b.world.log.hear e } }

/-- The backing with the shape of an instance sealed. -/
def sealing (b : Backing) (r : Ref .object) : Backing :=
  { b with
    world := { b.world with shapes := b.world.shapes.sealShape (b.world.heap.objects.get r).fields.shape } }

/-- The backing with all caches forgotten. -/
def forget (b : Backing) : Backing := { b with world := { b.world with caches := b.world.caches.clear } }

end Backing

namespace Machine

def backing (m : Machine) : Backing := ⟨m.stats, m.world⟩

/-- The machine on another backing. -/
def on (m : Machine) (b : Backing) : Machine := { m with stats := b.stats, world := b.world }

@[simp] theorem on_backing (m : Machine) : m.on m.backing = m := rfl

end Machine

namespace Exec

open Machine

variable {R : Backing → Backing → Prop} {m : Machine} {α α' β β' : Type}

/-- Two results with related values, on machines that differ in related backings. -/
inductive Ends (R : Backing → Backing → Prop) {α α' : Type} (V : α → α' → Prop) :
    EStateM.Result Fault Machine α → EStateM.Result Fault Machine α' → Prop where
  | ok {v : α} {v' : α'} {m : Machine} {b : Backing} (values : V v v') (rel : R m.backing b) :
      Ends R V (.ok v m) (.ok v' (m.on b))
  | error {m : Machine} {b : Backing} (f : Fault) (rel : R m.backing b) :
      Ends R V (.error f m) (.error f (m.on b))

/-- `x` on `m` and `y` on the same machine with a related backing end alike. -/
def Mirrors (R : Backing → Backing → Prop) {α α' : Type} (V : α → α' → Prop) (x : Exec α) (y : Exec α')
    (m : Machine) : Prop :=
  ∀ b, R m.backing b → Ends R V (x.run m) (y.run (m.on b))

/-- `x` does the same on machines with related backings. -/
def Same (R : Backing → Backing → Prop) {α : Type} (x : Exec α) (m : Machine) : Prop := Mirrors R Eq x x m

/-! ## Rules -/

theorem mirrors_pure {V : α → α' → Prop} {a : α} {a' : α'} (h : V a a') :
    Mirrors R V (Pure.pure a) (Pure.pure a') m := fun _ hb => .ok h hb

theorem same_pure (a : α) : Same R (Pure.pure a) m := mirrors_pure rfl

theorem mirrors_raise {V : α → α' → Prop} (f : Fault) :
    Mirrors R V (throw f : Exec α) (throw f : Exec α') m := fun _ hb => .error f hb

theorem Mirrors.ok {V : α → α' → Prop} {x : Exec α} {y : Exec α'} (h : Mirrors R V x y m) {b : Backing}
    (hb : R m.backing b) {v : α} {m₁ : Machine} (run : x.run m = .ok v m₁) :
    ∃ v' b₁, y.run (m.on b) = .ok v' (m₁.on b₁) ∧ V v v' ∧ R m₁.backing b₁ := by
  have ends := h b hb
  rw [run] at ends
  generalize y.run (m.on b) = r at ends ⊢
  cases ends with
  | ok values rel => exact ⟨_, _, rfl, values, rel⟩

theorem Mirrors.error {V : α → α' → Prop} {x : Exec α} {y : Exec α'} (h : Mirrors R V x y m) {b : Backing}
    (hb : R m.backing b) {f : Fault} {m₁ : Machine} (run : x.run m = .error f m₁) :
    ∃ b₁, y.run (m.on b) = .error f (m₁.on b₁) ∧ R m₁.backing b₁ := by
  have ends := h b hb
  rw [run] at ends
  generalize y.run (m.on b) = r at ends ⊢
  cases ends with
  | error f rel => exact ⟨_, rfl, rel⟩

theorem Mirrors.bind {V : α → α' → Prop} {W : β → β' → Prop} {x : Exec α} {y : Exec α'} {f : α → Exec β}
    {g : α' → Exec β'} (first : Mirrors R V x y m)
    (next : ∀ v v' m', x.run m = .ok v m' → V v v' → Mirrors R W (f v) (g v') m') :
    Mirrors R W (x >>= f) (y >>= g) m := by
  intro b hb
  cases hx : x.run m with
  | ok v m₁ =>
    obtain ⟨v', b₁, hy, values, hb₁⟩ := first.ok hb hx
    rw [run_bind_of_ok hx, run_bind_of_ok hy]
    exact next v v' m₁ hx values b₁ hb₁
  | error e m₁ =>
    obtain ⟨b₁, hy, hb₁⟩ := first.error hb hx
    rw [run_bind_of_error hx, run_bind_of_error hy]
    exact .error e hb₁

theorem Same.bind {x : Exec α} {f : α → Exec β} (first : Same R x m)
    (next : ∀ v m', x.run m = .ok v m' → Same R (f v) m') : Same R (x >>= f) m :=
  Mirrors.bind first fun v _ m' run same => by
    subst same
    exact next v m' run

/-- What is read is the same on both machines. -/
theorem Same.read {body : Machine → Exec α} (blind : ∀ b, R m.backing b → body (m.on b) = body m)
    (next : Same R (body m) m) : Same R (get >>= body) m := by
  intro b hb
  rw [run_bind_of_ok (run_get _), run_bind_of_ok (run_get _), blind b hb]
  exact next b hb

/-- What is read of the heap is the same on both machines. -/
theorem Same.readHeap {body : Heap → Exec α} (blind : ∀ b, R m.backing b → body b.world.heap = body m.heap)
    (next : Same R (body m.heap) m) : Same R (heap >>= body) m := by
  have read : heap >>= body = get >>= fun m => body m.heap := rfl
  rw [read]
  exact .read blind next

/-- A change of the machine that leaves its backing alone. -/
theorem same_modifyGet {g : Machine → α × Machine}
    (blind : ∀ b, R m.backing b → g (m.on b) = ((g m).1, (g m).2.on b)) (kept : (g m).2.backing = m.backing) :
    Same R (modifyGet g) m := by
  intro b hb
  show Ends R Eq (match g m with | (a, m') => EStateM.Result.ok a m')
    (match g (m.on b) with | (a, m') => EStateM.Result.ok a m')
  rw [blind b hb]
  exact .ok rfl (kept ▸ hb)

theorem same_modify {g : Machine → Machine} (blind : ∀ b, R m.backing b → g (m.on b) = (g m).on b)
    (kept : (g m).backing = m.backing) : Same R (modify g) m :=
  same_modifyGet (fun b hb => by rw [blind b hb]) kept

/-- An operation of the world. -/
theorem mirrors_withWorld {V : α → α' → Prop} {f : World → α × World} {f' : World → α' × World}
    (h : ∀ b, R m.backing b → V (f m.world).1 (f' b.world).1 ∧
      R { m.backing with world := (f m.world).2 } { b with world := (f' b.world).2 }) :
    Mirrors R V (withWorld f) (withWorld f') m := by
  intro b hb
  obtain ⟨values, rel⟩ := h b hb
  rw [run_withWorld, run_withWorld]
  exact .ok (m := { m with world := (f m.world).2 }) (b := { b with world := (f' b.world).2 }) values rel

theorem same_withWorld {f : World → α × World}
    (h : ∀ b, R m.backing b → (f m.world).1 = (f b.world).1 ∧
      R { m.backing with world := (f m.world).2 } { b with world := (f b.world).2 }) :
    Same R (withWorld f) m := mirrors_withWorld h

end Exec

/-! ## What a relation between backings has to promise -/

open Exec

/-- A relation between backings under which machines do the same. -/
structure Bisimulation (K : Constant → Constant → Prop) (R : Backing → Backing → Prop) : Prop where
  likeness : Likeness K
  resembles : ∀ {b b'}, R b b' → b.world.Resembles K b'.world
  /-- Plain objects may be made and changed in the same way. -/
  pools : ∀ {b b'}, R b b' → ∀ p : Pools,
    R (b.withHeap (b.world.heap.withPools p)) (b'.withHeap (b'.world.heap.withPools p))
  /-- Both logs may hear the same. -/
  hear : ∀ {b b'}, R b b' → ∀ e, R (b.hear e) (b'.hear e)
  newClosure : ∀ {b b'}, R b b' → ∀ {p p' : Proto}, K (.function p) (.function p') → ∀ cells,
    R (b.withHeap (b.world.heap.allocClosure { proto := p, cells }).2)
      (b'.withHeap (b'.world.heap.allocClosure { proto := p', cells }).2)
  newObject : ∀ {b b'}, R b b' → ∀ cls,
    R { b with world := (b.world.newObject cls).2 } { b' with world := (b'.world.newObject cls).2 }
  newClass : ∀ {b b'}, R b b' → ∀ name,
    R { b with world := (b.world.newClass name).2 } { b' with world := (b'.world.newClass name).2 }
  /-- Properties are read at corresponding sites. -/
  read : ∀ {p p' : Proto}, K (.function p) (.function p') → ∀ (ip : Nat) (r : Ref .object) (name : Text) (m : Machine),
    Mirrors R Eq (getObjectProperty r name (Site.of p.id ip)) (getObjectProperty r name (Site.of p'.id ip)) m
  /-- Properties are assigned to at corresponding sites. -/
  write : ∀ {p p' : Proto}, K (.function p) (.function p') →
    ∀ (ip : Nat) (r : Ref .object) (name : Text) (v : Value) (m : Machine),
    Mirrors R Eq (setObjectProperty r name v (Site.of p.id ip)) (setObjectProperty r name v (Site.of p'.id ip)) m
  sealing : ∀ {b b'}, R b b' → ∀ r, R (b.sealing r) (b'.sealing r)
  forget : ∀ {b b'}, R b b' → R b.forget b'.forget

end ScriptVm
