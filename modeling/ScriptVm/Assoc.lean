/-!
# Association lists

A finite map as the list of its entries. A key that is present keeps its place when its value
is replaced, and a new key goes to the end, so the list also records the order in which the
keys came.

`get?_insert` and `get?_erase` say what a look-up gives after each change.
-/

set_option autoImplicit false

namespace ScriptVm

/-- A finite map, entries in the order of first insertion. -/
structure Assoc (κ ν : Type) where
  entries : List (κ × ν)

namespace Assoc

variable {κ ν : Type} [DecidableEq κ]

/-- The value of the first entry for `k`. -/
def find (k : κ) : List (κ × ν) → Option ν
  | [] => none
  | (a, v) :: rest => if a = k then some v else find k rest

/-- Replaces the value of the first entry for `k`, or appends an entry. -/
def put (k : κ) (v : ν) : List (κ × ν) → List (κ × ν)
  | [] => [(k, v)]
  | (a, w) :: rest => if a = k then (k, v) :: rest else (a, w) :: put k v rest

/-- The map without entries. -/
def empty : Assoc κ ν := ⟨[]⟩

instance : Inhabited (Assoc κ ν) := ⟨empty⟩

def get? (m : Assoc κ ν) (k : κ) : Option ν := find k m.entries

def contains (m : Assoc κ ν) (k : κ) : Bool := (m.get? k).isSome

def insert (m : Assoc κ ν) (k : κ) (v : ν) : Assoc κ ν := ⟨put k v m.entries⟩

/-- The map without any entry for `k`. -/
def erase (m : Assoc κ ν) (k : κ) : Assoc κ ν := ⟨m.entries.filter fun e => e.1 ≠ k⟩

/-- The map with `f` applied to every value. -/
def mapValues (f : ν → ν) (m : Assoc κ ν) : Assoc κ ν := ⟨m.entries.map fun e => (e.1, f e.2)⟩

def size (m : Assoc κ ν) : Nat := m.entries.length

def keys (m : Assoc κ ν) : List κ := m.entries.map Prod.fst

theorem find_put (k k' : κ) (v : ν) (es : List (κ × ν)) :
    find k' (put k v es) = if k = k' then some v else find k' es := by
  induction es with
  | nil => simp [put, find]
  | cons e rest ih =>
    obtain ⟨a, w⟩ := e
    by_cases h : a = k <;> by_cases hk : k = k' <;> simp_all [put, find]

@[simp] theorem get?_empty (k : κ) : (empty : Assoc κ ν).get? k = none := rfl

/-- An insertion is seen at its key and nowhere else. -/
theorem get?_insert (m : Assoc κ ν) (k k' : κ) (v : ν) :
    (m.insert k v).get? k' = if k = k' then some v else m.get? k' :=
  find_put k k' v m.entries

theorem find_filter_ne (k k' : κ) (es : List (κ × ν)) :
    find k' (es.filter fun e => e.1 ≠ k) = if k = k' then none else find k' es := by
  induction es with
  | nil => simp [find]
  | cons e rest ih =>
    obtain ⟨a, w⟩ := e
    by_cases h : a = k <;> by_cases hk : k = k' <;> simp_all [find]

/-- A removal is seen at its key and nowhere else. -/
theorem get?_erase (m : Assoc κ ν) (k k' : κ) :
    (m.erase k).get? k' = if k = k' then none else m.get? k' :=
  find_filter_ne k k' m.entries

end Assoc

end ScriptVm
