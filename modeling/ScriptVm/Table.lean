import ScriptVm.Assoc
import ScriptVm.Value

/-!
# Tables

A table maps keys to values and remembers the order in which the keys came. The entries stand
in that order, and an index gives the position of every key.

Replacing a value keeps its place. Removing a key closes the gap, so the positions behind it
go down by one. A key that was removed and is set again goes to the end.
-/

set_option autoImplicit false

namespace ScriptVm

/-- A map from keys to values in insertion order. -/
structure Table where
  entries : Array (Key × Value) := #[]
  index : Assoc Key Nat := Assoc.empty

namespace Table

instance : Inhabited Table := ⟨{}⟩

def size (t : Table) : Nat := t.entries.size

def isEmpty (t : Table) : Bool := t.entries.isEmpty

def contains (t : Table) (k : Key) : Bool := t.index.contains k

def get? (t : Table) (k : Key) : Option Value :=
  match t.index.get? k with
  | some i => (t.entries[i]?).map Prod.snd
  | none => none

/-- Replaces the value of a key in its place, or appends an entry. -/
def set (t : Table) (k : Key) (v : Value) : Table :=
  match t.index.get? k with
  | some i => { t with entries := t.entries.modify i fun e => (e.1, v) }
  | none => { entries := t.entries.push (k, v), index := t.index.insert k t.entries.size }

/-- Removes a key and tells whether it was there. -/
def remove (t : Table) (k : Key) : Bool × Table :=
  match t.index.get? k with
  | some i =>
    (true,
      { entries := t.entries.eraseIdxIfInBounds i
        index := (t.index.erase k).mapValues fun j => if i < j then j - 1 else j })
  | none => (false, t)

/-- The keys in order. -/
def keys (t : Table) : List Key := t.entries.toList.map Prod.fst

/-- The values in the order of their keys. -/
def values (t : Table) : List Value := t.entries.toList.map Prod.snd

/-- The table made by setting the entries one after the other. -/
def ofList (es : List (Key × Value)) : Table := es.foldl (fun t e => t.set e.1 e.2) {}

end Table

end ScriptVm
