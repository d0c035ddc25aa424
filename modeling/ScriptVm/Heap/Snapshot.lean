import ScriptVm.Heap.Rendering

/-!
# Snapshots

The contents of a value as a tree, detached from the heap. An object that is met again inside
itself is cut off there.
-/

set_option autoImplicit false

namespace ScriptVm

/-- A value as a tree. -/
inductive Snapshot where
  | null
  | bool (b : Bool)
  | int (n : Int64)
  | float (x : Float)
  | decimal (t : Text)
  | str (t : Text)
  | array (items : List Snapshot)
  | hash (keys : List Key) (values : List Snapshot)
  | closure (name home : Text)
  | native (name : Text)
  | cls (name : Text) (superclass : Option Text)
  | object (className : Text) (names : List Text) (values : List Snapshot)
  | bound (name : Text) (isNative : Bool) (receiver : Snapshot)
  | method (name : Text) (receiver : Snapshot)
  | superOf (name : Text)
  | namedArg (name : Text)
  /-- An object met again inside itself. -/
  | cycle

instance : Inhabited Snapshot := ⟨.null⟩

namespace Heap

/-- The objects that a snapshot descends into, by kind and position. -/
def descends? : Value → Option (Kind × Nat)
  | .array r => some (.array, r.index)
  | .hash r => some (.table, r.index)
  | .object r => some (.object, r.index)
  | .bound r => some (.bound, r.index)
  | .method r => some (.method, r.index)
  | _ => none

/-- A snapshot inside the objects of `path`, no deeper than the fuel. -/
def snapshotTo (h : Heap) (symbols : SymbolTable) : Nat → List (Kind × Nat) → Value → Snapshot
  | 0, _, _ => .cycle
  | fuel + 1, path, v =>
    let here := (descends? v).toList
    if here.any path.contains then .cycle
    else
      let inner := snapshotTo h symbols fuel (here ++ path)
      match v with
      | .null => .null
      | .bool b => .bool b
      | .int n => .int n
      | .float x => .float x
      | .decimal t => .decimal t
      | .str t => .str t
      | .array r => .array ((h.arrays.get r).toList.map inner)
      | .hash r => .hash (h.tables.get r).keys ((h.tables.get r).values.map inner)
      | .closure r => .closure (h.closures.get r).proto.name (h.closures.get r).home
      | .native r => .native (h.natives.get r).name
      | .cls r =>
        .cls (h.classes.get r).name ((h.classes.get r).superclass.map fun s => (h.classes.get s).name)
      | .object r =>
        let fields := (h.objects.get r).fields.fields.toList
        .object (h.className r) (fields.map fun f => (symbols.name f.1).getD [])
          (fields.map fun f => inner f.2)
      | .bound r =>
        let b := h.bounds.get r
        let isNative := match b.target with
          | .native _ => true
          | .closure _ => false
        .bound (h.callableName b.target) isNative (inner b.receiver)
      | .method r => .method (h.methods.get r).name (inner (h.methods.get r).receiver)
      | .superOf r => .superOf (h.classes.get r).name
      | .namedArg name => .namedArg name
      | .moved _ => .null

/-- A value as a tree. -/
def snapshot (h : Heap) (symbols : SymbolTable) (v : Value) : Snapshot :=
  h.snapshotTo symbols (h.descendable + 2) [] v

end Heap

end ScriptVm
