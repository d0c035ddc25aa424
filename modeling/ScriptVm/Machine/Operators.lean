import ScriptVm.Machine.State
import ScriptVm.Number.Checked
import ScriptVm.Text.Segments

/-!
# Operators

Arithmetic, comparison, indexing, ranges and iteration. Integers are exact or overflow; a float
operand makes the other one a float; `+` with a text on either side puts texts together.
-/

set_option autoImplicit false

namespace ScriptVm.Exec

/-- An integer result, or the overflow error. -/
def checked (r : Option Int64) : Exec Value :=
  match r with
  | some n => return .int n
  | none => fail .integerOverflow

/-- The sum of numbers, the concatenation with a text, or that of arrays. -/
def add (a b : Value) : Exec Value := do
  let m ← get
  match a, b with
  | .int x, .int y => checked (Checked.add? x y)
  | .str s, b => return .str (s ++ m.text b)
  | a, .str t => return .str (m.text a ++ t)
  | .array r, .array s =>
    newArray ((m.heap.arrays.get r).toList ++ (m.heap.arrays.get s).toList)
  | a, b =>
    match a.number?, b.number? with
    | some x, some y => return .float (x + y)
    | _, _ => fail (.cannotAdd (m.typeName a) (m.typeName b))

def subtract (a b : Value) : Exec Value := do
  let m ← get
  match a, b with
  | .int x, .int y => checked (Checked.sub? x y)
  | a, b =>
    match a.number?, b.number? with
    | some x, some y => return .float (x - y)
    | _, _ => fail (.cannotSubtract (m.typeName a) (m.typeName b))

/-- `s` repeated, if the bytes stay within `limit`. -/
def repetition? (limit : Nat) (s : Text) (times : Int) : Option Text :=
  if times ≤ 0 || s.isEmpty then some []
  else if limit < s.length * times.toNat then none
  else some (List.replicate times.toNat s).flatten

/-- A text repeated. -/
def repeatText (s : Text) (times : Int64) : Exec Value := do
  match repetition? (← config).maxSequence s times.toInt with
  | some t => return .str t
  | none => fail .repetitionTooLarge

def multiply (a b : Value) : Exec Value := do
  let m ← get
  match a, b with
  | .int x, .int y => checked (Checked.mul? x y)
  | .str s, .int n => repeatText s n
  | .int n, .str s => repeatText s n
  | a, b =>
    match a.number?, b.number? with
    | some x, some y => return .float (x * y)
    | _, _ => fail (.cannotMultiply (m.typeName a) (m.typeName b))

/-- Whether a number is zero, as an integer or a float. -/
def isZero : Value → Bool
  | .int n => n == 0
  | .float x => x == 0
  | _ => false

def divide (a b : Value) : Exec Value := do
  let m ← get
  match a.number?, b.number? with
  | some x, some y =>
    if isZero b then fail .divisionByZero
    else match a, b with
      | .int n, .int d => checked (Checked.div? n d)
      | _, _ => return .float (x / y)
  | _, _ => fail (.cannotDivide (m.typeName a) (m.typeName b))

def modulo (a b : Value) : Exec Value := do
  let m ← get
  match a.number?, b.number? with
  | some x, some y =>
    if isZero b then fail .divisionByZero
    else match a, b with
      | .int n, .int d => return .int (Checked.rem n d)
      | _, _ => return .float (Binary64.remainder x y)
  | _, _ => fail (.cannotModulo (m.typeName a) (m.typeName b))

def negate (v : Value) : Exec Value := do
  match v with
  | .int n => checked (Checked.neg? n)
  | .float x => return .float (-x)
  | v => fail (.cannotNegate ((← get).typeName v))

def less (a b : Value) : Exec Bool := do
  let m ← get
  match a, b with
  | .int x, .int y => return x.toInt < y.toInt
  | .str s, .str t => return Text.less s t
  | a, b =>
    match a.number?, b.number? with
    | some x, some y => return x < y
    | _, _ => fail (.cannotCompare (m.typeName a) (m.typeName b))

def lessEqual (a b : Value) : Exec Bool := do
  let m ← get
  match a, b with
  | .int x, .int y => return x.toInt ≤ y.toInt
  | .str s, .str t => return Text.atMost s t
  | a, b =>
    match a.number?, b.number? with
    | some x, some y => return x ≤ y
    | _, _ => fail (.cannotCompare (m.typeName a) (m.typeName b))

/-! ## Indexing -/

/-- The position that an index selects among `length` items. A negative index counts from the
end. -/
def position? (index : Int) (length : Nat) : Option Nat :=
  let i := if index < 0 then length + index else index
  if 0 ≤ i ∧ i < length then some i.toNat else none

/-- The key that a value makes. -/
def expectKey (v : Value) : Exec Key := do
  match Key.ofValue? v with
  | some k => return k
  | none => fail (.badKey ((← get).typeName v))

def getIndex (object index : Value) : Exec Value := do
  let m ← get
  match object, index with
  | .hash r, index => return ((m.heap.tables.get r).get? (← expectKey index)).getD .null
  | .array r, .int i =>
    let items := m.heap.arrays.get r
    match position? i.toInt items.size with
    | some p => return items.getD p .null
    | none => fail (.indexOutOfBounds i items.size)
  | .str t, .int i =>
    let chars := Text.chars t
    match position? i.toInt chars.length with
    | some p => return .str (chars.getD p [])
    | none => fail (.indexOutOfBounds i chars.length)
  | object, index => fail (.cannotIndex (m.typeName object) (m.typeName index))

/-- Replaces an item of an array. -/
def setItem (r : Ref .array) (i : Nat) (v : Value) : Exec Unit :=
  modifyHeap fun h => { h with arrays := h.arrays.set r ((h.arrays.get r).setIfInBounds i v) }

/-- Sets an entry of a hash. -/
def setEntry (r : Ref .table) (k : Key) (v : Value) : Exec Unit :=
  modifyHeap fun h => { h with tables := h.tables.set r ((h.tables.get r).set k v) }

def setIndex (object index value : Value) : Exec Unit := do
  let m ← get
  match object, index with
  | .hash r, index => setEntry r (← expectKey index) value
  | .array r, .int i =>
    let items := m.heap.arrays.get r
    match position? i.toInt items.size with
    | some p => setItem r p value
    | none => fail (.indexOutOfBounds i items.size)
  | object, _ => fail (.cannotSetIndex (m.typeName object))

/-! ## Ranges and hashes -/

/-- The integers from `start` to `stop`, if they are no more than `limit`. -/
def rangeItems? (limit : Nat) (start stop : Int) : Option (List Value) :=
  let count := (stop - start + 1).toNat
  if limit < count then none
  else some ((List.range count).map fun (k : Nat) => .int (Int64.ofInt (start + k)))

def range (start stop : Value) : Exec Value := do
  match start, stop with
  | .int a, .int b =>
    match rangeItems? (← config).maxSequence a.toInt b.toInt with
    | some items => newArray items
    | none => fail .rangeTooLarge
  | _, _ => fail .rangeOperands

/-- The values in pairs. -/
def pairs : List Value → List (Value × Value)
  | k :: v :: rest => (k, v) :: pairs rest
  | _ => []

/-- The entries of a hash literal, or the first value that can be no key, with the number of
entries before it. -/
def literalEntries : List (Value × Value) → Except (Value × Nat) (List (Key × Value))
  | [] => .ok []
  | (k, v) :: rest =>
    match Key.ofValue? k with
    | none => .error (k, 0)
    | some key =>
      match literalEntries rest with
      | .ok es => .ok ((key, v) :: es)
      | .error (bad, n) => .error (bad, n + 1)

/-- The values of a hash literal after its first `taken` entries have been moved out. -/
def moveEntries : Nat → List Value → List Value
  | taken + 1, k :: v :: rest => k :: v.vacated :: moveEntries taken rest
  | _, vs => vs

/-- Makes a hash of the top `count` pairs of keys and values. -/
def hashLiteral (count : Nat) : Exec Value := do
  let window ← peekMany (2 * count)
  let start := (← get).stack.size - 2 * count
  match literalEntries (pairs window) with
  | .ok entries =>
    resize start
    withHeap fun h => h.allocTable (Table.ofList entries)
  | .error (bad, taken) =>
    modify fun m => { m with stack := m.stack.shrink start ++ (moveEntries taken window).toArray }
    fail (.badKey ((← get).typeName bad))

/-! ## Iteration -/

/-- Opens an iteration. -/
def openIteration (v : Value) : Exec Unit := do
  let m ← get
  let iteration ← match v with
    | .array r => pure (.live r 0)
    | .hash r => pure (.snapshot ((m.heap.tables.get r).keys.map Key.toValue))
    | .str t => pure (.snapshot ((Text.chars t).map .str))
    | v => fail (.cannotIterate (m.typeName v))
  modify fun m => { m with iterations := iteration :: m.iterations }

/-- The next item of an iteration, and the iteration behind it. -/
def advance (h : Heap) : Iteration → Option (Value × Iteration)
  | .live r i => ((h.arrays.get r)[i]?).map fun v => (v, .live r (i + 1))
  | .snapshot [] => none
  | .snapshot (v :: rest) => some (v, .snapshot rest)

/-- One step of the innermost iteration: its next item, or nothing, and then it is closed. -/
def nextItem : Exec (Option Value) :=
  modifyGet fun m =>
    match m.iterations with
    | [] => (none, m)
    | it :: rest =>
      match advance m.heap it with
      | some (v, it) => (some v, { m with iterations := it :: rest })
      | none => (none, { m with iterations := rest })

end ScriptVm.Exec
