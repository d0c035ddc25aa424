import ScriptVm.Machine.Operators

/-!
# Builtin methods

The methods of arrays, hashes and texts. The number of arguments is checked before their types,
and both before anything changes.
-/

set_option autoImplicit false

namespace ScriptVm.Exec

/-- Asks for exactly `n` arguments. -/
def expectArgs (args : List Value) (n : Nat) : Exec Unit :=
  if args.length = n then return else fail (.wrongArity n args.length)

/-- Asks for at most `n` arguments. -/
def expectAtMost (args : List Value) (n : Nat) : Exec Unit :=
  if args.length ≤ n then return else fail (.wrongArity n args.length)

/-- The text that a method wants as an argument. -/
def expectText (v : Value) (method : Text) : Exec Text := do
  match v with
  | .str t => return t
  | v => fail (.stringWanted method ((← get).typeName v))

/-- A natural number as a value. -/
def countValue (n : Nat) : Value := .int (Int64.ofNat n)

/-- An array of texts as a value. -/
def textArray (ts : List Text) : Exec Value := newArray (ts.map .str)

/-- There is no such method. -/
def noMethod (receiver : Value) (name : Text) : Exec Value := do
  fail (.noSuchProperty ((← get).typeName receiver) name)

/-- The methods of arrays. -/
inductive ArrayMethod where
  | length | push | pop | first | last | join | includes | reverse
  deriving Repr, DecidableEq, Inhabited

def ArrayMethod.names : List (Text × ArrayMethod) :=
  [("length", length), ("push", push), ("pop", pop), ("first", first), ("last", last),
   ("join", join), ("includes", includes), ("reverse", reverse)]

/-- Calls a method of an array. -/
def arrayMethod (r : Ref .array) (method : ArrayMethod) (args : List Value) : Exec Value := do
  let m ← get
  let items := m.heap.arrays.get r
  match method with
  | .length =>
    expectArgs args 0
    return countValue items.size
  | .push =>
    modifyHeap fun h => { h with arrays := h.arrays.set r (h.arrays.get r ++ args.toArray) }
    return .array r
  | .pop =>
    expectArgs args 0
    modifyHeap fun h => { h with arrays := h.arrays.set r (h.arrays.get r).pop }
    return items.back?.getD .null
  | .first =>
    expectArgs args 0
    return items.getD 0 .null
  | .last =>
    expectArgs args 0
    return items.back?.getD .null
  | .join =>
    expectAtMost args 1
    let separator ← match args with
      | [] => pure []
      | v :: _ => expectText v "join"
    return .str (Text.join separator (items.toList.map m.text))
  | .includes =>
    expectArgs args 1
    return .bool (items.toList.any fun v => m.heap.equals v (args.headD .null))
  | .reverse =>
    expectArgs args 0
    newArray items.toList.reverse

/-- The methods of hashes. -/
inductive HashMethod where
  | length | keys | values | hasKey | delete
  deriving Repr, DecidableEq, Inhabited

def HashMethod.names : List (Text × HashMethod) :=
  [("length", length), ("keys", keys), ("values", values), ("has_key", hasKey), ("delete", delete)]

/-- Calls a method of a hash. -/
def hashMethod (r : Ref .table) (method : HashMethod) (args : List Value) : Exec Value := do
  let m ← get
  let table := m.heap.tables.get r
  match method with
  | .length =>
    expectArgs args 0
    return countValue table.size
  | .keys =>
    expectArgs args 0
    newArray (table.keys.map Key.toValue)
  | .values =>
    expectArgs args 0
    newArray table.values
  | .hasKey =>
    expectArgs args 1
    return .bool (table.contains (← expectKey (args.headD .null)))
  | .delete =>
    expectArgs args 1
    let key ← expectKey (args.headD .null)
    match table.get? key with
    | none => return .null
    | some v =>
      modifyHeap fun h => { h with tables := h.tables.set r ((h.tables.get r).remove key).2 }
      return v

/-- The methods of texts. -/
inductive TextMethod where
  | length | upcase | downcase | trim | split | includes
  deriving Repr, DecidableEq, Inhabited

def TextMethod.names : List (Text × TextMethod) :=
  [("length", length), ("upcase", upcase), ("downcase", downcase), ("trim", trim),
   ("split", split), ("includes", includes)]

/-- Calls a method of a text. -/
def textMethod (t : Text) (method : TextMethod) (args : List Value) : Exec Value := do
  match method with
  | .length =>
    expectArgs args 0
    return countValue (Text.chars t).length
  | .upcase =>
    expectArgs args 0
    return .str t.upper
  | .downcase =>
    expectArgs args 0
    return .str t.lower
  | .trim =>
    expectArgs args 0
    return .str (Text.trim t)
  | .split =>
    expectAtMost args 1
    match args with
    | [] => textArray (Text.words t)
    | v :: _ => textArray (Text.splitAt (← expectText v "split") t)
  | .includes =>
    expectArgs args 1
    return .bool (Text.includes (← expectText (args.headD .null) "includes") t)

/-- Calls a builtin method by name. -/
def callMethod (receiver : Value) (name : Text) (args : List Value) : Exec Value :=
  match receiver with
  | .array r =>
    match Assoc.find name ArrayMethod.names with
    | some method => arrayMethod r method args
    | none => noMethod receiver name
  | .hash r =>
    match Assoc.find name HashMethod.names with
    | some method => hashMethod r method args
    | none => noMethod receiver name
  | .str t =>
    match Assoc.find name TextMethod.names with
    | some method => textMethod t method args
    | none => noMethod receiver name
  | receiver => noMethod receiver name

end ScriptVm.Exec
