import ScriptVm.Error
import ScriptVm.Value

/-!
# Named arguments

Among the arguments of a call, a mark with a name makes the argument behind it a named one.
`arrange` puts the arguments into the order of the parameters: the positional ones first, in
their order, and each named one at the first parameter of its name. Gaps are filled with null,
and nothing follows the last argument given.
-/

set_option autoImplicit false

namespace ScriptVm.NamedArgs

/-- The arguments of a call, sorted out. -/
structure Given where
  positional : List Value := []
  named : List (Text × Value) := []

/-- Sorts the arguments out. A mark needs an argument behind it. -/
def sortOut : List Value → Except Cause Given
  | [] => .ok {}
  | .namedArg name :: rest =>
    match rest with
    | [] => .error (.noValueFor name)
    | v :: rest =>
      match sortOut rest with
      | .ok g => .ok { g with named := (name, v) :: g.named }
      | .error c => .error c
  | v :: rest =>
    match sortOut rest with
    | .ok g => .ok { g with positional := v :: g.positional }
    | .error c => .error c

/-- The places of the parameters, the first ones taken by the positional arguments. -/
def startPlaces (params : List Text) (positional : List Value) : List (Option Value) :=
  positional.map some ++ List.replicate (params.length - positional.length) none

/-- Puts the named arguments one after the other into free places. -/
def place (params : List Text) : List (Text × Value) → List (Option Value) →
    Except Cause (List (Option Value))
  | [], places => .ok places
  | (name, v) :: rest, places =>
    match params.findIdx? (· = name) with
    | none => .error (.unknownNamed name)
    | some i =>
      match places[i]? with
      | some none => place params rest (places.set i (some v))
      | _ => .error (.duplicateNamed name)

/-- The places up to the last one taken, with null in the gaps. -/
def fillGaps (places : List (Option Value)) : List Value :=
  (places.reverse.dropWhile Option.isNone).reverse.map fun p => p.getD .null

/-- The arguments in the order of the parameters. -/
def arrange (params : List Text) (window : List Value) : Except Cause (List Value) :=
  match sortOut window with
  | .error c => .error c
  | .ok g =>
    match place params g.named (startPlaces params g.positional) with
    | .ok places => .ok (fillGaps places)
    | .error c => .error c

/-- What stays of the arguments when they were sorted out and could not be arranged. -/
def vacatedWindow : List Value → List Value
  | [] => []
  | .namedArg name :: rest =>
    match rest with
    | [] => [.namedArg name]
    | v :: rest => .namedArg name :: v.vacated :: vacatedWindow rest
  | v :: rest => v.vacated :: vacatedWindow rest

end ScriptVm.NamedArgs
