/-!
# Results that may be missing

A result, or the reason why there is none. `Fallible ε Unit` is for work that gives nothing when
it succeeds.
-/

set_option autoImplicit false

namespace ScriptVm

/-- A result or an error. -/
inductive Fallible (ε α : Type) where
  | ok (a : α)
  | err (e : ε)
  deriving Repr, DecidableEq

namespace Fallible

variable {ε α β : Type}

def isOk : Fallible ε α → Bool
  | ok _ => true
  | err _ => false

def isErr (r : Fallible ε α) : Bool := !r.isOk

def value? : Fallible ε α → Option α
  | ok a => some a
  | err _ => none

def error? : Fallible ε α → Option ε
  | ok _ => none
  | err e => some e

/-- The result, or `a` if there is none. -/
def valueOr (r : Fallible ε α) (a : α) : α := r.value?.getD a

/-- The result after `f`. An error stays as it is. -/
def map (f : α → β) : Fallible ε α → Fallible ε β
  | ok a => ok (f a)
  | err e => err e

end Fallible

end ScriptVm
