import ScriptVm.Text

/-!
# Native functions

Functions that the host provides. They are named here by what they do; what each does is given
with the machine that calls them, since some look at the machine or call back into it.
-/

set_option autoImplicit false

namespace ScriptVm

/-- What a native function does with its arguments. -/
inductive NativeBody where
  /-- Null, whatever the arguments. -/
  | nothing
  /-- The number of calls under way. -/
  | depth
  /-- The number of values on the stack. -/
  | stack
  /-- The number of arguments. -/
  | count
  /-- The arguments as an array. -/
  | args
  /-- The first argument. -/
  | id
  /-- The arguments as an array. -/
  | pair
  /-- Fails with the text of the first argument. -/
  | fail
  /-- Raises a type error with the text of the first argument. -/
  | raise
  /-- Calls the first argument with the others, and fails if that fails. -/
  | apply
  /-- Calls the first argument with the others; an error becomes an array. -/
  | attempt
  /-- Calls the global of the given name; an error becomes a text. -/
  | callName
  | type
  | text
  | truthy
  /-- Whether two values are the same object. -/
  | same
  /-- The number of an instance's shape. -/
  | shape
  /-- Seals an instance's shape. -/
  | sealShape
  /-- A field of an instance by name. -/
  | field
  /-- The number of a class's method table. -/
  | table
  | superOf
  | isSubclass
  /-- The methods and fields that a class declares itself. -/
  | members
  | valueMethod
  /-- Forgets all inline caches. -/
  | clearCaches
  /-- A function of the host's own, which the host knows by a number. -/
  | own (function : Nat)
  deriving Repr, DecidableEq, Inhabited

/-- A native function. Without an arity it takes any number of arguments. -/
structure Native where
  name : Text
  arity : Option Nat
  body : NativeBody
  deriving Repr, DecidableEq, Inhabited

/-- The native functions that a session starts with. -/
def preludeNatives : List Native :=
  [⟨"depth", some 0, .depth⟩, ⟨"stack", some 0, .stack⟩, ⟨"count", none, .count⟩,
   ⟨"args", none, .args⟩, ⟨"id", some 1, .id⟩, ⟨"pair", some 2, .pair⟩,
   ⟨"fail", some 1, .fail⟩, ⟨"raise", some 1, .raise⟩, ⟨"apply", none, .apply⟩,
   ⟨"attempt", none, .attempt⟩, ⟨"call_name", none, .callName⟩, ⟨"type", some 1, .type⟩,
   ⟨"text", some 1, .text⟩, ⟨"truthy", some 1, .truthy⟩, ⟨"same", some 2, .same⟩,
   ⟨"shape", some 1, .shape⟩, ⟨"seal", some 1, .sealShape⟩, ⟨"field", some 2, .field⟩,
   ⟨"table", some 1, .table⟩, ⟨"super_of", some 1, .superOf⟩,
   ⟨"is_subclass", some 2, .isSubclass⟩, ⟨"members", some 1, .members⟩,
   ⟨"value_method", some 2, .valueMethod⟩, ⟨"clear_ic", some 0, .clearCaches⟩]

end ScriptVm
