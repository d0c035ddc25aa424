import ScriptVm.Assoc
import ScriptVm.Text

/-!
# Symbols

A symbol table numbers texts 0, 1, 2, … in the order in which they are first interned. Two
tables are kept in step: the names by number, and the numbers by name.
-/

set_option autoImplicit false

namespace ScriptVm

/-- The number of a symbol. -/
abbrev Symbol := Nat

/-- Names by number and numbers by name. -/
structure SymbolTable where
  names : Array Text := #[]
  numbers : Assoc Text Symbol := Assoc.empty

namespace SymbolTable

instance : Inhabited SymbolTable := ⟨{}⟩

/-- The number of a name that has been interned. -/
def lookup (t : SymbolTable) (name : Text) : Option Symbol := t.numbers.get? name

/-- The name of a number. -/
def name (t : SymbolTable) (s : Symbol) : Option Text := t.names[s]?

def size (t : SymbolTable) : Nat := t.names.size

/-- The number of a name, a new one if it has none. -/
def intern (t : SymbolTable) (name : Text) : Symbol × SymbolTable :=
  match t.lookup name with
  | some s => (s, t)
  | none =>
    let s := t.names.size
    (s, { names := t.names.push name, numbers := t.numbers.insert name s })

end SymbolTable

end ScriptVm
