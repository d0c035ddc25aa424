import ScriptVm.Shape
import ScriptVm.Value

/-!
# Inline caches

A cache of a call site remembers what was found for at most four pairs of a symbol and a shape.
The first four pairs stay for good; a fifth is refused, while each of the four can be given a
new value.

The registry has one cache of property offsets and one cache of methods for every call site
that has asked for one.
-/

set_option autoImplicit false

namespace ScriptVm

/-- A call site: the number of a prototype and an instruction index, 32 bits each. -/
abbrev Site := Nat

/-- The number of values of one half of a call site. -/
def Site.half : Nat := 4294967296

/-- The call site at instruction `ip` of prototype `proto`. -/
def Site.of (proto ip : Nat) : Site := proto % Site.half * Site.half + ip % Site.half

/-- What a cache is asked for: a symbol on a shape or method table. -/
structure CacheKey where
  symbol : Symbol
  shape : ShapeId
  deriving Repr, DecidableEq, Inhabited

/-- At most four keys with what was found for them. -/
structure Cache (α : Type) where
  entries : List (CacheKey × α) := []

namespace Cache

/-- The number of keys that a cache takes. -/
def capacity : Nat := 4

variable {α : Type}

instance : Inhabited (Cache α) := ⟨{}⟩

def size (c : Cache α) : Nat := c.entries.length

def isMonomorphic (c : Cache α) : Bool := c.size == 1

def isMegamorphic (c : Cache α) : Bool := capacity ≤ c.size

def lookup (c : Cache α) (k : CacheKey) : Option α := Assoc.find k c.entries

/-- Updates a known key, or appends a new one if there is room. Tells whether the key is in. -/
def insert (c : Cache α) (k : CacheKey) (a : α) : Bool × Cache α :=
  if (c.lookup k).isSome || c.size < capacity then (true, ⟨Assoc.put k a c.entries⟩)
  else (false, c)

end Cache

/-- A method found in the class named `owner`. -/
structure FoundMethod where
  owner : Text
  method : Value

instance : Inhabited FoundMethod := ⟨⟨[], .null⟩⟩

/-- The caches of all call sites. -/
structure CacheRegistry where
  properties : Assoc Site (Cache Nat) := Assoc.empty
  methods : Assoc Site (Cache FoundMethod) := Assoc.empty

namespace CacheRegistry

instance : Inhabited CacheRegistry := ⟨{}⟩

/-- The cache of a site in one of the two families, made if there is none. -/
def opened {α : Type} (family : Assoc Site (Cache α)) (site : Site) : Cache α × Assoc Site (Cache α) :=
  match family.get? site with
  | some c => (c, family)
  | none => ({}, family.insert site {})

/-- Inserts into the cache of a site and tells whether the key is in. -/
def record {α : Type} (family : Assoc Site (Cache α)) (site : Site) (k : CacheKey) (a : α) :
    Bool × Assoc Site (Cache α) :=
  let (inserted, c) := ((family.get? site).getD {}).insert k a
  (inserted, family.insert site c)

/-- The property cache of a site. -/
def propertyCache (r : CacheRegistry) (site : Site) : Cache Nat × CacheRegistry :=
  let (c, properties) := opened r.properties site
  (c, { r with properties })

/-- The method cache of a site. -/
def methodCache (r : CacheRegistry) (site : Site) : Cache FoundMethod × CacheRegistry :=
  let (c, methods) := opened r.methods site
  (c, { r with methods })

def recordProperty (r : CacheRegistry) (site : Site) (k : CacheKey) (offset : Nat) :
    Bool × CacheRegistry :=
  let (inserted, properties) := record r.properties site k offset
  (inserted, { r with properties })

def recordMethod (r : CacheRegistry) (site : Site) (k : CacheKey) (found : FoundMethod) :
    Bool × CacheRegistry :=
  let (inserted, methods) := record r.methods site k found
  (inserted, { r with methods })

/-- Forgets every cache. -/
def clear (_ : CacheRegistry) : CacheRegistry := {}

end CacheRegistry

end ScriptVm
