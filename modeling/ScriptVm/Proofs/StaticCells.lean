import Mathlib.Data.List.Find
import ScriptVm.Proofs.RequiredParameters
import ScriptVm.Proofs.Resemblance

/-!
# Cells of static fields

The static fields of a class are in a cell. All classes that have been made from one class share its cell, so
one cell can come several times along a chain of superclasses. A look-up reads the first cell that declares the
name, and so does an assignment look for the cell that it writes; only if there is none it writes the cell of
the class itself.

`Heap.Assigns` says what comes of an assignment, and `Heap.assigns_of_setStatic?` that this is so. A constant
entry is never assigned to: `Heap.setStatic?_eq_none_iff`.
-/

set_option autoImplicit false

namespace ScriptVm

namespace Heap

variable {h h' : Heap} {r d : Ref .cls} {cell other : Ref .statics} {name n : Text} {v : Value} {f : StaticField}

/-- The cells along the chain of a class, its own one first. -/
def staticCells (h : Heap) (r : Ref .cls) : List (Ref .statics) := (h.chain r).map fun c => (h.classes.get c).statics

/-- What a cell says of a name. -/
def fieldIn? (h : Heap) (cell : Ref .statics) (name : Text) : Option StaticField := (h.statics.get cell).get? name

/-- The first cell along the chain that declares the name. -/
def declaringCell? (h : Heap) (r : Ref .cls) (name : Text) : Option (Ref .statics) :=
  (h.staticCells r).find? fun cell => (h.fieldIn? cell name).isSome

/-- The cell that an assignment writes: the first one that declares the name, or else the class's own one. -/
def assignedCell (h : Heap) (r : Ref .cls) (name : Text) : Ref .statics :=
  (h.declaringCell? r name).getD (h.classes.get r).statics

/-- The first cell along the chain that declares the name marks it constant. -/
def Fixed (h : Heap) (r : Ref .cls) (name : Text) : Prop :=
  ∃ cell v, h.declaringCell? r name = some cell ∧ h.fieldIn? cell name = some ⟨v, true⟩

/-- Writes one entry of a cell. -/
def putEntry (h : Heap) (cell : Ref .statics) (name : Text) (f : StaticField) : Heap :=
  { h with statics := h.statics.set cell ((h.statics.get cell).insert name f) }

/-! ## Look-ups by cells -/

theorem declaringCell?_isSome (declares : h.declaringCell? r name = some cell) : (h.fieldIn? cell name).isSome :=
  List.find?_some (p := fun cell => (h.fieldIn? cell name).isSome) declares

/-- An assignment looks for the class by its cell. -/
theorem staticOwner?_cell (h : Heap) (r : Ref .cls) (name : Text) :
    (h.staticOwner? r name).map (fun c => (h.classes.get c).statics) = h.declaringCell? r name := by
  unfold declaringCell? staticCells
  rw [List.find?_map]
  rfl

/-- A look-up reads the first cell that declares the name. -/
theorem findStaticField_eq (h : Heap) (r : Ref .cls) (name : Text) :
    h.findStaticField r name =
      (h.declaringCell? r name).bind fun cell => (h.fieldIn? cell name).map StaticField.value := by
  unfold findStaticField declaringCell? staticCells
  induction h.chain r with
  | nil => rfl
  | cons c rest ih =>
    have here : (h.ownStatics c).get? name = h.fieldIn? (h.classes.get c).statics name := rfl
    rw [List.findSome?_cons, List.map_cons, List.find?_cons, here]
    cases entry : h.fieldIn? (h.classes.get c).statics name with
    | none => exact ih
    | some g =>
      show some g.value = (h.fieldIn? (h.classes.get c).statics name).map StaticField.value
      rw [entry]
      rfl

/-! ## Writing an entry -/

theorem fieldIn?_putEntry_cases (h : Heap) (cell : Ref .statics) (name : Text) (f : StaticField) (other : Ref .statics)
    (n : Text) : (h.putEntry cell name f).fieldIn? other n = h.fieldIn? other n ∨
      other = cell ∧ n = name ∧ (h.putEntry cell name f).fieldIn? other n = some f := by
  unfold fieldIn? putEntry
  dsimp only
  rw [Pool.get_set_eq]
  split
  next here =>
    obtain ⟨rfl, -⟩ := here
    rw [Assoc.get?_insert]
    split
    next same => exact .inr ⟨rfl, same.symm, rfl⟩
    next => exact .inl rfl
  next => exact .inl rfl

/-- Of a cell that there is, one entry is written and no other. -/
theorem fieldIn?_putEntry (known : h.statics.has cell) (other : Ref .statics) (n : Text) :
    (h.putEntry cell name f).fieldIn? other n = if other = cell ∧ n = name then some f else h.fieldIn? other n := by
  unfold fieldIn? putEntry
  dsimp only
  rw [Pool.get_set _ _ _ _ known]
  by_cases here : cell = other
  · subst here
    rw [if_pos rfl, Assoc.get?_insert]
    by_cases named : name = n
    · rw [if_pos named, if_pos ⟨rfl, named.symm⟩]
    · rw [if_neg named, if_neg fun both => named both.2.symm]
  · rw [if_neg here, if_neg fun both => here both.1.symm]

theorem staticCells_putEntry (h : Heap) (cell : Ref .statics) (name : Text) (f : StaticField) (r : Ref .cls) :
    (h.putEntry cell name f).staticCells r = h.staticCells r := by
  have classes : (h.putEntry cell name f).classes = h.classes := rfl
  have chain : (h.putEntry cell name f).chain r = h.chain r := Exec.chainFrom_congr classes _ r
  unfold staticCells
  rw [chain]
  rfl

/-- Where a name is declared is a matter of which entries there are. -/
theorem declaringCell?_congr (cells : h'.staticCells r = h.staticCells r)
    (entries : ∀ cell, (h'.fieldIn? cell name).isSome = (h.fieldIn? cell name).isSome) :
    h'.declaringCell? r name = h.declaringCell? r name := by
  unfold declaringCell?
  rw [cells]
  exact List.find?_congr fun cell _ => entries cell

/-- A search that may stop at one more place stops there, or where it stopped before. -/
theorem find?_or_eq {α : Type} {p q : α → Bool} {a : α} (here : q a = true) (same : ∀ x, x ≠ a → q x = p x)
    (l : List α) : l.find? q = some a ∨ l.find? q = l.find? p ∧ l.find? q ≠ some a := by
  induction l with
  | nil => exact .inr ⟨rfl, nofun⟩
  | cons x rest ih =>
    by_cases first : x = a
    · subst first
      exact .inl (List.find?_cons_of_pos here)
    · rw [List.find?_cons, List.find?_cons, same x first]
      cases p x with
      | true => exact .inr ⟨rfl, fun found => first (Option.some.inj found)⟩
      | false => exact ih

/-- A look-up reads the entry that has been written if the cell is now the first one to declare the name, and
else what it read before. -/
theorem findStaticField_putEntry (known : h.statics.has cell) (d : Ref .cls) (n : Text) :
    (h.putEntry cell name f).findStaticField d n =
      if n = name ∧ (h.putEntry cell name f).declaringCell? d name = some cell then some f.value
      else h.findStaticField d n := by
  have entries : ∀ other n, (h.putEntry cell name f).fieldIn? other n =
      if other = cell ∧ n = name then some f else h.fieldIn? other n := fieldIn?_putEntry known
  have cells := staticCells_putEntry h cell name f d
  rw [findStaticField_eq, findStaticField_eq]
  by_cases named : n = name
  · subst named
    have first : (h.putEntry cell n f).declaringCell? d n = some cell ∨
        (h.putEntry cell n f).declaringCell? d n = h.declaringCell? d n ∧
          (h.putEntry cell n f).declaringCell? d n ≠ some cell := by
      unfold declaringCell?
      rw [cells]
      refine find?_or_eq ?_ (fun other ne => ?_) _
      · rw [entries, if_pos ⟨rfl, rfl⟩]
        rfl
      · rw [entries, if_neg fun both => ne both.1]
    obtain here | ⟨before, elsewhere⟩ := first
    · rw [if_pos ⟨rfl, here⟩, here, Option.bind_some, entries, if_pos ⟨rfl, rfl⟩]
      rfl
    · rw [if_neg fun both => elsewhere both.2, before]
      rw [before] at elsewhere
      refine Option.bind_congr fun other declares => ?_
      rw [entries, if_neg]
      rintro ⟨rfl, -⟩
      exact elsewhere declares
  · have same : ∀ other, (h.putEntry cell name f).fieldIn? other n = h.fieldIn? other n := fun other => by
      rw [entries, if_neg fun both => named both.2]
    rw [if_neg fun both => named both.1, declaringCell?_congr cells fun other => by rw [same]]
    simp only [same]

/-! ## Assignments -/

theorem setStatic?_eq (h : Heap) (r : Ref .cls) (name : Text) (v : Value) :
    h.setStatic? r name v =
      match h.declaringCell? r name with
      | none => some (h.putEntry (h.classes.get r).statics name ⟨v, false⟩)
      | some cell =>
        match h.fieldIn? cell name with
        | some ⟨_, true⟩ => none
        | _ => some (h.putEntry cell name ⟨v, false⟩) := by
  unfold setStatic?
  rw [← staticOwner?_cell]
  cases h.staticOwner? r name <;> rfl

/-- An assignment is refused if and only if the first cell that declares the name marks it constant. -/
theorem setStatic?_eq_none_iff : h.setStatic? r name v = none ↔ h.Fixed r name := by
  rw [setStatic?_eq]
  constructor
  · intro refused
    cases declares : h.declaringCell? r name with
    | none =>
      rw [declares] at refused
      cases refused
    | some cell =>
      rw [declares] at refused
      dsimp only at refused
      split at refused
      next old entry => exact ⟨cell, old, declares, entry⟩
      next => cases refused
  · rintro ⟨cell, old, declares, entry⟩
    simp only [declares, entry]

/-- A class's own cell comes first. -/
theorem staticCells_eq_cons (h : Heap) (r : Ref .cls) : ∃ rest, h.staticCells r = (h.classes.get r).statics :: rest :=
  ⟨_, List.map_cons⟩

/-- What is assigned to is not constant. -/
theorem fieldIn?_assignedCell (free : ¬h.Fixed r name) (old : Value) :
    h.fieldIn? (h.assignedCell r name) name ≠ some ⟨old, true⟩ := by
  intro entry
  unfold assignedCell at entry
  cases declares : h.declaringCell? r name with
  | none =>
    rw [declares] at entry
    obtain ⟨rest, cells⟩ := h.staticCells_eq_cons r
    unfold declaringCell? at declares
    rw [cells, List.find?_eq_none] at declares
    have undeclared := declares _ List.mem_cons_self
    rw [Option.getD_none] at entry
    rw [entry] at undeclared
    exact undeclared rfl
  | some cell =>
    rw [declares] at entry
    exact free ⟨cell, old, declares, entry⟩

/-- What an assignment writes. -/
theorem setStatic?_eq_some (done : h.setStatic? r name v = some h') :
    ¬h.Fixed r name ∧ h' = h.putEntry (h.assignedCell r name) name ⟨v, false⟩ := by
  refine ⟨fun fixed => ?_, ?_⟩
  · rw [setStatic?_eq_none_iff.2 fixed] at done
    cases done
  · rw [setStatic?_eq] at done
    unfold assignedCell
    cases declares : h.declaringCell? r name with
    | none =>
      rw [declares] at done
      exact (Option.some.inj done).symm
    | some cell =>
      rw [declares] at done
      dsimp only at done
      split at done
      next => cases done
      next => exact (Option.some.inj done).symm

/-- A cell that declares the name already is not asked earlier than before. -/
theorem declaringCell?_putEntry (known : h.statics.has cell) (declared : (h.fieldIn? cell name).isSome) (d : Ref .cls)
    (n : Text) : (h.putEntry cell name f).declaringCell? d n = h.declaringCell? d n := by
  refine declaringCell?_congr (staticCells_putEntry h cell name f d) fun other => ?_
  rw [fieldIn?_putEntry known]
  split
  next both =>
    obtain ⟨rfl, rfl⟩ := both
    rw [declared]
    rfl
  next => rfl

/-- After an assignment the cell that has been written is the first one to declare the name. -/
theorem declaringCell?_assigned (known : h.statics.has (h.assignedCell r name)) :
    (h.putEntry (h.assignedCell r name) name f).declaringCell? r name = some (h.assignedCell r name) := by
  cases declares : h.declaringCell? r name with
  | some cell =>
    have assigned : h.assignedCell r name = cell := by
      unfold assignedCell
      rw [declares]
      rfl
    rw [assigned] at known ⊢
    rw [declaringCell?_putEntry known (declaringCell?_isSome declares), declares]
  | none =>
    have own : h.assignedCell r name = (h.classes.get r).statics := by
      unfold assignedCell
      rw [declares]
      rfl
    rw [own] at known ⊢
    obtain ⟨rest, cells⟩ := h.staticCells_eq_cons r
    unfold declaringCell?
    rw [staticCells_putEntry, cells]
    refine List.find?_cons_of_pos ?_
    rw [fieldIn?_putEntry known, if_pos ⟨rfl, rfl⟩]
    rfl

/-- What comes of assigning `v` to the static field `name` of the class `r`. -/
structure Assigns (h : Heap) (r : Ref .cls) (name : Text) (v : Value) (h' : Heap) : Prop where
  /-- Only static fields are written, and of them one entry of one cell. -/
  rest : h' = { h with statics := h'.statics }
  entries : ∀ cell n, h'.fieldIn? cell n =
    if cell = h.assignedCell r name ∧ n = name then some ⟨v, false⟩ else h.fieldIn? cell n
  /-- The class has the value. -/
  reads : h'.findStaticField r name = some v
  /-- Any class reads something else than before only under this name, and only if the cell that has been written
  is now the first one of its chain to declare the name. -/
  others : ∀ d n, h'.findStaticField d n =
    if n = name ∧ h'.declaringCell? d name = some (h.assignedCell r name) then some v else h.findStaticField d n
  /-- A field that a superclass declares gets no copy. -/
  unshadowed : ∀ cell, h.declaringCell? r name = some cell →
    h.assignedCell r name = cell ∧ ∀ d n, h'.declaringCell? d n = h.declaringCell? d n

theorem assigns_of_setStatic? (known : h.statics.has (h.assignedCell r name)) (done : h.setStatic? r name v = some h') :
    h.Assigns r name v h' := by
  obtain ⟨-, rfl⟩ := setStatic?_eq_some done
  refine ⟨rfl, fieldIn?_putEntry known, ?_, findStaticField_putEntry known, fun cell declares => ?_⟩
  · rw [findStaticField_putEntry known, if_pos ⟨rfl, declaringCell?_assigned known⟩]
  · have assigned : h.assignedCell r name = cell := by
      unfold assignedCell
      rw [declares]
      rfl
    refine ⟨assigned, fun d n => ?_⟩
    rw [assigned] at known ⊢
    exact declaringCell?_putEntry known (declaringCell?_isSome declares) d n

end Heap

end ScriptVm
