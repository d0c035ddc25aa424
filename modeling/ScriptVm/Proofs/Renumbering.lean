import ScriptVm.Bytecode.Blueprint
import ScriptVm.Proofs.Resemblance
import ScriptVm.Proofs.WorldRegular

/-!
# Worlds with other numbers

Prototypes, symbols, shapes and method tables are numbered in the order in which they come up, so the
same program gets other numbers in a world that other programs have used before.

`Constant.Renumbered` relates functions that differ in their numbers only. `World.Akin` relates worlds
that differ in all their numbers and yet resemble each other, and this goes on: under the names of its
symbols, the row of an instance is an association list that every operation changes in the same way,
whatever the symbols and shapes are.
-/

set_option autoImplicit false

namespace ScriptVm

/-! ## Prototypes with other numbers -/

/-- The same constants but for the numbers of functions. -/
inductive Constant.Renumbered : Constant → Constant → Prop where
  | refl (k : Constant) : Renumbered k k
  | function {p p' : Proto} (name : p'.name = p.name) (arity : p'.arity = p.arity)
      (defaults : p'.defaults = p.defaults) (params : p'.params = p.params) (captures : p'.captures = p.captures)
      (code : p'.chunk.code = p.chunk.code) (lines : p'.chunk.lines = p.chunk.lines)
      (constants : ∀ i : Nat, Option.Rel Renumbered p.chunk.constants[i]? p'.chunk.constants[i]?) :
      Renumbered (.function p) (.function p')

/-- Being the same up to numbers is a likeness. -/
theorem likeness_renumbered : Likeness Constant.Renumbered where
  refl := .refl
  cases h := by
    cases h with
    | refl => exact .inl rfl
    | function name arity defaults params captures code lines constants =>
      exact .inr ⟨_, _, rfl, rfl, name, arity, defaults, params, captures, code, lines, constants⟩

/-- The same chunks but for the numbers of functions. -/
structure Chunk.Renumbered (c c' : Code) : Prop where
  code : c'.code = c.code
  lines : c'.lines = c.lines
  constants : ∀ i : Nat, Option.Rel Constant.Renumbered c.constants[i]? c'.constants[i]?

namespace Chunk.Renumbered

variable {c c' : Code}

/-- Code differs from itself in nothing. -/
theorem refl (c : Code) : c.Renumbered c := ⟨rfl, rfl, fun _ => likeness_renumbered.rel_refl _⟩

/-- The same texts are in both pools, in the same places. -/
theorem texts (h : c.Renumbered c') : c'.constants.map Constant.text? = c.constants.map Constant.text? := by
  refine Array.ext_getElem? fun i => ?_
  have related := h.constants i
  rw [Array.getElem?_map, Array.getElem?_map]
  generalize c.constants[i]? = k at related ⊢
  generalize c'.constants[i]? = k' at related ⊢
  cases related with
  | none => rfl
  | some related => exact congrArg some (likeness_renumbered.text? related)

theorem size (h : c.Renumbered c') : c'.constants.size = c.constants.size := by
  simpa using congrArg Array.size h.texts

/-- A constant can be added at the end of both pools. -/
theorem appendConstant (h : c.Renumbered c') {k k' : Constant} (related : k.Renumbered k') :
    (c.appendConstant k).2.Renumbered (c'.appendConstant k').2 := by
  unfold Chunk.appendConstant
  rw [h.size]
  split
  · refine ⟨h.code, h.lines, fun i => ?_⟩
    rw [Array.getElem?_push, Array.getElem?_push, h.size]
    split
    · exact .some related
    · exact h.constants i
  · exact h

/-- A text that is there already is found at the same place in both pools. -/
theorem addText (h : c.Renumbered c') (t : Text) : (c.addText t).2.Renumbered (c'.addText t).2 := by
  have found : (c'.constants.findIdx? fun k => k.text? = some t) =
      c.constants.findIdx? fun k => k.text? = some t := by
    have mapped := congrArg (fun texts => texts.findIdx? fun k => decide (k = some t)) h.texts
    simp only [Array.findIdx?_map] at mapped
    exact mapped
  unfold Chunk.addText
  rw [found]
  split
  · exact h
  · exact h.appendConstant (.refl _)

/-- Corresponding constants get the same index. -/
theorem addConstant (h : c.Renumbered c') {k k' : Constant} (related : k.Renumbered k') :
    (c.addConstant k).2.Renumbered (c'.addConstant k').2 := by
  cases related with
  | refl =>
    cases k with
    | text t => exact h.addText t
    | _ => exact h.appendConstant (.refl _)
  | function => exact h.appendConstant (.function ‹_› ‹_› ‹_› ‹_› ‹_› ‹_› ‹_› ‹_›)

theorem withCode (h : c.Renumbered c') (code : List (Instruction × Nat)) :
    (c.withCode code).Renumbered (c'.withCode code) := by
  unfold Chunk.withCode
  induction code generalizing c c' with
  | nil => exact h
  | cons i rest ih =>
    refine ih ⟨?_, ?_, h.constants⟩
    · simp only [Chunk.emit, h.code]
    · simp only [Chunk.emit, h.lines]

end Chunk.Renumbered

mutual

/-- Wherever the numbers start, a blueprint gives the same function but for its numbers. -/
theorem renumbered_build (n n' : Nat) (b : Blueprint) :
    Constant.Renumbered (.function (b.build n).1) (.function (b.build n').1) := by
  cases b with
  | function name arity defaults params captures constants code =>
    have chunk := (renumbered_addPlans (n + 1) (n' + 1) (.refl {}) constants).withCode code
    simp only [Blueprint.build]
    exact .function rfl rfl rfl rfl rfl chunk.code chunk.lines chunk.constants

/-- The same plan makes code that differs in numbers only, whatever numbers it begins with. -/
theorem renumbered_addPlans (n n' : Nat) {c c' : Code} (h : c.Renumbered c') (plans : List ConstantPlan) :
    (addPlans n c plans).1.Renumbered (addPlans n' c' plans).1 := by
  cases plans with
  | nil =>
    simp only [addPlans]
    exact h
  | cons plan rest =>
    simp only [addPlans]
    exact renumbered_addPlans _ _ (h.addConstant (renumbered_buildConstant n n' plan)) rest

/-- So does the plan of a constant. -/
theorem renumbered_buildConstant (n n' : Nat) (plan : ConstantPlan) :
    Constant.Renumbered (plan.build n).1 (plan.build n').1 := by
  cases plan with
  | plain k =>
    simp only [ConstantPlan.build]
    exact .refl k
  | function b =>
    simp only [ConstantPlan.build]
    exact renumbered_build n n' b

end

/-! ## Symbols and names -/

namespace SymbolTable

variable {t t' : SymbolTable} {n : Text} {s : Symbol} {es : List (Symbol × Value)}

/-- Names and symbols belong together one to one. -/
def Paired (t : SymbolTable) : Prop := ∀ n s, t.lookup n = some s ↔ t.name s = some n

/-- A new table has no names. -/
theorem paired_empty : ({} : SymbolTable).Paired := by
  intro n s
  simp [lookup, name]

/-- A new name gets a new symbol. -/
theorem Paired.intern (h : t.Paired) (name : Text) : (t.intern name).2.Paired := by
  unfold SymbolTable.intern
  split
  · exact h
  next unknown =>
    intro n s
    simp only [lookup, SymbolTable.name, Assoc.get?_insert, Array.getElem?_push]
    have old : t.lookup n = some s ↔ t.name s = some n := h n s
    unfold lookup SymbolTable.name at old
    by_cases new : s = t.names.size
    · subst new
      rw [if_pos rfl]
      by_cases same : name = n
      · simp [same]
      · rw [if_neg same, old]
        simp [same]
    · rw [if_neg new, ← old]
      by_cases same : name = n
      · subst same
        have unknown : t.numbers.get? name = none := unknown
        rw [if_pos rfl, unknown]
        simp [Ne.symm new]
      · rw [if_neg same]

/-- A known name belongs to one symbol. -/
theorem Paired.name_eq_iff (h : t.Paired) (known : t.lookup n = some s) (s' : Symbol) :
    t.name s' = some n ↔ s' = s := by
  rw [← h n s', known]
  exact ⟨fun e => (Option.some.inj e).symm, fun e => congrArg some e.symm⟩

/-- The row with names for symbols. -/
def named (t : SymbolTable) (es : List (Symbol × Value)) : List (Option Text × Value) :=
  es.map fun e => (t.name e.1, e.2)

/-- The row has only symbols of the table. -/
def Covers (t : SymbolTable) (es : List (Symbol × Value)) : Prop := ∀ e ∈ es, ∃ n, t.lookup n = some e.1

/-- A field is found by its name as it is by its symbol. -/
theorem Paired.find_named (h : t.Paired) (known : t.lookup n = some s) :
    Assoc.find (some n) (t.named es) = Assoc.find s es := by
  induction es with
  | nil => rfl
  | cons e rest ih =>
    have head := h.name_eq_iff known e.1
    simp only [named, List.map_cons, Assoc.find] at ih ⊢
    rw [ih]
    simp only [head]

/-- A name without a symbol belongs to no field. -/
theorem Paired.find_named_of_unknown (h : t.Paired) (unknown : t.lookup n = none) :
    Assoc.find (some n) (t.named es) = none := by
  induction es with
  | nil => rfl
  | cons e rest ih =>
    have other : t.name e.1 ≠ some n := fun named => by
      rw [(h n e.1).2 named] at unknown
      cases unknown
    simp only [named, List.map_cons, Assoc.find] at ih ⊢
    rw [ih, if_neg other]

/-- Setting a field by its symbol sets it by its name. -/
theorem Paired.named_put (h : t.Paired) (known : t.lookup n = some s) (v : Value) :
    t.named (Assoc.put s v es) = Assoc.put (some n) v (t.named es) := by
  have self : t.name s = some n := (h n s).1 known
  induction es with
  | nil => simp [named, Assoc.put, self]
  | cons e rest ih =>
    have head := h.name_eq_iff known e.1
    simp only [named, List.map_cons, Assoc.put] at ih ⊢
    by_cases same : e.1 = s
    · rw [if_pos same, if_pos (head.2 same), List.map_cons, self]
    · rw [if_neg same, if_neg fun named => same (head.1 named), List.map_cons, ih]

/-- The names of a row stay when the table grows. -/
theorem Paired.named_eq (h : t.Paired) (h' : t'.Paired)
    (grown : ∀ n s, t.lookup n = some s → t'.lookup n = some s) (covers : t.Covers es) :
    t'.named es = t.named es := by
  refine List.map_congr_left fun e he => ?_
  obtain ⟨n, known⟩ := covers e he
  rw [(h n e.1).1 known, (h' n e.1).1 (grown n e.1 known)]

/-- A field that is set has a symbol with a name. -/
theorem Covers.put (h : t.Covers es) (known : t.lookup n = some s) (v : Value) : t.Covers (Assoc.put s v es) := by
  have keys := Assoc.map_fst_put s v es
  intro e he
  have mem : e.1 ∈ (Assoc.put s v es).map Prod.fst := List.mem_map_of_mem he
  rw [keys, List.mem_append] at mem
  rcases mem with old | new
  · obtain ⟨f, hf, same⟩ := List.mem_map.1 old
    exact same ▸ h f hf
  · split at new
    · cases new
    · rw [List.mem_singleton] at new
      exact ⟨n, new ▸ known⟩

end SymbolTable

/-! ## Declared fields -/

namespace SymbolTable

variable {t : SymbolTable} {n : Text} {s : Symbol} {decls : List FieldDecl}

/-- Declared fields have the symbols of their names. -/
def Declares (t : SymbolTable) (decls : List FieldDecl) : Prop := ∀ d ∈ decls, t.lookup d.name = some d.symbol

theorem Paired.symbol_eq_iff (h : t.Paired) (declares : t.Declares decls) (known : t.lookup n = some s)
    {d : FieldDecl} (hd : d ∈ decls) : d.symbol = s ↔ d.name = n := by
  have declared := declares d hd
  refine ⟨fun same => ?_, fun same => ?_⟩
  · rw [same] at declared
    exact Option.some.inj (((h _ s).1 declared).symm.trans ((h n s).1 known))
  · rw [same, known] at declared
    exact (Option.some.inj declared).symm

/-- A field is found under its symbol as under its name. -/
theorem Paired.find?_shown (h : t.Paired) (declares : t.Declares decls) (known : t.lookup n = some s) :
    (decls.find? fun d => d.symbol = s).map FieldDecl.shown =
      (decls.map FieldDecl.shown).find? fun d => d.1 = n := by
  induction decls with
  | nil => rfl
  | cons d rest ih =>
    have head := h.symbol_eq_iff declares known List.mem_cons_self
    have tail := ih fun x hx => declares x (List.mem_cons_of_mem _ hx)
    by_cases same : d.symbol = s
    · simp [same, FieldDecl.shown, head.1 same]
    · have other : ¬ d.name = n := fun e => same (head.2 e)
      simpa [same, FieldDecl.shown, other] using tail

/-- The initial values of declared fields, put into a row one after the other. -/
def initialised (decls : List FieldDecl) (es : List (Symbol × Value)) : List (Symbol × Value) :=
  decls.foldl (fun es d => Assoc.put d.symbol d.initial es) es

/-- The declarations lay out a row in the same way under names. -/
theorem Paired.named_initialised (h : t.Paired) (declares : t.Declares decls) (es : List (Symbol × Value)) :
    t.named (initialised decls es) =
      (decls.map FieldDecl.shown).foldl (fun es d => Assoc.put (some d.1) d.2.1 es) (t.named es) := by
  unfold initialised
  induction decls generalizing es with
  | nil => rfl
  | cons d rest ih =>
    rw [List.foldl_cons, List.map_cons, List.foldl_cons, ih fun x hx => declares x (List.mem_cons_of_mem _ hx),
      h.named_put (declares d List.mem_cons_self)]
    rfl

theorem Covers.initialised {es : List (Symbol × Value)} (h : t.Covers es) (declares : t.Declares decls) :
    t.Covers (initialised decls es) := by
  unfold SymbolTable.initialised
  induction decls generalizing es with
  | nil => exact h
  | cons d rest ih =>
    exact ih (h.put (declares d List.mem_cons_self) d.initial) fun x hx => declares x (List.mem_cons_of_mem _ hx)

end SymbolTable

/-! ## Lawful worlds -/

namespace World

/-- A regular world whose rows and declarations have symbols of the table. -/
structure Lawful (w : World) : Prop where
  regular : w.Regular
  paired : w.symbols.Paired
  covers : ∀ r, w.symbols.Covers (w.heap.objects.get r).fields.entries
  declares : ∀ r, w.symbols.Declares (w.heap.classes.get r).fields

/-- A row is what an instance stores, under names. -/
theorem row_eq (w : World) (r : Ref .object) : w.row r = w.symbols.named (w.heap.objects.get r).fields.entries := rfl

namespace Lawful

variable {w w' : World}

/-- A field is found under its name in the row. -/
theorem get_eq (h : w.Lawful) {n : Text} {s : Symbol} (known : w.symbols.lookup n = some s) (r : Ref .object) :
    (w.heap.objects.get r).fields.get w.shapes s = Assoc.find (some n) (w.row r) := by
  rw [(h.regular.rows r).get_eq, row_eq, h.paired.find_named known]

/-- A field of an instance is found in its row. -/
theorem namedField_eq (h : w.Lawful) (r : Ref .object) (n : Text) :
    w.namedField r n = Assoc.find (some n) (w.row r) := by
  unfold namedField
  cases known : w.symbols.lookup n with
  | some s => exact h.get_eq known r
  | none => rw [row_eq, h.paired.find_named_of_unknown known]

/-- Only the symbols, shapes, classes and instances matter. -/
theorem congr (h : w.Lawful) (symbols : w'.symbols = w.symbols) (shapes : w'.shapes = w.shapes)
    (classes : w'.heap.classes = w.heap.classes) (objects : w'.heap.objects = w.heap.objects) : w'.Lawful where
  regular :=
    ⟨symbols ▸ h.regular.symbols, shapes ▸ h.regular.shapes, shapes ▸ objects ▸ h.regular.rows,
      shapes ▸ classes ▸ h.regular.tables, classes ▸ h.regular.distinct⟩
  paired := symbols ▸ h.paired
  covers := symbols ▸ objects ▸ h.covers
  declares := symbols ▸ classes ▸ h.declares

theorem intern (h : w.Lawful) (name : Text) : (w.intern name).2.Lawful where
  regular := h.regular.intern name
  paired := h.paired.intern name
  covers r e he := by
    obtain ⟨n, known⟩ := h.covers r e he
    exact ⟨n, SymbolTable.lookup_intern name known⟩
  declares r d hd := SymbolTable.lookup_intern name (h.declares r d hd)

/-- A new name is in no row yet. -/
theorem row_intern (h : w.Lawful) (name : Text) (r : Ref .object) : (w.intern name).2.row r = w.row r :=
  h.paired.named_eq (h.paired.intern name) (fun _ _ known => SymbolTable.lookup_intern name known) (h.covers r)

/-- Sealing a shape keeps a world lawful. -/
theorem sealShape (h : w.Lawful) (id : ShapeId) : Lawful { w with shapes := w.shapes.sealShape id } :=
  ⟨(Change.sealShape w id).regular h.regular, h.paired, h.covers, h.declares⟩

/-- A class whose fields have symbols with names keeps a world lawful. -/
theorem publish (h : w.Lawful) {draft : Class} (declares : w.symbols.Declares draft.fields) :
    (w.publish draft).2.Lawful :=
  ⟨h.regular.publish draft, h.paired, h.covers,
    Pool.forall_alloc (P := fun c : Class => w.symbols.Declares c.fields) h.declares declares⟩

/-! ### Rows -/

/-- Setting a field of an instance sets it in what the instance stores. -/
theorem entries_setField (h : w.Lawful) (r : Ref .object) (s : Symbol) (v : Value) :
    ((w.heap.objects.get r).fields.set w.shapes s v).object.entries =
      Assoc.put s v (w.heap.objects.get r).fields.entries :=
  ((h.regular.rows r).set h.regular.shapes s v).2.2.2

/-- An assignment to a field that is not constant keeps a world lawful. -/
theorem setField (h : w.Lawful) {n : Text} {r : Ref .object} {s : Symbol} (known : w.symbols.lookup n = some s)
    (writable : w.heap.isConstField (w.heap.objects.get r).cls s = false) (v : Value) :
    (w.setField r s v).Lawful := by
  have regular := (Change.setField w r s v writable).regular h.regular
  rw [setField_eq] at regular ⊢
  refine ⟨regular, h.paired, ?_, h.declares⟩
  refine Pool.forall_set (P := fun o : Instance => w.symbols.Covers o.fields.entries) h.covers ?_
  rw [h.entries_setField]
  exact (h.covers r).put known v

/-- Setting a field puts it into the row under its name. -/
theorem row_setField (h : w.Lawful) {n : Text} {s : Symbol} (known : w.symbols.lookup n = some s)
    (r : Ref .object) (v : Value) (r' : Ref .object) :
    (w.setField r s v).row r' =
      if r = r' ∧ r'.index < w.heap.objects.size then Assoc.put (some n) v (w.row r) else w.row r' := by
  rw [setField_eq, row_eq, row_eq, row_eq]
  simp only [Pool.get_set_eq]
  split
  · rw [h.entries_setField, h.paired.named_put known]
  · rfl

/-- A new instance stores what its declarations lay out. -/
theorem entries_layOut {decls : List FieldDecl} {o : ShapedObject} {r : ShapeRegistry} (t : r.Trie)
    (fits : ShapedObject.Fits r o) :
    (layOut decls o r).1.entries = SymbolTable.initialised decls o.entries := by
  induction decls generalizing o r with
  | nil => rfl
  | cons d rest ih =>
    obtain ⟨t₁, -, fits₁, entries⟩ := fits.set t d.symbol d.initial
    have tail := ih t₁ fits₁
    rw [entries] at tail
    exact tail

theorem declares_fieldDecls (h : w.Lawful) (cls : Ref .cls) : w.symbols.Declares (w.heap.fieldDecls cls) := by
  intro d hd
  obtain ⟨c, -, hd⟩ := List.mem_flatMap.1 hd
  exact h.declares c d hd

/-- A new instance has the fields that its class declares. -/
theorem newObject (h : w.Lawful) (cls : Ref .cls) : (w.newObject cls).2.Lawful := by
  have regular := (Change.newObject w cls).regular h.regular
  rw [newObject_eq] at regular ⊢
  refine ⟨regular, h.paired, ?_, h.declares⟩
  refine Pool.forall_alloc (P := fun o : Instance => w.symbols.Covers o.fields.entries) h.covers ?_
  rw [entries_layOut h.regular.shapes (ShapedObject.fits_empty h.regular.shapes)]
  exact SymbolTable.Covers.initialised (fun _ he => nomatch he) (h.declares_fieldDecls cls)

/-- A new instance has the declared fields in its row, under their names. -/
theorem row_newObject (h : w.Lawful) (cls : Ref .cls) (r : Ref .object) :
    (w.newObject cls).2.row r =
      if r.index = w.heap.objects.size then
        ((w.heap.fieldDecls cls).map FieldDecl.shown).foldl (fun es d => Assoc.put (some d.1) d.2.1 es) []
      else w.row r := by
  rw [newObject_eq, row_eq, row_eq]
  simp only [Heap.allocObject, Pool.get_alloc_eq]
  split
  · rw [entries_layOut h.regular.shapes (ShapedObject.fits_empty h.regular.shapes),
      h.paired.named_initialised (h.declares_fieldDecls cls)]
    rfl
  · rfl

theorem bareObject (h : w.Lawful) (cls : Ref .cls) : (w.bareObject cls).2.Lawful :=
  ⟨(Change.bareObject w cls).regular h.regular, h.paired,
    Pool.forall_alloc (P := fun o : Instance => w.symbols.Covers o.fields.entries) h.covers
      (fun _ he => absurd he List.not_mem_nil),
    h.declares⟩

/-- An instance begins with an empty row. -/
theorem row_bareObject (w : World) (cls : Ref .cls) (r : Ref .object) :
    (w.bareObject cls).2.row r = if r.index = w.heap.objects.size then [] else w.row r := by
  rw [row_eq, row_eq]
  simp only [World.bareObject, Heap.allocObject, Pool.get_alloc_eq]
  split <;> rfl

end Lawful

/-! ## Worlds that differ in their numbers -/

/-- Two lawful worlds that differ in their numbers at most. -/
structure Akin (w w' : World) : Prop where
  pools : w'.heap.pools = w.heap.pools
  closures : w.heap.closures.Pairs (Closure.Resembles Constant.Renumbered) w'.heap.closures
  classes : w.heap.classes.Pairs Class.Resembles w'.heap.classes
  objects : w.heap.objects.Pairs (fun o o' => o'.cls = o.cls) w'.heap.objects
  rows : ∀ r, w'.row r = w.row r
  own : w.Lawful
  other : w'.Lawful

/-- The same symbols, shapes, classes and instances. -/
structure KeepsNumbers (w v : World) : Prop where
  symbols : v.symbols = w.symbols
  shapes : v.shapes = w.shapes
  classes : v.heap.classes = w.heap.classes
  objects : v.heap.objects = w.heap.objects

theorem KeepsNumbers.lawful {w v : World} (h : KeepsNumbers w v) (lawful : w.Lawful) : v.Lawful :=
  lawful.congr h.symbols h.shapes h.classes h.objects

/-- What makes no symbol and writes no instance keeps all rows. -/
theorem KeepsNumbers.row {w v : World} (h : KeepsNumbers w v) (r : Ref .object) : v.row r = w.row r := by
  rw [row_eq, row_eq, h.symbols, h.objects]

namespace Akin

variable {w w' v v' : World} {n : Text} {s s' : Symbol}

/-- Worlds that are akin look alike. -/
theorem resembles (h : w.Akin w') : w.Resembles Constant.Renumbered w' where
  pools := h.pools
  closures := h.closures
  classes := h.classes
  objects := h.objects
  rows := h.rows
  fields r n := by rw [h.own.namedField_eq, h.other.namedField_eq, h.rows]

/-- Changes that have nothing to do with the numbers. -/
theorem keep (h : w.Akin w') (kept : KeepsNumbers w v) (kept' : KeepsNumbers w' v')
    (pools : v'.heap.pools = v.heap.pools)
    (closures : v.heap.closures.Pairs (Closure.Resembles Constant.Renumbered) v'.heap.closures) : v.Akin v' where
  pools := pools
  closures := closures
  classes := by
    rw [kept.classes, kept'.classes]
    exact h.classes
  objects := by
    rw [kept.objects, kept'.objects]
    exact h.objects
  rows r := by rw [kept.row, kept'.row, h.rows]
  own := kept.lawful h.own
  other := kept'.lawful h.other

theorem intern (h : w.Akin w') (name : Text) : (w.intern name).2.Akin (w'.intern name).2 :=
  ⟨h.pools, h.closures, h.classes, h.objects,
    fun r => by rw [h.own.row_intern, h.other.row_intern, h.rows], h.own.intern name, h.other.intern name⟩

theorem sealShape (h : w.Akin w') (id id' : ShapeId) :
    Akin { w with shapes := w.shapes.sealShape id } { w' with shapes := w'.shapes.sealShape id' } :=
  ⟨h.pools, h.closures, h.classes, h.objects, h.rows, h.own.sealShape id, h.other.sealShape id'⟩

/-! ### Instances -/

theorem setField (h : w.Akin w') (known : w.symbols.lookup n = some s) (known' : w'.symbols.lookup n = some s')
    {r : Ref .object} (writable : w.heap.isConstField (w.heap.objects.get r).cls s = false)
    (writable' : w'.heap.isConstField (w'.heap.objects.get r).cls s' = false) (v : Value) :
    (w.setField r s v).Akin (w'.setField r s' v) := by
  have rows : ∀ q, (w'.setField r s' v).row q = (w.setField r s v).row q := fun q => by
    rw [h.own.row_setField known, h.other.row_setField known', h.rows, h.rows, h.objects.size]
  have own := h.own.setField known writable v
  have other := h.other.setField known' writable' v
  rw [setField_eq, setField_eq] at *
  exact ⟨h.pools, h.closures, h.classes, h.objects.set r (h.objects.each r), rows, own, other⟩

/-- Classes declare the same fields under their names. -/
theorem shown_fieldDecls (h : w.Akin w') (cls : Ref .cls) :
    (w'.heap.fieldDecls cls).map FieldDecl.shown = (w.heap.fieldDecls cls).map FieldDecl.shown := by
  unfold Heap.fieldDecls
  rw [h.resembles.chain, List.map_flatMap, List.map_flatMap]
  exact congrArg (List.flatMap · _) (funext fun c => (h.classes.each c).fields)

theorem newObject (h : w.Akin w') (cls : Ref .cls) : (w.newObject cls).2.Akin (w'.newObject cls).2 := by
  have rows : ∀ r, (w'.newObject cls).2.row r = (w.newObject cls).2.row r := fun r => by
    rw [h.own.row_newObject, h.other.row_newObject, h.shown_fieldDecls, h.rows, h.objects.size]
  have own := h.own.newObject cls
  have other := h.other.newObject cls
  rw [newObject_eq, newObject_eq] at *
  exact ⟨h.pools, h.closures, h.classes,
    h.objects.alloc rfl, rows, own, other⟩

theorem bareObject (h : w.Akin w') (cls : Ref .cls) : (w.bareObject cls).2.Akin (w'.bareObject cls).2 :=
  ⟨h.pools, h.closures, h.classes, h.objects.alloc rfl,
    fun r => by rw [Lawful.row_bareObject, Lawful.row_bareObject, h.rows, h.objects.size],
    h.own.bareObject cls, h.other.bareObject cls⟩

/-! ### Classes -/

/-- Whether a field is constant does not depend on its symbol. -/
theorem isConstField (h : w.Akin w') (known : w.symbols.lookup n = some s)
    (known' : w'.symbols.lookup n = some s') (cls : Ref .cls) :
    w'.heap.isConstField cls s' = w.heap.isConstField cls s := by
  have own : ∀ c, ((w.heap.classes.get c).ownField? s).map FieldDecl.shown =
      ((w.heap.classes.get c).fields.map FieldDecl.shown).find? fun d => d.1 = n :=
    fun c => h.own.paired.find?_shown (h.own.declares c) known
  have other : ∀ c, ((w'.heap.classes.get c).ownField? s').map FieldDecl.shown =
      ((w'.heap.classes.get c).fields.map FieldDecl.shown).find? fun d => d.1 = n :=
    fun c => h.other.paired.find?_shown (h.other.declares c) known'
  have found : ((w'.heap.chain cls).findSome? fun c => (w'.heap.classes.get c).ownField? s').map FieldDecl.shown =
      ((w.heap.chain cls).findSome? fun c => (w.heap.classes.get c).ownField? s).map FieldDecl.shown := by
    rw [List.map_findSome?, List.map_findSome?, h.resembles.chain]
    refine congrArg (List.findSome? · _) (funext fun c => ?_)
    rw [Function.comp_apply, Function.comp_apply, own, other, (h.classes.each c).fields]
  unfold Heap.isConstField
  generalize ((w'.heap.chain cls).findSome? fun c => (w'.heap.classes.get c).ownField? s') = d' at found ⊢
  generalize ((w.heap.chain cls).findSome? fun c => (w.heap.classes.get c).ownField? s) = d at found ⊢
  cases d with
  | none =>
    cases d' with
    | none => rfl
    | some d' => cases found
  | some d =>
    cases d' with
    | none => cases found
    | some d' => exact congrArg (fun x => x.2.2) (Option.some.inj found)

/-- Two classes under construction in two worlds, with symbols of their own for the same fields. -/
structure Drafts (w w' : World) (d d' : Class) : Prop where
  resemble : d.Resembles d'
  declares : w.symbols.Declares d.fields
  declares' : w'.symbols.Declares d'.fields
  made : (∀ r, (w.heap.classes.get r).WellMade) → d.WellMade
  made' : (∀ r, (w'.heap.classes.get r).WellMade) → d'.WellMade

/-- A class can be taken up again as a draft, in both worlds. -/
theorem drafts_get (h : w.Akin w') (r : Ref .cls) : Drafts w w' (w.heap.classes.get r) (w'.heap.classes.get r) :=
  ⟨h.classes.each r, h.own.declares r, h.other.declares r, fun made => made r, fun made => made r⟩

/-- A change of anything but the method table and the fields. -/
theorem Drafts.map {d d' : Class} (h : Drafts w w' d d') {g : Class → Class}
    (blind : ∀ c tableId fields, g { c with tableId, fields } = { g c with tableId, fields })
    (fields : ∀ c, (g c).fields = c.fields) (made : ∀ c, c.WellMade → (g c).WellMade) :
    Drafts w w' (g d) (g d') := by
  refine ⟨⟨?_, ?_⟩, ?_, ?_, fun all => made _ (h.made all), fun all => made _ (h.made' all)⟩
  · rw [h.resemble.same, blind]
  · rw [fields, fields]
    exact h.resemble.fields
  · rw [fields]
    exact h.declares
  · rw [fields]
    exact h.declares'

/-- Symbols stay the symbols of their names, so the classes may wait. -/
theorem Drafts.evolve {d d' : Class} (h : Drafts w w' d d') (evolves : Evolves w v) (evolves' : Evolves w' v') :
    Drafts v v' d d' :=
  ⟨h.resemble, fun x hx => evolves.lookup (h.declares x hx), fun x hx => evolves'.lookup (h.declares' x hx),
    fun all => h.made (evolves.wellMade all), fun all => h.made' (evolves'.wellMade all)⟩

theorem publish (h : w.Akin w') {d d' : Class} (drafts : Drafts w w' d d') :
    (w'.publish d').1 = (w.publish d).1 ∧ (w.publish d).2.Akin (w'.publish d').2 := by
  refine ⟨congrArg Ref.mk h.classes.size, h.pools, h.closures, ?_, h.objects, h.rows, h.own.publish drafts.declares,
    h.other.publish drafts.declares'⟩
  refine h.classes.alloc ⟨?_, drafts.resemble.fields⟩
  rw [drafts.resemble.same]

theorem newClass (h : w.Akin w') (name : Text) : (w.newClass name).2.Akin (w'.newClass name).2 := by
  have statics : w'.heap.statics = w.heap.statics := h.resembles.statics
  have ref : (w'.heap.allocStatics).1 = w.heap.allocStatics.1 := by
    unfold Heap.allocStatics
    rw [statics]
  have pools : (w'.heap.allocStatics).2.pools = w.heap.allocStatics.2.pools := by
    have same := congrArg (fun p => { p with statics := (p.statics.alloc Assoc.empty).2 : Pools }) h.pools
    exact same
  have started : Akin { w with heap := w.heap.allocStatics.2 } { w' with heap := w'.heap.allocStatics.2 } :=
    h.keep ⟨rfl, rfl, rfl, rfl⟩ ⟨rfl, rfl, rfl, rfl⟩ pools h.closures
  unfold World.newClass World.draftClass
  simp only [ref]
  refine (started.publish ⟨Class.resembles_refl _, fun _ hd => absurd hd List.not_mem_nil,
    fun _ hd => absurd hd List.not_mem_nil, ?_, ?_⟩).2
  all_goals exact fun _ => Class.wellMade_bare _ _

end Akin

/-- The fields of a class as they show, with one of them declared or declared anew. -/
def redeclared (n : Text) (initial : Value) (isConst : Bool) (shown : List (Text × Value × Bool)) :
    List (Text × Value × Bool) :=
  if shown.any fun d => d.1 = n then shown.map fun d => if d.1 = n then (d.1, initial, isConst) else d
  else shown ++ [(n, initial, isConst)]

section

variable {w : World} {draft : Class} (h : w.Lawful) (declares : w.symbols.Declares draft.fields) (n : Text)
  (initial : Value) (isConst : Bool)
include h declares

/-- The fields with the symbol of a name are those with the name. -/
theorem Lawful.interned_eq_iff {d : FieldDecl} (hd : d ∈ draft.fields) : d.symbol = (w.intern n).1 ↔ d.name = n := by
  have known : (w.intern n).2.symbols.lookup n = some (w.intern n).1 := SymbolTable.lookup_intern_self w.symbols n
  exact (h.intern n).paired.symbol_eq_iff (fun d hd => SymbolTable.lookup_intern n (declares d hd)) known hd

theorem Lawful.shown_draftField :
    (w.draftField draft n initial isConst).1.fields.map FieldDecl.shown =
      redeclared n initial isConst (draft.fields.map FieldDecl.shown) := by
  have same := fun d (hd : d ∈ draft.fields) => h.interned_eq_iff declares n hd
  have present : (draft.fields.any fun d => d.symbol = (w.intern n).1) =
      (draft.fields.map FieldDecl.shown).any fun d => d.1 = n := by
    rw [Bool.eq_iff_iff, List.any_eq_true, List.any_eq_true]
    constructor
    · rintro ⟨d, hd, eq⟩
      exact ⟨d.shown, List.mem_map_of_mem hd, decide_eq_true ((same d hd).1 (of_decide_eq_true eq))⟩
    · rintro ⟨x, hx, eq⟩
      obtain ⟨d, hd, rfl⟩ := List.mem_map.1 hx
      exact ⟨d, hd, decide_eq_true ((same d hd).2 (of_decide_eq_true eq))⟩
  unfold World.draftField redeclared
  simp only [present]
  split
  · rw [List.map_map, List.map_map]
    refine List.map_congr_left fun d hd => ?_
    by_cases named : d.name = n
    · simp [FieldDecl.shown, (same d hd).2 named, named]
    · have other : ¬ d.symbol = (w.intern n).1 := fun eq => named ((same d hd).1 eq)
      simp [FieldDecl.shown, other, named]
  · rw [List.map_append]
    rfl

omit h in
theorem declares_draftField :
    (w.draftField draft n initial isConst).2.symbols.Declares (w.draftField draft n initial isConst).1.fields := by
  have known : (w.intern n).2.symbols.lookup n = some (w.intern n).1 := SymbolTable.lookup_intern_self w.symbols n
  have old : (w.intern n).2.symbols.Declares draft.fields := fun d hd => SymbolTable.lookup_intern n (declares d hd)
  intro d hd
  unfold World.draftField at hd
  simp only at hd
  split at hd
  · obtain ⟨e, he, rfl⟩ := List.mem_map.1 hd
    have declared := old e he
    by_cases same : e.symbol = (w.intern n).1
    · rw [if_pos same]
      exact declared
    · rw [if_neg same]
      exact declared
  · rcases List.mem_append.1 hd with hd | hd
    · exact old d hd
    · cases List.mem_singleton.1 hd
      exact known

end

/-- A field is declared in the same way whatever symbol it gets. -/
theorem Akin.draftField {w w' : World} (h : w.Akin w') {d d' : Class} (drafts : Drafts w w' d d') (n : Text)
    (initial : Value) (isConst : Bool) :
    Drafts (w.draftField d n initial isConst).2 (w'.draftField d' n initial isConst).2
        (w.draftField d n initial isConst).1 (w'.draftField d' n initial isConst).1 ∧
      (w.draftField d n initial isConst).2.Akin (w'.draftField d' n initial isConst).2 := by
  refine ⟨⟨⟨?_, ?_⟩, declares_draftField drafts.declares n initial isConst,
    declares_draftField drafts.declares' n initial isConst,
    fun once => wellMade_draftField (drafts.made once) _ _ _ _,
    fun once => wellMade_draftField (drafts.made' once) _ _ _ _⟩, h.intern n⟩
  · unfold World.draftField
    rw [drafts.resemble.same]
  · rw [h.own.shown_draftField drafts.declares, h.other.shown_draftField drafts.declares', drafts.resemble.fields]

end World

end ScriptVm
