import ScriptVm.Proofs.ArgumentOrder
import ScriptVm.Proofs.GroundedOperations

/-!
# Instructions that keep machines grounded

Properties, captured variables, calls and then instructions. `Exec.grounds_execute` is the main result:
every instruction keeps a grounded machine grounded. Classes are made from what the stack holds, so they
refer to classes that there are already.
-/

set_option autoImplicit false

namespace ScriptVm

open Referring

namespace Exec

open Machine World

variable {α : Type} {n : Nat}

/-! ## Properties -/

theorem grounds_site : Grounds n site :=
  grounds_frame.andThen fun _ => .read fun _ _ _ _ => grounds_pure trivial

theorem grounds_intern (name : Text) : Grounds n (intern name) := grounds_withWorld (World.grounds_intern name)

theorem grounds_bindMethod {v method : Value} (hv : Below n v) (hm : Below n method) :
    Grounds n (bindMethod v method) := grounds_withWorld (grounds_bind hv hm)

theorem grounds_newMethod {v : Value} (h : Below n v) (name : Text) :
    Grounds n (newMethod v name) := grounds_withHeap (grounds_allocMethod (m := ⟨v, name⟩) h)

theorem grounds_count (f : CacheStats → CacheStats) : Grounds n (count f) :=
  grounds_modify (fun _ => rfl) fun _ _ _ hm => { hm with }

theorem grounds_rememberProperty (site : Site) (k : CacheKey) (offset : Nat) :
    Grounds n (rememberProperty site k offset) := by
  refine grounds_config.andThen fun c => ?_
  split
  · exact (grounds_withWorld (World.grounds_recordProperty site k offset)).andThen fun _ => grounds_pure trivial
  · exact grounds_pure trivial

/-- A method that a class has may be remembered. -/
theorem grounds_rememberMethod (site : Site) (k : CacheKey) {found : FoundMethod} (h : Below n found) :
    Grounds n (rememberMethod site k found) := by
  refine grounds_config.andThen fun c => ?_
  split
  · exact (grounds_withWorld (World.grounds_recordMethod site k h)).andThen fun _ => grounds_pure trivial
  · exact grounds_pure trivial

theorem grounds_propertyCache (site : Site) : Grounds n (withCaches fun c => c.propertyCache site) :=
  grounds_withWorld (grounds_aside (fun _ => rfl) (fun _ => rfl) fun _ _ _ => trivial)

theorem grounds_methodCache (site : Site) : Grounds n (withCaches fun c => c.methodCache site) :=
  grounds_withWorld (grounds_of_classes (fun _ => rfl) fun _ _ _ hw =>
    ⟨⟨hw.heap, (below_openedMethods hw.caches site).2⟩, (below_openedMethods hw.caches site).1⟩)

/-- A cached offset leads to a field of the instance. -/
theorem grounds_cachedField (site : Site) {o : ShapedObject} (h : Below n o) (s : Symbol) :
    Grounds n (cachedField site o s) := by
  refine grounds_config.andThen fun c => ?_
  split
  · refine (grounds_propertyCache site).andThen fun cache => ?_
    split
    next v found =>
      obtain ⟨offset, -, field⟩ := Option.bind_eq_some_iff.1 found
      exact (grounds_count _).andThen fun _ => grounds_pure (below_some (below_fieldAt h field))
    next => exact (grounds_count _).andThen fun _ => grounds_pure (a := (none : Option Value)) below_none
  · exact grounds_pure below_none

/-- A cache gives what was remembered in it. -/
theorem grounds_cachedMethod (site : Site) (k : CacheKey) : Grounds n (cachedMethod site k) := by
  refine grounds_config.andThen fun c => ?_
  split
  · refine (grounds_methodCache site).bind fun _ cache _ hc => ?_
    split
    next found held =>
      have method : Below _ found.method := hc k found held
      exact (grounds_count _).bind fun _ _ le _ => grounds_pure (below_some (mono le method))
    next => exact (grounds_count _).andThen fun _ => grounds_pure (a := (none : Option Value)) below_none
  · exact grounds_pure below_none

theorem grounds_placedField (site : Site) {o : ShapedObject} (h : Below n o) (s : Symbol) :
    Grounds n (placedField site o s) := by
  refine .read fun k m le _ => ?_
  have ho : Below k o := mono le h
  simp only
  split
  next offset v found =>
    obtain ⟨offset', -, placed⟩ := Option.bind_eq_some_iff.1 found
    obtain ⟨v', field, same⟩ := Option.map_eq_some_iff.1 placed
    cases same
    exact (grounds_rememberProperty _ _ _).andThen fun _ => grounds_pure (below_some (below_fieldAt ho field))
  next => exact grounds_pure fun v found => below_search ho found

/-- Functions refer to no class by their references. -/
theorem below_callable (f : Callable) : Below n f.toValue := by cases f <;> trivial

theorem grounds_classMethod (site : Site) (cls : Ref .cls) (s : Symbol) (name : Text) :
    Grounds n (classMethod site cls s name) := by
  refine .readHeap fun k h _ _ => ?_
  split
  next method owner _ =>
    refine (grounds_rememberMethod _ _ (below_callable method)).andThen fun _ => ?_
    exact grounds_pure (below_some (below_callable method))
  next => exact grounds_pure below_none

/-- A property of an instance is a field, or a method bound to the instance. -/
theorem grounds_getObjectProperty (r : Ref .object) (name : Text) (site : Site) :
    Grounds n (getObjectProperty r name site) := by
  have bound : ∀ {k : Nat} {method : Value}, Below k method → Grounds k (bindMethod (.object r) method) :=
    fun h => grounds_bindMethod (v := .object r) trivial h
  refine (grounds_intern name).andThen fun s => .readHeap fun k h _ hh => ?_
  have fields : Below k (h.objects.get r).fields := hh.objects r
  refine (grounds_cachedField site fields s).bind fun k₁ cached le₁ hc => ?_
  cases cached with
  | some v => exact grounds_pure (hc v rfl)
  | none =>
    refine (grounds_placedField site (mono le₁ fields) s).bind fun k₂ placed _ hp => ?_
    cases placed with
    | some v => exact grounds_pure (hp v rfl)
    | none =>
      refine .readHeap fun k₃ h₃ _ _ => (grounds_cachedMethod _ _).bind fun k₄ method _ hm => ?_
      cases method with
      | some v => exact bound (hm v rfl)
      | none =>
        refine (grounds_classMethod _ _ _ _).bind fun k₅ method _ hm => ?_
        cases method with
        | some v => exact bound (hm v rfl)
        | none => exact grounds_fail _

/-- A property of a class is a static field, a static method or a nested class. -/
theorem grounds_getClassProperty {r : Ref .cls} (hr : Below n r) (name : Text) :
    Grounds n (getClassProperty r name) := by
  refine .readHeap fun k h le hh => ?_
  split
  next v found => exact grounds_pure (below_findStaticField hh found)
  next =>
    split
    next method _ => exact grounds_bindMethod (v := .cls r) (mono le hr) (below_callable method)
    next =>
      split
      next nested found => exact grounds_pure (a := Value.cls nested) (below_findNested hh found)
      next => exact grounds_fail _

/-- A method of a superclass is bound to the receiver in the frame. -/
theorem grounds_getSuperMethod (r : Ref .cls) (name : Text) : Grounds n (getSuperMethod r name) := by
  refine .readHeap fun k h _ _ => ?_
  split
  next method _ _ =>
    refine .read fun k₁ m _ hm => grounds_frame.andThen fun f => ?_
    exact grounds_bindMethod (below_slot hm _) (below_callable method)
  next => exact grounds_fail _

theorem grounds_getProperty {object : Value} (h : Below n object) (name : Text) (site : Site) :
    Grounds n (getProperty object name site) := by
  unfold getProperty
  cases object with
  | object r => exact grounds_getObjectProperty r name site
  | cls r => exact grounds_getClassProperty h name
  | hash r =>
    refine .readHeap fun k hp le hh => ?_
    split
    next v found => exact grounds_pure (below_entry (hh.tables r) found)
    next => exact grounds_newMethod (v := .hash r) trivial name
  | array r => exact grounds_newMethod (v := .array r) trivial name
  | str t =>
    simp only
    split
    · exact grounds_pure trivial
    · exact grounds_newMethod (v := .str t) trivial name
  | superOf r => exact grounds_getSuperMethod r name
  | _ => exact grounds_failType (fun t => .noSuchProperty t name) _

theorem grounds_setCachedField (site : Site) (r : Ref .object) (s : Symbol) {v : Value} (h : Below n v) :
    Grounds n (setCachedField site r s v) := by
  refine grounds_config.andThen fun c => ?_
  split
  · refine .readHeap fun k₁ _ le₁ _ => (grounds_propertyCache site).bind fun k₂ cache le₂ _ => ?_
    intro m grounded enough
    refine .read ?_
    have hv : Below m.classCount v := mono (Nat.le_trans (Nat.le_trans le₁ le₂) enough) h
    simp only
    split
    next w found =>
      obtain ⟨offset, -, written⟩ := Option.bind_eq_some_iff.1 found
      obtain ⟨fields, set, rfl⟩ := (setFieldAt?_eq_some_iff ..).1 written
      have row : Below m.classCount fields := below_setFieldAt? (grounded.world.heap.objects r) hv set
      refine Lands.bind (lands_modifyGet (m := m) rfl ?_ trivial) fun _ _ _ _ => ?_
      · have objects : Below m.classCount (m.heap.objects.set r { m.heap.objects.get r with fields }) :=
          below_replace grounded.world.heap.objects r row
        exact { grounded with world := { grounded.world with heap := { grounded.world.heap with objects } } }
      · exact (grounds_count _).andThen fun _ => grounds_pure (a := true) trivial
    next => exact ((grounds_count _).andThen fun _ => grounds_pure (a := false) trivial) m grounded enough
  · exact grounds_pure trivial

/-- An instance may be assigned what refers to existing classes. -/
theorem grounds_setObjectProperty (r : Ref .object) (name : Text) {v : Value} (h : Below n v) (site : Site) :
    Grounds n (setObjectProperty r name v site) := by
  refine (grounds_intern name).andThen fun s => .readHeap fun k _ le _ => ?_
  have hv : Below k v := mono le h
  split
  · exact grounds_fail _
  · refine (grounds_setCachedField site r s hv).andThen fun done => ?_
    split
    · exact grounds_pure trivial
    · refine (grounds_withWorld (World.grounds_setField r s hv)).andThen fun _ => ?_
      refine .readHeap fun _ _ _ _ => .read fun _ _ _ _ => ?_
      split
      · exact grounds_rememberProperty _ _ _
      · exact grounds_pure trivial

/-- So may a class. -/
theorem grounds_setProperty (object : Value) (name : Text) {v : Value} (h : Below n v) (site : Site) :
    Grounds n (setProperty object name v site) := by
  unfold setProperty
  cases object with
  | object r => exact grounds_setObjectProperty r name h site
  | cls r =>
    intro m grounded enough
    refine Lands.read (f := fun m => _) ?_
    split
    next heap set =>
      have written := below_setStatic? grounded.world.heap (mono enough h) set
      obtain ⟨c, rfl⟩ := setStatic?_eq_some set
      exact lands_modifyGet (m := m) (g := fun m => ((), { m with world := { m.world with heap := _ } })) rfl
        { grounded with world := { grounded.world with heap := written } } trivial
    next => exact grounds_fail _ m grounded enough
  | hash r => exact grounds_setTable r fun _ _ le ht => below_setEntry ht _ (mono le h)
  | _ => exact grounds_failType _ _

/-! ## Class construction by instructions -/

theorem grounds_classOnTop : Grounds n classOnTop := by
  refine .read fun k m _ hm => ?_
  split
  next r found =>
    obtain ⟨v, top, cls⟩ := Option.bind_eq_some_iff.1 found
    have hv : Below k v := hm.stack v (Array.mem_toList_iff.2 (Array.mem_of_back? top))
    cases v with
    | cls s =>
      cases cls
      exact grounds_pure hv
    | _ => cases cls
  next => exact grounds_fail _

theorem grounds_replaceTop {v : Value} (h : Below n v) : Grounds n (replaceTop v) :=
  .read fun _ _ le _ => grounds_setSlot _ (mono le h)

theorem grounds_republish {c : Class} (h : Below n c) : Grounds n (republish c) := by
  refine (grounds_withWorld (grounds_publish h)).bind fun k r _ hr => ?_
  exact (grounds_replaceTop (v := .cls r) hr).bind fun _ _ le _ => grounds_pure (mono le hr)

/-- A rebuilt class refers to the class that it inherits from, which is there. -/
theorem grounds_inherit : Grounds n inherit := by
  refine grounds_pop.bind fun k v _ hv => ?_
  split
  next superclass =>
    refine grounds_classOnTop.bind fun k₁ r le₁ _ => .readHeap fun k₂ h le₂ hh => ?_
    have draft := hh.classes r
    have super : Below k₂ superclass := mono (Nat.le_trans le₁ le₂) (show Below k superclass from hv)
    refine (grounds_republish (c := { h.classes.get r with superclass := some superclass }) ?_).andThen fun _ =>
      grounds_pure trivial
    exact ⟨below_some super, draft.fields, draft.nested⟩
  next => exact grounds_failType _ _

/-- A method finds its home in a class that is there. -/
theorem grounds_defineMethod (name : Text) (isStatic : Bool) : Grounds n (defineMethod name isStatic) := by
  refine grounds_pop.andThen fun v => ?_
  split
  next f =>
    refine grounds_classOnTop.andThen fun r => .readHeap fun k h _ hh => ?_
    have draft := hh.classes r
    have adopted : ∀ k', k ≤ k' → Below k' (h.classes.get r).superclass := fun k' le => mono le draft.superclass
    simp only
    refine (grounds_republish ?_).andThen fun _ => grounds_modifyHeap (fun _ => rfl) fun _ k' le hh' => ?_
    · split <;> exact ⟨draft.superclass, draft.fields, draft.nested⟩
    · exact { hh' with closures := below_replace hh'.closures f (adopted k' le) }
  next => exact grounds_failType _ _

theorem grounds_defineField (name : Text) (isStatic isConst : Bool) :
    Grounds n (defineField name isStatic isConst) := by
  refine grounds_pop.bind fun k initial _ hi => grounds_classOnTop.bind fun k₁ r le₁ _ => ?_
  split
  · exact grounds_modifyHeap (fun _ => rfl) fun _ _ le hh =>
      below_putStatic hh r name (f := ⟨initial, isConst⟩) (mono (Nat.le_trans le₁ le) hi)
  · refine .readHeap fun k₂ h le₂ hh => ?_
    refine (grounds_withWorld (grounds_draftField (hh.classes r) name (mono (Nat.le_trans le₁ le₂) hi) isConst)).bind
      fun _ draft _ hd => ?_
    exact (grounds_republish hd).andThen fun _ => grounds_pure trivial

theorem grounds_getSuper (name : Text) : Grounds n (getSuper name) := by
  refine grounds_frame.andThen fun f => .readHeap fun _ _ _ _ => ?_
  split
  · exact grounds_getSuperMethod _ name
  · exact grounds_fail _

/-! ## Captured variables -/

theorem grounds_readCell (r : Ref .cell) : Grounds n (readCell r) := by
  refine .read fun k m _ hm => ?_
  have cell : Below k (m.heap.cells.get r) := hm.world.heap.cells r
  split
  next slot _ => exact grounds_pure (below_slot hm slot)
  next v found =>
    rw [found] at cell
    exact grounds_pure (a := v) cell

theorem grounds_writeCell (r : Ref .cell) {v : Value} (h : Below n v) : Grounds n (writeCell r v) := by
  refine .readHeap fun k _ le _ => ?_
  split
  · exact grounds_setSlot _ (mono le h)
  · exact grounds_modifyHeap (fun _ => rfl) fun _ _ le' hh =>
      { hh with cells := below_replace (a := .closed v) hh.cells r (mono (Nat.le_trans le le') h) }

theorem grounds_captureSlot (slot : Nat) : Grounds n (captureSlot slot) := by
  refine .read fun k m _ _ => ?_
  split
  · exact grounds_pure trivial
  · refine (grounds_withHeap (grounds_allocCell (c := .onStack slot) trivial)).andThen fun r => ?_
    refine (grounds_modify (g := fun m => { m with openCells := ⟨slot, r⟩ :: m.openCells }) (fun _ => rfl)
      fun _ _ _ hm => { hm with }).andThen fun _ => ?_
    exact grounds_pure trivial

theorem grounds_ownCell (index : Nat) : Grounds n (ownCell index) :=
  grounds_frame.andThen fun _ => .readHeap fun _ _ _ _ => .readHeap fun _ _ _ _ => grounds_pure trivial

/-- Captured cells are those of slots or of the enclosing function. -/
theorem grounds_captureAll (base : Nat) (cs : List Capture) : Grounds n (captureAll base cs) := by
  induction cs with
  | nil => exact grounds_pure below_nil
  | cons c rest ih =>
    have others : ∀ r : Ref .cell, Grounds n (do return r :: (← captureAll base rest)) := fun r =>
      ih.bind fun _ _ _ h => grounds_pure (below_cons (a := r) trivial h)
    unfold captureAll
    simp only
    split
    · exact (grounds_captureSlot _).andThen others
    · exact (grounds_ownCell _).andThen others

end Exec

namespace Machine

variable {n : Nat} {m : Machine}

theorem classes_closeCells (m : Machine) (start : Nat) : (m.closeCells start).heap.classes = m.heap.classes := by
  unfold closeCells
  simp only
  split <;> rfl

/-- Cells take over the values of slots. -/
theorem below_closeCells (h : Below n m) (start : Nat) : Below n (m.closeCells start) := by
  have closed : ∀ (os : List OpenCell) (cells : Pool .cell Cell), Below n cells →
      Below n (os.foldl (fun cells o => cells.set o.cell (.closed (m.slot o.slot))) cells) := by
    intro os
    induction os with
    | nil => exact fun _ hc => hc
    | cons o rest ih =>
      exact fun cells hc => ih _ (below_replace (a := .closed (m.slot o.slot)) hc o.cell (below_slot h o.slot))
  unfold closeCells
  simp only
  split
  · exact h
  · exact { h with world := { h.world with heap := { h.world.heap with cells := closed _ _ h.world.heap.cells } } }

theorem classes_endFrames (depth : Nat) (fs : List Frame) (m : Machine) :
    (m.endFrames depth fs).heap.classes = m.heap.classes := by
  induction fs generalizing m with
  | nil => rfl
  | cons f rest ih =>
    unfold endFrames
    split
    · rw [ih, classes_closeCells]
    · rfl

/-- Ending calls adds no reference. -/
theorem below_endFrames (depth : Nat) (fs : List Frame) (h : Below n m) : Below n (m.endFrames depth fs) := by
  induction fs generalizing m with
  | nil => exact { h with }
  | cons f rest ih =>
    unfold endFrames
    split
    · exact ih (below_closeCells h f.base)
    · exact { h with }

theorem classes_unwindTo (m : Machine) (d : Depths) : (m.unwindTo d).heap.classes = m.heap.classes :=
  (classes_closeCells _ _).trans (classes_endFrames _ _ _)

/-- Nor does going back to the depths of an entry. -/
theorem below_unwindTo (h : Below n m) (d : Depths) : Below n (m.unwindTo d) := by
  have unwound := below_closeCells (below_endFrames d.frames m.frames h) d.stack
  exact { unwound with
    stack := below_shrink unwound.stack _, iterations := below_truncated unwound.iterations _ }

theorem classes_enterCatch (m : Machine) (r : Handler) (v : Value) :
    (m.enterCatch r v).heap.classes = m.heap.classes :=
  (classes_closeCells _ _).trans (classes_endFrames _ _ _)

/-- A region finds the thrown value on the stack. -/
theorem below_enterCatch (h : Below n m) (r : Handler) {v : Value} (hv : Below n v) : Below n (m.enterCatch r v) := by
  have unwound := below_closeCells (below_endFrames r.frameDepth m.frames h) r.stackDepth
  exact { unwound with
    stack := below_push (below_resized unwound.stack _) hv, iterations := below_truncated unwound.iterations _ }

end Machine

namespace Exec

open Machine World

variable {α : Type} {n : Nat}

theorem grounds_closeCells (start : Nat) : Grounds n (closeCells start) :=
  grounds_modify (fun m => classes_closeCells m start) fun _ _ _ hm => below_closeCells hm start

theorem grounds_throwValue {v : Value} (h : Below n v) : Grounds n (throwValue v) := by
  refine .read fun k m le _ => ?_
  split
  next r rest _ =>
    refine Grounds.andThen (α := Unit) (β := Unit) (grounds_modify
      (g := fun m => { m with handlers := rest }.enterCatch r v)
      (fun m => classes_enterCatch { m with handlers := rest } r v) fun m' _ le' hm' => ?_) fun _ => ?_
    · exact below_enterCatch (m := { m' with handlers := rest }) { hm' with } r (mono (Nat.le_trans le le') h)
    · exact .read fun _ _ _ _ => grounds_note _ _
  next => exact (grounds_note _ _).andThen fun _ => grounds_fail _

/-! ## Calls -/

theorem grounds_pushFrame (f : Frame) : Grounds n (pushFrame f) := by
  refine .read fun k m _ _ => ?_
  split
  · exact grounds_fail _
  · exact (grounds_note _ _).andThen fun _ => grounds_modify (fun _ => rfl) fun _ _ _ hm => { hm with }

/-- Missing optional arguments are null. -/
theorem grounds_callClosure (r : Ref .closure) (argc : Nat) (isConstructor : Bool) :
    Grounds n (callClosure r argc isConstructor) := by
  refine .readHeap fun k h _ _ => ?_
  simp only
  split
  · exact grounds_fail _
  · refine Grounds.andThen (β := Unit) (grounds_restack (g := fun st => st ++ Array.replicate _ .null)
      fun _ _ _ hs => below_filled (a := Value.null) hs _ trivial) fun _ => .read fun _ _ _ _ => ?_
    split
    · exact grounds_fail _
    · exact grounds_pushFrame _

/-- A native function gets its arguments from the stack. -/
theorem grounds_callNative (r : Ref .native) (argc : Nat) (withReceiver : Bool) :
    Grounds n (callNative r argc withReceiver) := by
  refine .readHeap fun k h _ _ => ?_
  simp only
  split
  · exact grounds_fail _
  · refine (grounds_popMany argc).bind fun k₁ args _ ha => grounds_pop.bind fun k₂ receiver le₂ hr => ?_
    have given : Below k₂ (if withReceiver = true then receiver :: args else args) := by
      split
      · exact below_cons hr (mono le₂ ha)
      · exact mono le₂ ha
    refine (grounds_runNative _ given).bind fun k₃ answer _ hv => ?_
    cases answer with
    | value v => exact (grounds_push hv).andThen fun _ => grounds_pure (a := (none : Option Reentry)) below_none
    | reenter r => exact grounds_pure (below_some hv)

theorem grounds_instantiate (r : Ref .cls) (argc : Nat) : Grounds n (instantiate r argc) := by
  refine (grounds_withWorld (grounds_newObject r)).andThen fun object => .read fun _ _ _ _ => ?_
  refine (grounds_setSlot _ (v := .object object) trivial).andThen fun _ => .readHeap fun _ _ _ _ => ?_
  split
  · exact grounds_callClosure _ _ _
  · split
    · exact grounds_fail _
    · exact grounds_pure trivial

/-! The arguments of a call are put in order, and some are filled up with null. -/

/-- Named arguments are values of the window, with names. -/
theorem below_parses {vs : List Value} {g : NamedArgs.Given} (h : Below n vs) (parses : NamedArgs.Parses vs g) :
    Below n g.positional ∧ Below n g.named := by
  induction parses with
  | nil => exact ⟨below_nil, below_nil⟩
  | positional _ _ ih =>
    obtain ⟨here, rest⟩ := List.forall_mem_cons.1 h
    obtain ⟨positional, named⟩ := ih rest
    exact ⟨below_cons here positional, named⟩
  | @pair name v rest g _ ih =>
    obtain ⟨-, here, rest⟩ := List.forall_mem_cons.1 h |>.imp_right List.forall_mem_cons.1
    obtain ⟨positional, named⟩ := ih rest
    exact ⟨positional, below_cons ⟨below_text name, here⟩ named⟩

/-- Every place gets a named argument or keeps what it has. -/
theorem below_place {params : List Text} {named : List (Text × Value)} {places places' : List (Option Value)}
    (hn : Below n named) (h : Below n places) (placed : NamedArgs.place params named places = .ok places') :
    Below n places' := by
  fun_induction NamedArgs.place params named places with
  | case1 places =>
    cases placed
    exact h
  | case2 => cases placed
  | case3 name v rest places i found free ih =>
    exact ih (fun a ha => hn a (List.mem_cons_of_mem _ ha))
      (below_set h i (below_some (hn (name, v) List.mem_cons_self).2)) placed
  | case4 => cases placed

/-- Arranging arguments adds nulls at most. -/
theorem below_arrange {params : List Text} {window args : List Value} (h : Below n window)
    (arranged : NamedArgs.arrange params window = .ok args) : Below n args := by
  unfold NamedArgs.arrange at arranged
  split at arranged
  · cases arranged
  next g sorted =>
    obtain ⟨positional, named⟩ := below_parses h (NamedArgs.parses_of_sortOut sorted)
    split at arranged
    next places placed =>
      cases arranged
      have start : Below n (NamedArgs.startPlaces params g.positional) :=
        below_append (below_map fun v hv => below_some (positional v hv)) (below_replicate _ below_none)
      have filled := below_place named start placed
      refine below_map fun p hp => below_optionGetD (filled p ?_) trivial
      exact List.mem_reverse.1 ((List.dropWhile_sublist _).subset (List.mem_reverse.1 hp))
    next => cases arranged

theorem below_vacatedWindow {vs : List Value} (h : Below n vs) : Below n (NamedArgs.vacatedWindow vs) := by
  fun_induction NamedArgs.vacatedWindow vs with
  | case1 => exact below_nil
  | case2 name => exact below_cons (a := Value.namedArg name) trivial below_nil
  | case3 name v rest ih =>
    exact below_cons (a := Value.namedArg name) trivial
      (below_cons (below_vacated (h v (by simp))) (ih fun a ha => h a (by simp [ha])))
  | case4 v rest marked ih =>
    exact below_cons (below_vacated (h v (by simp))) (ih fun a ha => h a (by simp [ha]))

/-- The arranged arguments go back onto the stack. -/
theorem grounds_reorder (callee : Value) (argc : Nat) : Grounds n (reorder callee argc) := by
  refine (grounds_peekMany argc).bind fun k window _ hw => ?_
  split
  · refine .readHeap fun k₁ _ le₁ _ => ?_
    split
    · exact grounds_failType _ _
    · refine .read fun k₂ m le₂ _ => ?_
      have hw : Below k₂ window := mono (Nat.le_trans le₁ le₂) hw
      simp only
      split
      next args arranged =>
        refine (grounds_restack (g := fun st => st.shrink _ ++ args.toArray) fun _ _ le hs => ?_).andThen fun _ =>
          grounds_pure (a := args.length) trivial
        exact below_joined (below_shrink hs _) (mono le (below_arrange hw arranged))
      next c _ =>
        refine (grounds_restack (g := fun st => st.shrink _ ++ (NamedArgs.vacatedWindow window).toArray)
          fun _ _ le hs => ?_).andThen fun _ => grounds_fail (α := Nat) _
        exact below_joined (below_shrink hs _) (mono le (below_vacatedWindow hw))
  · exact grounds_pure trivial

/-- Whatever is called, with what is on the stack. -/
theorem grounds_call (argc : Nat) : Grounds n (call argc) := by
  have none' : ∀ {k : Nat} {x : Exec Unit}, Grounds k x → Grounds k (do x; return none : Exec (Option Reentry)) :=
    fun h => h.andThen fun _ => grounds_pure below_none
  refine (grounds_peek argc).andThen fun callee => (grounds_reorder callee argc).andThen fun argc => ?_
  split
  · exact none' (grounds_callClosure _ _ _)
  · exact grounds_callNative _ _ _
  · exact none' (grounds_instantiate _ _)
  next r =>
    refine .readHeap fun k h _ hh => .read fun k₁ _ le₁ _ => ?_
    have receiver : Below k₁ (h.bounds.get r).receiver := mono le₁ (hh.bounds r)
    refine (grounds_setSlot _ receiver).andThen fun _ => ?_
    split
    · exact none' (grounds_callClosure _ _ _)
    · exact grounds_callNative _ _ _
  next r =>
    refine .readHeap fun k h _ hh => (grounds_popMany argc).bind fun k₁ args _ ha => ?_
    refine grounds_pop.bind fun k₂ _ le₂ _ => ?_
    exact (grounds_callMethod _ _ (mono le₂ ha)).bind fun _ v _ hv => none' (grounds_push hv)
  · exact grounds_fail _

theorem grounds_new (argc : Nat) : Grounds n (new argc) := by
  refine (grounds_peek argc).andThen fun v => ?_
  split
  · exact (grounds_reorder _ _).andThen fun _ => grounds_instantiate _ _
  · exact grounds_failType _ _

/-! ## Instructions -/

theorem grounds_pushed {v : Value} (h : Below n v) : Grounds n (pushed v) :=
  (grounds_push h).andThen fun _ => grounds_pure trivial

theorem Grounds.pushing {x : Exec Value} (h : Grounds n x) : Grounds n (x >>= pushed) :=
  h.bind fun _ _ _ hv => grounds_pushed hv

theorem Grounds.andNext {x : Exec Unit} (h : Grounds n x) : Grounds n (andNext x) :=
  h.andThen fun _ => grounds_pure trivial

theorem grounds_binary {f : Value → Value → Exec Value}
    (h : ∀ k a b, n ≤ k → Below k a → Below k b → Grounds k (f a b)) : Grounds n (binary f) :=
  grounds_pop.bind fun _ _ le₁ hb => grounds_pop.bind fun k a le₂ ha =>
    (h k a _ (Nat.le_trans le₁ le₂) ha (mono le₂ hb)).bind fun _ _ _ hv => grounds_pushed hv

theorem grounds_compare {f : Value → Value → Exec Bool} (h : ∀ k a b, Grounds k (f a b)) : Grounds n (compare f) :=
  grounds_binary fun k a b _ _ _ => (h k a b).andThen fun _ => grounds_pure (a := Value.bool _) trivial

theorem grounds_constantValue (c : Constant) : Grounds n (constantValue c) := by
  cases c with
  | function p =>
    exact (grounds_withWorld (grounds_newClosure p)).andThen fun _ => grounds_pure trivial
  | _ => exact grounds_pure trivial

theorem grounds_getGlobal (name : Text) : Grounds n (getGlobal name) := by
  refine .read fun k m _ hm => ?_
  split
  next v found => exact grounds_pure (hm.globals name v found)
  next => exact grounds_fail _

theorem grounds_defineGlobal (name : Text) {v : Value} (h : Below n v) : Grounds n (defineGlobal name v) :=
  grounds_modify (fun _ => rfl) fun _ _ le hm => { hm with globals := below_insert hm.globals name (mono le h) }

theorem grounds_setGlobal (name : Text) {v : Value} (h : Below n v) : Grounds n (setGlobal name v) := by
  refine .read fun k m le _ => ?_
  split
  · exact grounds_defineGlobal name (mono le h)
  · exact grounds_fail _

theorem grounds_makeClosure (index : Nat) : Grounds n (makeClosure index) := by
  refine (grounds_constant index).andThen fun c => ?_
  split
  next p =>
    refine grounds_frame.andThen fun f => (grounds_captureAll _ _).andThen fun cells => ?_
    exact (grounds_withHeap (grounds_allocClosure (c := { proto := p, cells }) below_none)).andThen fun _ =>
      grounds_pure trivial
  next => exact grounds_fail _

/-- A result goes to the call that made the call, or to the entry. -/
theorem grounds_returnFrom : Grounds n returnFrom := by
  refine grounds_pop.bind fun k result _ hv => .read fun k₁ m le₁ hm => ?_
  split
  · exact grounds_pure (a := Progress.returned result) (mono le₁ hv)
  next f rest _ =>
    refine Grounds.andThen (α := Unit) (β := Progress) (grounds_modify (g := fun m => { m with
        handlers := m.handlers.dropWhile fun h => rest.length + 1 ≤ h.frameDepth, frames := rest }.closeCells f.base)
      (fun m => classes_closeCells _ _) fun m' _ _ hm' => ?_) fun _ => ?_
    · exact below_closeCells (m := { m' with handlers := _, frames := rest }) { hm' with } f.base
    refine .read fun k₂ m₂ le₂ hm₂ => ?_
    have final : Below k₂ (if f.isConstructor = true then m₂.slot f.base else result) := by
      split
      · exact below_slot hm₂ _
      · exact mono (Nat.le_trans le₁ le₂) hv
    refine Grounds.bind (α := Unit) (β := Progress) (grounds_modify (g := fun m => { m with
        stack := resized m.stack f.base, iterations := truncated m.iterations f.iterBase })
      (fun _ => rfl) fun _ _ _ hm' => ?_) fun k₃ _ le₃ _ => ?_
    · exact { hm' with stack := below_resized hm'.stack _, iterations := below_truncated hm'.iterations _ }
    · split
      · exact grounds_pure (a := Progress.returned _) (mono le₃ final)
      · exact grounds_pushed (mono le₃ final)

theorem grounds_printLine (count : Nat) : Grounds n (printLine count) := by
  have emitted : ∀ line, Grounds n (modify fun m => { m with output := m.output.push line } : Exec Unit) := fun _ =>
    grounds_modify (fun _ => rfl) fun _ _ _ hm => { hm with }
  refine .read fun _ m le _ => (grounds_popMany count).bind fun _ vs le' _ => ?_
  dsimp only
  split
  · refine (grounds_withWorld (grounds_aside (fun _ => rfl) (fun _ => rfl) fun _ _ _ => trivial)).andThen fun _ => ?_
    exact (emitted _).mono (Nat.le_trans le le')
  · exact (emitted _).mono (Nat.le_trans le le')

theorem grounds_jumpIf (condition : Bool) (distance : Nat) : Grounds n (jumpIf condition distance) := by
  refine Grounds.andNext ?_
  split
  · exact grounds_modifyFrame _
  · exact grounds_pure trivial

theorem grounds_importModule (index : Nat) : Grounds n (importModule index) := by
  refine .read fun _ _ _ _ => ?_
  split
  · exact (grounds_constantName index).andThen fun _ => grounds_note _ _
  · exact grounds_pure trivial

theorem grounds_callProgress (argc : Nat) : Grounds n (callProgress argc) := by
  refine (grounds_call argc).bind fun k request _ h => ?_
  cases request with
  | none => exact grounds_pure (a := Progress.next) trivial
  | some r => exact grounds_pure (a := Progress.reenter r) (h r rfl)

/-- An instruction keeps a grounded machine grounded. -/
theorem grounds_execute (i : Instruction) : Grounds n (execute i) := by
  obtain ⟨op, x, y⟩ := i
  unfold execute
  cases op with
  | constant => exact (grounds_constant _).andThen fun _ => (grounds_constantValue _).pushing
  | pushNull | pushTrue | pushFalse => exact grounds_pushed trivial
  | pop => exact grounds_pop.andThen fun _ => grounds_pure trivial
  | dup => exact (grounds_peek _).pushing
  | getLocal | getThis =>
    exact .read fun _ _ _ hm => grounds_frame.bind fun _ _ le _ => grounds_pushed (mono le (below_slot hm _))
  | setLocal =>
    exact Grounds.andNext (grounds_frame.andThen fun _ => (grounds_peek 0).bind fun _ _ _ h => grounds_setSlot _ h)
  | getGlobal => exact (grounds_constantName _).andThen fun _ => (grounds_getGlobal _).pushing
  | setGlobal =>
    exact Grounds.andNext
      ((grounds_constantName _).andThen fun _ => (grounds_peek 0).bind fun _ _ _ h => grounds_setGlobal _ h)
  | defineGlobal =>
    exact Grounds.andNext
      ((grounds_constantName _).andThen fun _ => grounds_pop.bind fun _ _ _ h => grounds_defineGlobal _ h)
  | getUpvalue => exact (grounds_ownCell _).andThen fun _ => (grounds_readCell _).pushing
  | setUpvalue =>
    exact Grounds.andNext
      ((grounds_ownCell _).andThen fun _ => (grounds_peek 0).bind fun _ _ _ h => grounds_writeCell _ h)
  | closeUpvalue =>
    exact .read fun _ _ _ _ =>
      (grounds_closeCells _).andThen fun _ => grounds_pop.andThen fun _ => grounds_pure trivial
  | add => exact grounds_binary fun _ _ _ _ _ _ => grounds_add _ _
  | subtract => exact grounds_binary fun _ _ _ _ _ _ => grounds_subtract _ _
  | multiply => exact grounds_binary fun _ _ _ _ _ _ => grounds_multiply _ _
  | divide => exact grounds_binary fun _ _ _ _ _ _ => grounds_divide _ _
  | modulo => exact grounds_binary fun _ _ _ _ _ _ => grounds_modulo _ _
  | negate => exact grounds_pop.andThen fun _ => (grounds_negate _).pushing
  | equal | notEqual => exact grounds_compare fun _ _ _ => .readHeap fun _ _ _ _ => grounds_pure trivial
  | less | greater => exact grounds_compare fun _ _ _ => grounds_less _ _
  | lessEqual | greaterEqual => exact grounds_compare fun _ _ _ => grounds_lessEqual _ _
  | not => exact grounds_pop.andThen fun _ => .read fun _ _ _ _ => grounds_pushed trivial
  | jump | loop => exact Grounds.andNext (grounds_modifyFrame _)
  | jumpIfFalse => exact grounds_pop.andThen fun _ => .read fun _ _ _ _ => grounds_jumpIf _ _
  | jumpIfFalseNoPop | jumpIfTrueNoPop =>
    exact .read fun _ _ _ _ => (grounds_peek 0).andThen fun _ => grounds_jumpIf _ _
  | nullishJump => exact (grounds_peek 0).andThen fun _ => grounds_jumpIf _ _
  | call => exact grounds_callProgress _
  | closure => exact (grounds_makeClosure _).pushing
  | ret => exact grounds_returnFrom
  | array => exact (grounds_popMany _).bind fun _ _ _ h => (grounds_newArray h).pushing
  | hash => exact (grounds_hashLiteral _).pushing
  | range => exact grounds_binary fun _ _ _ _ _ _ => grounds_range _ _
  | getIndex => exact grounds_binary fun _ _ _ _ _ _ => grounds_getIndex _ _
  | setIndex =>
    refine grounds_pop.bind fun k v _ hv => grounds_pop.andThen fun _ => grounds_pop.andThen fun _ => ?_
    exact (grounds_setIndex _ _ hv).bind fun _ _ le _ => grounds_pushed (mono le hv)
  | buildString => exact .read fun _ _ _ _ => (grounds_popMany _).andThen fun _ => grounds_pushed trivial
  | spread => exact grounds_pure trivial
  | getProperty =>
    refine (grounds_constantName _).andThen fun _ => grounds_pop.bind fun k object _ h => ?_
    exact grounds_site.andThen fun _ => (grounds_getProperty h _ _).pushing
  | setProperty =>
    refine (grounds_constantName _).andThen fun _ => grounds_pop.bind fun k v _ hv => ?_
    refine grounds_pop.andThen fun _ => grounds_site.andThen fun _ => ?_
    exact (grounds_setProperty _ _ hv _).bind fun _ _ le _ => grounds_pushed (mono le hv)
  | newClass =>
    refine (grounds_constantName _).andThen fun _ => ?_
    exact (grounds_withWorld (grounds_newClass _)).bind fun _ r _ hr => grounds_pushed (v := .cls r) hr
  | inherit => exact grounds_inherit.andNext
  | method | staticMethod =>
    exact Grounds.andNext ((grounds_constantName _).andThen fun _ => grounds_defineMethod _ _)
  | new => exact (grounds_new _).andNext
  | getSuper =>
    exact (grounds_constantName _).andThen fun _ => grounds_pop.andThen fun _ => (grounds_getSuper _).pushing
  | field | staticField | constField | staticConstField =>
    exact Grounds.andNext ((grounds_constantName _).andThen fun _ => grounds_defineField _ _ _)
  | tryBegin | tryEnd => exact Grounds.andNext (grounds_modify (fun _ => rfl) fun _ _ _ hm => { hm with })
  | throwTop => exact Grounds.andNext (grounds_pop.bind fun _ _ _ h => grounds_throwValue h)
  | getIter => exact Grounds.andNext (grounds_pop.andThen fun _ => grounds_openIteration _)
  | forIter =>
    refine grounds_nextItem.bind fun k item _ h => ?_
    cases item with
    | some v => exact grounds_pushed (h v rfl)
    | none => exact Grounds.andNext (grounds_modifyFrame _)
  | print => exact (grounds_printLine _).andThen fun _ => grounds_pushed trivial
  | namedArg => exact (grounds_constantName _).andThen fun _ => grounds_pushed trivial
  | importModule => exact (grounds_importModule _).andNext
  | unknown => exact grounds_fail _

theorem grounds_fetch : Grounds n fetch := by
  refine grounds_frame.andThen fun f => .read fun _ _ _ _ => ?_
  split
  · exact (grounds_modifyFrame _).andThen fun _ => grounds_pure trivial
  · exact (grounds_push (v := Value.null) trivial).andThen fun _ => grounds_pure trivial

end Exec

end ScriptVm
