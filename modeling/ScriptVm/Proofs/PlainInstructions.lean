import ScriptVm.Proofs.PlainOperations

/-!
# Instructions that are plain

Properties, the construction of classes, what calls do before they make a frame, and then the
instructions. `Instruction.isPlain` names the instructions that leave calls, regions, iterations
and captured variables alone, and `Instruction.operands` the number of values that an instruction
uses up; `plain_execute` is the main result.
-/

set_option autoImplicit false

namespace ScriptVm.Exec

open Machine World

variable {b : Bool} {n : Nat} {m : Machine} {α β : Type}

/-! ## Properties

These look at the caches. That a field may be written and that a method was found must be known
of the machine at hand, so these lemmas have the fact as a hypothesis. -/

theorem plain_useCaches : Plain true n config m := .look (.pure _)

theorem plain_rememberProperty (site : Site) (k : CacheKey) (offset : Nat) :
    Plain true n (rememberProperty site k offset) m := by
  refine plain_useCaches.andThen fun c m' _ => ?_
  split
  · exact Plain.andThen (.seeing (evolves_recordProperty _ _ _ _)) fun _ _ _ => .pure _
  · exact .pure _

theorem plain_openProperties (site : Site) :
    Plain true n (withCaches fun c => c.propertyCache site) m :=
  .seeing (.single (.propertyCaches _ _))

/-- A look into a cache counts and may note something. -/
theorem plain_cachedField (site : Site) (o : ShapedObject) (s : Symbol) :
    Plain true n (cachedField site o s) m := by
  refine plain_useCaches.andThen fun c m' _ => ?_
  split
  · refine (plain_openProperties site).andThen fun cache _ _ => ?_
    split
    · exact Plain.andThen (.count _) fun _ _ _ => .pure _
    · exact Plain.andThen (.count _) fun _ _ _ => .pure _
  · exact .pure _

theorem plain_cachedMethod (site : Site) (k : CacheKey) : Plain true n (cachedMethod site k) m := by
  refine plain_useCaches.andThen fun c m' _ => ?_
  split
  · refine Plain.andThen (.seeing (.single (.openMethods _ site))) fun cache _ _ => ?_
    split
    · exact Plain.andThen (.count _) fun _ _ _ => .pure _
    · exact Plain.andThen (.count _) fun _ _ _ => .pure _
  · exact .pure _

theorem plain_placedField (site : Site) (o : ShapedObject) (s : Symbol) :
    Plain true n (placedField site o s) m := by
  refine .look ?_
  simp only
  split
  · exact (plain_rememberProperty _ _ _).andThen fun _ _ _ => .pure _
  · exact .pure _

theorem run_get (m : Machine) : (get : Exec Machine).run m = .ok m m := rfl

theorem run_config (m : Machine) : config.run m = .ok m.config m := rfl

theorem run_heap (m : Machine) : heap.run m = .ok m.heap m := rfl

/-- A method is looked up with the symbol of its name, so the cache entry is right. -/
theorem plain_classMethod (site : Site) (cls : Ref .cls) {s : Symbol} {name : Text}
    (symbol : m.world.symbols.lookup name = some s) : Plain true n (classMethod site cls s name) m := by
  refine plain_heap.andThen fun h m' hrun => ?_
  rw [run_heap] at hrun
  cases hrun
  split
  next method owner found =>
    refine Plain.andThen ?_ fun _ _ _ => .pure _
    refine plain_useCaches.andThen fun c m' hrun => ?_
    rw [run_config] at hrun
    cases hrun
    split
    · exact Plain.andThen (.seeing (evolves_recordMethod _ site symbol found)) fun _ _ _ => .pure _
    · exact .pure _
  next => exact .pure _

/-- A symbol that is known before a plain computation is known behind it. -/
theorem Plain.lookup {x : Exec α} {m' : Machine} {v : α} {name : Text} {s : Symbol} (h : Plain b n x m)
    (run : x.run m = .ok v m') (symbol : m.world.symbols.lookup name = some s) :
    m'.world.symbols.lookup name = some s :=
  (h.keeps_of_ok run).world.lookup symbol

/-- A name has its symbol after it was interned. -/
theorem lookup_of_intern {name : Text} {s : Symbol} {m' : Machine} (run : (intern name).run m = .ok s m') :
    m'.world.symbols.lookup name = some s := by
  cases run
  exact SymbolTable.lookup_intern_self m.world.symbols name

theorem plain_getObjectProperty (r : Ref .object) (name : Text) (site : Site) :
    Plain true n (getObjectProperty r name site) m := by
  refine (plain_intern name).andThen fun s m₁ h₁ => plain_heap.andThen fun h m₂ h₂ => ?_
  have known₁ := lookup_of_intern h₁
  have known₂ := (plain_heap (b := true) (n := 0)).lookup h₂ known₁
  refine (plain_cachedField site _ s).andThen fun field m₃ h₃ => ?_
  have known₃ := (plain_cachedField (n := 0) site _ s).lookup h₃ known₂
  split
  · exact .pure _
  refine (plain_placedField site _ s).andThen fun field m₄ h₄ => ?_
  have known₄ := (plain_placedField (n := 0) site _ s).lookup h₄ known₃
  split
  · exact .pure _
  refine plain_heap.andThen fun h m₅ h₅ => (plain_cachedMethod site _).andThen fun method m₆ h₆ => ?_
  have known₅ := (plain_heap (b := true) (n := 0)).lookup h₅ known₄
  have known₆ := (plain_cachedMethod (n := 0) site _).lookup h₆ known₅
  split
  · exact plain_bindMethod _ _
  refine (plain_classMethod site _ known₆).andThen fun method _ _ => ?_
  split
  · exact plain_bindMethod _ _
  · exact plain_fail _

/-- Whether a machine may write the field of an instance. -/
def Writable (m : Machine) (r : Ref .object) (s : Symbol) : Prop :=
  m.heap.isConstField (m.heap.objects.get r).cls s = false

/-- A field is set through the cache only if the class does not declare it constant. -/
theorem plain_setCachedField (site : Site) {r : Ref .object} {s : Symbol} (v : Value)
    (writable : Writable m r s) : Plain true n (setCachedField site r s v) m := by
  refine plain_useCaches.andThen fun c m₁ h₁ => ?_
  cases h₁
  split
  · refine plain_heap.andThen fun h m₂ h₂ => (plain_openProperties site).andThen fun cache m₃ h₃ => ?_
    cases h₂
    cases h₃
    refine .look ?_
    simp only
    split
    next w hw =>
      obtain ⟨offset, -, hw⟩ := Option.bind_eq_some_iff.1 hw
      refine Plain.andThen (x := withWorld fun _ => ((), w)) ?_ fun _ _ _ => ?_
      · exact .seeing (.single (.setFieldAt r offset s v writable hw))
      · exact Plain.andThen (.count _) fun _ _ _ => .pure _
    next => exact Plain.andThen (.count _) fun _ _ _ => .pure _
  · exact .pure _

/-- The machine after the property cache of a site has been asked for. -/
def withOpened (m : Machine) (site : Site) : Machine :=
  { m with world := { m.world with caches := (m.world.caches.propertyCache site).2 } }

/-- With caches, a field is set at the remembered offset, if the row has the symbol there. -/
theorem run_setCachedField_on (site : Site) (r : Ref .object) (s : Symbol) (v : Value)
    (on : m.config.useCaches = true) :
    (setCachedField site r s v).run m =
      match ((m.world.caches.propertyCache site).1.lookup ⟨s, (m.heap.objects.get r).fields.shape⟩).bind
        fun offset => (withOpened m site).world.setFieldAt? r offset s v with
      | some world =>
        .ok true
          { m with world, stats := { m.stats with propertyHits := m.stats.propertyHits + 1 } }
      | none =>
        .ok false
          { withOpened m site with
            stats := { m.stats with propertyMisses := m.stats.propertyMisses + 1 } } := by
  unfold setCachedField
  rw [run_bind_of_ok (run_config m), if_pos on, run_bind_of_ok (run_heap m)]
  have opened : (withCaches fun c => c.propertyCache site).run m =
      .ok (m.world.caches.propertyCache site).1 (withOpened m site) := rfl
  simp only
  rw [run_bind_of_ok opened]
  have here : (get : Exec Machine).run (withOpened m site) = .ok (withOpened m site) (withOpened m site) := rfl
  rw [run_bind_of_ok here]
  generalize ((m.world.caches.propertyCache site).1.lookup ⟨s, (m.heap.objects.get r).fields.shape⟩).bind
    (fun offset => (withOpened m site).world.setFieldAt? r offset s v) = written
  cases written <;> rfl

/-- Without caches, no offset is remembered. -/
theorem run_setCachedField_off (site : Site) (r : Ref .object) (s : Symbol) (v : Value)
    (off : m.config.useCaches = false) : (setCachedField site r s v).run m = .ok false m := by
  unfold setCachedField
  rw [run_bind_of_ok (run_config m), if_neg (by rw [off]; decide)]
  rfl

/-- A write that the cache did not make has left the heap alone. -/
theorem heap_of_setCachedField {site : Site} {r : Ref .object} {s : Symbol} {v : Value} {m' : Machine}
    (run : (setCachedField site r s v).run m = .ok false m') : m'.heap = m.heap := by
  cases use : m.config.useCaches with
  | true =>
    rw [run_setCachedField_on site r s v use] at run
    split at run
    · cases run
    · cases run
      rfl
  | false =>
    rw [run_setCachedField_off site r s v use] at run
    cases run
    rfl

theorem plain_setObjectProperty (r : Ref .object) (name : Text) (v : Value) (site : Site) :
    Plain true n (setObjectProperty r name v site) m := by
  refine (plain_intern name).andThen fun s m₁ h₁ => plain_heap.andThen fun h m₂ h₂ => ?_
  cases h₂
  split
  · exact plain_fail _
  next hc =>
    have writable : Writable m₁ r s := Bool.eq_false_iff.2 hc
    refine (plain_setCachedField site v writable).andThen fun done m₃ h₃ => ?_
    split
    · exact .pure _
    next hd =>
      rw [Bool.eq_false_iff.2 hd] at h₃
      have writable₃ : Writable m₃ r s := by
        unfold Writable
        rw [heap_of_setCachedField h₃]
        exact writable
      refine Plain.andThen (.seeing (.single (.setField _ r s v writable₃))) fun _ _ _ => ?_
      refine plain_heap.andThen fun _ _ _ => .look ?_
      split
      · exact plain_rememberProperty _ _ _
      · exact .pure _

/-- A use of the side is plain whether or not looking at it is allowed. -/
theorem Plain.ofUse {x : Exec α} (side : SideUse x) (h : Plain true n x m) : Plain b n x m := by
  cases b with
  | true => exact h
  | false => exact .use side h

theorem plain_getClassProperty (r : Ref .cls) (name : Text) : Plain b n (getClassProperty r name) m := by
  refine plain_heap.andThen fun h m' _ => ?_
  split
  · exact .pure _
  split
  · exact plain_bindMethod _ _
  split
  · exact .pure _
  · exact plain_fail _

theorem plain_getSuperMethod (r : Ref .cls) (name : Text) : Plain b n (getSuperMethod r name) m := by
  refine plain_heap.andThen fun h m' _ => ?_
  split
  · exact .read (fun _ => rfl) (plain_frame.andThen fun _ _ _ => plain_bindMethod _ _)
  · exact plain_fail _

/-- Reading a property uses no operand. -/
theorem plain_getProperty (object : Value) (name : Text) (site : Site) :
    Plain b n (getProperty object name site) m := by
  unfold getProperty
  cases object with
  | object r => exact .ofUse (.read r name site) (plain_getObjectProperty r name site)
  | cls r => exact plain_getClassProperty r name
  | hash r =>
    refine plain_heap.andThen fun h m' _ => ?_
    split
    · exact .pure _
    · exact plain_newMethod _ _
  | array r => exact plain_newMethod _ _
  | str t =>
    simp only
    split
    · exact .pure _
    · exact plain_newMethod _ _
  | superOf r => exact plain_getSuperMethod r name
  | _ => exact .read (fun _ => rfl) (plain_fail _)

/-- An assignment to a static field writes one static field. -/
theorem setStatic?_eq_some {h h' : Heap} {r : Ref .cls} {name : Text} {v : Value}
    (done : h.setStatic? r name v = some h') : ∃ c, h' = h.putStatic c name ⟨v, false⟩ := by
  unfold Heap.setStatic? at done
  split at done
  · cases done
    exact ⟨r, rfl⟩
  · split at done
    · cases done
    · cases done
      exact ⟨_, rfl⟩

/-- Assigning to a property touches the instance or a static field. -/
theorem plain_setProperty (object : Value) (name : Text) (v : Value) (site : Site) :
    Plain b n (setProperty object name v site) m := by
  unfold setProperty
  cases object with
  | object r => exact .ofUse (.write r name v site) (plain_setObjectProperty r name v site)
  | cls r =>
    refine plain_heap.andThen fun h m' hrun => ?_
    cases hrun
    split
    next h' done =>
      obtain ⟨c, rfl⟩ := setStatic?_eq_some done
      refine plain_modifyHeap fun w hw => ?_
      rw [← hw]
      exact .putStatic w c name _
    next => exact plain_fail _
  | hash r => exact plain_modifyHeap fun w _ => .setEntry w r _ v
  | _ => exact .read (fun _ => rfl) (plain_fail _)

/-! ## Class construction by instructions -/

theorem plain_classOnTop : Plain b n classOnTop m := by
  refine .read (fun _ => rfl) ?_
  split
  · exact .pure _
  · exact plain_fail _

theorem plain_replaceTop (v : Value) : Plain b 1 (replaceTop v) m :=
  .read (fun _ => rfl) (plain_setSlot _ _ (by omega))

theorem plain_republish (draft : Class)
    (made : (∀ r, (m.heap.classes.get r).WellMade) → draft.WellMade) : Plain b 1 (republish draft) m :=
  (plain_publish draft made).andThen fun _ _ _ => (plain_replaceTop _).before fun _ _ _ => .pure _

/-- Inheriting uses the two classes. -/
theorem plain_inherit : Plain b 2 inherit m := by
  refine .afterPop fun v m' _ => ?_
  split
  · refine plain_classOnTop.andThen fun r _ _ => plain_heap.andThen fun h m₁ read => ?_
    cases read
    refine (plain_republish _ ?_).before fun _ _ _ => .pure _
    exact fun made => ⟨(made r).once, (made r).init⟩
  · exact .read (fun _ => rfl) (plain_fail _)

theorem plain_defineMethod (name : Text) (isStatic : Bool) : Plain b 2 (defineMethod name isStatic) m := by
  refine .afterPop fun v m' _ => ?_
  split
  next f _ =>
    refine plain_classOnTop.andThen fun r _ _ => plain_heap.andThen fun h m₁ read => ?_
    cases read
    refine (plain_republish _ fun made => ?_).before fun _ _ _ => ?_
    · split
      · exact ⟨(made r).once, (made r).init⟩
      · exact (made r).withMethod name f
    · exact plain_modifyHeap fun w _ => .adopt w f _
  · exact .read (fun _ => rfl) (plain_fail _)

theorem plain_draftField (c : Class) (name : Text) (initial : Value) (isConst : Bool) :
    Plain b n (withWorld fun w => w.draftField c name initial isConst) m :=
  .world ⟨[], fun _ _ => ⟨rfl, .single (.intern _ _)⟩⟩

theorem plain_defineField (name : Text) (isStatic isConst : Bool) :
    Plain b 2 (defineField name isStatic isConst) m := by
  refine .afterPop fun initial m' _ => plain_classOnTop.andThen fun r _ _ => ?_
  split
  · exact plain_modifyHeap fun w _ => .putStatic w r name _
  · refine plain_heap.andThen fun h m₁ read => (plain_draftField _ _ _ _).andThen fun draft m₂ drafted => ?_
    cases read
    have drafted : EStateM.Result.ok _ _ = .ok draft m₂ := drafted
    obtain ⟨rfl, rfl⟩ := EStateM.Result.ok.inj drafted
    refine (plain_republish _ ?_).before fun _ _ _ => .pure _
    exact fun made => wellMade_draftField (made r) _ _ _ _

theorem plain_getSuper (name : Text) : Plain b n (getSuper name) m := by
  refine plain_frame.andThen fun f _ _ => plain_heap.andThen fun h _ _ => ?_
  split
  · exact plain_getSuperMethod _ _
  · exact plain_fail _

/-! ## Calls -/

theorem run_peekMany (k : Nat) (m : Machine) :
    (peekMany k).run m = .ok (m.stack.extract (m.stack.size - k) m.stack.size).toList m := rfl

/-- Arranging named arguments stays within the arguments. -/
theorem plain_reorder (callee : Value) (argc : Nat) : Plain b argc (reorder callee argc) m := by
  refine (plain_peekMany _).andThen fun window m₁ h₁ => ?_
  split
  · refine plain_heap.andThen fun h m₂ h₂ => ?_
    split
    · exact .read (fun _ => rfl) (plain_fail _)
    · refine .read (fun _ => rfl) ?_
      simp only
      split
      next args _ =>
        refine Plain.before (plain_rewrite (fun _ => args.toArray) _ ?_) fun _ _ _ => .pure _
        omega
      next c _ =>
        refine Plain.before
          (plain_rewrite (fun _ => (NamedArgs.vacatedWindow window).toArray) _ ?_) fun _ _ _ => plain_fail _
        omega
  · exact .pure _

/-- Computations that are plain up to the call that they may end in: the call has the callee slot
`base`, and the computation gives `v` when it has made a frame. If it gives `v` without a frame, it
has left a value. -/
inductive Calling : Bool → Nat → (base : Nat) → {α : Type} → (v : α) → Exec α → Machine → Prop where
  | plain {b : Bool} {n base : Nat} {α : Type} {v : α} {x : Exec α} {m : Machine} (h : Plain b n x m)
      (leaves : ∀ m', x.run m = .ok v m' → m.stack.size < m'.stack.size + n) : Calling b n base v x m
  | chain {b : Bool} {n t base : Nat} {α β : Type} {v : β} {x : Exec α} {f : α → Exec β} {m : Machine}
      (k : α → Machine → Nat) (le : n ≤ t)
      (fits : ∀ a m', x.run m = .ok a m' → m.stack.size + k a m' ≤ m'.stack.size + t)
      (first : Plain b n x m)
      (next : ∀ a m', x.run m = .ok a m' → Calling b (k a m') base v (f a) m') :
      Calling b t base v (x >>= f) m
  | read {b : Bool} {n base : Nat} {α : Type} {v : α} {body : Machine → Exec α} {m : Machine}
      (blind : ∀ s, body (m.withSide s) = body m) (next : Calling b n base v (body m) m) :
      Calling b n base v (get >>= body) m
  | push {b : Bool} {n base : Nat} {m : Machine} (f : Frame) (start : f.ip = 0) (slot : f.base = base) :
      Calling b n base () (pushFrame f) m
  | last {b : Bool} {n base : Nat} {β : Type} {v : β} {x : Exec Unit} {f : Unit → Exec β} {m : Machine}
      (gives : f () = Pure.pure v) (first : Calling b n base () x m) : Calling b n base v (x >>= f) m

/-- What comes before the call is plain, and the operands add up. -/
theorem Calling.bind {k t base : Nat} {v : β} {x : Exec α} {f : α → Exec β} (le : n + k ≤ t)
    (first : Plain b n x m) (next : ∀ a m', x.run m = .ok a m' → Calling b k base v (f a) m') :
    Calling b t base v (x >>= f) m := by
  refine .chain (fun _ _ => k) (by omega) (fun a m' run => ?_) first next
  have := (first.keeps_of_ok run).size
  omega

theorem Calling.andThen {base : Nat} {v : β} {x : Exec α} {f : α → Exec β} (first : Plain b 0 x m)
    (next : ∀ a m', x.run m = .ok a m' → Calling b n base v (f a) m') : Calling b n base v (x >>= f) m :=
  .bind (Nat.le_of_eq (Nat.zero_add n)) first next

theorem Calling.before {base : Nat} {v : β} {x : Exec α} {f : α → Exec β} (first : Plain b n x m)
    (next : ∀ a m', x.run m = .ok a m' → Calling b 0 base v (f a) m') : Calling b n base v (x >>= f) m :=
  .bind (Nat.le_refl n) first next

theorem calling_fail {base : Nat} {v : α} (c : Cause) : Calling b n base v (fail c) m :=
  .plain (plain_fail c) fun _ run => nomatch run

/-- The last thing that a call without a frame does. -/
theorem calling_pushResult {base : Nat} (v : Value) :
    Calling b n base (none : Option Reentry) (do push v; return none) m := by
  refine .chain (fun _ _ => n + 1) (Nat.le_refl n) (fun _ m' run => ?_) (plain_push v) fun _ m' _ => ?_
  · cases run
    simp only [Array.size_push]
    omega
  · refine .plain (.pure _) fun m'' run => ?_
    cases run
    omega

/-- A native function takes callee and arguments from the stack. -/
theorem calling_callNative (r : Ref .native) (argc base : Nat) (withReceiver : Bool) :
    Calling b (argc + 1) base none (callNative r argc withReceiver) m := by
  refine .andThen plain_heap fun h m₁ _ => ?_
  simp only
  split
  · exact calling_fail _
  · refine .bind (Nat.le_refl _) (plain_popMany argc) fun args _ _ => ?_
    refine .before plain_pop fun receiver _ _ => .andThen (plain_runNative _ _) fun answer _ _ => ?_
    split
    · exact calling_pushResult _
    · exact .plain (.pure _) fun _ run => nomatch run

/-- A closure gets a frame whose slot 0 is its callee, unless it is refused. -/
theorem calling_callClosure (r : Ref .closure) {argc base : Nat} (isConstructor : Bool)
    (slot : base = m.stack.size - argc - 1) :
    Calling b n base () (callClosure r argc isConstructor) m := by
  refine .andThen plain_heap fun h m₁ h₁ => ?_
  cases h₁
  simp only
  split
  · exact calling_fail _
  next arity =>
    refine .andThen (plain_fill fun _ => Array.replicate _ .null) fun _ m₂ h₂ => ?_
    cases h₂
    refine .read (fun _ => rfl) ?_
    split
    · exact calling_fail _
    · refine .push _ rfl ?_
      simp only [Bool.or_eq_true, decide_eq_true_eq, not_or] at arity
      simp only [Array.size_append, Array.size_replicate]
      omega

/-- Reordering keeps the callee slot. -/
theorem size_of_reorder {callee : Value} {argc k : Nat} {m' : Machine}
    (run : (reorder callee argc).run m = .ok k m') :
    m.stack.size + k ≤ m'.stack.size + argc ∧ m'.stack.size - k = m.stack.size - argc := by
  unfold reorder at run
  rw [run_bind_of_ok (run_peekMany argc m)] at run
  split at run
  · rw [run_bind_of_ok (run_heap m)] at run
    split at run
    · cases run
    · rw [run_bind_of_ok (run_get m)] at run
      simp only at run
      split at run
      · cases run
        simp only [Array.size_append, Array.size_shrink, List.size_toArray]
        omega
      · cases run
  · cases run
    exact ⟨Nat.le_refl _, rfl⟩

/-- An instance takes the place of its class, and its constructor is called there. -/
theorem calling_instantiate (r : Ref .cls) {argc base k : Nat} (le : argc + 1 ≤ k)
    (slot : base = m.stack.size - argc - 1) : Calling b k base () (instantiate r argc) m := by
  refine .andThen (plain_newObject r) fun object m₁ h₁ => .read (fun _ => rfl) ?_
  cases h₁
  refine .chain (n := k) (fun _ _ => k) (Nat.le_refl _) (fun _ m₂ h₂ => ?_) (plain_setSlot _ _ ?_)
    fun _ m₂ h₂ => .andThen plain_heap fun h m₃ h₃ => ?_
  · cases h₂
    simp only [Array.size_setIfInBounds]
    omega
  · simp only
    omega
  · cases h₂
    cases h₃
    split
    · exact calling_callClosure _ _ (by simp only [Array.size_setIfInBounds, slot])
    · split
      · exact calling_fail _
      · refine .plain (.pure _) fun m' run => ?_
        cases run
        omega

theorem run_peek (k : Nat) (m : Machine) :
    (peek k).run m = .ok (m.slot (m.stack.size - 1 - k)) m := rfl

/-- A call ends in a frame above the callee slot, or takes callee and arguments. -/
theorem calling_call (argc : Nat) :
    Calling b (argc + 1) (m.stack.size - argc - 1) none (call argc) m := by
  refine .andThen (plain_peek argc) fun callee m₁ h₁ => ?_
  rw [run_peek] at h₁
  obtain ⟨-, rfl⟩ := EStateM.Result.ok.inj h₁
  refine .chain (n := argc) (fun k _ => k + 1) (by omega) (fun k m₂ h₂ => ?_) (plain_reorder callee argc)
    fun k m₂ h₂ => ?_
  · have := (size_of_reorder h₂).1
    omega
  have slot := (size_of_reorder h₂).2
  cases callee with
  | closure r =>
    exact .last rfl (calling_callClosure r false (by omega))
  | native r => exact calling_callNative r k _ false
  | cls r =>
    exact .last rfl (calling_instantiate r (Nat.le_refl _) (by omega))
  | bound r =>
    refine .andThen plain_heap fun h m₃ h₃ => .read (fun _ => rfl) ?_
    obtain ⟨-, rfl⟩ := EStateM.Result.ok.inj (run_heap _ ▸ h₃)
    have size : ∀ i v, (m₂.stack.setIfInBounds i v).size = m₂.stack.size := fun _ _ => Array.size_setIfInBounds
    refine .chain (n := k + 1) (fun _ _ => k + 1) (Nat.le_refl _) (fun _ m₄ h₄ => ?_)
      (plain_setSlot _ _ (by omega)) fun _ m₄ h₄ => ?_
    · cases h₄
      simp only [size]
      omega
    · cases h₄
      simp only
      split
      · refine .last rfl (calling_callClosure _ false ?_)
        simp only [size]
        omega
      · exact calling_callNative _ k _ true
  | method r =>
    refine .andThen plain_heap fun h m₃ _ => ?_
    refine .bind (Nat.le_refl _) (plain_popMany k) fun args _ _ => ?_
    refine .before plain_pop fun _ _ _ => .andThen (plain_callMethod _ _ _) fun v _ _ => ?_
    exact calling_pushResult v
  | _ => exact calling_fail _

/-- So does a construction. -/
theorem calling_new (argc : Nat) : Calling b (argc + 1) (m.stack.size - argc - 1) () (new argc) m := by
  refine .andThen (plain_peek argc) fun callee m₁ h₁ => ?_
  rw [run_peek] at h₁
  obtain ⟨-, rfl⟩ := EStateM.Result.ok.inj h₁
  split
  · refine .chain (n := argc) (fun k _ => k + 1) (by omega) (fun k m₂ h₂ => ?_) (plain_reorder _ argc)
      fun k m₂ h₂ => ?_
    · have := (size_of_reorder h₂).1
      omega
    · have slot := (size_of_reorder h₂).2
      exact calling_instantiate _ (Nat.le_refl _) (by omega)
  · exact .read (fun _ => rfl) (calling_fail _)

/-! ## Instructions -/

theorem plain_pushed (v : Value) : Plain b n (pushed v) m := (plain_push v).andThen fun _ _ _ => .pure _

theorem Plain.andNext {x : Exec Unit} (h : Plain b n x m) : Plain b n (andNext x) m :=
  h.before fun _ _ _ => .pure _

theorem Plain.pushing {x : Exec Value} (h : Plain b n x m) : Plain b n (x >>= pushed) m :=
  h.before fun _ _ _ => plain_pushed _

theorem plain_binary {f : Value → Value → Exec Value} (h : ∀ x y m, Plain b 0 (f x y) m) :
    Plain b 2 (binary f) m := by
  refine .afterPop fun y _ _ => .afterPop fun x _ _ => (h x y _).andThen fun v _ _ => ?_
  exact (plain_push v).andThen fun _ _ _ => .pure _

theorem plain_compare {f : Value → Value → Exec Bool} (h : ∀ x y m, Plain b 0 (f x y) m) :
    Plain b 2 (compare f) m :=
  plain_binary fun x y m => (h x y m).andThen fun _ _ _ => .pure _

theorem plain_constantValue (k : Constant) : Plain b n (constantValue k) m := by
  cases k with
  | function p => exact (plain_newClosure p).andThen fun _ _ _ => .pure _
  | _ => exact .pure _

theorem plain_getGlobal (name : Text) : Plain b n (getGlobal name) m := by
  refine .read (fun _ => rfl) ?_
  split
  · exact .pure _
  · exact plain_fail _

theorem plain_setGlobal (name : Text) (v : Value) : Plain b n (setGlobal name v) m := by
  refine .read (fun _ => rfl) ?_
  split
  · exact .define name v
  · exact plain_fail _

theorem plain_readCell (r : Ref .cell) : Plain b n (readCell r) m := by
  refine .read (fun _ => rfl) ?_
  split
  · exact .pure _
  · exact .pure _

theorem plain_ownCell (i : Nat) : Plain b n (ownCell i) m := by
  refine plain_frame.andThen fun _ _ _ => plain_heap.andThen fun _ _ _ => ?_
  exact plain_heap.andThen fun _ _ _ => .pure _

theorem plain_printLine (k : Nat) : Plain b k (printLine k) m := by
  refine .read (fun _ => rfl) ((plain_popMany k).before fun vs _ _ => ?_)
  split
  · refine Plain.andThen (.world ⟨[.print _], fun _ _ => ⟨rfl, .single (.log _ (.print _))⟩⟩) fun _ _ _ => ?_
    exact .emit _
  · exact .emit _

theorem plain_importModule (i : Nat) : Plain b n (importModule i) m := by
  refine .ofUse (.importing i) (.look ?_)
  split
  · exact (plain_constantName i).andThen fun _ _ _ => plain_note _ _
  · exact .pure _

theorem plain_site : Plain b n site m :=
  plain_frame.andThen fun _ _ _ => .read (fun _ => rfl) (.pure _)

end ScriptVm.Exec

namespace ScriptVm.Instruction

/-- The number of values on top of the stack that an instruction reads or takes off. -/
def operands (i : Instruction) : Nat :=
  match i.op with
  | .pop | .dup | .setLocal | .setGlobal | .defineGlobal | .setUpvalue | .closeUpvalue | .negate | .not
  | .jumpIfFalse | .jumpIfFalseNoPop | .jumpIfTrueNoPop | .nullishJump | .ret | .getProperty | .getSuper
  | .throwTop | .getIter => 1
  | .add | .subtract | .multiply | .divide | .modulo | .equal | .notEqual | .less | .lessEqual | .greater
  | .greaterEqual | .range | .getIndex | .setProperty | .inherit | .method | .staticMethod | .field
  | .staticField | .constField | .staticConstField => 2
  | .setIndex => 3
  | .call | .new => i.a.toNat + 1
  | .array | .buildString | .print => i.a.toNat
  | .hash => 2 * i.a.toNat
  | _ => 0

/-- Whether an instruction leaves calls, regions, iterations and captured variables alone. -/
def isPlain (i : Instruction) : Bool :=
  match i.op with
  | .setLocal | .setUpvalue | .closeUpvalue | .jump | .jumpIfFalse | .loop | .jumpIfFalseNoPop
  | .jumpIfTrueNoPop | .nullishJump | .call | .closure | .ret | .new | .tryBegin | .tryEnd | .throwTop
  | .getIter | .forIter => false
  | _ => true

end ScriptVm.Instruction

namespace ScriptVm.Exec

variable {b : Bool} {m : Machine}

/-- A plain instruction is a plain computation. -/
theorem plain_execute {i : Instruction} (h : i.isPlain = true) : Plain b i.operands (execute i) m := by
  obtain ⟨op, x, y⟩ := i
  cases op with
  | setLocal | setUpvalue | closeUpvalue | jump | jumpIfFalse | loop | jumpIfFalseNoPop | jumpIfTrueNoPop
  | nullishJump | call | closure | ret | new | tryBegin | tryEnd | throwTop | getIter | forIter => cases h
  | constant => exact (plain_constant _).andThen fun _ _ _ => (plain_constantValue _).pushing
  | pushNull | pushTrue | pushFalse => exact plain_pushed _
  | pop => exact .afterPop fun _ _ _ => .pure _
  | dup => exact (plain_peek _).pushing
  | getLocal => exact .read (fun _ => rfl) (plain_frame.andThen fun _ _ _ => plain_pushed _)
  | getGlobal => exact (plain_constantName _).andThen fun _ _ _ => (plain_getGlobal _).pushing
  | setGlobal =>
    refine Plain.andNext ((plain_constantName _).andThen fun _ _ _ => ?_)
    exact (plain_peek 0).andThen fun _ _ _ => plain_setGlobal _ _
  | defineGlobal =>
    refine Plain.andNext ((plain_constantName _).andThen fun _ _ _ => ?_)
    exact .afterPop fun _ _ _ => .define _ _
  | getUpvalue => exact (plain_ownCell _).andThen fun _ _ _ => (plain_readCell _).pushing
  | add => exact plain_binary fun _ _ _ => plain_add _ _
  | subtract => exact plain_binary fun _ _ _ => plain_subtract _ _
  | multiply => exact plain_binary fun _ _ _ => plain_multiply _ _
  | divide => exact plain_binary fun _ _ _ => plain_divide _ _
  | modulo => exact plain_binary fun _ _ _ => plain_modulo _ _
  | negate => exact .afterPop fun _ _ _ => (plain_negate _).pushing
  | equal | notEqual => exact plain_compare fun _ _ _ => plain_heap.andThen fun _ _ _ => .pure _
  | less | greater => exact plain_compare fun _ _ _ => plain_less _ _
  | lessEqual | greaterEqual => exact plain_compare fun _ _ _ => plain_lessEqual _ _
  | not => exact .afterPop fun _ _ _ => .read (fun _ => rfl) (plain_pushed _)
  | array => exact (plain_popMany _).before fun _ _ _ => (plain_newArray _).pushing
  | hash => exact (plain_hashLiteral _).pushing
  | range => exact plain_binary fun _ _ _ => plain_range _ _
  | getIndex => exact plain_binary fun _ _ _ => plain_getIndex _ _
  | setIndex =>
    refine .afterPop fun _ _ _ => .afterPop fun _ _ _ => .afterPop fun _ _ _ => ?_
    exact (plain_setIndex _ _ _).andThen fun _ _ _ => plain_pushed _
  | buildString => exact .read (fun _ => rfl) ((plain_popMany _).before fun _ _ _ => plain_pushed _)
  | spread => exact .pure _
  | getProperty =>
    refine (plain_constantName _).andThen fun _ _ _ => .afterPop fun _ _ _ => ?_
    exact plain_site.andThen fun _ _ _ => (plain_getProperty _ _ _).pushing
  | setProperty =>
    refine (plain_constantName _).andThen fun _ _ _ => .afterPop fun _ _ _ => .afterPop fun _ _ _ => ?_
    exact plain_site.andThen fun _ _ _ => (plain_setProperty _ _ _ _).andThen fun _ _ _ => plain_pushed _
  | newClass =>
    exact (plain_constantName _).andThen fun _ _ _ => (plain_newClass _).andThen fun _ _ _ => plain_pushed _
  | inherit => exact plain_inherit.andNext
  | method | staticMethod =>
    exact Plain.andNext ((plain_constantName _).andThen fun _ _ _ => plain_defineMethod _ _)
  | getThis => exact .read (fun _ => rfl) (plain_frame.andThen fun _ _ _ => plain_pushed _)
  | getSuper =>
    refine (plain_constantName _).andThen fun _ _ _ => .afterPop fun _ _ _ => ?_
    exact (plain_getSuper _).pushing
  | field | staticField | constField | staticConstField =>
    exact Plain.andNext ((plain_constantName _).andThen fun _ _ _ => plain_defineField _ _ _)
  | print => exact (plain_printLine _).before fun _ _ _ => plain_pushed _
  | namedArg => exact (plain_constantName _).andThen fun _ _ _ => plain_pushed _
  | importModule => exact (plain_importModule _).andNext
  | unknown => exact plain_fail _

end ScriptVm.Exec
