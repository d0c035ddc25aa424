import ScriptVm.Proofs.CautiousCode

/-!
# Operations that check before they change

The operations that instructions are made of check first and change later, so all of them are
cautious. What comes before their last check concerns only the stack, symbols, shapes, caches and the
log, and at most makes an instance that nobody knows. A builtin method that fails leaves the machine
exactly as it was.
-/

set_option autoImplicit false

namespace ScriptVm

namespace Exec

open Machine

variable {α β : Type}

/-! ## Constants -/

theorem idle_constant (index : Nat) : Idle (constant index) := by
  refine Idle.bind (idle_frame.bind fun _ => idle_get.bind fun _ => idle_pure _) fun p => ?_
  split
  · exact idle_pure _
  · exact idle_missing

theorem idle_constantName (index : Nat) : Idle (constantName index) := by
  refine (idle_constant index).bind fun k => ?_
  split
  · exact idle_pure _
  · exact idle_fail _

/-! ## Operators -/

/-- An overflow is found before anything is done. -/
theorem idle_checked (r : Option Int64) : Idle (checked r) := by
  unfold checked
  split
  · exact idle_pure _
  · exact idle_fail _

/-- A sum of arrays makes a new one. -/
theorem cautious_add (a b : Value) : Cautious (add a b) := by
  refine idle_get.before fun m => ?_
  split
  · exact (idle_checked _).cautious
  · exact (idle_pure _).cautious
  · exact (idle_pure _).cautious
  · exact (safe_newArray _).cautious
  · split
    · exact (idle_pure _).cautious
    · exact (idle_fail _).cautious

theorem idle_subtract (a b : Value) : Idle (subtract a b) := by
  refine idle_get.bind fun m => ?_
  split
  · exact idle_checked _
  · split
    · exact idle_pure _
    · exact idle_fail _

theorem idle_repeatText (s : Text) (times : Int64) : Idle (repeatText s times) := by
  refine idle_config.bind fun c => ?_
  split
  · exact idle_pure _
  · exact idle_fail _

theorem idle_multiply (a b : Value) : Idle (multiply a b) := by
  refine idle_get.bind fun m => ?_
  split
  · exact idle_checked _
  · exact idle_repeatText _ _
  · exact idle_repeatText _ _
  · split
    · exact idle_pure _
    · exact idle_fail _

theorem idle_divide (a b : Value) : Idle (divide a b) := by
  refine idle_get.bind fun m => ?_
  split
  · split
    · exact idle_fail _
    · split
      · exact idle_checked _
      · exact idle_pure _
  · exact idle_fail _

theorem idle_modulo (a b : Value) : Idle (modulo a b) := by
  refine idle_get.bind fun m => ?_
  split
  · split
    · exact idle_fail _
    · split <;> exact idle_pure _
  · exact idle_fail _

theorem idle_negate (v : Value) : Idle (negate v) := by
  unfold negate
  split
  · exact idle_checked _
  · exact idle_pure _
  · exact idle_get.bind fun _ => idle_fail _

theorem idle_less (a b : Value) : Idle (less a b) := by
  refine idle_get.bind fun m => ?_
  split
  · exact idle_pure _
  · exact idle_pure _
  · split
    · exact idle_pure _
    · exact idle_fail _

theorem idle_lessEqual (a b : Value) : Idle (lessEqual a b) := by
  refine idle_get.bind fun m => ?_
  split
  · exact idle_pure _
  · exact idle_pure _
  · split
    · exact idle_pure _
    · exact idle_fail _

theorem idle_expectKey (v : Value) : Idle (expectKey v) := by
  unfold expectKey
  split
  · exact idle_pure _
  · exact idle_get.bind fun _ => idle_fail _

/-- Reading an element changes nothing. -/
theorem idle_getIndex (object index : Value) : Idle (getIndex object index) := by
  refine idle_get.bind fun m => ?_
  split
  · exact (idle_expectKey _).bind fun _ => idle_pure _
  · dsimp only
    split
    · exact idle_pure _
    · exact idle_fail _
  · dsimp only
    split
    · exact idle_pure _
    · exact idle_fail _
  · exact idle_fail _

/-- An index or key is checked before the element is written. -/
theorem cautious_setIndex (object index value : Value) : Cautious (setIndex object index value) := by
  refine idle_get.before fun m => ?_
  split
  · exact (idle_expectKey _).cautious.before fun _ => safe_modifyHeap _
  · dsimp only
    split
    · exact (safe_modifyHeap _).cautious
    · exact (idle_fail _).cautious
  · exact (idle_fail _).cautious

theorem cautious_range (start stop : Value) : Cautious (range start stop) := by
  unfold range
  split
  · refine idle_config.before fun c => ?_
    split
    · exact (safe_newArray _).cautious
    · exact (idle_fail _).cautious
  · exact (idle_fail _).cautious

/-- The keys of a literal are checked before the table is made. -/
theorem cautious_hashLiteral (count : Nat) : Cautious (hashLiteral count) := by
  refine (idle_peekMany _).before fun window => idle_get.before fun m => ?_
  dsimp only
  split
  · exact (Safe.bind (safe_modify _) fun _ => safe_withHeap _).cautious
  · refine (quiet_modify _).before fun _ => ?_
    exact (idle_get.bind fun _ => idle_fail _).cautious

theorem cautious_openIteration (v : Value) : Cautious (openIteration v) := by
  refine idle_get.before fun m => ?_
  dsimp only
  split
  · exact (Safe.bind (safe_pure _) fun _ => safe_modify _).cautious
  · exact (Safe.bind (safe_pure _) fun _ => safe_modify _).cautious
  · exact (Safe.bind (safe_pure _) fun _ => safe_modify _).cautious
  · exact (idle_fail _).cautious.before fun _ => safe_modify _

/-! ## Builtin methods -/

theorem idle_expectArgs (args : List Value) (n : Nat) : Idle (expectArgs args n) := by
  unfold expectArgs
  split
  · exact idle_pure _
  · exact idle_fail _

theorem idle_expectAtMost (args : List Value) (n : Nat) : Idle (expectAtMost args n) := by
  unfold expectAtMost
  split
  · exact idle_pure _
  · exact idle_fail _

theorem idle_expectText (v : Value) (method : Text) : Idle (expectText v method) := by
  unfold expectText
  split
  · exact idle_pure _
  · exact idle_get.bind fun _ => idle_fail _

theorem idle_noMethod (receiver : Value) (name : Text) : Idle (noMethod receiver name) :=
  idle_get.bind fun _ => idle_fail _

/-- A method of an array checks its arguments before it changes the array. -/
theorem undone_arrayMethod (r : Ref .array) (method : ArrayMethod) (args : List Value) :
    Undone (arrayMethod r method args) := by
  refine idle_get.thenUndone fun m => ?_
  have checked : ∀ {x : Unit → Exec Value}, (∀ u, Undone (x u)) → ∀ n, Undone (expectArgs args n >>= x) :=
    fun next n => (idle_expectArgs args n).thenUndone next
  cases method with
  | length => exact checked (fun _ => (idle_pure _).undone) 0
  | push => exact (Safe.bind (safe_modifyHeap _) fun _ => safe_pure _).undone
  | pop => exact checked (fun _ => (Safe.bind (safe_modifyHeap _) fun _ => safe_pure _).undone) 0
  | first => exact checked (fun _ => (idle_pure _).undone) 0
  | last => exact checked (fun _ => (idle_pure _).undone) 0
  | join =>
    refine (idle_expectAtMost args 1).thenUndone fun _ => ?_
    split
    · exact (idle_pure _).undone
    · exact ((idle_expectText _ _).bind fun _ => idle_pure _).undone
  | includes => exact checked (fun _ => (idle_pure _).undone) 1
  | reverse => exact checked (fun _ => (safe_newArray _).undone) 0

/-- So does one of a hash. -/
theorem undone_hashMethod (r : Ref .table) (method : HashMethod) (args : List Value) :
    Undone (hashMethod r method args) := by
  refine idle_get.thenUndone fun m => ?_
  have checked : ∀ {x : Unit → Exec Value}, (∀ u, Undone (x u)) → ∀ n, Undone (expectArgs args n >>= x) :=
    fun next n => (idle_expectArgs args n).thenUndone next
  cases method with
  | length => exact checked (fun _ => (idle_pure _).undone) 0
  | keys => exact checked (fun _ => (safe_newArray _).undone) 0
  | values => exact checked (fun _ => (safe_newArray _).undone) 0
  | hasKey => exact checked (fun _ => ((idle_expectKey _).bind fun _ => idle_pure _).undone) 1
  | delete =>
    refine checked (fun _ => (idle_expectKey _).thenUndone fun key => ?_) 1
    split
    · exact (idle_pure _).undone
    · exact (Safe.bind (safe_modifyHeap _) fun _ => safe_pure _).undone

theorem undone_textMethod (t : Text) (method : TextMethod) (args : List Value) :
    Undone (textMethod t method args) := by
  unfold textMethod
  have checked : ∀ {x : Unit → Exec Value}, (∀ u, Undone (x u)) → ∀ n, Undone (expectArgs args n >>= x) :=
    fun next n => (idle_expectArgs args n).thenUndone next
  cases method with
  | length => exact checked (fun _ => (idle_pure _).undone) 0
  | upcase => exact checked (fun _ => (idle_pure _).undone) 0
  | downcase => exact checked (fun _ => (idle_pure _).undone) 0
  | trim => exact checked (fun _ => (idle_pure _).undone) 0
  | split =>
    refine (idle_expectAtMost args 1).thenUndone fun _ => ?_
    split
    · exact (safe_newArray _).undone
    · exact (idle_expectText _ _).thenUndone fun _ => (safe_newArray _).undone
  | includes => exact checked (fun _ => ((idle_expectText _ _).bind fun _ => idle_pure _).undone) 1

/-- A builtin method that fails has not changed anything. -/
theorem undone_callMethod (receiver : Value) (name : Text) (args : List Value) :
    Undone (callMethod receiver name args) := by
  unfold callMethod
  split
  · split
    · exact undone_arrayMethod _ _ _
    · exact (idle_noMethod _ _).undone
  · split
    · exact undone_hashMethod _ _ _
    · exact (idle_noMethod _ _).undone
  · split
    · exact undone_textMethod _ _ _
    · exact (idle_noMethod _ _).undone
  · exact (idle_noMethod _ _).undone

/-! ## Properties -/

theorem quiet_recordProperty (site : Site) (k : CacheKey) (offset : Nat) :
    Quiet (withWorld fun w => w.recordProperty site k offset) := by
  refine quiet_aside fun w => ?_
  unfold World.recordProperty
  dsimp only
  split
  · rfl
  · exact heap_note _ _ _ _

theorem quiet_recordMethod (site : Site) (k : CacheKey) (found : FoundMethod) :
    Quiet (withWorld fun w => w.recordMethod site k found) := by
  refine quiet_aside fun w => ?_
  unfold World.recordMethod
  dsimp only
  split
  · rfl
  · exact heap_note _ _ _ _

theorem quiet_rememberProperty (site : Site) (k : CacheKey) (offset : Nat) :
    Quiet (rememberProperty site k offset) := by
  refine idle_config.quiet.bind fun c => ?_
  split
  · exact (quiet_recordProperty site k offset).bind fun _ => (idle_pure _).quiet
  · exact (idle_pure _).quiet

theorem quiet_rememberMethod (site : Site) (k : CacheKey) (found : FoundMethod) :
    Quiet (rememberMethod site k found) := by
  refine idle_config.quiet.bind fun c => ?_
  split
  · exact (quiet_recordMethod site k found).bind fun _ => (idle_pure _).quiet
  · exact (idle_pure _).quiet

/-- Caches are not seen. -/
theorem quiet_withCaches (f : CacheRegistry → α × CacheRegistry) : Quiet (withCaches f) := quiet_aside fun _ => rfl

theorem quiet_cachedField (site : Site) (o : ShapedObject) (s : Symbol) : Quiet (cachedField site o s) := by
  refine idle_config.quiet.bind fun c => ?_
  split
  · refine (quiet_withCaches _).bind fun cache => ?_
    split <;> exact (quiet_count _).bind fun _ => (idle_pure _).quiet
  · exact (idle_pure _).quiet

theorem quiet_cachedMethod (site : Site) (k : CacheKey) : Quiet (cachedMethod site k) := by
  refine idle_config.quiet.bind fun c => ?_
  split
  · refine (quiet_withCaches _).bind fun cache => ?_
    split <;> exact (quiet_count _).bind fun _ => (idle_pure _).quiet
  · exact (idle_pure _).quiet

theorem quiet_placedField (site : Site) (o : ShapedObject) (s : Symbol) : Quiet (placedField site o s) := by
  refine idle_get.quiet.bind fun m => ?_
  dsimp only
  split
  · exact (quiet_rememberProperty _ _ _).bind fun _ => (idle_pure _).quiet
  · exact (idle_pure _).quiet

theorem quiet_classMethod (site : Site) (cls : Ref .cls) (s : Symbol) (name : Text) :
    Quiet (classMethod site cls s name) := by
  refine idle_heap.quiet.bind fun h => ?_
  split
  · exact (quiet_rememberMethod _ _ _).bind fun _ => (idle_pure _).quiet
  · exact (idle_pure _).quiet

theorem safe_bindMethod (receiver method : Value) : Safe (bindMethod receiver method) := safe_withWorld _

/-- A missing property is found missing before a method is bound. -/
theorem cautious_getObjectProperty (r : Ref .object) (name : Text) (site : Site) :
    Cautious (getObjectProperty r name site) := by
  refine (quiet_intern name).before fun s => idle_heap.before fun h => ?_
  refine (quiet_cachedField _ _ _).before fun cached => ?_
  split
  · exact (idle_pure _).cautious
  refine (quiet_placedField _ _ _).before fun placed => ?_
  split
  · exact (idle_pure _).cautious
  refine idle_heap.before fun h' => (quiet_cachedMethod _ _).before fun method => ?_
  split
  · exact (safe_bindMethod _ _).cautious
  refine (quiet_classMethod _ _ _ _).before fun found => ?_
  split
  · exact (safe_bindMethod _ _).cautious
  · exact (idle_fail _).cautious

theorem cautious_getClassProperty (r : Ref .cls) (name : Text) : Cautious (getClassProperty r name) := by
  refine idle_heap.before fun h => ?_
  split
  · exact (idle_pure _).cautious
  split
  · exact (safe_bindMethod _ _).cautious
  split
  · exact (idle_pure _).cautious
  · exact (idle_fail _).cautious

theorem cautious_getSuperMethod (r : Ref .cls) (name : Text) : Cautious (getSuperMethod r name) := by
  refine idle_heap.before fun h => ?_
  split
  · exact idle_get.before fun _ => idle_frame.before fun _ => (safe_bindMethod _ _).cautious
  · exact (idle_fail _).cautious

theorem safe_newMethod (receiver : Value) (name : Text) : Safe (newMethod receiver name) := safe_withHeap _

theorem cautious_getProperty (object : Value) (name : Text) (site : Site) :
    Cautious (getProperty object name site) := by
  unfold getProperty
  split
  · exact cautious_getObjectProperty _ _ _
  · exact cautious_getClassProperty _ _
  · refine idle_heap.before fun h => ?_
    split
    · exact (idle_pure _).cautious
    · exact (safe_newMethod _ _).cautious
  · exact (safe_newMethod _ _).cautious
  · split
    · exact (idle_pure _).cautious
    · exact (safe_newMethod _ _).cautious
  · exact cautious_getSuperMethod _ _
  · exact (idle_get.bind fun _ => idle_fail _).cautious

theorem cautious_getSuper (name : Text) : Cautious (getSuper name) := by
  refine idle_frame.before fun f => idle_heap.before fun h => ?_
  split
  · exact cautious_getSuperMethod _ _
  · exact (idle_fail _).cautious

theorem safe_rememberProperty (site : Site) (k : CacheKey) (offset : Nat) :
    Safe (rememberProperty site k offset) := by
  refine safe_config.bind fun c => ?_
  split
  · exact (safe_withWorld _).bind fun _ => safe_pure _
  · exact safe_pure _

/-- A field that is set through the cache is set without fail. -/
theorem safe_setCachedField (site : Site) (r : Ref .object) (s : Symbol) (v : Value) :
    Safe (setCachedField site r s v) := by
  refine safe_config.bind fun c => ?_
  split
  · refine safe_heap.bind fun h => (safe_withWorld _).bind fun cache => safe_get.bind fun m => ?_
    dsimp only
    split
    · exact (safe_modify _).bind fun _ => (safe_modify _).bind fun _ => safe_pure _
    · exact (safe_modify _).bind fun _ => safe_pure _
  · exact safe_pure _

/-- A constant field is refused before anything is assigned. -/
theorem cautious_setObjectProperty (r : Ref .object) (name : Text) (v : Value) (site : Site) :
    Cautious (setObjectProperty r name v site) := by
  refine (quiet_intern name).before fun s => idle_heap.before fun h => ?_
  split
  · exact (idle_fail _).cautious
  refine Safe.cautious ((safe_setCachedField site r s v).bind fun hit => ?_)
  split
  · exact safe_pure _
  refine (safe_withWorld _).bind fun _ => safe_heap.bind fun h' => safe_get.bind fun m => ?_
  split
  · exact safe_rememberProperty _ _ _
  · exact safe_pure _

/-- A refused assignment has assigned nothing. -/
theorem cautious_setProperty (object : Value) (name : Text) (v : Value) (site : Site) :
    Cautious (setProperty object name v site) := by
  unfold setProperty
  split
  · exact cautious_setObjectProperty _ _ _ _
  · refine idle_heap.before fun h => ?_
    split
    · exact (safe_modifyHeap _).cautious
    · exact (idle_fail _).cautious
  · exact (safe_modifyHeap _).cautious
  · exact (idle_get.bind fun _ => idle_fail _).cautious

/-! ## Classes -/

theorem idle_classOnTop : Idle classOnTop := by
  refine idle_get.bind fun m => ?_
  split
  · exact idle_pure _
  · exact idle_fail _

theorem safe_republish (draft : Class) : Safe (republish draft) :=
  (safe_withWorld _).bind fun _ => Safe.bind (safe_get.bind fun _ => safe_modify _) fun _ => safe_pure _

theorem cautious_inherit : Cautious inherit := by
  refine quiet_pop.before fun v => ?_
  split
  · exact idle_classOnTop.before fun _ => idle_heap.before fun _ =>
      ((safe_republish _).bind fun _ => safe_pure _).cautious
  · exact (idle_get.bind fun _ => idle_fail _).cautious

theorem cautious_defineMethod (name : Text) (isStatic : Bool) : Cautious (defineMethod name isStatic) := by
  refine quiet_pop.before fun v => ?_
  split
  · exact idle_classOnTop.before fun _ => idle_heap.before fun _ =>
      ((safe_republish _).bind fun _ => safe_modifyHeap _).cautious
  · exact (idle_get.bind fun _ => idle_fail _).cautious

theorem cautious_defineField (name : Text) (isStatic isConst : Bool) :
    Cautious (defineField name isStatic isConst) := by
  refine quiet_pop.before fun initial => idle_classOnTop.before fun r => ?_
  split
  · exact (safe_modifyHeap _).cautious
  · exact idle_heap.before fun _ =>
      ((safe_withWorld _).bind fun _ => (safe_republish _).bind fun _ => safe_pure _).cautious

/-! ## Calls -/

theorem cautious_pushFrame (f : Frame) : Cautious (pushFrame f) := by
  refine idle_get.before fun m => ?_
  split
  · exact (idle_fail _).cautious
  · exact ((safe_withWorld _).bind fun _ => safe_modify _).cautious

/-- Arguments and limits are checked before the frame is pushed. -/
theorem cautious_callClosure (r : Ref .closure) (argc : Nat) (isConstructor : Bool) :
    Cautious (callClosure r argc isConstructor) := by
  refine idle_heap.before fun h => ?_
  dsimp only
  split
  · exact (idle_fail _).cautious
  refine (quiet_modify _).before fun _ => idle_get.before fun m => ?_
  split
  · exact (idle_fail _).cautious
  · exact cautious_pushFrame _

/-- The instance that a constructor refuses is known to nobody. -/
theorem cautious_instantiate (r : Ref .cls) (argc : Nat) : Cautious (instantiate r argc) := by
  refine (quiet_newObject r).before fun object => ?_
  refine idle_get.before fun m => (quiet_setSlot _ _).before fun _ => idle_heap.before fun h => ?_
  split
  · exact cautious_callClosure _ _ _
  · split
    · exact (idle_fail _).cautious
    · exact (idle_pure _).cautious

theorem quiet_reorder (callee : Value) (argc : Nat) : Quiet (reorder callee argc) := by
  refine (idle_peekMany argc).quiet.bind fun window => ?_
  split
  · refine idle_heap.quiet.bind fun h => ?_
    split
    · exact (idle_get.bind fun _ => idle_fail _).quiet
    · refine idle_get.quiet.bind fun m => ?_
      dsimp only
      split
      · exact (quiet_modify _).bind fun _ => (idle_pure _).quiet
      · exact (quiet_modify _).bind fun _ => (idle_fail _).quiet
  · exact (idle_pure _).quiet

/-! ## Native functions -/

theorem idle_expectObject (v : Value) : Idle (expectObject v) := by
  unfold expectObject
  split
  · exact idle_pure _
  · exact idle_fail _

theorem idle_expectClass (v : Value) : Idle (expectClass v) := by
  unfold expectClass
  split
  · exact idle_pure _
  · exact idle_fail _

theorem idle_expectString (v : Value) : Idle (expectString v) := by
  unfold expectString
  split
  · exact idle_pure _
  · exact idle_fail _

theorem safe_mapM {f : α → Exec β} (h : ∀ a, Safe (f a)) (as : List α) : Safe (as.mapM f) := by
  induction as with
  | nil => exact safe_pure _
  | cons a as ih =>
    rw [List.mapM_cons]
    exact (h a).bind fun _ => ih.bind fun _ => safe_pure _

theorem safe_classMembers (r : Ref .cls) : Safe (classMembers r) :=
  safe_heap.bind fun _ => (safe_mapM (fun _ => safe_newArray _) _).bind fun _ => safe_newArray _

/-- A native function that needs no call back checks its arguments first. -/
theorem cautious_plainNative {body : NativeBody} (machine : body ≠ .raise) (args : List Value) :
    Cautious (plainNative body args) := by
  refine idle_get.before fun m => ?_
  cases body with
  | args | pair => exact (safe_newArray _).cautious
  | fail => exact (idle_fail _).cautious
  | raise => exact absurd rfl machine
  | shape => exact ((idle_expectObject _).bind fun _ => idle_pure _).cautious
  | sealShape => exact (idle_expectObject _).before fun _ => ((safe_modify _).bind fun _ => safe_pure _).cautious
  | field => exact ((idle_expectObject _).bind fun _ => (idle_expectString _).bind fun _ => idle_pure _).cautious
  | table => exact ((idle_expectClass _).bind fun _ => idle_pure _).cautious
  | superOf => exact ((idle_expectClass _).bind fun _ => idle_pure _).cautious
  | isSubclass => exact ((idle_expectClass _).bind fun _ => (idle_expectClass _).bind fun _ => idle_pure _).cautious
  | members => exact (idle_expectClass _).before fun _ => (safe_classMembers _).cautious
  | valueMethod => exact (idle_expectString _).before fun _ => (safe_withHeap _).cautious
  | clearCaches => exact ((safe_modify _).bind fun _ => safe_pure _).cautious
  | _ => exact (idle_pure _).cautious

/-- What `raise` fails with has a place of its own. -/
theorem cautiousWith_raise (args : List Value) (m : Machine) :
    CautiousWith (some .raise) (plainNative .raise args) m where
  untouched f m' failed := by
    cases failed
    exact .refl m
  inPlace f m' failed := by
    cases failed
    exact .inr ⟨rfl, _, rfl⟩
  records v m' done := by cases done

/-- A global that is not there is an error, which is recorded at once. -/
theorem run_callNamed_of_missing {m : Machine} {name : Text} (args : List Value) (missing : m.globals.get? name = none) :
    (callNamed name args).run m =
      .ok (.value (.str (RuntimeError.report ⟨.undefinedVariable name, m.span⟩)))
        (m.recordError ⟨.undefinedVariable name, m.span⟩) := by
  unfold callNamed
  rw [run_bind_of_ok (run_get m), missing]
  rfl

theorem run_callNamed_of_found {m : Machine} {name : Text} (args : List Value) {callee : Value}
    (found : m.globals.get? name = some callee) :
    (callNamed name args).run m = .ok (.reenter (.call .callName callee args)) m := by
  unfold callNamed
  rw [run_bind_of_ok (run_get m), found]
  rfl

/-- A global that is not there is reported, and the function goes on. -/
theorem cautiousWith_callNamed (name : Text) (args : List Value) (m : Machine) :
    CautiousWith (some .callName) (callNamed name args) m := by
  cases found : m.globals.get? name with
  | some callee =>
    have run := run_callNamed_of_found args found
    refine ⟨fun f m' failed => ?_, fun f m' failed => ?_, fun v m' done => .inl ?_⟩
    · cases run.symm.trans failed
    · cases run.symm.trans failed
    · cases run.symm.trans done
      rfl
  | none =>
    have run := run_callNamed_of_missing args found
    refine ⟨fun f m' failed => ?_, fun f m' failed => ?_, fun v m' done => .inr ⟨rfl, name, found, ?_⟩⟩
    · cases run.symm.trans failed
    · cases run.symm.trans failed
    · cases run.symm.trans done
      rfl

theorem cautiousWith_runNative (body : NativeBody) (args : List Value) (m : Machine) :
    CautiousWith (some body) (runNative body args) m := by
  unfold runNative
  cases body with
  | apply | attempt =>
    cases args with
    | nil => exact (idle_fail _).cautious.with
    | cons callee rest => exact (idle_pure _).cautious.with
  | callName =>
    cases args with
    | nil => exact (idle_fail _).cautious.with
    | cons v rest => exact (idle_expectString v).quiet.beforeWith fun name m' _ => cautiousWith_callNamed name rest m'
  | raise => exact (cautiousWith_raise args m).before fun _ => safe_pure _
  | own => exact (idle_pure _).cautious.with
  | _ => exact ((cautious_plainNative (by simp) args).before fun _ => safe_pure _).with

theorem cautiousWith_callNative (r : Ref .native) (argc : Nat) (withReceiver : Bool) (m : Machine) :
    CautiousWith (some (m.heap.natives.get r).body) (callNative r argc withReceiver) m := by
  refine .read (run_heap m) ?_
  dsimp only
  split
  · exact (idle_fail _).cautious.with
  refine (quiet_popMany argc).beforeWith fun args m₁ _ => quiet_pop.beforeWith fun receiver m₂ _ => ?_
  refine (cautiousWith_runNative _ _ m₂).before fun answer => ?_
  split
  · exact (safe_push _).bind fun _ => safe_pure _
  · exact safe_pure _

end Exec

end ScriptVm
