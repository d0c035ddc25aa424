import ScriptVm.Proofs.Lockstep
import ScriptVm.Proofs.LogAgreement
import ScriptVm.Proofs.WorldRegular

/-!
# What the inline caches are used for

Reading a property gives what `readField` gives, which asks no cache, and assigning to one does
what `writeField` does. A property cache may lead anywhere: an offset counts only if the row has
the symbol there, and a row has every symbol once. A method cache has to be sound, and stays so.

`sidesAgree_congruence` puts this together: machines whose logs agree but for trace records and
whose method caches are right run in lockstep, with or without caches.
-/

set_option autoImplicit false

namespace ScriptVm

namespace Exec

open Machine World Logging

variable {α β : Type} {m : Machine}

/-- What has to hold for the caches to be of no consequence. -/
structure Sound (m : Machine) : Prop where
  regular : m.world.Regular
  methods : m.world.MethodCachesSound
  log : m.world.log.Capturing

/-- A property of an instance, without any cache. -/
def readField (r : Ref .object) (name : Text) : Exec Value := do
  let s ← intern name
  let m ← get
  let object := m.heap.objects.get r
  match object.fields.get m.world.shapes s with
  | some v => return v
  | none =>
    match m.heap.findMethod object.cls name with
    | some (method, _) => bindMethod (.object r) method.toValue
    | none => fail (.noSuchProperty (m.heap.classes.get object.cls).name name)

/-- An assignment to a field of an instance, without any cache. -/
def writeField (r : Ref .object) (name : Text) (v : Value) : Exec Unit := do
  let s ← intern name
  let h ← heap
  if h.isConstField (h.objects.get r).cls s then fail (.constantField name)
  else withWorld fun w => ((), w.setField r s v)

/-- `x` does on `m'` what `y` does on `m`, but for the side and trace records. -/
def Follows (x : Exec α) (m' : Machine) (y : Exec α) (m : Machine) : Prop :=
  ∃ s, x.run m' = sided (y.run m) s ∧ Agree (y.after m).world.log s.log

/-! ## Asking and filling the caches -/

/-- `m'` differs from `m` only in its side, and its log only in trace records. -/
structure Aside (m m' : Machine) : Prop where
  same : m' = m.withSide m'.side
  log : Agree m.world.log m'.world.log
  evolves : Evolves m.world m'.world

/-- Nothing has happened aside. -/
theorem Aside.refl (log : m.world.log.Capturing) : Aside m m := ⟨rfl, log.agree, .refl⟩

/-- What happens aside twice happens aside. -/
theorem Aside.trans {m₁ m₂ : Machine} (h : Aside m m₁) (h' : Aside m₁ m₂) : Aside m m₂ := by
  refine ⟨?_, h.log.trans h'.log, h.evolves.trans h'.evolves⟩
  rw [h'.same, h.same]
  rfl

/-- What happens aside keeps method caches right. -/
theorem Aside.sound {m' : Machine} (h : Aside m m') (sound : Sound m) : Sound m' :=
  ⟨h.evolves.regular sound.regular, h.evolves.methodCachesSound sound.regular sound.methods,
    h.log.capturing_right⟩

/-- A computation that gives a value with the property `P` and changes only the side. -/
def Looks (x : Exec α) (m : Machine) (P : α → Prop) : Prop :=
  ∃ a m', x.run m = .ok a m' ∧ Aside m m' ∧ P a

theorem looks_pure {P : α → Prop} {a : α} (log : m.world.log.Capturing) (h : P a) :
    Looks (Pure.pure a) m P := ⟨a, m, rfl, .refl log, h⟩

/-- Two looks, one after the other. -/
theorem Looks.bind {P : α → Prop} {Q : β → Prop} {x : Exec α} {f : α → Exec β} (first : Looks x m P)
    (next : ∀ a m', Aside m m' → P a → Looks (f a) m' Q) : Looks (x >>= f) m Q := by
  obtain ⟨a, m₁, run₁, aside₁, ha⟩ := first
  obtain ⟨c, m₂, run₂, aside₂, hc⟩ := next a m₁ aside₁ ha
  exact ⟨c, m₂, (run_bind_of_ok run₁).trans run₂, aside₁.trans aside₂, hc⟩

theorem looks_config (log : m.world.log.Capturing) : Looks config m fun _ => True :=
  ⟨m.config, m, rfl, .refl log, trivial⟩

theorem looks_count (log : m.world.log.Capturing) (f : CacheStats → CacheStats) :
    Looks (count f) m fun _ => True :=
  ⟨(), _, rfl, ⟨rfl, log.agree, .refl⟩, trivial⟩

/-- A record in the caches changes the side of the world only. -/
theorem recorded {w : World} (log : w.log.Capturing) (caches : CacheRegistry) (inserted : Bool) (site : Site)
    (k : CacheKey) :
    ∃ l, Agree w.log l ∧
      (if inserted then { w with caches } else World.noteRefused { w with caches } site k) =
        w.withSides caches l := by
  split
  · exact ⟨w.log, log.agree, rfl⟩
  · unfold noteRefused
    rw [note_eq]
    exact ⟨_, log.agree_trace _ _, rfl⟩

/-- A record of the caches, whatever it is. -/
theorem looks_record {f : World → α × World}
    (evolves : Evolves m.world (f m.world).2)
    (record : ∃ caches l, Agree m.world.log l ∧ (f m.world).2 = m.world.withSides caches l) :
    Looks (withWorld f) m fun _ => True := by
  obtain ⟨caches, l, agree, h⟩ := record
  refine ⟨_, _, run_withWorld f m, ⟨?_, ?_, evolves⟩, trivial⟩
  · rw [h]
    rfl
  · rw [h]
    exact agree

/-- Remembering a property happens aside. -/
theorem looks_rememberProperty (log : m.world.log.Capturing) (site : Site) (k : CacheKey) (offset : Nat) :
    Looks (rememberProperty site k offset) m fun _ => True := by
  refine (looks_config log).bind fun c m₁ a₁ _ => ?_
  have log₁ := a₁.log.capturing_right
  split
  · refine Looks.bind (P := fun _ => True) ?_ fun _ m₂ a₂ _ => looks_pure a₂.log.capturing_right trivial
    exact looks_record (evolves_recordProperty _ _ _ _) ⟨_, recorded log₁ _ _ site k⟩
  · exact looks_pure log₁ trivial

theorem looks_heap (log : m.world.log.Capturing) : Looks heap m fun h => h = m.heap :=
  ⟨m.heap, m, rfl, .refl log, rfl⟩

theorem Aside.heap {m' : Machine} (h : Aside m m') : m'.heap = m.heap := by
  rw [h.same]
  rfl

theorem Aside.shapes {m' : Machine} (h : Aside m m') : m'.world.shapes = m.world.shapes := by
  rw [h.same]
  rfl

/-- What a class finds is not a matter of the caches. -/
theorem Aside.finds {m' : Machine} (h : Aside m m') {k : CacheKey} {method : Value} :
    m'.world.Finds k method ↔ m.world.Finds k method := by
  rw [h.same]
  exact Iff.rfl

/-- A field that is found without the cache. -/
theorem looks_placedField (log : m.world.log.Capturing) (site : Site) (o : ShapedObject) (s : Symbol) :
    Looks (placedField site o s) m fun c => c = o.get m.world.shapes s := by
  have here : Looks (get : Exec Machine) m fun m' => m' = m := ⟨m, m, rfl, .refl log, rfl⟩
  refine here.bind fun m₀ m₁ a₁ h₀ => ?_
  subst h₀
  have log₁ := a₁.log.capturing_right
  unfold ShapedObject.get
  simp only
  cases ho : m₀.world.shapes.offset? o.shape s with
  | none => exact looks_pure log₁ rfl
  | some offset =>
    cases hf : o.fieldAt offset s with
    | none =>
      simp only [Option.bind_some, hf, Option.map_none]
      exact looks_pure log₁ rfl
    | some v =>
      simp only [Option.bind_some, hf, Option.map_some]
      refine (looks_rememberProperty log₁ _ _ _).bind fun _ m₂ a₂ _ => ?_
      exact looks_pure a₂.log.capturing_right rfl

/-- A method that the cache holds for a class is one that the class look-up gives. -/
theorem looks_cachedMethod (sound : Sound m) (site : Site) (s : Symbol) (cls : Ref .cls) :
    Looks (cachedMethod site ⟨s, (m.heap.classes.get cls).tableId⟩) m fun c =>
      ∀ method, c = some method → m.world.Finds ⟨s, (m.heap.classes.get cls).tableId⟩ method := by
  refine (looks_config sound.log).bind fun c m₁ a₁ _ => ?_
  have sound₁ := a₁.sound sound
  split
  · have opened : Looks (withCaches fun c => c.methodCache site) m₁
        fun c => ∀ found, c.lookup ⟨s, (m₁.heap.classes.get cls).tableId⟩ = some found →
          m₁.world.Finds ⟨s, (m₁.heap.classes.get cls).tableId⟩ found.method := by
      refine ⟨_, _, rfl, ⟨rfl, sound₁.log.agree, .single (.openMethods _ _)⟩, fun found h => ?_⟩
      cases known : m₁.world.caches.methods.get? site with
      | none =>
        rw [known] at h
        cases h
      | some cache =>
        rw [known] at h
        exact sound₁.methods.finds known h
    refine opened.bind fun cache m₂ a₂ hit => ?_
    have log₂ := a₂.log.capturing_right
    split
    next found hk =>
      refine (looks_count log₂ _).bind fun _ m₃ a₃ _ => looks_pure a₃.log.capturing_right fun method h => ?_
      cases h
      rw [a₁.heap] at hit
      exact a₁.finds.1 (hit found hk)
    next =>
      refine (looks_count log₂ _).bind fun _ m₃ a₃ _ => ?_
      exact looks_pure a₃.log.capturing_right fun v h => by cases h
  · exact looks_pure sound₁.log fun v h => by cases h

theorem looks_openProperties (log : m.world.log.Capturing) (site : Site) :
    Looks (withCaches fun c => c.propertyCache site) m fun _ => True :=
  ⟨_, _, rfl, ⟨rfl, log.agree, .single (.propertyCaches _ _)⟩, trivial⟩

/-- The field that a property cache leads to is in the row. -/
theorem looks_cachedField (log : m.world.log.Capturing) (site : Site) (o : ShapedObject) (s : Symbol) :
    Looks (cachedField site o s) m fun c => ∀ v, c = some v → ∃ k, o.fieldAt k s = some v := by
  refine (looks_config log).bind fun c m₁ a₁ _ => ?_
  split
  · refine (looks_openProperties a₁.log.capturing_right site).bind fun cache m₂ a₂ _ => ?_
    split
    next v hv =>
      obtain ⟨k, -, hk⟩ := Option.bind_eq_some_iff.1 hv
      refine (looks_count a₂.log.capturing_right _).bind fun _ m₃ a₃ _ => ?_
      refine looks_pure a₃.log.capturing_right fun v' h => ?_
      cases h
      exact ⟨k, hk⟩
    next =>
      refine (looks_count a₂.log.capturing_right _).bind fun _ m₃ a₃ _ => ?_
      exact looks_pure a₃.log.capturing_right fun v h => by cases h
  · exact looks_pure a₁.log.capturing_right fun v h => by cases h

/-- The method that the class look-up gives. -/
theorem looks_classMethod (log : m.world.log.Capturing) (site : Site) (cls : Ref .cls) {s : Symbol}
    {name : Text} (symbol : m.world.symbols.lookup name = some s) :
    Looks (classMethod site cls s name) m fun c =>
      c = (m.heap.findMethod cls name).map fun found => found.1.toValue := by
  refine (looks_heap log).bind fun h m₁ a₁ hh => ?_
  subst hh
  have log₁ := a₁.log.capturing_right
  cases found : m.heap.findMethod cls name with
  | none => exact looks_pure log₁ rfl
  | some x =>
    obtain ⟨method, owner⟩ := x
    simp only
    refine Looks.bind (P := fun _ => True) ?_ fun _ m₂ a₂ _ => looks_pure a₂.log.capturing_right rfl
    refine (looks_config log₁).bind fun c m₂ a₂ _ => ?_
    have log₂ := a₂.log.capturing_right
    have aside := a₁.trans a₂
    split
    · refine Looks.bind (P := fun _ => True) ?_ fun _ m₃ a₃ _ => looks_pure a₃.log.capturing_right trivial
      refine looks_record ?_ ⟨_, recorded log₂ _ _ site _⟩
      rw [← aside.heap] at found ⊢
      exact evolves_recordMethod _ site (aside.evolves.lookup symbol) found
    · exact looks_pure log₂ trivial

/-! ## Reading and writing -/

/-- A look before a computation does not show in what it does. -/
theorem Looks.follows {P : α → Prop} {x : Exec α} {f : α → Exec β} {y : Exec β} {m' : Machine}
    (first : Looks x m' P) (next : ∀ a m₁, Aside m' m₁ → P a → Follows (f a) m₁ y m) :
    Follows (x >>= f) m' y m := by
  obtain ⟨a, m₁, run, aside, ha⟩ := first
  unfold Follows
  rw [run_bind_of_ok run]
  exact next a m₁ aside ha

theorem follows_first {x : Exec α} {f g : α → Exec β} {a : α} {m₁ : Machine} (run : x.run m = .ok a m₁)
    (next : Follows (f a) m₁ (g a) m₁) : Follows (x >>= f) m (x >>= g) m := by
  unfold Follows
  rw [run_bind_of_ok run, run_bind_of_ok run, after_bind run]
  exact next

theorem Aside.follows_pure {m' : Machine} (h : Aside m m') (a : α) :
    Follows (Pure.pure a) m' (Pure.pure a) m :=
  ⟨m'.side, congrArg (EStateM.Result.ok a) h.same, h.log⟩

theorem Aside.follows_fail {m' : Machine} (h : Aside m m') (c : Cause) :
    Follows (fail c : Exec α) m' (fail c) m := by
  refine ⟨m'.side, ?_, h.log⟩
  rw [h.same]
  rfl

/-- Binding a method does the same after what happened aside. -/
theorem Aside.follows_bindMethod {m' : Machine} (h : Aside m m') (receiver method : Value) :
    Follows (bindMethod receiver method) m' (bindMethod receiver method) m := by
  refine ⟨m'.side, ?_, ?_⟩
  · rw [h.same]
    unfold bindMethod
    rw [run_withWorld, run_withWorld]
    unfold World.bind
    split <;> rfl
  · have kept : ((bindMethod receiver method).after m).world.log = m.world.log := by
      unfold bindMethod
      rw [after_of_ok (run_withWorld _ m)]
      show (World.bind m.world receiver method).2.log = m.world.log
      unfold World.bind
      split <;> rfl
    rw [kept]
    exact h.log

/-- A new symbol leaves method caches right. -/
theorem Sound.intern (sound : Sound m) (name : Text) :
    ∃ m₁, (intern name).run m = .ok (m.world.intern name).1 m₁ ∧ Sound m₁ ∧
      m₁.world.symbols.lookup name = some (m.world.intern name).1 := by
  refine ⟨_, rfl, ⟨sound.regular.intern name, ?_, sound.log⟩, lookup_of_intern rfl⟩
  exact (Change.intern m.world name).methodCachesSound sound.regular sound.methods

/-- Reading a property asks the caches to no effect. -/
theorem follows_getObjectProperty (sound : Sound m) (r : Ref .object) (name : Text) (site : Site) :
    Follows (getObjectProperty r name site) m (readField r name) m := by
  obtain ⟨m₁, run, sound₁, symbol⟩ := sound.intern name
  refine follows_first run ?_
  have fits : ShapedObject.Fits m₁.world.shapes (m₁.heap.objects.get r).fields := sound₁.regular.rows r
  refine (looks_heap sound₁.log).follows fun h m₂ a₂ hh => ?_
  subst hh
  refine (looks_cachedField a₂.log.capturing_right site _ _).follows fun field m₃ a₃ hit => ?_
  have aside₃ := a₂.trans a₃
  change Follows _ _ (match ShapedObject.get _ m₁.world.shapes _ with | some v => _ | none => _) m₁
  cases field with
  | some v =>
    obtain ⟨k, hk⟩ := hit v rfl
    rw [(fits.get_eq _).trans (fits.fieldAt_eq hk)]
    exact aside₃.follows_pure v
  | none =>
    refine (looks_placedField aside₃.log.capturing_right site _ _).follows fun placed m₄ a₄ hp => ?_
    have aside₄ := aside₃.trans a₄
    rw [aside₃.shapes] at hp
    subst hp
    cases (m₁.heap.objects.get r).fields.get m₁.world.shapes (m.world.intern name).1 with
    | some v => exact aside₄.follows_pure v
    | none =>
      refine (looks_heap aside₄.log.capturing_right).follows fun h m₅ a₅ hh => ?_
      have aside₅ := aside₄.trans a₅
      rw [aside₄.heap] at hh
      subst hh
      have cached := looks_cachedMethod (aside₅.sound sound₁) site (m.world.intern name).1 (m₁.heap.objects.get r).cls
      rw [aside₅.heap] at cached
      refine cached.follows fun cached m₆ a₆ hit => ?_
      have aside₆ := aside₅.trans a₆
      cases cached with
      | some method =>
        have finds := aside₅.finds.1 (hit method rfl)
        obtain ⟨found, owner, look, rfl⟩ := sound₁.regular.finds_unique symbol finds
        have look : m₁.heap.findMethod (m₁.heap.objects.get r).cls name = some (found, owner) := look
        rw [look]
        exact aside₆.follows_bindMethod _ _
      | none =>
        have symbol₆ := aside₆.evolves.lookup symbol
        refine (looks_classMethod aside₆.log.capturing_right site _ symbol₆).follows fun found m₇ a₇ hf => ?_
        have aside₇ := aside₆.trans a₇
        rw [aside₆.heap] at hf
        subst hf
        cases m₁.heap.findMethod (m₁.heap.objects.get r).cls name with
        | some found => exact aside₇.follows_bindMethod _ _
        | none => exact aside₇.follows_fail _

theorem follows_of_looks {x y : Exec Unit} {m₁ m₂ : Machine} (run : y.run m = .ok () m₁)
    (same : m₂ = m₁.withSide m₂.side) (log : Agree m₁.world.log m₂.world.log)
    (looks : Looks x m₂ fun _ => True) : Follows x m₂ y m := by
  obtain ⟨_, m₃, runx, aside, -⟩ := looks
  refine ⟨m₃.side, ?_, ?_⟩
  · rw [runx, run, aside.same, same]
    rfl
  · rw [after_of_ok run]
    exact log.trans aside.log

/-- The machine with a field set. -/
def withField (m : Machine) (r : Ref .object) (s : Symbol) (v : Value) : Machine :=
  { m with world := m.world.setField r s v }

/-- Setting a field does not look at the side. -/
theorem withField_withSide (m : Machine) (t : Side) (r : Ref .object) (s : Symbol) (v : Value) :
    ∃ es, withField (m.withSide t) r s v =
        (withField m r s v).withSide { t with log := t.log.hearAll es } ∧
      (withField m r s v).world.log = m.world.log.hearAll es := by
  unfold withField
  simp only [setField_eq]
  exact ⟨_, rfl, rfl⟩

/-- A write through the cache sets the field; where the cache is of no help, only the side
changes. -/
theorem setCachedField_cases (sound : Sound m) (site : Site) (r : Ref .object) (s : Symbol) (v : Value) :
    (∃ m', (setCachedField site r s v).run m = .ok true m' ∧
        m' = (withField m r s v).withSide m'.side ∧ Agree (withField m r s v).world.log m'.world.log) ∨
      ∃ m', (setCachedField site r s v).run m = .ok false m' ∧ Aside m m' := by
  cases use : m.config.useCaches with
  | false => exact .inr ⟨m, run_setCachedField_off site r s v use, .refl sound.log⟩
  | true =>
    rw [run_setCachedField_on site r s v use]
    split
    next w hw =>
      obtain ⟨offset, -, hw⟩ := Option.bind_eq_some_iff.1 hw
      obtain ⟨fields, written, rfl⟩ := (setFieldAt?_eq_some_iff ..).1 hw
      have set := (sound.regular.rows r).set_of_setFieldAt? written
      have field : m.world.setField r s v =
          { m.world with
            heap := { m.world.heap with
              objects := m.world.heap.objects.set r { m.world.heap.objects.get r with fields } } } := by
        rw [setField_eq]
        simp only [set]
        rfl
      refine .inl ⟨_, rfl, ?_, ?_⟩
      · rw [withField, field]
        rfl
      · rw [withField, field]
        exact sound.log.agree
    next =>
      exact .inr ⟨_, rfl, rfl, sound.log.agree, .single (.propertyCaches _ _)⟩

/-- Assigning to a property asks the caches to no effect. -/
theorem follows_setObjectProperty (sound : Sound m) (r : Ref .object) (name : Text) (v : Value) (site : Site) :
    Follows (setObjectProperty r name v site) m (writeField r name v) m := by
  obtain ⟨m₁, run, sound₁, symbol⟩ := sound.intern name
  refine follows_first run (follows_first (run_heap m₁) ?_)
  split
  · exact (Aside.refl sound₁.log).follows_fail _
  · have set : (withWorld fun w => ((), w.setField r (m.world.intern name).1 v)).run m₁ =
        .ok () (withField m₁ r (m.world.intern name).1 v) := rfl
    rcases setCachedField_cases sound₁ site r (m.world.intern name).1 v with
      ⟨m₂, run₂, same, log⟩ | ⟨m₂, run₂, aside⟩
    · unfold Follows
      rw [run_bind_of_ok run₂]
      exact follows_of_looks set same log (looks_pure log.capturing_right trivial)
    · unfold Follows
      rw [run_bind_of_ok run₂, if_neg Bool.false_ne_true]
      have set₂ : (withWorld fun w => ((), w.setField r (m.world.intern name).1 v)).run m₂ =
          .ok () (withField m₂ r (m.world.intern name).1 v) := rfl
      rw [run_bind_of_ok set₂]
      obtain ⟨t, rfl⟩ : ∃ t, m₂ = m₁.withSide t := ⟨_, aside.same⟩
      obtain ⟨es, same, heard⟩ := withField_withSide m₁ t r (m.world.intern name).1 v
      have log : Agree (withField m₁ r (m.world.intern name).1 v).world.log
          (withField (m₁.withSide t) r (m.world.intern name).1 v).world.log := by
        rw [same, heard]
        exact aside.log.hearAll es
      have same : withField (m₁.withSide t) r (m.world.intern name).1 v =
          (withField m₁ r (m.world.intern name).1 v).withSide
            (withField (m₁.withSide t) r (m.world.intern name).1 v).side := by
        rw [same]
        rfl
      refine follows_of_looks set same log ?_
      refine (looks_heap log.capturing_right).bind fun h m₃ a₃ _ => ?_
      have here : Looks (get : Exec Machine) m₃ fun _ => True :=
        ⟨m₃, m₃, rfl, .refl a₃.log.capturing_right, trivial⟩
      refine here.bind fun m₄ m₅ a₅ _ => ?_
      split
      · exact looks_rememberProperty a₅.log.capturing_right _ _ _
      · exact looks_pure a₅.log.capturing_right trivial

/-! ## Lockstep -/

/-- Two machines that may run in lockstep, one of them given by its side. -/
structure SidesAgree (m : Machine) (s : Side) : Prop where
  regular : m.world.Regular
  methods : m.world.MethodCachesRight
  others : (m.withSide s).world.MethodCachesRight
  log : Agree m.world.log s.log

/-- Sides that agree are sound on the one machine. -/
theorem SidesAgree.sound {s : Side} (h : SidesAgree m s) : Sound m :=
  ⟨h.regular, h.methods.sound h.regular, h.log.capturing⟩

/-- And on the other. -/
theorem SidesAgree.sound_other {s : Side} (h : SidesAgree m s) : Sound (m.withSide s) :=
  have regular : (m.withSide s).world.Regular :=
    ⟨h.regular.symbols, h.regular.shapes, h.regular.rows, h.regular.tables, h.regular.distinct⟩
  ⟨regular, h.others.sound regular, h.log.capturing_right⟩

theorem sidesAgree_worldCongruence : WorldCongruence SidesAgree where
  control {m m' s} world config stats h := by
    obtain ⟨regular, methods, others, log⟩ := h
    have other : (m'.withSide s).world = (m.withSide s).world := by
      unfold Machine.withSide
      rw [world]
    exact ⟨world ▸ regular, world ▸ methods, other ▸ others, world ▸ log⟩
  cells cells h :=
    ⟨⟨h.regular.symbols, h.regular.shapes, h.regular.rows, h.regular.tables, h.regular.distinct⟩,
      h.methods.congr rfl rfl rfl, h.others.congr rfl rfl rfl, h.log⟩
  world {m s w es} h evolves caches log evolves' := by
    refine ⟨evolves.regular h.regular, evolves.methodCachesRight h.methods, ?_, ?_⟩
    · exact evolves'.methodCachesRight h.others
    · show Agree w.log (s.log.hearAll es)
      rw [log]
      exact h.log.hearAll es

/-- Reading a field without a cache does not look at the side. -/
theorem alike_readField (r : Ref .object) (name : Text) : Alike SidesAgree (readField r name) m := by
  have hR := sidesAgree_worldCongruence
  refine (alike_withWorld hR (blind_intern _ name)).bind fun s m₁ _ => .read (fun _ => rfl) ?_
  simp only
  split
  · exact alike_pure _
  split
  · exact alike_withWorld hR (blind_bind _ _ _)
  · exact .read (fun _ => rfl) (alike_raise _)

/-- Nor does writing one. -/
theorem alike_writeField (r : Ref .object) (name : Text) (v : Value) :
    Alike SidesAgree (writeField r name v) m := by
  have hR := sidesAgree_worldCongruence
  refine (alike_withWorld hR (blind_intern _ name)).bind fun s m₁ _ => ?_
  refine Alike.bind (.read (fun _ => rfl) (alike_pure _)) fun h m₂ run => ?_
  obtain ⟨rfl, rfl⟩ := EStateM.Result.ok.inj ((run_heap m₁).symm.trans run)
  split
  · exact .read (fun _ => rfl) (alike_raise _)
  next writable => exact alike_withWorld hR (blind_setField _ v (Bool.eq_false_iff.2 writable))

/-- A computation that follows one that does not look at the side. -/
theorem alike_of_follows {x y : Exec α} (plain : Plain true 0 x m) (plain' : ∀ s, Plain true 0 x (m.withSide s))
    (follows : ∀ m, Sound m → Follows x m y m) (alike : Alike SidesAgree y m) : Alike SidesAgree x m := by
  intro s hs
  obtain ⟨s₁, run₁, log₁⟩ := follows m hs.sound
  obtain ⟨s₂, run₂, log₂⟩ := follows (m.withSide s) hs.sound_other
  obtain ⟨s', run, hs'⟩ := alike s hs
  have after₁ : x.after m = (y.after m).withSide s₁ := by
    unfold after
    rw [run₁]
    cases y.run m <;> rfl
  have after' : y.after (m.withSide s) = (y.after m).withSide s' := by
    unfold after
    rw [run]
    cases y.run m <;> rfl
  have after₂ : x.after (m.withSide s) = (y.after m).withSide s₂ := by
    unfold after
    rw [run₂, run]
    cases y.run m <;> rfl
  refine ⟨s₂, ?_, ?_⟩
  · rw [run₂, run, run₁]
    cases y.run m <;> rfl
  · have evolves := plain.keeps.world
    have evolves' := (plain' s).keeps.world
    rw [after₂] at evolves'
    rw [after'] at log₂
    refine ⟨evolves.regular hs.regular, evolves.methodCachesRight hs.methods, ?_, ?_⟩
    · rw [after₁]
      exact evolves'.methodCachesRight hs.others
    · rw [after₁]
      exact log₁.symm.trans (hs'.log.trans log₂)

theorem alike_constantName {R : Machine → Side → Prop} (i : Nat) : Alike R (constantName i) m := by
  have frame : ∀ m, Alike R frame m := fun m => .read (fun _ => rfl) (alike_pure _)
  have proto : ∀ m, Alike R proto m := fun m => (frame m).bind fun f m' _ => .read (fun _ => rfl) (alike_pure _)
  refine Alike.bind ((proto m).bind fun p m₁ _ => ?_) fun k m₂ _ => ?_
  · split
    · exact alike_pure _
    · exact alike_raise _
  · split
    · exact alike_pure _
    · exact .read (fun _ => rfl) (alike_raise _)

/-- Whether a module is named to the log depends on settings that agree. -/
theorem alike_importModule (i : Nat) : Alike SidesAgree (importModule i) m := by
  intro s hs
  have enabled : (m.withSide s).world.log.enabled "vm" .debug = m.world.log.enabled "vm" .debug :=
    hs.log.enabled "vm" .debug
  unfold importModule Exec.after
  rw [run_bind_of_ok (run_get _), run_bind_of_ok (run_get _), enabled]
  split
  · refine ((alike_constantName i).bind fun name m₁ _ => ?_) s hs
    exact alike_withWorld sidesAgree_worldCongruence (blind_note _ _ _ _)
  · exact alike_pure () s hs

/-- Machines whose logs agree and whose method caches are right run in lockstep. -/
theorem sidesAgree_congruence : Congruence SidesAgree where
  toWorldCongruence := sidesAgree_worldCongruence
  use m side := by
    cases side with
    | read r name site =>
      exact alike_of_follows (plain_getObjectProperty r name site)
        (fun s => plain_getObjectProperty r name site)
        (fun m sound => follows_getObjectProperty sound r name site) (alike_readField r name)
    | write r name v site =>
      exact alike_of_follows (plain_setObjectProperty r name v site)
        (fun s => plain_setObjectProperty r name v site)
        (fun m sound => follows_setObjectProperty sound r name v site) (alike_writeField r name v)
    | clear =>
      intro s hs
      have own := Change.clearCaches m.world
      have other := Change.clearCaches (m.withSide s).world
      exact ⟨{ s with caches := s.caches.clear }, rfl,
        own.regular hs.regular, own.methodCachesRight hs.methods, other.methodCachesRight hs.others, hs.log⟩
    | importing i => exact alike_importModule i

end Exec

end ScriptVm
