import Mathlib.Data.List.DropRight
import ScriptVm.Cache
import ScriptVm.Proofs.ShapedObject
import ScriptVm.Proofs.Transcripts

/-!
# What inline caches hold

An insertion updates a key that is in the cache, takes a new one if there is room, and is refused otherwise
(`Cache.insert_cases`). So a cache can be read off the history of its insertions: it has the first four keys, in the
order in which they came first, each with the value that was inserted last (`Cache.Recalls`).

In the registry the same holds of each call site apart, for the history of what was recorded there since all caches were
last cleared. Taking a snapshot leaves every history as it is.
-/

set_option autoImplicit false

namespace ScriptVm

namespace Assoc

variable {κ ν : Type} [DecidableEq κ] {k : κ} {v : ν} {es : List (κ × ν)}

theorem find_eq_none_iff : find k es = none ↔ k ∉ es.map Prod.fst := by
  induction es with
  | nil => simp [find]
  | cons e rest ih =>
    by_cases h : e.1 = k
    · simp [find, h]
    · simp [find, h, Ne.symm h, ih]

/-- Among distinct keys, a look-up finds the value of the entry. -/
theorem find_eq_some_iff (hd : (es.map Prod.fst).Nodup) : find k es = some v ↔ (k, v) ∈ es := by
  constructor
  · intro found
    rw [find_eq_find?, Option.map_eq_some_iff] at found
    obtain ⟨⟨k', v'⟩, there, rfl⟩ := found
    have same : k' = k := by simpa using List.find?_some there
    rw [← same]
    exact List.mem_of_find?_eq_some there
  · intro mem
    obtain ⟨i, here⟩ := List.mem_iff_getElem?.1 mem
    exact find_of_getElem? hd here

/-- Putting the value that is there changes nothing. -/
theorem put_of_find (h : find k es = some v) : put k v es = es := by
  induction es with
  | nil => cases h
  | cons e rest ih =>
    obtain ⟨a, w⟩ := e
    by_cases same : a = k
    · simp_all [find, put]
    · simp_all [find, put]

/-- Among distinct keys, the entries are what a look-up of each key finds. -/
theorem filterMap_find (hd : (es.map Prod.fst).Nodup) :
    ((es.map Prod.fst).filterMap fun k => (find k es).map fun v => (k, v)) = es := by
  induction es with
  | nil => rfl
  | cons e rest ih =>
    obtain ⟨a, w⟩ := e
    rw [List.map_cons, List.nodup_cons] at hd
    have behind : (rest.map Prod.fst).filterMap (fun k => (find k ((a, w) :: rest)).map fun v => (k, v)) = rest := by
      apply Eq.trans _ (ih hd.2)
      apply List.filterMap_congr
      intro k mem
      have other : a ≠ k := fun same => hd.1 (same ▸ mem)
      rw [find, if_neg other]
    rw [List.map_cons, List.filterMap_cons, behind]
    simp [find]

end Assoc

namespace Cache

variable {α : Type} {c : Cache α} {h : List (CacheKey × α)} {k k' : CacheKey} {a : α} {n : Nat}

/-! ## Histories of insertions -/

/-- The keys of a history in the order in which they came first, as many as a cache takes. -/
def firstKeys (h : List (CacheKey × α)) : List CacheKey := (h.map Prod.fst).eraseDups.take capacity

/-- The value that came last for a key. -/
def lastFor (h : List (CacheKey × α)) (k : CacheKey) : Option α :=
  (h.reverse.find? fun e => e.1 = k).map Prod.snd

/-- The first keys, each with its last value. -/
def recalled (h : List (CacheKey × α)) : List (CacheKey × α) :=
  (firstKeys h).filterMap fun k => (lastFor h k).map fun a => (k, a)

/-- The latest insertion decides for its key. -/
theorem lastFor_concat (h : List (CacheKey × α)) (k : CacheKey) (a : α) (k' : CacheKey) :
    lastFor (h ++ [(k, a)]) k' = if k = k' then some a else lastFor h k' := by
  by_cases same : k = k' <;> simp [lastFor, same]

/-- No key comes first twice. -/
theorem nodup_firstKeys (h : List (CacheKey × α)) : (firstKeys h).Nodup :=
  (List.take_sublist _ _).nodup (nodup_eraseDups _)

theorem mem_keys_of_mem_firstKeys (mem : k ∈ firstKeys h) : k ∈ h.map Prod.fst :=
  List.mem_eraseDups.1 (List.mem_of_mem_take mem)

/-- A key that has come is among the first keys of a longer history only if it has been before. -/
theorem mem_firstKeys_append (later : List (CacheKey × α)) (mem : k ∈ h.map Prod.fst) :
    k ∈ firstKeys (h ++ later) ↔ k ∈ firstKeys h := by
  have distinct := nodup_eraseDups ((h ++ later).map Prod.fst)
  unfold firstKeys
  rw [List.map_append, List.eraseDups_append] at distinct ⊢
  rw [List.take_append, List.mem_append]
  constructor
  · rintro (first | behind)
    · exact first
    · have apart := (List.nodup_append.1 distinct).2.2 k (List.mem_eraseDups.2 mem) k (List.mem_of_mem_take behind)
      exact absurd rfl apart
  · intro first
    exact .inl first

/-- A known key does not come first again. -/
theorem firstKeys_of_mem (mem : k ∈ firstKeys h) (a : α) : firstKeys (h ++ [(k, a)]) = firstKeys h := by
  unfold firstKeys
  rw [List.map_append, List.map_singleton, eraseDups_concat, if_pos (mem_keys_of_mem_firstKeys mem), List.append_nil]

/-- Nothing comes into a full cache. -/
theorem firstKeys_of_full (full : capacity ≤ (firstKeys h).length) (later : List (CacheKey × α)) :
    firstKeys (h ++ later) = firstKeys h := by
  unfold firstKeys at full ⊢
  rw [List.length_take] at full
  rw [List.map_append, List.eraseDups_append, List.take_append_of_le_length (by omega)]

/-- A new key comes into a cache with room. -/
theorem firstKeys_of_room (room : (firstKeys h).length < capacity) (new : k ∉ firstKeys h) (a : α) :
    firstKeys (h ++ [(k, a)]) = firstKeys h ++ [k] := by
  unfold firstKeys at room new ⊢
  rw [List.length_take] at room
  -- there are no more keys than the first ones
  have all : ((h.map Prod.fst).eraseDups.take capacity) = (h.map Prod.fst).eraseDups := List.take_of_length_le (by omega)
  rw [all, List.mem_eraseDups] at new
  rw [all, List.map_append, List.map_singleton, eraseDups_concat, if_neg new, List.take_of_length_le]
  rw [List.length_append, List.length_singleton]
  omega

/-! ## Insertions -/

theorem lookup_eq_none_iff : c.lookup k = none ↔ k ∉ c.entries.map Prod.fst := Assoc.find_eq_none_iff

/-- What inserting a value can do: update the key, append it, or refuse it. -/
theorem insert_cases (c : Cache α) (k : CacheKey) (a : α) :
    (k ∈ c.entries.map Prod.fst ∧ c.insert k a = (true, ⟨Assoc.put k a c.entries⟩)) ∨
    (k ∉ c.entries.map Prod.fst ∧ c.entries.length < capacity ∧
      c.insert k a = (true, ⟨Assoc.put k a c.entries⟩)) ∨
    (k ∉ c.entries.map Prod.fst ∧ capacity ≤ c.entries.length ∧ c.insert k a = (false, c)) := by
  unfold insert size
  cases found : c.lookup k with
  | some b =>
    left
    refine ⟨?_, by simp⟩
    by_contra absent
    rw [lookup_eq_none_iff.2 absent] at found
    cases found
  | none =>
    right
    have absent := lookup_eq_none_iff.1 found
    by_cases room : c.entries.length < capacity
    · left
      exact ⟨absent, room, by simp [room]⟩
    · right
      exact ⟨absent, Nat.le_of_not_lt room, by simp [room]⟩

/-- The cache has the first keys of the history, each with the value that came last. -/
structure Recalls (c : Cache α) (h : List (CacheKey × α)) : Prop where
  keys : c.entries.map Prod.fst = firstKeys h
  values : ∀ k ∈ firstKeys h, c.lookup k = lastFor h k

/-- A new cache has heard nothing. -/
theorem recalls_empty : Recalls ({} : Cache α) [] := by
  constructor
  · rfl
  · intro k mem
    cases mem

namespace Recalls

/-- A cache has as many entries as there are first keys. -/
theorem length_eq (r : c.Recalls h) : c.entries.length = (firstKeys h).length := by
  rw [← r.keys, List.length_map]

/-- A look-up gives what was inserted last for a first key, and nothing for another. -/
theorem lookup_eq (r : c.Recalls h) (k : CacheKey) :
    c.lookup k = if k ∈ firstKeys h then lastFor h k else none := by
  split
  next mem => exact r.values k mem
  next other => exact lookup_eq_none_iff.2 (r.keys ▸ other)

/-- A cache has every key once. -/
theorem distinct (r : c.Recalls h) : (c.entries.map Prod.fst).Nodup := r.keys ▸ nodup_firstKeys h

/-- The entries are the first keys with their latest values. -/
theorem entries_eq (r : c.Recalls h) : c.entries = recalled h := by
  rw [← Assoc.filterMap_find r.distinct, r.keys]
  apply List.filterMap_congr
  intro k mem
  exact congrArg _ (r.values k mem)

/-- A history says all there is about a cache. -/
theorem eq_mk (r : c.Recalls h) : c = ⟨recalled h⟩ := by
  rw [← r.entries_eq]

/-- A value that is put under a key is the last one of this key. -/
theorem put (r : c.Recalls h) (k : CacheKey) (a : α)
    (keys : (Assoc.put k a c.entries).map Prod.fst = firstKeys (h ++ [(k, a)])) :
    Recalls ⟨Assoc.put k a c.entries⟩ (h ++ [(k, a)]) := by
  refine ⟨keys, ?_⟩
  intro k' mem
  have found : Cache.lookup ⟨Assoc.put k a c.entries⟩ k' = if k = k' then some a else c.lookup k' :=
    Assoc.find_put k k' a c.entries
  rw [found, lastFor_concat]
  split
  · rfl
  next other =>
    apply r.values
    rw [← keys, Assoc.map_fst_put, List.mem_append, r.keys] at mem
    rcases mem with old | new
    · exact old
    · split at new
      · cases new
      · exact absurd (List.mem_singleton.1 new).symm other

/-- An insertion is answered by whether the key is among the first ones, and refused without a trace if it is not. -/
theorem insert (r : c.Recalls h) (k : CacheKey) (a : α) :
    (c.insert k a).2.Recalls (h ++ [(k, a)]) ∧ (c.insert k a).1 = decide (k ∈ firstKeys (h ++ [(k, a)])) ∧
      ((c.insert k a).1 = false → (c.insert k a).2 = c) := by
  have putKeys := Assoc.map_fst_put k a c.entries
  rcases insert_cases c k a with ⟨mem, done⟩ | ⟨new, room, done⟩ | ⟨new, full, done⟩ <;> rw [done]
  · rw [if_pos mem, List.append_nil] at putKeys
    rw [r.keys] at putKeys mem
    have same := firstKeys_of_mem mem a
    exact ⟨r.put k a (by rw [putKeys, same]), by simp [same, mem], fun refused => by cases refused⟩
  · rw [if_neg new] at putKeys
    rw [r.length_eq] at room
    rw [r.keys] at putKeys new
    have added := firstKeys_of_room room new a
    exact ⟨r.put k a (by rw [putKeys, added]), by simp [added], fun refused => by cases refused⟩
  · rw [r.length_eq] at full
    rw [r.keys] at new
    have same := firstKeys_of_full full [(k, a)]
    refine ⟨⟨by rw [same, r.keys], ?_⟩, by simp [same, new], fun _ => rfl⟩
    intro k' mem
    rw [same] at mem
    have other : k ≠ k' := fun e => new (e ▸ mem)
    rw [r.values k' mem, lastFor_concat, if_neg other]

end Recalls

/-- The answer to an insertion and the cache behind it. -/
def serve (c : Cache α) (e : CacheKey × α) : Bool × Cache α := c.insert e.1 e.2

/-- The cache after insertions into the empty one. -/
def after (h : List (CacheKey × α)) : Cache α := Transcript.after serve {} h

/-- The answers to insertions into the empty cache. -/
def answers (h : List (CacheKey × α)) : List Bool := Transcript.answers serve {} h

/-- A cache recalls its own insertions. -/
theorem recalls_after (h : List (CacheKey × α)) : (after h).Recalls h :=
  Transcript.induct (P := fun h c => Recalls c h) recalls_empty (fun _ e r => (r.insert e.1 e.2).1) h

/-- An insertion is accepted if its key is one of the first. -/
theorem answer_eq (here : h[n]? = some (k, a)) : (answers h)[n]? = some (decide (k ∈ firstKeys h)) := by
  have answer : (answers h)[n]? = some ((after (h.take n)).insert k a).1 := Transcript.answer_eq here
  have take : h.take (n + 1) = h.take n ++ [(k, a)] := by rw [List.take_add_one, here]; rfl
  have come : k ∈ (h.take (n + 1)).map Prod.fst := by simp [take]
  have still := mem_firstKeys_append (h.drop (n + 1)) come
  rw [List.take_append_drop] at still
  rw [answer, ((recalls_after (h.take n)).insert k a).2.1, ← take, decide_eq_decide.2 still]

/-- A refused insertion leaves the cache as it was. -/
theorem after_of_refused (here : h[n]? = some (k, a)) (refused : k ∉ firstKeys h) :
    after (h.take (n + 1)) = after (h.take n) := by
  have answer : (answers h)[n]? = some ((after (h.take n)).insert k a).1 := Transcript.answer_eq here
  have next : after (h.take (n + 1)) = ((after (h.take n)).insert k a).2 := Transcript.after_take here
  rw [answer_eq here, Option.some_inj, decide_eq_false refused] at answer
  rw [next, ((recalls_after (h.take n)).insert k a).2.2 answer.symm]

end Cache

namespace CacheRegistry

/-! ## One family of caches -/

section

variable {α : Type} {family : Assoc Site (Cache α)} {history : Site → List (CacheKey × α)} {site : Site}

/-- The cache of each site has what its own history left. -/
def Recalls (family : Assoc Site (Cache α)) (history : Site → List (CacheKey × α)) : Prop :=
  ∀ site, ((family.get? site).getD {}).Recalls (history site)

theorem recalls_empty : Recalls (Assoc.empty : Assoc Site (Cache α)) fun _ => [] := fun _ => Cache.recalls_empty

/-- A snapshot is what the history of the site left, and taking it changes no history. -/
theorem Recalls.opened (r : Recalls family history) (site : Site) :
    (opened family site).1 = ⟨Cache.recalled (history site)⟩ ∧ Recalls (opened family site).2 history := by
  unfold CacheRegistry.opened
  cases known : family.get? site with
  | some c =>
    have here := r site
    rw [known] at here
    exact ⟨here.eq_mk, r⟩
  | none =>
    have here := r site
    rw [known] at here
    refine ⟨here.eq_mk, ?_⟩
    intro other
    have there := r other
    by_cases same : site = other
    · subst same
      rw [known] at there
      simpa [Assoc.get?_insert] using there
    · simpa [Assoc.get?_insert, same] using there

/-- A record goes into the history of its site and no other. It is answered by whether the key is among the first ones
there, and refused without a trace if it is not. -/
theorem Recalls.record (r : Recalls family history) (site : Site) (k : CacheKey) (a : α) :
    Recalls (record family site k a).2
      (fun s => history s ++ if s = site then [(k, a)] else []) ∧
    (record family site k a).1 = decide (k ∈ Cache.firstKeys (history site ++ [(k, a)])) ∧
    ((record family site k a).1 = false → (record family site k a).2 = family) := by
  obtain ⟨held, answer, refused⟩ := (r site).insert k a
  unfold CacheRegistry.record
  refine ⟨?_, answer, ?_⟩
  · intro other
    by_cases same : other = site
    · subst same
      simpa [Assoc.get?_insert] using held
    · simpa [Assoc.get?_insert, same, Ne.symm same] using r other
  · intro no
    cases known : family.get? site with
    | some c =>
      rw [known] at no refused
      have put := Assoc.put_of_find known
      simp only [Option.getD_some] at no refused ⊢
      rw [refused no, Assoc.insert, put]
    | none =>
      -- a new cache has room
      rw [known] at no
      cases no

end

/-! ## Calls -/

/-- A call of the registry. -/
inductive Call where
  | propertyCache (site : Site)
  | methodCache (site : Site)
  | recordProperty (site : Site) (k : CacheKey) (offset : Nat)
  | recordMethod (site : Site) (k : CacheKey) (found : FoundMethod)
  | clear

/-- The answer to a call: a snapshot, or whether a record is in. -/
inductive Answer where
  | offsets (c : Cache Nat)
  | methods (c : Cache FoundMethod)
  | recorded (inserted : Bool)
  | cleared

/-- The answer to a call, and the registry behind it. -/
def serve (r : CacheRegistry) : Call → Answer × CacheRegistry
  | .propertyCache site => (.offsets (r.propertyCache site).1, (r.propertyCache site).2)
  | .methodCache site => (.methods (r.methodCache site).1, (r.methodCache site).2)
  | .recordProperty site k offset => (.recorded (r.recordProperty site k offset).1, (r.recordProperty site k offset).2)
  | .recordMethod site k found => (.recorded (r.recordMethod site k found).1, (r.recordMethod site k found).2)
  | .clear => (.cleared, r.clear)

/-- The registry after calls, from the empty one on. -/
def after (calls : List Call) : CacheRegistry := Transcript.after serve {} calls

/-- The answers to calls, from the empty registry on. -/
def answers (calls : List Call) : List Answer := Transcript.answers serve {} calls

def Call.isClear : Call → Bool
  | .clear => true
  | _ => false

/-- The offset that a call records at a site. -/
def Call.offsetAt? (site : Site) : Call → Option (CacheKey × Nat)
  | .recordProperty s k offset => if site = s then some (k, offset) else none
  | _ => none

/-- The method that a call records at a site. -/
def Call.methodAt? (site : Site) : Call → Option (CacheKey × FoundMethod)
  | .recordMethod s k found => if site = s then some (k, found) else none
  | _ => none

/-- The calls behind the last one that clears all caches. -/
def sinceClear (calls : List Call) : List Call := calls.rtakeWhile fun c => !c.isClear

/-- What calls record at a site, since the last of them that clears all caches. -/
def recordsAt {α : Type} (record? : Site → Call → Option (CacheKey × α)) (calls : List Call) (site : Site) :
    List (CacheKey × α) := (sinceClear calls).filterMap (record? site)

/-- The offsets recorded at a site since all caches were cleared. -/
def offsetsAt : List Call → Site → List (CacheKey × Nat) := recordsAt Call.offsetAt?

/-- The methods recorded at a site since all caches were cleared. -/
def methodsAt : List Call → Site → List (CacheKey × FoundMethod) := recordsAt Call.methodAt?

/-- What a call is answered after others. A snapshot has the first four keys recorded at its site since all caches were
cleared, each with the value recorded last. A record is in exactly if its key is one of them. -/
def Call.expected (before : List Call) : Call → Answer
  | .propertyCache site => .offsets ⟨Cache.recalled (offsetsAt before site)⟩
  | .methodCache site => .methods ⟨Cache.recalled (methodsAt before site)⟩
  | .recordProperty site k offset =>
    .recorded (decide (k ∈ Cache.firstKeys (offsetsAt before site ++ [(k, offset)])))
  | .recordMethod site k found =>
    .recorded (decide (k ∈ Cache.firstKeys (methodsAt before site ++ [(k, found)])))
  | .clear => .cleared

variable {r : CacheRegistry} {calls : List Call} {c : Call} {n : Nat}

/-- Clearing begins a new history. -/
theorem sinceClear_concat (calls : List Call) (c : Call) :
    sinceClear (calls ++ [c]) = if c.isClear then [] else sinceClear calls ++ [c] := by
  unfold sinceClear
  rw [List.rtakeWhile_concat]
  cases c.isClear <;> rfl

/-- A call adds to the history of its own site. -/
theorem recordsAt_concat {α : Type} (record? : Site → Call → Option (CacheKey × α)) (keeps : c.isClear = false) :
    recordsAt record? (calls ++ [c]) = fun site => recordsAt record? calls site ++ (record? site c).toList := by
  funext site
  unfold recordsAt
  rw [sinceClear_concat, keeps]
  cases h : record? site c <;> simp [h]

theorem offsetsAt_recordProperty (calls : List Call) (site : Site) (k : CacheKey) (offset : Nat) :
    offsetsAt (calls ++ [.recordProperty site k offset]) =
      fun s => offsetsAt calls s ++ if s = site then [(k, offset)] else [] := by
  rw [offsetsAt, recordsAt_concat _ rfl]
  funext s
  by_cases here : s = site <;> simp [Call.offsetAt?, here]

theorem methodsAt_recordMethod (calls : List Call) (site : Site) (k : CacheKey) (found : FoundMethod) :
    methodsAt (calls ++ [.recordMethod site k found]) =
      fun s => methodsAt calls s ++ if s = site then [(k, found)] else [] := by
  rw [methodsAt, recordsAt_concat _ rfl]
  funext s
  by_cases here : s = site <;> simp [Call.methodAt?, here]

/-- A call that records no offset leaves the histories of offsets as they are. -/
theorem offsetsAt_of_none (keeps : c.isClear = false) (no : ∀ site, c.offsetAt? site = none) :
    offsetsAt (calls ++ [c]) = offsetsAt calls := by
  simp [offsetsAt, recordsAt_concat _ keeps, no]

/-- A call that records no method leaves the histories of methods as they are. -/
theorem methodsAt_of_none (keeps : c.isClear = false) (no : ∀ site, c.methodAt? site = none) :
    methodsAt (calls ++ [c]) = methodsAt calls := by
  simp [methodsAt, recordsAt_concat _ keeps, no]

/-! ## What all caches hold -/

/-- All caches have what the calls left. -/
structure Holds (r : CacheRegistry) (calls : List Call) : Prop where
  properties : Recalls r.properties (offsetsAt calls)
  methods : Recalls r.methods (methodsAt calls)

/-- A new registry has heard nothing at any site. -/
theorem holds_empty : Holds {} [] := ⟨recalls_empty, recalls_empty⟩

/-- Nothing is left behind a call that clears all caches. -/
theorem holds_clear (r : CacheRegistry) (calls : List Call) : r.clear.Holds (calls ++ [.clear]) := by
  have none : sinceClear (calls ++ [.clear]) = [] := by
    rw [sinceClear_concat]
    rfl
  constructor
  · intro site
    rw [offsetsAt, recordsAt, none]
    exact Cache.recalls_empty
  · intro site
    rw [methodsAt, recordsAt, none]
    exact Cache.recalls_empty

/-- A call is answered as expected, and a record that is refused leaves no trace. -/
theorem Holds.serve (h : r.Holds calls) (c : Call) :
    (r.serve c).2.Holds (calls ++ [c]) ∧ (r.serve c).1 = c.expected calls ∧
      ((r.serve c).1 = .recorded false → (r.serve c).2 = r) := by
  obtain ⟨properties, methods⟩ := h
  cases c with
  | propertyCache site =>
    obtain ⟨snapshot, kept⟩ := properties.opened site
    refine ⟨⟨?_, ?_⟩, congrArg Answer.offsets snapshot, nofun⟩
    · rw [offsetsAt_of_none rfl fun _ => rfl]
      exact kept
    · rw [methodsAt_of_none rfl fun _ => rfl]
      exact methods
  | methodCache site =>
    obtain ⟨snapshot, kept⟩ := methods.opened site
    refine ⟨⟨?_, ?_⟩, congrArg Answer.methods snapshot, nofun⟩
    · rw [offsetsAt_of_none rfl fun _ => rfl]
      exact properties
    · rw [methodsAt_of_none rfl fun _ => rfl]
      exact kept
  | recordProperty site k offset =>
    obtain ⟨kept, answer, unchanged⟩ := properties.record site k offset
    refine ⟨⟨?_, ?_⟩, congrArg Answer.recorded answer, ?_⟩
    · rw [offsetsAt_recordProperty]
      exact kept
    · rw [methodsAt_of_none rfl fun _ => rfl]
      exact methods
    · intro refused
      exact congrArg (fun properties => { r with properties }) (unchanged (Answer.recorded.inj refused))
  | recordMethod site k found =>
    obtain ⟨kept, answer, unchanged⟩ := methods.record site k found
    refine ⟨⟨?_, ?_⟩, congrArg Answer.recorded answer, ?_⟩
    · rw [offsetsAt_of_none rfl fun _ => rfl]
      exact properties
    · rw [methodsAt_recordMethod]
      exact kept
    · intro refused
      exact congrArg (fun methods => { r with methods }) (unchanged (Answer.recorded.inj refused))
  | clear => exact ⟨holds_clear r calls, rfl, nofun⟩

/-- After any calls, every site recalls what was recorded there since the caches were last cleared. -/
theorem holds_after (calls : List Call) : (after calls).Holds calls :=
  Transcript.induct (P := fun calls r => Holds r calls) holds_empty (fun _ c h => (h.serve c).1) calls

end CacheRegistry

namespace Cache

/-- **A cache holds the first four keys and their latest values.** After any insertions into an empty cache, of offsets,
methods or anything else, the entries are the first four different keys in the order in which they came, each with the
value inserted last for it; a look-up finds exactly the value of the entry; and an insertion is refused exactly if its
key is not among the first four, and then it changes nothing. In the registry, after any calls, a snapshot of a call site
has the first four keys recorded at this site since all caches were last cleared, each with the value recorded last; a
record is refused exactly if its key is not one of them, and then it changes nothing. What a call is answered depends on
the calls before it alone, so no later record is seen in a snapshot. -/
theorem caches_hold_first_keys :
    (∀ (α : Type) (h : List (CacheKey × α)),
      (after h).entries = recalled h ∧ firstKeys h = (h.map Prod.fst).eraseDups.take 4 ∧
      (∀ k, (after h).lookup k = if k ∈ firstKeys h then lastFor h k else none) ∧
      (∀ k a, (after h).lookup k = some a ↔ (k, a) ∈ (after h).entries) ∧
      ∀ (n : Nat) k a, h[n]? = some (k, a) →
        (answers h)[n]? = some (decide (k ∈ firstKeys h)) ∧
        (k ∉ firstKeys h → after (h.take (n + 1)) = after (h.take n))) ∧
    ∀ (calls : List CacheRegistry.Call) (n : Nat) (c : CacheRegistry.Call), calls[n]? = some c →
      (CacheRegistry.answers calls)[n]? = some (c.expected (calls.take n)) ∧
      ((CacheRegistry.answers calls)[n]? = some (.recorded false) →
        CacheRegistry.after (calls.take (n + 1)) = CacheRegistry.after (calls.take n)) := by
  refine ⟨?_, ?_⟩
  · intro α h
    have r := recalls_after h
    refine ⟨r.entries_eq, rfl, r.lookup_eq, fun k a => Assoc.find_eq_some_iff r.distinct, ?_⟩
    intro n k a here
    exact ⟨answer_eq here, after_of_refused here⟩
  · intro calls n c here
    obtain ⟨-, answer, refused⟩ := (CacheRegistry.holds_after (calls.take n)).serve c
    have given : (CacheRegistry.answers calls)[n]? =
        some ((CacheRegistry.after (calls.take n)).serve c).1 := Transcript.answer_eq here
    have next : CacheRegistry.after (calls.take (n + 1)) = ((CacheRegistry.after (calls.take n)).serve c).2 :=
      Transcript.after_take here
    rw [given, next, answer]
    exact ⟨rfl, fun no => refused (answer.trans (Option.some.inj no))⟩

end Cache

end ScriptVm
