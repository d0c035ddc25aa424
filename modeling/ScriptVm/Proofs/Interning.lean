import ScriptVm.Proofs.CacheTransparency
import ScriptVm.Proofs.Renumbering
import ScriptVm.Proofs.Transcripts

/-!
# Interned names

A symbol table keeps the names by number and the numbers by name. `SymbolTable.Lists` says that the two are inverse to
each other and that the names stand in a given order; interning a name keeps this, and adds the name at the end unless
it is there. So after any calls the names are those that have been interned, in the order in which they came first,
and the number of a name is its place in this order (`lists_after`).

The order only ever grows at its end (`firstNames_append`), which is why a number means the same name for good.
-/

set_option autoImplicit false

namespace ScriptVm

namespace SymbolTable

/-! ## Calls -/

/-- A call of a symbol table. -/
inductive Call where
  | intern (n : Text)
  | lookup (n : Text)

/-- The name that a call interns. -/
def Call.interned? : Call → Option Text
  | .intern n => some n
  | .lookup _ => none

/-- The answer to a call, and the table behind it. -/
def serve (t : SymbolTable) : Call → Option Symbol × SymbolTable
  | .intern n => (some (t.intern n).1, (t.intern n).2)
  | .lookup n => (t.lookup n, t)

/-- The table after calls, from the empty one on. -/
def after (calls : List Call) : SymbolTable := Transcript.after serve {} calls

/-- The answers to calls, from the empty table on. -/
def answers (calls : List Call) : List (Option Symbol) := Transcript.answers serve {} calls

/-- The names that calls intern, in the order in which they come first. -/
def firstNames (calls : List Call) : List Text := (calls.filterMap Call.interned?).eraseDups

variable {t : SymbolTable} {ns : List Text} {n n' : Text} {s s' : Symbol} {calls : List Call} {i j : Nat}

theorem mem_firstNames : n ∈ firstNames calls ↔ .intern n ∈ calls := by
  rw [firstNames, List.mem_eraseDups, List.mem_filterMap]
  constructor
  · rintro ⟨c, mem, interned⟩
    cases c with
    | intern m =>
      cases interned
      exact mem
    | lookup m => cases interned
  · intro mem
    exact ⟨.intern n, mem, rfl⟩

/-- Names that come later go to the end. -/
theorem firstNames_append (calls later : List Call) : ∃ more, firstNames (calls ++ later) = firstNames calls ++ more := by
  unfold firstNames
  rw [List.filterMap_append, List.eraseDups_append]
  exact ⟨_, rfl⟩

theorem firstNames_intern (calls : List Call) (n : Text) :
    firstNames (calls ++ [.intern n]) = firstNames calls ++ if n ∈ firstNames calls then [] else [n] := by
  have first := eraseDups_concat (calls.filterMap Call.interned?) n
  simp only [firstNames, List.filterMap_append, List.mem_eraseDups]
  exact first

theorem firstNames_lookup (calls : List Call) (n : Text) : firstNames (calls ++ [.lookup n]) = firstNames calls := by
  rw [firstNames, List.filterMap_append]
  exact congrArg List.eraseDups (List.append_nil _)

/-! ## What a table lists -/

/-- The table has exactly these names, each under its place as its number. -/
structure Lists (t : SymbolTable) (ns : List Text) : Prop where
  paired : t.Paired
  names : t.names.toList = ns

namespace Lists

theorem name_eq (h : t.Lists ns) (s : Symbol) : t.name s = ns[s]? := by
  rw [← h.names, Array.getElem?_toList]
  rfl

theorem size_eq (h : t.Lists ns) : t.size = ns.length := by
  rw [← h.names, Array.length_toList]
  rfl

theorem name_eq_none_iff (h : t.Lists ns) : t.name s = none ↔ t.size ≤ s := by
  rw [h.name_eq, h.size_eq, List.getElem?_eq_none_iff]

theorem lookup_eq_some_iff (h : t.Lists ns) : t.lookup n = some s ↔ ns[s]? = some n := by
  rw [h.paired n s, h.name_eq]

theorem lookup_eq_none_iff (h : t.Lists ns) : t.lookup n = none ↔ n ∉ ns := by
  simp only [Option.eq_none_iff_forall_ne_some, ne_eq, h.lookup_eq_some_iff, List.mem_iff_getElem?, not_exists]

theorem intern (h : t.Lists ns) (n : Text) : (t.intern n).2.Lists (ns ++ if n ∈ ns then [] else [n]) := by
  refine ⟨h.paired.intern n, ?_⟩
  unfold SymbolTable.intern
  cases known : t.lookup n with
  | some s =>
    have mem : n ∈ ns := List.mem_of_getElem? (h.lookup_eq_some_iff.1 known)
    simp [mem, h.names]
  | none => simp [h.lookup_eq_none_iff.1 known, h.names]

theorem serve (h : t.Lists (firstNames calls)) (c : Call) : (t.serve c).2.Lists (firstNames (calls ++ [c])) := by
  cases c with
  | intern n =>
    rw [firstNames_intern]
    exact h.intern n
  | lookup n =>
    rw [firstNames_lookup]
    exact h

end Lists

theorem lists_after (calls : List Call) : (after calls).Lists (firstNames calls) :=
  Transcript.induct (P := fun calls t => Lists t (firstNames calls)) ⟨paired_empty, rfl⟩ (fun _ c h => h.serve c) calls

/-- A name keeps its number. -/
theorem name_after_append (later : List Call) (h : (after calls).name s = some n) :
    (after (calls ++ later)).name s = some n := by
  obtain ⟨more, grown⟩ := firstNames_append calls later
  rw [(lists_after calls).name_eq] at h
  obtain ⟨inside, -⟩ := List.getElem?_eq_some_iff.1 h
  rw [(lists_after _).name_eq, grown, List.getElem?_append_left inside, h]

theorem name_after_of_take (h : (after (calls.take i)).name s = some n) : (after calls).name s = some n := by
  have kept := name_after_append (calls.drop i) h
  rwa [List.take_append_drop] at kept

/-! ## What is answered -/

/-- Interning answers a number of the name. -/
theorem answer_intern (here : calls[i]? = some (.intern n)) :
    ∃ s, (answers calls)[i]? = some (some s) ∧ (after calls).name s = some n := by
  refine ⟨_, Transcript.answer_eq here, ?_⟩
  apply name_after_of_take (i := i + 1)
  apply ((lists_after _).paired n _).1
  unfold after
  rw [Transcript.after_take here]
  exact lookup_intern_self _ n

/-- A look-up answers the number of a name that has been interned before. -/
theorem answer_lookup (here : calls[i]? = some (.lookup n)) :
    (answers calls)[i]? = some (some s) ↔ .intern n ∈ calls.take i ∧ (after calls).name s = some n := by
  have before := lists_after (calls.take i)
  have answer : (answers calls)[i]? = some ((after (calls.take i)).lookup n) := Transcript.answer_eq here
  rw [answer, Option.some_inj, ← mem_firstNames]
  constructor
  · intro known
    exact ⟨List.mem_of_getElem? (before.lookup_eq_some_iff.1 known), name_after_of_take ((before.paired n s).1 known)⟩
  · rintro ⟨mem, named⟩
    obtain ⟨s', place⟩ := List.mem_iff_getElem?.1 mem
    have known := before.lookup_eq_some_iff.2 place
    -- the name had a number then, and has the same one still
    have still := name_after_of_take ((before.paired n s').1 known)
    rwa [← (lists_after calls).paired n s, ((lists_after calls).paired n s').2 still, ← known] at named

/-- Exactly the numbers below the size have been answered for interned names. -/
theorem exists_answer_iff :
    (∃ (i : Nat) (n : Text), calls[i]? = some (.intern n) ∧ (answers calls)[i]? = some (some s)) ↔
      s < (after calls).size := by
  have lists := lists_after calls
  constructor
  · rintro ⟨i, n, here, answer⟩
    obtain ⟨s', answer', named⟩ := answer_intern here
    rw [answer, Option.some_inj, Option.some_inj] at answer'
    rw [← answer', lists.name_eq] at named
    rw [lists.size_eq]
    exact (List.getElem?_eq_some_iff.1 named).1
  · intro inside
    rw [lists.size_eq] at inside
    have place := List.getElem?_eq_getElem inside
    obtain ⟨i, here⟩ := List.mem_iff_getElem?.1 (mem_firstNames.1 (List.getElem_mem inside))
    obtain ⟨s', answer, named⟩ := answer_intern here
    refine ⟨i, _, here, ?_⟩
    rw [answer]
    rw [← lists.paired] at named
    rw [← lists.lookup_eq_some_iff, named] at place
    rw [place]

end SymbolTable

/-! ## The tables of a session -/

/-- The table has come about by calls. -/
def World.SymbolsMade (w : World) : Prop := ∃ calls, w.symbols = SymbolTable.after calls

theorem World.SymbolsMade.change {w w' : World} (c : Change w w') (h : w.SymbolsMade) : w'.SymbolsMade := by
  cases c with
  | intern n =>
    obtain ⟨calls, made⟩ := h
    refine ⟨calls ++ [.intern n], ?_⟩
    unfold SymbolTable.after at made ⊢
    rw [Transcript.after_concat, ← made]
    rfl
  | newObject cls =>
    rw [newObject_eq]
    exact h
  | setField r s v =>
    rw [setField_eq]
    exact h
  | setFieldAt r offset s v _ done =>
    obtain ⟨fields, -, rfl⟩ := (setFieldAt?_eq_some_iff ..).1 done
    exact h
  | _ => exact h

/-- So has the table of every session that a host can get to. -/
theorem Session.Reachable.symbolsMade {s : Session} (reachable : s.Reachable) : s.machine.world.SymbolsMade := by
  have law : Session.Law World.SymbolsMade := ⟨World.SymbolsMade.change, fun _ h => h, fun h => h⟩
  exact law.reachable (fun _ h => h) (fun _ => ⟨[], rfl⟩) reachable

namespace SymbolTable

/-- **Interning is a bijection onto a dense prefix.** The symbol table of every session that a host can get to has
come about by calls that intern or look up names. Take any such calls. The names of the table are those that were
interned, each once and in the order of first interning, and the number of a name is its place there: there is a name
for a number exactly if it is below the size, and looking up a name finds the number that has this name. Interning a
name answers a number with this name, two internings answer the same number exactly if the names are the same bytes,
and the numbers answered are those below the size. Looking up a name changes nothing and answers its number exactly if
it was interned before. Later calls change neither the name of a number nor the number of a name, and a number fits 32
bits as long as there are no more than `UInt32.size` names. -/
theorem interning_is_dense_bijection :
    (∀ session : Session, session.Reachable → ∃ calls, session.machine.world.symbols = after calls) ∧
    ∀ calls later : List Call,
    let t := after calls
    let names := firstNames calls
    names.Nodup ∧ (∀ n, n ∈ names ↔ Call.intern n ∈ calls) ∧
    t.size = names.length ∧ (∀ s, t.name s = names[s]?) ∧ (∀ s, t.name s = none ↔ t.size ≤ s) ∧
    (∀ n s, t.lookup n = some s ↔ t.name s = some n) ∧
    (∀ (i : Nat) n, calls[i]? = some (.intern n) → ∃ s, (answers calls)[i]? = some (some s) ∧ t.name s = some n) ∧
    (∀ (i j : Nat) n n', calls[i]? = some (.intern n) → calls[j]? = some (.intern n') →
      ((answers calls)[i]? = (answers calls)[j]? ↔ n = n')) ∧
    (∀ s, (∃ (i : Nat) (n : Text), calls[i]? = some (.intern n) ∧ (answers calls)[i]? = some (some s)) ↔ s < t.size) ∧
    (∀ (i : Nat) n, calls[i]? = some (.lookup n) → after (calls.take (i + 1)) = after (calls.take i) ∧
      ∀ s, (answers calls)[i]? = some (some s) ↔ .intern n ∈ calls.take i ∧ t.name s = some n) ∧
    (∀ n s, t.name s = some n → (after (calls ++ later)).name s = some n ∧
      (after (calls ++ later)).lookup n = some s) ∧
    (t.size ≤ UInt32.size → ∀ n s, t.name s = some n → s < UInt32.size) := by
  refine ⟨fun session reachable => reachable.symbolsMade, ?_⟩
  intro calls later t names
  have lists : t.Lists names := lists_after calls
  refine ⟨nodup_eraseDups _, fun n => mem_firstNames, lists.size_eq, lists.name_eq, fun s => lists.name_eq_none_iff,
    lists.paired, fun i n => answer_intern, ?_, fun s => exists_answer_iff, ?_, ?_, ?_⟩
  · intro i j n n' here here'
    obtain ⟨s, answer, named⟩ := answer_intern here
    obtain ⟨s', answer', named'⟩ := answer_intern here'
    rw [answer, answer', Option.some_inj, Option.some_inj]
    constructor
    · intro same
      rw [same, named', Option.some_inj] at named
      exact named.symm
    · intro same
      rw [← lists.paired, same] at named
      rw [← lists.paired, named, Option.some_inj] at named'
      exact named'
  · intro i n here
    exact ⟨Transcript.after_take here, fun s => answer_lookup here⟩
  · intro n s named
    have kept := name_after_append later named
    exact ⟨kept, ((lists_after _).paired n s).2 kept⟩
  · intro small n s named
    rw [lists.name_eq] at named
    have inside := (List.getElem?_eq_some_iff.1 named).1
    rw [← lists.size_eq] at inside
    exact Nat.lt_of_lt_of_le inside small

end SymbolTable

end ScriptVm
