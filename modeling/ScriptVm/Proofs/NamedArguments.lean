import Mathlib.Data.List.DropRight
import ScriptVm.Machine.NamedArgs

/-!
# What arguments give to parameters

`Given.Supplies` says which parameter gets which argument: a positional one by its place, a named
one by the first parameter of its name. `Given.Fits` says that every name is known and that no
parameter is given twice.

Arguments can be arranged exactly if they fit (`arrange_of_fits`, `fits_of_arrange`). The arranged
list reaches up to the last parameter that was given, and has null for those before it that were
not.
-/

set_option autoImplicit false

namespace ScriptVm.NamedArgs

variable {params : List Text} {g : Given} {window args : List Value} {i j : Nat} {v : Value}

/-- Parameter `i` gets the value `v`. -/
def Given.Supplies (g : Given) (params : List Text) (i : Nat) (v : Value) : Prop :=
  g.positional[i]? = some v ∨ ∃ name, (name, v) ∈ g.named ∧ params.findIdx? (· = name) = some i

/-- Every name is known, and no parameter is given twice. -/
structure Given.Fits (g : Given) (params : List Text) : Prop where
  known : ∀ e ∈ g.named, ∃ i, params.findIdx? (· = e.1) = some i ∧ g.positional.length ≤ i
  distinct : (g.named.map Prod.fst).Nodup

/-- The arguments `g` as a list in the order of the parameters. -/
structure Arranged (params : List Text) (g : Given) (args : List Value) : Prop where
  reach : ∀ i, i < args.length ↔ ∃ j v, i ≤ j ∧ g.Supplies params j v
  given : ∀ i v, g.Supplies params i v → args[i]? = some v
  gaps : ∀ i, i < args.length → (∀ v, ¬g.Supplies params i v) → args[i]? = some .null

/-! ## Places -/

theorem name_of_findIdx? {name : Text} (h : params.findIdx? (· = name) = some i) :
    params[i]? = some name := by
  obtain ⟨lt, same, -⟩ := List.findIdx?_eq_some_iff_getElem.1 h
  rw [List.getElem?_eq_getElem lt, of_decide_eq_true same]

/-- The named arguments have free places of their own. -/
structure Placeable (params : List Text) (named : List (Text × Value)) (places : List (Option Value)) :
    Prop where
  free : ∀ e ∈ named, ∃ i, params.findIdx? (· = e.1) = some i ∧ places[i]? = some none
  distinct : (named.map Prod.fst).Nodup

/-- The other named arguments still have places when one has taken its own. -/
theorem Placeable.tail {named : List (Text × Value)} {places : List (Option Value)} {name : Text}
    (h : Placeable params ((name, v) :: named) places) (place : params.findIdx? (· = name) = some i) :
    Placeable params named (places.set i (some v)) := by
  have distinct := h.distinct
  rw [List.map_cons, List.nodup_cons] at distinct
  refine ⟨fun e he => ?_, distinct.2⟩
  obtain ⟨j, other, free⟩ := h.free e (List.mem_cons_of_mem _ he)
  refine ⟨j, other, ?_⟩
  have ne : i ≠ j := by
    rintro rfl
    have same : name = e.1 := Option.some.inj ((name_of_findIdx? place).symm.trans (name_of_findIdx? other))
    exact distinct.1 (List.mem_map.2 ⟨e, he, same.symm⟩)
  rw [List.getElem?_set_ne ne, free]

theorem place_of_placeable {named : List (Text × Value)} {places : List (Option Value)}
    (h : Placeable params named places) :
    ∃ placed, place params named places = .ok placed ∧
      ∀ i v, placed[i]? = some (some v) ↔
        places[i]? = some (some v) ∨ ∃ name, (name, v) ∈ named ∧ params.findIdx? (· = name) = some i := by
  induction named generalizing places with
  | nil => exact ⟨places, rfl, fun i v => by simp⟩
  | cons e rest ih =>
    obtain ⟨name, w⟩ := e
    obtain ⟨k, place, free⟩ := h.free (name, w) List.mem_cons_self
    obtain ⟨placed, run, taken⟩ := ih (h.tail place)
    refine ⟨placed, ?_, fun i v => ?_⟩
    · simp only [NamedArgs.place, place, free]
      exact run
    · have inside : k < places.length := (List.getElem?_eq_some_iff.1 free).1
      rw [taken, List.getElem?_set]
      by_cases own : k = i
      · subst own
        constructor
        · rintro (here | ⟨other, mem, at'⟩)
          · rw [if_pos rfl, if_pos inside, Option.some.injEq, Option.some.injEq] at here
            exact .inr ⟨name, by rw [here]; exact List.mem_cons_self, place⟩
          · exact .inr ⟨other, List.mem_cons_of_mem _ mem, at'⟩
        · rintro (here | ⟨other, mem, at'⟩)
          · rw [free] at here
            cases here
          · rcases List.mem_cons.1 mem with same | mem
            · cases same
              exact .inl (by rw [if_pos rfl, if_pos inside])
            · exact .inr ⟨other, mem, at'⟩
      · rw [if_neg own]
        constructor
        · rintro (here | ⟨other, mem, at'⟩)
          · exact .inl here
          · exact .inr ⟨other, List.mem_cons_of_mem _ mem, at'⟩
        · rintro (here | ⟨other, mem, at'⟩)
          · exact .inl here
          · rcases List.mem_cons.1 mem with same | mem
            · cases same
              exact absurd (Option.some.inj (place.symm.trans at')) own
            · exact .inr ⟨other, mem, at'⟩

theorem placeable_of_place {named : List (Text × Value)} {places placed : List (Option Value)}
    (h : place params named places = .ok placed) : Placeable params named places := by
  induction named generalizing places with
  | nil => exact ⟨nofun, List.nodup_nil⟩
  | cons e rest ih =>
    obtain ⟨name, w⟩ := e
    unfold place at h
    split at h
    · cases h
    next k place =>
      split at h
      next free =>
        have others := ih h
        refine ⟨fun e he => ?_, ?_⟩
        · rcases List.mem_cons.1 he with rfl | he
          · exact ⟨k, place, free⟩
          · obtain ⟨j, at', open'⟩ := others.free e he
            refine ⟨j, at', ?_⟩
            -- what is free now was free before
            rw [List.getElem?_set] at open'
            split at open'
            · split at open' <;> cases open'
            · exact open'
        · rw [List.map_cons, List.nodup_cons]
          refine ⟨fun twice => ?_, others.distinct⟩
          obtain ⟨e, he, same⟩ := List.mem_map.1 twice
          obtain ⟨j, at', open'⟩ := others.free e he
          have same : e.1 = name := same
          rw [same, place, Option.some.injEq] at at'
          subst at'
          rw [List.getElem?_set, if_pos rfl] at open'
          split at open' <;> cases open'
      next => cases h

theorem startPlaces_eq_some :
    (startPlaces params g.positional)[i]? = some (some v) ↔ g.positional[i]? = some v := by
  unfold startPlaces
  rw [List.getElem?_append, List.length_map, List.getElem?_map]
  split
  · cases g.positional[i]? <;> simp
  next outside =>
    have none : g.positional[i]? = none := List.getElem?_eq_none (by omega)
    rw [none, List.getElem?_replicate]
    split <;> simp

theorem startPlaces_eq_none :
    (startPlaces params g.positional)[i]? = some none ↔ g.positional.length ≤ i ∧ i < params.length := by
  unfold startPlaces
  rw [List.getElem?_append, List.length_map, List.getElem?_map]
  split
  next inside =>
    rw [List.getElem?_eq_getElem inside]
    simp only [Option.map_some, Option.some.injEq, reduceCtorEq, false_iff]
    omega
  next outside =>
    rw [List.getElem?_replicate]
    split
    next lt => simp only [true_iff]; omega
    next ge => simp only [reduceCtorEq, false_iff]; omega

theorem fits_iff_placeable :
    g.Fits params ↔ Placeable params g.named (startPlaces params g.positional) := by
  constructor
  · intro h
    refine ⟨fun e he => ?_, h.distinct⟩
    obtain ⟨i, place, behind⟩ := h.known e he
    have lt : i < params.length := (List.findIdx?_eq_some_iff_getElem.1 place).1
    exact ⟨i, place, startPlaces_eq_none.2 ⟨behind, lt⟩⟩
  · intro h
    refine ⟨fun e he => ?_, h.distinct⟩
    obtain ⟨i, place, free⟩ := h.free e he
    exact ⟨i, place, (startPlaces_eq_none.1 free).1⟩

/-! ## Gaps -/

theorem lt_length_fillGaps {places : List (Option Value)} :
    i < (fillGaps places).length ↔ ∃ j v, i ≤ j ∧ places[j]? = some (some v) := by
  have trimmed : ∀ places : List (Option Value),
      (fillGaps places).length = (places.rdropWhile Option.isNone).length := fun _ => List.length_map _
  rw [trimmed]
  induction places using List.reverseRecOn with
  | nil => simp
  | append_singleton places last ih =>
    cases last with
    | none =>
      rw [List.rdropWhile_concat_pos _ _ _ (by rfl)]
      refine ih.trans ?_
      constructor
      · rintro ⟨j, v, le, here⟩
        exact ⟨j, v, le, List.getElem?_append_left (List.getElem?_eq_some_iff.1 here).1 ▸ here⟩
      · rintro ⟨j, v, le, here⟩
        refine ⟨j, v, le, ?_⟩
        rw [List.getElem?_append] at here
        split at here
        · exact here
        · rw [List.getElem?_singleton] at here
          split at here <;> cases here
    | some w =>
      rw [List.rdropWhile_concat_neg _ _ _ (by simp), List.length_append, List.length_singleton]
      constructor
      · intro lt
        exact ⟨places.length, w, by omega, by rw [List.getElem?_append_right (Nat.le_refl _)]; simp⟩
      · rintro ⟨j, v, le, here⟩
        have lt := (List.getElem?_eq_some_iff.1 here).1
        rw [List.length_append, List.length_singleton] at lt
        omega

theorem getElem?_fillGaps {places : List (Option Value)} (h : i < (fillGaps places).length) :
    (fillGaps places)[i]? = places[i]?.map fun p => p.getD .null := by
  obtain ⟨trailing, split⟩ := places.rdropWhile_prefix Option.isNone
  have trimmed : fillGaps places = (places.rdropWhile Option.isNone).map fun p => p.getD .null := rfl
  rw [trimmed, List.length_map] at h
  rw [trimmed, List.getElem?_map]
  congr 1
  have kept : (places.rdropWhile Option.isNone ++ trailing)[i]? = (places.rdropWhile Option.isNone)[i]? :=
    List.getElem?_append_left h
  rw [split] at kept
  exact kept.symm

/-! ## Arranging -/

/-- Arguments that fit can be arranged. -/
theorem arrange_of_fits (sorted : sortOut window = .ok g) (fits : g.Fits params) :
    ∃ args, arrange params window = .ok args ∧ Arranged params g args := by
  obtain ⟨placed, run, taken⟩ := place_of_placeable (fits_iff_placeable.1 fits)
  have supplied : ∀ i v, placed[i]? = some (some v) ↔ g.Supplies params i v := fun i v => by
    rw [taken, startPlaces_eq_some]
    rfl
  refine ⟨fillGaps placed, ?_, fun i => ?_, fun i v gives => ?_, fun i inside missing => ?_⟩
  · simp only [arrange, sorted, run]
  · simp only [lt_length_fillGaps, supplied]
  · have here := (supplied i v).2 gives
    rw [getElem?_fillGaps (lt_length_fillGaps.2 ⟨i, v, Nat.le_refl _, here⟩), here]
    rfl
  · rw [getElem?_fillGaps inside]
    obtain ⟨j, v, le, here⟩ := lt_length_fillGaps.1 inside
    have lt := (List.getElem?_eq_some_iff.1 here).1
    cases at' : placed[i]? with
    | none =>
      rw [List.getElem?_eq_none_iff] at at'
      omega
    | some p =>
      cases p with
      | none => rfl
      | some v => exact absurd ((supplied i v).1 at') (missing v)

/-- Only arguments that fit can be arranged. -/
theorem fits_of_arrange (h : arrange params window = .ok args) :
    ∃ g, sortOut window = .ok g ∧ g.Fits params := by
  unfold arrange at h
  split at h
  · cases h
  next g sorted =>
    split at h
    next placed run => exact ⟨g, sorted, fits_iff_placeable.2 (placeable_of_place run)⟩
    next => cases h

/-- Arguments without names are sorted out as they are. -/
theorem sortOut_of_unnamed (h : window.any Value.isNamedArg = false) :
    sortOut window = .ok { positional := window } := by
  induction window with
  | nil => rfl
  | cons v rest ih =>
    rw [List.any_cons, Bool.or_eq_false_iff] at h
    unfold sortOut
    split
    next none => cases none
    next name others same =>
      cases same
      cases h.1
    next w others _ same =>
      cases same
      rw [ih h.2]

/-- Arguments without names stay as they are. -/
theorem arrange_of_unnamed (params : List Text) (h : window.any Value.isNamedArg = false) :
    arrange params window = .ok window := by
  have fits : Given.Fits { positional := window } params := ⟨nofun, List.nodup_nil⟩
  obtain ⟨args, run, arranged⟩ := arrange_of_fits (sortOut_of_unnamed h) fits
  rw [run]
  have given : ∀ i v, Given.Supplies { positional := window } params i v ↔ window[i]? = some v := by
    intro i v
    constructor
    · rintro (here | ⟨name, mem, -⟩)
      · exact here
      · cases mem
    · exact .inl
  congr 1
  refine List.ext_getElem? fun i => ?_
  cases at' : window[i]? with
  | some v => exact arranged.given i v ((given i v).2 at')
  | none =>
    rw [List.getElem?_eq_none_iff] at at' ⊢
    refine Nat.le_of_not_lt fun inside => ?_
    obtain ⟨j, v, le, here⟩ := (arranged.reach i).1 inside
    have lt := (List.getElem?_eq_some_iff.1 ((given j v).1 here)).1
    omega

end ScriptVm.NamedArgs
