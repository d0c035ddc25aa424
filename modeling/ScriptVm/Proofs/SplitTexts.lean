import Mathlib.Data.List.Chain
import Mathlib.Data.List.Infix
import Mathlib.Data.Nat.Find
import ScriptVm.Proofs.PlainInstructions

/-!
# Splitting and joining texts

What the parts of a text are is said here by positions. `Text.Leftmost` goes from one occurrence of a
separator to the first one behind it, and `Text.Wording` from one run of bytes that are not blank to the
next one. Both are loops over positions without a bound on their length, so a derivation is a loop that
has come to its end.

`Exec.split_is_exact` says that `split` gives what stands between these positions, and that `join` puts a
split text together again.
-/

set_option autoImplicit false

namespace ScriptVm

namespace Text

variable {separator t u v part : Text} {i j k start stop : Nat} {is js : List Nat} {runs runs' : List (Nat × Nat)}

/-! ## Occurrences of a separator -/

/-- The separator stands in the text at the position `i`. -/
def OccursAt (separator t : Text) (i : Nat) : Prop := separator <+: t.drop i

/-- The leftmost occurrences from a position on that do not overlap: the first one, then the first one behind
it, until there is none. -/
inductive Leftmost (separator t : Text) : Nat → List Nat → Prop
  | done {start : Nat} (none : ∀ i, start ≤ i → ¬OccursAt separator t i) : Leftmost separator t start []
  | next {start i : Nat} {is : List Nat} (le : start ≤ i) (here : OccursAt separator t i)
      (first : ∀ j, start ≤ j → j < i → ¬OccursAt separator t j)
      (rest : Leftmost separator t (i + separator.length) is) : Leftmost separator t start (i :: is)

/-- What stands before, between and behind the occurrences at the given positions. -/
def between (separator t : Text) : Nat → List Nat → List Text
  | start, [] => [t.drop start]
  | start, i :: is => (t.drop start).take (i - start) :: between separator t (i + separator.length) is

/-- There is one part more than separators. -/
theorem length_between (start : Nat) (is : List Nat) : (between separator t start is).length = is.length + 1 := by
  induction is generalizing start with
  | nil => rfl
  | cons i is ih => simp [between, ih]

/-- A separator that occurs ends within the text. -/
theorem OccursAt.le (h : OccursAt separator t i) (filled : separator ≠ []) : i + separator.length ≤ t.length := by
  have fits := h.length_le
  have long := List.length_pos_iff.2 filled
  rw [List.length_drop] at fits
  omega

/-- An occurrence in a piece of a text is an occurrence in the text. -/
theorem OccursAt.of_piece (h : OccursAt separator ((t.drop start).take k) j) :
    OccursAt separator t (start + j) := by
  unfold OccursAt at h ⊢
  rw [List.drop_take, List.drop_drop] at h
  exact h.trans (List.take_prefix _ _)

theorem exists_occursAt_of_infix (h : separator <:+: t) : ∃ i, OccursAt separator t i := by
  obtain ⟨front, back, rfl⟩ := h
  refine ⟨front.length, back, ?_⟩
  simp [List.append_assoc]

namespace Leftmost

/-- The loop comes to its end, since each round leaves less of the text. -/
theorem exists_of_ne_nil (filled : separator ≠ []) (t : Text) (start : Nat) :
    ∃ is, Leftmost separator t start is := by
  induction left : t.length - start using Nat.strong_induction_on generalizing start with
  | _ left ih =>
    by_cases found : ∃ i, start ≤ i ∧ OccursAt separator t i
    · classical
      have here := Nat.find_spec found
      have ends := here.2.le filled
      have long := List.length_pos_iff.2 filled
      obtain ⟨is, rest⟩ := ih (t.length - (Nat.find found + separator.length)) (by omega) _ rfl
      refine ⟨_, .next here.1 here.2 ?_ rest⟩
      intro j le lt occurs
      exact Nat.find_min found lt ⟨le, occurs⟩
    · refine ⟨[], .done ?_⟩
      intro i le occurs
      exact found ⟨i, le, occurs⟩

/-- There is one way to cut a text from the left. -/
theorem unique (h : Leftmost separator t start is) (h' : Leftmost separator t start js) : is = js := by
  induction h generalizing js with
  | done none =>
    cases h' with
    | done => rfl
    | next le here => exact absurd here (none _ le)
  | @next start i is le here first rest ih =>
    cases h' with
    | done none => exact absurd here (none _ le)
    | @next _ j js le' here' first' rest' =>
      obtain lt | rfl | lt := Nat.lt_trichotomy i j
      · exact absurd here (first' i le lt)
      · rw [ih rest']
      · exact absurd here' (first j le' lt)

/-- No occurrence is left in what stands between. -/
theorem not_infix (h : Leftmost separator t start is) (filled : separator ≠ [])
    (mem : part ∈ between separator t start is) : ¬separator <:+: part := by
  intro inside
  obtain ⟨j, occurs⟩ := exists_occursAt_of_infix inside
  induction h with
  | @done start none =>
    rw [between, List.mem_singleton] at mem
    subst mem
    unfold OccursAt at occurs
    rw [List.drop_drop] at occurs
    exact none _ (Nat.le_add_right _ _) occurs
  | @next start i is le here first rest ih =>
    rw [between, List.mem_cons] at mem
    rcases mem with rfl | mem
    · have ends := occurs.le filled
      have long := List.length_pos_iff.2 filled
      rw [List.length_take] at ends
      exact first _ (Nat.le_add_right _ _) (by omega) occurs.of_piece
    · exact ih mem

end Leftmost

/-! ## Cutting at a separator -/

theorem consFirst_ne_nil (b : UInt8) (parts : List Text) : consFirst b parts ≠ [] := by
  cases parts <;> simp [consFirst]

/-- There is always a part, if only an empty one. -/
theorem splitFrom_ne_nil (separator : Text) (skip : Nat) (t : Text) : splitFrom separator skip t ≠ [] := by
  fun_induction splitFrom separator skip t with
  | case1 => simp
  | case2 skip b rest ih => exact ih
  | case3 b rest found ih => simp
  | case4 b rest other ih => exact consFirst_ne_nil b _

/-- Bytes of an occurrence that has been found are passed over. -/
theorem splitFrom_eq_drop (separator : Text) (skip : Nat) (t : Text) :
    splitFrom separator skip t = splitFrom separator 0 (t.drop skip) := by
  induction t generalizing skip with
  | nil => simp [splitFrom]
  | cons b rest ih =>
    cases skip with
    | zero => rfl
    | succ skip => rw [splitFrom, ih, List.drop_succ_cons]

/-- A byte that begins no separator belongs to the first part. -/
theorem consFirst_splitFrom {b : UInt8} (other : ¬separator <+: b :: t) :
    splitFrom separator 0 (b :: t) = consFirst b (splitFrom separator 0 t) := by
  rw [splitFrom, if_neg]
  rwa [List.isPrefixOf_iff_prefix]

/-- Without an occurrence the text is its only part. -/
theorem splitFrom_of_none (none : ∀ i, ¬OccursAt separator t i) :
    splitFrom separator 0 t = [t] := by
  induction t with
  | nil => rfl
  | cons b rest ih =>
    rw [consFirst_splitFrom (none 0), ih fun i => none (i + 1), consFirst]

/-- The first part ends at the first occurrence. -/
theorem splitFrom_of_first (filled : separator ≠ []) (here : OccursAt separator t i)
    (first : ∀ j, j < i → ¬OccursAt separator t j) :
    splitFrom separator 0 t = t.take i :: splitFrom separator 0 (t.drop (i + separator.length)) := by
  induction i generalizing t with
  | zero =>
    cases t with
    | nil => exact absurd (List.prefix_nil.1 here) filled
    | cons b rest =>
      obtain ⟨n, long⟩ := Nat.exists_eq_succ_of_ne_zero (mt List.length_eq_zero_iff.1 filled)
      have found : separator <+: b :: rest := here
      rw [splitFrom, if_pos (List.isPrefixOf_iff_prefix.2 found), splitFrom_eq_drop, long]
      simp
  | succ i ih =>
    cases t with
    | nil => exact absurd (List.prefix_nil.1 here) filled
    | cons b rest =>
      rw [consFirst_splitFrom (first 0 (Nat.succ_pos i)),
        ih here fun j lt => first (j + 1) (Nat.succ_lt_succ lt), consFirst, List.take_succ_cons,
        Nat.succ_add, List.drop_succ_cons]

/-- Splitting follows the loop. -/
theorem splitFrom_eq_between (filled : separator ≠ []) (h : Leftmost separator t start is) :
    splitFrom separator 0 (t.drop start) = between separator t start is := by
  induction h with
  | @done start none =>
    refine splitFrom_of_none ?_
    intro i occurs
    unfold OccursAt at occurs
    rw [List.drop_drop] at occurs
    exact none _ (Nat.le_add_right _ _) occurs
  | @next start i is le here first rest ih =>
    have there : OccursAt separator (t.drop start) (i - start) := by
      unfold OccursAt
      rwa [List.drop_drop, Nat.add_sub_cancel' le]
    have least : ∀ j, j < i - start → ¬OccursAt separator (t.drop start) j := by
      intro j lt occurs
      unfold OccursAt at occurs
      rw [List.drop_drop] at occurs
      exact first _ (Nat.le_add_right _ _) (by omega) occurs
    have behind : start + (i - start + separator.length) = i + separator.length := by omega
    rw [splitFrom_of_first filled there least, List.drop_drop, behind, ih, between]

theorem splitAt_of_ne_nil (filled : separator ≠ []) (t : Text) :
    splitAt separator t = splitFrom separator 0 t := by
  rw [splitAt, if_neg]
  simpa using filled

/-! ## Joining -/

theorem join_cons (separator part : Text) {parts : List Text} (more : parts ≠ []) :
    join separator (part :: parts) = part ++ separator ++ join separator parts := by
  cases parts with
  | nil => exact absurd rfl more
  | cons next rest => rfl

theorem join_consFirst (separator : Text) (b : UInt8) {parts : List Text} (some : parts ≠ []) :
    join separator (consFirst b parts) = b :: join separator parts := by
  cases parts with
  | nil => exact absurd rfl some
  | cons part rest => cases rest <;> rfl

theorem join_nil (parts : List Text) : join [] parts = parts.flatten := by
  induction parts with
  | nil => rfl
  | cons part rest ih =>
    cases rest with
    | nil => simp [join]
    | cons next rest => rw [join_cons _ _ (List.cons_ne_nil next rest), ih, List.append_nil]; rfl

/-- Joining the parts gives the text again, from where splitting began. -/
theorem join_splitFrom (filled : separator ≠ []) (skip : Nat) (t : Text) :
    join separator (splitFrom separator skip t) = t.drop skip := by
  fun_induction splitFrom separator skip t with
  | case1 => simp [join]
  | case2 skip b rest ih => rw [ih, List.drop_succ_cons]
  | case3 b rest found ih =>
    obtain ⟨back, split⟩ := List.isPrefixOf_iff_prefix.1 found
    obtain ⟨c, own, rfl⟩ := List.exists_cons_of_ne_nil filled
    obtain ⟨rfl, rfl⟩ := List.cons.inj split
    rw [join_cons _ _ (splitFrom_ne_nil _ _ _), ih]
    simp
  | case4 b rest other ih => rw [join_consFirst _ _ (splitFrom_ne_nil _ _ _), ih]; rfl

/-- A text that has been split is put together again, whatever the separator. -/
theorem join_splitAt (separator t : Text) : join separator (splitAt separator t) = t := by
  by_cases filled : separator = []
  · subst filled
    have parts : splitAt [] t = chars t := rfl
    rw [parts, join_nil, flatten_chars]
  · rw [splitAt_of_ne_nil filled, join_splitFrom filled, List.drop_zero]

/-- Occurrences that overlap are not counted twice, and a part may be empty. -/
example : splitAt "aa" "baaaxaa" = (["b", "ax", ""] : List Text) := by decide

/-! ## Words -/

/-- There is a blank at the position. -/
def BlankAt (t : Text) (i : Nat) : Prop := ∃ b, t[i]? = some b ∧ isBlank b = true

/-- There is a byte at the position that is not blank. -/
def FilledAt (t : Text) (i : Nat) : Prop := ∃ b, t[i]? = some b ∧ isBlank b = false

/-- The bytes from `p.1` up to `p.2`. -/
def cut (t : Text) (p : Nat × Nat) : Text := (t.drop p.1).take (p.2 - p.1)

/-- A run of bytes that are not blank, from `start` up to `stop`, that cannot be made longer. -/
structure MaximalRun (t : Text) (start stop : Nat) : Prop where
  nonempty : start < stop
  inside : ∀ k, start ≤ k → k < stop → FilledAt t k
  before : ∀ k, k + 1 = start → BlankAt t k
  behind : stop = t.length ∨ BlankAt t stop

/-- The words from a position on: blanks are passed over, then bytes that are not blank are taken up to the next
blank, until nothing but blanks is left. -/
inductive Wording (t : Text) : Nat → List (Nat × Nat) → Prop
  | done {i : Nat} (blank : ∀ k, i ≤ k → k < t.length → BlankAt t k) : Wording t i []
  | next {i start stop : Nat} {runs : List (Nat × Nat)} (le : i ≤ start)
      (skipped : ∀ k, i ≤ k → k < start → BlankAt t k) (lt : start < stop)
      (taken : ∀ k, start ≤ k → k < stop → FilledAt t k) (ends : stop = t.length ∨ BlankAt t stop)
      (rest : Wording t stop runs) : Wording t i ((start, stop) :: runs)

theorem BlankAt.not_filled (h : BlankAt t i) : ¬FilledAt t i := by
  rintro ⟨b, here, filled⟩
  obtain ⟨c, there, blank⟩ := h
  rw [here] at there
  cases there
  rw [filled] at blank
  cases blank

/-- Every byte is blank or not. -/
theorem blankAt_or_filledAt (h : i < t.length) : BlankAt t i ∨ FilledAt t i := by
  have here := List.getElem?_eq_getElem h
  cases blank : isBlank t[i] with
  | true => exact .inl ⟨_, here, blank⟩
  | false => exact .inr ⟨_, here, blank⟩

theorem FilledAt.lt (h : FilledAt t i) : i < t.length := by
  obtain ⟨b, here, -⟩ := h
  exact (List.getElem?_eq_some_iff.1 here).1

theorem FilledAt.not_end (h : FilledAt t i) : ¬(i = t.length ∨ BlankAt t i) := by
  rintro (rfl | blank)
  · exact Nat.lt_irrefl _ h.lt
  · exact blank.not_filled h

/-- A property of positions holds from `i` on up to some end, which is `n` or a position without the property. -/
theorem exists_end (P : Nat → Prop) {i n : Nat} (le : i ≤ n) :
    ∃ e, i ≤ e ∧ e ≤ n ∧ (∀ k, i ≤ k → k < e → P k) ∧ (e = n ∨ ¬P e) := by
  induction n, le using Nat.le_induction with
  | base => exact ⟨i, Nat.le_refl i, Nat.le_refl i, fun k low high => absurd high (Nat.not_lt.2 low), .inl rfl⟩
  | succ n le ih =>
    obtain ⟨e, low, high, holds, rfl | fails⟩ := ih
    · by_cases last : P e
      · refine ⟨e + 1, by omega, Nat.le_refl _, ?_, .inl rfl⟩
        intro k lower upper
        obtain lt | rfl := Nat.lt_succ_iff_lt_or_eq.1 upper
        · exact holds k lower lt
        · exact last
      · exact ⟨e, low, by omega, holds, .inr last⟩
    · exact ⟨e, low, by omega, holds, .inr fails⟩

namespace Wording

/-- The loop comes to its end, since each round leaves less of the text. -/
theorem exists_of_le (t : Text) (i : Nat) (le : i ≤ t.length) : ∃ runs, Wording t i runs := by
  induction left : t.length - i using Nat.strong_induction_on generalizing i with
  | _ left ih =>
    obtain ⟨start, low, bounded, skipped, last | other⟩ := exists_end (BlankAt t) le
    · subst last
      exact ⟨[], .done skipped⟩
    · by_cases last : start = t.length
      · subst last
        exact ⟨[], .done skipped⟩
      have here : FilledAt t start := (blankAt_or_filledAt (by omega)).resolve_left other
      obtain ⟨stop, low', bounded', taken, ends⟩ := exists_end (FilledAt t) bounded
      have ended : stop = t.length ∨ BlankAt t stop := by
        by_cases last : stop = t.length
        · exact .inl last
        · exact .inr ((blankAt_or_filledAt (by omega)).resolve_right (ends.resolve_left last))
      have lt : start < stop := by
        apply Nat.lt_of_le_of_ne low'
        rintro rfl
        exact here.not_end ended
      obtain ⟨runs, rest⟩ := ih (t.length - stop) (by omega) stop bounded' rfl
      exact ⟨_, .next low skipped lt taken ended rest⟩

/-- Between one word and the next one there are blanks, and at least one. -/
theorem apart (h : Wording t i runs) :
    runs.IsChain fun p q => p.2 < q.1 ∧ ∀ k, p.2 ≤ k → k < q.1 → BlankAt t k := by
  induction h with
  | done => exact .nil
  | @next i start stop runs le skipped lt taken ends rest ih =>
    refine List.isChain_cons.2 ⟨?_, ih⟩
    intro q first
    cases rest with
    | done => cases first
    | @next _ start' stop' _ le' skipped' lt' taken' _ _ =>
      cases first
      refine ⟨Nat.lt_of_le_of_ne le' ?_, skipped'⟩
      rintro rfl
      exact (taken' _ (Nat.le_refl _) lt').not_end ends

/-- The words are the maximal runs, if the loop does not start within one. -/
theorem mem_iff (h : Wording t i runs) (outside : i = 0 ∨ ¬FilledAt t i) (p : Nat × Nat) :
    p ∈ runs ↔ i ≤ p.1 ∧ MaximalRun t p.1 p.2 := by
  induction h with
  | @done i blank =>
    refine ⟨nofun, ?_⟩
    rintro ⟨le, maximal⟩
    have here := maximal.inside p.1 (Nat.le_refl _) maximal.nonempty
    exact absurd here (blank _ le here.lt).not_filled
  | @next i start stop runs le skipped lt taken ends rest ih =>
    have open_ : ¬FilledAt t stop := fun filled => filled.not_end ends
    rw [List.mem_cons, ih (.inr open_)]
    constructor
    · rintro (rfl | ⟨behind, maximal⟩)
      · refine ⟨le, lt, taken, ?_, ends⟩
        intro k next
        by_cases within : i ≤ k
        · exact skipped k within (by omega)
        · -- The word starts where the loop does, which is not within a run.
          have same : start = i := by omega
          have here := taken start (Nat.le_refl _) lt
          rw [same] at here
          exact absurd here (outside.resolve_left (by omega))
      · exact ⟨by omega, maximal⟩
    · rintro ⟨low, maximal⟩
      obtain ⟨a, b⟩ := p
      simp only at low maximal ⊢
      have here := maximal.inside a (Nat.le_refl _) maximal.nonempty
      obtain before | rfl | after := Nat.lt_trichotomy a start
      · exact absurd here (skipped a low before).not_filled
      · refine .inl ?_
        obtain shorter | rfl | longer := Nat.lt_trichotomy b stop
        · exact absurd maximal.behind (taken b (Nat.le_of_lt maximal.nonempty) shorter).not_end
        · rfl
        · exact absurd (maximal.inside stop (Nat.le_of_lt lt) longer) open_
      · refine .inr ⟨?_, maximal⟩
        by_contra within
        obtain ⟨k, rfl⟩ := Nat.exists_eq_add_one_of_ne_zero (Nat.ne_zero_of_lt after)
        exact (maximal.before k rfl).not_filled (taken k (by omega) (by omega))

end Wording

/-! ## Cutting into words -/

/-- A blank byte in front belongs to no word. -/
theorem words_of_blank {b : UInt8} (blank : isBlank b = true) (t : Text) : words (b :: t) = words t := by
  cases t with
  | nil => simp [words, blank]
  | cons c rest => rw [words, if_pos blank]

/-- A byte before a blank one is a word of its own. -/
theorem words_of_last {b : UInt8} (filled : isBlank b = false) (ends : ∀ c ∈ t.head?, isBlank c = true) :
    words (b :: t) = [b] :: words t := by
  cases t with
  | nil => simp [words, filled]
  | cons c rest => simp [words, filled, ends c rfl]

/-- A byte before another one that is not blank belongs to the same word. -/
theorem words_of_filled {b c : UInt8} (filled : isBlank b = false) (filled' : isBlank c = false) (t : Text) :
    words (b :: c :: t) = consFirst b (words (c :: t)) := by
  simp [words, filled, filled']

/-- A run of bytes up to the next blank is a word. -/
theorem words_append (some : u ≠ []) (filled : ∀ b ∈ u, isBlank b = false) (ends : ∀ c ∈ v.head?, isBlank c = true) :
    words (u ++ v) = u :: words v := by
  induction u with
  | nil => exact absurd rfl some
  | cons b rest ih =>
    have here := filled b (List.mem_cons_self ..)
    cases rest with
    | nil => exact words_of_last here ends
    | cons c rest =>
      have there := filled c (by simp)
      have tail := ih (List.cons_ne_nil c rest) fun b mem => filled b (List.mem_cons_of_mem _ mem)
      rw [List.cons_append] at tail
      rw [List.cons_append, List.cons_append, words_of_filled here there, tail, consFirst]

/-- Blank bytes can be skipped. -/
theorem words_drop_of_blank (le : i ≤ j) (blank : ∀ k, i ≤ k → k < j → BlankAt t k) :
    words (t.drop i) = words (t.drop j) := by
  induction j, le using Nat.le_induction with
  | base => rfl
  | succ j le ih =>
    obtain ⟨b, here, blank'⟩ := blank j le (Nat.lt_succ_self j)
    obtain ⟨lt, rfl⟩ := List.getElem?_eq_some_iff.1 here
    rw [ih fun k low high => blank k low (Nat.lt_succ_of_lt high), List.drop_eq_getElem_cons lt,
      words_of_blank blank']

theorem mem_cut {b : UInt8} (mem : b ∈ cut t (i, j)) : ∃ k, i ≤ k ∧ k < j ∧ t[k]? = some b := by
  obtain ⟨n, here⟩ := List.mem_iff_getElem?.1 mem
  unfold cut at here
  rw [List.getElem?_take, List.getElem?_drop] at here
  split at here
  next lt => exact ⟨i + n, by omega, by omega, here⟩
  next => cases here

/-- A run of bytes is not empty. -/
theorem cut_ne_nil (lt : i < j) (known : i < t.length) : cut t (i, j) ≠ [] := by
  intro empty
  have length := congrArg List.length empty
  unfold cut at length
  rw [List.length_take, List.length_drop, List.length_nil] at length
  omega

/-- Cutting into words follows the loop. -/
theorem words_eq_map_cut (h : Wording t i runs) : words (t.drop i) = runs.map (cut t) := by
  induction h with
  | @done i blank =>
    by_cases le : i ≤ t.length
    · rw [words_drop_of_blank le blank, List.drop_length]
      rfl
    · rw [List.drop_eq_nil_of_le (by omega)]
      rfl
  | @next i start stop runs le skipped lt taken ends rest ih =>
    have known := (taken start (Nat.le_refl _) lt).lt
    have behind : stop = start + (stop - start) := by omega
    have parted : t.drop start = cut t (start, stop) ++ t.drop stop := by
      unfold cut
      conv_rhs => rw [behind, ← List.drop_drop]
      simp
    rw [words_drop_of_blank le skipped, parted, words_append (cut_ne_nil lt known), ih, List.map_cons]
    · intro b mem
      obtain ⟨k, low, high, here⟩ := mem_cut mem
      obtain ⟨c, there, filled⟩ := taken k low high
      rw [here] at there
      cases there
      exact filled
    · intro c first
      rw [List.head?_drop] at first
      rcases ends with rfl | ⟨d, there, blank⟩
      · simp at first
      · rw [there] at first
        cases first
        exact blank

/-- Words are not empty and have no blank byte. -/
theorem mem_words {word : Text} (mem : word ∈ words t) : word ≠ [] ∧ ∀ b ∈ word, isBlank b = false := by
  obtain ⟨runs, wording⟩ := Wording.exists_of_le t 0 (Nat.zero_le _)
  have cuts := words_eq_map_cut wording
  rw [List.drop_zero] at cuts
  rw [cuts] at mem
  obtain ⟨p, run, rfl⟩ := List.mem_map.1 mem
  obtain ⟨-, maximal⟩ := (wording.mem_iff (.inl rfl) p).1 run
  refine ⟨cut_ne_nil maximal.nonempty (maximal.inside p.1 (Nat.le_refl _) maximal.nonempty).lt, ?_⟩
  intro b inside
  obtain ⟨k, low, high, here⟩ := mem_cut inside
  obtain ⟨c, there, filled⟩ := maximal.inside k low high
  rw [here] at there
  cases there
  exact filled

theorem flatten_consFirst (b : UInt8) (parts : List Text) : (consFirst b parts).flatten = b :: parts.flatten := by
  cases parts <;> rfl

/-- The words hold all bytes but the blanks, in order. -/
theorem flatten_words (t : Text) : (words t).flatten = t.filter fun b => !isBlank b := by
  fun_induction words t with
  | case1 => rfl
  | case2 b blank => simp [blank]
  | case3 b filled => simp [filled]
  | case4 b c rest blank ih =>
    rw [ih]
    simp [blank]
  | case5 b c rest filled blank ih =>
    rw [List.flatten_cons, ih]
    simp [filled]
  | case6 b c rest filled filled' ih =>
    rw [flatten_consFirst, ih]
    simp [filled]

end Text

namespace Exec

open Text

/-- What `split` gives is a new array. -/
theorem run_textArray (m : Machine) (parts : List Text) :
    ∃ r m', (textArray parts).run m = .ok (.array r) m' ∧ m'.heap.arrays.get r = (parts.map Value.str).toArray :=
  ⟨_, _, rfl, Pool.get_alloc_self _ _⟩

theorem run_join {m : Machine} {r : Ref .array} {parts : List Text}
    (items : m.heap.arrays.get r = (parts.map Value.str).toArray) (separator : Text) :
    (callMethod (.array r) "join" [.str separator]).run m = .ok (.str (join separator parts)) m := by
  have texts : (m.heap.arrays.get r).toList.map m.text = parts := by
    rw [items, List.toList_toArray, List.map_map]
    exact (List.map_congr_left fun part _ => rfl).trans (List.map_id parts)
  show EStateM.Result.ok (Value.str (join separator ((m.heap.arrays.get r).toList.map m.text))) m = _
  rw [texts]

/-- **Splitting is exact, and joining undoes it.** For every text and every separator `split` succeeds, and `join`
with the same separator gives the text again. If there is a separator, its parts are what stands between the leftmost
occurrences that do not overlap, and none of them has another occurrence. Without an argument `split` gives the
maximal runs of bytes that are not blank, in order, with blanks between each of them and the next one. All loops
come to their end. -/
theorem split_is_exact (t : Text) :
    (∀ separator m, ∃ r m', (callMethod (.str t) "split" [.str separator]).run m = .ok (.array r) m' ∧
      m'.heap.arrays.get r = ((splitAt separator t).map Value.str).toArray ∧
      (callMethod (.array r) "join" [.str separator]).run m' = .ok (.str t) m') ∧
    (∀ separator, separator ≠ [] → ∃! is, Leftmost separator t 0 is ∧ splitAt separator t = between separator t 0 is ∧
      (splitAt separator t).length = is.length + 1 ∧ ∀ part ∈ splitAt separator t, ¬separator <:+: part) ∧
    (∀ m, ∃ r m', (callMethod (.str t) "split" []).run m = .ok (.array r) m' ∧
      m'.heap.arrays.get r = ((words t).map Value.str).toArray) ∧
    (∃ runs, Wording t 0 runs ∧ words t = runs.map (cut t) ∧ (∀ p, p ∈ runs ↔ MaximalRun t p.1 p.2) ∧
      runs.IsChain fun p q => p.2 < q.1 ∧ ∀ k, p.2 ≤ k → k < q.1 → BlankAt t k) ∧
    (∀ word ∈ words t, word ≠ [] ∧ ∀ b ∈ word, isBlank b = false) ∧
    (words t).flatten = t.filter fun b => !isBlank b := by
  refine ⟨?_, ?_, fun m => run_textArray m (words t), ?_, fun word => mem_words, flatten_words t⟩
  · intro separator m
    obtain ⟨r, m', run, items⟩ := run_textArray m (splitAt separator t)
    have joined := run_join items separator
    rw [join_splitAt] at joined
    exact ⟨r, m', run, items, joined⟩
  · intro separator filled
    obtain ⟨is, leftmost⟩ := Leftmost.exists_of_ne_nil filled t 0
    have parts : splitAt separator t = between separator t 0 is := by
      rw [splitAt_of_ne_nil filled, ← splitFrom_eq_between filled leftmost, List.drop_zero]
    refine ⟨is, ⟨leftmost, parts, ?_, ?_⟩, fun js other => other.1.unique leftmost⟩
    · rw [parts, length_between]
    · intro part mem
      rw [parts] at mem
      exact leftmost.not_infix filled mem
  · obtain ⟨runs, wording⟩ := Wording.exists_of_le t 0 (Nat.zero_le _)
    refine ⟨runs, wording, words_eq_map_cut wording, ?_, wording.apart⟩
    intro p
    rw [wording.mem_iff (.inl rfl) p, and_iff_right (Nat.zero_le _)]

end Exec

end ScriptVm
