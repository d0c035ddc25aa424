import Mathlib.Data.List.Induction

/-!
# Transcripts

A store that is called again and again answers every call and is left in a new state. `Transcript.after` is the state
after a list of calls, and `Transcript.answers` lists the answers, one for each call. An answer depends on the calls
before it alone, and what the calls so far have to do with the state is shown by `Transcript.induct`, one call at a
time.

Stores that keep things in the order in which they came first show this order as `List.eraseDups` of what came.
-/

set_option autoImplicit false

namespace ScriptVm

/-! ## Things in the order in which they came first -/

section

variable {α : Type} [BEq α] [LawfulBEq α]

/-- One more thing goes to the end, unless it has come before. -/
theorem eraseDups_concat (l : List α) (a : α) :
    (l ++ [a]).eraseDups = l.eraseDups ++ if a ∈ l then [] else [a] := by
  rw [List.eraseDups_append]
  by_cases old : a ∈ l <;> simp [List.removeAll, List.eraseDups_cons, old]

theorem nodup_eraseDups (l : List α) : l.eraseDups.Nodup := by
  induction l using List.reverseRecOn with
  | nil => simp
  | append_singleton l a ih =>
    rw [eraseDups_concat]
    split
    · simpa using ih
    next new =>
      rw [List.nodup_append]
      refine ⟨ih, by simp, ?_⟩
      intro b hb c hc same
      rw [List.mem_singleton] at hc
      rw [same, hc, List.mem_eraseDups] at hb
      exact new hb

end

/-! ## Calls and answers -/

namespace Transcript

variable {σ ι ο : Type} {serve : σ → ι → ο × σ} {s : σ} {calls : List ι} {c : ι} {n : Nat}

/-- The state after calls, each of which is served. -/
def after (serve : σ → ι → ο × σ) (s : σ) (calls : List ι) : σ := calls.foldl (fun s c => (serve s c).2) s

/-- The answers to calls. -/
def answers (serve : σ → ι → ο × σ) : σ → List ι → List ο
  | _, [] => []
  | s, c :: rest => (serve s c).1 :: answers serve (serve s c).2 rest

theorem after_append (serve : σ → ι → ο × σ) (s : σ) (calls later : List ι) :
    after serve s (calls ++ later) = after serve (after serve s calls) later := List.foldl_append

theorem after_concat (serve : σ → ι → ο × σ) (s : σ) (calls : List ι) (c : ι) :
    after serve s (calls ++ [c]) = (serve (after serve s calls) c).2 := after_append serve s calls [c]

/-- The state behind a call. -/
theorem after_take (here : calls[n]? = some c) :
    after serve s (calls.take (n + 1)) = (serve (after serve s (calls.take n)) c).2 := by
  rw [List.take_add_one, here]
  exact after_concat serve s (calls.take n) c

/-- An answer is the one that the state gives which the calls before have left. -/
theorem getElem?_answers (serve : σ → ι → ο × σ) (s : σ) (calls : List ι) (n : Nat) :
    (answers serve s calls)[n]? = calls[n]?.map fun c => (serve (after serve s (calls.take n)) c).1 := by
  induction calls generalizing s n with
  | nil => simp [answers]
  | cons c rest ih =>
    cases n with
    | zero => simp [answers, after]
    | succ n => simpa [answers, after] using ih (serve s c).2 n

theorem answer_eq (here : calls[n]? = some c) :
    (answers serve s calls)[n]? = some (serve (after serve s (calls.take n)) c).1 := by
  simp [getElem?_answers, here]

/-- What holds at the start and is kept by every call holds after any calls. -/
theorem induct {P : List ι → σ → Prop} (start : P [] s)
    (call : ∀ calls c, P calls (after serve s calls) → P (calls ++ [c]) (serve (after serve s calls) c).2)
    (calls : List ι) : P calls (after serve s calls) := by
  induction calls using List.reverseRecOn with
  | nil => exact start
  | append_singleton calls c ih =>
    rw [after_concat]
    exact call calls c ih

end Transcript

end ScriptVm
