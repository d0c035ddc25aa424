import ScriptVm.Proofs.WorldChange

/-!
# Logs that agree but for trace records

Two logs with a capturing sink agree when they have the same settings, have printed the same and
have captured the same records, those of level `trace` apart. They still agree when both hear the
same event, and when one of them hears a trace note that the other does not.
-/

set_option autoImplicit false

namespace ScriptVm

/-- Whether a captured record has level `trace`. -/
def Captured.isTrace : Captured → Bool
  | .record r => r.level = .trace
  | .flush => false

/-- What has been captured, trace records apart. -/
def Captured.notable (cs : List Captured) : List Captured := cs.filter fun c => !c.isTrace

/-- Whether an event is a note of level `trace`. -/
def LogEvent.isTrace : LogEvent → Bool
  | .note _ level _ => level = .trace
  | .print _ => false

theorem LogEvent.isTrace_iff {e : LogEvent} :
    e.isTrace = true ↔ ∃ logger message, e = .note logger .trace message := by
  cases e with
  | note logger level message => simp [isTrace]
  | print t => simp [isTrace]

namespace Logging

open Captured

/-- All records go to one capturing sink. -/
structure Capturing (l : Logging) : Prop where
  started : l.started = true
  sinks : l.sinks = [.capture]

/-- The log with other captured records. -/
def withCaptured (l : Logging) (captured : Array Captured) : Logging :=
  { l with streams := { l.streams with captured } }

/-- The same logs but for trace records. -/
structure Agree (l l' : Logging) : Prop where
  capturing : l.Capturing
  rest : l' = l.withCaptured l'.streams.captured
  captured : notable l'.streams.captured.toList = notable l.streams.captured.toList

variable {l l' l'' : Logging}

theorem Capturing.agree (h : l.Capturing) : Agree l l := ⟨h, rfl, rfl⟩

theorem Agree.capturing_right (h : Agree l l') : l'.Capturing := by
  rw [h.rest]
  exact ⟨h.capturing.started, h.capturing.sinks⟩

theorem Agree.symm (h : Agree l l') : Agree l' l := by
  refine ⟨h.capturing_right, ?_, h.captured.symm⟩
  rw [h.rest]
  rfl

theorem Agree.trans (h : Agree l l') (h' : Agree l' l'') : Agree l l'' := by
  refine ⟨h.capturing, ?_, h'.captured.trans h.captured⟩
  rw [h'.rest, h.rest]
  rfl

theorem Agree.enabled (h : Agree l l') (logger : Text) (level : Level) :
    l'.enabled logger level = l.enabled logger level := by
  rw [h.rest]
  rfl

/-- A capturing log captures what it is to hear. -/
theorem Capturing.hear_note (h : l.Capturing) (logger : Text) (level : Level) (message : Text) :
    l.hear (.note logger level message) =
      if l.enabled logger level then
        l.withCaptured (l.streams.captured.push (.record ⟨level, logger, message, l.here⟩))
      else l := by
  obtain ⟨started, sinks⟩ := h
  unfold hear
  simp only
  split
  next on =>
    have start : l.start = l := by rw [Logging.start, if_pos started]
    rw [note, log, start, if_pos on, emit, sinks]
    simp only [Sink.through, Sink.write, withCaptured, Streams.capture, ← sinks]
  next => rfl

theorem Capturing.hear (h : l.Capturing) (e : LogEvent) : (l.hear e).Capturing := by
  cases e with
  | note logger level message =>
    rw [h.hear_note]
    split
    · exact ⟨h.started, h.sinks⟩
    · exact h
  | print t => exact ⟨h.started, h.sinks⟩

theorem notable_push (cs : Array Captured) (c : Captured) :
    notable (cs.push c).toList = notable cs.toList ++ notable [c] := by
  rw [Array.toList_push, notable, List.filter_append]
  rfl

/-- Both hear the same. -/
theorem Agree.hear (h : Agree l l') (e : LogEvent) : Agree (l.hear e) (l'.hear e) := by
  refine ⟨h.capturing.hear e, ?_, ?_⟩
  · cases e with
    | note logger level message =>
      rw [h.capturing.hear_note, h.capturing_right.hear_note, h.enabled]
      split
      · rw [h.rest]
        rfl
      · exact h.rest
    | print t =>
      rw [h.rest]
      rfl
  · cases e with
    | note logger level message =>
      rw [h.capturing.hear_note, h.capturing_right.hear_note, h.enabled]
      split
      · have here : l'.here = l.here := by rw [h.rest]; rfl
        simp only [withCaptured]
        rw [notable_push, notable_push, h.captured, here]
      · exact h.captured
    | print t => exact h.captured

theorem Agree.hearAll (h : Agree l l') (es : List LogEvent) : Agree (l.hearAll es) (l'.hearAll es) := by
  induction es generalizing l l' with
  | nil => exact h
  | cons e rest ih => exact ih (h.hear e)

/-- A trace note makes no difference. -/
theorem Capturing.agree_trace (h : l.Capturing) (logger message : Text) :
    Agree l (l.hear (.note logger .trace message)) := by
  rw [h.hear_note]
  split
  · refine ⟨h, rfl, ?_⟩
    simp only [withCaptured]
    rw [notable_push]
    exact List.append_nil _
  · exact h.agree

theorem Capturing.hearAll (h : l.Capturing) (es : List LogEvent) : (l.hearAll es).Capturing := by
  induction es generalizing l with
  | nil => exact h
  | cons e rest ih => exact ih (h.hear e)

/-- Trace notes make no difference, however many there are. -/
theorem Capturing.agree_traces (h : l.Capturing) {es : List LogEvent} (traces : ∀ e ∈ es, e.isTrace = true) :
    Agree l (l.hearAll es) := by
  induction es generalizing l with
  | nil => exact h.agree
  | cons e rest ih =>
    have first : Agree l (l.hear e) := by
      obtain ⟨logger, message, rfl⟩ := LogEvent.isTrace_iff.1 (traces e List.mem_cons_self)
      exact h.agree_trace logger message
    exact first.trans (ih first.capturing_right fun e he => traces e (List.mem_cons_of_mem _ he))

/-- Both hear trace notes, each its own. -/
theorem Agree.traces (h : Agree l l') {es es' : List LogEvent} (traces : ∀ e ∈ es, e.isTrace = true)
    (traces' : ∀ e ∈ es', e.isTrace = true) : Agree (l.hearAll es) (l'.hearAll es') :=
  (h.capturing.agree_traces traces).symm.trans (h.trans (h.capturing_right.agree_traces traces'))

/-- The logs agree when everything written so far is taken away. -/
theorem Agree.cleared (h : Agree l l') : Agree { l with streams := {} } { l' with streams := {} } := by
  refine ⟨⟨h.capturing.started, h.capturing.sinks⟩, ?_, rfl⟩
  rw [h.rest]
  rfl

end Logging

/-- Where a property is placed is told to the log at the level `trace`. -/
theorem World.isTrace_placementEvents (s : Symbol) (place : Option ShapeRegistry.Placement) :
    ∀ e ∈ placementEvents s place, e.isTrace = true := by
  obtain _ | ⟨shape, offset, _ | parent⟩ := place
  · exact fun _ he => nomatch he
  · exact fun _ he => nomatch he
  · rintro _ (_ | ⟨_, ⟨⟩⟩)
    rfl

theorem World.isTrace_layOut (decls : List FieldDecl) (o : ShapedObject) (r : ShapeRegistry) :
    ∀ e ∈ (layOut decls o r).2.2, e.isTrace = true := by
  induction decls generalizing o r with
  | nil => exact fun _ he => nomatch he
  | cons d rest ih =>
    intro e he
    rcases List.mem_append.1 he with he | he
    · exact isTrace_placementEvents _ _ e he
    · exact ih _ _ e he

/-- No change of the world redirects its log. -/
theorem World.Change.capturing {w w' : World} (c : Change w w') (h : w.log.Capturing) :
    w'.log.Capturing := by
  cases c with
  | newObject cls =>
    rw [newObject_eq]
    exact h.hearAll _
  | setField r s v =>
    rw [setField_eq]
    exact h.hearAll _
  | setFieldAt r offset s v _ done =>
    obtain ⟨fields, -, rfl⟩ := (setFieldAt?_eq_some_iff ..).1 done
    exact h
  | log e => exact h.hear e
  | _ => exact h

end ScriptVm
