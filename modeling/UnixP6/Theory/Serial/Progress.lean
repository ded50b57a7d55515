import UnixP6.Theory.Serial.Line

/-!
# Getting a Text onto the Line

Reading the status while something waits in the register gets `com_write`
nowhere, and how often it does so is up to the device. Every other event takes
something off what is left to be done, so there are only so many of them, and
until everything is on the line there is one that can come next.

## Main definitions

* `SerialEvent.InVain`: The status is read, and the loop goes round once more.
* `outstanding`: What is left to be done.

## Theorems

* `step_outstanding`, `run_outstanding`: Events take off what is left.
* `exists_event`: There is always one that does.
* `run_sends`: How a text gets onto the line.
-/

namespace UnixP6

open CSemantics

/-- The status is read and says that something waits. -/
def SerialEvent.InVain : SerialEvent → Prop
  | .poll status => comIsTransmitEmpty status = 0
  | _ => False

instance : DecidablePred SerialEvent.InVain
  | .poll status => inferInstanceAs (Decidable (comIsTransmitEmpty status = 0))
  | .write _ => inferInstanceAs (Decidable False)
  | .shift => inferInstanceAs (Decidable False)

/-- What a call still has to do, an item that goes through the register being
    written and taken on. -/
def ComPoint.ahead : ComPoint → Nat
  | .waiting => 0
  | .carriageReturn => 1
  | .character => 3

/-- What is left to be done: five events at most for each character, and one for
    each item that waits. -/
def outstanding (s : Serial) : Nat :=
  5 * s.writer.text.length - s.writer.point.ahead + s.line.queue.length

/-- The events of a run that get somewhere. -/
def useful (events : List SerialEvent) : List SerialEvent := events.filter fun e => ¬ e.InVain

section Step

variable (depth : Nat) (s s' : Serial) (e : SerialEvent)

/-- Any other event takes something off what is left. -/
theorem step_outstanding (hstep : SerialStep depth s e s') :
    outstanding s' + (if e.InVain then 0 else 1) ≤ outstanding s := by
  cases hstep with
  | poll status hnext hstatus =>
      rcases s with ⟨⟨point, text⟩, line⟩
      cases text with
      | nil => cases hnext
      | cons c rest =>
          cases point with
          | waiting =>
              by_cases hbusy : comIsTransmitEmpty status = 0
              · have hstay : ComWriter.resume ⟨.waiting, c :: rest⟩ status
                    = ⟨.waiting, c :: rest⟩ := if_pos hbusy
                have hvain : (SerialEvent.poll status).InVain := hbusy
                rw [hstay, if_pos hvain]
                exact Nat.le_refl _
              · have hgo : ComWriter.resume ⟨.waiting, c :: rest⟩ status
                    = ⟨if c = 10 then .carriageReturn else .character, c :: rest⟩ := if_neg hbusy
                have huseful : ¬ (SerialEvent.poll status).InVain := hbusy
                rw [hgo, if_neg huseful]
                by_cases hc : c = 10
                · rw [if_pos hc]
                  simp only [outstanding, ComPoint.ahead, List.length_cons]
                  omega
                · rw [if_neg hc]
                  simp only [outstanding, ComPoint.ahead, List.length_cons]
                  omega
          | carriageReturn => cases hnext
          | character => cases hnext
  | write value hnext =>
      have hpush := Channel.length_queue_push depth s.line value
      have huseful : ¬ (SerialEvent.write value).InVain := id
      rw [if_neg huseful]
      rcases s with ⟨⟨point, text⟩, line⟩
      cases text with
      | nil => cases hnext
      | cons c rest =>
          cases point with
          | waiting => cases hnext
          | carriageReturn =>
              simp only [outstanding, ComWriter.resume, ComPoint.ahead, List.length_cons] at hpush ⊢
              omega
          | character =>
              simp only [outstanding, ComWriter.resume, ComPoint.ahead, List.length_cons] at hpush ⊢
              omega
  | shift line hshift =>
      rcases Channel.shift_some s.line line hshift with ⟨a, hqueue, -⟩
      have huseful : ¬ SerialEvent.shift.InVain := id
      rw [if_neg huseful]
      simp only [outstanding, hqueue, List.length_cons]
      omega

/-- Until everything is on the line there is an event that gets somewhere. -/
theorem exists_event (h : s.writer.text ≠ [] ∨ s.line.queue ≠ []) :
    ∃ e t, ¬ e.InVain ∧ SerialStep depth s e t := by
  by_cases hqueue : s.line.queue = []
  · rcases s with ⟨⟨point, text⟩, line⟩
    cases text with
    | nil => exact absurd hqueue (h.resolve_left fun hne => hne rfl)
    | cons c rest =>
        cases point with
        | waiting =>
            refine ⟨.poll 0x20, _, by decide, SerialStep.poll _ 0x20 rfl ?_⟩
            exact iff_of_true (by decide) hqueue
        | carriageReturn => exact ⟨.write 13, _, id, SerialStep.write _ 13 rfl⟩
        | character => exact ⟨.write c, _, id, SerialStep.write _ c rfl⟩
  · rcases Channel.exists_shift s.line hqueue with ⟨line, hshift⟩
    exact ⟨.shift, _, id, SerialStep.shift s line hshift⟩

end Step

/-- The events that get somewhere are no more than what there was to do. -/
theorem run_outstanding (depth : Nat) (s s' : Serial) (events : List SerialEvent)
    (hrun : Run (SerialStep depth) s events s') :
    (useful events).length + outstanding s' ≤ outstanding s := by
  induction hrun with
  | nil s => exact Nat.le_of_eq (Nat.zero_add _)
  | cons s t u e events hstep _ ih =>
      have htaken := step_outstanding depth s t e hstep
      unfold useful at ih ⊢
      by_cases hvain : e.InVain
      · rw [if_pos hvain] at htaken
        rw [List.filter_cons_of_neg (by simpa using hvain)]
        omega
      · rw [if_neg hvain] at htaken
        rw [List.filter_cons_of_pos (by simpa using hvain), List.length_cons]
        omega

section Sends

variable (depth : Nat) (hdepth : 0 < depth) (text : List Byte) (events : List SerialEvent)
  (s : Serial) (hrun : Run (SerialStep depth) (Serial.start text) events s)

include hdepth hrun

theorem sends_of_run : (useful events).length ≤ 5 * text.length ∧
    ((∃ e t, ¬ e.InVain ∧ SerialStep depth s e t) ∨
      s.line.sent = heard (kept depth events) text ∧
        (kept depth events).length = newlines text ∧
        (2 ≤ depth → ∀ f ∈ kept depth events, f = true)) := by
  have hbound := run_outstanding depth _ s events hrun
  have hstart : outstanding (Serial.start text) = 5 * text.length := rfl
  refine ⟨by omega, ?_⟩
  by_cases hdone : s.writer.text = [] ∧ s.line.queue = []
  · refine Or.inr ?_
    have hheard := heard_of_run depth hdepth text events s hrun hdone.1
    rw [hdone.2, List.append_nil] at hheard
    exact hheard
  · exact Or.inl (exists_event depth s (not_and_or.mp hdone))

/-- How a text gets onto the line, whatever the order in which the processor and
    the device take their steps. Apart from reading the status in vain there are
    at most five events for each character. Where no other is left to come, all
    of the text has been sent. -/
theorem run_sends : (useful events).length ≤ 5 * text.length ∧
    ((∃ e t, ¬ e.InVain ∧ SerialStep depth s e t) ∨
      s.line.sent = heard (kept depth events) text ∧
        (kept depth events).length = newlines text ∧
        (2 ≤ depth → ∀ f ∈ kept depth events, f = true)) :=
  sends_of_run depth hdepth text events s hrun

end Sends

/-- What is left there is the newline, and then nothing but the two letters. -/
theorem run_sends_letter : (useful (letterEvents ++ [.shift])).length ≤ 10 ∧
    ((∃ e t, ¬ e.InVain ∧ SerialStep 1 ⟨⟨.waiting, []⟩, ⟨[], [97, 10]⟩⟩ e t) ∨
      [97, 10] = heard (kept 1 (letterEvents ++ [.shift])) [97, 10] ∧
        (kept 1 (letterEvents ++ [.shift])).length = newlines [97, 10] ∧
        (2 ≤ 1 → ∀ f ∈ kept 1 (letterEvents ++ [.shift]), f = true)) :=
  run_sends 1 Nat.one_pos [97, 10] (letterEvents ++ [.shift]) ⟨⟨.waiting, []⟩, ⟨[], [97, 10]⟩⟩
    (Run.concat _ _ _ _ _ _ letter_run (SerialStep.shift _ ⟨[], [97, 10]⟩ rfl))

end UnixP6
