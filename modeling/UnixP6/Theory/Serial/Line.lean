import UnixP6.CSemantics.Channel
import UnixP6.CSemantics.Run
import UnixP6.Core.Serial

/-!
# The Processor and the Serial Device

`com_write` and the device take steps in any order. The device has a register
of some depth in front of its line. It reports an empty transmitter while
nothing waits there, takes what is written to its data port, and moves what
waits onto the line whenever it likes.

`com_write` asks once for a newline and then writes two bytes. Whether the
first is still in the register when the second comes is up to the device. A
register of two places has room for both. With one place the carriage return is
gone unless the device took it on in between, and `Watch` sees that from the
order of events alone. Nothing else is ever lost, doubled or moved.

## Main definitions

* `Serial`, `SerialStep`: The two sides, and their steps.
* `Watch`, `kept`: Which carriage returns got past the register.
* `heard`: A text with a carriage return in front of newlines.
* `Placed`, `Written`: What the steps keep.

## Theorems

* `heard_concat`: What is heard of one character more.
* `step_written`, `run_written`: What a step and a run keep.
* `run_heard`: What is heard of a text.
-/

namespace UnixP6

open CSemantics

/-- The calls of `com_write`, and the device. -/
structure Serial where
  writer : ComWriter
  line : Channel Byte

/-- What happens: the status is read, the data port is written, or the device
    takes on what waits. -/
inductive SerialEvent
  | poll (status : Byte)
  | write (value : Byte)
  | shift
deriving Repr, DecidableEq

/-- A step of either side. Bits of the status other than the one that is tested
    may be anything. -/
inductive SerialStep (depth : Nat) : Serial → SerialEvent → Serial → Prop
  | poll (s : Serial) (status : Byte) (hnext : s.writer.next = some (.inb (com1Port + 5)))
      (hstatus : comIsTransmitEmpty status ≠ 0 ↔ s.line.queue = []) :
      SerialStep depth s (.poll status) { s with writer := s.writer.resume status }
  | write (s : Serial) (value : Byte) (hnext : s.writer.next = some (.outb ⟨com1Port, value⟩)) :
      SerialStep depth s (.write value)
        { writer := s.writer.resume 0, line := s.line.push depth value }
  | shift (s : Serial) (line : Channel Byte) (hshift : s.line.shift = some line) :
      SerialStep depth s .shift { s with line := line }

/-- Before the first call, with the device idle. -/
def Serial.start (text : List Byte) : Serial := ⟨⟨.waiting, text⟩, ⟨[], []⟩⟩

/-! ### What gets past the register -/

/-- An observer of the events: whether a byte was written since the status was
    last read and, if so, whether it has been taken on, and what became of the
    carriage returns so far. -/
structure Watch where
  pending : Option Bool
  kept : List Bool

/-- The second of two writes to the register finds the first gone or still there,
    and then it takes a second place. -/
def Watch.see (depth : Nat) (w : Watch) : SerialEvent → Watch
  | .poll _ => { w with pending := none }
  | .shift => { w with pending := w.pending.map fun _ => true }
  | .write _ =>
    match w.pending with
    | none => { w with pending := some false }
    | some taken => { pending := none, kept := w.kept ++ [taken || decide (2 ≤ depth)] }

def Watch.all (depth : Nat) (events : List SerialEvent) : Watch :=
  events.foldl (Watch.see depth) ⟨none, []⟩

/-- Which carriage returns got past the register, one for each newline. -/
def kept (depth : Nat) (events : List SerialEvent) : List Bool := (Watch.all depth events).kept

/-- A text as it is heard, with a carriage return in front of the newlines that
    say so. -/
def heard : List Bool → List Byte → List Byte
  | _, [] => []
  | flags, c :: rest =>
    if c = 10 then
      (if flags.headD false then [13, 10] else [10]) ++ heard flags.tail rest
    else c :: heard flags rest

/-- The newlines of a text. -/
def newlines (text : List Byte) : Nat := text.count 10

section Heard

variable (flag : Bool) (flags : List Bool) (c : Byte) (rest : List Byte)

theorem heard_newline : heard (flag :: flags) (10 :: rest)
    = (if flag then [13, 10] else [10]) ++ heard flags rest :=
  if_pos rfl

theorem heard_other (hc : c ≠ 10) : heard flags (c :: rest) = c :: heard flags rest :=
  if_neg hc

end Heard

/-- A character more, which says for itself whether it is a newline. -/
theorem heard_concat (text : List Byte) : ∀ flags : List Bool, flags.length = newlines text →
    (∀ c, c ≠ 10 → heard flags (text ++ [c]) = heard flags text ++ [c]) ∧
      ∀ flag, heard (flags ++ [flag]) (text ++ [10])
        = heard flags text ++ if flag then [13, 10] else [10] := by
  induction text with
  | nil =>
      intro flags hlen
      rw [List.length_eq_zero_iff.mp hlen]
      refine ⟨fun c hc => heard_other [] c [] hc, fun flag => ?_⟩
      exact (heard_newline flag [] []).trans (List.append_nil _)
  | cons b text ih =>
      intro flags hlen
      by_cases hb : b = 10
      · -- The newline in front has the first flag.
        subst hb
        rw [newlines, List.count_cons_self] at hlen
        cases flags with
        | nil => exact absurd hlen (Nat.succ_ne_zero _).symm
        | cons f flags =>
            rcases ih flags (Nat.succ.inj hlen) with ⟨hother, hnewline⟩
            refine ⟨fun c hc => ?_, fun flag => ?_⟩
            · rw [List.cons_append, heard_newline, heard_newline, hother c hc, List.append_assoc]
            · rw [List.cons_append, List.cons_append, heard_newline, heard_newline, hnewline flag,
                List.append_assoc]
      · rw [newlines, List.count_cons_of_ne hb] at hlen
        rcases ih flags hlen with ⟨hother, hnewline⟩
        refine ⟨fun c hc => ?_, fun flag => ?_⟩
        · rw [List.cons_append, heard_other _ _ _ hb, hother c hc, heard_other _ _ _ hb,
            List.cons_append]
        · rw [List.cons_append, heard_other _ _ _ hb, hnewline flag, heard_other _ _ _ hb,
            List.cons_append]

/-! ### What the steps keep -/

/-- With some of the text written, everything written is on the line or waits, as
    far as the observer has seen it get past the register. Once the loop has
    ended nothing waits, and behind a carriage return nothing but that. -/
inductive Placed (done : List Byte) : Watch → Serial → Prop
  | waiting (w : Watch) (text : List Byte) (line : Channel Byte)
      (hline : line.contents = heard w.kept done) : Placed done w ⟨⟨.waiting, text⟩, line⟩
  | carriageReturn (flags : List Bool) (rest : List Byte) (line : Channel Byte)
      (hempty : line.queue = []) (hline : line.contents = heard flags done) :
      Placed done ⟨none, flags⟩ ⟨⟨.carriageReturn, 10 :: rest⟩, line⟩
  | newline (taken : Bool) (flags : List Bool) (rest : List Byte) (line : Channel Byte)
      (hqueue : line.queue = if taken then [] else [13])
      (hline : line.contents = heard flags done ++ [13]) :
      Placed done ⟨some taken, flags⟩ ⟨⟨.character, 10 :: rest⟩, line⟩
  | other (flags : List Bool) (c : Byte) (rest : List Byte) (line : Channel Byte) (hc : c ≠ 10)
      (hempty : line.queue = []) (hline : line.contents = heard flags done) :
      Placed done ⟨none, flags⟩ ⟨⟨.character, c :: rest⟩, line⟩

/-- What is written and what is left make up the text. -/
def Written (text : List Byte) (w : Watch) (s : Serial) : Prop :=
  ∃ done, text = done ++ s.writer.text ∧ w.kept.length = newlines done ∧ Placed done w s

theorem newlines_concat (done : List Byte) (c : Byte) :
    newlines (done ++ [c]) = newlines done + if c = 10 then 1 else 0 := by
  rw [newlines, List.count_append, List.count_singleton]
  by_cases hc : c = 10
  · rw [if_pos hc, if_pos (beq_iff_eq.mpr hc)]
    rfl
  · rw [if_neg hc, if_neg (fun h => hc (beq_iff_eq.mp h))]
    rfl

section Step

variable (depth : Nat) (hdepth : 0 < depth) (text : List Byte) (w : Watch) (s s' : Serial)

/-- The device takes an item on. -/
theorem shift_written (line : Channel Byte) (h : Written text w s)
    (hshift : s.line.shift = some line) :
    Written text (w.see depth .shift) { s with line := line } := by
  rcases h with ⟨done, htext, hlen, hplaced⟩
  have hsame := Channel.contents_shift s.line line hshift
  rcases Channel.shift_some s.line line hshift with ⟨a, hqueue, -⟩
  refine ⟨done, htext, hlen, ?_⟩
  cases hplaced with
  | waiting w text line' hline => exact Placed.waiting _ text line (hsame.trans hline)
  | carriageReturn flags rest line' hempty hline =>
      -- Nothing waits that could be taken on.
      exact absurd (hempty.symm.trans hqueue) (List.cons_ne_nil a _).symm
  | newline taken flags rest line' hq hline =>
      have hnext : line.queue = [] := by
        cases taken with
        | true => exact absurd (hq.symm.trans hqueue) (List.cons_ne_nil a _).symm
        | false => exact (List.cons.inj (hq.symm.trans hqueue)).2.symm
      exact Placed.newline true flags rest line hnext (hsame.trans hline)
  | other flags c rest line' hc hempty hline =>
      exact absurd (hempty.symm.trans hqueue) (List.cons_ne_nil a _).symm

/-- The status is read. -/
theorem poll_written (status : Byte) (h : Written text w s)
    (hnext : s.writer.next = some (.inb (com1Port + 5)))
    (hstatus : comIsTransmitEmpty status ≠ 0 ↔ s.line.queue = []) :
    Written text (w.see depth (.poll status)) { s with writer := s.writer.resume status } := by
  rcases h with ⟨done, htext, hlen, hplaced⟩
  cases hplaced with
  | waiting w left line hline =>
      cases left with
      | nil => cases hnext
      | cons c rest =>
          by_cases hbusy : comIsTransmitEmpty status = 0
          · -- The loop goes round once more.
            have hstay : ComWriter.resume ⟨.waiting, c :: rest⟩ status = ⟨.waiting, c :: rest⟩ :=
              if_pos hbusy
            rw [hstay]
            exact ⟨done, htext, hlen, Placed.waiting _ _ line hline⟩
          · have hgo : ComWriter.resume ⟨.waiting, c :: rest⟩ status
                = ⟨if c = 10 then .carriageReturn else .character, c :: rest⟩ := if_neg hbusy
            rw [hgo]
            refine ⟨done, htext, hlen, ?_⟩
            by_cases hc : c = 10
            · rw [if_pos hc, hc]
              exact Placed.carriageReturn w.kept rest line (hstatus.mp hbusy) hline
            · rw [if_neg hc]
              exact Placed.other w.kept c rest line hc (hstatus.mp hbusy) hline
  | carriageReturn flags rest line hempty hline => cases hnext
  | newline taken flags rest line hq hline => cases hnext
  | other flags c rest line hc hempty hline => cases hnext

include hdepth

/-- The data port is written. -/
theorem write_written (value : Byte) (h : Written text w s)
    (hnext : s.writer.next = some (.outb ⟨com1Port, value⟩)) :
    Written text (w.see depth (.write value))
      { writer := s.writer.resume 0, line := s.line.push depth value } := by
  rcases h with ⟨done, htext, hlen, hplaced⟩
  rcases heard_concat done w.kept hlen with ⟨hother, hnewline⟩
  -- What is left of the text is one character less.
  have hrest : ∀ (c : Byte) (rest : List Byte), done ++ c :: rest = done ++ [c] ++ rest :=
    fun c rest => by rw [List.append_assoc, List.singleton_append]
  cases hplaced with
  | waiting w left line hline =>
      cases left with
      | nil => cases hnext
      | cons c rest => cases hnext
  | carriageReturn flags rest line hempty hline =>
      have hvalue : value = 13 := by
        cases hnext
        rfl
      have hroom : line.queue.length < depth := by
        rw [hempty]
        exact hdepth
      refine ⟨done, htext, hlen, ?_⟩
      rw [hvalue]
      refine Placed.newline false flags rest _ ?_ ?_
      · exact (Channel.queue_push depth line 13 hroom).trans (by rw [hempty]; rfl)
      · exact (Channel.contents_push depth line 13 hroom).trans (by rw [hline])
  | newline taken flags rest line hq hline =>
      have hvalue : value = 10 := by
        cases hnext
        rfl
      refine ⟨done ++ [10], htext.trans (hrest 10 rest), ?_, ?_⟩
      · rw [newlines_concat, if_pos rfl, ← hlen]
        exact List.length_append
      · refine Placed.waiting _ rest _ ?_
        rw [hvalue]
        refine Eq.trans ?_ (hnewline (taken || decide (2 ≤ depth))).symm
        by_cases hroom : line.queue.length < depth
        · -- The carriage return is taken on, or there is a second place.
          have hflag : (taken || decide (2 ≤ depth)) = true := by
            cases taken with
            | true => rfl
            | false =>
                rw [hq] at hroom
                exact decide_eq_true hroom
          rw [hflag, if_pos rfl]
          exact (Channel.contents_push depth line 10 hroom).trans
            (by rw [hline, List.append_assoc]; rfl)
        · cases taken with
          | true =>
              rw [hq] at hroom
              exact absurd hdepth hroom
          | false =>
              have hfull : ¬ 2 ≤ depth := by
                rw [hq] at hroom
                exact hroom
              have hsent : line.sent = heard flags done := by
                rw [Channel.contents, hq] at hline
                exact List.append_cancel_right hline
              rw [decide_eq_false hfull]
              exact (Channel.contents_push_full depth line 10 [] 13 hq (Nat.not_lt.mp hroom)).trans
                (by rw [hsent, List.append_nil]; rfl)
  | other flags c rest line hc hempty hline =>
      have hvalue : value = c := by
        cases hnext
        rfl
      have hroom : line.queue.length < depth := by
        rw [hempty]
        exact hdepth
      refine ⟨done ++ [c], htext.trans (hrest c rest), ?_, ?_⟩
      · rw [newlines_concat, if_neg hc]
        exact hlen
      · refine Placed.waiting _ rest _ ?_
        rw [hvalue]
        exact (Channel.contents_push depth line c hroom).trans
          (by rw [hline]; exact (hother c hc).symm)

/-- What one step keeps, whoever takes it. -/
theorem step_written (e : SerialEvent) (h : Written text w s) (hstep : SerialStep depth s e s') :
    Written text (w.see depth e) s' := by
  cases hstep with
  | poll status hnext hstatus => exact poll_written depth text w s status h hnext hstatus
  | write value hnext => exact write_written depth hdepth text w s value h hnext
  | shift line hshift => exact shift_written depth text w s line h hshift

end Step

/-! ### Runs -/

section Runs

variable (depth : Nat) (hdepth : 0 < depth) (text : List Byte)

include hdepth

/-- What a run keeps, by induction on its events. -/
theorem run_written (events : List SerialEvent) : ∀ (w : Watch) (s s' : Serial),
    Written text w s → Run (SerialStep depth) s events s' →
      Written text (events.foldl (Watch.see depth) w) s' := by
  induction events with
  | nil =>
      intro w s s' h hrun
      cases hrun
      exact h
  | cons e events ih =>
      intro w s s' h hrun
      cases hrun with
      | cons _ t _ _ _ hstep hrest =>
          exact ih _ t s' (step_written depth hdepth text w s t e h hstep) hrest

theorem start_written (events : List SerialEvent) (s : Serial)
    (hrun : Run (SerialStep depth) (Serial.start text) events s) :
    Written text (Watch.all depth events) s :=
  run_written depth hdepth text events ⟨none, []⟩ (Serial.start text) s
    ⟨[], rfl, rfl, Placed.waiting _ text _ rfl⟩ hrun

/-- At any time everything written so far is on the line or about to be, in order
    and once, with the carriage returns that got past the register; and a newline
    that is being written has its own. -/
theorem run_heard (events : List SerialEvent) (s : Serial)
    (hrun : Run (SerialStep depth) (Serial.start text) events s) :
    ∃ done, text = done ++ s.writer.text ∧ (kept depth events).length = newlines done ∧
      (s.line.sent ++ s.line.queue = heard (kept depth events) done ∨
        s.writer.text.head? = some 10 ∧
          s.line.sent ++ s.line.queue = heard (kept depth events) done ++ [13]) := by
  rcases start_written depth hdepth text events s hrun with ⟨done, htext, hlen, hplaced⟩
  refine ⟨done, htext, hlen, ?_⟩
  unfold kept
  generalize Watch.all depth events = w at hplaced
  cases hplaced with
  | waiting w left line hline => exact Or.inl hline
  | carriageReturn flags rest line hempty hline => exact Or.inl hline
  | newline taken flags rest line hq hline => exact Or.inr ⟨rfl, hline⟩
  | other flags c rest line hc hempty hline => exact Or.inl hline

omit hdepth in
/-- A register of two places keeps every carriage return. -/
theorem kept_all (hroom : 2 ≤ depth) (events : List SerialEvent) : ∀ w : Watch,
    (∀ f ∈ w.kept, f = true) → ∀ f ∈ (events.foldl (Watch.see depth) w).kept, f = true := by
  induction events with
  | nil => exact fun w h => h
  | cons e events ih =>
      intro w h
      refine ih _ ?_
      cases e with
      | poll status => exact h
      | shift => exact h
      | write value =>
          unfold Watch.see
          cases w.pending with
          | none => exact h
          | some taken =>
              intro f hf
              rcases List.mem_append.mp hf with hold | hnew
              · exact h f hold
              · rw [List.mem_singleton.mp hnew, decide_eq_true hroom, Bool.or_true]

/-- When the last call has returned, everything it was called with is on the line
    or about to be, in order and once, with the carriage returns that got past
    the register. All of them do if it has two places. -/
theorem heard_of_run (events : List SerialEvent) (s : Serial)
    (hrun : Run (SerialStep depth) (Serial.start text) events s) (hdone : s.writer.text = []) :
    s.line.sent ++ s.line.queue = heard (kept depth events) text ∧
      (kept depth events).length = newlines text ∧
      (2 ≤ depth → ∀ f ∈ kept depth events, f = true) := by
  rcases start_written depth hdepth text events s hrun with ⟨done, htext, hlen, hplaced⟩
  rw [hdone, List.append_nil] at htext
  rw [← htext] at hlen hplaced
  refine ⟨?_, hlen, fun hroom =>
    kept_all depth hroom events _ fun f hf => absurd hf List.not_mem_nil⟩
  -- With nothing left to write, the loop is all a call could be in.
  unfold kept
  generalize Watch.all depth events = w at hplaced
  cases hplaced with
  | waiting w left line hline => exact hline
  | carriageReturn flags rest line hempty hline => cases hdone
  | newline taken flags rest line hq hline => cases hdone
  | other flags c rest line hc hempty hline => cases hdone

end Runs

/-- A letter and a newline, the letter being taken on before the newline is
    written, and nothing in between the two bytes of that. -/
def letterEvents : List SerialEvent :=
  [.poll 0x20, .write 97, .shift, .poll 0x20, .write 13, .write 10]

/-- With one place the newline takes that of its carriage return. -/
theorem letter_run : Run (SerialStep 1) (Serial.start [97, 10]) letterEvents
    ⟨⟨.waiting, []⟩, ⟨[10], [97]⟩⟩ :=
  Run.cons _ _ _ _ _ (SerialStep.poll _ 0x20 rfl (by decide))
    (Run.cons _ _ _ _ _ (SerialStep.write _ 97 rfl)
      (Run.cons _ _ _ _ _ (SerialStep.shift _ ⟨[], [97]⟩ rfl)
        (Run.cons _ _ _ _ _ (SerialStep.poll _ 0x20 rfl (by decide))
          (Run.cons _ _ _ _ _ (SerialStep.write _ 13 rfl)
            (Run.cons _ _ _ _ _ (SerialStep.write _ 10 rfl) (Run.nil _))))))

theorem run_heard_letter : ∃ done, ([97, 10] : List Byte) = done ++ [] ∧
    (kept 1 letterEvents).length = newlines done ∧
      (([97, 10] : List Byte) = heard (kept 1 letterEvents) done ∨
        ([] : List Byte).head? = some 10 ∧
          ([97, 10] : List Byte) = heard (kept 1 letterEvents) done ++ [13]) :=
  run_heard 1 Nat.one_pos [97, 10] letterEvents _ letter_run

end UnixP6
