import UnixP6.Theory.Interrupts.Delivery

/-!
# In Service

The end-of-interrupt command of `irq_sendeoi` does not say which line it is for.
It ends the most urgent line a controller has in service, and the kernel relies
on that being the one it has handled. Here is why it is, whatever comes in
between, and the one case in which it would not be.

What a controller has in service are the lines of the interrupts that have not
been ended yet, the last one first (`Delivery.Inv`). A line of the slave is in
service twice, on the slave up to the first write and as line 2 of the master up
to the second. An interrupt nobody asked for is in service nowhere, and is
ended all the same. That is harmless on the slave, where nothing else can be
in service at the time. On the master it is harmless as long as nothing else is
in service there either (`Delivery.Undisturbed`).

## Main definitions

* `Activation.masterLine`, `Activation.slaveLine`: What it keeps in service.
* `Delivery.InOrder`: What holds whatever is in service.
* `Delivery.Inv`: In service is what has not been ended.
* `Delivery.Undisturbed`: No interrupt nobody asked for comes in between.

## Theorems

* `Delivery.step_inOrder`, `Delivery.run_inOrder`: Every event keeps the order.
* `Delivery.step_inv`, `Delivery.run_inv`: Undisturbed events keep the invariant.
-/

namespace UnixP6

open CSemantics

/-- What an interrupt keeps in service on the master until the last write. -/
def Activation.masterLine (a : Activation) : Option Nat :=
  if a.writes = [] then none
  else match a.source with
    | .line n => some (if n < 8 then n else 2)
    | .spurious slave => if slave then some 2 else none

/-- What it keeps in service on the slave until the first of two writes. -/
def Activation.slaveLine (a : Activation) : Option Nat :=
  if a.writes.length = 2 then
    match a.source with
    | .line n => some (n - 8)
    | .spurious _ => none
  else none

/-- An interrupt as the kernel has it: of a line there is, entered through the
    gate of its number, with the end of `irq_sendeoi` still to come. -/
structure Activation.Proper (irqTable : Nat → Word) (ret : Word) (a : Activation) : Prop where
  line : ∀ n, a.source = .line n → n < 16 ∧ n ≠ 2
  entered : a.entered = irqint (BitVec.ofNat 32 a.source.number) ret
    (a.before.throughGate ⟨irqTable a.source.number, 0x08, 0x8E⟩)
  on : a.before.interruptsOn = true
  writes : a.writes <:+ sendeoiWrites (BitVec.ofNat 8 a.source.number)

namespace Delivery

/-- What should be in service on the master. A line passed on to the slave is in
    service before its vector is known. -/
def masterLines (s : Delivery) : List Nat :=
  (if s.phase = .cascaded then [2] else []) ++ s.active.filterMap Activation.masterLine

/-- What should be in service on the slave. -/
def slaveLines (s : Delivery) : List Nat := s.active.filterMap Activation.slaveLine

/-- The gates are those of the lines, and what is asked for and what is being
    handled are lines there are. -/
structure InOrder (irqTable : Nat → Word) (ret : Word) (s : Delivery) : Prop where
  gates : ∀ line < 16, Gate.ofBytes (byteOf (s.ints.idtTable (s.ints.pics.vector line)))
    = ⟨irqTable line, 0x08, 0x8E⟩
  ready : s.ints.pics.Ready
  masterRequests : ∀ r ∈ s.master.requests, r < 8 ∧ r ≠ 2
  slaveRequests : ∀ r ∈ s.slave.requests, r < 8
  proper : ∀ a ∈ s.active, a.Proper irqTable ret

/-- In service is what has not been ended, and under an interrupt nobody asked for
    nothing is in service on the master. -/
structure Inv (irqTable : Nat → Word) (ret : Word) (s : Delivery) : Prop
    extends InOrder irqTable ret s where
  master : s.master.Stacked s.masterLines
  slave : s.slave.Stacked s.slaveLines
  spurious : s.active.Pairwise fun a b =>
    a.source = .spurious false → a.writes ≠ [] → b.masterLine = none

/-- An interrupt nobody asked for finds nothing in service on the master. -/
def Undisturbed (s : Delivery) : Event → Prop
  | .enter (.spurious false) _ => s.master.inService = ∅
  | _ => True

end Delivery

/-! ### The writes of one interrupt -/

/-- The writes of `irq_sendeoi` for a line. -/
theorem sendeoiWrites_number (n : Nat) (hn : n < 16) :
    sendeoiWrites (BitVec.ofNat 8 n)
      = if n < 8 then [(pic1Command, picEoi)]
        else [(pic2Command, picEoi), (pic1Command, picEoi)] := by
  have hslave : (8 : Byte) ≤ BitVec.ofNat 8 n ↔ ¬ n < 8 := by
    rw [BitVec.le_def, BitVec.toNat_ofNat]
    show 8 ≤ _ ↔ _
    omega
  unfold sendeoiWrites
  by_cases hmaster : n < 8
  · rw [if_pos hmaster, if_neg (fun hc => hslave.mp hc hmaster)]
    rfl
  · rw [if_neg hmaster, if_pos (hslave.mpr hmaster)]
    rfl

/-- No controller is changed otherwise by an end of interrupt. -/
theorem Pics.outb_eoi (p : Pics) (port : Half) (hport : port = pic1Command ∨ port = pic2Command) :
    p.outb port picEoi = p := by
  have hcommand : ∀ chip : Pic, chip.command picEoi = chip := fun chip => if_neg (by decide)
  rcases hport with rfl | rfl
  · rw [Pics.outb, if_pos rfl, hcommand]
  · rw [Pics.outb, if_neg (by decide), if_neg (by decide), if_pos rfl, hcommand]

theorem Delivery.outb_master (s : Delivery) :
    s.outb pic1Command picEoi = { s with master := s.master.endOfService } := by
  have hother : pic1Command ≠ pic2Command := by decide
  simp only [Delivery.outb, Pics.outb_eoi s.ints.pics pic1Command (Or.inl rfl), hother, and_self,
    if_true, false_and, if_false]

theorem Delivery.outb_slave (s : Delivery) :
    s.outb pic2Command picEoi = { s with slave := s.slave.endOfService } := by
  have hother : pic2Command ≠ pic1Command := by decide
  simp only [Delivery.outb, Pics.outb_eoi s.ints.pics pic2Command (Or.inr rfl), hother, and_self,
    if_true, false_and, if_false]

/-- What has been ended keeps nothing in service. -/
theorem Activation.lines_ended (a : Activation) (h : a.writes = []) :
    a.masterLine = none ∧ a.slaveLine = none := by
  refine ⟨if_pos h, ?_⟩
  unfold Activation.slaveLine
  rw [h]
  rfl

/-- Only a spurious interrupt of the master has no line there before it is ended. -/
theorem Activation.source_of_masterLine (a : Activation) (hopen : a.writes ≠ [])
    (hline : a.masterLine = none) : a.source = .spurious false := by
  unfold Activation.masterLine at hline
  rw [if_neg hopen] at hline
  cases hsource : a.source with
  | line n =>
      rw [hsource] at hline
      exact absurd hline (Option.some_ne_none _)
  | spurious slave =>
      rw [hsource] at hline
      cases slave with
      | false => rfl
      | true => exact absurd hline (Option.some_ne_none 2)

/-- Up to the last write a line of the slave keeps line 2 of the master. -/
theorem Activation.masterLine_slave (a : Activation) (hslave : 8 ≤ a.source.number)
    (hwrites : a.writes ≠ []) :
    a.masterLine = some 2 := by
  unfold Activation.masterLine
  rw [if_neg hwrites]
  cases hsource : a.source with
  | line n =>
      rw [hsource] at hslave
      exact congrArg some (if_neg (Nat.not_lt.mpr hslave))
  | spurious slave =>
      rw [hsource] at hslave
      cases slave with
      | true => rfl
      | false => exact absurd hslave (by decide)

section Proper

variable (irqTable : Nat → Word) (ret : Word) (a : Activation) (h : a.Proper irqTable ret)

include h

theorem Activation.Proper.number_lt : a.source.number < 16 := by
  cases hsource : a.source with
  | line n => exact (h.line n hsource).1
  | spurious slave => cases slave <;> decide

/-- A line of the slave has two writes, the first to the slave. -/
theorem Activation.Proper.write_cases (w : Half × Byte) (writes : List (Half × Byte))
    (hwrites : a.writes = w :: writes) :
    (8 ≤ a.source.number ∧ w = (pic2Command, picEoi) ∧ writes = [(pic1Command, picEoi)]) ∨
      (w = (pic1Command, picEoi) ∧ writes = []) := by
  have hsuffix := h.writes
  rw [sendeoiWrites_number _ (Activation.Proper.number_lt irqTable ret a h), hwrites] at hsuffix
  by_cases hmaster : a.source.number < 8
  · rw [if_pos hmaster, List.suffix_cons_iff, List.cons.injEq, List.suffix_nil] at hsuffix
    exact Or.inr (hsuffix.resolve_right (List.cons_ne_nil _ _))
  · rw [if_neg hmaster, List.suffix_cons_iff, List.suffix_cons_iff, List.cons.injEq,
      List.cons.injEq, List.suffix_nil] at hsuffix
    rcases hsuffix with hboth | hlast | hnone
    · exact Or.inl ⟨Nat.le_of_not_lt hmaster, hboth⟩
    · exact Or.inr hlast
    · exact absurd hnone (List.cons_ne_nil _ _)

/-- What is in service on the slave is so on the master. -/
theorem Activation.Proper.masterLine_of_slaveLine (r : Nat) (hr : a.slaveLine = some r) :
    a.masterLine = some 2 := by
  unfold Activation.slaveLine at hr
  by_cases hlength : a.writes.length = 2
  · rw [if_pos hlength] at hr
    cases hwrites : a.writes with
    | nil => rw [hwrites] at hlength; exact absurd hlength (by decide)
    | cons w writes =>
        rw [hwrites] at hlength
        rcases h.write_cases irqTable ret a w writes hwrites with ⟨hslave, _, _⟩ | ⟨_, hlast⟩
        · exact a.masterLine_slave hslave (hwrites ▸ List.cons_ne_nil w writes)
        · rw [hlast] at hlength
          exact absurd hlength (show ¬ 1 = 2 by decide)
  · rw [if_neg hlength] at hr
    exact absurd hr.symm (Option.some_ne_none r)

end Proper

/-- Nothing is in service on the slave when line 2 of the master is not. -/
theorem slaveLines_nil (irqTable : Nat → Word) (ret : Word) (l : List Activation)
    (h : ∀ a ∈ l, a.Proper irqTable ret) (hnot : 2 ∉ l.filterMap Activation.masterLine) :
    l.filterMap Activation.slaveLine = [] := by
  refine List.filterMap_eq_nil_iff.mpr fun a ha => ?_
  cases hr : a.slaveLine with
  | none => rfl
  | some r =>
      exact absurd (List.mem_filterMap.mpr
        ⟨a, ha, (h a ha).masterLine_of_slaveLine irqTable ret a r hr⟩) hnot

/-! ### What each event keeps -/

namespace Delivery

/-- What the master offers. -/
theorem masterNext_some (s : Delivery) (n : Nat) (hnext : s.masterNext = some n) :
    (n ∈ s.master.requests ∨ n = 2 ∧ s.slaveNext.isSome) ∧
      s.ints.pics.master.mask.getLsbD n = false ∧ (∀ q ∈ s.master.inService, n < q) ∧
      ∀ q ∈ s.master.requests, s.ints.pics.master.mask.getLsbD q = false → n ≤ q := by
  rcases Arbiter.next_some _ _ n hnext with ⟨hreq, hclear, hurgent, hleast⟩
  unfold masterRequests at hreq hurgent hleast
  cases hslave : s.slaveNext.isSome with
  | true =>
      rw [hslave, if_pos rfl] at hreq hurgent hleast
      refine ⟨?_, hclear, hurgent, fun q hq => hleast q (Finset.mem_insert_of_mem hq)⟩
      rcases Finset.mem_insert.mp hreq with hn | hreq
      · exact Or.inr ⟨hn, rfl⟩
      · exact Or.inl hreq
  | false =>
      rw [hslave, if_neg Bool.false_ne_true] at hreq hurgent hleast
      exact ⟨Or.inl hreq, hclear, hurgent, hleast⟩

/-- The state after an entry through the gate of a line. -/
def afterEntry (irqTable : Nat → Word) (ret : Word) (s : Delivery) (source : Source)
    (before : Cpu) : Delivery :=
  { s.granted source with
    ints := { s.ints with interruptFlag := false }
    phase := .running
    active := s.opened irqTable ret source before :: s.active }

section Order

variable (irqTable : Nat → Word) (ret : Word) (s t : Delivery) (h : s.InOrder irqTable ret)

/-- A registration changes handlers and masks. -/
theorem register_keeps (ints : Interrupts) (hready : ints.pics.Ready) (c : HandlerCall) :
    (register ints c).idtTable = ints.idtTable ∧ (register ints c).pics.Ready ∧
      ∀ line, (register ints c).pics.vector line = ints.pics.vector line := by
  refine ⟨?_, register_ready ints c hready, fun line => ?_⟩
  · unfold register idtSetirqhandler
    by_cases hline : 15 < c.line
    · rw [if_pos hline]
    · rw [if_neg hline]
      by_cases henable : c.enable ≠ 0
      · rw [if_pos henable]
      · rw [if_neg henable]
  · rw [register_pics]
    by_cases hclears : c.line.toNat < 16 ∧ c.enable ≠ 0
    · rw [if_pos hclears, irqClearmask, outb_line _ hready]
      by_cases hlow : c.line < 8
      · rw [if_pos hlow]
        rfl
      · rw [if_neg hlow]
        rfl
    · rw [if_neg hclears]

include h

/-- A device asks for its line, or does so no longer. -/
theorem inOrder_requests (master slave : Finset Nat) (hmaster : ∀ r ∈ master, r < 8 ∧ r ≠ 2)
    (hslave : ∀ r ∈ slave, r < 8) :
    InOrder irqTable ret { s with
      master := { s.master with requests := master }
      slave := { s.slave with requests := slave } } :=
  ⟨h.gates, h.ready, hmaster, hslave, h.proper⟩

theorem inOrder_raised (line : Nat) (hline : line < 16 ∧ line ≠ 2) :
    (s.raised line).InOrder irqTable ret := by
  unfold raised
  by_cases hlow : line < 8
  · rw [if_pos hlow]
    refine inOrder_requests irqTable ret s h _ _ (fun r hr => ?_) h.slaveRequests
    rcases Finset.mem_insert.mp hr with rfl | hr
    · exact ⟨hlow, hline.2⟩
    · exact h.masterRequests r hr
  · rw [if_neg hlow]
    refine inOrder_requests irqTable ret s h _ _ h.masterRequests (fun r hr => ?_)
    rcases Finset.mem_insert.mp hr with rfl | hr
    · omega
    · exact h.slaveRequests r hr

theorem inOrder_dropped (line : Nat) : (s.dropped line).InOrder irqTable ret := by
  unfold dropped
  by_cases hlow : line < 8
  · rw [if_pos hlow]
    exact inOrder_requests irqTable ret s h _ _
      (fun r hr => h.masterRequests r (Finset.mem_of_mem_erase hr)) h.slaveRequests
  · rw [if_neg hlow]
    exact inOrder_requests irqTable ret s h _ _ h.masterRequests
      (fun r hr => h.slaveRequests r (Finset.mem_of_mem_erase hr))

theorem inOrder_register (c : HandlerCall) :
    InOrder irqTable ret { s with ints := register s.ints c } := by
  rcases register_keeps s.ints h.ready c with ⟨htable, hready, hvector⟩
  refine ⟨fun line hline => ?_, hready, h.masterRequests, h.slaveRequests, h.proper⟩
  rw [htable, hvector]
  exact h.gates line hline

omit h in
theorem granted_keeps (source : Source) :
    (s.granted source).ints = s.ints ∧ (s.granted source).active = s.active := by
  cases source with
  | line n =>
      unfold granted
      by_cases hlow : n < 8
      · simp only [hlow, if_true, and_self]
      · simp only [hlow, if_false, and_self]
  | spurious slave => exact ⟨rfl, rfl⟩

/-- The vectors that are delivered are those of lines there are. -/
theorem answer_number (source : Source) (hanswer : s.answer = some source) :
    source.number < 16 ∧ ∀ n, source = .line n → n ≠ 2 := by
  cases hphase : s.phase with
  | running =>
      rw [answer, hphase] at hanswer
      exact absurd hanswer (Option.some_ne_none source).symm
  | noticed =>
      rw [answer, hphase] at hanswer
      cases hnext : s.masterNext with
      | none =>
          simp only [hnext, Option.some.injEq] at hanswer
          rw [← hanswer]
          exact ⟨by decide, fun n hn => nomatch hn⟩
      | some m =>
          simp only [hnext] at hanswer
          by_cases hm2 : m = 2
          · rw [if_pos hm2] at hanswer
            exact absurd hanswer (Option.some_ne_none source).symm
          · rw [if_neg hm2, Option.some.injEq] at hanswer
            have hreq := (masterNext_some s m hnext).1.resolve_right fun hc => hm2 hc.1
            rw [← hanswer]
            refine ⟨?_, fun n hn => Source.line.inj hn ▸ hm2⟩
            have hm := (h.masterRequests m hreq).1
            show m < 16
            omega
  | cascaded =>
      rw [answer, hphase] at hanswer
      cases hnext : s.slaveNext with
      | none =>
          simp only [hnext, Option.some.injEq] at hanswer
          rw [← hanswer]
          exact ⟨by decide, fun n hn => nomatch hn⟩
      | some m =>
          simp only [hnext, Option.some.injEq] at hanswer
          have hm := h.slaveRequests m (Arbiter.next_some _ _ m hnext).1
          rw [← hanswer]
          refine ⟨show m + 8 < 16 by omega, fun n hn => ?_⟩
          rw [← Source.line.inj hn]
          omega

/-- What the controllers answer can always be taken. -/
theorem enter_eq (hstubs : ∀ i < 16, ∀ j < 16, irqTable i = irqTable j → i = j)
    (source : Source) (before : Cpu) (hanswer : s.answer = some source) :
    (s.granted source).enter irqTable ret source before
      = some (s.afterEntry irqTable ret source before) := by
  have hn := (answer_number irqTable ret s h source hanswer).1
  rcases granted_keeps s source with ⟨hints, hactive⟩
  rw [enter_spec irqTable ret hstubs _ source before hn (by rw [hints]; exact h.gates _ hn), hints,
    hactive]
  unfold afterEntry opened
  rw [hints]

/-- An entry opens one interrupt, and turns interrupts off. -/
theorem enter_opens (hstubs : ∀ i < 16, ∀ j < 16, irqTable i = irqTable j → i = j)
    (source : Source) (before : Cpu) (hanswer : s.answer = some source)
    (hentered : (s.granted source).enter irqTable ret source before = some t) :
    t = s.afterEntry irqTable ret source before := by
  rw [enter_eq irqTable ret s h hstubs source before hanswer, Option.some.injEq] at hentered
  exact hentered.symm

/-- A grant takes a request away. -/
theorem inOrder_granted (source : Source) : (s.granted source).InOrder irqTable ret := by
  cases source with
  | line n =>
      unfold granted
      by_cases hlow : n < 8
      · simp only [hlow, if_true]
        exact ⟨h.gates, h.ready, fun r hr => h.masterRequests r (Finset.mem_of_mem_erase hr),
          h.slaveRequests, h.proper⟩
      · simp only [hlow, if_false]
        exact ⟨h.gates, h.ready, h.masterRequests,
          fun r hr => h.slaveRequests r (Finset.mem_of_mem_erase hr), h.proper⟩
  | spurious slave => exact h

/-- The interrupt that is opened is a proper one. -/
theorem inOrder_opened (source : Source) (before : Cpu) (hon : before.interruptsOn = true)
    (hanswer : s.answer = some source) :
    (s.afterEntry irqTable ret source before).InOrder irqTable ret := by
  rcases answer_number irqTable ret s h source hanswer with ⟨hnumber, hline⟩
  have hgranted := inOrder_granted irqTable ret s h source
  refine ⟨h.gates, h.ready, hgranted.masterRequests, hgranted.slaveRequests, fun a ha => ?_⟩
  rcases List.mem_cons.mp ha with rfl | ha
  · refine ⟨fun n (hn : source = .line n) => ⟨?_, hline n hn⟩, rfl, hon, List.suffix_refl _⟩
    rw [hn] at hnumber
    exact hnumber
  · exact h.proper a ha

/-- A write leaves the rest of its interrupt to be done. -/
theorem inOrder_write (a : Activation) (active : List Activation) (w : Half × Byte)
    (writes : List (Half × Byte)) (hactive : s.active = a :: active)
    (hwrites : a.writes = w :: writes) :
    InOrder irqTable ret
      ({ s with active := { a with writes := writes } :: active }.outb w.1 w.2) := by
  have hproper : a.Proper irqTable ret ∧ ∀ b ∈ active, b.Proper irqTable ret := by
    rw [← List.forall_mem_cons, ← hactive]
    exact h.proper
  have hproper' : ∀ b ∈ { a with writes := writes } :: active, b.Proper irqTable ret := by
    refine List.forall_mem_cons.mpr ⟨⟨hproper.1.line, hproper.1.entered, hproper.1.on, ?_⟩, hproper.2⟩
    exact ((List.suffix_cons w writes).trans (hwrites ▸ List.suffix_refl _)).trans hproper.1.writes
  -- Both kinds of write are the end of a service.
  rcases hproper.1.write_cases irqTable ret a w writes hwrites with ⟨_, rfl, _⟩ | ⟨rfl, _⟩
  · rw [outb_slave]
    refine ⟨h.gates, h.ready, h.masterRequests, ?_, hproper'⟩
    rw [Arbiter.endOfService_requests]
    exact h.slaveRequests
  · rw [outb_master]
    refine ⟨h.gates, h.ready, ?_, h.slaveRequests, hproper'⟩
    rw [Arbiter.endOfService_requests]
    exact h.masterRequests

/-- Every event keeps the order, whatever is in service. -/
theorem step_inOrder (hstubs : ∀ i < 16, ∀ j < 16, irqTable i = irqTable j → i = j) (e : Event)
    (hstep : s.Step irqTable ret e t) : t.InOrder irqTable ret := by
  unfold Step at hstep
  cases e with
  | raise line =>
      simp only [step, Option.ite_none_right_eq_some, Option.some.injEq] at hstep
      rw [← hstep.2]
      exact inOrder_raised irqTable ret s h line hstep.1
  | drop line =>
      simp only [step, Option.ite_none_right_eq_some, Option.some.injEq] at hstep
      rw [← hstep.2]
      exact inOrder_dropped irqTable ret s h line
  | notice =>
      simp only [step, Option.ite_none_right_eq_some, Option.some.injEq] at hstep
      rw [← hstep.2]
      exact ⟨h.gates, h.ready, h.masterRequests, h.slaveRequests, h.proper⟩
  | forward =>
      simp only [step, Option.ite_none_right_eq_some, Option.some.injEq] at hstep
      rw [← hstep.2]
      exact ⟨h.gates, h.ready, fun r hr => h.masterRequests r (Finset.mem_of_mem_erase hr),
        h.slaveRequests, h.proper⟩
  | enter source before =>
      simp only [step, Option.ite_none_right_eq_some] at hstep
      rcases hstep with ⟨⟨hanswer, hon⟩, hentered⟩
      rw [enter_opens irqTable ret s t h hstubs source before hanswer hentered]
      exact inOrder_opened irqTable ret s h source before hon hanswer
  | write =>
      rcases step_write irqTable ret s t hstep with ⟨a, active, w, writes, _, hactive, hwrites, rfl⟩
      exact inOrder_write irqTable ret s h a active w writes hactive hwrites
  | leave after =>
      rcases step_leave irqTable ret s t after hstep with ⟨a, active, _, hactive, _, _, rfl⟩
      refine ⟨h.gates, h.ready, h.masterRequests, h.slaveRequests, fun b hb => ?_⟩
      exact h.proper b (hactive ▸ List.mem_cons_of_mem a hb)
  | sti =>
      simp only [step, Option.ite_none_right_eq_some, Option.some.injEq] at hstep
      rw [← hstep.2]
      exact ⟨h.gates, h.ready, h.masterRequests, h.slaveRequests, h.proper⟩
  | cli =>
      simp only [step, Option.ite_none_right_eq_some, Option.some.injEq] at hstep
      rw [← hstep.2]
      exact ⟨h.gates, h.ready, h.masterRequests, h.slaveRequests, h.proper⟩
  | register call =>
      simp only [step, Option.ite_none_right_eq_some, Option.some.injEq] at hstep
      rw [← hstep.2]
      exact inOrder_register irqTable ret s h call

end Order

section Steps

variable (irqTable : Nat → Word) (ret : Word) (s t : Delivery) (h : s.Inv irqTable ret)

include h

/-- Once everything has been ended nothing is in service. -/
theorem Inv.inService_nil (hphase : s.phase ≠ .cascaded) (hended : ∀ a ∈ s.active, a.writes = []) :
    s.master.inService = ∅ ∧ s.slave.inService = ∅ := by
  have hmaster := h.master
  have hslave := h.slave
  unfold masterLines at hmaster
  unfold slaveLines at hslave
  have hlines := fun (a : Activation) ha => a.lines_ended (hended a ha)
  rw [if_neg hphase, List.nil_append,
    List.filterMap_eq_nil_iff.mpr fun a ha => (hlines a ha).1] at hmaster
  rw [List.filterMap_eq_nil_iff.mpr fun a ha => (hlines a ha).2] at hslave
  exact ⟨hmaster.inService_nil, hslave.inService_nil⟩

/-- What changes nothing in service keeps what is in service. -/
theorem Inv.of_same (ht : t.InOrder irqTable ret)
    (hphase : t.phase = .cascaded ↔ s.phase = .cascaded) (hactive : t.active = s.active)
    (hmaster : t.master.inService = s.master.inService)
    (hslave : t.slave.inService = s.slave.inService) : t.Inv irqTable ret := by
  have hlines : t.masterLines = s.masterLines := by
    unfold masterLines
    simp only [hphase, hactive]
  have hlines' : t.slaveLines = s.slaveLines := by
    unfold slaveLines
    rw [hactive]
  refine ⟨ht, ?_, ?_, by rw [hactive]; exact h.spurious⟩
  · rw [hlines]
    exact h.master.of_inService _ _ _ hmaster
  · rw [hlines']
    exact h.slave.of_inService _ _ _ hslave

omit h in
theorem raised_inService (line : Nat) : (s.raised line).phase = s.phase ∧
    (s.raised line).active = s.active ∧ (s.raised line).master.inService = s.master.inService ∧
    (s.raised line).slave.inService = s.slave.inService := by
  unfold raised
  by_cases hlow : line < 8
  · rw [if_pos hlow]
    exact ⟨rfl, rfl, rfl, rfl⟩
  · rw [if_neg hlow]
    exact ⟨rfl, rfl, rfl, rfl⟩

omit h in
theorem dropped_inService (line : Nat) : (s.dropped line).phase = s.phase ∧
    (s.dropped line).active = s.active ∧ (s.dropped line).master.inService = s.master.inService ∧
    (s.dropped line).slave.inService = s.slave.inService := by
  unfold dropped
  by_cases hlow : line < 8
  · rw [if_pos hlow]
    exact ⟨rfl, rfl, rfl, rfl⟩
  · rw [if_neg hlow]
    exact ⟨rfl, rfl, rfl, rfl⟩

/-- The master passes the acknowledgement on. -/
theorem inv_forward (hphase : s.phase = .noticed) (hnext : s.masterNext = some 2)
    (ht : InOrder irqTable ret { s with master := s.master.grant 2, phase := .cascaded }) :
    Inv irqTable ret { s with master := s.master.grant 2, phase := .cascaded } := by
  have hurgent : ∀ q ∈ s.master.inService, 2 < q := (masterNext_some s 2 hnext).2.2.1
  refine ⟨ht, ?_, h.slave, h.spurious⟩
  have hmaster := h.master
  unfold masterLines at hmaster ⊢
  rw [if_neg (by rw [hphase]; exact Phase.noConfusion)] at hmaster
  rw [if_pos rfl]
  exact hmaster.grant _ _ 2 hurgent

/-- An entry, by what it has in service. -/
theorem inv_opened (source : Source) (before : Cpu) (hon : before.interruptsOn = true)
    (hanswer : s.answer = some source)
    (hmaster : (s.granted source).master.Stacked
      ((s.opened irqTable ret source before :: s.active).filterMap Activation.masterLine))
    (hslave : (s.granted source).slave.Stacked
      ((s.opened irqTable ret source before :: s.active).filterMap Activation.slaveLine))
    (hspurious : source = .spurious false → ∀ a ∈ s.active, a.masterLine = none) :
    (s.afterEntry irqTable ret source before).Inv irqTable ret :=
  ⟨inOrder_opened irqTable ret s h.toInOrder source before hon hanswer, hmaster, hslave,
    List.pairwise_cons.mpr ⟨fun b hb hsp _ => hspurious hsp b hb, h.spurious⟩⟩

omit h in
/-- What an entry has in service. -/
theorem opened_lines (source : Source) (before : Cpu) :
    (s.opened irqTable ret source before).masterLine = (match source with
      | .line n => some (if n < 8 then n else 2)
      | .spurious slave => if slave then some 2 else none) ∧
    (source.number < 16 → (s.opened irqTable ret source before).slaveLine = match source with
      | .line n => if n < 8 then none else some (n - 8)
      | .spurious _ => none) := by
  refine ⟨if_neg ?_, fun hn => ?_⟩
  · exact List.append_ne_nil_of_right_ne_nil _ (List.cons_ne_nil _ _)
  · unfold Activation.slaveLine opened
    rw [sendeoiWrites_number _ hn]
    cases source with
    | line n =>
        by_cases hlow : n < 8
        · simp only [Source.number, hlow, if_true]
          rfl
        · simp only [Source.number, hlow, if_false]
          rfl
    | spurious slave => exact ite_self none

/-- The master answers for itself. -/
theorem inv_noticed (source : Source) (before : Cpu) (hon : before.interruptsOn = true)
    (hphase : s.phase = .noticed) (hanswer : s.answer = some source)
    (hundisturbed : source = .spurious false → s.master.inService = ∅) :
    (s.afterEntry irqTable ret source before).Inv irqTable ret := by
  have hmaster := h.master
  unfold masterLines at hmaster
  rw [if_neg (by rw [hphase]; exact Phase.noConfusion), List.nil_append] at hmaster
  have hanswer' := hanswer
  rw [answer, hphase] at hanswer'
  cases hnext : s.masterNext with
  | none =>
      simp only [hnext, Option.some.injEq] at hanswer'
      subst hanswer'
      refine inv_opened irqTable ret s h (.spurious false) before hon hanswer ?_ ?_
        (fun _ => List.filterMap_eq_nil_iff.mp (hmaster.stack_nil _ _ (hundisturbed rfl)))
      · rw [List.filterMap_cons, (opened_lines irqTable ret s _ before).1]
        exact hmaster
      · rw [List.filterMap_cons, (opened_lines irqTable ret s _ before).2 (by decide)]
        exact h.slave
  | some n =>
      rcases masterNext_some s n hnext with ⟨hreq, _, hurgent, _⟩
      simp only [hnext] at hanswer'
      by_cases hn2 : n = 2
      · rw [if_pos hn2] at hanswer'
        exact absurd hanswer' (Option.some_ne_none source).symm
      · rw [if_neg hn2, Option.some.injEq] at hanswer'
        subst hanswer'
        have hn := (h.masterRequests n (hreq.resolve_right fun hc => hn2 hc.1)).1
        have hgranted : s.granted (.line n) = { s with master := s.master.grant n } := if_pos hn
        refine inv_opened irqTable ret s h (.line n) before hon hanswer ?_ ?_ (fun hc => nomatch hc)
        · rw [hgranted, List.filterMap_cons, (opened_lines irqTable ret s _ before).1]
          simp only [hn, if_true]
          exact hmaster.grant _ _ n hurgent
        · rw [hgranted, List.filterMap_cons, (opened_lines irqTable ret s (.line n) before).2
            (show n < 16 by omega)]
          simp only [hn, if_true]
          exact h.slave

/-- The slave answers. Line 2 of the master has just been granted, so nothing else
    of the slave is in service. -/
theorem inv_cascaded (source : Source) (before : Cpu) (hon : before.interruptsOn = true)
    (hphase : s.phase = .cascaded) (hanswer : s.answer = some source) :
    (s.afterEntry irqTable ret source before).Inv irqTable ret := by
  have hmaster := h.master
  unfold masterLines at hmaster
  rw [if_pos hphase, List.singleton_append] at hmaster
  have hanswer' := hanswer
  rw [answer, hphase] at hanswer'
  cases hnext : s.slaveNext with
  | none =>
      simp only [hnext, Option.some.injEq] at hanswer'
      subst hanswer'
      refine inv_opened irqTable ret s h (.spurious true) before hon hanswer ?_ ?_
        (fun hc => nomatch hc)
      · rw [List.filterMap_cons, (opened_lines irqTable ret s _ before).1]
        exact hmaster
      · rw [List.filterMap_cons, (opened_lines irqTable ret s _ before).2 (by decide)]
        exact h.slave
  | some n =>
      rcases Arbiter.next_some _ _ n hnext with ⟨hreq, _, hurgent, _⟩
      simp only [hnext, Option.some.injEq] at hanswer'
      subst hanswer'
      have hn := h.slaveRequests n hreq
      have hhigh : ¬ n + 8 < 8 := by omega
      have hgranted : s.granted (.line (n + 8)) = { s with slave := s.slave.grant n } := by
        simp only [granted, hhigh, if_false, Nat.add_sub_cancel]
      refine inv_opened irqTable ret s h (.line (n + 8)) before hon hanswer ?_ ?_
        (fun hc => nomatch hc)
      · rw [hgranted, List.filterMap_cons, (opened_lines irqTable ret s _ before).1]
        simp only [hhigh, if_false]
        exact hmaster
      · rw [hgranted, List.filterMap_cons, (opened_lines irqTable ret s (.line (n + 8)) before).2
          (show n + 8 < 16 by omega)]
        simp only [hhigh, if_false, Nat.add_sub_cancel]
        exact h.slave.grant _ _ n hurgent

/-- What the controllers answer can be taken, and what is in service comes out
    right. -/
theorem inv_enter (source : Source) (before : Cpu) (hon : before.interruptsOn = true)
    (hanswer : s.answer = some source)
    (hundisturbed : source = .spurious false → s.master.inService = ∅) :
    (s.afterEntry irqTable ret source before).Inv irqTable ret := by
  cases hphase : s.phase with
  | running =>
      rw [answer, hphase] at hanswer
      exact absurd hanswer (Option.some_ne_none source).symm
  | noticed => exact inv_noticed irqTable ret s h source before hon hphase hanswer hundisturbed
  | cascaded => exact inv_cascaded irqTable ret s h source before hon hphase hanswer

/-- A write of the interrupt being handled ends its own service. -/
theorem inv_write (a : Activation) (active : List Activation) (w : Half × Byte)
    (writes : List (Half × Byte)) (hphase : s.phase = .running) (hactive : s.active = a :: active)
    (hwrites : a.writes = w :: writes) :
    Inv irqTable ret ({ s with active := { a with writes := writes } :: active }.outb w.1 w.2) := by
  have ht := inOrder_write irqTable ret s h.toInOrder a active w writes hactive hwrites
  have hrunning : ¬ s.phase = .cascaded := by
    rw [hphase]
    exact Phase.noConfusion
  have hmaster := h.master
  have hslave := h.slave
  unfold masterLines at hmaster
  unfold slaveLines at hslave
  rw [if_neg hrunning, List.nil_append, hactive, List.filterMap_cons] at hmaster
  rw [hactive, List.filterMap_cons] at hslave
  have hproper : a.Proper irqTable ret ∧ ∀ b ∈ active, b.Proper irqTable ret := by
    rw [← List.forall_mem_cons, ← hactive]
    exact h.proper
  have hspurious := h.spurious
  rw [hactive, List.pairwise_cons] at hspurious
  have hopen : a.writes ≠ [] := hwrites ▸ List.cons_ne_nil w writes
  rcases hproper.1.write_cases irqTable ret a w writes hwrites with
    ⟨hhigh, rfl, rfl⟩ | ⟨rfl, rfl⟩
  · -- The first write of two: line 2 of the master stays in service.
    rw [outb_slave] at ht ⊢
    rw [a.masterLine_slave hhigh hopen] at hmaster
    refine ⟨ht, ?_, ?_,
      List.pairwise_cons.mpr ⟨fun b hb hsp hne => hspurious.1 b hb hsp hopen, hspurious.2⟩⟩
    · unfold masterLines
      rw [if_neg hrunning, List.nil_append, List.filterMap_cons,
        Activation.masterLine_slave { a with writes := [(pic1Command, picEoi)] } hhigh
          (List.cons_ne_nil _ _)]
      exact hmaster
    · unfold slaveLines
      have hnone := slaveLines_nil irqTable ret active hproper.2 fun hmem =>
        absurd ((List.pairwise_cons.mp hmaster.nested).1 2 hmem) (Nat.lt_irrefl 2)
      rw [List.filterMap_cons, show Activation.slaveLine
        { a with writes := [(pic1Command, picEoi)] } = none from rfl, hnone]
      rw [hnone] at hslave
      cases hline : a.slaveLine with
      | none =>
          -- Nobody asked for it, and nothing is in service.
          rw [hline] at hslave
          rw [hslave.endOfService_nil]
          exact hslave
      | some r =>
          rw [hline] at hslave
          exact hslave.endOfService _ r []
  · rw [outb_master] at ht ⊢
    have hlast : a.slaveLine = none := by
      unfold Activation.slaveLine
      rw [hwrites]
      rfl
    rw [hlast] at hslave
    refine ⟨ht, ?_, hslave,
      List.pairwise_cons.mpr ⟨fun b hb hsp hne => absurd rfl hne, hspurious.2⟩⟩
    unfold masterLines
    rw [if_neg hrunning, List.nil_append]
    show Arbiter.Stacked _ (active.filterMap Activation.masterLine)
    cases hline : a.masterLine with
    | some r =>
        rw [hline] at hmaster
        exact hmaster.endOfService _ r _
    | none =>
        -- Nobody asked for it, so nothing below is in service.
        have hsource := a.source_of_masterLine hopen hline
        have hnone : active.filterMap Activation.masterLine = [] :=
          List.filterMap_eq_nil_iff.mpr fun b hb => hspurious.1 b hb hsource hopen
        rw [hline, hnone] at hmaster
        rw [hnone, hmaster.endOfService_nil]
        exact hmaster

/-- The stub returns, and the interrupt has nothing in service any more. -/
theorem inv_leave (a : Activation) (active : List Activation) (flag : Bool)
    (hactive : s.active = a :: active) (hwrites : a.writes = [])
    (ht : InOrder irqTable ret { s with
      ints := { s.ints with interruptFlag := flag }, active := active }) :
    Inv irqTable ret { s with
      ints := { s.ints with interruptFlag := flag }, active := active } := by
  have hmaster := h.master
  have hslave := h.slave
  have hspurious := h.spurious
  unfold masterLines at hmaster
  unfold slaveLines at hslave
  rw [hactive, List.filterMap_cons, (a.lines_ended hwrites).1] at hmaster
  rw [hactive, List.filterMap_cons, (a.lines_ended hwrites).2] at hslave
  rw [hactive, List.pairwise_cons] at hspurious
  exact ⟨ht, hmaster, hslave, hspurious.2⟩

/-- Every event keeps the invariant. -/
theorem step_inv (hstubs : ∀ i < 16, ∀ j < 16, irqTable i = irqTable j → i = j) (e : Event)
    (hundisturbed : s.Undisturbed e) (hstep : s.Step irqTable ret e t) : t.Inv irqTable ret := by
  have ht := step_inOrder irqTable ret s t h.toInOrder hstubs e hstep
  unfold Step at hstep
  cases e with
  | raise line =>
      simp only [step, Option.ite_none_right_eq_some, Option.some.injEq] at hstep
      rw [← hstep.2] at ht ⊢
      rcases raised_inService s line with ⟨hphase, hactive, hmaster, hslave⟩
      exact h.of_same irqTable ret s _ ht (by rw [hphase]) hactive hmaster hslave
  | drop line =>
      simp only [step, Option.ite_none_right_eq_some, Option.some.injEq] at hstep
      rw [← hstep.2] at ht ⊢
      rcases dropped_inService s line with ⟨hphase, hactive, hmaster, hslave⟩
      exact h.of_same irqTable ret s _ ht (by rw [hphase]) hactive hmaster hslave
  | notice =>
      simp only [step, Option.ite_none_right_eq_some, Option.some.injEq] at hstep
      rw [← hstep.2] at ht ⊢
      refine h.of_same irqTable ret s _ ht (iff_of_false Phase.noConfusion ?_) rfl rfl rfl
      rw [hstep.1.1]
      exact Phase.noConfusion
  | forward =>
      simp only [step, Option.ite_none_right_eq_some, Option.some.injEq] at hstep
      rw [← hstep.2] at ht ⊢
      exact inv_forward irqTable ret s h hstep.1.1 hstep.1.2 ht
  | enter source before =>
      simp only [step, Option.ite_none_right_eq_some] at hstep
      rcases hstep with ⟨⟨hanswer, hon⟩, hentered⟩
      rw [enter_opens irqTable ret s t h.toInOrder hstubs source before hanswer hentered]
      refine inv_enter irqTable ret s h source before hon hanswer ?_
      rintro rfl
      exact hundisturbed
  | write =>
      rcases step_write irqTable ret s t hstep with
        ⟨a, active, w, writes, hphase, hactive, hwrites, rfl⟩
      exact inv_write irqTable ret s h a active w writes hphase hactive hwrites
  | leave after =>
      rcases step_leave irqTable ret s t after hstep with
        ⟨a, active, _, hactive, hwrites, _, rfl⟩
      exact inv_leave irqTable ret s h a active _ hactive hwrites ht
  | sti =>
      simp only [step, Option.ite_none_right_eq_some, Option.some.injEq] at hstep
      rw [← hstep.2] at ht ⊢
      exact h.of_same irqTable ret s _ ht Iff.rfl rfl rfl rfl
  | cli =>
      simp only [step, Option.ite_none_right_eq_some, Option.some.injEq] at hstep
      rw [← hstep.2] at ht ⊢
      exact h.of_same irqTable ret s _ ht Iff.rfl rfl rfl rfl
  | register call =>
      simp only [step, Option.ite_none_right_eq_some, Option.some.injEq] at hstep
      rw [← hstep.2] at ht ⊢
      exact h.of_same irqTable ret s _ ht Iff.rfl rfl rfl rfl

end Steps

/-! ### Whole runs -/

/-- After `idt_init` nothing is in service and nothing is being handled. -/
def boot (s0 : Interrupts) (idtAddr : Word) (isrTable irqTable : Nat → Word) : Delivery :=
  { ints := idtInit s0 idtAddr isrTable irqTable
    master := { requests := ∅, inService := ∅ }
    slave := { requests := ∅, inService := ∅ }
    phase := .running
    active := [] }

theorem inOrder_boot (s0 : Interrupts) (idtAddr : Word) (isrTable irqTable : Nat → Word)
    (ret : Word) : (boot s0 idtAddr isrTable irqTable).InOrder irqTable ret :=
  ⟨(init_gates s0 idtAddr isrTable irqTable).2, init_ready s0 idtAddr isrTable irqTable,
    fun r hr => absurd hr (Finset.notMem_empty r), fun r hr => absurd hr (Finset.notMem_empty r),
    fun _ ha => absurd ha List.not_mem_nil⟩

theorem inv_boot (s0 : Interrupts) (idtAddr : Word) (isrTable irqTable : Nat → Word) (ret : Word) :
    (boot s0 idtAddr isrTable irqTable).Inv irqTable ret :=
  ⟨inOrder_boot s0 idtAddr isrTable irqTable ret,
    ⟨List.Pairwise.nil, fun r => iff_of_false (Finset.notMem_empty r) List.not_mem_nil⟩,
    ⟨List.Pairwise.nil, fun r => iff_of_false (Finset.notMem_empty r) List.not_mem_nil⟩,
    List.Pairwise.nil⟩

/-- Every run keeps the order. -/
theorem run_inOrder (irqTable : Nat → Word) (ret : Word)
    (hstubs : ∀ i < 16, ∀ j < 16, irqTable i = irqTable j → i = j) (s t : Delivery)
    (events : List Event) (hrun : Run (Step irqTable ret) s events t)
    (h : s.InOrder irqTable ret) : t.InOrder irqTable ret :=
  Run.invariant (Step irqTable ret) (InOrder irqTable ret)
    (fun a e b ha hstep => step_inOrder irqTable ret a b ha hstubs e hstep) s t events hrun h

/-- The invariant is kept by every run without such an interrupt in between. -/
theorem run_inv (irqTable : Nat → Word) (ret : Word)
    (hstubs : ∀ i < 16, ∀ j < 16, irqTable i = irqTable j → i = j) (s t : Delivery)
    (events : List Event) (hrun : Run (Guarded Undisturbed (Step irqTable ret)) s events t)
    (h : s.Inv irqTable ret) : t.Inv irqTable ret :=
  Run.invariant (Guarded Undisturbed (Step irqTable ret)) (Inv irqTable ret)
    (fun a e b ha hstep => step_inv irqTable ret a b ha hstubs e hstep.1 hstep.2) s t events hrun h

end Delivery

end UnixP6
