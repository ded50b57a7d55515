import UnixP6.Theory.Interrupts.Service

/-!
# Handlers at Work

What a driver can rely on that has registered a handler, over runs of any
length in which devices, controllers and kernel take turns in any order.

Its handler is the one that is called when its line is served, whatever happened
before (`run_enter`), and the code that was interrupted has its registers back
afterwards (`run_in_service`). What ends a service is the handler of that
service and no other, unless an interrupt nobody asked for comes in while
something else is in service (`spurious_write_iff`), and that takes a handler
that turns interrupts on. As long as none does, there is one interrupt at a
time, and when it is over every line that can be heard is heard
(`run_one_at_a_time`).

## Main definitions

* `Delivery.LeavesOff`: Handlers leave interrupts off.
* `registrations`: The registrations among the events.

## Theorems

* `run_in_service`: What is in service in any run.
* `spurious_write_iff`: When an interrupt nobody asked for does no harm.
* `run_one_at_a_time`: Runs in which handlers leave interrupts off.
* `step_requested`: What an event does to a request.
* `run_enter`: The line that is served and the handler that is called.
-/

namespace UnixP6

open CSemantics

namespace Delivery

/-- The master answers for itself that nobody asks any more. -/
theorem noticed_of_spurious (s : Delivery) (hanswer : s.answer = some (.spurious false)) :
    s.phase = .noticed := by
  cases hphase : s.phase with
  | noticed => rfl
  | running =>
      rw [answer, hphase] at hanswer
      exact absurd hanswer (Option.some_ne_none _).symm
  | cascaded =>
      rw [answer, hphase] at hanswer
      cases hnext : s.slaveNext with
      | none =>
          simp only [hnext, Option.some.injEq, Source.spurious.injEq, Bool.true_eq_false] at hanswer
      | some n => simp only [hnext, Option.some.injEq, reduceCtorEq] at hanswer

theorem register_flag (ints : Interrupts) (c : HandlerCall) :
    (UnixP6.register ints c).interruptFlag = ints.interruptFlag := by
  unfold UnixP6.register idtSetirqhandler
  by_cases hline : 15 < c.line
  · rw [if_pos hline]
  · rw [if_neg hline]
    by_cases henable : c.enable ≠ 0
    · rw [if_pos henable]
    · rw [if_neg henable]

section Runs

variable (irqTable : Nat → Word) (ret : Word)
  (hstubs : ∀ i < 16, ∀ j < 16, irqTable i = irqTable j → i = j)

include hstubs

/-! ### In service -/

omit hstubs in
/-- A stub that has called a handler which leaves its frame alone is back there. -/
theorem keptBy_entered (a : Activation) (h : a.Proper irqTable ret) :
    a.KeptBy { a.entered with esp := a.entered.esp + 4 } := by
  refine ⟨?_, fun j _ => rfl⟩
  show a.entered.esp + 4 = a.before.esp - 52
  rw [h.entered, (irqint_throughGate a.before _ _ ret).2, (irqint_stack a.before _ ret).2]
  bv_omega

/-- In every state a run reaches, the lines in service are those of the interrupts
    that have not been ended, nested by urgency. Once all have been ended nothing
    is in service. A return gives the interrupted code its registers back, with
    interrupts on. -/
theorem run_in_service (s0 : Interrupts) (idtAddr : Word) (isrTable : Nat → Word)
    (events : List Event) (t : Delivery)
    (hrun : Run (Guarded Undisturbed (Step irqTable ret)) (boot s0 idtAddr isrTable irqTable)
      events t) :
    t.master.Stacked t.masterLines ∧ t.slave.Stacked t.slaveLines ∧
      ((t.phase ≠ .cascaded ∧ ∀ a ∈ t.active, a.writes = []) →
        t.master.inService = ∅ ∧ t.slave.inService = ∅) ∧
      ∀ after u, t.Step irqTable ret (.leave after) u →
        ∃ a active, t.active = a :: active ∧ u.active = active ∧
          Resumed a.before (irqLeave after) ∧ u.ints.interruptFlag = true := by
  have h := run_inv irqTable ret hstubs _ t events hrun (inv_boot s0 idtAddr isrTable irqTable ret)
  refine ⟨h.master, h.slave, fun ⟨hphase, hended⟩ => h.inService_nil irqTable ret t hphase hended,
    fun after u hleave => ?_⟩
  rcases step_leave irqTable ret t u after hleave with
    ⟨a, active, _, hactive, _, ⟨hesp, hkept⟩, rfl⟩
  have hproper := h.proper a (hactive ▸ List.mem_cons_self)
  rw [hproper.entered] at hkept
  have hresumed := leave_resumes a.before after _ _ ret hesp hkept
  refine ⟨a, active, hactive, rfl, hresumed, ?_⟩
  -- The flags come back with the rest.
  show (irqLeave after).eflags.getLsbD 9 = true
  rw [hresumed.eflags]
  exact hproper.on

omit hstubs in
/-- A table of stubs at different addresses. -/
def someStubs (n : Nat) : Word := BitVec.ofNat 32 (0x3000 + n)

omit hstubs in
/-- Interrupts as `idt_init` sets them up, with a handler for line 1. -/
def keyboard : Delivery :=
  let s := boot zeroInterrupts 0x1000 someStubs someStubs
  { s with ints := UnixP6.register s.ints ⟨1, 0x5000, 1⟩ }

omit hstubs in
/-- The line has been raised, and the processor has noticed. -/
def keyboardNoticed : Delivery := { keyboard.raised 1 with phase := .noticed }

omit hstubs in
/-- The stub is entered, and the line is raised again. -/
def keyboardEntered : Delivery :=
  (keyboardNoticed.afterEntry someStubs 0 (.line 1) (levelCpu 0)).raised 1

omit hstubs in
/-- The interrupt is ended. -/
def keyboardEnded : Delivery :=
  let a := keyboardNoticed.opened someStubs 0 (.line 1) (levelCpu 0)
  { keyboardEntered with active := [{ a with writes := [] }] }.outb pic1Command picEoi

omit hstubs in
/-- The processor at the end of the stub. -/
def keyboardAfter : Cpu :=
  let c := (keyboardNoticed.opened someStubs 0 (.line 1) (levelCpu 0)).entered
  { c with esp := c.esp + 4 }

omit hstubs in
def keyboardDone : Delivery :=
  { keyboardEnded with
    ints := { keyboardEnded.ints with interruptFlag := (irqLeave keyboardAfter).interruptsOn }
    active := [] }

omit hstubs in
theorem someStubs_apart : ∀ i < 16, ∀ j < 16, someStubs i = someStubs j → i = j := by decide

omit hstubs in
theorem keyboardNoticed_inOrder : keyboardNoticed.InOrder someStubs 0 := by
  have hboot := inOrder_boot zeroInterrupts 0x1000 someStubs someStubs 0
  have hraised := inOrder_raised someStubs 0 keyboard
    (inOrder_register someStubs 0 _ hboot ⟨1, 0x5000, 1⟩) 1 ⟨by decide, by decide⟩
  exact ⟨hraised.gates, hraised.ready, hraised.masterRequests, hraised.slaveRequests,
    hraised.proper⟩

omit hstubs in
/-- One service from the raising of the line to the return, with the line raised
    once more on the way. -/
theorem run_keyboard (cond : Delivery → Event → Prop) (hcond : ∀ s e, e ≠ .sti →
    (∀ before, e ≠ .enter (.spurious false) before) → cond s e) :
    Run (Guarded cond (Step someStubs 0)) (boot zeroInterrupts 0x1000 someStubs someStubs)
      [.register ⟨1, 0x5000, 1⟩, .raise 1, .notice] keyboardNoticed ∧
    Run (Guarded cond (Step someStubs 0)) keyboardNoticed
      [.enter (.line 1) (levelCpu 0), .raise 1] keyboardEntered ∧
    Run (Guarded cond (Step someStubs 0)) keyboardEntered [.write] keyboardEnded ∧
    Guarded cond (Step someStubs 0) keyboardEnded (.leave keyboardAfter) keyboardDone := by
  have hplain : ∀ s e, e ≠ .sti → (∀ source before, e ≠ .enter source before) → cond s e :=
    fun s e hsti henter => hcond s e hsti (henter (.spurious false))
  have hnotice := step_notice someStubs 0 (keyboard.raised 1) rfl rfl (by decide)
  have henter := step_enter someStubs 0 keyboardNoticed _ (.line 1) (levelCpu 0) (by decide)
    (by decide) (enter_eq someStubs 0 _ keyboardNoticed_inOrder someStubs_apart _ _ (by decide))
  refine ⟨Run.cons _ keyboard _ _ _ ⟨hplain _ _ Event.noConfusion fun _ _ => Event.noConfusion, rfl⟩ <|
      Run.cons _ (keyboard.raised 1) _ _ _
        ⟨hplain _ _ Event.noConfusion fun _ _ => Event.noConfusion, rfl⟩ <|
      Run.cons _ keyboardNoticed _ _ _
        ⟨hplain _ _ Event.noConfusion fun _ _ => Event.noConfusion, hnotice⟩ (Run.nil _),
    Run.cons _ _ _ _ _ ⟨hcond _ _ Event.noConfusion fun _ hc => ?_, henter⟩ <|
      Run.cons _ keyboardEntered _ _ _
        ⟨hplain _ _ Event.noConfusion fun _ _ => Event.noConfusion, rfl⟩ (Run.nil _),
    Run.cons _ keyboardEnded _ _ _
      ⟨hplain _ _ Event.noConfusion fun _ _ => Event.noConfusion, rfl⟩ (Run.nil _),
    hplain _ _ Event.noConfusion fun _ _ => Event.noConfusion, ?_⟩
  · rw [Event.enter.injEq] at hc
    exact Source.noConfusion hc.1
  · have hkept : (keyboardNoticed.opened someStubs 0 (.line 1) (levelCpu 0)).KeptBy keyboardAfter :=
      keptBy_entered someStubs 0 _ ((inOrder_opened someStubs 0 _ keyboardNoticed_inOrder _ _
        (by decide) (by decide)).proper _ List.mem_cons_self)
    exact step_leave_of someStubs 0 keyboardEnded _ [] _ rfl rfl rfl hkept

omit hstubs in
theorem undisturbed_of_ne (s : Delivery) (e : Event)
    (h : ∀ before, e ≠ .enter (.spurious false) before) : s.Undisturbed e := by
  cases e with
  | enter source before =>
      cases source with
      | line n => trivial
      | spurious slave =>
          cases slave with
          | false => exact absurd rfl (h before)
          | true => trivial
  | _ => trivial

omit hstubs in
/-- In the handler line 1 is in service, and the code it has interrupted gets its
    registers back when it has been ended. -/
theorem run_in_service_keyboard :
    keyboardEntered.master.Stacked [1] ∧ keyboardDone.master.inService = ∅ ∧
      keyboardDone.active = [] ∧ Resumed (levelCpu 0) (irqLeave keyboardAfter) ∧
      keyboardDone.ints.interruptFlag = true := by
  rcases run_keyboard Undisturbed (fun s e _ he => undisturbed_of_ne s e he) with
    ⟨hnoticed, hentered, hended, hdone⟩
  have hentered' := Run.append _ _ _ _ _ _ hnoticed hentered
  have hended' := Run.append _ _ _ _ _ _ hentered' hended
  have hdone' := hended'.concat _ _ _ _ _ _ hdone
  rcases (run_in_service someStubs 0 someStubs_apart zeroInterrupts 0x1000 someStubs _ keyboardEnded
    hended').2.2.2 keyboardAfter keyboardDone hdone.2 with ⟨a, active, hactive, _, hresumed, hon⟩
  rw [show keyboardEnded.active = [{ keyboardNoticed.opened someStubs 0 (.line 1) (levelCpu 0) with
    writes := [] }] from rfl, List.cons.injEq] at hactive
  rw [← hactive.1] at hresumed
  exact ⟨(run_in_service someStubs 0 someStubs_apart zeroInterrupts 0x1000 someStubs _ keyboardEntered
      hentered').1,
    ((run_in_service someStubs 0 someStubs_apart zeroInterrupts 0x1000 someStubs _ keyboardDone
      hdone').2.2.1 ⟨Phase.noConfusion, fun _ ha => absurd ha List.not_mem_nil⟩).1,
    rfl, hresumed, hon⟩

/-- An interrupt of the master nobody asked for is ended like any other. What is in
    service comes out right exactly if there was nothing in service. -/
theorem spurious_write_iff (s t u : Delivery) (h : s.Inv irqTable ret) (before : Cpu)
    (henter : s.Step irqTable ret (.enter (.spurious false) before) t)
    (hwrite : t.Step irqTable ret .write u) :
    u.master.Stacked u.masterLines ↔ s.master.inService = ∅ := by
  simp only [Step, step, Option.ite_none_right_eq_some] at henter
  rcases henter with ⟨⟨hanswer, _⟩, henter⟩
  have hphase := noticed_of_spurious s hanswer
  have ht : t = { s with
      ints := { s.ints with interruptFlag := false }
      phase := .running
      active := s.opened irqTable ret (.spurious false) before :: s.active } :=
    enter_opens irqTable ret s t h.toInOrder hstubs _ before hanswer henter
  subst ht
  -- It has one write, to the master.
  have hopened : (s.opened irqTable ret (.spurious false) before).writes
      = [(pic1Command, picEoi)] :=
    (sendeoiWrites_number 7 (by decide)).trans (if_pos (by decide))
  generalize s.opened irqTable ret (.spurious false) before = o at hopened hwrite
  rcases step_write irqTable ret _ u hwrite with ⟨a, active, w, writes, _, hactive, hwrites, rfl⟩
  rw [List.cons.injEq] at hactive
  rcases hactive with ⟨rfl, rfl⟩
  rw [hopened, List.cons.injEq] at hwrites
  rcases hwrites with ⟨rfl, rfl⟩
  rw [outb_master]
  have hmaster := h.master
  have hnot : ¬ s.phase = .cascaded := by
    rw [hphase]
    exact Phase.noConfusion
  unfold masterLines at hmaster ⊢
  rw [if_neg hnot, List.nil_append] at hmaster
  rw [if_neg Phase.noConfusion, List.nil_append]
  show Arbiter.Stacked s.master.endOfService (s.active.filterMap Activation.masterLine) ↔ _
  constructor
  · intro hsame
    cases hlines : s.active.filterMap Activation.masterLine with
    | nil =>
        rw [hlines] at hmaster
        exact hmaster.inService_nil
    | cons r rest =>
        -- The line on top would still be in service, and it has been taken out.
        rw [hlines] at hmaster hsame
        have hin := (hsame.inService r).mpr List.mem_cons_self
        have hrest := ((hmaster.endOfService _ r rest).inService r).mp hin
        exact absurd ((List.pairwise_cons.mp hmaster.nested).1 r hrest) (Nat.lt_irrefl r)
  · intro hempty
    have hnil := hmaster.stack_nil _ _ hempty
    rw [hnil] at hmaster ⊢
    rw [hmaster.endOfService_nil]
    exact hmaster

omit hstubs in
/-- The keyboard drops its line before the processor acknowledges. -/
theorem spurious_write_keyboard : ∃ t u,
    (keyboardNoticed.dropped 1).Step someStubs 0 (.enter (.spurious false) (levelCpu 0)) t ∧
      t.Step someStubs 0 .write u ∧ u.master.Stacked u.masterLines := by
  have hnoticed := run_inv someStubs 0 someStubs_apart _ _ _
    (run_keyboard Undisturbed fun s e _ he => undisturbed_of_ne s e he).1
    (inv_boot zeroInterrupts 0x1000 someStubs someStubs 0)
  have h := step_inv someStubs 0 _ (keyboardNoticed.dropped 1) hnoticed someStubs_apart (.drop 1)
    trivial rfl
  have henter := step_enter someStubs 0 (keyboardNoticed.dropped 1) _ (.spurious false) (levelCpu 0)
    (by decide) (by decide) (enter_eq someStubs 0 _ h.toInOrder someStubs_apart _ _ (by decide))
  have hwrite : ∃ u, ((keyboardNoticed.dropped 1).afterEntry someStubs 0 (.spurious false)
      (levelCpu 0)).Step someStubs 0 .write u := ⟨_, rfl⟩
  rcases hwrite with ⟨u, hu⟩
  exact ⟨_, u, henter, hu, (spurious_write_iff someStubs 0 someStubs_apart _ _ u h (levelCpu 0)
    henter hu).mpr rfl⟩

/-! ### One at a time -/

omit hstubs in
/-- A handler does not turn interrupts on. -/
def LeavesOff (s : Delivery) : Event → Prop
  | .sti => s.active = []
  | _ => True

omit hstubs in
/-- Nothing is being handled, or one interrupt with interrupts off. -/
def AtMostOne (s : Delivery) : Prop :=
  s.active = [] ∨ ∃ a, s.active = [a] ∧ s.ints.interruptFlag = false ∧ s.phase = .running

omit hstubs in
/-- In the middle of an acknowledgement nothing is being handled. -/
theorem AtMostOne.active_nil (s : Delivery) (h : s.AtMostOne) (hphase : s.phase ≠ .running) :
    s.active = [] := by
  rcases h with hnone | ⟨_, _, _, hrunning⟩
  · exact hnone
  · exact absurd hrunning hphase

omit hstubs in
theorem AtMostOne.nil_of_on (s : Delivery) (h : s.AtMostOne) (hon : s.ints.interruptFlag = true) :
    s.active = [] := by
  rcases h with hnone | ⟨_, _, hoff, _⟩
  · exact hnone
  · rw [hoff] at hon
    exact absurd hon Bool.false_ne_true

omit hstubs in
/-- So an interrupt nobody asked for finds nothing in service. -/
theorem AtMostOne.undisturbed (s t : Delivery) (hinv : s.Inv irqTable ret) (h : s.AtMostOne)
    (e : Event) (hstep : s.Step irqTable ret e t) : s.Undisturbed e := by
  cases e with
  | enter source before =>
      cases source with
      | line n => trivial
      | spurious slave =>
          cases slave with
          | true => trivial
          | false =>
              simp only [Step, step, Option.ite_none_right_eq_some] at hstep
              have hphase := noticed_of_spurious s hstep.1.1
              have hnone := h.active_nil s (by rw [hphase]; exact Phase.noConfusion)
              refine (hinv.inService_nil irqTable ret s (by rw [hphase]; exact Phase.noConfusion)
                fun a ha => ?_).1
              rw [hnone] at ha
              exact absurd ha List.not_mem_nil
  | _ => trivial

theorem atMostOne_step (s t : Delivery) (hinv : s.Inv irqTable ret) (h : s.AtMostOne) (e : Event)
    (hoff : s.LeavesOff e) (hstep : s.Step irqTable ret e t) : t.AtMostOne := by
  have hstep' := hstep
  unfold Step at hstep'
  cases e with
  | raise line =>
      simp only [step, Option.ite_none_right_eq_some, Option.some.injEq] at hstep'
      rw [← hstep'.2]
      unfold raised
      split <;> exact h
  | drop line =>
      simp only [step, Option.ite_none_right_eq_some, Option.some.injEq] at hstep'
      rw [← hstep'.2]
      unfold dropped
      split <;> exact h
  | notice =>
      simp only [step, Option.ite_none_right_eq_some, Option.some.injEq] at hstep'
      rw [← hstep'.2]
      exact Or.inl (h.nil_of_on s hstep'.1.2.1)
  | forward =>
      simp only [step, Option.ite_none_right_eq_some, Option.some.injEq] at hstep'
      rw [← hstep'.2]
      exact Or.inl (h.active_nil s (by rw [hstep'.1.1]; exact Phase.noConfusion))
  | enter source before =>
      simp only [step, Option.ite_none_right_eq_some] at hstep'
      rcases hstep' with ⟨⟨hanswer, _⟩, hentered⟩
      have hnone := h.active_nil s fun hc => by
        rw [answer, hc] at hanswer
        exact absurd hanswer (Option.some_ne_none source).symm
      rw [enter_opens irqTable ret s t hinv.toInOrder hstubs source before hanswer hentered,
        afterEntry, hnone]
      exact Or.inr ⟨_, rfl, rfl, rfl⟩
  | write =>
      rcases step_write irqTable ret s t hstep with ⟨a, active, w, writes, hphase, hactive, _, rfl⟩
      rcases h with hnone | ⟨b, hone, hflag, _⟩
      · rw [hnone] at hactive
        exact absurd hactive (List.cons_ne_nil a active).symm
      · rw [hone, List.cons.injEq] at hactive
        rw [← hactive.2]
        exact Or.inr ⟨_, rfl, hflag, hphase⟩
  | leave after =>
      rcases step_leave irqTable ret s t after hstep with ⟨a, active, _, hactive, _, _, rfl⟩
      rcases h with hnone | ⟨b, hone, _⟩
      · rw [hnone] at hactive
        exact absurd hactive (List.cons_ne_nil a active).symm
      · rw [hone, List.cons.injEq] at hactive
        exact Or.inl hactive.2.symm
  | sti =>
      simp only [step, Option.ite_none_right_eq_some, Option.some.injEq] at hstep'
      rw [← hstep'.2]
      exact Or.inl hoff
  | cli =>
      simp only [step, Option.ite_none_right_eq_some, Option.some.injEq] at hstep'
      rw [← hstep'.2]
      rcases h with hnone | ⟨a, ha, _, hphase⟩
      · exact Or.inl hnone
      · exact Or.inr ⟨a, ha, rfl, hphase⟩
  | register call =>
      simp only [step, Option.ite_none_right_eq_some, Option.some.injEq] at hstep'
      rw [← hstep'.2]
      rcases h with hnone | ⟨a, ha, hflag, hphase⟩
      · exact Or.inl hnone
      · exact Or.inr ⟨a, ha, (register_flag s.ints call).trans hflag, hphase⟩

theorem run_atMostOne (s t : Delivery) (hinv : s.Inv irqTable ret) (h : s.AtMostOne)
    (events : List Event) (hrun : Run (Guarded LeavesOff (Step irqTable ret)) s events t) :
    t.Inv irqTable ret ∧ t.AtMostOne := by
  refine Run.invariant (Guarded LeavesOff (Step irqTable ret))
    (fun a => a.Inv irqTable ret ∧ a.AtMostOne) (fun a e b ⟨ha, hone⟩ ⟨hoff, hstep⟩ => ?_)
    s t events hrun ⟨hinv, h⟩
  exact ⟨step_inv irqTable ret a b ha hstubs e (hone.undisturbed irqTable ret a b ha e hstep) hstep,
    atMostOne_step irqTable ret hstubs a b ha hone e hoff hstep⟩

omit hstubs in
/-- With nothing in service, a line that is asked for and can be heard is offered. -/
theorem masterNext_isSome (s : Delivery) (hmaster : s.master.inService = ∅)
    (hslave : s.slave.inService = ∅) (line : Nat) (hreq : s.Requested line)
    (hheard : s.ints.pics.Deliverable line) : s.masterNext.isSome := by
  rcases hheard with ⟨hclear, hcascade⟩
  have hsame : s.masterRequests.inService = ∅ := by
    unfold masterRequests
    split
    · exact hmaster
    · exact hmaster
  -- It is enough that some line of the master is asked for and not masked.
  have hoffered : ∀ n ∈ s.masterRequests.requests, s.ints.pics.master.mask.getLsbD n = false →
      s.masterNext.isSome := by
    intro n hn hmask
    rw [← Option.ne_none_iff_isSome]
    intro hnone
    rcases (Arbiter.next_none _ _).mp hnone n hn hmask with ⟨q, hq, _⟩
    rw [hsame] at hq
    exact absurd hq (Finset.notMem_empty q)
  unfold Requested at hreq
  unfold Pics.masked at hclear
  by_cases hlow : line < 8
  · rw [if_pos hlow] at hreq hclear
    refine hoffered line ?_ hclear
    unfold masterRequests
    split
    · exact Finset.mem_insert_of_mem hreq
    · exact hreq
  · rw [if_neg hlow] at hreq hclear
    have hnext : s.slaveNext.isSome := by
      rw [← Option.ne_none_iff_isSome]
      intro hnone
      rcases (Arbiter.next_none _ _).mp hnone (line - 8) hreq hclear with ⟨q, hq, _⟩
      rw [hslave] at hq
      exact absurd hq (Finset.notMem_empty q)
    refine hoffered 2 ?_ (hcascade (Nat.le_of_not_lt hlow))
    unfold masterRequests
    rw [if_pos hnext]
    exact Finset.mem_insert_self 2 _

/-- While handlers leave interrupts off, there is at most one interrupt at a time.
    Whenever interrupts are on, none is being handled, nothing is in service, and a
    line that is asked for and can be heard gets the processor's notice. -/
theorem run_one_at_a_time (s0 : Interrupts) (idtAddr : Word) (isrTable : Nat → Word)
    (events : List Event) (t : Delivery)
    (hrun : Run (Guarded LeavesOff (Step irqTable ret)) (boot s0 idtAddr isrTable irqTable)
      events t) :
    t.active.length ≤ 1 ∧
      (t.ints.interruptFlag = true → t.active = [] ∧ (t.phase = .running →
        t.master.inService = ∅ ∧ t.slave.inService = ∅ ∧
        ∀ line, t.Requested line → t.ints.pics.Deliverable line →
          ∃ u, t.Step irqTable ret .notice u)) := by
  rcases run_atMostOne irqTable ret hstubs _ t (inv_boot s0 idtAddr isrTable irqTable ret)
    (Or.inl rfl) events hrun with ⟨h, hone⟩
  refine ⟨?_, fun hon => ⟨hone.nil_of_on t hon, fun hphase => ?_⟩⟩
  · rcases hone with hnone | ⟨a, ha, _⟩
    · rw [hnone]
      exact Nat.zero_le 1
    · rw [ha]
      exact Nat.le_refl 1
  · have hnone := hone.nil_of_on t hon
    rcases h.inService_nil irqTable ret t (by rw [hphase]; exact Phase.noConfusion) (fun a ha => by
      rw [hnone] at ha
      exact absurd ha List.not_mem_nil) with ⟨hmaster, hslave⟩
    refine ⟨hmaster, hslave, fun line hreq hheard => ?_⟩
    exact ⟨_, step_notice irqTable ret t hphase hon
      (masterNext_isSome t hmaster hslave line hreq hheard)⟩

omit hstubs in
/-- The line is raised again in the handler, and noticed when the stub has
    returned. -/
theorem run_one_at_a_time_keyboard : keyboardEntered.active.length ≤ 1 ∧
    keyboardEntered.active ≠ [] ∧ ∃ u, keyboardDone.Step someStubs 0 .notice u := by
  rcases run_keyboard LeavesOff (fun s e hsti _ => by
    cases e with
    | sti => exact absurd rfl hsti
    | _ => trivial) with ⟨hnoticed, hentered, hended, hdone⟩
  have hentered' := Run.append _ _ _ _ _ _ hnoticed hentered
  have hdone' := (Run.append _ _ _ _ _ _ hentered' hended).concat _ _ _ _ _ _ hdone
  have hone := (run_one_at_a_time someStubs 0 someStubs_apart zeroInterrupts 0x1000 someStubs _
    keyboardDone hdone').2 (by decide)
  exact ⟨(run_one_at_a_time someStubs 0 someStubs_apart zeroInterrupts 0x1000 someStubs _
      keyboardEntered hentered').1, List.cons_ne_nil _ _,
    (hone.2 rfl).2.2 1 (by decide) (by decide)⟩

end Runs

/-! ### Requests -/

/-- Whether the line is asked for after an event, if it is so before. -/
def asks (line : Nat) (before : Bool) : Event → Bool
  | .raise n => before || n = line
  | .drop n => before && n ≠ line
  | .enter (.line n) _ => before && n ≠ line
  | _ => before

/-- The line is served. -/
def serves (line : Nat) : Event → Bool
  | .enter (.line n) _ => n = line
  | _ => false

theorem requested_congr (s t : Delivery) (line : Nat)
    (hmaster : t.master.requests = s.master.requests)
    (hslave : t.slave.requests = s.slave.requests) : t.Requested line ↔ s.Requested line := by
  unfold Requested
  rw [hmaster, hslave]

theorem requested_raised (s : Delivery) (n line : Nat) :
    (s.raised n).Requested line ↔ s.Requested line ∨ n = line := by
  unfold Requested raised
  by_cases hn : n < 8
  · by_cases hline : line < 8
    · simp only [hn, hline, if_true, Finset.mem_insert, eq_comm, or_comm]
    · simp only [hn, hline, if_true, if_false]
      exact ⟨Or.inl, fun hc => hc.resolve_right (by omega)⟩
  · by_cases hline : line < 8
    · simp only [hn, hline, if_true, if_false]
      exact ⟨Or.inl, fun hc => hc.resolve_right (by omega)⟩
    · have hsame : line - 8 = n - 8 ↔ n = line := by omega
      simp only [hn, hline, if_false, Finset.mem_insert, hsame, or_comm]

/-- A request is taken back when the device drops the line, and when it is
    granted. -/
theorem requested_dropped (s : Delivery) (n line : Nat) :
    ((s.dropped n).Requested line ↔ s.Requested line ∧ n ≠ line) ∧
      ((s.granted (.line n)).Requested line ↔ s.Requested line ∧ n ≠ line) := by
  unfold Requested dropped granted
  by_cases hn : n < 8
  · by_cases hline : line < 8
    · simp only [hn, hline, if_true, Arbiter.grant, Finset.mem_erase, ne_comm, and_comm, and_self]
    · simp only [hn, hline, if_true, if_false]
      exact ⟨⟨fun hc => ⟨hc, by omega⟩, And.left⟩, ⟨fun hc => ⟨hc, by omega⟩, And.left⟩⟩
  · by_cases hline : line < 8
    · simp only [hn, hline, if_true, if_false]
      exact ⟨⟨fun hc => ⟨hc, by omega⟩, And.left⟩, ⟨fun hc => ⟨hc, by omega⟩, And.left⟩⟩
    · have hsame : line - 8 ≠ n - 8 ↔ n ≠ line := by omega
      simp only [hn, hline, if_false, Arbiter.grant, Finset.mem_erase, hsame, and_comm, and_self]

/-- What the controllers answer with is asked for and not masked, and no other
    line of its chip that is would be more urgent. -/
theorem answer_line (s : Delivery) (n : Nat) (hanswer : s.answer = some (.line n))
    (hrequests : ∀ r ∈ s.master.requests, r < 8 ∧ r ≠ 2) :
    s.Requested n ∧ s.ints.pics.masked n = false ∧
      (8 ≤ n ↔ s.phase = .cascaded) ∧
      ∀ m, (m < 8 ↔ n < 8) → s.Requested m → s.ints.pics.masked m = false → n ≤ m := by
  cases hphase : s.phase with
  | running =>
      rw [answer, hphase] at hanswer
      exact absurd hanswer (Option.some_ne_none _).symm
  | noticed =>
      rw [answer, hphase] at hanswer
      cases hnext : s.masterNext with
      | none => simp only [hnext, Option.some.injEq, reduceCtorEq] at hanswer
      | some m =>
          simp only [hnext] at hanswer
          by_cases hm2 : m = 2
          · rw [if_pos hm2] at hanswer
            exact absurd hanswer (Option.some_ne_none _).symm
          · rw [if_neg hm2, Option.some.injEq, Source.line.injEq] at hanswer
            subst hanswer
            rcases masterNext_some s m hnext with ⟨hreq, hclear, _, hleast⟩
            have hmem := hreq.resolve_right fun hc => hm2 hc.1
            have hlow := (hrequests m hmem).1
            refine ⟨(if_pos hlow).mpr hmem, (if_pos hlow).trans hclear,
              iff_of_false (Nat.not_le.mpr hlow) Phase.noConfusion, fun q hq hqreq hqclear => ?_⟩
            have hqlow := hq.mpr hlow
            exact hleast q ((if_pos hqlow).mp hqreq) ((if_pos hqlow).symm.trans hqclear)
  | cascaded =>
      rw [answer, hphase] at hanswer
      cases hnext : s.slaveNext with
      | none => simp only [hnext, Option.some.injEq, reduceCtorEq] at hanswer
      | some m =>
          simp only [hnext, Option.some.injEq, Source.line.injEq] at hanswer
          subst hanswer
          rcases Arbiter.next_some _ _ m hnext with ⟨hreq, hclear, _, hleast⟩
          have hhigh : ¬ m + 8 < 8 := by omega
          refine ⟨(if_neg hhigh).mpr hreq, (if_neg hhigh).trans hclear,
            iff_of_true (Nat.le_add_left 8 m) rfl, fun q hq hqreq hqclear => ?_⟩
          have hqhigh : ¬ q < 8 := fun hc => hhigh (hq.mp hc)
          have hle := hleast (q - 8) ((if_neg hqhigh).mp hqreq) ((if_neg hqhigh).symm.trans hqclear)
          omega

section Served

variable (irqTable : Nat → Word) (ret : Word)
  (hstubs : ∀ i < 16, ∀ j < 16, irqTable i = irqTable j → i = j)

include hstubs

/-- What an event does to a request. Only a line that is asked for is served. -/
theorem step_requested (s t : Delivery) (h : s.InOrder irqTable ret) (e : Event)
    (hstep : s.Step irqTable ret e t) (line : Nat) :
    decide (t.Requested line) = asks line (decide (s.Requested line)) e ∧
      (serves line e = true → s.Requested line) := by
  have hsame : t.master.requests = s.master.requests → t.slave.requests = s.slave.requests →
      decide (t.Requested line) = decide (s.Requested line) := fun hmaster hslave =>
    decide_eq_decide.mpr (requested_congr s t line hmaster hslave)
  have hstep' := hstep
  unfold Step at hstep'
  cases e with
  | raise n =>
      simp only [step, Option.ite_none_right_eq_some, Option.some.injEq] at hstep'
      refine ⟨?_, fun hc => absurd hc Bool.false_ne_true⟩
      rw [← hstep'.2, decide_eq_decide.mpr (requested_raised s n line), Bool.decide_or]
      rfl
  | drop n =>
      simp only [step, Option.ite_none_right_eq_some, Option.some.injEq] at hstep'
      refine ⟨?_, fun hc => absurd hc Bool.false_ne_true⟩
      rw [← hstep'.2, decide_eq_decide.mpr (requested_dropped s n line).1, Bool.decide_and]
      rfl
  | notice =>
      simp only [step, Option.ite_none_right_eq_some, Option.some.injEq] at hstep'
      rw [← hstep'.2]
      exact ⟨rfl, fun hc => absurd hc Bool.false_ne_true⟩
  | forward =>
      simp only [step, Option.ite_none_right_eq_some, Option.some.injEq] at hstep'
      refine ⟨?_, fun hc => absurd hc Bool.false_ne_true⟩
      -- Line 2 is nobody's request.
      refine hsame ?_ (by rw [← hstep'.2])
      rw [← hstep'.2]
      exact Finset.erase_eq_of_notMem fun hc => (h.masterRequests 2 hc).2 rfl
  | enter source before =>
      simp only [step, Option.ite_none_right_eq_some] at hstep'
      rcases hstep' with ⟨⟨hanswer, _⟩, hentered⟩
      rw [enter_opens irqTable ret s t h hstubs source before hanswer hentered]
      cases source with
      | line n =>
          refine ⟨?_, fun hc => ?_⟩
          · rw [show asks line (decide (s.Requested line)) (.enter (.line n) before)
              = (decide (s.Requested line) && decide (n ≠ line)) from rfl, ← Bool.decide_and]
            exact decide_eq_decide.mpr (requested_dropped s n line).2
          · rw [← of_decide_eq_true (show decide (n = line) = true from hc)]
            exact (answer_line s n hanswer h.masterRequests).1
      | spurious slave => exact ⟨rfl, fun hc => absurd hc Bool.false_ne_true⟩
  | write =>
      rcases step_write irqTable ret s t hstep with ⟨a, active, w, writes, _, _, _, rfl⟩
      refine ⟨hsame ?_ ?_, fun hc => absurd hc Bool.false_ne_true⟩
      · simp only [outb]
        split
        · exact Arbiter.endOfService_requests s.master
        · rfl
      · simp only [outb]
        split
        · exact Arbiter.endOfService_requests s.slave
        · rfl
  | leave after =>
      rcases step_leave irqTable ret s t after hstep with ⟨a, active, _, _, _, _, rfl⟩
      exact ⟨rfl, fun hc => absurd hc Bool.false_ne_true⟩
  | sti =>
      simp only [step, Option.ite_none_right_eq_some, Option.some.injEq] at hstep'
      rw [← hstep'.2]
      exact ⟨rfl, fun hc => absurd hc Bool.false_ne_true⟩
  | cli =>
      simp only [step, Option.ite_none_right_eq_some, Option.some.injEq] at hstep'
      rw [← hstep'.2]
      exact ⟨rfl, fun hc => absurd hc Bool.false_ne_true⟩
  | register call =>
      simp only [step, Option.ite_none_right_eq_some, Option.some.injEq] at hstep'
      rw [← hstep'.2]
      exact ⟨rfl, fun hc => absurd hc Bool.false_ne_true⟩

end Served

/-! ### What is served -/

/-- The registrations among the events. -/
def registrations (events : List Event) : List HandlerCall :=
  events.filterMap fun e => match e with
    | .register call => some call
    | _ => none

/-- In the middle of an acknowledgement the line of the slave is not masked. -/
def Passed (s : Delivery) : Prop := s.phase = .cascaded → s.ints.pics.masked 2 = false

section Entries

variable (irqTable : Nat → Word) (ret : Word)
  (hstubs : ∀ i < 16, ∀ j < 16, irqTable i = irqTable j → i = j)

theorem passed_of_phase (s : Delivery) (hphase : s.phase ≠ .cascaded) : s.Passed :=
  fun hc => absurd hc hphase

include hstubs

/-- Every event leaves the table of handlers as it is but for registrations, and
    nothing is masked in the middle of an acknowledgement. -/
theorem step_table (s t : Delivery) (h : s.InOrder irqTable ret) (e : Event)
    (hstep : s.Step irqTable ret e t) :
    (s.Passed → t.Passed) ∧
      t.ints.irqHandlertable
        = ((registrations [e]).foldl UnixP6.register s.ints).irqHandlertable := by
  have hstep' := hstep
  unfold Step at hstep'
  cases e with
  | raise n =>
      simp only [step, Option.ite_none_right_eq_some, Option.some.injEq] at hstep'
      rw [← hstep'.2]
      unfold raised
      split <;> exact ⟨id, rfl⟩
  | drop n =>
      simp only [step, Option.ite_none_right_eq_some, Option.some.injEq] at hstep'
      rw [← hstep'.2]
      unfold dropped
      split <;> exact ⟨id, rfl⟩
  | notice =>
      simp only [step, Option.ite_none_right_eq_some, Option.some.injEq] at hstep'
      rw [← hstep'.2]
      exact ⟨fun _ => passed_of_phase _ Phase.noConfusion, rfl⟩
  | forward =>
      simp only [step, Option.ite_none_right_eq_some, Option.some.injEq] at hstep'
      rw [← hstep'.2]
      exact ⟨fun _ _ => (masterNext_some s 2 hstep'.1.2).2.1, rfl⟩
  | enter source before =>
      simp only [step, Option.ite_none_right_eq_some] at hstep'
      rw [enter_opens irqTable ret s t h hstubs source before hstep'.1.1 hstep'.2]
      exact ⟨fun _ => passed_of_phase _ Phase.noConfusion, rfl⟩
  | write =>
      rcases step_write irqTable ret s t hstep with ⟨a, active, w, writes, hphase, _, _, rfl⟩
      refine ⟨fun _ => passed_of_phase _ ?_, rfl⟩
      show s.phase ≠ .cascaded
      rw [hphase]
      exact Phase.noConfusion
  | leave after =>
      rcases step_leave irqTable ret s t after hstep with ⟨a, active, hphase, _, _, _, rfl⟩
      refine ⟨fun _ => passed_of_phase _ ?_, rfl⟩
      show s.phase ≠ .cascaded
      rw [hphase]
      exact Phase.noConfusion
  | sti =>
      simp only [step, Option.ite_none_right_eq_some, Option.some.injEq] at hstep'
      rw [← hstep'.2]
      exact ⟨id, rfl⟩
  | cli =>
      simp only [step, Option.ite_none_right_eq_some, Option.some.injEq] at hstep'
      rw [← hstep'.2]
      exact ⟨id, rfl⟩
  | register call =>
      simp only [step, Option.ite_none_right_eq_some, Option.some.injEq] at hstep'
      rw [← hstep'.2]
      refine ⟨fun _ => passed_of_phase _ ?_, rfl⟩
      show s.phase ≠ .cascaded
      rw [hstep'.1]
      exact Phase.noConfusion

/-- The table after a run is the one its registrations leave. -/
theorem run_table (s t : Delivery) (events : List Event)
    (hrun : Run (Step irqTable ret) s events t) (h : s.InOrder irqTable ret)
    (hpassed : s.Passed) :
    t.Passed ∧ ∀ j < 16, t.ints.irqHandlertable j
      = (lastHandler (registrations events) j).getD (s.ints.irqHandlertable j) := by
  induction hrun with
  | nil s => exact ⟨hpassed, fun j _ => rfl⟩
  | cons s v t e events hstep _ ih =>
      rcases step_table irqTable ret hstubs s v h e hstep with ⟨hkeeps, htable⟩
      rcases ih (step_inOrder irqTable ret s v h hstubs e hstep) (hkeeps hpassed) with
        ⟨ht, hrest⟩
      refine ⟨ht, fun j hj => ?_⟩
      have hsplit : registrations (e :: events) = registrations [e] ++ registrations events := by
        unfold registrations
        rw [← List.filterMap_append, List.singleton_append]
      -- A later registration counts before the first event.
      rw [hrest j hj, htable, run_handler _ _ j hj, hsplit]
      unfold lastHandler
      rw [List.reverse_append, List.find?_append]
      cases List.find? (fun c : HandlerCall => c.line.toNat = j) (registrations events).reverse with
      | none => rfl
      | some c => rfl

/-- A line that is served is asked for and can be heard, and no other line of its
    chip that is asked for and not masked is more urgent. It is no longer asked
    for then, the kernel finds its number in the frame, the last handler registered
    for it is called, unless it is null, and interrupts are off. -/
theorem run_enter (s0 : Interrupts) (idtAddr : Word) (isrTable : Nat → Word) (pre : List Event)
    (s t : Delivery) (line : Nat) (before : Cpu)
    (hrun : Run (Step irqTable ret) (boot s0 idtAddr isrTable irqTable) pre s)
    (hstep : s.Step irqTable ret (.enter (.line line) before) t) :
    (s.Requested line ∧ s.ints.pics.Deliverable line ∧
      ∀ m, (m < 8 ↔ line < 8) → s.Requested m → s.ints.pics.masked m = false → line ≤ m) ∧
    ¬ t.Requested line ∧ t.ints.interruptFlag = false ∧
    ∃ a, t.active = a :: s.active ∧ (irqParameter a.entered).irq = BitVec.ofNat 32 line ∧
      let handler := (lastHandler (registrations pre) line).getD (s0.irqHandlertable line)
      a.handler = if handler ≠ 0 then some handler else none := by
  have hboot := inOrder_boot s0 idtAddr isrTable irqTable ret
  have h := run_inOrder irqTable ret hstubs _ s pre hrun hboot
  rcases run_table irqTable ret hstubs _ s pre hrun hboot
    (passed_of_phase _ Phase.noConfusion) with ⟨hpassed, htable⟩
  have hrequested := (step_requested irqTable ret hstubs s t h _ hstep line).1
  simp only [Step, step, Option.ite_none_right_eq_some] at hstep
  rcases hstep with ⟨⟨hanswer, _⟩, hentered⟩
  have hline : line < 16 := (answer_number irqTable ret s h _ hanswer).1
  rcases answer_line s line hanswer h.masterRequests with ⟨hreq, hclear, hcascaded, hleast⟩
  have ht := enter_opens irqTable ret s t h hstubs _ before hanswer hentered
  refine ⟨⟨hreq, ⟨hclear, fun hhigh => hpassed (hcascaded.mp hhigh)⟩, hleast⟩, ?_, by rw [ht]; rfl,
    s.opened irqTable ret (.line line) before, by rw [ht]; rfl, irqParameter_number _ _ _ ret, ?_⟩
  · simp only [asks, ne_eq, not_true_eq_false, decide_false, Bool.and_false,
      decide_eq_false_iff_not] at hrequested
    exact hrequested
  · show (if s.ints.irqHandlertable line ≠ 0 then some (s.ints.irqHandlertable line) else none) = _
    rw [htable line hline]
    rfl

omit hstubs in
/-- The line is served a second time. -/
theorem run_enter_keyboard : ∃ t a,
    ({ keyboardDone with phase := .noticed } : Delivery).Step someStubs 0
      (.enter (.line 1) (levelCpu 0)) t ∧ t.active = [a] ∧ a.handler = some 0x5000 := by
  rcases run_keyboard (fun _ _ => True) (fun _ _ _ _ => trivial) with
    ⟨hnoticed, hentered, hended, hdone⟩
  have hdone' := ((Run.append _ _ _ _ _ _ (Run.append _ _ _ _ _ _ hnoticed hentered) hended).concat
    _ _ _ _ _ _ hdone).mono _ (Step someStubs 0) _ _ _ fun _ _ _ hstep => hstep.2
  have hagain := hdone'.concat _ _ _ _ _ _
    (step_notice someStubs 0 keyboardDone rfl (by decide) (by decide))
  have h := run_inOrder someStubs 0 someStubs_apart _ _ _ hagain
    (inOrder_boot zeroInterrupts 0x1000 someStubs someStubs 0)
  have henter := step_enter someStubs 0 _ _ (.line 1) (levelCpu 0) (by decide) (by decide)
    (enter_eq someStubs 0 _ h someStubs_apart _ _ (by decide))
  rcases run_enter someStubs 0 someStubs_apart zeroInterrupts 0x1000 someStubs _ _ _ 1 (levelCpu 0)
    hagain henter with ⟨_, _, _, a, hactive, _, hhandler⟩
  exact ⟨_, a, henter, hactive, hhandler⟩

end Entries

end Delivery

end UnixP6
