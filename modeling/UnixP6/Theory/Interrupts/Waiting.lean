import UnixP6.Theory.Interrupts.Handlers

/-!
# Waiting to Be Served

A line that is asked for and can be heard is served, and how long that takes. It
is said of the processor by itself: devices leave their lines as they are, and
handlers do nothing but return. Handlers leave interrupts off, so interrupts
come one after the other. It may begin anywhere, in a handler or in the middle
of an acknowledgement, and then what has been passed on to the slave may be a
request that is no longer there.

Apart from that each service grants one request, and no request goes unanswered,
so the number of requests goes down (`Delivery.measure`). Until the line is
served there is always something to do next (`Waits.goes_on`).

## Main definitions

* `Event.Own`: An event of the processor by itself.
* `Delivery.Waits`: The line waits, and nothing is in its way.
* `Delivery.measure`: The events until nothing is asked for.

## Theorems

* `Waits.kept`: What an event that does not serve the line keeps.
* `Waits.step`: Such an event leaves the line waiting, with less to do.
* `run_serves`: The line is served within so many events.
-/

namespace UnixP6

open CSemantics

/-- The processor notices, acknowledges, and gets through the handling. -/
def Event.Own : Event → Prop
  | .notice => True
  | .forward => True
  | .enter _ _ => True
  | .write => True
  | .leave _ => True
  | _ => False

namespace Delivery

/-- The line is asked for and can be heard, and interrupts are on when nothing is
    being handled. -/
structure Waits (irqTable : Nat → Word) (ret : Word) (line : Nat) (s : Delivery) : Prop where
  inv : s.Inv irqTable ret
  one : s.AtMostOne
  on : s.phase = .running → s.active = [] → s.ints.interruptFlag = true
  requested : s.Requested line
  heard : s.ints.pics.Deliverable line

/-- The events until nothing is asked for: six for each request at most, and six
    for one that is not there any more. -/
def measure (s : Delivery) : Nat :=
  6 * (s.master.requests.card + s.slave.requests.card) +
    match s.phase, s.active with
    | .noticed, _ => 1
    | .cascaded, _ => if s.slaveNext.isSome then 0 else 6
    | .running, [] => 2
    | .running, a :: _ => 3 + a.writes.length

section Steps

variable (irqTable : Nat → Word) (ret : Word)
  (hstubs : ∀ i < 16, ∀ j < 16, irqTable i = irqTable j → i = j) (line : Nat)
  (s t : Delivery) (h : s.Waits irqTable ret line)

theorem writes_length (a : Activation) (ha : a.Proper irqTable ret) : a.writes.length ≤ 2 := by
  have hle := ha.writes.length_le
  rw [sendeoiWrites_number _ (Activation.Proper.number_lt irqTable ret a ha)] at hle
  refine Nat.le_trans hle ?_
  split
  · exact Nat.le_succ 1
  · exact Nat.le_refl 2

theorem measure_le (hs : s.InOrder irqTable ret) :
    s.measure ≤ 6 * (s.master.requests.card + s.slave.requests.card) + 6 := by
  unfold measure
  refine Nat.add_le_add_left ?_ _
  cases s.phase with
  | noticed => exact Nat.le_add_left 1 5
  | cascaded =>
      simp only
      split
      · exact Nat.zero_le 6
      · exact Nat.le_refl 6
  | running =>
      cases hactive : s.active with
      | nil => exact Nat.le_add_left 2 4
      | cons a active =>
          have hlength := writes_length irqTable ret a (hs.proper a (hactive ▸ List.mem_cons_self))
          simp only
          omega

include h

/-- With nothing being handled something is offered, the line if nothing else. -/
theorem Waits.offered (hphase : s.phase ≠ .cascaded) (hactive : s.active = []) :
    s.masterNext.isSome = true := by
  rcases h.inv.inService_nil irqTable ret s hphase (fun a ha => by
    rw [hactive] at ha
    exact absurd ha List.not_mem_nil) with ⟨hmaster, hslave⟩
  exact masterNext_isSome s hmaster hslave line h.requested h.heard

theorem Waits.noticed (hphase : s.phase = .noticed) : s.masterNext.isSome = true := by
  have hne : s.phase ≠ .cascaded := by
    rw [hphase]
    exact Phase.noConfusion
  exact h.offered irqTable ret line s hne
    (h.one.active_nil s (by rw [hphase]; exact Phase.noConfusion))

/-- What is answered is a line, if it has not been dropped in the middle of an
    acknowledgement. -/
theorem Waits.answer_cases (source : Source) (hanswer : s.answer = some source) :
    (∃ n, source = .line n) ∨
      (source = .spurious true ∧ s.phase = .cascaded ∧ s.slaveNext.isSome = false) := by
  cases hphase : s.phase with
  | running =>
      rw [answer, hphase] at hanswer
      exact absurd hanswer (Option.some_ne_none source).symm
  | noticed =>
      rcases Option.isSome_iff_exists.mp (h.noticed irqTable ret line s hphase) with ⟨m, hnext⟩
      rw [answer, hphase] at hanswer
      simp only [hnext] at hanswer
      by_cases hm2 : m = 2
      · rw [if_pos hm2] at hanswer
        exact absurd hanswer (Option.some_ne_none source).symm
      · rw [if_neg hm2, Option.some.injEq] at hanswer
        exact Or.inl ⟨m, hanswer.symm⟩
  | cascaded =>
      rw [answer, hphase] at hanswer
      cases hnext : s.slaveNext with
      | none =>
          simp only [hnext, Option.some.injEq] at hanswer
          exact Or.inr ⟨hanswer.symm, rfl, rfl⟩
      | some m =>
          simp only [hnext, Option.some.injEq] at hanswer
          exact Or.inl ⟨m + 8, hanswer.symm⟩

omit h in
/-- A grant takes one request off. -/
theorem card_granted (n : Nat) (hreq : s.Requested n) :
    (s.granted (.line n)).master.requests.card + (s.granted (.line n)).slave.requests.card + 1
      = s.master.requests.card + s.slave.requests.card := by
  unfold Requested at hreq
  unfold granted
  by_cases hn : n < 8
  · rw [if_pos hn] at hreq
    simp only [hn, if_true, Arbiter.grant]
    have hcard := Finset.card_erase_add_one hreq
    omega
  · rw [if_neg hn] at hreq
    simp only [hn, if_false, Arbiter.grant]
    have hcard := Finset.card_erase_add_one hreq
    omega

include hstubs

/-- An event that does not serve the line keeps both invariants and the request. -/
theorem Waits.kept (e : Event) (hown : e.Own) (hother : serves line e = false)
    (hstep : s.Step irqTable ret e t) :
    t.Inv irqTable ret ∧ t.AtMostOne ∧ t.Requested line := by
  have hundisturbed := h.one.undisturbed irqTable ret s t h.inv e hstep
  refine ⟨step_inv irqTable ret s t h.inv hstubs e hundisturbed hstep, ?_, ?_⟩
  · refine atMostOne_step irqTable ret hstubs s t h.inv h.one e ?_ hstep
    cases e with
    | sti => exact absurd hown id
    | _ => trivial
  · have hasks := (step_requested irqTable ret hstubs s t h.inv.toInOrder e hstep line).1
    refine of_decide_eq_true (hasks.trans ?_)
    rw [decide_eq_true h.requested]
    cases e with
    | enter source before =>
        cases source with
        | line n =>
            have hne : n ≠ line := of_decide_eq_false hother
            exact (Bool.true_and _).trans (decide_eq_true hne)
        | spurious slave => rfl
    | drop n => exact absurd hown id
    | raise n => exact absurd hown id
    | _ => rfl

/-- The second half of an acknowledgement begins. -/
theorem Waits.forwarded (hstep : s.Step irqTable ret .forward t) :
    t.Waits irqTable ret line ∧ t.measure < s.measure := by
  rcases h.kept irqTable ret hstubs line s t .forward trivial rfl hstep with
    ⟨hinv, hone, hrequested⟩
  simp only [Step, Delivery.step, Option.ite_none_right_eq_some, Option.some.injEq] at hstep
  rcases hstep with ⟨⟨hphase, hnext⟩, rfl⟩
  have hnobody : 2 ∉ s.master.requests := fun hc => (h.inv.masterRequests 2 hc).2 rfl
  have hslave : s.slaveNext.isSome = true := ((masterNext_some s 2 hnext).1.resolve_left hnobody).2
  refine ⟨⟨hinv, hone, fun hc => Phase.noConfusion hc, hrequested, h.heard⟩, ?_⟩
  have hsame : slaveNext { s with master := s.master.grant 2, phase := .cascaded }
      = s.slaveNext := rfl
  simp only [measure, hphase, Arbiter.grant, Finset.erase_eq_of_notMem hnobody] at hsame ⊢
  rw [hsame, if_pos hslave]
  omega

/-- Another line is served, or one that has been dropped meanwhile. -/
theorem Waits.entered (source : Source) (before : Cpu)
    (hother : serves line (.enter source before) = false)
    (hstep : s.Step irqTable ret (.enter source before) t) :
    t.Waits irqTable ret line ∧ t.measure < s.measure := by
  rcases h.kept irqTable ret hstubs line s t (.enter source before) trivial hother hstep with
    ⟨hinv, hone, hrequested⟩
  simp only [Step, Delivery.step, Option.ite_none_right_eq_some] at hstep
  rcases hstep with ⟨⟨hanswer, _⟩, hentered⟩
  have ht := enter_opens irqTable ret s t h.inv.toInOrder hstubs _ before hanswer hentered
  have hopened : t.active = s.opened irqTable ret source before :: s.active ∧
      t.phase = .running ∧ t.master = (s.granted source).master ∧
      t.slave = (s.granted source).slave ∧ t.ints.pics = s.ints.pics := by
    rw [ht]
    exact ⟨rfl, rfl, rfl, rfl, rfl⟩
  rcases hopened with ⟨hactive, hrunning, hmaster, hslave, hpics⟩
  have hwrites := writes_length irqTable ret _
    (hinv.proper (s.opened irqTable ret source before) (hactive ▸ List.mem_cons_self))
  refine ⟨⟨hinv, hone, fun _ hc => ?_, hrequested, hpics ▸ h.heard⟩, ?_⟩
  · rw [hactive] at hc
    exact absurd hc (List.cons_ne_nil _ _)
  have hmeasure : t.measure ≤ 6 * ((s.granted source).master.requests.card
      + (s.granted source).slave.requests.card) + 5 := by
    simp only [measure, hrunning, hactive, hmaster, hslave]
    omega
  rcases h.answer_cases irqTable ret line s source hanswer with ⟨n, rfl⟩ | ⟨rfl, hphase, hnone⟩
  · -- A line that is granted is one request less.
    have hcard := card_granted s n (answer_line s n hanswer h.inv.masterRequests).1
    unfold measure at hmeasure ⊢
    omega
  · have hold : s.measure = 6 * (s.master.requests.card + s.slave.requests.card) + 6 := by
      simp only [measure, hphase, hnone, Bool.false_eq_true, if_false]
    rw [hold]
    exact Nat.lt_succ_of_le hmeasure

/-- An end of interrupt is one write less. -/
theorem Waits.written (hstep : s.Step irqTable ret .write t) :
    t.Waits irqTable ret line ∧ t.measure < s.measure := by
  rcases h.kept irqTable ret hstubs line s t .write trivial rfl hstep with ⟨hinv, hone, hrequested⟩
  rcases step_write irqTable ret s t hstep with ⟨a, active, w, writes, hphase, hactive, hwrites, rfl⟩
  have hproper := h.inv.proper a (hactive ▸ List.mem_cons_self)
  have hports : w = (pic2Command, picEoi) ∨ w = (pic1Command, picEoi) := by
    rcases hproper.write_cases irqTable ret a w writes hwrites with ⟨_, hw, _⟩ | ⟨hw, _⟩
    · exact Or.inl hw
    · exact Or.inr hw
  rcases hports with rfl | rfl
  · rw [outb_slave] at hinv hone hrequested ⊢
    refine ⟨⟨hinv, hone, fun _ hc => absurd hc (List.cons_ne_nil _ _), hrequested, h.heard⟩, ?_⟩
    simp only [measure, hphase, hactive, hwrites, Arbiter.endOfService_requests, List.length_cons]
    omega
  · rw [outb_master] at hinv hone hrequested ⊢
    refine ⟨⟨hinv, hone, fun _ hc => absurd hc (List.cons_ne_nil _ _), hrequested, h.heard⟩, ?_⟩
    simp only [measure, hphase, hactive, hwrites, Arbiter.endOfService_requests, List.length_cons]
    omega

/-- The one handler there is returns, with interrupts on. -/
theorem Waits.left (after : Cpu) (hstep : s.Step irqTable ret (.leave after) t) :
    t.Waits irqTable ret line ∧ t.measure < s.measure := by
  rcases h.kept irqTable ret hstubs line s t (.leave after) trivial rfl hstep with
    ⟨hinv, hone, hrequested⟩
  rcases step_leave irqTable ret s t after hstep with
    ⟨a, active, hphase, hactive, hwrites, ⟨hesp, hkept⟩, rfl⟩
  have hproper := h.inv.proper a (hactive ▸ List.mem_cons_self)
  rw [hproper.entered] at hkept
  have hresumed := leave_resumes a.before after _ _ ret hesp hkept
  have hnone : active = [] := by
    rcases h.one with hnone | ⟨b, hb, _⟩
    · rw [hactive] at hnone
      exact absurd hnone (List.cons_ne_nil a active)
    · rw [hactive, List.cons.injEq] at hb
      exact hb.2
  refine ⟨⟨hinv, hone, fun _ _ => ?_, hrequested, h.heard⟩, ?_⟩
  · show (irqLeave after).eflags.getLsbD 9 = true
    rw [hresumed.eflags]
    exact hproper.on
  · simp only [measure, hphase, hactive, hwrites, hnone, List.length_nil]
    omega

/-- An event that does not serve the line leaves it waiting, with less to do. -/
theorem Waits.step (e : Event) (hown : e.Own) (hother : serves line e = false)
    (hstep : s.Step irqTable ret e t) : t.Waits irqTable ret line ∧ t.measure < s.measure := by
  cases e with
  | notice =>
      rcases h.kept irqTable ret hstubs line s t .notice hown hother hstep with
        ⟨hinv, hone, hrequested⟩
      simp only [Step, Delivery.step, Option.ite_none_right_eq_some, Option.some.injEq] at hstep
      rcases hstep with ⟨⟨hphase, hon, hnext⟩, rfl⟩
      refine ⟨⟨hinv, hone, fun hc => Phase.noConfusion hc, hrequested, h.heard⟩, ?_⟩
      simp only [measure, hphase, h.one.nil_of_on s hon]
      omega
  | forward => exact h.forwarded irqTable ret hstubs line s t hstep
  | enter source before => exact h.entered irqTable ret hstubs line s t source before hother hstep
  | write => exact h.written irqTable ret hstubs line s t hstep
  | leave after => exact h.left irqTable ret hstubs line s t after hstep
  | raise n => exact absurd hown id
  | drop n => exact absurd hown id
  | sti => exact absurd hown id
  | cli => exact absurd hown id
  | register call => exact absurd hown id

/-- There is always something to do next. -/
theorem Waits.goes_on : ∃ e u, e.Own ∧ s.Step irqTable ret e u := by
  -- What the controllers answer can be taken by a processor with interrupts on.
  have henter : ∀ source, s.answer = some source → ∃ e u, e.Own ∧ s.Step irqTable ret e u :=
    fun source hanswer => ⟨.enter source (levelCpu 0), _, trivial,
      step_enter irqTable ret s _ source _ hanswer (by decide)
        (enter_eq irqTable ret s h.inv.toInOrder hstubs source _ hanswer)⟩
  cases hphase : s.phase with
  | running =>
      have hne : s.phase ≠ .cascaded := by
        rw [hphase]
        exact Phase.noConfusion
      cases hactive : s.active with
      | nil =>
          exact ⟨.notice, _, trivial, step_notice irqTable ret s hphase (h.on hphase hactive)
            (h.offered irqTable ret line s hne hactive)⟩
      | cons a active =>
          cases hwrites : a.writes with
          | cons w writes =>
              refine ⟨.write, { s with active := { a with writes := writes } :: active }.outb w.1 w.2,
                trivial, ?_⟩
              simp only [Step, Delivery.step, hphase, hactive, hwrites]
          | nil =>
              exact ⟨.leave _, _, trivial, step_leave_of irqTable ret s a active _ hphase hactive
                hwrites (keptBy_entered irqTable ret a
                  (h.inv.proper a (hactive ▸ List.mem_cons_self)))⟩
  | noticed =>
      rcases Option.isSome_iff_exists.mp (h.noticed irqTable ret line s hphase) with ⟨n, hnext⟩
      by_cases hn2 : n = 2
      · subst hn2
        refine ⟨.forward, { s with master := s.master.grant 2, phase := .cascaded }, trivial, ?_⟩
        simp only [Step, Delivery.step, hphase, hnext, and_self, if_true]
      · refine henter (.line n) ?_
        simp only [answer, hphase, hnext, hn2, if_false]
  | cascaded =>
      cases hnext : s.slaveNext with
      | none =>
          refine henter (.spurious true) ?_
          simp only [answer, hphase, hnext]
      | some n =>
          refine henter (.line (n + 8)) ?_
          simp only [answer, hphase, hnext]

end Steps

/-- After any run in which handlers leave interrupts off, and with interrupts on
    unless one is being handled or acknowledged, a line that is asked for and can be
    heard is served: a run of the processor's own events that has not served it yet
    is at most six events long for each request there is, and six more, and it can
    go on. -/
theorem run_serves (irqTable : Nat → Word) (ret : Word)
    (hstubs : ∀ i < 16, ∀ j < 16, irqTable i = irqTable j → i = j) (s0 : Interrupts)
    (idtAddr : Word) (isrTable : Nat → Word) (events : List Event) (s : Delivery)
    (hrun : Run (Guarded LeavesOff (Step irqTable ret)) (boot s0 idtAddr isrTable irqTable)
      events s)
    (hon : s.phase = .running → s.active = [] → s.ints.interruptFlag = true) (line : Nat)
    (hrequested : s.Requested line) (hheard : s.ints.pics.Deliverable line)
    (own : List Event) (t : Delivery)
    (hown : Run (Guarded (fun _ e => e.Own ∧ serves line e = false) (Step irqTable ret)) s own t) :
    own.length ≤ 6 * (s.master.requests.card + s.slave.requests.card) + 6 ∧
      ∃ e u, e.Own ∧ t.Step irqTable ret e u := by
  rcases run_atMostOne irqTable ret hstubs _ s (inv_boot s0 idtAddr isrTable irqTable ret)
    (Or.inl rfl) events hrun with ⟨hinv, hone⟩
  have hwaits : s.Waits irqTable ret line := ⟨hinv, hone, hon, hrequested, hheard⟩
  rcases Run.length_le _ (Waits irqTable ret line) measure
    (fun a e b ha hstep => ha.step irqTable ret hstubs line a b e hstep.1.1 hstep.1.2 hstep.2)
    s t own hown hwaits with ⟨ht, hlength⟩
  exact ⟨Nat.le_trans (Nat.le_of_add_right_le hlength) (measure_le irqTable ret s hinv.toInOrder),
    ht.goes_on irqTable ret hstubs line t⟩

/-- The line is raised again while it is being handled. Its first service is ended
    and returned from before the second. -/
theorem run_serves_keyboard : ∃ e u, e.Own ∧
    ({ keyboardDone with phase := .noticed } : Delivery).Step someStubs 0 e u := by
  rcases run_keyboard LeavesOff (fun s e hsti _ => by
    cases e with
    | sti => exact absurd rfl hsti
    | _ => trivial) with ⟨hnoticed, hentered, hended, hdone⟩
  have hwrite : keyboardEntered.Step someStubs 0 .write keyboardEnded := rfl
  exact (run_serves someStubs 0 someStubs_apart zeroInterrupts 0x1000 someStubs _ keyboardEntered
    (Run.append _ _ _ _ _ _ hnoticed hentered) (fun _ hc => absurd hc (List.cons_ne_nil _ _)) 1
    (by decide) (by decide) [.write, .leave keyboardAfter, .notice] _
    (Run.cons _ keyboardEnded _ _ _ ⟨⟨trivial, rfl⟩, hwrite⟩ <|
      Run.cons _ keyboardDone _ _ _ ⟨⟨trivial, rfl⟩, hdone.2⟩ <|
      Run.cons _ _ _ _ _ ⟨⟨trivial, rfl⟩, step_notice _ _ _ rfl (by decide) (by decide)⟩
        (Run.nil _))).2

end Delivery

end UnixP6
