import UnixP6.Core.Masking
import UnixP6.Theory.Interrupts.Masks

/-!
# Updates of the Masks

`idt_setirqhandler` is called with interrupts on, and the handler of a line may
call it again. A call that is interrupted between reading the mask of a chip
and writing it back undoes what the calls in between did to that chip. A line
enabled there stays masked, with its handler in the table.

The general theory of such updates says which of them stand: those that no call
around them has read the mask for. The masks after a run are those that these
calls make, one after the other, and the order of events decides nothing else.

## Main definitions

* `MaskEvent`, `MaskStep`: What happens, and what it does.
* `updates`, `handlerCalls`: The updates of a run, and the calls of
  `idt_setirqhandler` in it.
* `standingCalls`: The calls that are not written over.
* `lastMasking`: The last call that is about a line.
* `Masking.cells`: The two masks.

## Theorems

* `undisturbed`: The accesses of one call make up the function.
* `value_getLsbD`: What a call makes of the bit of a line.
* `step_cells`, `run_updates`: A run is one of reading and writing back.
* `run_masks`: The masks and the table after any run.
* `init_heard_iff`: Which lines are heard.
-/

namespace UnixP6

open CSemantics

/-- What happens: a function is called, or the last call that has begun reads or
    writes the mask. -/
inductive MaskEvent
  | register (c : HandlerCall)
  | call (c : MaskCall)
  | inb
  | outb
deriving DecidableEq

/-- The steps. There are sixteen lines to mask. -/
inductive MaskStep : Masking → MaskEvent → Masking → Prop
  | register (m : Masking) (c : HandlerCall) :
      MaskStep m (.register c) (m.register c.line c.handler c.enable)
  | call (m : Masking) (c : MaskCall) (hline : c.line.toNat < 16) : MaskStep m (.call c) (m.call c)
  | inb (m m' : Masking) (h : m.inb = some m') : MaskStep m .inb m'
  | outb (m m' : Masking) (h : m.outb = some m') : MaskStep m .outb m'

/-- The accesses of one call, with nothing in between, are the function. -/
theorem undisturbed (m : Masking) (c : MaskCall) :
    (m.call c).inb.bind Masking.outb = some { m with
      ints := { m.ints with
        pics := if c.set then irqSetmask m.ints.pics c.line
          else irqClearmask m.ints.pics c.line } } := by
  rcases c with ⟨set, line⟩
  cases set with
  | false => rfl
  | true => rfl

/-- And so is a call of `idt_setirqhandler`. -/
theorem undisturbed_register (m : Masking) (c : HandlerCall) :
    (c.line ≤ 15 ∧ c.enable ≠ 0 →
      (m.register c.line c.handler c.enable).inb.bind Masking.outb
        = some { m with ints := register m.ints c }) ∧
    (¬ (c.line ≤ 15 ∧ c.enable ≠ 0) →
      m.register c.line c.handler c.enable = { m with ints := register m.ints c }) := by
  unfold Masking.register register idtSetirqhandler
  by_cases hline : 15 < c.line
  · rw [if_pos hline, if_pos hline]
    exact ⟨fun h => absurd h.1 (BitVec.not_le.mpr hline), fun _ => rfl⟩
  · rw [if_neg hline, if_neg hline]
    by_cases henable : c.enable ≠ 0
    · rw [if_pos henable, if_pos henable]
      exact ⟨fun _ => rfl, fun h => absurd ⟨BitVec.not_lt.mp hline, henable⟩ h⟩
    · rw [if_neg henable, if_neg henable]
      exact ⟨fun h => absurd h.2 henable, fun _ => rfl⟩

/-! ### The updates of a run -/

/-- The call of `irq_clearmask` in one of `idt_setirqhandler`. -/
def enabling (c : HandlerCall) : Option MaskCall :=
  if c.line.toNat < 16 ∧ c.enable ≠ 0 then some ⟨false, c.line⟩ else none

/-- An event as one of reading and writing back. -/
def MaskEvent.update : MaskEvent → Option (UpdateEvent MaskCall)
  | .register c => (enabling c).map .start
  | .call c => some (.start c)
  | .inb => some .read
  | .outb => some .write

def updates (events : List MaskEvent) : List (UpdateEvent MaskCall) :=
  events.filterMap MaskEvent.update

/-- The calls of `idt_setirqhandler`. -/
def handlerCalls (events : List MaskEvent) : List HandlerCall :=
  events.filterMap fun
    | .register c => some c
    | _ => none

/-- The chip of a call: the slave, or the master. -/
def MaskCall.chip (c : MaskCall) : Bool := decide (8 ≤ c.line.toNat)

/-- The calls that no call around them writes over. -/
def standingCalls (events : List MaskEvent) : List MaskCall :=
  standing MaskCall.chip [] (updates events)

/-- What the last call that is about a line makes of its bit. -/
def lastMasking (calls : List MaskCall) (line : Nat) : Option Bool :=
  (calls.reverse.find? fun c => c.line.toNat = line).map MaskCall.set

/-- The masks, and the calls that have begun. -/
def Masking.cells (m : Masking) : Cells Bool MaskCall Byte where
  value chip := if chip then m.ints.pics.slave.mask else m.ints.pics.master.mask
  begun := m.calls

/-- The mask bit of a line is one of its chip's mask. -/
theorem masked_cells (m : Masking) (line : Nat) (hline : line < 16) :
    m.ints.pics.masked line = (m.cells.value (decide (8 ≤ line))).getLsbD (line % 8) := by
  unfold Pics.masked Masking.cells
  by_cases hlow : line < 8
  · have hmaster : ¬ 8 ≤ line := Nat.not_le.mpr hlow
    rw [if_pos hlow, Nat.mod_eq_of_lt hlow]
    simp only [hmaster, decide_false, Bool.false_eq_true, if_false]
  · have hslave : 8 ≤ line := Nat.not_lt.mp hlow
    rw [if_neg hlow, show line % 8 = line - 8 by omega]
    simp only [hslave, decide_true, if_true]

/-- A call makes something of the bit of its line only. -/
theorem value_getLsbD (c : MaskCall) (v : Byte) (line : Nat) (hline : line < 16)
    (hchip : c.chip = decide (8 ≤ line)) : (c.value v).getLsbD (line % 8)
      = if c.line.toNat = line then c.set else v.getLsbD (line % 8) := by
  have hbit : ((linePort c.line).2.toNat = line % 8) ↔ c.line.toNat = line := by
    have hsame : 8 ≤ c.line.toNat ↔ 8 ≤ line := by
      rw [← decide_eq_decide]
      exact hchip
    unfold linePort
    by_cases hlow : c.line < 8
    · rw [if_pos hlow]
      bv_omega
    · rw [if_neg hlow]
      bv_omega
  have hlt : line % 8 < 8 := Nat.mod_lt _ (by decide)
  rcases c with ⟨set, number⟩
  unfold MaskCall.value
  cases set with
  | false =>
      simp only [Bool.false_eq_true, if_false, getLsbD_clearLine _ _ _ hlt, hbit]
      by_cases hthis : number.toNat = line
      · simp only [hthis, decide_true, Bool.not_true, Bool.and_false, if_true]
      · simp only [hthis, decide_false, Bool.not_false, Bool.and_true, if_false]
  | true =>
      simp only [if_true, getLsbD_setLine _ _ _ hlt, hbit]
      by_cases hthis : number.toNat = line
      · simp only [hthis, decide_true, Bool.or_true, if_true]
      · simp only [hthis, decide_false, Bool.or_false, if_false]

/-- The bits of a line after calls about its chip. -/
theorem foldl_value (calls : List MaskCall) (v : Byte) (line : Nat) (hline : line < 16) :
    ((calls.filter fun c => c.chip = decide (8 ≤ line)).foldl (fun v c => c.value v) v).getLsbD
      (line % 8) = (lastMasking calls line).getD (v.getLsbD (line % 8)) := by
  induction calls using List.reverseRecOn with
  | nil => rfl
  | append_singleton calls c ih =>
      have hlast : lastMasking (calls ++ [c]) line
          = if c.line.toNat = line then some c.set else lastMasking calls line := by
        unfold lastMasking
        rw [List.reverse_append, List.reverse_singleton, List.singleton_append, List.find?_cons]
        by_cases hthis : c.line.toNat = line
        · simp only [hthis, if_true, decide_true, Option.map_some]
        · simp only [hthis, if_false, decide_false]
      rw [List.filter_append, List.foldl_append, hlast]
      by_cases hchip : c.chip = decide (8 ≤ line)
      · have hone : [c].filter (fun c => decide (c.chip = decide (8 ≤ line))) = [c] :=
          List.filter_eq_self.mpr fun d hd => by
            rw [List.mem_singleton.mp hd]
            exact decide_eq_true hchip
        rw [hone, List.foldl_cons, List.foldl_nil, value_getLsbD c _ line hline hchip, ih]
        by_cases hthis : c.line.toNat = line
        · rw [if_pos hthis, if_pos hthis, Option.getD_some]
        · rw [if_neg hthis, if_neg hthis]
      · -- A call about the other chip is not about the line.
        have hnone : [c].filter (fun c => decide (c.chip = decide (8 ≤ line))) = [] :=
          List.filter_eq_nil_iff.mpr fun d hd => by
            rw [List.mem_singleton.mp hd, decide_eq_true_eq]
            exact hchip
        have hother : c.line.toNat ≠ line := fun hthis => hchip (by rw [MaskCall.chip, hthis])
        rw [hnone, List.foldl_nil, if_neg hother, ih]

/-! ### Runs -/

/-- The master's and the slave's masks after one is written. -/
theorem cells_outb (m : Masking) (h : m.ints.pics.Ready) (c : MaskCall) (v : Byte)
    (rest : List (Begun MaskCall Byte)) (p : Pics) (hp : p = m.ints.pics.outb (linePort c.line).1 v) :
    p.Ready ∧ (Masking.cells { ints := { m.ints with pics := p }, calls := rest }).value
      = Function.update m.cells.value c.chip v := by
  rw [outb_line m.ints.pics h] at hp
  unfold MaskCall.chip Masking.cells
  by_cases hlow : c.line < 8
  · have hmaster : ¬ 8 ≤ c.line.toNat := by bv_omega
    rw [if_pos hlow] at hp
    rw [hp, decide_eq_false hmaster]
    refine ⟨⟨h.master, h.slave⟩, funext fun chip => ?_⟩
    cases chip with
    | false => rfl
    | true => rfl
  · have hslave : 8 ≤ c.line.toNat := by bv_omega
    rw [if_neg hlow] at hp
    rw [hp, decide_eq_true hslave]
    refine ⟨⟨h.master, h.slave⟩, funext fun chip => ?_⟩
    cases chip with
    | false => rfl
    | true => rfl

theorem inb_cells (m : Masking) (c : MaskCall) :
    m.ints.pics.inb (linePort c.line).1 = m.cells.value c.chip := by
  rw [inb_line]
  unfold MaskCall.chip Masking.cells
  by_cases hlow : c.line < 8
  · have hmaster : ¬ 8 ≤ c.line.toNat := by bv_omega
    rw [if_pos hlow, decide_eq_false hmaster]
    rfl
  · have hslave : 8 ≤ c.line.toNat := by bv_omega
    rw [if_neg hlow, decide_eq_true hslave]
    rfl

/-- A call of `idt_setirqhandler` has written to the table before the mask is
    read. -/
theorem register_spec (m : Masking) (c : HandlerCall) :
    (m.register c.line c.handler c.enable).ints.pics = m.ints.pics ∧
      (m.register c.line c.handler c.enable).cells = { m.cells with
        begun := ((enabling c).map fun u => ⟨u, none⟩).toList ++ m.calls } ∧
      ∀ line < 16, (m.register c.line c.handler c.enable).ints.irqHandlertable line
        = (register m.ints c).irqHandlertable line := by
  unfold Masking.register enabling
  by_cases hline : 15 < c.line
  · have hno : ¬ (c.line.toNat < 16 ∧ c.enable ≠ 0) := by bv_omega
    rw [if_pos hline, if_neg hno, register_ignored m.ints c hline]
    exact ⟨rfl, rfl, fun _ _ => rfl⟩
  · have hlow : c.line.toNat < 16 := by bv_omega
    have htable : ∀ j < 16, (if j = c.line.toNat then c.handler else m.ints.irqHandlertable j)
        = (register m.ints c).irqHandlertable j := fun j hj => by
      rw [register_handler m.ints c j hj]
      simp only [eq_comm]
    rw [if_neg hline]
    by_cases henable : c.enable = 0
    · simp only [henable, ne_eq, not_true_eq_false, and_false, if_false]
      exact ⟨trivial, rfl, htable⟩
    · simp only [henable, hlow, ne_eq, not_false_eq_true, and_self, if_true]
      exact ⟨rfl, rfl, htable⟩

/-- A step is one of reading and writing back, or leaves the masks alone. -/
theorem step_cells (m m' : Masking) (e : MaskEvent) (hready : m.ints.pics.Ready)
    (h : MaskStep m e m') : m'.ints.pics.Ready ∧
      Run (UpdateStep MaskCall.chip MaskCall.value) m.cells e.update.toList m'.cells := by
  have hone : ∀ (u : UpdateEvent MaskCall) (t : Cells Bool MaskCall Byte),
      UpdateStep MaskCall.chip MaskCall.value m.cells u t →
        Run (UpdateStep MaskCall.chip MaskCall.value) m.cells [u] t :=
    fun u t hstep => Run.cons _ t t u [] hstep (Run.nil t)
  cases h with
  | register c =>
      have hupdate : (MaskEvent.register c).update = (enabling c).map .start := rfl
      rcases register_spec m c with ⟨hpics, hcells, -⟩
      rw [hupdate, hpics, hcells]
      refine ⟨hready, ?_⟩
      cases enabling c with
      | none => exact Run.nil m.cells
      | some u => exact hone _ _ (UpdateStep.start m.cells u)
  | call c hline => exact ⟨hready, hone _ _ (UpdateStep.start m.cells c)⟩
  | inb _ hinb =>
      unfold Masking.inb at hinb
      split at hinb
      · rename_i c rest hcalls
        rw [← Option.some.inj hinb, inb_cells m c]
        exact ⟨hready, hone _ _ (UpdateStep.read m.cells c rest hcalls)⟩
      · cases hinb
  | outb _ houtb =>
      unfold Masking.outb at houtb
      split at houtb
      · rename_i c v rest hcalls
        rcases cells_outb m hready c (c.value v) rest _ rfl with ⟨hready', hvalue⟩
        rw [← Option.some.inj houtb]
        refine ⟨hready', hone _ _ ?_⟩
        have hwrite : UpdateStep MaskCall.chip MaskCall.value m.cells .write _ :=
          UpdateStep.write m.cells c v rest hcalls
        rw [← hvalue] at hwrite
        exact hwrite
      · cases houtb

/-- A run is one of reading and writing back. -/
theorem run_updates (m m' : Masking) (events : List MaskEvent) (h : Run MaskStep m events m') :
    m.ints.pics.Ready →
      Run (UpdateStep MaskCall.chip MaskCall.value) m.cells (updates events) m'.cells := by
  induction h with
  | nil m => exact fun _ => Run.nil m.cells
  | cons m r m' e events hstep _ ih =>
      intro hready
      rcases step_cells m r e hready hstep with ⟨hready', hfirst⟩
      have hsplit : updates (e :: events) = e.update.toList ++ updates events := by
        unfold updates
        cases hupdate : e.update with
        | none => rw [List.filterMap_cons_none hupdate]; rfl
        | some u => rw [List.filterMap_cons_some hupdate]; rfl
      rw [hsplit]
      exact Run.append _ _ _ _ _ _ hfirst (ih hready')

/-- The table has the handler of the last call for a line, whatever comes in
    between. -/
theorem run_table (m m' : Masking) (events : List MaskEvent) (h : Run MaskStep m events m')
    (line : Nat) (hline : line < 16) : m'.ints.irqHandlertable line
      = (lastHandler (handlerCalls events) line).getD (m.ints.irqHandlertable line) := by
  induction h with
  | nil m => rfl
  | cons m r m' e events hstep _ ih =>
      rw [ih]
      cases hstep with
      | register c =>
          have hcalls : handlerCalls (.register c :: events) = c :: handlerCalls events := rfl
          rw [hcalls, ← run_handler _ m.ints line hline, List.foldl_cons,
            run_handler _ _ line hline, (register_spec m c).2.2 line hline]
      | call c _ => rfl
      | inb _ hinb =>
          unfold Masking.inb at hinb
          split at hinb
          · rw [← Option.some.inj hinb]
            rfl
          · cases hinb
      | outb _ houtb =>
          unfold Masking.outb at houtb
          split at houtb
          · rw [← Option.some.inj houtb]
            rfl
          · cases houtb

section Done

variable (m m' : Masking) (events : List MaskEvent) (h : Run MaskStep m events m')
  (hready : m.ints.pics.Ready) (hcalls : m.calls = []) (hdone : m'.calls = []) (line : Nat)
  (hline : line < 16)

include h hready hcalls hdone hline

/-- Once every call is over, the masks are those that the calls make that are not
    written over. -/
theorem updates_masked : m'.ints.pics.masked line
    = (lastMasking (standingCalls events) line).getD (m.ints.pics.masked line) := by
  have hrun := run_cells MaskCall.chip MaskCall.value m.cells m'.cells (updates events)
    (run_updates m m' events h hready) hcalls hdone (decide (8 ≤ line))
  rw [masked_cells m' line hline, masked_cells m line hline, hrun]
  exact foldl_value (standingCalls events) _ line hline

/-- The masks and the table after any run. The table has the last handler of each
    line, whether its mask was written over or not. -/
theorem run_masks : m'.ints.pics.masked line
      = (lastMasking (standingCalls events) line).getD (m.ints.pics.masked line) ∧
    m'.ints.irqHandlertable line
      = (lastHandler (handlerCalls events) line).getD (m.ints.irqHandlertable line) :=
  ⟨updates_masked m m' events h hready hcalls hdone line hline, run_table m m' events h line hline⟩

end Done

/-- The handler of line 0 is registered while line 1 is being unmasked, between the
    two accesses. -/
def nestedCalls : List MaskEvent :=
  [.register ⟨1, 0x1000, 1⟩, .inb, .register ⟨0, 0x2000, 1⟩, .inb, .outb, .outb]

theorem nested_run : ∃ m, Run MaskStep ⟨idtInit zeroInterrupts 0 (fun _ => 0) (fun _ => 0), []⟩
    nestedCalls m ∧ m.calls = [] :=
  ⟨_, Run.cons _ _ _ _ _ (MaskStep.register _ ⟨1, 0x1000, 1⟩) <|
    Run.cons _ _ _ _ _ (MaskStep.inb _ _ rfl) <|
    Run.cons _ _ _ _ _ (MaskStep.register _ ⟨0, 0x2000, 1⟩) <|
    Run.cons _ _ _ _ _ (MaskStep.inb _ _ rfl) <|
    Run.cons _ _ _ _ _ (MaskStep.outb _ _ rfl) <|
    Run.cons _ _ _ _ _ (MaskStep.outb _ _ rfl) (Run.nil _), rfl⟩

/-- Line 0 stays masked with its handler in the table, and line 1 is unmasked. -/
theorem run_masks_nested : ∃ m : Masking,
    (m.ints.pics.masked 0 = (idtInit zeroInterrupts 0 (fun _ => 0) (fun _ => 0)).pics.masked 0 ∧
      m.ints.irqHandlertable 0 = 0x2000) ∧
    m.ints.pics.masked 1 = false ∧ m.ints.irqHandlertable 1 = 0x1000 := by
  rcases nested_run with ⟨m, hrun, hdone⟩
  have hready := init_ready zeroInterrupts 0 (fun _ => 0) (fun _ => 0)
  exact ⟨m, run_masks _ m nestedCalls hrun hready rfl hdone 0 (by decide),
    run_masks _ m nestedCalls hrun hready rfl hdone 1 (by decide)⟩

/-- A line is unmasked by one of the calls that are not written over, if no call
    sets a mask. -/
theorem lastMasking_clear (calls : List MaskCall) (hclear : ∀ c ∈ calls, c.set = false)
    (line : Nat) : (lastMasking calls line).getD true = false ↔
      ∃ c ∈ calls, c.line.toNat = line := by
  unfold lastMasking
  cases hfind : calls.reverse.find? fun c => c.line.toNat = line with
  | none =>
      rw [List.find?_eq_none] at hfind
      refine ⟨fun h => absurd h Bool.true_eq_false.mp, fun ⟨c, hc, hline⟩ => ?_⟩
      exact absurd (decide_eq_true hline) (hfind c (List.mem_reverse.mpr hc))
  | some c =>
      have hmem : c ∈ calls := List.mem_reverse.mp (List.mem_of_find?_eq_some hfind)
      have hline := List.find?_some hfind
      exact ⟨fun _ => ⟨c, hmem, of_decide_eq_true hline⟩, fun _ => hclear c hmem⟩

/-- From `idt_init` on, after any calls of `idt_setirqhandler` and `irq_clearmask`
    that interrupt each other in any way, a line is heard exactly if a call for it
    is not written over and, for a line of the slave, one for line 2 is not. -/
theorem init_heard_iff (s0 : Interrupts) (idtAddr : Word) (isrTable irqTable : Nat → Word)
    (m : Masking) (events : List MaskEvent)
    (h : Run MaskStep ⟨idtInit s0 idtAddr isrTable irqTable, []⟩ events m) (hdone : m.calls = [])
    (hclear : ∀ c, .call c ∈ events → c.set = false) (line : Nat) (hline : line < 16) :
    m.ints.pics.Deliverable line ↔ (∃ c ∈ standingCalls events, c.line.toNat = line) ∧
      (8 ≤ line → ∃ c ∈ standingCalls events, c.line.toNat = 2) := by
  have hcalls : ∀ c ∈ standingCalls events, c.set = false := by
    intro c hc
    rcases mem_standing MaskCall.chip c _ [] hc with hnone | hstart
    · exact absurd hnone List.not_mem_nil
    · rcases List.mem_filterMap.mp hstart with ⟨e, he, hupdate⟩
      cases e with
      | register r =>
          simp only [MaskEvent.update, enabling, Option.map_eq_some_iff] at hupdate
          rcases hupdate with ⟨u, hu, hstart⟩
          split at hu
          · cases hu
            cases hstart
            rfl
          · cases hu
      | call d =>
          cases hupdate
          exact hclear c he
      | inb => cases hupdate
      | outb => cases hupdate
  have hmasked : ∀ j < 16, m.ints.pics.masked j = false ↔
      ∃ c ∈ standingCalls events, c.line.toNat = j := by
    intro j hj
    have hrun := updates_masked _ m events h (init_ready s0 idtAddr isrTable irqTable) rfl hdone j hj
    rw [init_masked s0 idtAddr isrTable irqTable j hj] at hrun
    rw [hrun]
    exact lastMasking_clear _ hcalls j
  exact and_congr (hmasked line hline) (imp_congr_right fun _ => hmasked 2 (by decide))

/-- Line 1 is heard and line 0 is not. -/
theorem init_heard_iff_nested : ∃ m : Masking,
    (m.ints.pics.Deliverable 0 ↔ (∃ c ∈ standingCalls nestedCalls, c.line.toNat = 0) ∧
      (8 ≤ 0 → ∃ c ∈ standingCalls nestedCalls, c.line.toNat = 2)) ∧
    (m.ints.pics.Deliverable 1 ↔ (∃ c ∈ standingCalls nestedCalls, c.line.toNat = 1) ∧
      (8 ≤ 1 → ∃ c ∈ standingCalls nestedCalls, c.line.toNat = 2)) := by
  rcases nested_run with ⟨m, hrun, hdone⟩
  have hclear : ∀ c, .call c ∈ nestedCalls → c.set = false := by
    intro c hc
    simp only [nestedCalls, List.mem_cons, List.not_mem_nil, reduceCtorEq, or_self] at hc
  exact ⟨m, init_heard_iff zeroInterrupts 0 _ _ m nestedCalls hrun hdone hclear 0 (by decide),
    init_heard_iff zeroInterrupts 0 _ _ m nestedCalls hrun hdone hclear 1 (by decide)⟩

example : standingCalls nestedCalls = [⟨false, 1⟩] := by decide

end UnixP6
