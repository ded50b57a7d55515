import UnixP6.Core.Irq
import UnixP6.Theory.Interrupts.Descriptors

/-!
# Masks and Handlers

Which lines reach the processor after handlers have been registered, in any
number and order. `idt_init` leaves every line masked and both controllers done
with their initialisation; from then on a registration with `enable` clears one
mask bit, and nothing sets one.

A line of the slave also has to pass the master, where the slave is wired to
line 2. No registration clears that bit on behalf of another line, so the lines
of the slave are heard exactly if line 2 has been enabled as well.

## Main definitions

* `Pics.masked`: The mask bit of a line.
* `Pics.Deliverable`: A line reaches the processor.
* `HandlerCall`, `register`: A call of `idt_setirqhandler`.
* `Enabled`: Some call enables a line.
* `lastHandler`: The handler of the last call for a line.

## Theorems

* `masked_clearmask`: One bit is cleared.
* `sendeoi_pics`: An end of interrupt changes no mask.
* `register_masked`, `run_masked`: The masks after one call, and after any.
* `run_handler`: The table after any calls.
* `init_pics`, `init_gates`: What `idt_init` leaves.
* `enabled_deliverable_iff`: The calls after which every enabled line is heard.
-/

namespace UnixP6

open CSemantics

/-! ### Mask bits -/

/-- Both controllers take writes to their data ports for masks. -/
structure Pics.Ready (p : Pics) : Prop where
  master : p.master.expects = .mask
  slave : p.slave.expects = .mask

/-- The mask bit of a line, on the chip it belongs to. -/
def Pics.masked (p : Pics) (line : Nat) : Bool :=
  if line < 8 then p.master.mask.getLsbD line else p.slave.mask.getLsbD (line - 8)

/-- A line reaches the processor: its own bit is clear, and for a line of the
    slave the master's bit for the slave is too. -/
def Pics.Deliverable (p : Pics) (line : Nat) : Prop :=
  p.masked line = false ∧ (8 ≤ line → p.masked 2 = false)

instance (p : Pics) (line : Nat) : Decidable (p.Deliverable line) :=
  inferInstanceAs (Decidable (_ ∧ _))

/-- The bit a line has in the word that is shifted for it. -/
theorem getLsbD_lineBit (n j : Nat) (hj : j < 8) :
    ((1 : Word) <<< n).getLsbD j = decide (n = j) := by
  have hbit : (1 : Word) <<< n = BitVec.twoPow 32 n := (BitVec.twoPow_eq 32 n).symm
  rw [hbit, BitVec.getLsbD_twoPow, Bool.eq_iff_iff]
  simp only [Bool.and_eq_true, decide_eq_true_eq]
  omega

theorem getLsbD_clearLine (x : Byte) (n j : Nat) (hj : j < 8) :
    (x &&& (~~~((1 : Word) <<< n)).setWidth 8).getLsbD j = (x.getLsbD j && !decide (n = j)) := by
  have hword : j < 32 := by omega
  rw [BitVec.getLsbD_and, BitVec.getLsbD_setWidth, BitVec.getLsbD_not, getLsbD_lineBit n j hj]
  simp only [hj, hword, decide_true, Bool.true_and]

theorem getLsbD_setLine (x : Byte) (n j : Nat) (hj : j < 8) :
    (x ||| ((1 : Word) <<< n).setWidth 8).getLsbD j = (x.getLsbD j || decide (n = j)) := by
  rw [BitVec.getLsbD_or, BitVec.getLsbD_setWidth, getLsbD_lineBit n j hj]
  simp only [hj, decide_true, Bool.true_and]

/-- The controllers after the mask of a line's chip has been written. -/
theorem outb_line (p : Pics) (h : p.Ready) (line v : Byte) :
    p.outb (linePort line).1 v =
      if line < 8 then { p with master := { p.master with mask := v } }
      else { p with slave := { p.slave with mask := v } } := by
  by_cases hlow : line < 8
  · simp only [linePort, if_pos hlow, Pics.outb, Pic.data, h.master]
    rfl
  · simp only [linePort, if_neg hlow, Pics.outb, Pic.data, h.slave]
    rfl

theorem inb_line (p : Pics) (line : Byte) :
    p.inb (linePort line).1 = if line < 8 then p.master.mask else p.slave.mask := by
  by_cases hlow : line < 8
  · simp only [linePort, if_pos hlow]
    rfl
  · simp only [linePort, if_neg hlow]
    rfl

/-- What a write to the mask of a line's chip does to the masks of all lines, by
    what it does to the bit with a line's number on the chip. -/
theorem masked_outb (p : Pics) (h : p.Ready) (line v : Byte) (hline : line.toNat < 16)
    (change : Bool → Bool → Bool)
    (hv : ∀ i < 8, v.getLsbD i
      = change ((p.inb (linePort line).1).getLsbD i) (decide ((linePort line).2.toNat = i)))
    (hkeep : ∀ b, change b false = b) (j : Nat) (hj : j < 16) :
    (p.outb (linePort line).1 v).masked j = change (p.masked j) (decide (line.toNat = j)) := by
  rw [inb_line] at hv
  rw [outb_line p h]
  unfold Pics.masked
  by_cases hlow : line < 8
  · have hbit : (linePort line).2 = line := by simp only [linePort, if_pos hlow]
    rw [hbit] at hv
    simp only [if_pos hlow] at hv ⊢
    by_cases hmaster : j < 8
    · rw [if_pos hmaster, if_pos hmaster]
      exact hv j hmaster
    · -- A line of the other chip.
      have hother : line.toNat ≠ j := by bv_omega
      rw [if_neg hmaster, if_neg hmaster, decide_eq_false hother, hkeep]
  · have hbit : (linePort line).2.toNat = line.toNat - 8 := by
      simp only [linePort, if_neg hlow]
      bv_omega
    have hhigh : 8 ≤ line.toNat := by bv_omega
    rw [hbit] at hv
    simp only [if_neg hlow] at hv ⊢
    by_cases hmaster : j < 8
    · have hother : line.toNat ≠ j := by omega
      rw [if_pos hmaster, if_pos hmaster, decide_eq_false hother, hkeep]
    · rw [if_neg hmaster, if_neg hmaster, hv (j - 8) (by omega)]
      congr 2
      rw [eq_iff_iff]
      omega

/-- Clearing the mask of a line clears its bit and no other. -/
theorem masked_clearmask (p : Pics) (h : p.Ready) (line : Byte) (hline : line.toNat < 16)
    (j : Nat) (hj : j < 16) :
    (irqClearmask p line).masked j = (p.masked j && !decide (line.toNat = j)) :=
  masked_outb p h line _ hline (fun b bit => b && !bit)
    (fun i hi => getLsbD_clearLine _ _ i hi) (fun b => Bool.and_true b) j hj

/-- Setting it sets its bit and no other. -/
theorem masked_setmask (p : Pics) (h : p.Ready) (line : Byte) (hline : line.toNat < 16)
    (j : Nat) (hj : j < 16) :
    (irqSetmask p line).masked j = (p.masked j || decide (line.toNat = j)) :=
  masked_outb p h line _ hline (fun b bit => b || bit)
    (fun i hi => getLsbD_setLine _ _ i hi) (fun b => Bool.or_false b) j hj

theorem clearmask_ready (p : Pics) (h : p.Ready) (line : Byte) : (irqClearmask p line).Ready := by
  rw [irqClearmask, outb_line p h]
  by_cases hlow : line < 8
  · rw [if_pos hlow]
    exact ⟨h.master, h.slave⟩
  · rw [if_neg hlow]
    exact ⟨h.master, h.slave⟩

/-- An end of interrupt is not the start of an initialisation, so it leaves the
    controllers, the masks with them, as they are. -/
theorem sendeoi_pics (p : Pics) (irq : Byte) : irqSendeoi p irq = p := by
  have hcommand : ∀ chip : Pic, chip.command picEoi = chip := fun chip => if_neg (by decide)
  have hmaster : ∀ q : Pics, q.outb pic1Command picEoi = q := fun q => by
    rw [Pics.outb, if_pos rfl, hcommand]
  have hslave : p.outb pic2Command picEoi = p := by
    rw [Pics.outb, if_neg (by decide), if_neg (by decide), if_pos rfl, hcommand]
  unfold irqSendeoi
  rw [hslave, ite_self, hmaster]

/-! ### Registrations -/

/-- A call of `idt_setirqhandler`. -/
structure HandlerCall where
  line : Byte
  handler : Word
  enable : Byte
deriving DecidableEq

/-- What it does. -/
def register (s : Interrupts) (c : HandlerCall) : Interrupts :=
  idtSetirqhandler s c.line c.handler c.enable

/-- Some call enables the line. -/
def Enabled (calls : List HandlerCall) (line : Nat) : Prop :=
  ∃ c ∈ calls, c.line.toNat = line ∧ c.enable ≠ 0

instance (calls : List HandlerCall) (line : Nat) : Decidable (Enabled calls line) :=
  inferInstanceAs (Decidable (∃ c ∈ calls, _))

/-- The handler of the last call for the line, if there is one. -/
def lastHandler (calls : List HandlerCall) (line : Nat) : Option Word :=
  (calls.reverse.find? fun c => c.line.toNat = line).map HandlerCall.handler

/-- A line there is not is ignored. -/
theorem register_ignored (s : Interrupts) (c : HandlerCall) (h : 15 < c.line) :
    register s c = s := by
  unfold register idtSetirqhandler
  rw [if_pos h]

theorem register_handler (s : Interrupts) (c : HandlerCall) (j : Nat) (hj : j < 16) :
    (register s c).irqHandlertable j
      = if c.line.toNat = j then c.handler else s.irqHandlertable j := by
  by_cases hline : 15 < c.line
  · have hother : c.line.toNat ≠ j := by bv_omega
    rw [register_ignored s c hline, if_neg hother]
  · unfold register idtSetirqhandler
    rw [if_neg hline]
    by_cases henable : c.enable ≠ 0
    · simp only [if_pos henable, eq_comm]
    · simp only [if_neg henable, eq_comm]

/-- The controllers after a call. -/
theorem register_pics (s : Interrupts) (c : HandlerCall) :
    (register s c).pics
      = if c.line.toNat < 16 ∧ c.enable ≠ 0 then irqClearmask s.pics c.line else s.pics := by
  by_cases hline : 15 < c.line
  · have hno : ¬ (c.line.toNat < 16 ∧ c.enable ≠ 0) := by bv_omega
    rw [register_ignored s c hline, if_neg hno]
  · have hlow : c.line.toNat < 16 := by bv_omega
    unfold register idtSetirqhandler
    rw [if_neg hline]
    by_cases henable : c.enable ≠ 0
    · rw [if_pos henable, if_pos ⟨hlow, henable⟩]
    · rw [if_neg henable, if_neg fun h => henable h.2]

theorem register_ready (s : Interrupts) (c : HandlerCall) (h : s.pics.Ready) :
    (register s c).pics.Ready := by
  rw [register_pics]
  split
  · exact clearmask_ready s.pics h c.line
  · exact h

/-- A call clears the mask bit of the line it enables. -/
theorem register_masked (s : Interrupts) (c : HandlerCall) (h : s.pics.Ready) (j : Nat)
    (hj : j < 16) :
    (register s c).pics.masked j
      = (s.pics.masked j && !decide (c.line.toNat = j ∧ c.enable ≠ 0)) := by
  rw [register_pics]
  by_cases hclears : c.line.toNat < 16 ∧ c.enable ≠ 0
  · rw [if_pos hclears, masked_clearmask s.pics h c.line hclears.1 j hj]
    congr 3
    exact propext ⟨fun hline => ⟨hline, hclears.2⟩, fun hline => hline.1⟩
  · have hno : ¬ (c.line.toNat = j ∧ c.enable ≠ 0) :=
      fun hline => hclears ⟨by omega, hline.2⟩
    rw [if_neg hclears, decide_eq_false hno, Bool.not_false, Bool.and_true]

/-! ### Any number of calls -/

/-- The mask bits that are set are those that were, but for the lines enabled. -/
theorem run_masked (calls : List HandlerCall) (j : Nat) (hj : j < 16) : ∀ s : Interrupts,
    s.pics.Ready →
    (calls.foldl register s).pics.masked j = (s.pics.masked j && !decide (Enabled calls j)) := by
  induction calls with
  | nil =>
      intro s _
      have hnone : ¬ Enabled [] j := fun ⟨c, hc, _⟩ => absurd hc List.not_mem_nil
      rw [List.foldl_nil, decide_eq_false hnone, Bool.not_false, Bool.and_true]
  | cons c calls ih =>
      intro s h
      -- A line is enabled by the first call or by a later one.
      have hsplit : Enabled (c :: calls) j
          ↔ (c.line.toNat = j ∧ c.enable ≠ 0) ∨ Enabled calls j := by
        simp only [Enabled, List.mem_cons, exists_eq_or_imp]
      rw [List.foldl_cons, ih (register s c) (register_ready s c h), register_masked s c h j hj,
        Bool.and_assoc, ← Bool.not_or, ← Bool.decide_or]
      congr 3
      exact propext hsplit.symm

/-- A line has the handler of the last call for it, or the one it had. -/
theorem run_handler (calls : List HandlerCall) (s : Interrupts) (j : Nat) (hj : j < 16) :
    (calls.foldl register s).irqHandlertable j
      = (lastHandler calls j).getD (s.irqHandlertable j) := by
  induction calls using List.reverseRecOn with
  | nil => rfl
  | append_singleton calls c ih =>
      rw [List.foldl_append, List.foldl_cons, List.foldl_nil, register_handler _ c j hj, ih]
      unfold lastHandler
      rw [List.reverse_append, List.reverse_singleton, List.singleton_append, List.find?_cons]
      by_cases hline : c.line.toNat = j
      · simp only [hline, if_true, decide_true, Option.map_some, Option.getD_some]
      · simp only [hline, if_false, decide_false]

/-! ### After `idt_init` -/

/-- The initialisation sequence of one chip, from whatever state it is in. -/
theorem pic_initialise (p : Pic) (start cascade : Byte) :
    (((p.command (icw1Init ||| icw1Icw4)).data start).data cascade).data icw4_8086 =
      { expects := .mask, icw1 := 0x11, offset := start, cascade := cascade, mode := 1, mask := 0 }
    := by
  -- The command asks for a cascade word and a mode word.
  have hcommand : p.command (icw1Init ||| icw1Icw4)
      = { p with expects := .icw2, icw1 := 0x11, mask := 0 } := rfl
  have hcascade : (0x11 : Byte) &&& icw1Single = 0 := by decide
  have hmode : (0x11 : Byte) &&& icw1Icw4 ≠ 0 := by decide
  simp only [hcommand, Pic.data, Pic.afterIcw3, hcascade, hmode, ne_eq, not_true_eq_false,
    not_false_eq_true, if_true, if_false]
  rfl

/-- Both controllers are initialised, with the slave at line 2 of the master, and
    every line is masked. -/
theorem init_pics (s : Interrupts) (idtAddr : Word) (isrTable irqTable : Nat → Word) :
    (idtInit s idtAddr isrTable irqTable).pics =
      { master := { expects := .mask, icw1 := 0x11, offset := 0x20, cascade := 4, mode := 1,
                    mask := 0xFF }
        slave := { expects := .mask, icw1 := 0x11, offset := 0x28, cascade := 2, mode := 1,
                   mask := 0xFF } } := by
  have hpics : (idtInit s idtAddr isrTable irqTable).pics =
      { master := ((((((s.pics.master.command (icw1Init ||| icw1Icw4)).data 0x20).data 4).data
          icw4_8086).data s.pics.master.mask).data 0xFF)
        slave := ((((((s.pics.slave.command (icw1Init ||| icw1Icw4)).data 0x28).data 2).data
          icw4_8086).data s.pics.slave.mask).data 0xFF) } := rfl
  rw [hpics, pic_initialise, pic_initialise]
  rfl

theorem init_ready (s : Interrupts) (idtAddr : Word) (isrTable irqTable : Nat → Word) :
    (idtInit s idtAddr isrTable irqTable).pics.Ready := by
  rw [init_pics]
  exact ⟨rfl, rfl⟩

theorem init_masked (s : Interrupts) (idtAddr : Word) (isrTable irqTable : Nat → Word) (j : Nat)
    (hj : j < 16) : (idtInit s idtAddr isrTable irqTable).pics.masked j = true := by
  have hall : ∀ i < 8, (0xFF : Byte).getLsbD i = true := by decide
  rw [init_pics]
  unfold Pics.masked
  by_cases hmaster : j < 8
  · rw [if_pos hmaster]
    exact hall j hmaster
  · rw [if_neg hmaster]
    exact hall (j - 8) (by omega)

/-- Gates set for so many stubs, each at its vector, and nowhere else. -/
theorem setentries_gates (t : IdtTable) (first : Nat) (stubs : Nat → Word) (n : Nat)
    (hn : n + first ≤ 256) :
    (∀ j < n, Gate.ofBytes (byteOf (setentries t first stubs n (BitVec.ofNat 8 (j + first)))) =
      { address := stubs j, selector := 0x08, flags := 0x8E }) ∧
    ∀ v, (∀ j < n, v ≠ BitVec.ofNat 8 (j + first)) → setentries t first stubs n v = t v := by
  induction n with
  | zero => exact ⟨fun j hj => absurd hj (Nat.not_lt_zero j), fun v _ => rfl⟩
  | succ n ih =>
      rcases ih (by omega) with ⟨hgates, hothers⟩
      unfold setentries at hgates hothers ⊢
      rw [Nat.fold_succ]
      refine ⟨fun j hj => ?_, fun v hv => ?_⟩
      · by_cases hlast : j = n
        · rw [hlast]
          exact gate_setentry _ _ (stubs n) 0x08 0x8E
        · -- The vectors differ, as they are all below 256.
          have hvector : BitVec.ofNat 8 (j + first) ≠ BitVec.ofNat 8 (n + first) := by
            intro hsame
            have hnat := congrArg BitVec.toNat hsame
            rw [BitVec.toNat_ofNat, BitVec.toNat_ofNat, Nat.mod_eq_of_lt (by omega),
              Nat.mod_eq_of_lt (by omega)] at hnat
            omega
          rw [setentry_other _ _ _ _ _ _ hvector]
          exact hgates j (by omega)
      · rw [setentry_other _ _ _ _ _ _ (hv n (by omega))]
        exact hothers v fun j hj => hv j (by omega)

/-- The vector a line is delivered with. -/
def Pics.vector (p : Pics) (line : Nat) : Byte :=
  if line < 8 then p.master.offset + BitVec.ofNat 8 line
  else p.slave.offset + BitVec.ofNat 8 (line - 8)

/-- Every exception has its stub at its vector, and every line has its stub at
    the vector the controllers deliver it with. -/
theorem init_gates (s : Interrupts) (idtAddr : Word) (isrTable irqTable : Nat → Word) :
    let s' := idtInit s idtAddr isrTable irqTable
    (∀ vector < 32, Gate.ofBytes (byteOf (s'.idtTable (BitVec.ofNat 8 vector))) =
      { address := isrTable vector, selector := 0x08, flags := 0x8E }) ∧
    ∀ line < 16, Gate.ofBytes (byteOf (s'.idtTable (s'.pics.vector line))) =
      { address := irqTable line, selector := 0x08, flags := 0x8E } := by
  intro s'
  have htable : s'.idtTable
      = setentries (setentries (fun _ => 0) 0 isrTable 32) 0x20 irqTable 16 := rfl
  have hpics : s'.pics = _ := init_pics s idtAddr isrTable irqTable
  refine ⟨fun vector hvector => ?_, fun line hline => ?_⟩
  · -- The stubs of the lines come after those of the exceptions.
    have hbelow : ∀ j < 16, BitVec.ofNat 8 vector ≠ BitVec.ofNat 8 (j + 0x20) := by
      intro j hj hsame
      have hnat := congrArg BitVec.toNat hsame
      rw [BitVec.toNat_ofNat, BitVec.toNat_ofNat] at hnat
      omega
    rw [htable, (setentries_gates _ 0x20 irqTable 16 (by omega)).2 _ hbelow]
    exact (setentries_gates _ 0 isrTable 32 (by omega)).1 vector hvector
  · have hvector : s'.pics.vector line = BitVec.ofNat 8 (line + 0x20) := by
      rw [hpics]
      unfold Pics.vector
      by_cases hmaster : line < 8
      · rw [if_pos hmaster]
        bv_omega
      · rw [if_neg hmaster]
        bv_omega
    rw [htable, hvector]
    exact (setentries_gates _ 0x20 irqTable 16 (by omega)).1 line hline

/-! ### What is heard -/

/-- After `idt_init` and any calls, every enabled line reaches the processor
    exactly if no line of the slave is enabled, or the master's line for the
    slave is. The rest of what a registration promises holds in any case: the
    last handler of an enabled line is in the table, the lines nobody enabled
    stay masked, and a line there is not is ignored. -/
theorem enabled_deliverable_iff (s0 : Interrupts) (idtAddr : Word) (isrTable irqTable : Nat → Word)
    (calls : List HandlerCall) :
    let s := calls.foldl register (idtInit s0 idtAddr isrTable irqTable)
    ((∀ line < 16, Enabled calls line →
        s.pics.Deliverable line ∧ lastHandler calls line = some (s.irqHandlertable line)) ∧
      (∀ line < 16, line ≠ 2 → ¬ Enabled calls line → s.pics.masked line = true) ∧
      ∀ (s' : Interrupts) (c : HandlerCall), 15 < c.line → register s' c = s') ↔
    (∀ line < 16, 8 ≤ line → ¬ Enabled calls line) ∨ Enabled calls 2 := by
  intro s
  have hready := init_ready s0 idtAddr isrTable irqTable
  have hmasked : ∀ j < 16, s.pics.masked j = !decide (Enabled calls j) := by
    intro j hj
    rw [run_masked calls j hj _ hready, init_masked s0 idtAddr isrTable irqTable j hj,
      Bool.true_and]
  constructor
  · rintro ⟨henabled, _, _⟩
    by_cases hcascade : Enabled calls 2
    · exact Or.inr hcascade
    · -- A line of the slave that were heard would have passed the master.
      refine Or.inl fun line hline hslave hon => ?_
      have hpasses := (henabled line hline hon).1.2 hslave
      rw [hmasked 2 (by omega), decide_eq_false hcascade] at hpasses
      exact absurd hpasses (by decide)
  · intro hcondition
    refine ⟨fun line hline hon => ⟨⟨?_, fun hslave => ?_⟩, ?_⟩, fun line hline _ hoff => ?_,
      fun s' c hc => register_ignored s' c hc⟩
    · rw [hmasked line hline, decide_eq_true hon]
      rfl
    · rcases hcondition with hnone | hcascade
      · exact absurd hon (hnone line hline hslave)
      · rw [hmasked 2 (by omega), decide_eq_true hcascade]
        rfl
    · -- The call that enables the line is one for it, so there is a last one.
      rcases hon with ⟨c, hc, hcline, _⟩
      have hsome : (lastHandler calls line).isSome := by
        rw [lastHandler, Option.isSome_map, List.find?_isSome]
        exact ⟨c, List.mem_reverse.mpr hc, decide_eq_true hcline⟩
      rcases Option.isSome_iff_exists.mp hsome with ⟨handler, hlast⟩
      rw [run_handler calls _ line hline, hlast, Option.getD_some]
    · rw [hmasked line hline, decide_eq_false hoff]
      rfl

/-- Interrupts before `idt_init`, with everything zero. -/
def zeroInterrupts : Interrupts :=
  let pic : Pic := { expects := .mask, icw1 := 0, offset := 0, cascade := 0, mode := 0, mask := 0 }
  { idtTable := fun _ => 0, irqHandlertable := fun _ => 0, idtr := { limit := 0, offset := 0 }
    loaded := { limit := 0, offset := 0 }, interruptFlag := false
    pics := { master := pic, slave := pic } }

/-- A handler registered and enabled for line 8 is not heard. -/
theorem slave_not_heard :
    ¬ ∀ (s0 : Interrupts) (idtAddr : Word) (isrTable irqTable : Nat → Word)
      (calls : List HandlerCall),
      let s := calls.foldl register (idtInit s0 idtAddr isrTable irqTable)
      (∀ line < 16, Enabled calls line →
        s.pics.Deliverable line ∧ lastHandler calls line = some (s.irqHandlertable line)) ∧
      (∀ line < 16, line ≠ 2 → ¬ Enabled calls line → s.pics.masked line = true) ∧
      ∀ (s' : Interrupts) (c : HandlerCall), 15 < c.line → register s' c = s' := by
  intro hall
  have hheard := ((hall zeroInterrupts 0 (fun _ => 0) (fun _ => 0) [⟨8, 0x1000, 1⟩]).1 8
    (by omega) (by decide)).1
  have hcascade := hheard.2 (by omega)
  rw [run_masked _ 2 (by omega) _ (init_ready _ _ _ _),
    init_masked _ _ _ _ 2 (by omega)] at hcascade
  exact absurd hcascade (by decide)

end UnixP6
