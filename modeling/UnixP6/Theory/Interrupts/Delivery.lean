import UnixP6.CSemantics.Priority
import UnixP6.CSemantics.Run
import UnixP6.Core.Handling
import UnixP6.Theory.Interrupts.Frame
import UnixP6.Theory.Interrupts.Masks

/-!
# Delivering Interrupts

The kernel's side of an interrupt with the hardware it talks to: devices that
raise and drop their lines at any time, two controllers that grant one line
each by priority, and a processor that may be interrupted again as soon as the
code it runs turns interrupts on.

What the kernel does is taken from its own definitions. The vector is looked up
in the table of gates, the stub found there is run on the registers of whatever
was interrupted, and the handler and the writes of `irq_sendeoi` follow from
the number `handle_irqint` finds in the frame. The code that runs in between is
arbitrary. It may register handlers, turn interrupts on and off, and take any
registers and any stack into the next interrupt.

The controllers are those of the PC: fully nested, with line 2 of the master for
the slave. They grant a line when the processor acknowledges. A request that is
dropped after the processor has noticed it, but before then, leads to the last
vector of the chip without anything being granted, on the master or, once the
master has passed the acknowledgement on, on the slave.

## Main definitions

* `Source`: What a vector was delivered for.
* `Activation`: An interrupt whose stub has not returned.
* `Delivery`: The tables, the controllers and what is being handled.
* `Event`, `Delivery.step`: What can happen next.
* `Delivery.opened`: The interrupt an entry opens.

## Theorems

* `leave_resumes`: The interrupted code gets its registers back.
* `Delivery.enter_spec`: What an entry finds and leaves.
-/

namespace UnixP6

open CSemantics

/-- What a vector was delivered for: a line, or no request any more. -/
inductive Source
  | line (n : Nat)
  | spurious (slave : Bool)
deriving Repr, DecidableEq

/-- The number of the line the vector belongs to. -/
def Source.number : Source → Nat
  | .line n => n
  | .spurious slave => if slave then 15 else 7

/-- The processor between two instructions, and in the two halves of an
    acknowledgement. -/
inductive Phase
  | running
  | noticed
  | cascaded
deriving Repr, DecidableEq

/-- An interrupt whose stub has not returned: the processor before it and at the
    entry of `handle_irqint`, the handler called, and the writes still to come. -/
structure Activation where
  before : Cpu
  entered : Cpu
  source : Source
  handler : Option Word
  writes : List (Half × Byte)

/-- The tables, what the controllers are asked for and have in service, and the
    interrupts being handled, the last one first. -/
structure Delivery where
  ints : Interrupts
  master : Arbiter Nat
  slave : Arbiter Nat
  phase : Phase
  active : List Activation

/-- What can happen. Devices raise and drop lines, the processor notices and
    acknowledges, and the code it runs writes to the controllers, returns from the
    stub, turns interrupts on and off, and registers handlers. -/
inductive Event
  | raise (line : Nat)
  | drop (line : Nat)
  | notice
  | forward
  | enter (source : Source) (before : Cpu)
  | write
  | leave (after : Cpu)
  | sti
  | cli
  | register (call : HandlerCall)

namespace Delivery

/-! ### The controllers -/

/-- The line the slave has to offer. -/
def slaveNext (s : Delivery) : Option Nat := s.slave.next s.ints.pics.slave.mask.getLsbD

/-- What the master is asked for: its own lines, and line 2 when the slave has
    something to offer. -/
def masterRequests (s : Delivery) : Arbiter Nat :=
  if s.slaveNext.isSome then { s.master with requests := insert 2 s.master.requests } else s.master

/-- The line the master has to offer. -/
def masterNext (s : Delivery) : Option Nat :=
  s.masterRequests.next s.ints.pics.master.mask.getLsbD

/-- What the controllers answer an acknowledgement with. There is no answer yet
    when the master passes it on. -/
def answer (s : Delivery) : Option Source :=
  match s.phase with
  | .running => none
  | .noticed =>
    match s.masterNext with
    | none => some (.spurious false)
    | some n => if n = 2 then none else some (.line n)
  | .cascaded =>
    match s.slaveNext with
    | none => some (.spurious true)
    | some n => some (.line (n + 8))

/-- The controllers after that answer. -/
def granted (s : Delivery) : Source → Delivery
  | .line n =>
    if n < 8 then { s with master := s.master.grant n }
    else { s with slave := s.slave.grant (n - 8) }
  | .spurious _ => s

/-- A write to a port of theirs, where `PIC_EOI` ends a service. -/
def outb (s : Delivery) (port : Half) (v : Byte) : Delivery :=
  { s with
    ints := { s.ints with pics := s.ints.pics.outb port v }
    master := if port = pic1Command ∧ v = picEoi then s.master.endOfService else s.master
    slave := if port = pic2Command ∧ v = picEoi then s.slave.endOfService else s.slave }

/-- The lines of the devices. Line 2 is the slave. -/
def raised (s : Delivery) (line : Nat) : Delivery :=
  if line < 8 then { s with master := { s.master with requests := insert line s.master.requests } }
  else { s with slave := { s.slave with requests := insert (line - 8) s.slave.requests } }

def dropped (s : Delivery) (line : Nat) : Delivery :=
  if line < 8 then { s with master := { s.master with requests := s.master.requests.erase line } }
  else { s with slave := { s.slave with requests := s.slave.requests.erase (line - 8) } }

/-- The line is asked for. -/
def Requested (s : Delivery) (line : Nat) : Prop :=
  if line < 8 then line ∈ s.master.requests else line - 8 ∈ s.slave.requests

instance (s : Delivery) (line : Nat) : Decidable (s.Requested line) :=
  inferInstanceAs (Decidable (if line < 8 then line ∈ s.master.requests
    else line - 8 ∈ s.slave.requests))

end Delivery

/-! ### The processor and the kernel -/

/-- The type of a gate that turns interrupts off. -/
def Gate.isInterrupt (g : Gate) : Bool := g.flags &&& 0x0F = 0x0E

/-- What the processor does with a gate: it pushes, and goes to the stub. -/
def Cpu.throughGate (c : Cpu) (g : Gate) : Cpu :=
  let c := c.interrupt none
  let c := if g.isInterrupt then c.cli else c
  { c with cs := g.selector, eip := g.address }

/-- The interrupt flag. -/
def Cpu.interruptsOn (c : Cpu) : Bool := c.eflags.getLsbD 9

/-- The stub at an address. -/
def stubAt (irqTable : Nat → Word) (address : Word) : Option Nat :=
  (List.range 16).find? fun line => irqTable line = address

/-- The stub returns to what was interrupted: the stack is back at the frame, and
    the frame is as it was. -/
def Activation.KeptBy (a : Activation) (after : Cpu) : Prop :=
  after.esp = a.before.esp - 52 ∧
    ∀ j < 13, after.mem.dword after.esp j = a.entered.mem.dword (a.entered.esp + 4) j

instance (a : Activation) (after : Cpu) : Decidable (a.KeptBy after) :=
  inferInstanceAs (Decidable (_ ∧ _))

namespace Delivery

section Kernel

variable (irqTable : Nat → Word) (ret : Word)

/-- The vector is taken: through its gate to a stub, and into `handle_irqint`. -/
def enter (s : Delivery) (source : Source) (before : Cpu) : Option Delivery :=
  let gate := Gate.ofBytes (byteOf (s.ints.idtTable (s.ints.pics.vector source.number)))
  (stubAt irqTable gate.address).map fun line =>
    let entered := irqint (BitVec.ofNat 32 line) ret (before.throughGate gate)
    let handling := handleIrqint s.ints (irqParameter entered)
    { s with
      ints := { s.ints with interruptFlag := entered.interruptsOn }
      phase := .running
      active := { before, entered, source, handler := handling.1, writes := handling.2 } :: s.active }

/-- What happens at an event, if it can happen. -/
def step (s : Delivery) : Event → Option Delivery
  | .raise line => if line < 16 ∧ line ≠ 2 then some (s.raised line) else none
  | .drop line => if line < 16 ∧ line ≠ 2 then some (s.dropped line) else none
  | .notice =>
    if s.phase = .running ∧ s.ints.interruptFlag = true ∧ s.masterNext.isSome then
      some { s with phase := .noticed }
    else none
  | .forward =>
    if s.phase = .noticed ∧ s.masterNext = some 2 then
      some { s with master := s.master.grant 2, phase := .cascaded }
    else none
  | .enter source before =>
    if s.answer = some source ∧ before.interruptsOn = true then
      (s.granted source).enter irqTable ret source before
    else none
  | .write =>
    match s.phase, s.active with
    | .running, a :: active =>
      match a.writes with
      | w :: writes => some ({ s with active := { a with writes } :: active }.outb w.1 w.2)
      | [] => none
    | _, _ => none
  | .leave after =>
    match s.phase, s.active with
    | .running, a :: active =>
      if a.writes = [] ∧ a.KeptBy after then
        some { s with
          ints := { s.ints with interruptFlag := (irqLeave after).interruptsOn }, active }
      else none
    | _, _ => none
  | .sti =>
    if s.phase = .running then some { s with ints := { s.ints with interruptFlag := true } } else none
  | .cli =>
    if s.phase = .running then some { s with ints := { s.ints with interruptFlag := false } } else none
  | .register call =>
    if s.phase = .running then some { s with ints := UnixP6.register s.ints call } else none

def Step (s : Delivery) (e : Event) (t : Delivery) : Prop := s.step irqTable ret e = some t

theorem step_notice (s : Delivery) (hphase : s.phase = .running)
    (hon : s.ints.interruptFlag = true) (hnext : s.masterNext.isSome = true) :
    s.Step irqTable ret .notice { s with phase := .noticed } := by
  simp only [Step, step, hphase, hon, hnext, and_self, if_true]

theorem step_enter (s t : Delivery) (source : Source) (before : Cpu)
    (hanswer : s.answer = some source) (hon : before.interruptsOn = true)
    (hentered : (s.granted source).enter irqTable ret source before = some t) :
    s.Step irqTable ret (.enter source before) t := by
  simp only [Step, step, hanswer, hon, hentered, and_self, if_true]

/-- A write is the next one of the interrupt being handled. -/
theorem step_write (s t : Delivery) (h : s.Step irqTable ret .write t) :
    ∃ a active w writes, s.phase = .running ∧ s.active = a :: active ∧ a.writes = w :: writes ∧
      t = { s with active := { a with writes := writes } :: active }.outb w.1 w.2 := by
  simp only [Step, step] at h
  cases hphase : s.phase with
  | running =>
      cases hactive : s.active with
      | nil =>
          rw [hphase, hactive] at h
          exact absurd h (Option.some_ne_none t).symm
      | cons a active =>
          rw [hphase, hactive] at h
          cases hwrites : a.writes with
          | nil =>
              simp only [hwrites] at h
              exact absurd h (Option.some_ne_none t).symm
          | cons w writes =>
              simp only [hwrites, Option.some.injEq] at h
              exact ⟨a, active, w, writes, rfl, rfl, hwrites, h.symm⟩
  | noticed =>
      rw [hphase] at h
      exact absurd h (Option.some_ne_none t).symm
  | cascaded =>
      rw [hphase] at h
      exact absurd h (Option.some_ne_none t).symm

/-- The interrupt being handled may return after its last write. -/
theorem step_leave_of (s : Delivery) (a : Activation) (active : List Activation) (after : Cpu)
    (hphase : s.phase = .running) (hactive : s.active = a :: active) (hwrites : a.writes = [])
    (hkept : a.KeptBy after) :
    s.Step irqTable ret (.leave after) { s with
      ints := { s.ints with interruptFlag := (irqLeave after).interruptsOn }
      active := active } := by
  simp only [Step, step, hphase, hactive, hwrites, hkept, and_self, if_true]

/-- A return is from the interrupt being handled, after its last write. -/
theorem step_leave (s t : Delivery) (after : Cpu) (h : s.Step irqTable ret (.leave after) t) :
    ∃ a active, s.phase = .running ∧ s.active = a :: active ∧ a.writes = [] ∧ a.KeptBy after ∧
      t = { s with
        ints := { s.ints with interruptFlag := (irqLeave after).interruptsOn }
        active := active } := by
  simp only [Step, step] at h
  cases hphase : s.phase with
  | running =>
      cases hactive : s.active with
      | nil =>
          rw [hphase, hactive] at h
          exact absurd h (Option.some_ne_none t).symm
      | cons a active =>
          rw [hphase, hactive] at h
          simp only [Option.ite_none_right_eq_some, Option.some.injEq] at h
          exact ⟨a, active, rfl, rfl, h.1.1, h.1.2, h.2.symm⟩
  | noticed =>
      rw [hphase] at h
      exact absurd h (Option.some_ne_none t).symm
  | cascaded =>
      rw [hphase] at h
      exact absurd h (Option.some_ne_none t).symm

end Kernel

end Delivery

/-! ### What an entry finds and leaves -/

/-- The stubs are at different addresses, so each is found at its own. -/
theorem stubAt_eq (irqTable : Nat → Word)
    (hstubs : ∀ i < 16, ∀ j < 16, irqTable i = irqTable j → i = j) (n : Nat) (hn : n < 16) :
    stubAt irqTable (irqTable n) = some n := by
  unfold stubAt
  rw [List.find?_range_eq_some]
  refine ⟨decide_eq_true rfl, List.mem_range.mpr hn, fun j hj => ?_⟩
  rw [Bool.not_eq_true', decide_eq_false_iff_not]
  exact fun hsame => (Nat.ne_of_lt hj) (hstubs j (by omega) n hn hsame)

/-- What a stub pushes, from the processor as the gate leaves it. -/
theorem irqint_pushes (c : Cpu) (line ret : Word) :
    (irqint line ret c).mem = pushAll c.mem c.esp (line :: savedWords c (c.esp - 4) ret) ∧
      (irqint line ret c).esp = c.esp - 44 := by
  have hend : c.esp - 44 = c.esp - 4 - 4 - 4 - 4 - 4 - 4 - 4 - 4 - 4 - 4 - 4 := by
    simp only [BitVec.sub_sub]
    rfl
  rw [hend]
  exact ⟨rfl, rfl⟩

/-- The gate changes neither the stack nor what a stub pushes on it. -/
theorem irqint_throughGate (c : Cpu) (g : Gate) (line ret : Word) :
    (irqint line ret (c.throughGate g)).mem = (irqint line ret (c.interrupt none)).mem ∧
      (irqint line ret (c.throughGate g)).esp = (irqint line ret (c.interrupt none)).esp := by
  have hsame : (c.throughGate g).mem = (c.interrupt none).mem ∧
      (c.throughGate g).esp = (c.interrupt none).esp ∧
      ∀ sp, savedWords (c.throughGate g) sp ret = savedWords (c.interrupt none) sp ret := by
    unfold Cpu.throughGate
    cases g.isInterrupt with
    | true => exact ⟨rfl, rfl, fun _ => rfl⟩
    | false => exact ⟨rfl, rfl, fun _ => rfl⟩
  rw [(irqint_pushes _ line ret).1, (irqint_pushes _ line ret).2, (irqint_pushes _ line ret).1,
    (irqint_pushes _ line ret).2, hsame.1, hsame.2.1, hsame.2.2]
  exact ⟨rfl, rfl⟩

/-- `handle_irqint` finds the number of the stub. -/
theorem irqParameter_number (c : Cpu) (g : Gate) (line ret : Word) :
    (irqParameter (irqint line ret (c.throughGate g))).irq = line := by
  rcases irqint_throughGate c g line ret with ⟨hmem, hesp⟩
  show (irqint line ret (c.throughGate g)).mem.dword
    ((irqint line ret (c.throughGate g)).esp + 4) 9 = line
  rw [hmem, hesp]
  exact irq_word c line ret 9 line rfl

/-- An interrupt gate turns interrupts off, and the stub leaves them off. -/
theorem interruptsOn_entered (c : Cpu) (g : Gate) (hg : g.isInterrupt = true) (line ret : Word) :
    (irqint line ret (c.throughGate g)).interruptsOn = false := by
  have hflags : (irqint line ret (c.throughGate g)).eflags = c.eflags &&& ~~~0x200 := by
    show (c.throughGate g).eflags = _
    unfold Cpu.throughGate
    rw [hg]
    rfl
  unfold Cpu.interruptsOn
  rw [hflags, BitVec.getLsbD_and, show (~~~0x200 : Word).getLsbD 9 = false by decide, Bool.and_false]

/-- A stub that returns to what it interrupted gives it back its registers. -/
theorem leave_resumes (c s : Cpu) (g : Gate) (line ret : Word) (hesp : s.esp = c.esp - 52)
    (hkept : ∀ j < 13, s.mem.dword s.esp j = (irqint line ret (c.throughGate g)).mem.dword
      ((irqint line ret (c.throughGate g)).esp + 4) j) : Resumed c (irqLeave s) := by
  rcases irqint_throughGate c g line ret with ⟨hmem, hentered⟩
  rw [hmem, hentered] at hkept
  exact irq_resumes c s line ret hesp hkept

/-- The interrupt an entry through the gate of a line opens. -/
def Delivery.opened (irqTable : Nat → Word) (ret : Word) (s : Delivery) (source : Source)
    (before : Cpu) : Activation :=
  { before
    entered := irqint (BitVec.ofNat 32 source.number) ret
      (before.throughGate ⟨irqTable source.number, 0x08, 0x8E⟩)
    source
    handler := if s.ints.irqHandlertable source.number ≠ 0
      then some (s.ints.irqHandlertable source.number) else none
    writes := sendeoiWrites (BitVec.ofNat 8 source.number) }

/-- An entry through the gate of a line: the number is the line's, the handler is
    the one in the table, and interrupts are off. -/
theorem Delivery.enter_spec (irqTable : Nat → Word) (ret : Word)
    (hstubs : ∀ i < 16, ∀ j < 16, irqTable i = irqTable j → i = j) (s : Delivery)
    (source : Source) (before : Cpu) (hn : source.number < 16)
    (hgate : Gate.ofBytes (byteOf (s.ints.idtTable (s.ints.pics.vector source.number)))
      = { address := irqTable source.number, selector := 0x08, flags := 0x8E }) :
    s.enter irqTable ret source before = some { s with
      ints := { s.ints with interruptFlag := false }
      phase := .running
      active := s.opened irqTable ret source before :: s.active } := by
  have hnumber : (BitVec.ofNat 32 source.number).toNat = source.number := by
    rw [BitVec.toNat_ofNat]
    omega
  have hbyte : (BitVec.ofNat 32 source.number).setWidth 8 = BitVec.ofNat 8 source.number :=
    BitVec.setWidth_ofNat_of_le (by decide) _
  have hoff : Gate.isInterrupt ⟨irqTable source.number, 0x08, 0x8E⟩ = true :=
    decide_eq_true (show (0x8E : Byte) &&& 0x0F = 0x0E by decide)
  unfold Delivery.enter Delivery.opened
  rw [hgate]
  simp only [stubAt_eq irqTable hstubs source.number hn, Option.map_some, handleIrqint,
    irqParameter_number, hnumber, hbyte, interruptsOn_entered before _ hoff]

end UnixP6
