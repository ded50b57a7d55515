import UnixP6.Theory.Console.Session

/-!
# The Hardware Cursor

The position of the cursor is kept twice: in `cursor_pos`, and in two registers
of the display controller, reached through an index port and a data port. What
the controller holds is read off the port writes the driver has made, in order.

Whatever ends in `tvga_updatecursor` publishes the position: every character
and a cursor set. `tvga_clr` only sets `cursor_pos` back to zero, so a clear
leaves the controller where it was. The two agree throughout a run exactly when
the screen is only cleared with the cursor already at its start.

None of this needs the cursor to be on the screen, so the runs here start from
any console, not only from one that has been through `tvga_init`.

## Main definitions

* `Crtc`: The registers of the controller that hold the cursor.
* `Crtc.out`: What a write to a port does to them.
* `Agrees`: The controller holds `cursor_pos`.

## Theorems

* `position_publish`: What is published is what the controller holds.
* `putch_agrees`, `write_agrees`: A character leaves the two in agreement.
* `step_agrees`: So does every step but a clear.
* `cursor_follows`: The runs in which they agree throughout.
-/

namespace UnixP6

open CSemantics

/-- The index register of the display controller and the two registers that
    hold the position of the cursor. -/
structure Crtc where
  index : Byte
  high : Byte
  low : Byte

/-- A write to a port. The data port reaches the register the index names. -/
def Crtc.out (r : Crtc) (w : PortWrite) : Crtc :=
  if w.port = 0x3D4 then { r with index := w.value }
  else if w.port = 0x3D5 then
    (if r.index = 0x0E then { r with high := w.value }
    else if r.index = 0x0F then { r with low := w.value }
    else r)
  else r

/-- The position the controller holds. -/
def Crtc.position (r : Crtc) : Half := r.high ++ r.low

/-- The controller, after what the driver has written to it, holds `cursor_pos`. -/
def Agrees (r : Crtc) (c : Console) : Prop :=
  (c.ports.foldl Crtc.out r).position = c.cursorPos

instance (r : Crtc) (c : Console) : Decidable (Agrees r c) :=
  inferInstanceAs (Decidable (_ = _))

/-! ### What is published -/

/-- The two bytes of a position make it up again. -/
theorem append_bytes (pos : Half) :
    (((pos >>> 8) &&& 0xFF).setWidth 8 ++ (pos &&& 0xFF).setWidth 8 : Half) = pos := by
  ext i hi
  -- The mask is all ones in the bits that are kept.
  have hmask : ∀ j < 8, (0xFF : Half).getLsbD j = true := by decide
  simp only [BitVec.getElem_append, BitVec.getElem_setWidth, BitVec.getLsbD_and,
    BitVec.getLsbD_ushiftRight]
  by_cases hlow : i < 8
  · simp only [hlow, hmask i hlow, dif_pos, Bool.and_true]
    exact BitVec.getLsbD_eq_getElem hi
  · rw [dif_neg hlow, hmask (i - 8) (by omega), Bool.and_true, show 8 + (i - 8) = i by omega]
    exact BitVec.getLsbD_eq_getElem hi

/-- What is published is what the controller holds. -/
theorem position_publish (r : Crtc) (c : Console) (pos : Half) :
    ((tvgaUpdatecursorio c pos).ports.foldl Crtc.out r).position = pos := by
  simp only [tvgaUpdatecursorio, List.foldl_append]
  generalize c.ports.foldl Crtc.out r = q
  exact append_bytes pos

theorem updatecursor_agrees (r : Crtc) (c : Console) (position : Word) :
    Agrees r (tvgaUpdatecursor c position) :=
  position_publish r _ (position.setWidth 16)

/-- A copy as short as a screen returns, wherever the cursor is. -/
theorem scrollscreen_some (c : Console) : ∃ c', tvgaScrollscreen c = some c' := by
  rcases tmemcpyw_spec c.mem tvgaVbuffer (tvgaVbuffer + BitVec.ofNat 32 (2 * vgaWidth))
    (BitVec.ofNat 32 ((vgaHeight - 1) * vgaWidth)) (by decide) (by decide) with ⟨mem, hcopy, _⟩
  exact ⟨_, by unfold tvgaScrollscreen; rw [hcopy]; rfl⟩

/-- A character returns, and publishes where it leaves the cursor. -/
theorem putch_agrees (r : Crtc) (c : Console) (ch : Byte) :
    ∃ c', tvgaPutch c ch = some c' ∧ Agrees r c' := by
  unfold tvgaPutch
  by_cases hfull : vgaWidth * vgaHeight ≤ (tvgaControl c ch).cursorPos.toNat
  · rcases scrollscreen_some (tvgaControl c ch) with ⟨c', hscroll⟩
    simp only [if_pos hfull, hscroll, Option.map_some]
    exact ⟨_, rfl, updatecursor_agrees r c' _⟩
  · simp only [if_neg hfull, Option.map_some]
    exact ⟨_, rfl, updatecursor_agrees r _ _⟩

/-- A write returns. The position is published with every character, so only an
    empty write asks for agreement before it. -/
theorem write_agrees (r : Crtc) (k : Nat) : ∀ (str : Word) (c : Console),
    ∃ c', tvgaWriteFrom k str c = some c' ∧ (Agrees r c → Agrees r c') := by
  induction k with
  | zero => exact fun _ c => ⟨c, rfl, fun h => h⟩
  | succ k ih =>
      intro str c
      rcases putch_agrees r c (c.mem str) with ⟨c', hputch, hagrees⟩
      rcases ih (str + 1) c' with ⟨c'', hrest, hkept⟩
      exact ⟨c'', by rw [tvgaWriteFrom, hputch, Option.bind_some, hrest], fun _ => hkept hagrees⟩

/-! ### Steps -/

/-- A clear is the one command that moves the cursor without publishing it. -/
theorem clear_agrees_iff (r : Crtc) (c : Console) (h : Agrees r c) :
    Agrees r (tvgaClr c) ↔ c.cursorPos = 0 := by
  unfold Agrees at h ⊢
  simp only [tvgaClr]
  rw [h]

theorem command_agrees (r : Crtc) (c : Console) (cmd arg : Word) (h : Agrees r c)
    (hclear : cmd = vgaCmdClear → c.cursorPos = 0) : Agrees r (tvgaCommand c cmd arg).2 := by
  unfold tvgaCommand
  split
  · split
    · exact h
    · exact updatecursor_agrees r c arg
  · split
    · exact h
    · split
      · rename_i hcmd
        exact (clear_agrees_iff r c h).mpr (hclear hcmd)
      · exact h

/-- Every step keeps the two in agreement, but for a clear away from the start
    of the screen. -/
theorem step_agrees (r : Crtc) (c : Console) (e : ConsoleEvent) (c' : Console) (h : Agrees r c)
    (hclear : ∀ arg, e = .command vgaCmdClear arg → c.cursorPos = 0)
    (hstep : ConsoleStep c e c') : Agrees r c' := by
  cases hstep with
  | write _ str count hwrite =>
      rcases write_agrees r count.toNat str c with ⟨c'', hwrite', hkept⟩
      unfold tvgaWrite at hwrite
      rw [hwrite, Option.some.injEq] at hwrite'
      rw [hwrite']
      exact hkept h
  | command cmd arg =>
      refine command_agrees r c cmd arg h fun hcmd => hclear arg ?_
      rw [hcmd]
  | elsewhere m _ => exact h

/-- From a console that agrees with the controller, every write returns, and
    the two agree in every state a run reaches exactly when every clear on the
    way found the cursor at the start of the screen. -/
theorem cursor_follows (r : Crtc) (c0 : Console) (events : List ConsoleEvent)
    (hagrees : Agrees r c0) :
    (∀ c str count, ∃ c', tvgaWrite c str count = some c') ∧
    ((∀ k c, Run ConsoleStep c0 (events.take k) c → Agrees r c) ↔
      ∀ k c arg, Run ConsoleStep c0 (events.take k) c →
        events[k]? = some (.command vgaCmdClear arg) → c.cursorPos = 0) := by
  refine ⟨fun c str count => ?_, fun hall k c arg hrun hclear => ?_, fun hclears k => ?_⟩
  · rcases write_agrees r count.toNat str c with ⟨c', hwrite, _⟩
    exact ⟨c', hwrite⟩
  · -- One step on, the clear has been made, and the two still agree.
    have hnext : Run ConsoleStep c0 (events.take (k + 1)) (tvgaClr c) := by
      rw [List.take_add_one, hclear]
      exact Run.concat ConsoleStep _ _ _ _ _ hrun (ConsoleStep.command c vgaCmdClear arg)
    exact (clear_agrees_iff r c (hall k c hrun)).mp (hall (k + 1) _ hnext)
  · induction k with
    | zero =>
        intro c hrun
        rw [List.take_zero] at hrun
        cases hrun
        exact hagrees
    | succ k ih =>
        intro c hrun
        rw [List.take_add_one] at hrun
        cases hevent : events[k]? with
        | none =>
            rw [hevent, Option.toList_none, List.append_nil] at hrun
            exact ih c hrun
        | some e =>
            rw [hevent, Option.toList_some] at hrun
            rcases Run.concat_inv ConsoleStep c0 c _ e hrun with ⟨t, hbefore, hstep⟩
            refine step_agrees r t e c (ih t hbefore) (fun arg he => ?_) hstep
            exact hclears k t arg hbefore (by rw [hevent, he])

/-- A cursor set and a color: nothing is cleared, so the two agree. -/
theorem cursor_follows_color :
    Agrees ⟨0, 0, 0⟩
      (tvgaCommand (tvgaCommand zeroConsole vgaCmdSetcursor 5).2 vgaCmdSetcolor 7).2 := by
  have hrun : Run ConsoleStep zeroConsole
      [.command vgaCmdSetcursor 5, .command vgaCmdSetcolor 7]
      (tvgaCommand (tvgaCommand zeroConsole vgaCmdSetcursor 5).2 vgaCmdSetcolor 7).2 :=
    Run.cons _ _ _ _ _ (ConsoleStep.command _ _ _)
      (Run.cons _ _ _ _ _ (ConsoleStep.command _ _ _) (Run.nil _))
  refine (cursor_follows ⟨0, 0, 0⟩ zeroConsole
    [.command vgaCmdSetcursor 5, .command vgaCmdSetcolor 7] rfl).2.mpr
      (fun k c arg _ hclear => ?_) 2 _ hrun
  -- Neither of the two commands is a clear.
  have hmem := List.mem_of_getElem? hclear
  simp only [List.mem_cons, ConsoleEvent.command.injEq, List.not_mem_nil, or_false] at hmem
  rcases hmem with ⟨hcmd, _⟩ | ⟨hcmd, _⟩
  · exact absurd hcmd (by decide)
  · exact absurd hcmd (by decide)

/-- A cursor set and a clear: the controller is left at the position set. -/
theorem cursor_left_behind :
    ¬ ∀ (r : Crtc) (c0 c : Console) (events : List ConsoleEvent), Agrees r c0 →
      (∀ chars, ConsoleEvent.write chars ∈ events → chars ≠ []) →
      Run ConsoleStep c0 events c → Agrees r c := by
  intro hall
  have hrun : Run ConsoleStep zeroConsole
      [.command vgaCmdSetcursor 5, .command vgaCmdClear 0]
      (tvgaCommand (tvgaCommand zeroConsole vgaCmdSetcursor 5).2 vgaCmdClear 0).2 :=
    Run.cons _ _ _ _ _ (ConsoleStep.command _ _ _)
      (Run.cons _ _ _ _ _ (ConsoleStep.command _ _ _) (Run.nil _))
  have hagrees := hall ⟨0, 0, 0⟩ zeroConsole _ _ rfl (by simp) hrun
  exact absurd hagrees (by decide)

end UnixP6
