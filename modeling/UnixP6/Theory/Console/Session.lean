import UnixP6.CSemantics.Run
import UnixP6.Theory.Console.Canvas

/-!
# Runs of the Console

The driver after boot, used by the kernel in any order: characters written,
commands given, and memory changed elsewhere in between. What is written is
labelled with the characters as they are read, which is the string itself
unless it lies on the screen. Every run of the driver then is a run of the
canvas under the same labels.

## Main definitions

* `ConsoleEvent`: What is done to the console.
* `Canvas.event`: What it does to the canvas.
* `ConsoleStep`: The steps of the driver.

## Theorems

* `step_refines`: A step of the driver is a step of the canvas.
* `run_refines`: Every run shows a window of the canvas.
-/

namespace UnixP6

open CSemantics

/-- What is done to the console: characters are written, a command is given, or
    memory changes that is not on the screen. -/
inductive ConsoleEvent
  | write (chars : List Byte)
  | command (cmd arg : Word)
  | elsewhere

/-- What is done to the canvas. -/
def Canvas.event (v : Canvas) : ConsoleEvent → Canvas
  | .write chars => chars.foldl Canvas.putch v
  | .command cmd arg => v.command cmd arg
  | .elsewhere => v

/-- The steps of the driver. -/
inductive ConsoleStep : Console → ConsoleEvent → Console → Prop
  | write (c c' : Console) (str count : Word) (h : tvgaWrite c str count = some c') :
      ConsoleStep c (.write (bytesWritten count.toNat str c)) c'
  | command (c : Console) (cmd arg : Word) :
      ConsoleStep c (.command cmd arg) (tvgaCommand c cmd arg).2
  | elsewhere (c : Console) (m : Mem) (h : ∀ i < 2000, screen m i = screen c.mem i) :
      ConsoleStep c .elsewhere { c with mem := m }

/-- A step of the driver is a step of the canvas. -/
theorem step_refines (c : Console) (e : ConsoleEvent) (c' : Console) (v : Canvas)
    (h : Refines c v) (hstep : ConsoleStep c e c') : Refines c' (v.event e) := by
  cases hstep with
  | write _ str count hwrite =>
      -- A write never fails, so the step is the one it makes.
      rcases writeFrom_refines count.toNat str c v h with ⟨c'', hwrite', hrefines, _⟩
      unfold tvgaWrite at hwrite
      rw [hwrite, Option.some.injEq] at hwrite'
      rw [hwrite']
      exact hrefines
  | command cmd arg => exact (command_refines c v cmd arg h).1
  | elsewhere m hsame =>
      -- Elsewhere is anywhere but in the cells.
      exact ⟨⟨h.attr, h.cursor, fun i hi => (hsame i hi).trans (h.window i hi)⟩, h.inside⟩

/-- Every run of the driver shows the window of the canvas that went through the
    same, with the cursor at the position in it; and from every state reached
    every write and command returns, with the cursor on the screen after each
    character and nothing written but cells of the screen. -/
theorem run_refines (c0 : Console) (events : List ConsoleEvent) (c : Console)
    (hrun : Run ConsoleStep (tvgaInit c0) events c) :
    Refines c (events.foldl Canvas.event Canvas.initial) ∧
      (∀ str count, ∃ c', tvgaWrite c str count = some c' ∧ OnScreen c c' ∧
        (∀ k ≤ count.toNat, ∃ c'', tvgaWriteFrom k str c = some c'' ∧
          c''.cursorPos.toNat < 2000) ∧
        ((∀ i < count.toNat, Far tvgaVbuffer screenBytes (str + BitVec.ofNat 32 i)) →
          bytesWritten count.toNat str c
            = (List.range count.toNat).map fun i => c.mem (str + BitVec.ofNat 32 i))) ∧
      ∀ cmd arg, OnScreen c (tvgaCommand c cmd arg).2 ∧
        (tvgaCommand c cmd arg).2.cursorPos.toNat < 2000 := by
  have hrefines : Refines c (events.foldl Canvas.event Canvas.initial) := by
    -- The canvas is deterministic, so its run is the fold over the labels.
    rcases Run.simulates ConsoleStep (fun v e v' => v' = Canvas.event v e) Refines
      (fun c e c' v h hstep => ⟨v.event e, rfl, step_refines c e c' v h hstep⟩)
      (tvgaInit c0) c Canvas.initial events hrun (init_refines c0) with ⟨v, hcanvas, hv⟩
    rw [← Run.eq_foldl Canvas.event Canvas.initial v events hcanvas]
    exact hv
  refine ⟨hrefines, fun str count => ?_, fun cmd arg => ?_⟩
  · rcases writeFrom_refines count.toNat str c _ hrefines with ⟨c', hwrite, _, hon⟩
    refine ⟨c', hwrite, hon, fun k _ => ?_, bytesWritten_eq count.toNat str c _ hrefines⟩
    rcases writeFrom_refines k str c _ hrefines with ⟨c'', hpart, hpart', _⟩
    exact ⟨c'', hpart, hpart'.inside⟩
  · rcases command_refines c _ cmd arg hrefines with ⟨hcommand, hon⟩
    exact ⟨hon, hcommand.inside⟩

/-- A console before boot, over memory that is all zero. -/
def zeroConsole : Console := { mem := fun _ => 0, tvgaCurattr := 0, cursorPos := 0, ports := [] }

/-- A color, the last cell of the screen, and a character there. -/
theorem run_refines_three :
    ∃ chars c, Run ConsoleStep (tvgaInit zeroConsole) [.command vgaCmdSetcolor 7,
        .command vgaCmdSetcursor 1999, .write chars] c ∧
      Refines c ([ConsoleEvent.command vgaCmdSetcolor 7, .command vgaCmdSetcursor 1999,
        .write chars].foldl Canvas.event Canvas.initial) := by
  have htwo : Run ConsoleStep (tvgaInit zeroConsole)
      [.command vgaCmdSetcolor 7, .command vgaCmdSetcursor 1999]
      (tvgaCommand (tvgaCommand (tvgaInit zeroConsole) vgaCmdSetcolor 7).2 vgaCmdSetcursor 1999).2 :=
    Run.cons _ _ _ _ _ (ConsoleStep.command _ _ _)
      (Run.cons _ _ _ _ _ (ConsoleStep.command _ _ _) (Run.nil _))
  rcases (run_refines zeroConsole _ _ htwo).2.1 0 1 with ⟨c, hwrite, _, _, _⟩
  have hthree := Run.append ConsoleStep _ _ _ _ _ htwo
    (Run.cons _ _ _ _ _ (ConsoleStep.write _ _ 0 1 hwrite) (Run.nil c))
  exact ⟨_, c, hthree, (run_refines zeroConsole _ c hthree).1⟩

end UnixP6
