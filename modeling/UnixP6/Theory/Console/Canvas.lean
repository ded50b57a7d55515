import UnixP6.Core.Console
import UnixP6.Theory.Tools.Words

/-!
# The Console as a Window on a Canvas

What a text console is for: characters go onto a canvas of 80 columns that
never ends, and the screen shows the 25 rows that hold the last of it. The
canvas has no buffer, no copy and no wrapping index, only a position and the
row the window starts at.

The driver refines this: the screen is the window, and the cursor the position
within it. Each step of the driver touches the screen through one range of
words, so all of them go through `screen_words`, which says what the screen
shows once a range of its cells has been given new values.

## Main definitions

* `Canvas`: The canvas, with its window, position and attribute.
* `Canvas.putch`, `Canvas.command`: What is done to it.
* `screen`: A cell of the screen.
* `Refines`: The screen is the window of the canvas.

## Theorems

* `screen_words`: The screen after a range of cells has changed.
* `control_shows`: A character keeps the window, short of scrolling.
* `scroll_refines`: Scrolling moves the window down by a row.
* `putch_refines`, `writeFrom_refines`: Characters refine characters.
* `command_refines`: Commands refine commands.
-/

namespace UnixP6

open CSemantics

theorem vgaWidth_eq : vgaWidth = 80 := rfl

theorem vgaHeight_eq : vgaHeight = 25 := rfl

/-! ### The canvas -/

/-- A canvas of 80 columns: its cells in order, the row its window starts at,
    the position the next character goes to, and the current attribute. -/
structure Canvas where
  cells : Nat → Half
  top : Nat
  pos : Nat
  attr : Byte

namespace Canvas

/-- An empty cell in the current attribute. -/
def blank (v : Canvas) : Half := attrEntry 32 v.attr

/-- The cells of a range become empty. -/
def clearCells (v : Canvas) (start count : Nat) : Canvas :=
  { v with cells := fun p => if start ≤ p ∧ p < start + count then v.blank else v.cells p }

/-- A character at the position, which moves on, or moves as the character says:
    to the next row, the start of the row, the next multiple of four, or one
    back but not out of the window. -/
def control (v : Canvas) (ch : Byte) : Canvas :=
  if ch = 10 then { v with pos := (v.pos / vgaWidth + 1) * vgaWidth }
  else if ch = 13 then { v with pos := v.pos / vgaWidth * vgaWidth }
  else if ch = 9 then { v with pos := (v.pos / 4 + 1) * 4 }
  else if ch = 8 then (if vgaWidth * v.top < v.pos then { v with pos := v.pos - 1 } else v)
  else { v with
    cells := fun p => if p = v.pos then attrEntry ch v.attr else v.cells p
    pos := v.pos + 1 }

/-- The window follows the position: it moves down a row when the position
    leaves it, and the row that enters is empty. -/
def follow (v : Canvas) : Canvas :=
  if vgaWidth * (v.top + vgaHeight) ≤ v.pos then
    { v.clearCells (vgaWidth * (v.top + vgaHeight)) vgaWidth with top := v.top + 1 }
  else v

/-- A character. -/
def putch (v : Canvas) (ch : Byte) : Canvas := (v.control ch).follow

/-- A command, which may have no effect. -/
def command (v : Canvas) (cmd arg : Word) : Canvas :=
  if cmd = vgaCmdSetcursor then
    (if arg.toNat < vgaWidth * vgaHeight then { v with pos := vgaWidth * v.top + arg.toNat } else v)
  else if cmd = vgaCmdSetcolor then { v with attr := arg.setWidth 8 }
  else if cmd = vgaCmdClear then
    { v.clearCells (vgaWidth * v.top) (vgaWidth * vgaHeight) with pos := vgaWidth * v.top }
  else v

/-- An empty canvas. -/
def initial : Canvas :=
  { cells := fun _ => attrEntry 32 defaultColor, top := 0, pos := 0, attr := defaultColor }

end Canvas

/-! ### The screen -/

/-- A cell of the screen. -/
def screen (m : Mem) (i : Nat) : Half := m.load16 (tvgaVbuffer + BitVec.ofNat 32 (2 * i))

/-- The bytes of the screen. -/
def screenBytes : Nat := 2 * (vgaWidth * vgaHeight)

theorem screenBytes_eq : screenBytes = 4000 := rfl

/-- The screen after a range of its cells has changed: they have their new
    values, and all the others are as they were. -/
theorem screen_words (m m' : Mem) (p k i : Nat) (value : Nat → Half)
    (h : WordsFrom m m' (tvgaVbuffer + BitVec.ofNat 32 (2 * p)) k value) (hp : p + k ≤ 2000)
    (hi : i < 2000) :
    screen m' i = if p ≤ i ∧ i < p + k then value (i - p) else screen m i := by
  unfold screen
  by_cases hin : p ≤ i ∧ i < p + k
  · -- A cell of the range: counted from where the range starts.
    have haddr : tvgaVbuffer + BitVec.ofNat 32 (2 * i)
        = tvgaVbuffer + BitVec.ofNat 32 (2 * p) + BitVec.ofNat 32 (2 * (i - p)) := by
      bv_omega
    rw [if_pos hin, haddr]
    exact h.same (i - p) (by omega)
  · rw [if_neg hin]
    -- Any other cell: neither of its bytes is in the range.
    refine Mem.load16_congr m m' _ (h.outside _ ?_) (h.outside _ ?_)
    · unfold Far
      bv_omega
    · unfold Far
      bv_omega

/-- Such a change stays on the screen. -/
theorem words_onScreen (m m' : Mem) (p k : Nat) (value : Nat → Half)
    (h : WordsFrom m m' (tvgaVbuffer + BitVec.ofNat 32 (2 * p)) k value) (hp : p + k ≤ 2000) :
    SameOutside tvgaVbuffer screenBytes m m' := by
  rw [screenBytes_eq]
  exact SameOutside.widen tvgaVbuffer (2 * p) (2 * k) 4000 m m' (by omega) (by omega) h.outside

/-! ### Refinement -/

/-- The screen is the window of the canvas, and the cursor the position in it. -/
structure Shows (c : Console) (v : Canvas) : Prop where
  attr : c.tvgaCurattr = v.attr
  cursor : v.pos = 80 * v.top + c.cursorPos.toNat
  window : ∀ i < 2000, screen c.mem i = v.cells (80 * v.top + i)

/-- The same with the cursor on the screen. -/
structure Refines (c : Console) (v : Canvas) : Prop extends Shows c v where
  inside : c.cursorPos.toNat < 2000

/-- Only cells of the screen are written. -/
def OnScreen (c c' : Console) : Prop := SameOutside tvgaVbuffer screenBytes c.mem c'.mem

theorem OnScreen.refl (c : Console) : OnScreen c c := SameOutside.refl _ _ _

theorem OnScreen.trans (c c' c'' : Console) (h : OnScreen c c') (h' : OnScreen c' c'') :
    OnScreen c c'' :=
  SameOutside.trans _ _ _ _ _ h h'

/-- Storing a cell at the cursor. -/
theorem store_shows (c : Console) (v : Canvas) (ch : Byte) (h : Refines c v) :
    Shows (tvgaStore c ch) { v with
        cells := fun p => if p = v.pos then attrEntry ch v.attr else v.cells p
        pos := v.pos + 1 } ∧ OnScreen c (tvgaStore c ch) := by
  have hinside := h.inside
  have hcursor := h.cursor
  have hwords := wordsFrom_store16 c.mem
    (tvgaVbuffer + BitVec.ofNat 32 (2 * c.cursorPos.toNat)) (attrEntry ch c.tvgaCurattr)
  refine ⟨⟨h.attr, ?_, fun i hi => ?_⟩, words_onScreen _ _ _ _ _ hwords (by omega)⟩
  · simp only [tvgaStore]
    bv_omega
  · -- The new text differs from the old in one cell.
    have hcell := screen_words _ _ _ _ i _ hwords (by omega) hi
    refine hcell.trans ?_
    -- The cell stored is the one at the position.
    by_cases hat : i = c.cursorPos.toNat
    · simp only [if_pos (show c.cursorPos.toNat ≤ i ∧ i < c.cursorPos.toNat + 1 by omega),
        if_pos (show 80 * v.top + i = v.pos by omega), h.attr]
    · simp only [if_neg (show ¬ (c.cursorPos.toNat ≤ i ∧ i < c.cursorPos.toNat + 1) by omega),
        if_neg (show ¬ 80 * v.top + i = v.pos by omega)]
      exact h.window i hi

/-! ### Moving the cursor -/

section Cursor

variable (cur : Half) (h : cur.toNat < 2000)

include h

/-- The start of the next row. -/
theorem toNat_linefeed :
    ((cur / BitVec.ofNat 16 vgaWidth + 1) * BitVec.ofNat 16 vgaWidth).toNat
      = (cur.toNat / 80 + 1) * 80 := by
  have hw : (BitVec.ofNat 16 vgaWidth).toNat = 80 := rfl
  have hdiv : (cur / BitVec.ofNat 16 vgaWidth).toNat = cur.toNat / 80 := by
    rw [BitVec.toNat_udiv, hw]
  have hone : (1 : Half).toNat = 1 := rfl
  rw [BitVec.toNat_mul, BitVec.toNat_add, hdiv, hw, hone]
  omega

/-- The start of the row. -/
theorem toNat_carriagereturn :
    (cur - cur % BitVec.ofNat 16 vgaWidth).toNat = cur.toNat - cur.toNat % 80 := by
  have hw : (BitVec.ofNat 16 vgaWidth).toNat = 80 := rfl
  have hmod : (cur % BitVec.ofNat 16 vgaWidth).toNat = cur.toNat % 80 := by
    rw [BitVec.toNat_umod, hw]
  rw [BitVec.toNat_sub, hmod]
  omega

/-- The next multiple of four. -/
theorem toNat_tab : (cur - cur % 4 + 4).toNat = cur.toNat - cur.toNat % 4 + 4 := by
  have hfour : (4 : Half).toNat = 4 := rfl
  have hmod : (cur % 4).toNat = cur.toNat % 4 := by
    rw [BitVec.toNat_umod, hfour]
  rw [BitVec.toNat_add, BitVec.toNat_sub, hmod, hfour]
  omega

end Cursor

/-- A cursor moved along with the position. -/
theorem move_shows (c : Console) (v : Canvas) (h : Refines c v) (cur : Half) (pos : Nat)
    (hpos : pos = 80 * v.top + cur.toNat) (hle : cur.toNat ≤ 2000) :
    Shows { c with cursorPos := cur } { v with pos := pos } ∧ cur.toNat ≤ 2000 ∧
      OnScreen c { c with cursorPos := cur } :=
  ⟨⟨h.attr, hpos, h.window⟩, hle, OnScreen.refl c⟩

/-- A backspace goes back by one cell, but not out of the window: the cursor knows
    nothing of the rows above it. -/
theorem backspace_shows (c : Console) (v : Canvas) (h : Refines c v) :
    Shows (tvgaBackspace c) (if vgaWidth * v.top < v.pos then { v with pos := v.pos - 1 } else v) ∧
      (tvgaBackspace c).cursorPos.toNat ≤ 2000 ∧ OnScreen c (tvgaBackspace c) := by
  have hinside := h.inside
  have hcursor := h.cursor
  unfold tvgaBackspace
  by_cases hpos : 0 < c.cursorPos
  · have hpos' : 0 < c.cursorPos.toNat := BitVec.lt_def.mp hpos
    rw [if_pos hpos, if_pos (by rw [vgaWidth_eq]; omega)]
    exact move_shows c v h _ _ (by bv_omega) (by bv_omega)
  · have hzero : ¬ 0 < c.cursorPos.toNat := fun hc => hpos (BitVec.lt_def.mpr hc)
    rw [if_neg hpos, if_neg (by rw [vgaWidth_eq]; omega)]
    exact ⟨h.toShows, by omega, OnScreen.refl c⟩

/-- A control character moves the cursor as it moves the position, and leaves it
    at most one past the screen. -/
theorem control_shows (c : Console) (v : Canvas) (ch : Byte) (h : Refines c v) :
    Shows (tvgaControl c ch) (v.control ch) ∧ (tvgaControl c ch).cursorPos.toNat ≤ 2000 ∧
      OnScreen c (tvgaControl c ch) := by
  have hinside := h.inside
  have hcursor := h.cursor
  unfold tvgaControl Canvas.control
  by_cases hnl : ch = 10
  · rw [if_pos hnl, if_pos hnl]
    have hcur := toNat_linefeed c.cursorPos hinside
    unfold tvgaLinefeed
    refine move_shows c v h _ _ ?_ (by omega)
    rw [hcur, vgaWidth_eq]
    omega
  · rw [if_neg hnl, if_neg hnl]
    by_cases hcr : ch = 13
    · rw [if_pos hcr, if_pos hcr]
      have hcur := toNat_carriagereturn c.cursorPos hinside
      unfold tvgaCarriagereturn
      refine move_shows c v h _ _ ?_ (by omega)
      rw [hcur, vgaWidth_eq]
      omega
    · rw [if_neg hcr, if_neg hcr]
      by_cases htab : ch = 9
      · rw [if_pos htab, if_pos htab]
        have hcur := toNat_tab c.cursorPos hinside
        unfold tvgaTab
        refine move_shows c v h _ _ ?_ (by omega)
        -- Rows start at multiples of four, so the stops of screen and canvas agree.
        rw [hcur]
        omega
      · rw [if_neg htab, if_neg htab]
        by_cases hbs : ch = 8
        · rw [if_pos hbs, if_pos hbs]
          exact backspace_shows c v h
        · rw [if_neg hbs, if_neg hbs]
          -- Everything else is printed.
          rcases store_shows c v ch h with ⟨hshows, hon⟩
          refine ⟨hshows, ?_, hon⟩
          simp only [tvgaStore]
          bv_omega

/-- Scrolling moves the window down by a row. -/
theorem scroll_refines (c : Console) (v : Canvas) (h : Shows c v)
    (hcursor : c.cursorPos.toNat = 2000) :
    ∃ c', tvgaScrollscreen c = some c' ∧ Refines c' v.follow ∧ OnScreen c c' := by
  have hpos := h.cursor
  -- As words: 24 rows are moved, and the last one is cleared.
  have hcount : (BitVec.ofNat 32 ((vgaHeight - 1) * vgaWidth)).toNat = 1920 := rfl
  have hrow : (BitVec.ofNat 32 vgaWidth).toNat = 80 := rfl
  have hbase : tvgaVbuffer = tvgaVbuffer + BitVec.ofNat 32 (2 * 0) := (BitVec.add_zero _).symm
  rcases tmemcpyw_spec c.mem tvgaVbuffer (tvgaVbuffer + BitVec.ofNat 32 (2 * vgaWidth))
    (BitVec.ofNat 32 ((vgaHeight - 1) * vgaWidth)) (by rw [hcount]; omega) (by decide) with
    ⟨mem, hcopy, hcopied⟩
  rw [hcount] at hcopied
  -- Every row but the last is the one below it, and the last one is empty.
  have hlast := tmemsetw_spec mem
    (tvgaVbuffer + BitVec.ofNat 32 (2 * ((vgaHeight - 1) * vgaWidth)))
    (attrEntry 32 c.tvgaCurattr) (BitVec.ofNat 32 vgaWidth) (by rw [hrow]; omega)
  have hcells : (vgaHeight - 1) * vgaWidth = 1920 := rfl
  rw [hrow, hcells] at hlast
  have hcopied' := hcopied
  rw [hbase] at hcopied'
  -- The canvas goes on for ever: the row that enters is cleared, none is moved.
  have hfollow : v.follow
      = { v.clearCells (vgaWidth * (v.top + vgaHeight)) vgaWidth with top := v.top + 1 } := by
    unfold Canvas.follow
    rw [if_pos (by rw [vgaWidth_eq, vgaHeight_eq]; omega)]
  refine ⟨_, by unfold tvgaScrollscreen; rw [hcopy]; rfl, ⟨⟨?_, ?_, fun i hi => ?_⟩, ?_⟩, ?_⟩
  · rw [hfollow]
    exact h.attr
  · rw [hfollow]
    simp only [Canvas.clearCells]
    rw [vgaWidth_eq]
    bv_omega
  · rw [hfollow]
    refine (screen_words mem _ 1920 80 i _ hlast (by omega) hi).trans ?_
    simp only [Canvas.clearCells, Canvas.blank, h.attr]
    by_cases hentering : 1920 ≤ i
    · rw [if_pos (by omega), if_pos (by rw [vgaWidth_eq, vgaHeight_eq]; omega)]
    · -- A row that stays was one row further down.
      have hbelow : 80 * (v.top + 1) + i = 80 * v.top + (i + 80) := by omega
      have haddr : 2 * 0 + (2 * vgaWidth + 2 * (i - 0)) = 2 * (i + 80) := by
        rw [vgaWidth_eq]
        omega
      rw [if_neg (by omega), if_neg (by rw [vgaWidth_eq, vgaHeight_eq]; omega),
        screen_words c.mem mem 0 1920 i _ hcopied' (by omega) hi, if_pos (by omega), hbelow,
        ← h.window (i + 80) (by omega)]
      unfold screen
      rw [add_ofNat_add, add_ofNat_add, haddr]
  · simp only []
    rw [vgaWidth_eq]
    bv_omega
  · exact OnScreen.trans c { c with mem := mem } _ (words_onScreen _ _ 0 1920 _ hcopied' (by omega))
      (words_onScreen mem _ 1920 80 _ hlast (by omega))

/-- Telling the hardware changes neither the screen nor the cursor. -/
theorem updatecursor_refines (c : Console) (v : Canvas) (h : Refines c v) :
    Refines (tvgaUpdatecursor c (c.cursorPos.setWidth 32)) v := by
  -- The position goes to the hardware as a word and comes back as a half.
  have hcur : (c.cursorPos.setWidth 32).setWidth 16 = c.cursorPos := by bv_omega
  refine ⟨⟨h.attr, ?_, h.window⟩, ?_⟩
  · simp only [tvgaUpdatecursor, tvgaUpdatecursorio, hcur]
    exact h.cursor
  · simp only [tvgaUpdatecursor, tvgaUpdatecursorio, hcur]
    exact h.inside

/-- A character refines a character. -/
theorem putch_refines (c : Console) (v : Canvas) (ch : Byte) (h : Refines c v) :
    ∃ c', tvgaPutch c ch = some c' ∧ Refines c' (v.putch ch) ∧ OnScreen c c' := by
  rcases control_shows c v ch h with ⟨hshows, hle, hon⟩
  have hcursor := hshows.cursor
  unfold tvgaPutch Canvas.putch
  -- Past the last cell means just past it, so both sides scroll by one row.
  by_cases hfull : (tvgaControl c ch).cursorPos.toNat = 2000
  · rcases scroll_refines _ _ hshows hfull with ⟨c', hscroll, hrefines, hon'⟩
    refine ⟨_, ?_, updatecursor_refines c' _ hrefines, OnScreen.trans _ _ _ hon hon'⟩
    simp only [hscroll, if_pos (show vgaWidth * vgaHeight ≤ (tvgaControl c ch).cursorPos.toNat by
      rw [hfull]; decide), Option.map_some]
  · have hroom : ¬ vgaWidth * vgaHeight ≤ (tvgaControl c ch).cursorPos.toNat := by
      rw [vgaWidth_eq, vgaHeight_eq]
      omega
    have hfollow : (v.control ch).follow = v.control ch := by
      unfold Canvas.follow
      rw [if_neg (by rw [vgaWidth_eq, vgaHeight_eq]; omega)]
    refine ⟨_, ?_, updatecursor_refines _ _ ⟨?_, by omega⟩, hon⟩
    · simp only [if_neg hroom, Option.map_some]
    · rw [hfollow]
      exact hshows

/-- The characters of a write, as they are read. -/
def bytesWritten : Nat → Word → Console → List Byte
  | 0, _, _ => []
  | k + 1, str, c => c.mem str :: ((tvgaPutch c (c.mem str)).map (bytesWritten k (str + 1))).getD []

/-- A write refines its characters. -/
theorem writeFrom_refines (k : Nat) : ∀ (str : Word) (c : Console) (v : Canvas), Refines c v →
    ∃ c', tvgaWriteFrom k str c = some c' ∧
      Refines c' ((bytesWritten k str c).foldl Canvas.putch v) ∧ OnScreen c c' := by
  induction k with
  | zero => exact fun str c v h => ⟨c, rfl, h, OnScreen.refl c⟩
  | succ k ih =>
      intro str c v h
      -- Each character is read only after the one before it has been written.
      rcases putch_refines c v (c.mem str) h with ⟨c', hputch, hrefines, hon⟩
      rcases ih (str + 1) c' _ hrefines with ⟨c'', hrest, hrefines', hon'⟩
      refine ⟨c'', ?_, ?_, OnScreen.trans _ _ _ hon hon'⟩
      · rw [tvgaWriteFrom, hputch, Option.bind_some, hrest]
      · rw [bytesWritten, hputch, Option.map_some, Option.getD_some, List.foldl_cons]
        exact hrefines'

/-- A string that is not on the screen is written as it stands in memory. -/
theorem bytesWritten_eq (k : Nat) : ∀ (str : Word) (c : Console) (v : Canvas), Refines c v →
    (∀ i < k, Far tvgaVbuffer screenBytes (str + BitVec.ofNat 32 i)) →
    bytesWritten k str c = (List.range k).map fun i => c.mem (str + BitVec.ofNat 32 i) := by
  induction k with
  | zero => exact fun _ _ _ _ _ => rfl
  | succ k ih =>
      intro str c v h hfar
      rcases putch_refines c v (c.mem str) h with ⟨c', hputch, hrefines, hon⟩
      have hnext : ∀ i, str + 1 + BitVec.ofNat 32 i = str + BitVec.ofNat 32 (i + 1) :=
        fun i => by bv_omega
      have hrest := ih (str + 1) c' _ hrefines (fun i hi => by
        rw [hnext]
        exact hfar (i + 1) (by omega))
      -- No byte still to come has been written over.
      rw [bytesWritten, hputch, Option.map_some, Option.getD_some, hrest, List.range_succ_eq_map,
        List.map_cons, List.map_map, BitVec.add_zero]
      congr 1
      refine List.map_congr_left fun i hi => ?_
      rw [Function.comp_apply, hnext]
      exact hon _ (hfar (i + 1) (by rw [List.mem_range] at hi; omega))

/-! ### Commands -/

/-- A cleared screen is empty in the current attribute. -/
theorem clr_screen (c : Console) :
    (∀ i < 2000, screen (tvgaClr c).mem i = attrEntry 32 c.tvgaCurattr) ∧
      OnScreen c (tvgaClr c) := by
  have hcount : (BitVec.ofNat 32 (vgaHeight * vgaWidth)).toNat = 2000 := rfl
  have hwords := tmemsetw_spec c.mem (tvgaVbuffer + BitVec.ofNat 32 (2 * 0))
    (attrEntry 32 c.tvgaCurattr) (BitVec.ofNat 32 (vgaHeight * vgaWidth)) (by rw [hcount]; omega)
  rw [hcount] at hwords
  -- The screen as a range that starts at its first cell.
  have hclr : (tvgaClr c).mem = tmemsetw c.mem (tvgaVbuffer + BitVec.ofNat 32 (2 * 0))
      (attrEntry 32 c.tvgaCurattr) (BitVec.ofNat 32 (vgaHeight * vgaWidth)) := by
    simp only [tvgaClr, Nat.mul_zero, BitVec.add_zero]
  unfold OnScreen
  rw [hclr]
  refine ⟨fun i hi => ?_, words_onScreen _ _ 0 2000 _ hwords (by omega)⟩
  rw [screen_words _ _ 0 2000 i _ hwords (by omega) hi, if_pos (by omega)]

/-- The driver starts with an empty canvas. -/
theorem init_refines (c : Console) : Refines (tvgaInit c) Canvas.initial :=
  ⟨⟨rfl, rfl, fun i hi => (clr_screen (tvgaSetattr c defaultColor)).1 i hi⟩,
    Nat.zero_lt_succ 1999⟩

/-- A command refines a command. -/
theorem command_refines (c : Console) (v : Canvas) (cmd arg : Word) (h : Refines c v) :
    Refines (tvgaCommand c cmd arg).2 (v.command cmd arg) ∧
      OnScreen c (tvgaCommand c cmd arg).2 := by
  unfold tvgaCommand Canvas.command
  by_cases hcursor : cmd = vgaCmdSetcursor
  · rw [if_pos hcursor, if_pos hcursor]
    have hsize : (BitVec.ofNat 32 (vgaWidth * vgaHeight)).toNat = 2000 := rfl
    -- A position off the screen is refused on both sides.
    by_cases hlt : arg.toNat < vgaWidth * vgaHeight
    · have hlt' : arg.toNat < 2000 := hlt
      have hnot : ¬ BitVec.ofNat 32 (vgaWidth * vgaHeight) ≤ arg := by
        rw [BitVec.le_def, hsize]
        omega
      have hpos : (arg.setWidth 16).toNat = arg.toNat := by bv_omega
      rw [if_neg hnot, if_pos hlt]
      refine ⟨⟨⟨h.attr, ?_, h.window⟩, ?_⟩, OnScreen.refl c⟩
      · simp only [tvgaUpdatecursor, tvgaUpdatecursorio, hpos, vgaWidth_eq]
      · simp only [tvgaUpdatecursor, tvgaUpdatecursorio, hpos]
        exact hlt'
    · have hge : BitVec.ofNat 32 (vgaWidth * vgaHeight) ≤ arg := by
        rw [BitVec.le_def, hsize]
        exact Nat.le_of_not_lt hlt
      rw [if_pos hge, if_neg hlt]
      exact ⟨h, OnScreen.refl c⟩
  · rw [if_neg hcursor, if_neg hcursor]
    by_cases hcolor : cmd = vgaCmdSetcolor
    · rw [if_pos hcolor, if_pos hcolor]
      exact ⟨⟨⟨rfl, h.cursor, h.window⟩, h.inside⟩, OnScreen.refl c⟩
    · rw [if_neg hcolor, if_neg hcolor]
      by_cases hclear : cmd = vgaCmdClear
      · rw [if_pos hclear, if_pos hclear]
        -- Only the window is cleared, not the rows that have left it.
        rcases clr_screen c with ⟨hblank, hon⟩
        refine ⟨⟨⟨h.attr, rfl, fun i hi => ?_⟩, Nat.zero_lt_succ 1999⟩, hon⟩
        rw [hblank i hi]
        simp only [Canvas.clearCells, Canvas.blank, h.attr]
        rw [if_pos (by rw [vgaWidth_eq, vgaHeight_eq]; omega)]
      · rw [if_neg hclear, if_neg hclear]
        exact ⟨h, OnScreen.refl c⟩

end UnixP6
