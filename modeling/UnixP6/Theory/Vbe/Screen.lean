import UnixP6.Theory.Vbe.Picture

/-!
# What the Screen Shows

The boot loader describes a framebuffer with the bytes from one line to the next
and with the bits of a pixel. `sys_init` passes only the bits on, and the driver
does not look at them. It draws pixels of 32 bits without anything between the
lines.

So a screen shows what is drawn, and nothing behind it is drawn over, if that is
how it reads memory. There are a few more screens on which it does not matter,
of one line or one column. On any other some call goes wrong.

## Main definitions

* `Layout`: How a screen reads memory.
* `Layout.Depicts`: What it shows.
* `Layout.Plain`: The screens on which the driver is right.

## Theorems

* `colorByte_dword`: The bytes of a pixel.
* `event_related`: What calls draw does not depend on what they draw over.
* `plain_offset`: On those screens the driver's pixels are the screen's.
* `depicts_iff_plain`: The screens that show what is drawn.
-/

namespace UnixP6

open CSemantics

/-- The bytes from one line to the next, and the bytes of a pixel. -/
structure Layout where
  pitch : Nat
  depth : Nat
deriving DecidableEq

/-- A byte of a colour, the lowest first. -/
def colorByte (color : Word) (i : Nat) : Byte := color.extractLsb' (8 * i) 8

namespace Layout

/-- A pixel has up to four bytes, a line has room for its pixels, and memory for the
    lines. -/
structure Fits (l : Layout) (s : Vbe) : Prop where
  depth_pos : 0 < l.depth
  depth_le : l.depth ≤ 4
  line : l.depth * s.w.toNat ≤ l.pitch
  lines : l.pitch * s.h.toNat ≤ 2 ^ 32

/-- The screen shows the picture, as far as the bytes of its pixels go. -/
def Depicts (l : Layout) (s : Vbe) (p : Picture) : Prop :=
  ∀ x < s.w.toNat, ∀ y < s.h.toNat, ∀ i < l.depth,
    s.mem (s.fb + BitVec.ofNat 32 (y * l.pitch + x * l.depth + i)) = colorByte (p x y) i

/-- Four bytes to a pixel and nothing between the lines, as far as it matters. -/
structure Plain (l : Layout) (s : Vbe) : Prop where
  room : 4 * s.w.toNat ≤ l.pitch
  depth : l.depth = 4 ∨ s.w.toNat = 1
  pitch : l.pitch = 4 * s.w.toNat ∨ s.h.toNat = 1

end Layout

/-- The bytes of a pixel are behind one another. -/
theorem colorByte_load32 (m : Mem) (a : Word) (j : Nat) (hj : j < 4) :
    colorByte (m.load32 a) j = m (a + BitVec.ofNat 32 j) := by
  rcases Mem.bytes_load32 m a with ⟨h0, h1, h2, h3⟩
  match j with
  | 0 => rw [BitVec.add_zero]; exact h0
  | 1 => exact h1
  | 2 => exact h2
  | 3 => exact h3

theorem colorByte_dword (m : Mem) (a : Word) (i j : Nat) (hj : j < 4) :
    colorByte (m.dword a i) j = m (a + BitVec.ofNat 32 (4 * i + j)) := by
  rw [← add_ofNat_add]
  exact colorByte_load32 m _ j hj

/-- Related pictures stay related, whatever is drawn on both. -/
theorem event_related (lastFirst : Bool) (w h : Nat) (R : Word → Word → Prop) (hR : ∀ c, R c c)
    (e : VbeEvent) (p p' : Picture) (hp : ∀ x < w, ∀ y < h, R (p x y) (p' x y)) :
    ∀ x < w, ∀ y < h, R (p.event lastFirst w e x y) (p'.event lastFirst w e x y) := by
  intro x hx y hy
  cases e with
  | setPx pos data =>
      simp only [Picture.event, Picture.set]
      by_cases hthis : x = pos.toNat % w ∧ y = pos.toNat / w
      · rw [if_pos hthis, if_pos hthis]
        exact hR data
      · rw [if_neg hthis, if_neg hthis]
        exact hp x hx y hy
  | sendcmd cmd args =>
      simp only [Picture.event]
      by_cases hclear : cmd = vbeClear
      · rw [if_pos hclear, if_pos hclear]
        exact hR _
      · rw [if_neg hclear, if_neg hclear]
        by_cases hfill : cmd = vbeFillLine
        · rw [if_pos hfill, if_pos hfill]
          simp only [Picture.fillLine]
          by_cases hline : y = (lineArgs lastFirst args).2.toNat
          · rw [if_pos hline, if_pos hline]
            exact hR _
          · rw [if_neg hline, if_neg hline]
            exact hp x hx y hy
        · rw [if_neg hfill, if_neg hfill]
          exact hp x hx y hy

theorem events_related (lastFirst : Bool) (w h : Nat) (R : Word → Word → Prop) (hR : ∀ c, R c c)
    (events : List VbeEvent) : ∀ p p' : Picture, (∀ x < w, ∀ y < h, R (p x y) (p' x y)) →
    ∀ x < w, ∀ y < h, R (events.foldl (Picture.event lastFirst w) p x y)
      (events.foldl (Picture.event lastFirst w) p' x y) := by
  induction events with
  | nil => exact fun _ _ hp => hp
  | cons e events ih => exact fun p p' hp => ih _ _ (event_related lastFirst w h R hR e p p' hp)

section Layout

variable (s : Vbe) (l : Layout)

/-- The screen's pixels are where the driver has them. -/
theorem plain_offset (h : l.Plain s) (x y : Nat) (hx : x < s.w.toNat) (hy : y < s.h.toNat) :
    y * l.pitch + x * l.depth = 4 * (y * s.w.toNat + x) := by
  have hcolumn : x * l.depth = 4 * x := by
    rcases h.depth with hdepth | hone
    · rw [hdepth, Nat.mul_comm]
    · have hzero : x = 0 := by omega
      rw [hzero, Nat.zero_mul]
  have hrow : y * l.pitch = 4 * (y * s.w.toNat) := by
    rcases h.pitch with hpitch | hone
    · rw [hpitch, Nat.mul_left_comm]
    · have hzero : y = 0 := by omega
      rw [hzero, Nat.zero_mul, Nat.zero_mul]
  rw [hcolumn, hrow, Nat.mul_add]

/-- What the screen shows are the bytes of the driver's pixels. -/
theorem plain_depicts (h : l.Plain s) (hl : l.Fits s) (p : Picture) :
    l.Depicts s p ↔ ∀ x < s.w.toNat, ∀ y < s.h.toNat, ∀ i < l.depth,
      colorByte (s.getPx (BitVec.ofNat 32 (y * s.w.toNat + x))) i = colorByte (p x y) i := by
  unfold Layout.Depicts
  refine forall₄_congr fun x hx y hy => forall₂_congr fun i hi => ?_
  rw [plain_offset s l h x y hx hy, getPx_ofNat,
    colorByte_dword _ _ _ _ (Nat.lt_of_lt_of_le hi hl.depth_le)]

/-- The driver with other contents of memory. -/
def Vbe.withMem (m : Mem) : Vbe := { s with mem := m }

/-- Whatever is called, the screen shows the picture that is drawn, and what is
    behind the screen stays as it is. -/
def ScreenShows (lastFirst : Bool) : Prop :=
  ∀ (m : Mem) (p : Picture) (events : List VbeEvent), (∀ e ∈ events, s.OnScreen lastFirst e) →
    l.Depicts (s.withMem m) p →
      l.Depicts (events.foldl (Vbe.event lastFirst) (s.withMem m))
        (events.foldl (Picture.event lastFirst s.w.toNat) p) ∧
      ∀ a, Far s.fb (l.pitch * s.h.toNat) a → (∀ b ∈ events.flatMap VbeEvent.answers, Far b 4 a) →
        (events.foldl (Vbe.event lastFirst) (s.withMem m)).mem a = m a

/-- On a plain screen the driver's picture is the screen's. -/
theorem shows_of_plain (lastFirst : Bool) (hfits : s.Fits) (hl : l.Fits s) (h : l.Plain s) :
    ScreenShows s l lastFirst := by
  intro m p events hon hdepicts
  have hfits' : (s.withMem m).Fits := ⟨hfits.addr, hfits.pixels⟩
  have hon' : ∀ e ∈ events, (s.withMem m).OnScreen lastFirst e := fun e he =>
    ⟨(hon e he).line, (hon e he).pixel, (hon e he).answers⟩
  have hcalled := events_called lastFirst events (s.withMem m) (s.withMem m).picture hfits'
    (fun _ _ _ _ => rfl) hon'
  refine ⟨?_, fun a ha => hcalled.outside a ?_⟩
  · obtain ⟨t, ht⟩ : ∃ t, t = events.foldl (Vbe.event lastFirst) (s.withMem m) := ⟨_, rfl⟩
    rw [← ht] at hcalled ⊢
    have hw : t.w = s.w := (congrArg Vbe.w hcalled.same).trans rfl
    have hh : t.h = s.h := (congrArg Vbe.h hcalled.same).trans rfl
    have hplain : l.Plain t := ⟨hw ▸ h.room, hw ▸ h.depth, hw ▸ hh ▸ h.pitch⟩
    have hlt : l.Fits t := ⟨hl.depth_pos, hl.depth_le, hw ▸ hl.line, hh ▸ hl.lines⟩
    -- Both pictures have the bytes that the screen shows.
    have hbytes := (plain_depicts (s.withMem m) l ⟨h.room, h.depth, h.pitch⟩
      ⟨hl.depth_pos, hl.depth_le, hl.line, hl.lines⟩ p).mp hdepicts
    refine (plain_depicts t l hplain hlt _).mpr fun x hx y hy => ?_
    rw [hcalled.shows x hx y hy]
    exact events_related lastFirst s.w.toNat s.h.toNat
      (fun c c' => ∀ i < l.depth, colorByte c i = colorByte c' i) (fun _ _ _ => rfl) events _ p
      hbytes x (hw ▸ hx) y (hh ▸ hy)
  · have hroom : 4 * s.pixels ≤ l.pitch * s.h.toNat := by
      unfold Vbe.pixels
      rw [← Nat.mul_assoc]
      exact Nat.mul_le_mul_right _ h.room
    exact Nat.le_trans hroom ha

/-- The bytes of a screen that has been cleared. -/
theorem cleared_byte (hfits : s.Fits) (color : Word) (o : Nat) (ho : o < 4 * s.pixels) :
    (s.clear color).mem (s.fb + BitVec.ofNat 32 o) = colorByte color (o % 4) := by
  have hpixel := (clear_drawn s color hfits).pixel s _ _ _ color hfits (o / 4) (by omega)
  rw [if_pos ⟨Nat.zero_le _, by omega⟩] at hpixel
  have hbyte := colorByte_dword (s.clear color).mem s.fb (o / 4) (o % 4) (Nat.mod_lt _ (by decide))
  rw [hpixel, Nat.div_add_mod] at hbyte
  exact hbyte.symm

section Shows

variable (lastFirst : Bool) (hfits : s.Fits) (hl : l.Fits s) (h : ScreenShows s l lastFirst)

include hfits hl h

/-- A screen that is smaller than what is cleared is drawn over its end. -/
theorem room_of_shows (hh : 0 < s.h.toNat) : 4 * s.w.toNat ≤ l.pitch := by
  by_contra hless
  have hbound := hfits.pixels
  have hend : l.pitch * s.h.toNat < 4 * s.pixels := by
    unfold Vbe.pixels
    rw [← Nat.mul_assoc]
    exact Nat.mul_lt_mul_of_pos_right (Nat.not_le.mp hless) hh
  have hones : l.Depicts (s.withMem fun _ => 1) (fun _ _ => 0x01010101) := by
    intro x _ y _ i hi
    have hall : ∀ i < 4, (1 : Byte) = colorByte 0x01010101 i := by decide
    exact hall i (Nat.lt_of_lt_of_le hi hl.depth_le)
  have hkeeps := (h _ _ [.sendcmd vbeClear fun _ => 0]
    (fun e he => List.mem_singleton.mp he ▸ onScreen_clear lastFirst s _) hones).2
    (s.fb + BitVec.ofNat 32 (l.pitch * s.h.toNat)) (by unfold Far; bv_omega)
    (fun b hb => absurd hb List.not_mem_nil)
  have hcleared := cleared_byte (s.withMem fun _ => 1) ⟨hfits.addr, hfits.pixels⟩ 0 _ hend
  have hzero : ∀ j < 4, colorByte 0 j = 0 := by decide
  rw [hzero _ (Nat.mod_lt _ (by decide))] at hcleared
  exact absurd (hcleared.symm.trans hkeeps) (by decide)

/-- The second pixel of the first line is cleared with it. -/
theorem depth_of_shows (hw : 0 < s.w.toNat) (hh : 0 < s.h.toNat) :
    l.depth = 4 ∨ s.w.toNat = 1 := by
  by_contra hnot
  rcases not_or.mp hnot with ⟨hdepth, hone⟩
  have hsmall : l.depth < 4 := Nat.lt_of_le_of_ne hl.depth_le hdepth
  have hpixels : 1 ≤ s.pixels := Nat.mul_pos hw hh
  have hblack : l.Depicts (s.withMem fun _ => 0) (fun _ _ => 0) := by
    intro x _ y _ i hi
    have hall : ∀ i < 4, (0 : Byte) = colorByte 0 i := by decide
    exact hall i (Nat.lt_of_lt_of_le hi hl.depth_le)
  have hshows : ((s.withMem fun _ => 0).clear 1).mem
      (s.fb + BitVec.ofNat 32 (0 * l.pitch + 1 * l.depth + 0)) = colorByte 1 0 :=
    (h _ _ [.sendcmd vbeClear fun _ => 1]
      (fun e he => List.mem_singleton.mp he ▸ onScreen_clear lastFirst s _) hblack).1
      1 (show 1 < s.w.toNat by omega) 0 hh 0 hl.depth_pos
  rw [Nat.zero_mul, Nat.zero_add, Nat.one_mul, Nat.add_zero] at hshows
  have hcleared := cleared_byte (s.withMem fun _ => 0) ⟨hfits.addr, hfits.pixels⟩ 1 l.depth
    (show l.depth < 4 * s.pixels by omega)
  have hbyte : ∀ j < 4, 0 < j → colorByte 1 j = 0 := by decide
  rw [Nat.mod_eq_of_lt hsmall, hbyte _ hsmall hl.depth_pos] at hcleared
  exact absurd (hcleared.symm.trans hshows) (by decide)

/-- The first pixel of the second line is set there. -/
theorem pitch_of_shows (hw : 0 < s.w.toNat) : l.pitch = 4 * s.w.toNat ∨ s.h.toNat ≤ 1 := by
  by_contra hnot
  rcases not_or.mp hnot with ⟨hpitch, hone⟩
  have hblack : l.Depicts (s.withMem fun _ => 0) (fun _ _ => 0) := by
    intro x _ y _ i hi
    have hall : ∀ i < 4, (0 : Byte) = colorByte 0 i := by decide
    exact hall i (Nat.lt_of_lt_of_le hi hl.depth_le)
  have hpos : s.w.toNat < s.pixels := by
    have htwo : s.w.toNat * 2 ≤ s.pixels := Nat.mul_le_mul_left _ (by omega)
    omega
  have hset : (Picture.set (fun _ _ => 0) (s.w.toNat % s.w.toNat) (s.w.toNat / s.w.toNat) 1) 0 1
      = (1 : Word) :=
    if_pos ⟨(Nat.mod_self _).symm, (Nat.div_self hw).symm⟩
  have hshows : Mem.store32 (fun _ => 0) (s.fb + 4 * s.w) 1
      (s.fb + BitVec.ofNat 32 (1 * l.pitch + 0 * l.depth + 0)) = colorByte
        ((Picture.set (fun _ _ => 0) (s.w.toNat % s.w.toNat) (s.w.toNat / s.w.toNat) 1) 0 1) 0 :=
    (h _ _ [.setPx s.w 1]
      (fun e he => List.mem_singleton.mp he ▸ onScreen_setPx lastFirst s s.w 1 hpos) hblack).1
      0 hw 1 (show 1 < s.h.toNat by omega) 0 hl.depth_pos
  rw [hset, Nat.one_mul, Nat.zero_mul, Nat.add_zero] at hshows
  -- The driver has set it four bytes for each pixel behind the first.
  have hstored : Mem.store32 (fun _ => 0) (s.fb + 4 * s.w) 1 (s.fb + BitVec.ofNat 32 l.pitch) = 0 := by
    by_cases hfar : Far (s.fb + 4 * s.w) 4 (s.fb + BitVec.ofNat 32 l.pitch)
    · rw [Mem.store32_far _ _ _ _ hfar]
    · -- A byte of that pixel, but not the first.
      have hlines := hl.lines
      have hbound := hfits.pixels
      have htwo : l.pitch * 2 ≤ l.pitch * s.h.toNat := Nat.mul_le_mul_left _ (by omega)
      have hbehind : 4 * s.w.toNat < l.pitch ∧ l.pitch < 4 * s.w.toNat + 4 := by
        unfold Far at hfar
        have hfrom : s.fb + BitVec.ofNat 32 l.pitch - (s.fb + 4 * s.w)
            = BitVec.ofNat 32 l.pitch - 4 * s.w := by bv_omega
        rw [hfrom, BitVec.toNat_sub, BitVec.toNat_mul, BitVec.toNat_ofNat,
          show (4 : Word).toNat = 4 from rfl] at hfar
        omega
      have hbytes := colorByte_load32 (Mem.store32 (fun _ => 0) (s.fb + 4 * s.w) 1)
        (s.fb + 4 * s.w) (l.pitch - 4 * s.w.toNat) (by omega)
      have hat : s.fb + 4 * s.w + BitVec.ofNat 32 (l.pitch - 4 * s.w.toNat)
          = s.fb + BitVec.ofNat 32 l.pitch := by bv_omega
      have hzero : ∀ j < 4, 0 < j → colorByte 1 j = 0 := by decide
      rw [Mem.load32_store32_same, hat, hzero _ (by omega) (by omega)] at hbytes
      exact hbytes.symm
  exact absurd (hstored.symm.trans hshows) (by decide)

end Shows

/-- The screens that show what is drawn, whatever is called. -/
theorem depicts_iff_plain (lastFirst : Bool) (hfits : s.Fits) (hl : l.Fits s)
    (hw : 0 < s.w.toNat) (hh : 0 < s.h.toNat) : ScreenShows s l lastFirst ↔ l.Plain s := by
  refine ⟨fun h => ⟨room_of_shows s l lastFirst hfits hl h hh,
    depth_of_shows s l lastFirst hfits hl h hw hh, ?_⟩, shows_of_plain s l lastFirst hfits hl⟩
  exact (pitch_of_shows s l lastFirst hfits hl h hw).imp id fun hone => by omega

end Layout

/-- Two lines of three pixels at 4096. -/
def smallVbe : Vbe :=
  { mem := fun _ => 0, addr := 0x1000, fb := 0x1000, h := 2, w := 3, bpp := 24, palette := 2 }

/-- With three bytes to a pixel they are not shown right. -/
theorem depicts_iff_plain_small :
    ScreenShows smallVbe ⟨9, 3⟩ false ↔ (⟨9, 3⟩ : Layout).Plain smallVbe :=
  depicts_iff_plain smallVbe ⟨9, 3⟩ false ⟨rfl, by decide⟩
    ⟨by decide, by decide, by decide, by decide⟩ (by decide) (by decide)

end UnixP6
