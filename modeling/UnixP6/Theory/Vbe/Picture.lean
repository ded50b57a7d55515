import UnixP6.CSemantics.Bytes
import UnixP6.Core.Vbe
import UnixP6.Theory.Tools.Dwords

/-!
# The Driver and the Picture

What `vbe_sendcmd` and `vbe_set_px` do to memory is what they do to a picture, a
colour for each column and row, as long as the lines and pixels they are called
with are on the screen and the answers of `VBE_GET_RES` are stored elsewhere.
Nothing else in memory changes.

## Main definitions

* `Picture`: A colour for each column and row.
* `VbeEvent`, `Vbe.event`, `Picture.event`: The calls, on memory and on a picture.
* `Vbe.Fits`: The screen fits into memory.
* `Vbe.OnScreen`: A call stays on the screen.
* `Vbe.Shows`: The pixels are those of a picture.

## Theorems

* `pixel_index`: Columns and rows as indices.
* `Drawn.pixel`, `Drawn.shows`: Pixels after some of them have been drawn.
* `event_called`, `events_called`: Calls draw on the picture and nowhere else.
* `init_draws`: From `vbe_init` on, the pixels are those of the picture.
-/

namespace UnixP6

open CSemantics

/-- A colour for each column and row. -/
def Picture : Type := Nat → Nat → Word

namespace Picture

def clear (color : Word) : Picture := fun _ _ => color

def fillLine (p : Picture) (color : Word) (ln : Nat) : Picture :=
  fun x y => if y = ln then color else p x y

def set (p : Picture) (column row : Nat) (color : Word) : Picture :=
  fun x y => if x = column ∧ y = row then color else p x y

end Picture

/-- The calls that draw or answer. -/
inductive VbeEvent
  | sendcmd (cmd : Word) (args : Nat → Word)
  | setPx (pos data : Word)

section Events

variable (lastFirst : Bool)

/-- The colour and the line of `VBE_FILL_LINE`. -/
def lineArgs (args : Nat → Word) : Word × Word :=
  if lastFirst then (args 1, args 0) else (args 0, args 1)

def Vbe.event (s : Vbe) : VbeEvent → Vbe
  | .sendcmd cmd args => (s.sendcmd lastFirst cmd args).2
  | .setPx pos data => s.setPx pos data

/-- The same on a picture, given how wide it is. -/
def Picture.event (w : Nat) (p : Picture) : VbeEvent → Picture
  | .sendcmd cmd args =>
    if cmd = vbeClear then Picture.clear (args 0)
    else if cmd = vbeFillLine then
      p.fillLine (lineArgs lastFirst args).1 (lineArgs lastFirst args).2.toNat
    else p
  | .setPx pos data => p.set (pos.toNat % w) (pos.toNat / w) data

/-- The number of pixels. -/
def Vbe.pixels (s : Vbe) : Nat := s.w.toNat * s.h.toNat

/-- The screen fits into memory. -/
structure Vbe.Fits (s : Vbe) : Prop where
  addr : s.addr = s.fb
  pixels : 4 * s.pixels ≤ 2 ^ 32

/-- Where `VBE_GET_RES` stores its answers. -/
def VbeEvent.answers : VbeEvent → List Word
  | .sendcmd cmd args => if cmd = vbeGetRes then [args 0, args 1] else []
  | .setPx _ _ => []

/-- A call that is about lines and pixels of the screen, and stores its answers
    elsewhere. -/
structure Vbe.OnScreen (s : Vbe) (e : VbeEvent) : Prop where
  line : ∀ args, e = .sendcmd vbeFillLine args → (lineArgs lastFirst args).2.toNat < s.h.toNat
  pixel : ∀ pos data, e = .setPx pos data → pos.toNat < s.pixels
  answers : ∀ a ∈ e.answers, Apart s.fb (4 * s.pixels) a 4

theorem onScreen_clear (s : Vbe) (args : Nat → Word) :
    s.OnScreen lastFirst (.sendcmd vbeClear args) :=
  ⟨fun _ h => absurd (VbeEvent.sendcmd.inj h).1 (by decide), fun _ _ h => VbeEvent.noConfusion h,
    fun _ h => absurd h List.not_mem_nil⟩

theorem onScreen_fillLine (s : Vbe) (args : Nat → Word)
    (h : (lineArgs lastFirst args).2.toNat < s.h.toNat) :
    s.OnScreen lastFirst (.sendcmd vbeFillLine args) :=
  ⟨fun _ he => (VbeEvent.sendcmd.inj he).2 ▸ h, fun _ _ he => VbeEvent.noConfusion he,
    fun _ ha => absurd ha List.not_mem_nil⟩

theorem onScreen_setPx (s : Vbe) (pos data : Word) (h : pos.toNat < s.pixels) :
    s.OnScreen lastFirst (.setPx pos data) :=
  ⟨fun _ he => VbeEvent.noConfusion he, fun _ _ he => (VbeEvent.setPx.inj he).1 ▸ h,
    fun _ ha => absurd ha List.not_mem_nil⟩

/-- The pixels are those of the picture. -/
def Vbe.Shows (s : Vbe) (p : Picture) : Prop :=
  ∀ x < s.w.toNat, ∀ y < s.h.toNat, s.getPx (BitVec.ofNat 32 (y * s.w.toNat + x)) = p x y

/-! ### Columns and rows -/

/-- A column and a row are known by their index. -/
theorem pixel_index (w h x y : Nat) (hx : x < w) (hy : y < h) :
    y * w + x < w * h ∧ (y * w + x) % w = x ∧ (y * w + x) / w = y := by
  refine ⟨?_, ?_, ?_⟩
  · have hrow : (y + 1) * w ≤ h * w := Nat.mul_le_mul_right w hy
    rw [Nat.mul_comm w h]
    rw [Nat.succ_mul] at hrow
    omega
  · rw [Nat.add_comm, Nat.add_mul_mod_self_right, Nat.mod_eq_of_lt hx]
  · rw [Nat.add_comm, Nat.add_mul_div_right _ _ (Nat.zero_lt_of_lt hx), Nat.div_eq_of_lt hx,
      Nat.zero_add]

theorem getPx_ofNat (s : Vbe) (i : Nat) : s.getPx (BitVec.ofNat 32 i) = s.mem.dword s.fb i := by
  unfold Vbe.getPx Mem.dword
  congr 2
  apply BitVec.eq_of_toNat_eq
  rw [BitVec.toNat_mul, BitVec.toNat_ofNat, BitVec.toNat_ofNat]
  exact (Nat.mul_mod_mod ..)

/-! ### Drawing -/

/-- The driver after some of the pixels have been drawn in one colour, from an
    index on. -/
structure Drawn (s t : Vbe) (first count : Nat) (color : Word) : Prop where
  same : t = { s with mem := t.mem }
  memory : DwordsFrom s.mem t.mem (s.fb + BitVec.ofNat 32 (4 * first)) count (fun _ => color)
  inside : first + count ≤ s.pixels

/-- The pixels that are drawn have the colour, and the others are as they were. -/
theorem Drawn.pixel (s t : Vbe) (first count : Nat) (color : Word) (hfits : s.Fits)
    (h : Drawn s t first count color) (i : Nat) (hi : i < s.pixels) :
    t.mem.dword s.fb i
      = if first ≤ i ∧ i < first + count then color else s.mem.dword s.fb i := by
  have hbound := hfits.pixels
  have hinside := h.inside
  by_cases hin : first ≤ i ∧ i < first + count
  · rw [if_pos hin]
    have hsame := h.memory.same (i - first) (by omega)
    rw [Mem.dword_add, Nat.add_sub_cancel' hin.1] at hsame
    exact hsame
  · rw [if_neg hin]
    rcases Nat.eq_zero_or_pos count with hzero | hpos
    · -- Nothing is drawn.
      have hnone : t.mem = s.mem := funext fun x =>
        h.memory.outside x (by rw [hzero]; exact Nat.zero_le _)
      rw [hnone]
    · have hfrom : ∀ u v : Word, s.fb + u - (s.fb + v) = u - v := fun u v => by bv_omega
      have hfirst : 4 * first < 2 ^ 32 := by omega
      have hindex : 4 * i < 2 ^ 32 := by omega
      refine Mem.load32_sameOutside _ _ _ _ _ h.memory.outside ⟨?_, ?_⟩
      · rw [hfrom, BitVec.toNat_sub, BitVec.toNat_ofNat, BitVec.toNat_ofNat,
          Nat.mod_eq_of_lt hfirst, Nat.mod_eq_of_lt hindex]
        omega
      · rw [hfrom, BitVec.toNat_sub, BitVec.toNat_ofNat, BitVec.toNat_ofNat,
          Nat.mod_eq_of_lt hfirst, Nat.mod_eq_of_lt hindex]
        omega

/-- Drawing on the pixels is drawing on the picture. -/
theorem Drawn.shows (s t : Vbe) (first count : Nat) (color : Word) (hfits : s.Fits)
    (h : Drawn s t first count color) (p p' : Picture) (hp : s.Shows p)
    (hp' : ∀ x < s.w.toNat, ∀ y < s.h.toNat, p' x y
      = if first ≤ y * s.w.toNat + x ∧ y * s.w.toNat + x < first + count then color else p x y) :
    t.Shows p' := by
  have hgeometry := h.same
  intro x hx y hy
  rw [hgeometry] at hx hy ⊢
  rw [getPx_ofNat]
  have hpixel := hp x hx y hy
  rw [getPx_ofNat] at hpixel
  rw [hp' x hx y hy, ← hpixel]
  exact h.pixel s t first count color hfits _ (pixel_index _ _ x y hx hy).1

/-- What is not on the screen is as it was. -/
theorem Drawn.outside (s t : Vbe) (first count : Nat) (color : Word) (hfits : s.Fits)
    (h : Drawn s t first count color) : SameOutside s.fb (4 * s.pixels) s.mem t.mem := by
  have hbound := hfits.pixels
  have hinside := h.inside
  exact SameOutside.widen s.fb (4 * first) (4 * count) (4 * s.pixels) s.mem t.mem (by omega)
    hbound h.memory.outside

theorem clear_drawn (s : Vbe) (color : Word) (hfits : s.Fits) :
    Drawn s (s.clear color) 0 s.pixels color := by
  have hbound := hfits.pixels
  have hcount : (s.w * s.h).toNat = s.pixels := by
    rw [BitVec.toNat_mul]
    exact Nat.mod_eq_of_lt (show s.pixels < 2 ^ 32 by omega)
  have hspec := tmemsetd_spec s.mem s.addr color (s.w * s.h) (by rw [hcount]; exact hbound)
  rw [hcount] at hspec
  refine ⟨rfl, ?_, Nat.le_of_eq (Nat.zero_add _)⟩
  rw [Nat.mul_zero, BitVec.add_zero, ← hfits.addr]
  exact hspec

theorem fillLine_drawn (s : Vbe) (color ln : Word) (hfits : s.Fits)
    (hln : ln.toNat < s.h.toNat) :
    Drawn s (s.fillLine color ln) (ln.toNat * s.w.toNat) s.w.toNat color := by
  have hbound := hfits.pixels
  have hlines : (ln.toNat + 1) * s.w.toNat ≤ s.h.toNat * s.w.toNat := Nat.mul_le_mul_right _ hln
  have hpixels : s.pixels = s.h.toNat * s.w.toNat := Nat.mul_comm _ _
  rw [Nat.succ_mul] at hlines
  have hfirst : s.fb + 4 * (ln * s.w) = s.fb + BitVec.ofNat 32 (4 * (ln.toNat * s.w.toNat)) := by
    congr 1
    apply BitVec.eq_of_toNat_eq
    rw [BitVec.toNat_mul, BitVec.toNat_mul, BitVec.toNat_ofNat]
    exact Nat.mul_mod_mod ..
  refine ⟨rfl, ?_, by omega⟩
  rw [← hfirst]
  exact tmemsetd_spec s.mem _ color s.w (by omega)

theorem setPx_drawn (s : Vbe) (pos data : Word) (hpos : pos.toNat < s.pixels) :
    Drawn s (s.setPx pos data) pos.toNat 1 data := by
  have hfirst : s.fb + 4 * pos = s.fb + BitVec.ofNat 32 (4 * pos.toNat) := by bv_omega
  have hstore := (DwordsFrom.zero s.mem (s.fb + 4 * pos) (fun _ => data)).succ _ _ _ 0 _ (by omega)
  rw [Nat.mul_zero, BitVec.add_zero] at hstore
  refine ⟨rfl, ?_, hpos⟩
  rw [← hfirst]
  exact hstore

/-- An answer that is stored elsewhere leaves the pixels as they are. -/
theorem answer_dword (m : Mem) (fb a v : Word) (n : Nat) (h : Apart fb n a 4) (i : Nat)
    (hi : 4 * (i + 1) ≤ n) : (m.store32 a v).dword fb i = m.dword fb i := by
  unfold Apart at h
  exact Mem.load32_store32_apart m a _ v ⟨by bv_omega, by bv_omega⟩

/-! ### Calls -/

/-- What a call leaves: the record is the same, the pixels are those of the picture
    it has drawn on, and nothing else has changed but the answers. -/
structure Called (s t : Vbe) (p' : Picture) (answers : List Word) : Prop where
  same : t = { s with mem := t.mem }
  shows : t.Shows p'
  outside : ∀ x, Far s.fb (4 * s.pixels) x → (∀ a ∈ answers, Far a 4 x) → t.mem x = s.mem x

theorem Drawn.called (s t : Vbe) (first count : Nat) (color : Word) (hfits : s.Fits)
    (h : Drawn s t first count color) (p p' : Picture) (hp : s.Shows p)
    (hp' : ∀ x < s.w.toNat, ∀ y < s.h.toNat, p' x y
      = if first ≤ y * s.w.toNat + x ∧ y * s.w.toNat + x < first + count then color else p x y) :
    Called s t p' [] :=
  ⟨h.same, h.shows s t first count color hfits p p' hp hp',
    fun x hx _ => h.outside s t first count color hfits x hx⟩

variable (s : Vbe) (hfits : s.Fits) (p : Picture) (hp : s.Shows p)

include hfits hp

theorem clear_called (color : Word) : Called s (s.clear color) (Picture.clear color) [] := by
  refine (clear_drawn s color hfits).called s _ _ _ _ hfits p _ hp fun x hx y hy => ?_
  have hindex := (pixel_index s.w.toNat s.h.toNat x y hx hy).1
  rw [if_pos ⟨Nat.zero_le _, by rw [Nat.zero_add]; exact hindex⟩]
  rfl

theorem fillLine_called (color ln : Word) (hln : ln.toNat < s.h.toNat) :
    Called s (s.fillLine color ln) (p.fillLine color ln.toNat) [] := by
  refine (fillLine_drawn s color ln hfits hln).called s _ _ _ _ hfits p _ hp fun x hx y hy => ?_
  -- A pixel is on the line that its row says.
  have hrow : y = ln.toNat ↔ ln.toNat * s.w.toNat ≤ y * s.w.toNat + x ∧
      y * s.w.toNat + x < ln.toNat * s.w.toNat + s.w.toNat := by
    constructor
    · rintro rfl
      exact ⟨Nat.le_add_right _ _, Nat.add_lt_add_left hx _⟩
    · rintro ⟨hlow, hhigh⟩
      have hdiv := (pixel_index s.w.toNat s.h.toNat x y hx hy).2.2
      have hlnRow := Nat.div_eq_of_lt_le hlow (by rw [Nat.succ_mul]; exact hhigh)
      exact hdiv.symm.trans hlnRow
  unfold Picture.fillLine
  by_cases hline : y = ln.toNat
  · rw [if_pos hline, if_pos (hrow.mp hline)]
  · rw [if_neg hline, if_neg fun h => hline (hrow.mpr h)]

theorem setPx_called (pos data : Word) (hpos : pos.toNat < s.pixels) :
    Called s (s.setPx pos data) (p.set (pos.toNat % s.w.toNat) (pos.toNat / s.w.toNat) data) [] := by
  refine (setPx_drawn s pos data hpos).called s _ _ _ _ hfits p _ hp fun x hx y hy => ?_
  have hpixel : (x = pos.toNat % s.w.toNat ∧ y = pos.toNat / s.w.toNat) ↔
      pos.toNat ≤ y * s.w.toNat + x ∧ y * s.w.toNat + x < pos.toNat + 1 := by
    rcases pixel_index s.w.toNat s.h.toNat x y hx hy with ⟨-, hmod, hdiv⟩
    constructor
    · rintro ⟨rfl, rfl⟩
      rw [Nat.mul_comm, Nat.div_add_mod]
      exact ⟨Nat.le_refl _, Nat.lt_succ_self _⟩
    · rintro ⟨hlow, hhigh⟩
      have hsame : pos.toNat = y * s.w.toNat + x := by omega
      rw [hsame, hmod, hdiv]
      exact ⟨rfl, rfl⟩
  unfold Picture.set
  by_cases hthis : x = pos.toNat % s.w.toNat ∧ y = pos.toNat / s.w.toNat
  · rw [if_pos hthis, if_pos (hpixel.mp hthis)]
  · rw [if_neg hthis, if_neg fun h => hthis (hpixel.mpr h)]

omit hfits in
/-- The size is stored where the arguments say. -/
theorem getRes_called (args : Nat → Word)
    (hanswers : ∀ a ∈ [args 0, args 1], Apart s.fb (4 * s.pixels) a 4) :
    Called s { s with mem := (s.mem.store32 (args 0) s.w).store32 (args 1) s.h } p
      [args 0, args 1] := by
  have hfirst := hanswers _ List.mem_cons_self
  have hsecond := hanswers _ (List.mem_cons_of_mem _ List.mem_cons_self)
  refine ⟨rfl, fun x hx y hy => ?_, fun x _ hx => ?_⟩
  · have hindex : 4 * (y * s.w.toNat + x + 1) ≤ 4 * s.pixels :=
      Nat.mul_le_mul_left 4 (pixel_index s.w.toNat s.h.toNat x y hx hy).1
    have hpixel := hp x hx y hy
    rw [getPx_ofNat] at hpixel ⊢
    rw [answer_dword _ _ _ _ _ hsecond _ hindex, answer_dword _ _ _ _ _ hfirst _ hindex]
    exact hpixel
  · show (Mem.store32 (Mem.store32 s.mem (args 0) s.w) (args 1) s.h) x = s.mem x
    rw [Mem.store32_far _ _ _ _ (hx _ (List.mem_cons_of_mem _ List.mem_cons_self)),
      Mem.store32_far _ _ _ _ (hx _ List.mem_cons_self)]

/-- A call draws on the picture. -/
theorem event_called (e : VbeEvent) (hon : s.OnScreen lastFirst e) :
    Called s (s.event lastFirst e) (p.event lastFirst s.w.toNat e) e.answers := by
  cases e with
  | setPx pos data => exact setPx_called s hfits p hp pos data (hon.pixel pos data rfl)
  | sendcmd cmd args =>
      by_cases hclear : cmd = vbeClear
      · subst hclear
        exact clear_called s hfits p hp (args 0)
      · by_cases hfill : cmd = vbeFillLine
        · subst hfill
          have hline := fillLine_called s hfits p hp (lineArgs lastFirst args).1 _ (hon.line args rfl)
          unfold lineArgs at hline
          cases lastFirst with
          | false => exact hline
          | true => exact hline
        · by_cases hres : cmd = vbeGetRes
          · subst hres
            exact getRes_called s p hp args hon.answers
          · -- Any other command is refused.
            have hevent : s.event lastFirst (.sendcmd cmd args) = s := by
              simp only [Vbe.event, Vbe.sendcmd, hclear, hfill, hres, if_false]
            have hpicture : p.event lastFirst s.w.toNat (.sendcmd cmd args) = p := by
              simp only [Picture.event, hclear, hfill, if_false]
            rw [hevent, hpicture]
            exact ⟨rfl, hp, fun _ _ _ => rfl⟩

omit hp in
/-- What is on the screen for one is for the other, if they have the same size and
    place. -/
theorem onScreen_same (t : Vbe) (hsame : t = { s with mem := t.mem }) :
    t.Fits ∧ ∀ e, s.OnScreen lastFirst e → t.OnScreen lastFirst e := by
  rw [hsame]
  exact ⟨⟨hfits.addr, hfits.pixels⟩, fun e h => ⟨h.line, h.pixel, h.answers⟩⟩

omit hfits hp in
/-- Any calls draw on the picture, one after the other. -/
theorem events_called (events : List VbeEvent) : ∀ (s : Vbe) (p : Picture), s.Fits → s.Shows p →
    (∀ e ∈ events, s.OnScreen lastFirst e) →
    Called s (events.foldl (Vbe.event lastFirst) s)
      (events.foldl (Picture.event lastFirst s.w.toNat) p) (events.flatMap VbeEvent.answers) := by
  induction events with
  | nil => exact fun s p _ hp _ => ⟨rfl, hp, fun _ _ _ => rfl⟩
  | cons e events ih =>
      intro s p hfits hp hon
      have hfirst := event_called lastFirst s hfits p hp e (hon e List.mem_cons_self)
      rcases onScreen_same lastFirst s hfits _ hfirst.same with ⟨hfits', hon'⟩
      have hrest := ih _ _ hfits' hfirst.shows fun e' he' =>
        hon' e' (hon e' (List.mem_cons_of_mem _ he'))
      have hw : (s.event lastFirst e).w = s.w := by rw [hfirst.same]
      rw [hw] at hrest
      refine ⟨?_, hrest.shows, fun x hx ha => ?_⟩
      · rw [List.foldl_cons, hrest.same, hfirst.same]
      · rw [List.flatMap_cons] at ha
        rw [List.foldl_cons, hrest.outside x ?_ fun a h => ha a (List.mem_append_right _ h),
          hfirst.outside x hx fun a h => ha a (List.mem_append_left _ h)]
        rw [hfirst.same]
        exact hx

end Events

/-- What is on a screen when the driver is told of it. -/
def Vbe.picture (s : Vbe) : Picture := fun x y => s.getPx (BitVec.ofNat 32 (y * s.w.toNat + x))

/-- From `vbe_init` on, any calls that stay on the screen draw on what was there,
    and leave the rest of memory alone. The size is answered as it was given. -/
theorem init_draws (lastFirst : Bool) (s0 : Vbe) (fb w h bpp palette : Word)
    (hpixels : 4 * (w.toNat * h.toNat) ≤ 2 ^ 32) (events : List VbeEvent)
    (hon : ∀ e ∈ events, (s0.init fb w h bpp palette).OnScreen lastFirst e) :
    let s := s0.init fb w h bpp palette
    let t := events.foldl (Vbe.event lastFirst) s
    (∀ x < w.toNat, ∀ y < h.toNat, t.getPx (BitVec.ofNat 32 (y * w.toNat + x))
      = events.foldl (Picture.event lastFirst w.toNat) s.picture x y) ∧
    (∀ a, Far fb (4 * (w.toNat * h.toNat)) a →
      (∀ b ∈ events.flatMap VbeEvent.answers, Far b 4 a) → t.mem a = s0.mem a) ∧
    ∀ args : Nat → Word, Apart (args 0) 4 (args 1) 4 →
      (t.sendcmd lastFirst vbeGetRes args).2.mem.load32 (args 0) = w ∧
        (t.sendcmd lastFirst vbeGetRes args).2.mem.load32 (args 1) = h := by
  intro s t
  have hcalled := events_called lastFirst events s s.picture ⟨rfl, hpixels⟩ (fun _ _ _ _ => rfl) hon
  have hw : t.w = w := congrArg Vbe.w hcalled.same
  have hh : t.h = h := congrArg Vbe.h hcalled.same
  refine ⟨fun x hx y hy => ?_, hcalled.outside, fun args hargs => ?_⟩
  · have hshows := hcalled.shows
    unfold Vbe.Shows at hshows
    rw [show (events.foldl (Vbe.event lastFirst) s).w = w from hw,
      show (events.foldl (Vbe.event lastFirst) s).h = h from hh] at hshows
    exact hshows x hx y hy
  · have hanswers : (t.sendcmd lastFirst vbeGetRes args).2.mem
        = (t.mem.store32 (args 0) t.w).store32 (args 1) t.h := rfl
    rw [hanswers, hw, hh]
    exact ⟨(Mem.load32_store32_apart _ _ _ _ hargs.symm).trans (Mem.load32_store32_same _ _ _),
      Mem.load32_store32_same _ _ _⟩

/-- Two lines of three pixels, cleared, with the second line filled and its first
    pixel set. -/
theorem init_draws_lines :
    let s := (Vbe.mk (memOf []) 0 0 0 0 0 0).init 0x1000 3 2 32 2
    let events : List VbeEvent := [.sendcmd vbeClear (fun _ => 7),
      .sendcmd vbeFillLine (fun n => if n = 0 then 5 else 1), .setPx 3 9]
    let t := events.foldl (Vbe.event false) s
    (∀ x < 3, ∀ y < 2, t.getPx (BitVec.ofNat 32 (y * 3 + x))
      = events.foldl (Picture.event false 3) s.picture x y) ∧
    (∀ a, Far 0x1000 (4 * (3 * 2)) a →
      (∀ b ∈ events.flatMap VbeEvent.answers, Far b 4 a) → t.mem a = memOf [] a) ∧
    ∀ args : Nat → Word, Apart (args 0) 4 (args 1) 4 →
      (t.sendcmd false vbeGetRes args).2.mem.load32 (args 0) = 3 ∧
        (t.sendcmd false vbeGetRes args).2.mem.load32 (args 1) = 2 := by
  refine init_draws false (Vbe.mk (memOf []) 0 0 0 0 0 0) 0x1000 3 2 32 2 (by decide) _ ?_
  intro e he
  simp only [List.mem_cons, List.not_mem_nil, or_false] at he
  rcases he with rfl | rfl | rfl
  · exact onScreen_clear false _ _
  · exact onScreen_fillLine false _ _ (by decide)
  · exact onScreen_setPx false _ _ _ (by decide)

end UnixP6
