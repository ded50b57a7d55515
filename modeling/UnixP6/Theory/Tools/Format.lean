import UnixP6.Core.Format
import UnixP6.Theory.Tools.Pieces

/-!
# Printing a Format

`__doprnt` takes one turn for each piece of the format. It prints the text of
the piece and takes its arguments, writes to nothing but its buffer, and comes
to the next piece, having read the format as far as there. So what is printed is
the expansion of the format.

The exception is a piece that is cut off by the end. The turn for it moves the
index past the terminator, and the loop reads on from there.

## Main definitions

* `At`: Before the rest of the format, with nothing but the buffer written to.
* `Comes`: A turn comes to the rest of the format.
* `Skips`: A turn for a `%l` or a `%ll`.
* `Expanded`: What is promised of what is printed.
* `ReadsWithin`: What is promised of what is read.

## Theorems

* `doprntPutString_eq`: Printing a string.
* `doprntConvert_eq`: Printing a conversion.
* `turn_char`, `turn_convert`, `turn_l`, `turn_ll`: A turn for a piece.
* `turn_cut`: A turn past the end.
* `turn_piece`: A turn for the first of the pieces that are left.
* `doprnt_run`: Printing the rest of a format.
* `doprnt_expanded`: What is printed is the expansion.
* `readsWithin_iff`: The format is read within its bounds unless it is cut off.
* `not_readsWithin`: A format that is.
-/

namespace UnixP6

open CSemantics

/-- Printing a string prints its characters. -/
theorem doprntPutString_eq (m : Mem) (a : Word) (t : List Byte) (h : CString m a t) :
    doprntPutString m a = some t := by
  have hloop := runLoop_pointer m t (doprntPutStringTurn m) (fun out c => out ++ [c]) id
    (fun a out hzero => by rw [doprntPutStringTurn, if_neg (not_not.mpr hzero)]; rfl)
    (fun a out c hc hread => by
      rw [doprntPutStringTurn, if_pos (show m a ≠ 0 from hread ▸ h.1 c hc), hread])
    a [] (turnBound + 1) h (by decide)
  rw [List.foldl_append_eq_append, ← List.flatMap_def, List.flatMap_singleton',
    List.nil_append] at hloop
  exact hloop

/-! ### What has been read stays recorded -/

theorem putString_reads (st st' : Printing) (a : Word) (h : st.putString a = some st') :
    st'.reads = st.reads := by
  rcases Option.map_eq_some_iff.mp h with ⟨t, -, rfl⟩
  rfl

theorem putNumber_reads (st st' : Printing) (toStr : Mem → Word → Byte → Word → Option Mem)
    (i : Word) (base : Byte) (buffer : Word) (h : st.putNumber toStr i base buffer = some st') :
    st'.reads = st.reads := by
  rcases Option.bind_eq_some_iff.mp h with ⟨mem, -, hput⟩
  exact putString_reads { st with mem := mem } st' buffer hput

theorem doprntLong_reads (fmt buffer : Word) (st st' : Printing)
    (h : doprntLong fmt buffer st = some st') : st.reads ⊆ st'.reads := by
  unfold doprntLong at h
  split_ifs at h
  · rcases Option.map_eq_some_iff.mp h with ⟨u, hput, rfl⟩
    intro x hx
    show x ∈ u.reads
    rw [putString_reads _ u buffer hput]
    exact List.mem_append_left _ (List.mem_append_left _ hx)
  · rw [← Option.some.inj h]
    exact List.subset_append_left _ _

theorem doprntConvert_reads (fmt buffer : Word) (args : Nat → Word) (st st' : Printing)
    (h : doprntConvert fmt buffer args st = some st') : st.reads ⊆ st'.reads := by
  have hsame : st'.reads = st.reads → st.reads ⊆ st'.reads := fun heq _ hx => heq ▸ hx
  unfold doprntConvert at h
  dsimp only at h
  split_ifs at h
  · exact hsame (putString_reads st.vaArg st' _ h)
  · exact hsame (congrArg Printing.reads (Option.some.inj h)).symm
  · exact hsame (putNumber_reads st.vaArg st' _ _ _ _ h)
  · exact hsame (putNumber_reads st.vaArg st' _ _ _ _ h)
  · exact hsame (putNumber_reads st.vaArg st' _ _ _ _ h)
  · exact doprntLong_reads fmt buffer st st' h
  · exact hsame (congrArg Printing.reads (Option.some.inj h)).symm

/-- A turn reads the format where it is. -/
theorem doprntTurn_reads (fmt buffer : Word) (args : Nat → Word) (st st' : Printing)
    (h : doprntTurn fmt buffer args st = some (.exit st') ∨
      doprntTurn fmt buffer args st = some (.again st')) : (st.read st.i).reads ⊆ st'.reads := by
  have hread : (st.read st.i).reads ⊆ ((st.read st.i).read (st.i + 1)).reads :=
    List.subset_append_left _ _
  unfold doprntTurn at h
  dsimp only at h
  by_cases hzero : st.mem (fmt + st.i) = 0
  · simp only [if_pos hzero, Option.some.injEq, Turn.exit.injEq, reduceCtorEq, or_false] at h
    rw [h]
    exact List.Subset.refl _
  · rw [if_neg hzero] at h
    rcases h with h | h
    · rcases Option.map_eq_some_iff.mp h with ⟨u, -, hu⟩
      exact absurd hu nofun
    · rcases Option.map_eq_some_iff.mp h with ⟨u, hrun, hu⟩
      rw [← Turn.again.inj hu]
      show _ ⊆ u.reads
      split_ifs at hrun
      · have hconvert := doprntConvert_reads fmt buffer args _ u hrun
        exact List.Subset.trans hread hconvert
      · rw [← Option.some.inj hrun]
        exact hread
      · rw [← Option.some.inj hrun]
        exact List.Subset.refl _

/-- A loop that comes to an index reads the format there before it ends. -/
theorem runLoop_reads (fmt buffer : Word) (args : Nat → Word) (fuel : Nat) (st r : Printing)
    (h : runLoop (doprntTurn fmt buffer args) fuel st = some r) : st.i ∈ r.reads := by
  refine runLoop_inv (doprntTurn fmt buffer args) (fun u => st.i ∈ (u.read u.i).reads)
    (fun u => st.i ∈ u.reads) ?_ ?_ fuel st r (List.mem_append_right _ List.mem_cons_self) h
  · exact fun u u' hu hturn => doprntTurn_reads fmt buffer args u u' (Or.inl hturn) hu
  · exact fun u u' hu hturn => List.mem_append_left _
      (doprntTurn_reads fmt buffer args u u' (Or.inr hturn) hu)

section Format

variable (m : Mem) (fmt buffer : Word) (args : Nat → Word) (s : List Byte)
  (hs : CString m fmt s) (hapart : Apart buffer 32 fmt (s.length + 1))

/-- Before the rest of the format, with nothing but the buffer written to. -/
def At (st : Printing) (rest : List Byte) : Prop :=
  SameOutside buffer 32 m st.mem ∧
    ∃ before, s = before ++ rest ∧ st.i = BitVec.ofNat 32 before.length

/-- Nothing but indices up to the terminator has been read since. -/
def ReadUpTo (len : Nat) (st st' : Printing) : Prop :=
  ∀ j ∈ st'.reads, j ∈ st.reads ∨ j.toNat ≤ len

/-- What a turn for a piece comes to: the rest of the format, with the arguments
    of the piece taken, the format read within its bounds, and the text printed if
    the piece is not one with `l`. -/
structure Comes (st st' : Printing) (p : Piece) (rest : List Byte) : Prop where
  here : At m buffer s st' rest
  taken : st'.argp = st.argp + p.takes
  within : ReadUpTo s.length st st'
  text : p.Plain → (p = .convert 115 → ∃ t, CString m (args st.argp) t ∧
    Apart buffer 32 (args st.argp) (t.length + 1)) → st'.out = st.out ++ p.text m (args st.argp)

section Conversions

variable (st : Printing) (hkeep : SameOutside buffer 32 m st.mem)

include hkeep

/-- Printing a number prints its text and writes to the buffer. -/
theorem putNumber_eq (toStr : Mem → Word → Byte → Word → Option Mem) (i : Word) (base : Byte)
    (t : List Byte) (hlen : t.length ≤ 11) (h : ∃ r, toStr st.mem i base buffer = some r ∧
      CString r buffer t ∧ SameOutside buffer (t.length + 1) st.mem r) :
    ∃ r, st.putNumber toStr i base buffer = some { st with mem := r, out := st.out ++ t } ∧
      SameOutside buffer 32 m r := by
  rcases h with ⟨r, hrun, hr, hsame⟩
  refine ⟨r, ?_, SameOutside.trans _ _ _ _ _ hkeep
    (SameOutside.widen buffer 0 (t.length + 1) 32 st.mem r (by omega) (by decide) ?_)⟩
  · rw [Printing.putNumber, hrun, Option.bind_some, Printing.putString,
      doprntPutString_eq r buffer t hr, Option.map_some]
  · rw [show buffer + BitVec.ofNat 32 0 = buffer from BitVec.add_zero buffer]
    exact hsame

omit hkeep in
/-- Whatever lies at an address, it is printed up to a terminator. -/
theorem putString_some (z : Word) (hz : st.mem z = 0) (a : Word) :
    ∃ t, st.putString a = some { st with out := st.out ++ t } ∧ CString st.mem a t := by
  rcases exists_cstring st.mem z hz a with ⟨t, ht⟩
  exact ⟨t, by rw [Printing.putString, doprntPutString_eq st.mem a t ht, Option.map_some], ht⟩

/-- A string that is given as an argument is printed, whatever the buffer holds. -/
theorem putString_given (z : Word) (hz : st.mem z = 0) (a : Word) :
    ∃ t, st.putString a = some { st with out := st.out ++ t } ∧
      ((∃ t, CString m a t ∧ Apart buffer 32 a (t.length + 1)) → t = stringAt m a) := by
  rcases putString_some st z hz a with ⟨t, hrun, ht⟩
  refine ⟨t, hrun, fun hgiven => ?_⟩
  rcases hgiven with ⟨t', ht', hfar⟩
  have hlen := length_lt_of_cstring m a t' ht'
  -- The string is the one there was before the buffer was written to.
  rw [cstring_unique st.mem a t t' ht (cstring_sameOutside m st.mem buffer a 32 t' ht' hkeep hfar),
    stringAt, readString_of_cstring m _ a t' ht', List.take_of_length_le (by omega)]

/-- A conversion prints its text and takes its argument. -/
theorem doprntConvert_eq (z : Word) (hz : st.mem z = 0) (c : Byte)
    (hc : st.mem (fmt + st.i) = c) (hne : c ≠ 108) :
    ∃ mem t, doprntConvert fmt buffer args st = some { st with
        argp := st.argp + (Piece.convert c).takes, mem := mem, out := st.out ++ t } ∧
      SameOutside buffer 32 m mem ∧
      ((Piece.convert c = .convert 115 → ∃ t, CString m (args st.argp) t ∧
        Apart buffer 32 (args st.argp) (t.length + 1)) →
          t = (Piece.convert c).text m (args st.argp)) := by
  -- Each of the numbers takes its argument and prints its text.
  have hnumber : ∀ toStr base t, (Piece.convert c).takes = 1 →
      (Piece.convert c).text m (args st.argp) = t → t.length ≤ 11 →
        (∃ r, toStr st.mem (args st.argp) base buffer = some r ∧ CString r buffer t ∧
          SameOutside buffer (t.length + 1) st.mem r) →
            ∃ mem t', st.vaArg.putNumber toStr (args st.argp) base buffer = some { st with
                argp := st.argp + (Piece.convert c).takes, mem := mem, out := st.out ++ t' } ∧
              SameOutside buffer 32 m mem ∧ t' = (Piece.convert c).text m (args st.argp) := by
    intro toStr base t htakes htext hlen h
    rcases putNumber_eq m buffer st.vaArg hkeep toStr (args st.argp) base t hlen h with
      ⟨r, hrun, hsame⟩
    exact ⟨r, t, by rw [hrun, htakes]; rfl, hsame, htext.symm⟩
  have hword := (args st.argp).isLt
  unfold doprntConvert
  simp only [hc]
  -- The cases of the `switch`, in its order.
  by_cases hstring : c = 115
  · rw [if_pos hstring]
    rcases putString_given m buffer st.vaArg hkeep z hz (args st.argp) with ⟨t, hrun, ht⟩
    refine ⟨st.mem, t, by rw [hrun, hstring]; rfl, hkeep, fun hgiven => ?_⟩
    rw [ht (hgiven (by rw [hstring])), Piece.text, if_pos hstring]
  rw [if_neg hstring]
  by_cases hchar : c = 99
  · rw [if_pos hchar]
    refine ⟨st.mem, [(args st.argp).setWidth 8], by rw [hchar]; rfl, hkeep, fun _ => ?_⟩
    rw [hchar]
    rfl
  rw [if_neg hchar]
  by_cases hint : c = 105 ∨ c = 100
  · rw [if_pos hint]
    rcases hnumber intToStr 10 (intText 10 (args st.argp)) (by rcases hint with rfl | rfl <;> rfl)
      (by rw [Piece.text, if_neg hstring, if_neg hchar, if_pos hint]) (length_intText_le _)
      (intToStr_eq st.mem _ 10 buffer (by decide) (by decide)) with ⟨mem, t, hrun, hsame, ht⟩
    exact ⟨mem, t, hrun, hsame, fun _ => ht⟩
  rw [if_neg hint]
  by_cases huint : c = 117
  · rw [if_pos huint]
    rcases hnumber uintToStr 10 (numeralText 10 (args st.argp).toNat) (by rw [huint]; rfl)
      (by rw [Piece.text, if_neg hstring, if_neg hchar, if_neg hint, if_pos huint])
      (Nat.le_succ_of_le (length_numeralText_le 10 _ (by decide) hword))
      (uintToStr_eq st.mem _ 10 buffer (by decide) (by decide)) with ⟨mem, t, hrun, hsame, ht⟩
    exact ⟨mem, t, hrun, hsame, fun _ => ht⟩
  rw [if_neg huint]
  by_cases hhex : c = 112 ∨ c = 88 ∨ c = 120
  · rw [if_pos hhex]
    rcases hnumber uintToStr 16 (numeralText 16 (args st.argp).toNat)
      (by rcases hhex with rfl | rfl | rfl <;> rfl)
      (by rw [Piece.text, if_neg hstring, if_neg hchar, if_neg hint, if_neg huint, if_pos hhex])
      (Nat.le_succ_of_le (length_numeralText_le 16 _ (by decide) hword))
      (uintToStr_eq st.mem _ 16 buffer (by decide) (by decide)) with ⟨mem, t, hrun, hsame, ht⟩
    exact ⟨mem, t, hrun, hsame, fun _ => ht⟩
  -- Any other character stands for itself.
  rw [if_neg hhex, if_neg hne]
  have htakes : (Piece.convert c).takes = 0 := by
    refine if_neg fun hmem => ?_
    simp only [conversions, List.mem_cons, List.not_mem_nil, or_false] at hmem
    tauto
  refine ⟨st.mem, [c], by rw [htakes]; rfl, hkeep, fun _ => ?_⟩
  rw [Piece.text, if_neg hstring, if_neg hchar, if_neg hint, if_neg huint, if_neg hhex]

end Conversions

section Turns

variable (st : Printing) (rest : List Byte)

include hs hapart

/-- The rest of the format lies ahead, however the buffer was written to. -/
theorem holds_rest (h : At m buffer s st rest) : Holds st.mem (fmt + st.i) (rest ++ [0]) := by
  rcases h with ⟨hkeep, before, rfl, hi⟩
  have hstring := cstring_sameOutside m st.mem buffer fmt 32 _ hs hkeep hapart
  have hsplit := hstring.2
  rw [List.append_assoc, holds_append] at hsplit
  rw [hi]
  exact hsplit.2

omit hapart in
/-- A turn reads an index from the rest of the format on. -/
theorem readUpTo_read (h : At m buffer s st rest) (st' : Printing) (hst' : ReadUpTo s.length st st')
    (j : Word) (k : Nat) (hk : k ≤ rest.length) (hj : j = st.i + BitVec.ofNat 32 k) :
    ReadUpTo s.length st (st'.read j) := by
  have hlong := length_lt_of_cstring m fmt s hs
  rcases h with ⟨-, before, rfl, hi⟩
  rw [List.length_append] at hlong
  intro x hx
  rcases List.mem_append.mp hx with hx | hx
  · exact hst' x hx
  · refine Or.inr ?_
    rw [List.mem_singleton.mp hx, hj, hi, List.length_append]
    bv_omega

omit hapart in
/-- A turn reads where it is. -/
theorem readUpTo_here (h : At m buffer s st rest) : ReadUpTo s.length st (st.read st.i) :=
  readUpTo_read m fmt buffer s hs st rest h st (fun _ hx => Or.inl hx) st.i 0 (Nat.zero_le _)
    (BitVec.add_zero _).symm

omit hs hapart in
theorem at_drop (h : At m buffer s st rest) (st' : Printing) (k : Nat) (hk : k ≤ rest.length)
    (hkeep : SameOutside buffer 32 m st'.mem) (hi : st'.i = st.i + BitVec.ofNat 32 k) :
    At m buffer s st' (rest.drop k) := by
  rcases h with ⟨-, before, hsplit, hst⟩
  refine ⟨hkeep, before ++ rest.take k, ?_, ?_⟩
  · rw [List.append_assoc, List.take_append_drop, hsplit]
  · rw [List.length_append, List.length_take_of_le hk, BitVec.ofNat_add, hi, hst]

omit hapart in
theorem at_ne_zero (h : At m buffer s st rest) : ∀ c ∈ rest, c ≠ 0 := by
  rcases h with ⟨-, before, hsplit, -⟩
  intro c hc
  refine hs.1 c ?_
  rw [hsplit]
  exact List.mem_append_right before hc

/-- A turn at the terminator ends the loop there. -/
theorem turn_terminator (h : At m buffer s st []) : doprntTurn fmt buffer args st
    = some (.exit (st.read st.i)) ∧ st.i = BitVec.ofNat 32 s.length := by
  have hzero := (holds_rest m fmt buffer s hs hapart st [] h).1
  rcases h with ⟨-, before, hsplit, hi⟩
  rw [List.append_nil] at hsplit
  refine ⟨?_, by rw [hi, hsplit]⟩
  unfold doprntTurn
  simp only [hzero, if_true]

/-- A character that stands for itself, be it a `%` at the end. -/
theorem turn_char (c : Byte) (h : At m buffer s st (c :: rest)) (hc : c ≠ 37 ∨ rest = []) :
    ∃ st', doprntTurn fmt buffer args st = some (.again st') ∧
      Comes m buffer args s st st' (.char c) rest := by
  have hholds := holds_rest m fmt buffer s hs hapart st _ h
  have hne := at_ne_zero m fmt buffer s hs st _ h c List.mem_cons_self
  have hread := readUpTo_here m fmt buffer s hs st _ h
  have hhere : st.mem (fmt + st.i) = c := hholds.1
  have hnext : ∀ st' : Printing, st'.mem = st.mem → st'.i = st.i + 1 → At m buffer s st' rest :=
    fun st' hmem hi => at_drop m buffer s st _ h st' 1 (Nat.succ_le_succ (Nat.zero_le _))
      (hmem ▸ h.1) hi
  unfold doprntTurn
  simp only [hhere, if_neg hne]
  by_cases hpercent : c = 37
  · -- The terminator has been looked at.
    have hlone : rest = [] := hc.resolve_left (not_not.mpr hpercent)
    subst hlone
    have hzero : st.mem (fmt + (st.i + 1)) = 0 := by
      rw [← BitVec.add_assoc]
      exact hholds.2.1
    rw [if_pos hpercent, hzero, if_neg (not_not.mpr rfl), Option.map_some]
    exact ⟨_, rfl, hnext _ rfl rfl, rfl, readUpTo_read m fmt buffer s hs st _ h _ hread _ 1
      (Nat.le_refl 1) rfl, fun _ _ => rfl⟩
  · rw [if_neg hpercent, Option.map_some]
    exact ⟨_, rfl, hnext _ rfl rfl, rfl, hread, fun _ _ => rfl⟩

/-- A `%` that something follows turns to the `switch`, with both read. -/
theorem turn_percent (c : Byte) (h : At m buffer s st (37 :: c :: rest)) :
    ∃ st', st' = { (st.read st.i).read (st.i + 1) with i := st.i + 1 } ∧
      doprntTurn fmt buffer args st = (doprntConvert fmt buffer args st').map
        (fun s => .again { s with i := s.i + 1 }) ∧
      At m buffer s st' (c :: rest) ∧ ReadUpTo s.length st st' := by
  have hholds := holds_rest m fmt buffer s hs hapart st _ h
  have hne := at_ne_zero m fmt buffer s hs st _ h c (List.mem_cons_of_mem _ List.mem_cons_self)
  have hnext : st.mem (fmt + (st.i + 1)) = c := by
    rw [← BitVec.add_assoc]
    exact hholds.2.1
  refine ⟨_, rfl, ?_, at_drop m buffer s st _ h _ 1 (Nat.succ_le_succ (Nat.zero_le _)) h.1 rfl,
    readUpTo_read m fmt buffer s hs st _ h _ (readUpTo_here m fmt buffer s hs st _ h) _ 1
      (Nat.succ_le_succ (Nat.zero_le _)) rfl⟩
  have hhere : st.mem (fmt + st.i) = 37 := hholds.1
  unfold doprntTurn
  simp only [hhere, hnext, if_true, if_pos hne]
  rfl

/-- The format still has its terminator. -/
theorem terminator_eq (h : SameOutside buffer 32 m st.mem) :
    st.mem (fmt + BitVec.ofNat 32 s.length) = 0 := by
  have hstring := cstring_sameOutside m st.mem buffer fmt 32 s hs h hapart
  exact ((holds_append st.mem fmt s [0]).mp hstring.2).2.1

/-- A `%` with the character behind it. -/
theorem turn_convert (c : Byte) (h : At m buffer s st (37 :: c :: rest)) (hc : c ≠ 108) :
    ∃ st', doprntTurn fmt buffer args st = some (.again st') ∧
      Comes m buffer args s st st' (.convert c) rest := by
  rcases turn_percent m fmt buffer args s hs hapart st rest c h with
    ⟨mid, hmid, hturn, hat, hread⟩
  have hhere : mid.mem (fmt + mid.i) = c := (holds_rest m fmt buffer s hs hapart mid _ hat).1
  rcases doprntConvert_eq m fmt buffer args mid hat.1 _
    (terminator_eq m fmt buffer s hs hapart mid hat.1) c hhere hc with
    ⟨mem, t, hrun, hkeep, htext⟩
  rw [hturn, hrun, Option.map_some]
  refine ⟨_, rfl, at_drop m buffer s mid _ hat _ 1 (Nat.succ_le_succ (Nat.zero_le _)) hkeep rfl,
    ?_, hread, fun _ hgiven => ?_⟩
  · rw [hmid]
    rfl
  · rw [hmid] at htext ⊢
    exact congrArg (st.out ++ ·) (htext hgiven)

/-- What a turn for a `%l` or a `%ll` does: go on by so many characters. -/
def Skips (st : Printing) (n : Nat) : Prop :=
  ∃ st', doprntTurn fmt buffer args st = some (.again st') ∧ st'.i = st.i + BitVec.ofNat 32 n ∧
    st'.argp = st.argp ∧ SameOutside buffer 32 m st'.mem ∧ ReadUpTo s.length st st'

/-- Behind `%l` the next character is looked at and one character taken. -/
theorem turn_l (h : At m buffer s st (37 :: 108 :: rest)) (hne : rest.head? ≠ some 108) :
    Skips m fmt buffer args s st 3 := by
  rcases turn_percent m fmt buffer args s hs hapart st rest 108 h with
    ⟨mid, hmid, hturn, hat, hread⟩
  have hholds := holds_rest m fmt buffer s hs hapart mid _ hat
  have hnext : ¬ mid.mem (fmt + (mid.i + 1)) = 108 := by
    rw [← BitVec.add_assoc]
    cases rest with
    | nil =>
        rw [hholds.2.1]
        decide
    | cons e rest =>
        rw [hholds.2.1]
        exact fun he => hne (by rw [he, List.head?_cons])
  have hconvert : doprntConvert fmt buffer args mid = doprntLong fmt buffer mid := by
    unfold doprntConvert
    simp only [show mid.mem (fmt + mid.i) = 108 from hholds.1]
    rfl
  rw [doprntLong, if_neg hnext] at hconvert
  rw [hconvert, Option.map_some] at hturn
  have hindex : mid.i + 1 = st.i + BitVec.ofNat 32 2 := by
    rw [hmid]
    exact BitVec.add_assoc _ _ _
  refine ⟨_, hturn, ?_, by rw [hmid]; rfl, hat.1, readUpTo_read m fmt buffer s hs st _ h mid hread
    _ 2 (Nat.le_add_left _ _) hindex⟩
  rw [hindex, BitVec.add_assoc]
  rfl

/-- Behind `%ll` the one after it is looked at as well, and the buffer printed. -/
theorem turn_ll (h : At m buffer s st (37 :: 108 :: 108 :: rest)) :
    Skips m fmt buffer args s st 4 := by
  rcases turn_percent m fmt buffer args s hs hapart st _ 108 h with
    ⟨mid, hmid, hturn, hat, hread⟩
  have hholds := holds_rest m fmt buffer s hs hapart mid _ hat
  have hnext : mid.mem (fmt + (mid.i + 1)) = 108 := by
    rw [← BitVec.add_assoc]
    exact hholds.2.1
  have hconvert : doprntConvert fmt buffer args mid = doprntLong fmt buffer mid := by
    unfold doprntConvert
    simp only [show mid.mem (fmt + mid.i) = 108 from hholds.1]
    rfl
  rcases putString_some ((mid.read (mid.i + 1)).read (mid.i + 2)) _
    (terminator_eq m fmt buffer s hs hapart mid hat.1) buffer with ⟨t, hrun, -⟩
  rw [doprntLong, if_pos hnext, hrun, Option.map_some] at hconvert
  rw [hconvert, Option.map_some] at hturn
  have hindex : mid.i + 1 = st.i + BitVec.ofNat 32 2 ∧ mid.i + 2 = st.i + BitVec.ofNat 32 3 := by
    rw [hmid]
    exact ⟨BitVec.add_assoc _ _ _, BitVec.add_assoc _ _ _⟩
  refine ⟨_, hturn, ?_, by rw [hmid]; rfl, hat.1, readUpTo_read m fmt buffer s hs st _ h _
    (readUpTo_read m fmt buffer s hs st _ h mid hread _ 2 (Nat.le_add_left _ _) hindex.1)
    _ 3 (Nat.le_add_left _ _) hindex.2⟩
  show mid.i + 1 + 1 + 1 = _
  rw [hindex.1]
  bv_omega

omit hs hapart in
/-- A directive with `l` that is all there. -/
theorem comes_of_skips (p : Piece) (hp : p = .long ∨ p = .longLong) (n : Nat)
    (h : At m buffer s st rest) (hn : n ≤ rest.length) (hskip : Skips m fmt buffer args s st n) :
    ∃ st', doprntTurn fmt buffer args st = some (.again st') ∧
      Comes m buffer args s st st' p (rest.drop n) := by
  rcases hskip with ⟨st', hturn, hi, hargp, hkeep, hread⟩
  refine ⟨st', hturn, at_drop m buffer s st rest h st' n hn hkeep hi, ?_, hread, fun hplain => ?_⟩
  · rcases hp with rfl | rfl <;> exact hargp
  · rcases hp with rfl | rfl <;> exact absurd hplain not_false

/-- Behind a directive that is cut off the index is past the terminator. -/
theorem turn_cut (h : At m buffer s st (37 :: 108 :: rest)) (hrest : rest = [] ∨ rest = [108]) :
    ∃ st', doprntTurn fmt buffer args st = some (.again st') ∧
      st'.i = BitVec.ofNat 32 (s.length + 1) := by
  have hskip : Skips m fmt buffer args s st ((37 :: 108 :: rest).length + 1) := by
    rcases hrest with rfl | rfl
    · exact turn_l m fmt buffer args s hs hapart st [] h (by rw [List.head?_nil]; exact nofun)
    · exact turn_ll m fmt buffer args s hs hapart st [] h
  rcases hskip with ⟨st', hturn, hi, -⟩
  rcases h with ⟨-, before, rfl, hst⟩
  refine ⟨st', hturn, ?_⟩
  rw [hi, hst, ← BitVec.ofNat_add, List.length_append, Nat.add_assoc]

/-- A turn for the first of the pieces that are left, or past the end. -/
theorem turn_piece (c : Byte) (h : At m buffer s st (c :: rest)) :
    (∃ p rest' st', pieces (c :: rest) = p :: pieces rest' ∧ p ≠ .cut ∧
      rest'.length ≤ rest.length ∧ doprntTurn fmt buffer args st = some (.again st') ∧
      Comes m buffer args s st st' p rest') ∨
    (pieces (c :: rest) = [.cut] ∧ ∃ st', doprntTurn fmt buffer args st = some (.again st') ∧
      st'.i = BitVec.ofNat 32 (s.length + 1)) := by
  by_cases hc : c = 37
  · subst hc
    rcases rest with _ | ⟨d, rest⟩
    · rcases turn_char m fmt buffer args s hs hapart st [] 37 h (Or.inr rfl) with ⟨st', hturn, hst'⟩
      exact Or.inl ⟨_, [], st', rfl, nofun, Nat.le_refl _, hturn, hst'⟩
    · by_cases hd : d = 108
      · subst hd
        rcases rest with _ | ⟨e, rest⟩
        · exact Or.inr ⟨rfl, turn_cut m fmt buffer args s hs hapart st [] h (Or.inl rfl)⟩
        · by_cases he : e = 108
          · subst he
            rcases rest with _ | ⟨f, rest⟩
            · exact Or.inr ⟨rfl, turn_cut m fmt buffer args s hs hapart st [108] h (Or.inr rfl)⟩
            · rcases comes_of_skips m fmt buffer args s st _ .longLong (Or.inr rfl) 4 h
                (Nat.le_add_left _ _) (turn_ll m fmt buffer args s hs hapart st _ h) with
                ⟨st', hturn, hst'⟩
              exact Or.inl ⟨_, rest, st', rfl, nofun, Nat.le_add_right _ 3, hturn, hst'⟩
          · have hhead : (e :: rest).head? ≠ some 108 := by
              rw [List.head?_cons]
              exact fun hc => he (Option.some.inj hc)
            rcases comes_of_skips m fmt buffer args s st _ .long (Or.inl rfl) 3 h
              (Nat.le_add_left _ _) (turn_l m fmt buffer args s hs hapart st _ h hhead) with
              ⟨st', hturn, hst'⟩
            exact Or.inl ⟨_, rest, st', if_neg he, nofun, Nat.le_add_right _ 2, hturn, hst'⟩
      · rcases turn_convert m fmt buffer args s hs hapart st rest d h hd with ⟨st', hturn, hst'⟩
        exact Or.inl ⟨_, rest, st', if_neg hd, nofun, Nat.le_add_right _ 1, hturn, hst'⟩
  · rcases turn_char m fmt buffer args s hs hapart st rest c h (Or.inl hc) with ⟨st', hturn, hst'⟩
    exact Or.inl ⟨_, rest, st', if_neg hc, nofun, Nat.le_refl _, hturn, hst'⟩

end Turns

include hs hapart

/-- Printing the rest of a format ends at its terminator and prints the expansion
    of its pieces. -/
theorem doprnt_run (fuel : Nat) :
    ∀ (rest : List Byte) (st : Printing), At m buffer s st rest → rest.length < fuel →
      Piece.cut ∉ pieces rest → ∃ r, runLoop (doprntTurn fmt buffer args) fuel st = some r ∧
        r.i = BitVec.ofNat 32 s.length ∧ ReadUpTo s.length st r ∧
        r.argp = st.argp + arguments (pieces rest) ∧
        ((∀ p ∈ pieces rest, p.Plain) → StringsGiven m buffer args st.argp (pieces rest) →
          r.out = st.out ++ expand m args st.argp (pieces rest)) := by
  induction fuel with
  | zero => exact fun _ _ _ hfuel => absurd hfuel (Nat.not_lt_zero _)
  | succ k ih =>
      intro rest st h hfuel hcut
      cases rest with
      | nil =>
          rcases turn_terminator m fmt buffer args s hs hapart st h with ⟨hturn, hi⟩
          exact ⟨_, runLoop_exit _ _ _ _ hturn, hi, readUpTo_here m fmt buffer s hs st [] h, rfl,
            fun _ _ => (List.append_nil _).symm⟩
      | cons c rest =>
          rcases turn_piece m fmt buffer args s hs hapart st rest c h with
            ⟨p, rest', st', hpieces, -, hless, hturn, hcomes⟩ | ⟨hpieces, -⟩
          · rw [hpieces] at hcut ⊢
            rw [List.length_cons] at hfuel
            rcases ih rest' st' hcomes.here (by omega)
              (fun hc => hcut (List.mem_cons_of_mem _ hc)) with ⟨r, hrun, hi, hread, hargp, hout⟩
            refine ⟨r, (runLoop_again _ _ _ _ hturn).trans hrun, hi, ?_, ?_, ?_⟩
            · intro x hx
              rcases hread x hx with hx | hx
              · exact hcomes.within x hx
              · exact Or.inr hx
            · rw [hargp, hcomes.taken, arguments_cons, Nat.add_assoc]
            · intro hplain hgiven
              rw [hcomes.taken] at hout
              rw [hout (fun q hq => hplain q (List.mem_cons_of_mem _ hq)) hgiven.2,
                hcomes.text (hplain p List.mem_cons_self) hgiven.1, List.append_assoc, expand]
          · rw [hpieces] at hcut
            exact absurd List.mem_cons_self hcut

/-- A format that is cut off is read past its terminator. -/
theorem doprnt_past (fuel : Nat) :
    ∀ (rest : List Byte) (st r : Printing), At m buffer s st rest → Piece.cut ∈ pieces rest →
      runLoop (doprntTurn fmt buffer args) fuel st = some r →
        BitVec.ofNat 32 (s.length + 1) ∈ r.reads := by
  induction fuel with
  | zero => exact fun _ _ _ _ _ hrun => absurd hrun nofun
  | succ k ih =>
      intro rest st r h hcut hrun
      cases rest with
      | nil => exact absurd hcut List.not_mem_nil
      | cons c rest =>
          rcases turn_piece m fmt buffer args s hs hapart st rest c h with
            ⟨p, rest', st', hpieces, hp, -, hturn, hcomes⟩ | ⟨-, st', hturn, hi⟩
          · rw [hpieces] at hcut
            rw [runLoop_again _ _ _ _ hturn] at hrun
            exact ih rest' st' r hcomes.here
              ((List.mem_cons.mp hcut).resolve_left fun hc => hp hc.symm) hrun
          · rw [runLoop_again _ _ _ _ hturn] at hrun
            rw [← hi]
            exact runLoop_reads fmt buffer args k st' r hrun

omit hapart hs in
/-- Before the first turn the whole format is ahead. -/
theorem at_start : At m buffer s ⟨0, 0, m, [], []⟩ s :=
  ⟨SameOutside.refl _ _ _, [], rfl, rfl⟩

/-- A format that is not cut off is printed from its start to its end. -/
theorem doprnt_some (hcut : Piece.cut ∉ pieces s) : ∃ r, doprnt m fmt args buffer = some r ∧
    r.i = BitVec.ofNat 32 s.length ∧ ReadUpTo s.length ⟨0, 0, m, [], []⟩ r ∧
    r.argp = 0 + arguments (pieces s) ∧
    ((∀ p ∈ pieces s, p.Plain) → StringsGiven m buffer args 0 (pieces s) →
      r.out = [] ++ expand m args 0 (pieces s)) := by
  have hlong := length_lt_of_cstring m fmt s hs
  exact doprnt_run m fmt buffer args s hs hapart (turnBound + 1) s _ (at_start m buffer s)
    (by unfold turnBound; omega) hcut

/-- Nothing but the buffer is written to. -/
theorem doprnt_mem (hcut : Piece.cut ∉ pieces s) (r : Printing)
    (hrun : doprnt m fmt args buffer = some r) : SameOutside buffer 32 m r.mem := by
  refine runLoop_inv (doprntTurn fmt buffer args)
    (fun st => ∃ rest, At m buffer s st rest ∧ Piece.cut ∉ pieces rest)
    (fun r => SameOutside buffer 32 m r.mem) ?_ ?_ (turnBound + 1) ⟨0, 0, m, [], []⟩ r
    ⟨s, at_start m buffer s, hcut⟩ hrun
  · rintro st r ⟨rest, hat, hrest⟩ hexit
    cases rest with
    | nil =>
        rw [(turn_terminator m fmt buffer args s hs hapart st hat).1, Option.some.injEq,
          Turn.exit.injEq] at hexit
        rw [← hexit]
        exact hat.1
    | cons c rest =>
        -- The loop does not end at a piece.
        rcases turn_piece m fmt buffer args s hs hapart st rest c hat with
          ⟨p, rest', st', -, -, -, hturn, -⟩ | ⟨-, st', hturn, -⟩
        · simp only [hturn, Option.some.injEq, reduceCtorEq] at hexit
        · simp only [hturn, Option.some.injEq, reduceCtorEq] at hexit
  · rintro st st'' ⟨rest, hat, hrest⟩ hagain
    cases rest with
    | nil =>
        simp only [(turn_terminator m fmt buffer args s hs hapart st hat).1, Option.some.injEq,
          reduceCtorEq] at hagain
    | cons c rest =>
        rcases turn_piece m fmt buffer args s hs hapart st rest c hat with
          ⟨p, rest', st', hpieces, -, -, hturn, hcomes⟩ | ⟨hpieces, -⟩
        · rw [hturn, Option.some.injEq, Turn.again.injEq] at hagain
          rw [← hagain]
          rw [hpieces] at hrest
          exact ⟨rest', hcomes.here, fun hc => hrest (List.mem_cons_of_mem _ hc)⟩
        · rw [hpieces] at hrest
          exact absurd List.mem_cons_self hrest

omit hapart hs in
/-- What is promised of what is read: the call returns, no index past the
    terminator was read, and the loop ended there. -/
def ReadsWithin : Prop :=
  ∃ r, doprnt m fmt args buffer = some r ∧ (∀ j ∈ r.reads, j.toNat ≤ s.length) ∧
    r.i = BitVec.ofNat 32 s.length

theorem not_readsWithin_of_cut (hcut : Piece.cut ∈ pieces s) :
    ¬ ReadsWithin m fmt buffer args s := by
  rintro ⟨r, hrun, hread, -⟩
  have hpast := doprnt_past m fmt buffer args s hs hapart _ s _ r (at_start m buffer s) hcut hrun
  have hle := hread _ hpast
  -- The buffer leaves room for the index behind the terminator.
  rcases hapart with ⟨hbelow, habove⟩
  bv_omega

/-- The format is read within its bounds unless its last directive is cut off. -/
theorem readsWithin_iff : ReadsWithin m fmt buffer args s ↔ Piece.cut ∉ pieces s := by
  constructor
  · exact fun h hcut => not_readsWithin_of_cut m fmt buffer args s hs hapart hcut h
  · intro hcut
    rcases doprnt_some m fmt buffer args s hs hapart hcut with ⟨r, hrun, hi, hread, -⟩
    exact ⟨r, hrun, fun j hj => (hread j hj).resolve_left List.not_mem_nil, hi⟩

/-- What is promised of what is printed: the expansion of the format, with an
    argument for each conversion. Of a format that is split between two directives
    it is what is printed of the one part and then of the other. -/
structure Expanded (r : Printing) : Prop where
  returns : doprnt m fmt args buffer = some r
  out : r.out = expand m args 0 (pieces s)
  taken : r.argp = arguments (pieces s)
  split : ∀ s1 s2 fmt1 fmt2, s = s1 ++ s2 → Whole s1 →
    CString m fmt1 s1 → Apart buffer 32 fmt1 (s1.length + 1) →
    CString m fmt2 s2 → Apart buffer 32 fmt2 (s2.length + 1) →
      ∃ r1 r2, doprnt m fmt1 args buffer = some r1 ∧
        doprnt m fmt2 (fun k => args (r1.argp + k)) buffer = some r2 ∧
        r.out = r1.out ++ r2.out ∧ r.argp = r1.argp + r2.argp

/-- Without a `%l` all of the expansion is printed. -/
theorem doprnt_prints (hplain : ¬ [37, 108] <:+: s)
    (hgiven : StringsGiven m buffer args 0 (pieces s)) :
    ∃ r, doprnt m fmt args buffer = some r ∧ r.out = expand m args 0 (pieces s) ∧
      r.argp = arguments (pieces s) := by
  have hall := pieces_plain s hplain
  rcases doprnt_some m fmt buffer args s hs hapart (fun hcut => hall _ hcut) with
    ⟨r, hrun, -, -, hargp, hout⟩
  exact ⟨r, hrun, (hout hall hgiven).trans (List.nil_append _), hargp.trans (Nat.zero_add _)⟩

/-- What is printed is the expansion of the format. -/
theorem doprnt_expanded (hplain : ¬ [37, 108] <:+: s)
    (hgiven : StringsGiven m buffer args 0 (pieces s)) :
    ∃ r, Expanded m fmt buffer args s r := by
  rcases doprnt_prints m fmt buffer args s hs hapart hplain hgiven with ⟨r, hrun, hout, hargp⟩
  refine ⟨r, hrun, hout, hargp, ?_⟩
  intro s1 s2 fmt1 fmt2 hsplit hwhole hs1 hapart1 hs2 hapart2
  subst hsplit
  rw [pieces_append s1 s2 hwhole, stringsGiven_append, Nat.zero_add] at hgiven
  rcases doprnt_prints m fmt1 buffer args s1 hs1 hapart1
    (fun hc => hplain (hc.trans (List.prefix_append s1 s2).isInfix)) hgiven.1 with
    ⟨r1, hrun1, hout1, hargp1⟩
  -- The second part takes the arguments behind those of the first.
  rcases doprnt_prints m fmt2 buffer (fun k => args (r1.argp + k)) s2 hs2 hapart2
    (fun hc => hplain (hc.trans (List.suffix_append s1 s2).isInfix))
    ((stringsGiven_shift _ _ _ _ _ _).mpr (hargp1 ▸ hgiven.2)) with ⟨r2, hrun2, hout2, hargp2⟩
  refine ⟨r1, r2, hrun1, hrun2, ?_, ?_⟩
  · rw [hout, pieces_append s1 s2 hwhole, expand_append, hout1, hout2, expand_shift, hargp1,
      Nat.zero_add, Nat.add_zero]
  · rw [hargp, pieces_append s1 s2 hwhole, arguments_append, hargp1, hargp2]

end Format

/-- The format `%s` with the string `a`. -/
theorem doprnt_expanded_string :
    ∃ r, Expanded (memOf [37, 115, 0, 97, 0]) 0 0x1000 (fun _ => 3) [37, 115] r :=
  doprnt_expanded (memOf [37, 115, 0, 97, 0]) 0 0x1000 (fun _ => 3) [37, 115]
    ⟨by decide, rfl, rfl, rfl, trivial⟩ (by unfold Apart; decide) (by decide)
    ⟨fun _ => ⟨[97], ⟨by decide, rfl, rfl, trivial⟩, by unfold Apart; decide⟩, trivial⟩

/-- The format `%lx`, which is all there. -/
theorem readsWithin_iff_long :
    ReadsWithin (memOf [37, 108, 120, 0]) 0 0x1000 (fun _ => 7) [37, 108, 120] ↔
      Piece.cut ∉ pieces [37, 108, 120] :=
  readsWithin_iff (memOf [37, 108, 120, 0]) 0 0x1000 (fun _ => 7) [37, 108, 120]
    ⟨by decide, rfl, rfl, rfl, rfl, trivial⟩ (by unfold Apart; decide)

/-- The formats `%l` and `%ll`. -/
theorem not_readsWithin :
    ¬ ReadsWithin (memOf [37, 108, 0]) 0 0x1000 (fun _ => 7) [37, 108] ∧
      ¬ ReadsWithin (memOf [37, 108, 108, 0]) 0 0x1000 (fun _ => 7) [37, 108, 108] :=
  ⟨not_readsWithin_of_cut _ 0 0x1000 _ _ ⟨by decide, rfl, rfl, rfl, trivial⟩
      (by unfold Apart; decide) (by decide),
    not_readsWithin_of_cut _ 0 0x1000 _ _ ⟨by decide, rfl, rfl, rfl, rfl, trivial⟩
      (by unfold Apart; decide) (by decide)⟩

end UnixP6
