import UnixP6.Theory.Tools.Numbers

/-!
# The Pieces of a Format

What a format asks to be printed, apart from how `__doprnt` goes about it. From
left to right a format falls into pieces: characters, conversions, and the
directives that begin with `%l`, for which nothing is converted. A directive of
that kind takes one more character and can be cut off by the end of the format.
No other can: a `%` at the end is a character.

Each piece has its text, given the argument it would take, and the expansion of
a format hands the arguments out in order.

## Main definitions

* `Piece`: What a format is made of.
* `pieces`: The pieces of a format.
* `Piece.text`: What is printed for a piece.
* `arguments`, `expand`: How many arguments pieces take, and their texts.
* `StringsGiven`: The arguments that are printed as strings are strings.

## Theorems

* `pieces_append`: A format is split between two directives as its pieces are.
* `expand_append`: So is its expansion.
* `pieces_plain`: Without `%l` there are characters and conversions only.
-/

namespace UnixP6

open CSemantics

/-- A piece of a format: a character that stands for itself, a `%` with the
    character behind it, a `%l` or a `%ll` with the one behind that, or one of
    these two without. -/
inductive Piece where
  | char (c : Byte)
  | convert (c : Byte)
  | long
  | longLong
  | cut
deriving Repr, DecidableEq

/-- Where in a directive a format is being read. -/
inductive Reading where
  | text
  | percent
  | l
  | ll
deriving Repr, DecidableEq

/-- The pieces of the rest of a format. -/
def piecesFrom : Reading → List Byte → List Piece
  | .text, [] => []
  | .text, c :: rest =>
    if c = 37 then piecesFrom .percent rest else .char c :: piecesFrom .text rest
  | .percent, [] => [.char 37]
  | .percent, c :: rest =>
    if c = 108 then piecesFrom .l rest else .convert c :: piecesFrom .text rest
  | .l, [] => [.cut]
  | .l, c :: rest => if c = 108 then piecesFrom .ll rest else .long :: piecesFrom .text rest
  | .ll, [] => [.cut]
  | .ll, _ :: rest => .longLong :: piecesFrom .text rest

/-- The pieces of a format. -/
def pieces (s : List Byte) : List Piece := piecesFrom .text s

/-- The conversions, each of which takes an argument: `s`, `c`, `i`, `d`, `u`, `p`,
    `X` and `x`. -/
def conversions : List Byte := [115, 99, 105, 100, 117, 112, 88, 120]

/-- The arguments a piece takes. -/
def Piece.takes : Piece → Nat
  | .convert c => if c ∈ conversions then 1 else 0
  | _ => 0

/-- The string at an address, up to its terminator. -/
def stringAt (m : Mem) (a : Word) : List Byte := readString m (2 ^ 32) a

/-- The text printed for a piece, given an argument: a string, a byte, or the text
    of `int_to_str` or `uint_to_str`. -/
def Piece.text (m : Mem) (arg : Word) : Piece → List Byte
  | .char c => [c]
  | .convert c =>
    if c = 115 then stringAt m arg
    else if c = 99 then [arg.setWidth 8]
    else if c = 105 ∨ c = 100 then intText 10 arg
    else if c = 117 then numeralText 10 arg.toNat
    else if c = 112 ∨ c = 88 ∨ c = 120 then numeralText 16 arg.toNat
    else [c]
  | _ => []

/-- The arguments that pieces take. -/
def arguments (ps : List Piece) : Nat := (ps.map Piece.takes).sum

/-- The texts of pieces one after another, the arguments from the given one on. -/
def expand (m : Mem) (args : Nat → Word) : Nat → List Piece → List Byte
  | _, [] => []
  | k, p :: ps => p.text m (args k) ++ expand m args (k + p.takes) ps

/-- The arguments for `%s` are strings apart from the buffer. -/
def StringsGiven (m : Mem) (buffer : Word) (args : Nat → Word) : Nat → List Piece → Prop
  | _, [] => True
  | k, p :: ps =>
    (p = .convert 115 → ∃ t, CString m (args k) t ∧ Apart buffer 32 (args k) (t.length + 1)) ∧
      StringsGiven m buffer args (k + p.takes) ps

/-- A piece that is not of a directive with `l`. -/
def Piece.Plain : Piece → Prop
  | .char _ => True
  | .convert c => c ≠ 108
  | _ => False

/-- A format that ends with a directive rather than in one. -/
def Whole (s : List Byte) : Prop := Piece.char 37 ∉ pieces s ∧ Piece.cut ∉ pieces s

/-- A directive read halfway leaves a piece that tells of it. -/
theorem piecesFrom_append (s t : List Byte) (r : Reading) (hlone : Piece.char 37 ∉ piecesFrom r s)
    (hcut : Piece.cut ∉ piecesFrom r s) : piecesFrom r (s ++ t) = piecesFrom r s ++ pieces t := by
  induction s generalizing r with
  | nil =>
      cases r with
      | text => rfl
      | percent => exact absurd List.mem_cons_self hlone
      | l => exact absurd List.mem_cons_self hcut
      | ll => exact absurd List.mem_cons_self hcut
  | cons c s ih =>
      -- A piece in front of others that do not tell of such a directive.
      have hcons : ∀ p, Piece.char 37 ∉ p :: piecesFrom .text s →
          Piece.cut ∉ p :: piecesFrom .text s →
            p :: piecesFrom .text (s ++ t) = p :: piecesFrom .text s ++ pieces t := by
        intro p hlone hcut
        rw [ih .text (fun hmem => hlone (List.mem_cons_of_mem _ hmem))
          (fun hmem => hcut (List.mem_cons_of_mem _ hmem))]
        rfl
      cases r with
      | text =>
          simp only [List.cons_append, piecesFrom] at hlone hcut ⊢
          split_ifs at hlone hcut ⊢
          · exact ih .percent hlone hcut
          · exact hcons _ hlone hcut
      | percent =>
          simp only [List.cons_append, piecesFrom] at hlone hcut ⊢
          split_ifs at hlone hcut ⊢
          · exact ih .l hlone hcut
          · exact hcons _ hlone hcut
      | l =>
          simp only [List.cons_append, piecesFrom] at hlone hcut ⊢
          split_ifs at hlone hcut ⊢
          · exact ih .ll hlone hcut
          · exact hcons _ hlone hcut
      | ll =>
          simp only [List.cons_append, piecesFrom] at hlone hcut ⊢
          exact hcons _ hlone hcut

/-- A format is split between two directives as its pieces are. -/
theorem pieces_append (s t : List Byte) (h : Whole s) : pieces (s ++ t) = pieces s ++ pieces t :=
  piecesFrom_append s t .text h.1 h.2

theorem arguments_append (ps qs : List Piece) :
    arguments (ps ++ qs) = arguments ps + arguments qs := by
  unfold arguments
  rw [List.map_append, List.sum_append]

theorem arguments_cons (p : Piece) (ps : List Piece) :
    arguments (p :: ps) = p.takes + arguments ps := by
  unfold arguments
  rw [List.map_cons, List.sum_cons]

/-- The expansion of the pieces behind others starts with the argument that these
    leave. -/
theorem expand_append (m : Mem) (args : Nat → Word) (k : Nat) (ps qs : List Piece) :
    expand m args k (ps ++ qs) = expand m args k ps ++ expand m args (k + arguments ps) qs := by
  induction ps generalizing k with
  | nil => rfl
  | cons p ps ih =>
      rw [List.cons_append, expand, expand, ih, List.append_assoc, arguments_cons, Nat.add_assoc]

theorem stringsGiven_append (m : Mem) (buffer : Word) (args : Nat → Word) (k : Nat)
    (ps qs : List Piece) : StringsGiven m buffer args k (ps ++ qs) ↔
      StringsGiven m buffer args k ps ∧ StringsGiven m buffer args (k + arguments ps) qs := by
  induction ps generalizing k with
  | nil => exact ⟨fun h => ⟨trivial, h⟩, fun h => h.2⟩
  | cons p ps ih =>
      rw [List.cons_append, StringsGiven, StringsGiven, ih, arguments_cons, Nat.add_assoc,
        and_assoc]

/-- Arguments counted from a later one on. -/
theorem expand_shift (m : Mem) (args : Nat → Word) (j k : Nat) (ps : List Piece) :
    expand m (fun i => args (j + i)) k ps = expand m args (j + k) ps := by
  induction ps generalizing k with
  | nil => rfl
  | cons p ps ih => rw [expand, expand, ih, Nat.add_assoc]

theorem stringsGiven_shift (m : Mem) (buffer : Word) (args : Nat → Word) (j k : Nat)
    (ps : List Piece) : StringsGiven m buffer (fun i => args (j + i)) k ps ↔
      StringsGiven m buffer args (j + k) ps := by
  induction ps generalizing k with
  | nil => exact Iff.rfl
  | cons p ps ih => rw [StringsGiven, StringsGiven, ih, Nat.add_assoc]

/-- In a format where no `%` is followed by `l` no directive with `l` is read. -/
theorem piecesFrom_plain (s : List Byte) (h : ¬ [37, 108] <:+: s) :
    (∀ p ∈ piecesFrom .text s, p.Plain) ∧
      (s.head? ≠ some 108 → ∀ p ∈ piecesFrom .percent s, p.Plain) := by
  induction s with
  | nil =>
      refine ⟨fun p hp => absurd hp List.not_mem_nil, fun _ p hp => ?_⟩
      rw [piecesFrom, List.mem_singleton] at hp
      rw [hp]
      trivial
  | cons c s ih =>
      have htail : ¬ [37, 108] <:+: s := fun hc => h (hc.trans (List.suffix_cons c s).isInfix)
      rcases ih htail with ⟨htext, hpercent⟩
      constructor
      · intro p hp
        rw [piecesFrom] at hp
        by_cases hc : c = 37
        · rw [if_pos hc] at hp
          refine hpercent (fun hhead => h ?_) p hp
          rcases List.head?_eq_some_iff.mp hhead with ⟨rest, rfl⟩
          rw [hc]
          exact (List.prefix_append [37, 108] rest).isInfix
        · rw [if_neg hc, List.mem_cons] at hp
          rcases hp with rfl | hp
          · trivial
          · exact htext p hp
      · intro hhead p hp
        have hc : c ≠ 108 := fun hc => hhead (by rw [hc, List.head?_cons])
        rw [piecesFrom, if_neg hc, List.mem_cons] at hp
        rcases hp with rfl | hp
        · exact hc
        · exact htext p hp

theorem pieces_plain (s : List Byte) (h : ¬ [37, 108] <:+: s) : ∀ p ∈ pieces s, p.Plain :=
  (piecesFrom_plain s h).1

/-- Two conversions, the second of them with the second argument. -/
example : expand (memOf []) (fun k => BitVec.ofNat 32 (k + 4)) 0 (pieces [37, 100, 58, 37, 120])
    = [52, 58, 53] := by decide

end UnixP6
