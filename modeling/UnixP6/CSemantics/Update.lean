import Mathlib.Logic.Function.Basic
import UnixP6.CSemantics.Run

/-!
# Reading and Writing Back

A cell is updated by reading it and writing back what is made of the value. An
update may be interrupted by others at any point, and each of these is over
before what it has interrupted goes on. So the updates that have begun are a
stack.

An update that has read its cell will write over everything that is written
there in between. What counts is the value that the outermost of these updates
has read, `settled`. An update changes it only if no update around it has read
the cell before, and those are the ones that `standing` collects.

## Main definitions

* `Cells`: The values, and the updates that have begun.
* `UpdateEvent`, `UpdateStep`: Beginning an update, reading, and writing back.
* `standing`: The updates that are not written over.
* `settled`: The value that counts.

## Theorems

* `mem_standing`: Only updates that have begun can stand.
* `settled_write`: What writing back does to it.
* `run_settled`: The value that counts after any run.
* `run_cells`: Once every update is over, each cell has seen those that stand.
-/

namespace CSemantics

/-- An update that has begun, with the value it has read. -/
structure Begun (β α : Type) where
  update : β
  read : Option α

/-- The values of the cells, and the updates that have begun, the last one
    first. -/
structure Cells (ι β α : Type) where
  value : ι → α
  begun : List (Begun β α)

/-- What happens: an update begins, or the last one that has begun reads or writes
    back. -/
inductive UpdateEvent (β : Type)
  | start (u : β)
  | read
  | write
deriving DecidableEq

variable {ι β α : Type} [DecidableEq ι]

/-- The updates, given the cell that each is about and what it makes of the
    value. -/
inductive UpdateStep (cell : β → ι) (change : β → α → α) :
    Cells ι β α → UpdateEvent β → Cells ι β α → Prop
  | start (s : Cells ι β α) (u : β) :
      UpdateStep cell change s (.start u) { s with begun := ⟨u, none⟩ :: s.begun }
  | read (s : Cells ι β α) (u : β) (rest : List (Begun β α)) (h : s.begun = ⟨u, none⟩ :: rest) :
      UpdateStep cell change s .read { s with begun := ⟨u, some (s.value (cell u))⟩ :: rest }
  | write (s : Cells ι β α) (u : β) (v : α) (rest : List (Begun β α))
      (h : s.begun = ⟨u, some v⟩ :: rest) :
      UpdateStep cell change s .write
        { value := Function.update s.value (cell u) (change u v), begun := rest }

/-- One of the updates has read the cell. -/
def Covered (cell : β → ι) (us : List (β × Bool)) (i : ι) : Prop :=
  ∃ u ∈ us, cell u.1 = i ∧ u.2 = true

instance (cell : β → ι) (us : List (β × Bool)) (i : ι) : Decidable (Covered cell us i) :=
  inferInstanceAs (Decidable (∃ u ∈ us, _))

/-- The updates that are written back while none around them has read their cell,
    given which have begun and whether they have read. -/
def standing (cell : β → ι) : List (β × Bool) → List (UpdateEvent β) → List β
  | _, [] => []
  | us, .start u :: events => standing cell ((u, false) :: us) events
  | [], .read :: events => standing cell [] events
  | (u, _) :: us, .read :: events => standing cell ((u, true) :: us) events
  | [], .write :: events => standing cell [] events
  | (u, _) :: us, .write :: events =>
    (if Covered cell us (cell u) then [] else [u]) ++ standing cell us events

/-- Only updates that have begun can stand. -/
theorem mem_standing (cell : β → ι) (u : β) (events : List (UpdateEvent β)) :
    ∀ us, u ∈ standing cell us events → u ∈ us.map Prod.fst ∨ .start u ∈ events := by
  induction events with
  | nil => exact fun us h => absurd h List.not_mem_nil
  | cons e events ih =>
      have hlater : ∀ us, u ∈ standing cell us events →
          u ∈ us.map Prod.fst ∨ .start u ∈ e :: events := fun us h =>
        (ih us h).imp id (List.mem_cons_of_mem _)
      intro us h
      cases e with
      | start v =>
          rcases hlater _ h with hopen | hstart
          · rw [List.map_cons, List.mem_cons] at hopen
            exact hopen.elim (fun hv => Or.inr (hv ▸ List.mem_cons_self)) Or.inl
          · exact Or.inr hstart
      | read =>
          cases us with
          | nil => exact hlater [] h
          | cons v us => exact hlater ((v.1, true) :: us) h
      | write =>
          cases us with
          | nil => exact hlater [] h
          | cons v us =>
              rcases List.mem_append.mp h with hthis | hrest
              · -- The update itself, if it is not covered.
                by_cases hcovered : Covered cell us (cell v.1)
                · rw [if_pos hcovered] at hthis
                  exact absurd hthis List.not_mem_nil
                · rw [if_neg hcovered, List.mem_singleton] at hthis
                  exact Or.inl (hthis ▸ List.mem_cons_self)
              · exact (hlater us hrest).imp (List.mem_cons_of_mem _) id

section Settled

variable (cell : β → ι) (change : β → α → α)

/-- What an observer of the events knows of the updates. -/
def seen (begun : List (Begun β α)) : List (β × Bool) :=
  begun.map fun b => (b.update, b.read.isSome)

/-- The value that counts: what the outermost update has read, if one has. -/
def settled (i : ι) (begun : List (Begun β α)) (v : α) : α :=
  begun.foldl (fun v b => if cell b.update = i then b.read.getD v else v) v

theorem settled_of_not_covered (i : ι) (begun : List (Begun β α)) (v : α)
    (h : ¬ Covered cell (seen begun) i) : settled cell i begun v = v := by
  unfold settled
  induction begun with
  | nil => rfl
  | cons b begun ih =>
      have hrest : ¬ Covered cell (seen begun) i :=
        fun ⟨u, hu, hread⟩ => h ⟨u, List.mem_cons_of_mem _ hu, hread⟩
      rw [List.foldl_cons]
      by_cases hcell : cell b.update = i
      · cases hread : b.read with
        | none => rw [if_pos hcell, Option.getD_none, ih hrest]
        | some w => exact absurd ⟨_, List.mem_cons_self, hcell, Option.isSome_iff_exists.mpr ⟨w, hread⟩⟩ h
      · rw [if_neg hcell, ih hrest]

/-- Under an update that has read the cell its value does not count. -/
theorem settled_of_covered (i : ι) (begun : List (Begun β α)) (h : Covered cell (seen begun) i) :
    ∀ v w, settled cell i begun v = settled cell i begun w := by
  unfold settled
  induction begun with
  | nil => exact absurd h fun ⟨_, hu, _⟩ => List.not_mem_nil hu
  | cons b begun ih =>
      intro v w
      rw [List.foldl_cons, List.foldl_cons]
      by_cases hfirst : cell b.update = i ∧ b.read.isSome
      · rcases Option.isSome_iff_exists.mp hfirst.2 with ⟨x, hx⟩
        rw [if_pos hfirst.1, if_pos hfirst.1, hx, Option.getD_some, Option.getD_some]
      · refine ih ?_ _ _
        rcases h with ⟨u, hu, hread⟩
        rcases List.mem_cons.mp hu with hb | hu
        · rw [hb] at hread
          exact absurd hread hfirst
        · exact ⟨u, hu, hread⟩

/-- Writing back changes the value that counts, if the update is not covered. -/
theorem settled_write (value : ι → α) (u : β) (v : α) (rest : List (Begun β α)) (i : ι) :
    settled cell i rest (Function.update value (cell u) (change u v) i)
      = if cell u = i ∧ ¬ Covered cell (seen rest) (cell u)
        then change u (settled cell i (⟨u, some v⟩ :: rest) (value i))
        else settled cell i (⟨u, some v⟩ :: rest) (value i) := by
  have hfirst : settled cell i (⟨u, some v⟩ :: rest) (value i)
      = settled cell i rest (if cell u = i then v else value i) := rfl
  rw [hfirst]
  by_cases hcell : cell u = i
  · rw [hcell, Function.update_self, if_pos rfl]
    by_cases hcovered : Covered cell (seen rest) i
    · rw [if_neg fun h => h.2 hcovered]
      exact settled_of_covered cell i rest hcovered _ _
    · rw [if_pos ⟨rfl, hcovered⟩, settled_of_not_covered cell i rest _ hcovered,
        settled_of_not_covered cell i rest _ hcovered]
  · rw [if_neg fun h => hcell h.1, if_neg hcell, Function.update_of_ne (Ne.symm hcell)]

/-- The value that counts after any run, whatever had begun before it. -/
theorem run_settled (s t : Cells ι β α) (events : List (UpdateEvent β))
    (h : Run (UpdateStep cell change) s events t) (i : ι) :
    settled cell i t.begun (t.value i)
      = ((standing cell (seen s.begun) events).filter fun u => cell u = i).foldl
          (fun v u => change u v) (settled cell i s.begun (s.value i)) := by
  induction h with
  | nil s => rfl
  | cons s r t e events hstep _ ih =>
      rw [ih]
      cases hstep with
      | start u =>
          have hsame : settled cell i (⟨u, none⟩ :: s.begun) (s.value i)
              = settled cell i s.begun (s.value i) := by
            unfold settled
            rw [List.foldl_cons, Option.getD_none, ite_self]
          rw [hsame]
          rfl
      | read u rest hbegun =>
          -- The value that is read is the one there is.
          have hsame : settled cell i (⟨u, some (s.value (cell u))⟩ :: rest) (s.value i)
              = settled cell i s.begun (s.value i) := by
            unfold settled
            rw [hbegun, List.foldl_cons, List.foldl_cons, Option.getD_none, ite_self]
            by_cases hcell : cell u = i
            · rw [if_pos hcell, Option.getD_some, hcell]
            · rw [if_neg hcell]
          rw [hsame, hbegun]
          rfl
      | write u v rest hbegun =>
          rw [settled_write, hbegun]
          have hstanding : standing cell (seen (⟨u, some v⟩ :: rest)) (.write :: events)
              = (if Covered cell (seen rest) (cell u) then [] else [u])
                ++ standing cell (seen rest) events := rfl
          rw [hstanding, List.filter_append, List.foldl_append]
          congr 1
          by_cases hcovered : Covered cell (seen rest) (cell u)
          · rw [if_pos hcovered, if_neg fun h => h.2 hcovered]
            rfl
          · rw [if_neg hcovered]
            by_cases hcell : cell u = i
            · have hone : [u].filter (fun w => cell w = i) = [u] :=
                List.filter_eq_self.mpr fun w hw => by
                  rw [List.mem_singleton.mp hw]
                  exact decide_eq_true hcell
              rw [if_pos ⟨hcell, hcovered⟩, hone]
              rfl
            · have hnone : [u].filter (fun w => cell w = i) = [] :=
                List.filter_eq_nil_iff.mpr fun w hw => by
                  rw [List.mem_singleton.mp hw, decide_eq_true_eq]
                  exact hcell
              rw [if_neg fun h => hcell h.1, hnone]
              rfl

/-- Once every update is over, each cell has seen the updates that stand, one
    after the other. -/
theorem run_cells (s t : Cells ι β α) (events : List (UpdateEvent β))
    (h : Run (UpdateStep cell change) s events t) (hs : s.begun = []) (ht : t.begun = []) (i : ι) :
    t.value i = ((standing cell [] events).filter fun u => cell u = i).foldl
      (fun v u => change u v) (s.value i) := by
  have hrun := run_settled cell change s t events h i
  rw [hs, ht] at hrun
  exact hrun

end Settled

end CSemantics
