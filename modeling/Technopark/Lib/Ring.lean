/-
A list laid out in a ring of cells.

The list starts at cell `h` and wraps once at the end of the ring.  One cell always
stays free, so that a full ring and an empty one have different ends: the list is
shorter than the ring.
-/
import Mathlib.Data.List.Basic

namespace Technopark.Ring

variable {α : Type} {n h i : Nat}

/-- The cell `i` places after `h`. -/
def slot (n h i : Nat) : Nat := if h + i < n then h + i else h + i - n

/-- One place further, back to zero at the end. -/
def advance (n h : Nat) : Nat := if h + 1 = n then 0 else h + 1

theorem slot_zero (hh : h < n) : slot n h 0 = h := by
  unfold slot
  split <;> omega

theorem slot_lt (hh : h < n) (hi : i ≤ n) : slot n h i < n := by
  unfold slot
  split <;> omega

theorem slot_eq_mod (hh : h < n) (hi : i < n) : slot n h i = (h + i) % n := by
  unfold slot
  split
  · rename_i hlt
    exact (Nat.mod_eq_of_lt hlt).symm
  · rename_i hge
    rw [Nat.mod_eq_sub_mod (Nat.not_lt.mp hge), Nat.mod_eq_of_lt (by omega)]

theorem slot_injective {j : Nat} (hi : i < n) (hj : j < n) (heq : slot n h i = slot n h j) :
    i = j := by
  unfold slot at heq
  split at heq <;> split at heq <;> omega

theorem advance_lt (hh : h < n) : advance n h < n := by
  unfold advance
  split <;> omega

theorem advance_slot (hh : h < n) (hi : i < n) : advance n (slot n h i) = slot n h (i + 1) := by
  unfold advance slot
  split <;> split <;> split <;> omega

theorem slot_advance (hi : i < n) : slot n (advance n h) i = slot n h (i + 1) := by
  unfold advance slot
  split <;> split <;> split <;> omega

/-- The end meets the start again exactly after a whole turn. -/
theorem slot_eq_start_iff (hh : h < n) (hi : i ≤ n) : slot n h i = h ↔ i = 0 ∨ i = n := by
  unfold slot
  split <;> omega

/-- The cells from `h` on hold `xs`, and at least one cell is free. -/
structure Spells (n : Nat) (cells : List α) (h : Nat) (xs : List α) : Prop where
  size : cells.length = n
  start : h < n
  free : xs.length < n
  cell : ∀ i (hi : i < xs.length), cells[slot n h i]? = some xs[i]

namespace Spells

variable {cells xs : List α} {x : α}

theorem nil (hsize : cells.length = n) (hh : h < n) : Spells n cells h [] :=
  ⟨hsize, hh, by rw [List.length_nil]; omega, fun i hi => absurd hi (Nat.not_lt_zero i)⟩

/-- Writing at the end appends, as long as a cell stays free. -/
theorem push (s : Spells n cells h xs) (hroom : xs.length + 1 < n) (x : α) :
    Spells n (cells.set (slot n h xs.length) x) h (xs ++ [x]) := by
  refine ⟨by rw [List.length_set]; exact s.size, s.start, by simpa using hroom, ?_⟩
  intro i hi
  by_cases hlast : i = xs.length
  · subst hlast
    have hlt : slot n h xs.length < cells.length := by
      rw [s.size]
      exact slot_lt s.start (by omega)
    simp [hlt]
  · have hlt : i < xs.length := by
      rw [List.length_append, List.length_singleton] at hi
      omega
    have hne : slot n h xs.length ≠ slot n h i := fun heq =>
      hlast (slot_injective (by omega) (by omega) heq).symm
    rw [List.getElem?_set_ne hne, s.cell i hlt, List.getElem_append_left hlt]

/-- Moving the start drops the first element. -/
theorem pop (s : Spells n cells h (x :: xs)) : Spells n cells (advance n h) xs := by
  have hfree := s.free
  rw [List.length_cons] at hfree
  refine ⟨s.size, advance_lt s.start, by omega, ?_⟩
  intro i hi
  rw [slot_advance (by omega), s.cell (i + 1) (by simpa using hi)]
  rfl

theorem first (s : Spells n cells h (x :: xs)) : cells[h]? = some x := by
  have hcell := s.cell 0 (by simp)
  rw [slot_zero s.start] at hcell
  exact hcell

theorem last (s : Spells n cells h (xs ++ [x])) : cells[slot n h xs.length]? = some x := by
  have hcell := s.cell xs.length (by simp)
  rw [List.getElem_concat_length rfl] at hcell
  exact hcell

end Spells

end Technopark.Ring
