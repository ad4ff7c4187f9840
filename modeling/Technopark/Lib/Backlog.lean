/-
A server that answers one request per turn.

In every turn some requests arrive and at most one waiting request is answered.  The
backlog after a turn is what waited before plus what arrived, less one if there was
anything.  The server has caught up at the end exactly when no run of last turns brought
more requests than it has turns: such a run would have kept the server busy in every turn
and still left something over.
-/
import Mathlib.Algebra.Ring.Nat

namespace Technopark

/-- What still waits after the turns, `waiting` requests having waited before them. -/
def backlog (waiting : Nat) (arrivals : List Nat) : Nat :=
  arrivals.foldl (fun waiting arriving => waiting + arriving - 1) waiting

/-- No final run of turns brought more requests than it has turns. -/
def KeepsUp (arrivals : List Nat) : Prop :=
  ∀ before after, arrivals = before ++ after → after.sum ≤ after.length

theorem KeepsUp.nil : KeepsUp [] := by
  intro before after h
  obtain ⟨-, rfl⟩ := List.append_eq_nil_iff.mp h.symm
  exact Nat.le_refl 0

theorem keepsUp_cons {arriving : Nat} {arrivals : List Nat} :
    KeepsUp (arriving :: arrivals) ↔
      arriving + arrivals.sum ≤ arrivals.length + 1 ∧ KeepsUp arrivals := by
  constructor
  · intro h
    refine ⟨by simpa using h [] _ rfl, ?_⟩
    intro before after heq
    exact h (arriving :: before) after (by rw [heq]; rfl)
  · intro h before after heq
    obtain ⟨hall, hrest⟩ := h
    cases before with
    | nil =>
        rw [List.nil_append] at heq
        subst heq
        simpa using hall
    | cons first before =>
        injection heq with _ heq
        exact hrest before after heq

theorem backlog_eq_zero_iff (arrivals : List Nat) :
    ∀ waiting, backlog waiting arrivals = 0 ↔
      waiting + arrivals.sum ≤ arrivals.length ∧ KeepsUp arrivals := by
  induction arrivals with
  | nil =>
      intro waiting
      simp [backlog, KeepsUp.nil]
  | cons arriving arrivals ih =>
      intro waiting
      have hsuffix : KeepsUp arrivals → arrivals.sum ≤ arrivals.length := fun h => h [] _ rfl
      have hstep : backlog waiting (arriving :: arrivals)
          = backlog (waiting + arriving - 1) arrivals := rfl
      rw [hstep, ih, keepsUp_cons, List.sum_cons, List.length_cons]
      -- a turn with nothing to answer is the only one in which the subtraction is cut off
      constructor
      · intro h
        exact ⟨by omega, by omega, h.2⟩
      · intro h
        have := hsuffix h.2.2
        exact ⟨by omega, h.2.2⟩

/-- **The server catches up exactly when it keeps up with every final run of turns.** -/
theorem caught_up_iff (arrivals : List Nat) : backlog 0 arrivals = 0 ↔ KeepsUp arrivals := by
  rw [backlog_eq_zero_iff, Nat.zero_add]
  exact ⟨fun h => h.2, fun h => ⟨h [] _ rfl, h⟩⟩

end Technopark
