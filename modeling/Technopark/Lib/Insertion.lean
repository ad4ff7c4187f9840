/-
Insertion by exchanges.

As in `Lib/HeapOrder.lean` the order is stated of a function `a` on positions.  An element
that is inserted into an ordered prefix moves down from the end of it, and at every step it
changes places with the element before it.  `Inserting` is what stays true while it is at
position `hole`: the other elements of the prefix are in order, and those it has passed are
not below it.

The element may as well be held outside of the array until its place is found, since the
array with the element written to the hole goes through the same exchanges.
-/
import Technopark.Lib.HeapOrder

namespace Technopark.Insertion

open HeapOrder

variable {α : Type} [Preorder α] {n hole : Nat} {a b : Nat → α}

/-- The first `n` positions are in order. -/
def OrderedTo (n : Nat) (a : Nat → α) : Prop := ∀ i j, i < j → j < n → a i ≤ a j

/-- What holds while the element at `hole` moves down. -/
structure Inserting (n : Nat) (a : Nat → α) (hole : Nat) : Prop where
  others : ∀ i j, i < j → j < n → i ≠ hole → j ≠ hole → a i ≤ a j
  passed : ∀ j, hole < j → j < n → a hole ≤ a j

/-- The first element behind an ordered prefix can be inserted into it. -/
theorem Inserting.start (h : OrderedTo n a) : Inserting (n + 1) a n := by
  refine ⟨?_, ?_⟩
  · intro i j hij hj _ hne
    exact h i j hij (by omega)
  · intro j hlt hj
    omega

/-- An element below the one before it changes places with it. -/
theorem Inserting.exchange (h : Inserting n a (hole + 1)) (hn : hole + 1 < n)
    (hle : a (hole + 1) ≤ a hole) (hex : Exchanged (hole + 1) hole a b) :
    Inserting n b hole := by
  refine ⟨?_, ?_⟩
  · intro i j hij hj hi hne
    by_cases hi' : i = hole + 1
    · -- the element that was passed, against one further up
      subst hi'
      rw [hex.left, hex.rest j (by omega) hne]
      exact h.others hole j (by omega) hj (by omega) (by omega)
    · rw [hex.rest i hi' hi]
      by_cases hj' : j = hole + 1
      · subst hj'
        rw [hex.left]
        exact h.others i hole (by omega) (by omega) hi' (by omega)
      · rw [hex.rest j hj' hne]
        exact h.others i j hij hj hi' hj'
  · intro j hlt hj
    rw [hex.right]
    by_cases hj' : j = hole + 1
    · rw [hj', hex.left]
      exact hle
    · rw [hex.rest j hj' (by omega)]
      exact h.passed j (by omega) hj

/-- An element that is not below the one before it has found its place. -/
theorem Inserting.stop (h : Inserting n a hole) (hstop : 0 < hole → a (hole - 1) ≤ a hole) :
    OrderedTo n a := by
  intro i j hij hj
  by_cases hi : i = hole
  · subst hi
    exact h.passed j hij hj
  · by_cases hj' : j = hole
    · subst hj'
      have hbefore := hstop (by omega)
      by_cases hi' : i = j - 1
      · rw [hi']
        exact hbefore
      · exact le_trans (h.others i (j - 1) (by omega) (by omega) hi (by omega)) hbefore
    · exact h.others i j hij hj hi hj'

end Technopark.Insertion
