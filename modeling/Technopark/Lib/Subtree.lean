/-
The subtree below a position of a level-order tree.

A sift that starts in the middle of a tree is judged by the subtree it starts at: whether
that subtree is in order, what is in it, and that nothing else has changed.  The elements
are counted in a multiset, and a rearrangement of all positions that keeps the ones outside
the subtree is a rearrangement of the subtree.
-/
import Mathlib.Data.Multiset.Range
import Mathlib.Data.Multiset.Filter
import Mathlib.Order.Bounds.Defs
import Technopark.Lib.HeapOrder

namespace Technopark.HeapOrder

variable {α : Type} {n i j : Nat} {a b : Nat → α}

/-- The positions of the subtree rooted at `i`. -/
def subtree (i : Nat) : Set Nat := {j | Below i j}

theorem Below.le (h : Below i j) : i ≤ j := by
  induction h with
  | root => exact Nat.le_refl _
  | child hpos _ ih => exact Nat.le_trans ih (Nat.le_of_lt (parent_lt hpos))

/-- Whether at most `fuel` steps up from `j` lead to `i`. -/
def climbs (i : Nat) : Nat → Nat → Bool
  | 0, j => j == i
  | fuel + 1, j => j == i || (0 < j && climbs i fuel (parent j))

theorem climbs_iff {fuel : Nat} : ∀ {j : Nat}, j ≤ fuel → (climbs i fuel j = true ↔ Below i j) := by
  induction fuel with
  | zero =>
      intro j hj
      obtain rfl := Nat.le_zero.mp hj
      constructor
      · intro hclimbs
        rw [beq_iff_eq.mp hclimbs]
        exact Below.root
      · intro h
        exact beq_iff_eq.mpr (Nat.le_zero.mp h.le).symm
  | succ fuel ih =>
      intro j hj
      rw [climbs, Bool.or_eq_true, beq_iff_eq, Bool.and_eq_true, decide_eq_true_eq]
      constructor
      · rintro (rfl | ⟨hpos, hclimbs⟩)
        · exact Below.root
        · have hup := parent_lt hpos
          exact Below.child hpos ((ih (by omega)).mp hclimbs)
      · intro h
        cases h with
        | root => exact .inl rfl
        | child hpos h =>
            have hup := parent_lt hpos
            exact .inr ⟨hpos, (ih (by omega)).mpr h⟩

instance : DecidablePred (· ∈ subtree i) :=
  fun j => decidable_of_iff (climbs i j j = true) (climbs_iff (Nat.le_refl j))

theorem subtree_childClosed (i : Nat) : ChildClosed (subtree i) :=
  fun _ hpos h => Below.child hpos h

/-- A position of the subtree is its root or below one of the two children. -/
theorem Below.eq_or_child (h : Below i j) : j = i ∨ Below (2 * i + 1) j ∨ Below (2 * i + 2) j := by
  induction h with
  | root => exact .inl rfl
  | @child j hpos _ ih =>
      rcases ih with heq | hleft | hright
      · rcases (parent_eq_iff hpos).mp heq with rfl | rfl
        · exact .inr (.inl Below.root)
        · exact .inr (.inr Below.root)
      · exact .inr (.inl (Below.child hpos hleft))
      · exact .inr (.inr (Below.child hpos hright))

/-- With both subtrees of its children in order, the root may sink. -/
theorem sinking_subtree [Preorder α] (hleft : HeapOn (subtree (2 * i + 1)) n a)
    (hright : HeapOn (subtree (2 * i + 2)) n a) : Sinking (subtree i) n a i := by
  refine Sinking.start ?_ ?_
  · intro j hpos hj hmem hne
    rcases Below.eq_or_child hmem with heq | hbelow | hbelow
    · exact absurd heq hne
    · exact hleft j hpos hj hbelow
    · exact hright j hpos hj hbelow
  · intro hpos hmem
    exact absurd (Below.le hmem) (Nat.not_le.mpr (parent_lt hpos))

/-! ### What is in it -/

/-- The elements at the first `n` positions that are in `S`. -/
def elements (S : Set Nat) [DecidablePred (· ∈ S)] (n : Nat) (a : Nat → α) : Multiset α :=
  ((Multiset.range n).filter (· ∈ S)).map a

theorem mem_elements {S : Set Nat} [DecidablePred (· ∈ S)] {x : α} :
    x ∈ elements S n a ↔ ∃ j ∈ S, j < n ∧ a j = x := by
  simp [elements, and_comm, and_assoc]

/-- A rearrangement that keeps what is outside `S` rearranges what is in `S`. -/
theorem elements_eq_of_frame {S : Set Nat} [DecidablePred (· ∈ S)]
    (hall : (Multiset.range n).map b = (Multiset.range n).map a)
    (hframe : ∀ j, j ∉ S → b j = a j) : elements S n b = elements S n a := by
  have houtside : ((Multiset.range n).filter (· ∉ S)).map b
      = ((Multiset.range n).filter (· ∉ S)).map a :=
    Multiset.map_congr rfl fun j hj => hframe j (Multiset.mem_filter.mp hj).2
  rw [← Multiset.filter_add_not (· ∈ S) (Multiset.range n), Multiset.map_add, Multiset.map_add,
    houtside] at hall
  exact Multiset.add_left_inj.mp hall

/-- The root of a subtree in order is the greatest element that the subtree has had. -/
theorem isGreatest_root [Preorder α] (hi : i < n) (hheap : HeapOn (subtree i) n b)
    (helements : elements (subtree i) n b = elements (subtree i) n a) :
    IsGreatest {x | x ∈ elements (subtree i) n a} (b i) := by
  rw [← helements]
  refine ⟨mem_elements.mpr ⟨i, Below.root, hi, rfl⟩, ?_⟩
  intro x hx
  obtain ⟨j, hmem, hj, rfl⟩ := mem_elements.mp hx
  exact hheap.le_root hmem hj

end Technopark.HeapOrder
