/-
The max-heap order on the positions of a level-order tree.

Position `j > 0` has its parent at `(j - 1) / 2`.  The order is stated of a function
`a` on positions and a number `n` of them, and relative to a set `S` of parents, so
that one development serves a whole heap, the part of an array a construction has
already ordered, and a single subtree.  All a sift needs of `S` is that it contains
the children of its members.

A sift moves one misplaced element along a path.  `Sinking` and `Rising` are
what stays true while it is at position `hole`: every pair that does not involve the
hole is in order, and the hole's children are in order with the hole's parent, which
is what lets the next exchange put them together.

The order on elements is any total preorder.  Two elements may be equivalent
without being equal, as the two zeros of a floating-point type are.
-/
import Mathlib.Order.Defs.Unbundled
import Mathlib.Order.Basic
import Mathlib.Data.Set.Basic
import Mathlib.Data.List.Perm.Subperm

namespace Technopark.HeapOrder

variable {α : Type} [Preorder α] {S : Set Nat} {n hole : Nat} {a b : Nat → α}

theorem le_of_not_lt_of_total [Std.Total (α := α) (· ≤ ·)] {x y : α} (h : ¬ x < y) : y ≤ x := by
  rcases Std.Total.total (r := ((· ≤ ·) : α → α → Prop)) x y with hxy | hyx
  · by_contra hyx
    exact h (lt_of_le_not_ge hxy hyx)
  · exact hyx

/-- The position above position `j`. -/
def parent (j : Nat) : Nat := (j - 1) / 2

theorem parent_lt {j : Nat} (h : 0 < j) : parent j < j := by
  unfold parent
  omega

/-- The children of a position are the two places below it. -/
theorem parent_eq_iff {c p : Nat} (h : 0 < c) : parent c = p ↔ c = 2 * p + 1 ∨ c = 2 * p + 2 := by
  unfold parent
  omega

/-- Every position whose parent is in `S` is at most its parent. -/
def HeapOn (S : Set Nat) (n : Nat) (a : Nat → α) : Prop :=
  ∀ j, 0 < j → j < n → parent j ∈ S → a j ≤ a (parent j)

/-- The whole tree is in heap order. -/
def IsHeap (n : Nat) (a : Nat → α) : Prop := ∀ j, 0 < j → j < n → a j ≤ a (parent j)

/-- `S` contains the children of its members. -/
def ChildClosed (S : Set Nat) : Prop := ∀ j, 0 < j → parent j ∈ S → j ∈ S

/-- The positions of the subtree rooted at `i`. -/
inductive Below (i : Nat) : Nat → Prop
  | root : Below i i
  | child {j : Nat} (hpos : 0 < j) (h : Below i (parent j)) : Below i j

theorem Below.trans {i j k : Nat} (hij : Below i j) (hjk : Below j k) : Below i k := by
  induction hjk with
  | root => exact hij
  | child hpos _ ih => exact Below.child hpos ih

/-! ### The root is greatest -/

/-- The root of an ordered subtree is at least everything in it. -/
theorem HeapOn.le_root {i : Nat} (h : HeapOn {j | Below i j} n a) {j : Nat} (hj : Below i j) :
    j < n → a j ≤ a i := by
  induction hj with
  | root => intro _; exact le_refl _
  | @child j hpos hbelow ih =>
      intro hlt
      exact le_trans (h j hpos hlt hbelow) (ih (Nat.lt_trans (parent_lt hpos) hlt))

theorem below_zero (j : Nat) : Below 0 j := by
  induction j using Nat.strong_induction_on with
  | _ j ih =>
      rcases Nat.eq_zero_or_pos j with rfl | hpos
      · exact Below.root
      · exact Below.child hpos (ih _ (parent_lt hpos))

/-- The first element of a heap is its greatest. -/
theorem IsHeap.le_zero (h : IsHeap n a) {j : Nat} (hj : j < n) : a j ≤ a 0 :=
  HeapOn.le_root (fun k hpos hlt _ => h k hpos hlt) (below_zero j) hj

/-! ### Exchanging two positions -/

/-- `b` is `a` with positions `i` and `j` exchanged. -/
structure Exchanged (i j : Nat) (a b : Nat → α) : Prop where
  left : b i = a j
  right : b j = a i
  rest : ∀ k, k ≠ i → k ≠ j → b k = a k

omit [Preorder α] in
/-- Swapping two elements of a list exchanges them, whatever is read behind its end. -/
theorem exchanged_getD {xs : List α} (d : α) {i j : Nat} (hi : i < xs.length)
    (hj : j < xs.length) :
    Exchanged i j (fun k => xs.getD k d) (fun k => (xs.swap i j).getD k d) := by
  rw [List.swap_eq_of_lt hi hj]
  refine ⟨?_, ?_, ?_⟩
  · by_cases hij : i = j
    · subst hij
      simp [hi]
    · simp [hi, hj, Ne.symm hij]
  · simp [hi, hj]
  · intro k hki hkj
    simp [Ne.symm hki, Ne.symm hkj]

/-! ### Sifting down -/

/-- What holds while a misplaced element sinks through `hole`. -/
structure Sinking (S : Set Nat) (n : Nat) (a : Nat → α) (hole : Nat) : Prop where
  others : ∀ j, 0 < j → j < n → parent j ∈ S → parent j ≠ hole → a j ≤ a (parent j)
  bridge : 0 < hole → parent hole ∈ S →
    ∀ c, 0 < c → c < n → parent c = hole → a c ≤ a (parent hole)

/-- The largest child, if it is larger than the hole, takes the hole's place. -/
theorem Sinking.exchange (h : Sinking S n a hole) (hS : ChildClosed S) (hhole : hole ∈ S)
    {c : Nat} (hpos : 0 < c) (hc : parent c = hole) (hcn : c < n) (hlt : a hole ≤ a c)
    (hmax : ∀ d, 0 < d → d < n → parent d = hole → a d ≤ a c) (hex : Exchanged hole c a b) :
    Sinking S n b c := by
  have hhc : hole < c := by rw [← hc]; exact parent_lt hpos
  refine ⟨?_, ?_⟩
  · intro j hj hjn hjS hjc
    by_cases hjhole : j = hole
    · -- the larger child against the hole's own parent
      subst hjhole
      have hne : parent j ≠ j := Nat.ne_of_lt (parent_lt hj)
      rw [hex.left, hex.rest _ hne hjc]
      exact h.bridge hj hjS c hpos hcn hc
    · by_cases hpj : parent j = hole
      · rw [hpj, hex.left]
        by_cases hjc' : j = c
        · rw [hjc', hex.right]
          exact hlt
        · rw [hex.rest j hjhole hjc']
          exact hmax j hj hjn hpj
      · have hjc' : j ≠ c := fun heq => hpj (by rw [heq]; exact hc)
        rw [hex.rest j hjhole hjc', hex.rest _ hpj hjc]
        exact h.others j hj hjn hjS hpj
  · intro _ _ d hd hdn hdc
    have hcd : c < d := by rw [← hdc]; exact parent_lt hd
    rw [hc, hex.left, hex.rest d (by omega) (by omega), ← hdc]
    have hcS : c ∈ S := hS c hpos (by rw [hc]; exact hhole)
    exact h.others d hd hdn (by rw [hdc]; exact hcS) (by rw [hdc]; omega)

/-- Once no child is larger than the hole, everything is in order. -/
theorem Sinking.stop (h : Sinking S n a hole)
    (hstop : ∀ c, 0 < c → c < n → parent c = hole → a c ≤ a hole) : HeapOn S n a := by
  intro j hj hjn hjS
  by_cases hpj : parent j = hole
  · rw [hpj]
    exact hstop j hj hjn hpj
  · exact h.others j hj hjn hjS hpj

/-- Sinking can start at a position whose parent is outside `S`. -/
theorem Sinking.start {i : Nat}
    (h : ∀ j, 0 < j → j < n → parent j ∈ S → parent j ≠ i → a j ≤ a (parent j))
    (hi : 0 < i → parent i ∉ S) : Sinking S n a i :=
  ⟨h, fun hpos hS => absurd hS (hi hpos)⟩

/-! ### Sifting up -/

/-- What holds while a misplaced element rises through `hole`. -/
structure Rising (n : Nat) (a : Nat → α) (hole : Nat) : Prop where
  others : ∀ j, 0 < j → j < n → j ≠ hole → a j ≤ a (parent j)
  bridge : 0 < hole → ∀ c, 0 < c → c < n → parent c = hole → a c ≤ a (parent hole)

/-- A hole larger than its parent takes the parent's place. -/
theorem Rising.exchange (h : Rising n a hole) (hpos : 0 < hole) (hn : hole < n)
    (hlt : a (parent hole) ≤ a hole) (hex : Exchanged hole (parent hole) a b) :
    Rising n b (parent hole) := by
  have hph : parent hole < hole := parent_lt hpos
  -- the old parent is below its own parent, so it may be anyone's grandparent
  have hup : 0 < parent hole → a (parent hole) ≤ a (parent (parent hole)) :=
    fun hp => h.others (parent hole) hp (by omega) (by omega)
  refine ⟨?_, ?_⟩
  · intro j hj hjn hjp
    by_cases hjhole : j = hole
    · rw [hjhole, hex.left, hex.right]
      exact hlt
    · rw [hex.rest j hjhole hjp]
      by_cases hpj : parent j = hole
      · rw [hpj, hex.left]
        exact h.bridge hpos j hj hjn hpj
      · by_cases hpp : parent j = parent hole
        · rw [hpp, hex.right]
          have hle := h.others j hj hjn hjhole
          rw [hpp] at hle
          exact le_trans hle hlt
        · rw [hex.rest _ hpj hpp]
          exact h.others j hj hjn hjhole
  · intro hp c hc hcn hpc
    have hpp : parent (parent hole) < parent hole := parent_lt hp
    rw [hex.rest (parent (parent hole)) (by omega) (by omega)]
    by_cases hchole : c = hole
    · rw [hchole, hex.left]
      exact hup hp
    · have hcp : c ≠ parent hole := by
        have := parent_lt hc
        omega
      rw [hex.rest c hchole hcp]
      have hle := h.others c hc hcn hchole
      rw [hpc] at hle
      exact le_trans hle (hup hp)

/-- A hole at the root, or one that is at most its parent, leaves a heap. -/
theorem Rising.stop (h : Rising n a hole) (hstop : 0 < hole → a hole ≤ a (parent hole)) :
    IsHeap n a := by
  intro j hj hjn
  by_cases hjhole : j = hole
  · subst hjhole
    exact hstop hj
  · exact h.others j hj hjn hjhole

end Technopark.HeapOrder
