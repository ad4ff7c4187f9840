/-
The heap in a `DArray` is a priority queue.

`Lib/HeapOrder.lean` knows what a sift must preserve; this file shows that the
code's sifts preserve it, that they never leave the array, and that the fuel their
embedding passes is enough.  Each is an induction on the fuel whose invariant is
`Sinking` or `Rising` at the current index.

From there the calls of `Heap.h` are short: `Add` is an append followed by a rise,
`ExtractMax` overwrites the root with the last element and lets it sink, and
`MakeHeap` orders one more parent with every iteration.
-/
import Technopark.Proofs.DArray
import Technopark.Containers.Heap
import Technopark.Lib.HeapOrder
import Technopark.Lib.Run
import Mathlib.Data.Multiset.AddSub
import Mathlib.Data.Int.ConditionallyCompleteOrder
import Mathlib.Order.ConditionallyCompleteLattice.Basic

namespace Technopark.Heap

open DArray HeapOrder

variable {α : Type} {arr : DArray α} {xs : List α}

/-! ### The calls that only look -/

theorem heapMaximum_empty (h : arr.Holds []) :
    heapMaximum.run arr = .error (.runtimeError "head is empty") arr := by
  have hsize : arr.actualSize = 0 := h.length_eq.symm
  simp [heapMaximum, hsize]

theorem heapMaximum_run {x : α} {ys : List α} (h : arr.Holds (x :: ys)) :
    heapMaximum.run arr = .ok x arr := by
  have hsize : arr.actualSize = ys.length + 1 := by rw [← h.length_eq]; simp
  have hread := subscript_run h (i := 0) (by simp)
  simp [heapMaximum, hsize, hread]

theorem extractMax_empty [LT α] [DecidableLT α] (h : arr.Holds []) :
    extractMax.run arr = .error (.runtimeError "head is empty") arr := by
  have hsize : arr.actualSize = 0 := h.length_eq.symm
  simp [extractMax, hsize]

/-! ### Positions and keys -/

variable [Zero α]

/-- The element at a position, as a function on positions. -/
def key (xs : List α) (i : Nat) : α := xs.getD i 0

theorem key_eq {i : Nat} (hi : i < xs.length) : key xs i = xs[i] := by
  simp [key, hi]

theorem key_append_left {ys : List α} {i : Nat} (hi : i < xs.length) :
    key (xs ++ ys) i = key xs i := by
  simp [key, List.getElem?_append_left hi]

theorem exchanged_swap {i j : Nat} (hi : i < xs.length) (hj : j < xs.length) :
    Exchanged i j (key xs) (key (xs.swap i j)) := exchanged_getD 0 hi hj

variable [Preorder α]

/-- The first element of a heap is at least every element. -/
theorem head_greatest {x : α} {ys : List α} (hheap : IsHeap (x :: ys).length (key (x :: ys))) :
    ∀ y ∈ x :: ys, y ≤ x := by
  intro y hy
  obtain ⟨i, hi, rfl⟩ := List.getElem_of_mem hy
  have hle := hheap.le_zero hi
  rw [key_eq hi] at hle
  exact hle

/-- Cutting elements off the end of a heap leaves a heap. -/
theorem isHeap_append_left {ys : List α} (hheap : IsHeap (xs ++ ys).length (key (xs ++ ys))) :
    IsHeap xs.length (key xs) := by
  intro j hpos hj
  have hle := hheap j hpos (by rw [List.length_append]; omega)
  rw [key_append_left hj, key_append_left (Nat.lt_trans (parent_lt hpos) hj)] at hle
  exact hle

/-- A heap with one element appended is in order except at that element. -/
theorem rising_append (hheap : IsHeap xs.length (key xs)) (x : α) :
    Rising (xs ++ [x]).length (key (xs ++ [x])) xs.length := by
  refine ⟨?_, ?_⟩
  · intro j hpos hj hne
    have hlt : j < xs.length := by
      rw [List.length_append, List.length_singleton] at hj
      omega
    rw [key_append_left hlt, key_append_left (Nat.lt_trans (parent_lt hpos) hlt)]
    exact hheap j hpos hlt
  · intro _ c hpos hc hparent
    have hlt := parent_lt hpos
    rw [List.length_append, List.length_singleton] at hc
    omega

/-- Overwriting the root of a heap leaves everything else in order. -/
theorem sinking_set_root {n : Nat} (hheap : IsHeap n (key xs)) (x : α) :
    Sinking Set.univ n (key (xs.set 0 x)) 0 := by
  have hkey : ∀ j, j ≠ 0 → key (xs.set 0 x) j = key xs j := by
    intro j hj
    simp [key, Ne.symm hj]
  refine Sinking.start ?_ (fun hpos => absurd hpos (Nat.lt_irrefl 0))
  intro j hpos hj _ hparent
  rw [hkey j (Nat.ne_of_gt hpos), hkey _ hparent]
  exact hheap j hpos hj

/-! ### Choosing the larger of two positions -/

theorem larger_run [DecidableLT α] (h : arr.Holds xs) (index : Nat) {largest : Nat}
    (hl : largest < xs.length) :
    (larger index largest).run arr
      = .ok (if index < xs.length ∧ key xs largest < key xs index then index else largest) arr := by
  unfold larger
  rw [Call.run_bind_ok (size_run arr), ← h.length_eq]
  by_cases hi : index < xs.length
  · rw [if_pos hi, Call.run_bind_ok (subscript_run h hi), Call.run_bind_ok (subscript_run h hl),
      key_eq hi, key_eq hl]
    by_cases hgt : xs[largest] < xs[index]
    · simp [hgt, hi]
    · simp [hgt]
  · simp [hi]

/-- What the two comparisons of `SiftDown` settle on. -/
private theorem largest_spec {α : Type} [Preorder α] [DecidableLT α]
    [Std.Total (α := α) (· ≤ ·)] {n i : Nat} (a : Nat → α) (hi : i < n) :
    ∃ l₁ l, l₁ = (if 2 * i + 1 < n ∧ a i < a (2 * i + 1) then 2 * i + 1 else i) ∧
      l = (if 2 * i + 2 < n ∧ a l₁ < a (2 * i + 2) then 2 * i + 2 else l₁) ∧
      l₁ < n ∧ l < n ∧ a i ≤ a l ∧ (l ≠ i → 0 < l ∧ parent l = i) ∧
      ∀ c, 0 < c → c < n → parent c = i → a c ≤ a l := by
  have hleft : ∀ x y : α, ¬ x < y → y ≤ x := fun x y => le_of_not_lt_of_total
  refine ⟨_, _, rfl, rfl, ?_⟩
  have hchild : ∀ c, 0 < c → parent c = i → c = 2 * i + 1 ∨ c = 2 * i + 2 :=
    fun c hc hp => (parent_eq_iff hc).mp hp
  by_cases h1 : 2 * i + 1 < n ∧ a i < a (2 * i + 1)
  · rw [if_pos h1]
    by_cases h2 : 2 * i + 2 < n ∧ a (2 * i + 1) < a (2 * i + 2)
    · rw [if_pos h2]
      refine ⟨h1.1, h2.1, le_trans h1.2.le h2.2.le,
        fun _ => ⟨by omega, (parent_eq_iff (by omega)).mpr (Or.inr rfl)⟩, ?_⟩
      intro c hc hcn hp
      rcases hchild c hc hp with rfl | rfl
      · exact h2.2.le
      · exact le_refl _
    · rw [if_neg h2]
      refine ⟨h1.1, h1.1, h1.2.le,
        fun _ => ⟨by omega, (parent_eq_iff (by omega)).mpr (Or.inl rfl)⟩, ?_⟩
      intro c hc hcn hp
      rcases hchild c hc hp with rfl | rfl
      · exact le_refl _
      · exact hleft _ _ (fun hlt => h2 ⟨hcn, hlt⟩)
  · rw [if_neg h1]
    by_cases h2 : 2 * i + 2 < n ∧ a i < a (2 * i + 2)
    · rw [if_pos h2]
      refine ⟨hi, h2.1, h2.2.le,
        fun _ => ⟨by omega, (parent_eq_iff (by omega)).mpr (Or.inr rfl)⟩, ?_⟩
      intro c hc hcn hp
      rcases hchild c hc hp with rfl | rfl
      · exact le_trans (hleft _ _ (fun hlt => h1 ⟨hcn, hlt⟩)) h2.2.le
      · exact le_refl _
    · rw [if_neg h2]
      refine ⟨hi, hi, le_refl _, fun hne => absurd rfl hne, ?_⟩
      intro c hc hcn hp
      rcases hchild c hc hp with rfl | rfl
      · exact hleft _ _ (fun hlt => h1 ⟨hcn, hlt⟩)
      · exact hleft _ _ (fun hlt => h2 ⟨hcn, hlt⟩)

/-! ### The sifts -/

variable [Std.Total (α := α) (· ≤ ·)]

/-- What a sift leaves: the same elements, rearranged inside `S`'s subtree. -/
structure Sifted (arr : DArray α) (xs : List α) (arr' : DArray α) (xs' : List α) : Prop where
  holds : arr'.Holds xs'
  perm : xs'.Perm xs
  capacity : arr'.bufSize = arr.bufSize

theorem siftDownFrom_run [DecidableLT α] {S : Set Nat} (hS : ChildClosed S) :
    ∀ (fuel hole : Nat) (arr : DArray α) (xs : List α), arr.Holds xs → hole < xs.length →
      xs.length ≤ hole + fuel → hole ∈ S → Sinking S xs.length (key xs) hole →
      ∃ arr' xs', (siftDownFrom fuel hole).run arr = .ok () arr' ∧ Sifted arr xs arr' xs' ∧
        HeapOn S xs'.length (key xs') ∧ ∀ j, ¬ Below hole j → key xs' j = key xs j := by
  intro fuel
  induction fuel with
  | zero => intro hole arr xs _ hlt hfuel; omega
  | succ fuel ih =>
      intro hole arr xs h hlt hfuel hmem hord
      have hbound := h.length_lt
      obtain ⟨l₁, l, hl₁, hl, hl₁n, hln, hle, hchild, hmax⟩ := largest_spec (key xs) hlt
      have hrun : (siftDownFrom (fuel + 1) hole).run arr
          = (if l ≠ hole then (do DArray.swap hole l; siftDownFrom fuel l)
              else pure () : Call (DArray α) Unit).run arr := by
        rw [siftDownFrom, sizeT_eq (by omega), sizeT_eq (by omega),
          Call.run_bind_ok (larger_run h _ hlt), ← hl₁,
          Call.run_bind_ok (larger_run h _ hl₁n), ← hl]
      by_cases hstop : l = hole
      · refine ⟨arr, xs, ?_, ⟨h, List.Perm.refl _, rfl⟩, hord.stop ?_, fun j _ => rfl⟩
        · rw [hrun, if_neg (by simpa using hstop)]
          rfl
        · intro c hc hcn hp
          rw [← hstop] at hp ⊢
          exact hmax c hc hcn (by rw [hp, hstop])
      · obtain ⟨hpos, hpar⟩ := hchild hstop
        have hgt : hole < l := by rw [← hpar]; exact parent_lt hpos
        obtain ⟨arr₁, hswap, hholds₁, hcap₁⟩ := swap_run h hlt hln
        have hlen : (xs.swap hole l).length = xs.length := List.length_swap
        have hex := exchanged_swap hlt hln
        obtain ⟨arr', xs', hrest, hsift, hheap, hframe⟩ := ih l arr₁ (xs.swap hole l) hholds₁
          (by rw [hlen]; exact hln) (by rw [hlen]; omega) (hS l hpos (by rw [hpar]; exact hmem))
          (by rw [hlen]; exact hord.exchange hS hmem hpos hpar hln hle hmax hex)
        refine ⟨arr', xs', ?_, ⟨hsift.holds, hsift.perm.trans (List.swap_perm ..),
          hsift.capacity.trans hcap₁⟩, hheap, ?_⟩
        · rw [hrun, if_pos hstop, Call.run_bind_ok hswap, hrest]
        · intro j hj
          have hbelow : Below hole l := Below.child hpos (by rw [hpar]; exact Below.root)
          rw [hframe j (fun hlj => hj (hbelow.trans hlj))]
          exact hex.rest j (fun hc => hj (by rw [hc]; exact Below.root))
            (fun hc => hj (by rw [hc]; exact hbelow))

/-- **`SiftDown` puts one misplaced node in order and touches only its subtree.** -/
theorem siftDown_run [DecidableLT α] {S : Set Nat} (hS : ChildClosed S) {i : Nat} (h : arr.Holds xs)
    (hi : i < xs.length) (hmem : i ∈ S) (hord : Sinking S xs.length (key xs) i) :
    ∃ arr' xs', (siftDown i).run arr = .ok () arr' ∧ Sifted arr xs arr' xs' ∧
      HeapOn S xs'.length (key xs') ∧ ∀ j, ¬ Below i j → key xs' j = key xs j := by
  unfold siftDown
  rw [Call.run_bind_ok (size_run arr), ← h.length_eq]
  exact siftDownFrom_run hS (xs.length + 1) i arr xs h hi (by omega) hmem hord

theorem siftUpFrom_run [DecidableLE α] :
    ∀ (fuel hole : Nat) (arr : DArray α) (xs : List α), arr.Holds xs → hole < xs.length →
      hole < fuel → Rising xs.length (key xs) hole →
      ∃ arr' xs', (siftUpFrom fuel hole).run arr = .ok () arr' ∧ Sifted arr xs arr' xs' ∧
        IsHeap xs'.length (key xs') := by
  intro fuel
  induction fuel with
  | zero => intro hole arr xs _ _ hfuel; omega
  | succ fuel ih =>
      intro hole arr xs h hlt hfuel hord
      unfold siftUpFrom
      by_cases hpos : 0 < hole
      · have hparent : parent hole < hole := parent_lt hpos
        have hpl : parent hole < xs.length := by omega
        rw [if_pos hpos, Call.run_bind_ok (subscript_run h hlt)]
        show ∃ arr' xs', EStateM.run (do
            let y ← subscript (parent hole)
            if xs[hole] ≤ y then pure PUnit.unit
            else do DArray.swap hole (parent hole); siftUpFrom fuel (parent hole)) arr = _ ∧ _
        rw [Call.run_bind_ok (subscript_run h hpl)]
        by_cases hle : xs[hole] ≤ xs[parent hole]
        · refine ⟨arr, xs, by rw [if_pos hle]; rfl, ⟨h, List.Perm.refl _, rfl⟩, hord.stop ?_⟩
          intro _
          rw [key_eq hlt, key_eq hpl]
          exact hle
        · obtain ⟨arr₁, hswap, hholds₁, hcap₁⟩ := swap_run h hlt hpl
          have hlen : (xs.swap hole (parent hole)).length = xs.length := List.length_swap
          have hge : key xs (parent hole) ≤ key xs hole := by
            rw [key_eq hlt, key_eq hpl]
            exact le_of_not_lt_of_total (fun hc => hle hc.le)
          obtain ⟨arr', xs', hrest, hsift, hheap⟩ := ih (parent hole) arr₁ _ hholds₁
            (by rw [hlen]; exact hpl) (by omega)
            (by rw [hlen]; exact hord.exchange hpos hlt hge (exchanged_swap hlt hpl))
          refine ⟨arr', xs', ?_, ⟨hsift.holds, hsift.perm.trans (List.swap_perm ..),
            hsift.capacity.trans hcap₁⟩, hheap⟩
          rw [if_neg hle, Call.run_bind_ok hswap, hrest]
      · rw [if_neg hpos]
        exact ⟨arr, xs, rfl, ⟨h, List.Perm.refl _, rfl⟩, hord.stop (fun hc => absurd hc hpos)⟩

theorem siftUp_run [DecidableLE α] (h : arr.Holds xs) {i : Nat} (hi : i < xs.length)
    (hord : Rising xs.length (key xs) i) :
    ∃ arr' xs', (siftUp i).run arr = .ok () arr' ∧ Sifted arr xs arr' xs' ∧
      IsHeap xs'.length (key xs') :=
  siftUpFrom_run (i + 1) i arr xs h hi (Nat.lt_succ_self i) hord

/-! ### Adding an element -/

/-- **`Add` inserts one copy of its argument, or fails to allocate and changes nothing.** -/
theorem add_run [DecidableLE α] (h : arr.Holds xs) (hheap : IsHeap xs.length (key xs)) (x : α) :
    (∃ arr' xs', (add x).run arr = .ok () arr' ∧ arr'.Holds xs' ∧ xs'.Perm (x :: xs) ∧
      IsHeap xs'.length (key xs')) ∨
    (add x).run arr = .error .badAlloc arr := by
  unfold add
  rcases pushBack_run h x with ⟨arr₁, hpush, hholds, -⟩ | ⟨hbad, -, -⟩
  · have hlen : (xs ++ [x]).length = xs.length + 1 := by simp
    have hsub : sizeTSub arr₁.actualSize 1 = xs.length := by
      have hbound := hholds.length_lt
      rw [← hholds.length_eq, sizeTSub_eq (by omega) (by omega)]
      omega
    obtain ⟨arr', xs', hsift, hsifted, hheap'⟩ :=
      siftUp_run hholds (i := xs.length) (by omega) (rising_append hheap x)
    refine Or.inl ⟨arr', xs', ?_, hsifted.holds,
      hsifted.perm.trans (List.perm_append_singleton ..), hheap'⟩
    rw [Call.run_bind_ok hpush, Call.run_bind_ok (size_run arr₁), hsub, hsift]
  · exact Or.inr (Call.run_bind_error hbad)

/-! ### Taking the maximum -/

/-- **`ExtractMax` returns the first element and removes one copy of it.** -/
theorem extractMax_run [DecidableLT α] {x : α} {ys : List α} (h : arr.Holds (x :: ys))
    (hheap : IsHeap (x :: ys).length (key (x :: ys))) :
    ∃ arr' xs', extractMax.run arr = .ok x arr' ∧ arr'.Holds xs' ∧ xs'.Perm ys ∧
      IsHeap xs'.length (key xs') := by
  have hsize : arr.actualSize = ys.length + 1 := by rw [← h.length_eq]; simp
  have hread : (subscript 0).run arr = .ok x arr := subscript_run h (i := 0) (by simp)
  -- what is left after the pop, with the popped element written over the root
  obtain ⟨zs, last, hsplit⟩ : ∃ zs last, x :: ys = zs ++ [last] :=
    ⟨_, _, (List.dropLast_append_getLast (List.cons_ne_nil x ys)).symm⟩
  rw [hsplit] at h
  obtain ⟨arr₁, hpop, hholds₁, -⟩ := popBack_run h
  obtain ⟨arr₂, hwrite, hholds₂, -⟩ := assign_run hholds₁ (i := 0) hholds₁.positive last
  have hrun : extractMax.run arr
      = (do
          if !(← isEmpty) then siftDown 0
          return x : Call (DArray α) α).run arr₂ := by
    unfold extractMax
    rw [Call.run_bind_ok (isEmpty_run arr), hsize]
    simp [hread, hpop, hwrite]
  have hperm : (zs.set 0 last).Perm ys := by
    cases zs with
    | nil => simp_all
    | cons z zs =>
        obtain ⟨rfl, rfl⟩ : x = z ∧ ys = zs ++ [last] := by simpa using hsplit
        simpa using (List.perm_append_singleton last zs).symm
  rcases Nat.eq_zero_or_pos (zs.set 0 last).length with hzero | hpos
  · have hnil : zs.set 0 last = [] := List.eq_nil_of_length_eq_zero hzero
    rw [hnil] at hholds₂ hperm
    have hsize₂ : arr₂.actualSize = 0 := hholds₂.length_eq.symm
    refine ⟨arr₂, [], ?_, hholds₂, hperm, fun j _ hj => absurd hj (Nat.not_lt_zero j)⟩
    rw [hrun]
    simp [hsize₂]
  · have hsize₂ : arr₂.actualSize ≠ 0 := by rw [← hholds₂.length_eq]; omega
    have hzs : IsHeap zs.length (key zs) := by
      rw [hsplit] at hheap
      exact isHeap_append_left hheap
    obtain ⟨arr', xs', hsift, hsifted, hheap', -⟩ := siftDown_run (S := Set.univ)
      (fun _ _ _ => Set.mem_univ _) hholds₂ hpos (Set.mem_univ 0)
      (by rw [List.length_set]; exact sinking_set_root hzs last)
    refine ⟨arr', xs', ?_, hsifted.holds, hsifted.perm.trans hperm,
      fun j hj hjn => hheap' j hj hjn (Set.mem_univ _)⟩
    rw [hrun]
    simp [hsize₂, hsift]

/-! ### Building a heap -/

/-- The iterations that are left order every parent that is not ordered yet. -/
theorem makeHeapFrom_run [DecidableLT α] :
    ∀ (k : Nat) (arr : DArray α) (xs : List α), arr.Holds xs → k ≤ xs.length →
      HeapOn {p | k ≤ p} xs.length (key xs) →
      ∃ arr' xs', (makeHeapFrom k).run arr = .ok () arr' ∧ Sifted arr xs arr' xs' ∧
        IsHeap xs'.length (key xs') := by
  intro k
  induction k with
  | zero =>
      intro arr xs h _ hheap
      exact ⟨arr, xs, rfl, ⟨h, List.Perm.refl _, rfl⟩,
        fun j hpos hj => hheap j hpos hj (Nat.zero_le _)⟩
  | succ k ih =>
      intro arr xs h hk hheap
      have hclosed : ChildClosed {p | k ≤ p} := by
        intro j hpos hj
        exact Nat.le_trans hj (Nat.le_of_lt (parent_lt hpos))
      have hsinking : Sinking {p | k ≤ p} xs.length (key xs) k := by
        refine Sinking.start ?_ ?_
        · intro j hpos hj hmem hne
          exact hheap j hpos hj (Nat.lt_of_le_of_ne hmem (Ne.symm hne))
        · intro hpos hmem
          exact absurd (parent_lt hpos) (Nat.not_lt.mpr hmem)
      obtain ⟨arr₁, xs₁, hsift, hsifted₁, hheap₁, -⟩ :=
        siftDown_run hclosed h hk (Nat.le_refl k) hsinking
      have hlen : xs₁.length = xs.length := hsifted₁.perm.length_eq
      obtain ⟨arr', xs', hrest, hsifted, hheap'⟩ :=
        ih arr₁ xs₁ hsifted₁.holds (by omega) hheap₁
      refine ⟨arr', xs', ?_, ⟨hsifted.holds, hsifted.perm.trans hsifted₁.perm,
        hsifted.capacity.trans hsifted₁.capacity⟩, hheap'⟩
      rw [makeHeapFrom, Call.run_bind_ok hsift, hrest]

/-- The `int` the loop of `MakeHeap` starts from does not lose the index. -/
theorem makeHeap_start {n : Nat} (hn : n ≤ 2 ^ 32 + 1) :
    (toInt32 (sizeTSub (n / 2) 1) + 1).toNat = n / 2 := by
  rcases Nat.eq_zero_or_pos (n / 2) with hzero | hpos
  · rw [hzero]
    decide
  · rw [sizeTSub_eq hpos (by omega), toInt32_eq (by omega)]
    omega

omit [Zero α] [Std.Total (α := α) (· ≤ ·)] in
theorem makeHeap_eq [DecidableLT α] (hn : arr.actualSize ≤ 2 ^ 32 + 1) :
    makeHeap.run arr = (makeHeapFrom (arr.actualSize / 2)).run arr := by
  unfold makeHeap
  rw [Call.run_bind_ok (size_run arr)]
  show (makeHeapFrom (toInt32 (sizeTSub (arr.actualSize / 2) 1) + 1).toNat).run arr = _
  rw [makeHeap_start hn]

/-- **`MakeHeap` rearranges any array it can index into a heap.** -/
theorem makeHeap_run [DecidableLT α] (h : arr.Holds xs) (hn : xs.length ≤ 2 ^ 32 + 1) :
    ∃ arr' xs', makeHeap.run arr = .ok () arr' ∧ Sifted arr xs arr' xs' ∧
      IsHeap xs'.length (key xs') := by
  rw [makeHeap_eq (by rw [← h.length_eq]; exact hn), ← h.length_eq]
  refine makeHeapFrom_run (xs.length / 2) arr xs h (Nat.div_le_self _ _) ?_
  -- no position of the array has its parent in the upper half
  intro j hpos hj hmem
  have hhalf : xs.length / 2 ≤ (j - 1) / 2 := hmem
  omega

omit [Std.Total (α := α) (· ≤ ·)] in
/-- What a heap looks like through `operator[]`. -/
theorem subscript_parent (h : arr.Holds xs) (hheap : IsHeap xs.length (key xs)) {i : Nat}
    (hpos : 0 < i) (hi : i < xs.length) :
    ∃ x y, (subscript i).run arr = .ok x arr ∧ (subscript ((i - 1) / 2)).run arr = .ok y arr ∧
      x ≤ y := by
  have hparent : parent i < xs.length := Nat.lt_trans (parent_lt hpos) hi
  refine ⟨xs[i], xs[parent i], subscript_run h hi, subscript_run h hparent, ?_⟩
  have hle := hheap i hpos hi
  rw [key_eq hi, key_eq hparent] at hle
  exact hle

/-! ### Draining -/

/-- A client that calls `ExtractMax` `k` times and keeps the answers. -/
def drain [DecidableLT α] : Nat → Call (DArray α) (List α)
  | 0 => return []
  | k + 1 => do
      let x ← extractMax
      let rest ← drain k
      return x :: rest

/-- Draining a heap gives its elements in non-increasing order. -/
theorem drain_run [DecidableLT α] :
    ∀ (k : Nat) (arr : DArray α) (xs : List α), arr.Holds xs → xs.length = k →
      IsHeap xs.length (key xs) →
      ∃ out arr', (drain k).run arr = .ok out arr' ∧ arr'.Holds [] ∧ out.Perm xs ∧
        out.Pairwise (· ≥ ·) := by
  intro k
  induction k with
  | zero =>
      intro arr xs h hlen _
      obtain rfl := List.eq_nil_of_length_eq_zero hlen
      exact ⟨[], arr, rfl, h, List.Perm.refl _, List.Pairwise.nil⟩
  | succ k ih =>
      intro arr xs h hlen hheap
      cases xs with
      | nil => simp at hlen
      | cons x ys =>
          obtain ⟨arr₁, xs₁, hmax, hholds₁, hperm₁, hheap₁⟩ := extractMax_run h hheap
          obtain ⟨out, arr', hrest, hempty, hperm, hsorted⟩ := ih arr₁ xs₁ hholds₁
            (by rw [hperm₁.length_eq]; simpa using hlen) hheap₁
          have hall : out.Perm ys := hperm.trans hperm₁
          refine ⟨x :: out, arr', ?_, hempty, hall.cons x, List.Pairwise.cons ?_ hsorted⟩
          · rw [drain, Call.run_bind_ok hmax, Call.run_bind_ok hrest]
            rfl
          · intro y hy
            exact head_greatest hheap y (List.mem_cons_of_mem x (hall.subset hy))

/-! ### The priority queue

A multiset, and the three calls a client makes on it.  `ExtractMax` may answer with
any greatest element; which one a heap picks among equivalent ones is left open.
-/

/-- The calls a client makes on a heap. -/
inductive HeapOp (α : Type)
  | add (element : α)
  | extractMax
  | heapMaximum
  deriving Repr, DecidableEq

/-- The code behind each of them; `Add` returns nothing. -/
def HeapOp.call [DecidableLE α] [DecidableLT α] : HeapOp α → Call (DArray α) (Option α)
  | .add element => do
      Heap.add element
      return none
  | .extractMax => some <$> Heap.extractMax
  | .heapMaximum => some <$> Heap.heapMaximum

/-- What each call may answer on a multiset of elements, and what it leaves. -/
inductive PriorityQueue : Spec (Multiset α) (HeapOp α) (Except Fault (Option α))
  | add (m : Multiset α) (x : α) : PriorityQueue m (.add x) (.ok none) (x ::ₘ m)
  | extractMax (m : Multiset α) (x : α) (hmax : ∀ y ∈ x ::ₘ m, y ≤ x) :
      PriorityQueue (x ::ₘ m) .extractMax (.ok (some x)) m
  | extractMaxEmpty :
      PriorityQueue 0 .extractMax (.error (.runtimeError "head is empty")) 0
  | heapMaximum (m : Multiset α) (x : α) (hmem : x ∈ m) (hmax : ∀ y ∈ m, y ≤ x) :
      PriorityQueue m .heapMaximum (.ok (some x)) m
  | heapMaximumEmpty :
      PriorityQueue 0 .heapMaximum (.error (.runtimeError "head is empty")) 0

/-- The array is a heap, and `m` is what is in it. -/
def Represents (arr : DArray α) (m : Multiset α) : Prop :=
  ∃ xs : List α, arr.Holds xs ∧ IsHeap xs.length (key xs) ∧ (xs : Multiset α) = m

/-- Every call answers as a priority queue would, as long as it could allocate. -/
theorem heap_refines [DecidableLE α] [DecidableLT α] :
    Refines (Call.object (HeapOp.call (α := α))) PriorityQueue (· ≠ .error .badAlloc)
      Represents := by
  intro op arr m hrep hadm
  obtain ⟨xs, h, hheap, rfl⟩ := hrep
  cases op with
  | add x =>
      rcases add_run h hheap x with ⟨arr', xs', hrun, hholds, hperm, hheap'⟩ | hbad
      · rw [Call.object_ok (a := none) (t := arr') (by simp [HeapOp.call, hrun])]
        exact ⟨_, PriorityQueue.add _ x, xs', hholds, hheap', Multiset.coe_eq_coe.mpr hperm⟩
      · rw [Call.object_error (e := .badAlloc) (t := arr) (by simp [HeapOp.call, hbad])] at hadm
        exact absurd rfl hadm
  | extractMax =>
      cases xs with
      | nil =>
          rw [Call.object_error (t := arr) (by simp [HeapOp.call, extractMax_empty h]; rfl)]
          exact ⟨0, PriorityQueue.extractMaxEmpty, [], h, hheap, rfl⟩
      | cons x ys =>
          obtain ⟨arr', xs', hrun, hholds, hperm, hheap'⟩ := extractMax_run h hheap
          rw [Call.object_ok (a := some x) (t := arr') (by simp [HeapOp.call, hrun])]
          have hmax : ∀ y ∈ x ::ₘ (ys : Multiset α), y ≤ x := fun y hy =>
            head_greatest hheap y (by simpa using hy)
          exact ⟨_, PriorityQueue.extractMax _ x hmax, xs', hholds, hheap',
            Multiset.coe_eq_coe.mpr hperm⟩
  | heapMaximum =>
      cases xs with
      | nil =>
          rw [Call.object_error (t := arr) (by simp [HeapOp.call, heapMaximum_empty h]; rfl)]
          exact ⟨0, PriorityQueue.heapMaximumEmpty, [], h, hheap, rfl⟩
      | cons x ys =>
          rw [Call.object_ok (a := some x) (t := arr) (by simp [HeapOp.call, heapMaximum_run h])]
          exact ⟨_, PriorityQueue.heapMaximum _ x (by simp)
            (fun y hy => head_greatest hheap y hy), x :: ys, h, hheap, rfl⟩

/-- A call that throws for another reason than memory finds the array empty. -/
theorem throws_empty [DecidableLE α] [DecidableLT α] (h : arr.Holds xs)
    (hheap : IsHeap xs.length (key xs)) {op : HeapOp α} {e : Fault}
    (hreply : op.call.reply arr = .error e) (hne : e ≠ .badAlloc) :
    arr.actualSize = 0 ∧ op.call.after arr = arr := by
  cases op with
  | add x =>
      rcases add_run h hheap x with ⟨arr', xs', hrun, -⟩ | hbad
      · rw [Call.reply_ok (a := none) (t := arr') (by simp [HeapOp.call, hrun])] at hreply
        cases hreply
      · rw [Call.reply_error (e := .badAlloc) (t := arr) (by simp [HeapOp.call, hbad])] at hreply
        cases hreply
        exact absurd rfl hne
  | extractMax =>
      cases xs with
      | nil =>
          exact ⟨h.length_eq.symm,
            Call.after_error (by simp [HeapOp.call, extractMax_empty h]; rfl)⟩
      | cons x ys =>
          obtain ⟨arr', xs', hrun, -⟩ := extractMax_run h hheap
          rw [Call.reply_ok (a := some x) (t := arr') (by simp [HeapOp.call, hrun])] at hreply
          cases hreply
  | heapMaximum =>
      cases xs with
      | nil =>
          exact ⟨h.length_eq.symm,
            Call.after_error (by simp [HeapOp.call, heapMaximum_empty h]; rfl)⟩
      | cons x ys =>
          rw [Call.reply_ok (a := some x) (t := arr)
            (by simp [HeapOp.call, heapMaximum_run h])] at hreply
          cases hreply

/-- Where a heap's array comes from: it is fresh, or `MakeHeap` arranged it. -/
inductive Origin [DecidableLT α] : DArray α → Prop
  | fresh {c : Nat} {arr : DArray α} (hpos : 0 < c) (halloc : Allocates c)
      (hnew : DArray.new c = .ok arr) : Origin arr
  | made {arr₀ arr : DArray α} {xs : List α} (h : arr₀.Holds xs)
      (hn : xs.length ≤ 2 ^ 32 + 1) (hmake : makeHeap.run arr₀ = .ok () arr) : Origin arr

theorem Origin.represents [DecidableLT α] (h : Origin arr) : Represents arr arr.contents := by
  cases h with
  | fresh hpos halloc hnew =>
      obtain ⟨arr', hnew', hholds, -⟩ := new_holds (α := α) hpos halloc
      obtain rfl : arr' = arr := Except.ok.inj (hnew'.symm.trans hnew)
      exact ⟨[], hholds, fun j _ hj => absurd hj (Nat.not_lt_zero j), by rw [hholds.contents_eq]⟩
  | made h hn hmake =>
      obtain ⟨arr', xs', hrun, hsifted, hheap⟩ := makeHeap_run h hn
      obtain rfl : arr' = arr := (EStateM.Result.ok.inj (hrun.symm.trans hmake)).2
      exact ⟨xs', hsifted.holds, hheap, by rw [hsifted.holds.contents_eq]⟩

/--
**A heap is a priority queue over whole runs.**  `MakeHeap` returns on every array
it can index.  From a fresh array or one `MakeHeap` arranged, every sequence of
calls that could allocate is answered as the multiset of its elements allows; in
the state it reaches, every element is at most its parent, a call that throws finds
the array empty and leaves it as it was, and draining sorts.
-/
theorem heap_runs_as_priorityQueue [DecidableLE α] [DecidableLT α] :
    (∀ (arr : DArray α) (xs : List α), arr.Holds xs → xs.length ≤ 2 ^ 32 + 1 →
      ∃ arr', makeHeap.run arr = .ok () arr' ∧ arr'.contents.Perm xs) ∧
    ∀ (start : DArray α) (ops : List (HeapOp α)), Origin start →
      (∀ out ∈ ((Call.object HeapOp.call).run ops start).1, out ≠ .error .badAlloc) →
      ∀ arr : DArray α, arr = ((Call.object HeapOp.call).run ops start).2 →
        Spec.Run PriorityQueue start.contents ops ((Call.object HeapOp.call).run ops start).1
          (arr.contents : Multiset α) ∧
        (∀ i, 0 < i → i < arr.actualSize →
          ∃ x y, (subscript i).run arr = .ok x arr ∧
            (subscript ((i - 1) / 2)).run arr = .ok y arr ∧ x ≤ y) ∧
        (∀ (op : HeapOp α) (e : Fault), op.call.reply arr = .error e → e ≠ .badAlloc →
          arr.actualSize = 0 ∧ op.call.after arr = arr) ∧
        ∃ out arr', (drain arr.actualSize).run arr = .ok out arr' ∧ arr'.actualSize = 0 ∧
          out.Perm arr.contents ∧ out.Pairwise (· ≥ ·) := by
  refine ⟨?_, ?_⟩
  · intro arr xs h hn
    obtain ⟨arr', xs', hrun, hsifted, -⟩ := makeHeap_run h hn
    exact ⟨arr', hrun, by rw [hsifted.holds.contents_eq]; exact hsifted.perm⟩
  · intro start ops horigin hadm arr harr
    obtain ⟨m, hrun, hrep⟩ := heap_refines.run ops start _ horigin.represents hadm
    rw [← harr] at hrep
    obtain ⟨xs, h, hheap, rfl⟩ := hrep
    have hsize : arr.actualSize = xs.length := h.length_eq.symm
    refine ⟨by rw [h.contents_eq]; exact hrun, ?_, ?_, ?_⟩
    · intro i hpos hi
      exact subscript_parent h hheap hpos (by rw [← hsize]; exact hi)
    · intro op e hreply hne
      exact throws_empty h hheap hreply hne
    · obtain ⟨out, arr', hdrain, hempty, hperm, hsorted⟩ := drain_run _ arr xs h rfl hheap
      refine ⟨out, arr', by rw [hsize]; exact hdrain, hempty.length_eq.symm, ?_, hsorted⟩
      rw [h.contents_eq]
      exact hperm

/-- The array of the unit test, arranged, asked for its maximum, and grown past its capacity. -/
theorem heap_runs_testBuildHeap :
    (⟨[some 1, some 4, some 9, some 3, some 1, some 5], 6, 6⟩ : DArray Int).Holds
      [1, 4, 9, 3, 1, 5] ∧
    Spec.Run PriorityQueue (([9, 4, 5, 3, 1, 1] : List Int) : Multiset Int)
      [.extractMax, .add 20, .add 6, .heapMaximum]
      [.ok (some 9), .ok none, .ok none, .ok (some 20)]
      (([20, 4, 6, 3, 1, 1, 5] : List Int) : Multiset Int) := by
  have hholds : (⟨[some 1, some 4, some 9, some 3, some 1, some 5], 6, 6⟩ : DArray Int).Holds
      [1, 4, 9, 3, 1, 5] := ⟨rfl, rfl, by decide, by decide, by decide⟩
  refine ⟨hholds, ?_⟩
  have horigin : Origin (⟨[some 9, some 4, some 5, some 3, some 1, some 1], 6, 6⟩ : DArray Int) :=
    Origin.made hholds (by decide) rfl
  exact ((heap_runs_as_priorityQueue (α := Int)).2 _
    [.extractMax, .add 20, .add 6, .heapMaximum] horigin (by decide) _ rfl).1

end Technopark.Heap
