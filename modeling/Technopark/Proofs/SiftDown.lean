/-
`SiftDown` repairs one node and nothing else.

`siftDown_run` has most of it: with the subtree at `i` for the parents that are to be in
order, the two subtrees below `i` are what a sinking hole at `i` needs, and the frame it
leaves is the complement.  What is in the subtree is then what is left of all elements when
those outside are taken away, so it is rearranged as the whole array is.

`siftDown_run` and `makeHeap_run` speak of arrays whose allocation has their full capacity.  A
sift neither reads nor changes the capacity (`Blind`), so what holds of these holds of every
array whose elements have been written.
-/
import Technopark.Lib.Subtree
import Technopark.Proofs.DArrayAt
import Technopark.Proofs.Heap

namespace Technopark.Heap

open DArray HeapOrder

variable {α β : Type} {arr : DArray α} {xs : List α}

/-! ### The capacity is not looked at -/

/-- The array with another capacity written down. -/
def withCapacity (arr : DArray α) (c : Nat) : DArray α := { arr with bufSize := c }

/-- A call that returns does the same whatever the capacity is, and leaves it. -/
def Blind (x : Call (DArray α) β) : Prop :=
  ∀ (arr arr' : DArray α) (b : β) (c : Nat), x.run arr = .ok b arr' →
    x.run (withCapacity arr c) = .ok b (withCapacity arr' c)

theorem Blind.pure (b : β) : Blind (pure b : Call (DArray α) β) := by
  intro arr arr' b' c h
  injection h with hb harr
  rw [← hb, ← harr]
  rfl

theorem Blind.bind {γ : Type} {x : Call (DArray α) γ} {f : γ → Call (DArray α) β}
    (hx : Blind x) (hf : ∀ a, Blind (f a)) : Blind (x >>= f) := by
  intro arr arr' b c h
  cases hrun : x.run arr with
  | ok a arr₁ =>
      rw [Call.run_bind_ok hrun] at h
      rw [Call.run_bind_ok (hx arr arr₁ a c hrun)]
      exact hf a arr₁ arr' b c h
  | error e arr₁ =>
      rw [Call.run_bind_error hrun] at h
      injection h

theorem Blind.ite {p : Prop} [Decidable p] {x y : Call (DArray α) β} (hx : Blind x)
    (hy : Blind y) : Blind (if p then x else y) := by
  split
  · exact hx
  · exact hy

theorem size_blind : Blind (size : Call (DArray α) Nat) := by
  intro arr arr' n c h
  injection h with hn harr
  rw [← hn, ← harr]
  rfl

theorem subscript_blind (i : Nat) : Blind (subscript i : Call (DArray α) α) := by
  intro arr arr' x c h
  rw [subscript, Call.run_bind_ok (EStateM.run_get arr)] at h
  split at h
  · rename_i y hcell
    injection h with hx harr
    simp [subscript, withCapacity, hcell, ← hx, ← harr]
  · injection h
  · injection h

theorem assign_blind (i : Nat) (x : α) : Blind (assign i x) := by
  intro arr arr' u c h
  rw [assign, Call.run_bind_ok (EStateM.run_get arr)] at h
  rw [assign, Call.run_bind_ok (EStateM.run_get _)]
  by_cases hi : i < arr.buffer.length
  · rw [if_pos hi] at h
    injection h with _ harr
    rw [if_pos (show i < (withCapacity arr c).buffer.length from hi), ← harr]
    rfl
  · rw [if_neg hi] at h
    injection h

theorem swap_blind (i j : Nat) : Blind (DArray.swap i j : Call (DArray α) Unit) :=
  (subscript_blind i).bind fun y => (subscript_blind j).bind fun x =>
    (assign_blind i x).bind fun _ => assign_blind j y

section
variable [LT α] [DecidableLT α]

theorem larger_blind (index largest : Nat) :
    Blind (larger index largest : Call (DArray α) Nat) := by
  refine size_blind.bind fun n => Blind.ite ?_ (Blind.pure _)
  refine (subscript_blind _).bind fun x => (subscript_blind _).bind fun y => ?_
  exact Blind.ite (Blind.pure _) (Blind.pure _)

theorem siftDownFrom_blind (fuel : Nat) :
    ∀ i, Blind (siftDownFrom fuel i : Call (DArray α) Unit) := by
  induction fuel with
  | zero =>
      intro i arr arr' u c h
      injection h
  | succ fuel ih =>
      intro i
      refine (larger_blind _ _).bind fun l => (larger_blind _ _).bind fun l' => ?_
      refine Blind.ite ?_ (Blind.pure _)
      exact (swap_blind i l').bind fun _ => ih l'

theorem siftDown_blind (i : Nat) : Blind (siftDown i : Call (DArray α) Unit) :=
  size_blind.bind fun n => siftDownFrom_blind (n + 1) i

theorem makeHeapFrom_blind (k : Nat) : Blind (makeHeapFrom k : Call (DArray α) Unit) := by
  induction k with
  | zero => exact Blind.pure ()
  | succ k ih => exact (siftDown_blind k).bind fun _ => ih

theorem makeHeap_blind : Blind (makeHeap : Call (DArray α) Unit) :=
  size_blind.bind fun _ => makeHeapFrom_blind _

end

/-! ### One node and its subtree -/

/-- The array in the capacity it was really allocated with. -/
theorem holds_of_sound (h : arr.Sound) (hpos : 0 < arr.actualSize) :
    (withCapacity arr arr.buffer.length).Holds arr.contents :=
  ⟨(map_contents h).symm, rfl, h.served, Nat.lt_of_lt_of_le hpos h.fits, h.fits⟩

variable [Zero α]

/-- All elements, position by position. -/
theorem map_key_range (xs : List α) :
    (Multiset.range xs.length).map (key xs) = (xs : Multiset α) := by
  have hmap : (List.range xs.length).map (key xs) = xs := by
    refine List.ext_getElem (by simp) ?_
    intro j _ hj
    rw [List.getElem_map, List.getElem_range, key_eq hj]
  rw [← Multiset.coe_range, Multiset.map_coe, hmap]

variable [Preorder α]

/-- What `SiftDown(arr, i)` leaves. -/
structure Repaired (i : Nat) (arr arr' : DArray α) : Prop where
  size : arr'.actualSize = arr.actualSize
  ordered : HeapOn (subtree i) arr.actualSize (key arr'.contents)
  rearranged : elements (subtree i) arr.actualSize (key arr'.contents)
    = elements (subtree i) arr.actualSize (key arr.contents)
  frame : ∀ j, j ∉ subtree i → arr'.contents[j]? = arr.contents[j]?
  greatest : IsGreatest {x | x ∈ elements (subtree i) arr.actualSize (key arr.contents)}
    (key arr'.contents i)

/--
**`SiftDown` at a node whose two subtrees are in order returns, puts the subtree at the node
in order with its greatest element on top, rearranges the elements of that subtree, and
leaves all others where they are.**
-/
theorem siftDown_repairs [Std.Total (α := α) (· ≤ ·)] [DecidableLT α] (arr : DArray α)
    (harr : arr.Sound) (i : Nat) (hi : i < arr.actualSize)
    (hleft : HeapOn (subtree (2 * i + 1)) arr.actualSize (key arr.contents))
    (hright : HeapOn (subtree (2 * i + 2)) arr.actualSize (key arr.contents)) :
    ∃ arr', (siftDown i).run arr = .ok () arr' ∧ Repaired i arr arr' := by
  have hholds := holds_of_sound harr (Nat.lt_of_le_of_lt (Nat.zero_le i) hi)
  have hsize : arr.contents.length = arr.actualSize := hholds.length_eq
  rw [← hsize] at hi hleft hright
  obtain ⟨arr₁, xs', hrun, hsifted, hheap, hframe⟩ :=
    siftDown_run (subtree_childClosed i) hholds hi Below.root (sinking_subtree hleft hright)
  have hlen : xs'.length = arr.contents.length := hsifted.perm.length_eq
  -- back to the capacity that is written down
  have hback := siftDown_blind i _ _ () arr.bufSize hrun
  refine ⟨withCapacity arr₁ arr.bufSize, hback, ?_⟩
  have hcontents : (withCapacity arr₁ arr.bufSize).contents = xs' := hsifted.holds.contents_eq
  have hrearranged : elements (subtree i) arr.contents.length (key xs')
      = elements (subtree i) arr.contents.length (key arr.contents) := by
    refine elements_eq_of_frame ?_ fun j hj => hframe j hj
    rw [map_key_range, ← hlen, map_key_range]
    exact Multiset.coe_eq_coe.mpr hsifted.perm
  rw [hlen] at hheap
  refine ⟨?_, ?_, ?_, ?_, ?_⟩
  · show arr₁.actualSize = arr.actualSize
    rw [← hsifted.holds.length_eq, hlen, hsize]
  · rw [hcontents, ← hsize]
    exact hheap
  · rw [hcontents, ← hsize]
    exact hrearranged
  · intro j hj
    rw [hcontents]
    by_cases hin : j < arr.contents.length
    · have hkey := hframe j hj
      have hin' : j < xs'.length := by rw [hlen]; exact hin
      rw [key_eq hin, key_eq hin'] at hkey
      rw [List.getElem?_eq_getElem hin, List.getElem?_eq_getElem hin', hkey]
    · rw [List.getElem?_eq_none (Nat.not_lt.mp hin),
        List.getElem?_eq_none (by rw [hlen]; exact Nat.not_lt.mp hin)]
  · rw [hcontents, ← hsize]
    exact isGreatest_root hi hheap hrearranged

/-- The array of the unit test, whose only misplaced node is the root. -/
theorem siftDown_repairs_testBuildHeap :
    let arr : DArray Int := ⟨[some 1, some 4, some 9, some 3, some 1, some 5], 6, 6⟩
    ∃ arr', (siftDown 0).run arr = .ok () arr' ∧ Repaired 0 arr arr' := by
  have hordered : ∀ j < 6, 1 ≤ parent j →
      key [1, 4, 9, 3, 1, 5] j ≤ key [1, 4, 9, 3, 1, (5 : Int)] (parent j) := by decide
  have hholds : (⟨[some 1, some 4, some 9, some 3, some 1, some 5], 6, 6⟩ : DArray Int).Holds
      [1, 4, 9, 3, 1, 5] := ⟨rfl, rfl, by decide, by decide, by decide⟩
  refine siftDown_repairs _ hholds.sound 0 (by decide) ?_ ?_
  · intro j _ hj hmem
    exact hordered j hj hmem.le
  · intro j _ hj hmem
    exact hordered j hj (Nat.le_of_succ_le hmem.le)

/-! ### Building a heap -/

/--
**`MakeHeap` builds a heap from anything**: it returns on every array whose size leaves
the `int` it counts in intact, an empty one included, keeps the elements and orders them.
-/
theorem makeHeap_builds_heap [Std.Total (α := α) (· ≤ ·)] [DecidableLT α] (arr : DArray α)
    (h : arr.Sound) (hn : arr.actualSize ≤ 2 ^ 32 + 1) :
    ∃ arr', makeHeap.run arr = .ok () arr' ∧ arr'.actualSize = arr.actualSize ∧
      arr'.contents.Perm arr.contents ∧
      ∀ i, 0 < i → i < arr'.actualSize →
        ∃ x y, (subscript i).run arr' = .ok x arr' ∧
          (subscript ((i - 1) / 2)).run arr' = .ok y arr' ∧ x ≤ y := by
  rcases Nat.eq_zero_or_pos arr.actualSize with hsize | hpos
  · refine ⟨arr, ?_, rfl, List.Perm.refl _, fun i _ hi => by omega⟩
    rw [makeHeap_eq hn, hsize]
    rfl
  · have hholds := holds_of_sound h hpos
    have hlen : arr.contents.length = arr.actualSize := hholds.length_eq
    have hshort : arr.contents.length ≤ 2 ^ 32 + 1 := hlen.trans_le hn
    obtain ⟨arr₁, xs', hrun, hsifted, hheap⟩ := makeHeap_run hholds hshort
    have hsize : xs'.length = arr₁.actualSize := hsifted.holds.length_eq
    have hcontents : arr₁.contents = xs' := hsifted.holds.contents_eq
    have hback := makeHeap_blind _ _ () arr.bufSize hrun
    have hsame : withCapacity (withCapacity arr arr.buffer.length) arr.bufSize = arr := rfl
    rw [hsame] at hback
    refine ⟨withCapacity arr₁ arr.bufSize, hback, ?_, ?_, ?_⟩
    · show arr₁.actualSize = arr.actualSize
      rw [← hsize, ← hlen]
      exact hsifted.perm.length_eq
    · show arr₁.contents.Perm arr.contents
      rw [hcontents]
      exact hsifted.perm
    · intro i hipos hi
      obtain ⟨x, y, hx, hy, hle⟩ :=
        subscript_parent hsifted.holds hheap hipos (by rw [hsize]; exact hi)
      exact ⟨x, y, subscript_blind i _ _ x _ hx, subscript_blind _ _ _ y _ hy, hle⟩

/-- The array of the unit test. -/
theorem makeHeap_builds_testBuildHeap :
    ∃ arr', makeHeap.run (⟨[some 1, some 4, some 9, some 3, some 1, some 5], 6, 6⟩ : DArray Int)
        = .ok () arr' ∧ arr'.actualSize = 6 ∧ arr'.contents.Perm [1, 4, 9, 3, 1, 5] := by
  have hholds : (⟨[some 1, some 4, some 9, some 3, some 1, some 5], 6, 6⟩ : DArray Int).Holds
      [1, 4, 9, 3, 1, 5] := ⟨rfl, rfl, by decide, by decide, by decide⟩
  obtain ⟨arr', hrun, hsize, hperm, -⟩ := makeHeap_builds_heap _ hholds.sound (by decide)
  rw [hholds.contents_eq] at hperm
  exact ⟨arr', hrun, hsize, hperm⟩

end Technopark.Heap
