/-
`shell_sort` sorts.

`Inserted` is what the inner loop does to an array, seen with `tmp` written back to the
place it would go to: the element at a position changes places with the one `h` before it,
as long as that one is greater.  Exchanges keep the elements, whatever the gap, so every
pass is a permutation; with gap 1 they are the insertion of `Lib/Insertion.lean`, so the
last pass sorts, and what the passes before it have achieved does not matter.

That there is a last pass with gap 1 is in the way the first gap is found (`Gap`): dividing
`3 h + 1` by 3 gives `h` back, down to the 1 the search has started from.
-/
import Technopark.Algorithms.ShellSort
import Technopark.Lib.Insertion
import Mathlib.Logic.Function.Iterate
import Mathlib.Order.ConditionallyCompleteLattice.Basic
import Mathlib.Data.Int.ConditionallyCompleteOrder

namespace Technopark.ShellSort

open HeapOrder Insertion

variable {xs ys : List Int}

/-! ### Single accesses -/

theorem int_run {n : Int} (hlow : 0 ≤ n) (hhigh : n ≤ intMax) (xs : List Int) :
    (int n).run xs = .ok n xs := by
  have hint : -intMax - 1 ≤ n ∧ n ≤ intMax := by
    refine ⟨?_, hhigh⟩
    unfold intMax
    omega
  rw [int, if_pos hint]
  rfl

theorem load_run {i : Nat} (hi : i < xs.length) : (load i).run xs = .ok xs[i] xs := by
  have hneg : ¬ (i : Int) < 0 := by omega
  simp [load, hneg, hi]

theorem store_run {i : Nat} (hi : i < xs.length) (value : Int) :
    (store i value).run xs = .ok () (xs.set i value) := by
  simp [store, hi]

/-! ### One insertion -/

/-- The element at a position, as a function on positions. -/
def cell (xs : List Int) (i : Nat) : Int := xs.getD i 0

theorem cell_eq {i : Nat} (hi : i < xs.length) : cell xs i = xs[i] := by
  simp [cell, hi]

theorem exchanged_swap {i j : Nat} (hi : i < xs.length) (hj : j < xs.length) :
    Exchanged i j (cell xs) (cell (xs.swap i j)) := exchanged_getD 0 hi hj

/-- The element at `j` has moved down in steps of `h` to where it belongs. -/
inductive Inserted (h : Nat) : List Int → Nat → List Int → Prop
  | stop {xs : List Int} {j : Nat} (hstop : h ≤ j → cell xs (j - h) ≤ cell xs j) :
      Inserted h xs j xs
  | move {xs ys : List Int} {j : Nat} (hj : h ≤ j) (hlt : cell xs j < cell xs (j - h))
      (hrest : Inserted h (xs.swap j (j - h)) (j - h) ys) : Inserted h xs j ys

theorem Inserted.perm {h j : Nat} (hins : Inserted h xs j ys) : ys.Perm xs := by
  induction hins with
  | stop _ => exact List.Perm.refl _
  | move _ _ _ ih => exact ih.trans (List.swap_perm ..)

/-- With gap 1 the prefix is in order once the element has found its place. -/
theorem Inserted.ordered {j n : Nat} (hins : Inserted 1 xs j ys) :
    j < n → n ≤ xs.length → Inserting n (cell xs) j → OrderedTo n (cell ys) := by
  induction hins with
  | stop hstop => exact fun _ _ hinserting => hinserting.stop hstop
  | @move xs ys j hj hlt _ ih =>
      intro hjn hn hinserting
      obtain ⟨i, rfl⟩ : ∃ i, j = i + 1 := ⟨j - 1, by omega⟩
      have hex : Exchanged (i + 1) i (cell xs) (cell (xs.swap (i + 1) i)) :=
        exchanged_swap (by omega) (by omega)
      exact ih (by omega) (by rw [List.length_swap]; exact hn)
        (hinserting.exchange hjn (le_of_lt hlt) hex)

/-- One step of the inner loop, with `tmp` written to the hole before and after. -/
theorem set_shift {h j : Nat} (hpos : 0 < h) (hj : h ≤ j) (hlt : j < xs.length) (tmp : Int) :
    (xs.set j xs[j - h]).set (j - h) tmp = (xs.set j tmp).swap j (j - h) := by
  have hne : j ≠ j - h := by omega
  rw [List.swap_eq_of_lt (by simpa using hlt) (by simp; omega)]
  simp [List.getElem_set_ne hne, List.set_set]

/-- **The inner loop finds the place of `tmp`.** -/
theorem shift_run {h : Nat} (hpos : 0 < h) (tmp : Int) :
    ∀ (fuel j : Nat) (xs : List Int), j < fuel → j < xs.length →
      ∃ (j' : Nat) (ys : List Int), (shift h tmp fuel j).run xs = .ok (j' : Int) ys ∧
        j' < ys.length ∧ Inserted h (xs.set j tmp) j (ys.set j' tmp) := by
  intro fuel
  induction fuel with
  | zero => intro j xs hfuel _; omega
  | succ fuel ih =>
      intro j xs hfuel hlt
      have hset : cell (xs.set j tmp) j = tmp := by
        rw [cell_eq (by simpa using hlt), List.getElem_set_self]
      by_cases hj : h ≤ j
      · have hsub : (j : Int) - h = (j - h : Nat) := by omega
        have hcell : cell (xs.set j tmp) (j - h) = xs[j - h] := by
          rw [cell_eq (by rw [List.length_set]; omega), List.getElem_set_ne (by omega)]
        have hrun : (shift h tmp (fuel + 1) j).run xs
            = (if tmp < xs[j - h] then do
                  store j xs[j - h]
                  shift h tmp fuel (j - h : Nat)
                else return (j : Int) : Call (List Int) Int).run xs := by
          rw [shift, if_pos (by omega), hsub, Call.run_bind_ok (load_run (by omega))]
        rw [hrun]
        by_cases htmp : tmp < xs[j - h]
        · obtain ⟨j', ys, hrest, hj', hins⟩ := ih (j - h) (xs.set j xs[j - h]) (by omega)
            (by rw [List.length_set]; omega)
          refine ⟨j', ys, ?_, hj', .move hj ?_ ?_⟩
          · rw [if_pos htmp, Call.run_bind_ok (store_run hlt _), hrest]
          · rw [hset, hcell]
            exact htmp
          · rw [← set_shift hpos hj hlt]
            exact hins
        · refine ⟨j, xs, by rw [if_neg htmp]; rfl, hlt, .stop ?_⟩
          intro _
          rw [hset, hcell]
          exact not_lt.mp htmp
      · refine ⟨j, xs, ?_, hlt, .stop fun hle => absurd hle hj⟩
        rw [shift, if_neg (by omega)]
        rfl

theorem insertAt_run {h i : Nat} (hpos : 0 < h) (hi : i < xs.length) :
    ∃ ys, (insertAt h i).run xs = .ok () ys ∧ Inserted h xs i ys := by
  obtain ⟨j, ys, hrun, hj, hins⟩ := shift_run hpos xs[i] (i + 1) i xs (Nat.lt_succ_self i) hi
  rw [List.set_getElem_self] at hins
  refine ⟨_, ?_, hins⟩
  rw [insertAt, Call.run_bind_ok (load_run hi)]
  show (do let j ← shift h xs[i] (i + 1) i; store j xs[i] : Call (List Int) Unit).run xs = _
  rw [Call.run_bind_ok hrun, store_run hj]

/-! ### One pass -/

/-- **A pass keeps the elements, and with gap 1 it puts them in order.** -/
theorem pass_run {h : Nat} (hpos : 0 < h) :
    ∀ (fuel i : Nat) (xs : List Int), xs.length - i < fuel → (xs.length : Int) ≤ intMax →
      ∃ ys, (pass xs.length h fuel i).run xs = .ok () ys ∧ ys.Perm xs ∧
        (h = 1 → OrderedTo i (cell xs) → OrderedTo ys.length (cell ys)) := by
  intro fuel
  induction fuel with
  | zero => intro i xs hfuel _; omega
  | succ fuel ih =>
      intro i xs hfuel hmax
      by_cases hi : i < xs.length
      · obtain ⟨zs, hinsert, hins⟩ := insertAt_run hpos hi
        have hlen : zs.length = xs.length := hins.perm.length_eq
        obtain ⟨ys, hrest, hperm, hordered⟩ := ih (i + 1) zs (by omega) (by omega)
        refine ⟨ys, ?_, hperm.trans hins.perm, ?_⟩
        · rw [hlen] at hrest
          rw [pass, if_pos (by omega), Call.run_bind_ok hinsert,
            Call.run_bind_ok (int_run (by omega) (by omega) zs)]
          exact hrest
        · intro hone hprefix
          subst hone
          exact hordered rfl (hins.ordered (Nat.lt_succ_self i) hi (Inserting.start hprefix))
      · refine ⟨xs, ?_, List.Perm.refl _, ?_⟩
        · rw [pass, if_neg (by omega)]
          rfl
        · intro _ hprefix a b hab hb
          exact hprefix a b hab (by omega)

/-! ### The gaps -/

/-- The gaps the first loop goes through. -/
inductive Gap : Nat → Prop
  | one : Gap 1
  | next {h : Nat} (hgap : Gap h) : Gap (3 * h + 1)

/-- What dividing a gap by three gives. -/
theorem tdiv_next (h : Nat) : ((3 * h + 1 : Nat) : Int).tdiv 3 = h := by
  have hdiv : (3 * h + 1) / 3 = h := by omega
  have hcast := Int.ofNat_tdiv (3 * h + 1) 3
  rw [hdiv] at hcast
  exact hcast.symm

/-- The second loop goes through them backwards. -/
theorem Gap.reaches_one {h : Nat} (hgap : Gap h) : ∃ k, (fun h : Int => h.tdiv 3)^[k] h = 1 := by
  induction hgap with
  | one => exact ⟨0, rfl⟩
  | @next h _ ih =>
      obtain ⟨k, hk⟩ := ih
      refine ⟨k + 1, ?_⟩
      rw [Function.iterate_succ_apply, tdiv_next]
      exact hk

theorem firstGap_run {n : Nat} (hmax : (n : Int) ≤ intMax) :
    ∀ (fuel h : Nat) (xs : List Int), n / 9 + 1 - h < fuel → Gap h →
      ∃ h' : Nat, (firstGap n fuel h).run xs = .ok (h' : Int) xs ∧ Gap h' := by
  unfold intMax at hmax
  have hninth : (n : Int).tdiv 9 = (n / 9 : Nat) := (Int.ofNat_tdiv n 9).symm
  intro fuel
  induction fuel with
  | zero => intro h xs hfuel _; omega
  | succ fuel ih =>
      intro h xs hfuel hgap
      by_cases hh : h ≤ n / 9
      · obtain ⟨h', hrest, hgap'⟩ := ih (3 * h + 1) xs (by omega) hgap.next
        refine ⟨h', ?_, hgap'⟩
        rw [firstGap, hninth, if_pos (by omega),
          Call.run_bind_ok (int_run (by omega) (by unfold intMax; omega) xs),
          Call.run_bind_ok (int_run (by omega) (by unfold intMax; omega) xs)]
        exact hrest
      · refine ⟨h, ?_, hgap⟩
        rw [firstGap, hninth, if_neg (by omega)]
        rfl

/-- **The passes end in order.** -/
theorem passes_run {h : Nat} (hgap : Gap h) :
    ∀ (fuel : Nat) (xs : List Int), h < fuel → (xs.length : Int) ≤ intMax →
      ∃ ys, (passes xs.length fuel h).run xs = .ok () ys ∧ ys.Perm xs ∧
        OrderedTo ys.length (cell ys) := by
  induction hgap with
  | one =>
      intro fuel xs hfuel hmax
      obtain ⟨fuel, rfl⟩ : ∃ m, fuel = m + 2 := ⟨fuel - 2, by omega⟩
      obtain ⟨ys, hpass, hperm, hordered⟩ :=
        pass_run Nat.one_pos (xs.length + 1) 1 xs (by omega) hmax
      refine ⟨ys, ?_, hperm, hordered rfl fun i j hij hj => by omega⟩
      show (passes xs.length (fuel + 2) 1).run xs = _
      rw [passes, if_pos (by decide)]
      exact Call.run_bind_ok hpass
  | @next h hgap ih =>
      intro fuel xs hfuel hmax
      obtain ⟨fuel, rfl⟩ : ∃ m, fuel = m + 1 := ⟨fuel - 1, by omega⟩
      obtain ⟨zs, hpass, hperm, -⟩ :=
        pass_run (Nat.succ_pos (3 * h)) (xs.length + 1) (3 * h + 1) xs (by omega) hmax
      have hlen : zs.length = xs.length := hperm.length_eq
      obtain ⟨ys, hrest, hperm', hordered⟩ := ih fuel zs (by omega) (by omega)
      refine ⟨ys, ?_, hperm'.trans hperm, hordered⟩
      rw [hlen] at hrest
      rw [passes, if_pos (by omega), tdiv_next]
      exact (Call.run_bind_ok hpass).trans hrest

/--
**`shell_sort` sorts every array of up to `INT_MAX` elements**: it stays inside the array and
the ranges of its variables, and leaves a permutation of the elements in order.  Its gaps
come down to 1.
-/
theorem shellSort_sorts (xs : List Int) (hmax : (xs.length : Int) ≤ intMax) :
    (∃ ys, (shellSort xs.length).run xs = .ok () ys ∧ ys.Perm xs ∧ ys.Pairwise (· ≤ ·)) ∧
      ∃ h k, (firstGap xs.length (xs.length + 1) 1).run xs = .ok h xs ∧
        (fun h : Int => h.tdiv 3)^[k] h = 1 := by
  obtain ⟨h, hfirst, hgap⟩ := firstGap_run hmax (xs.length + 1) 1 xs (by omega) .one
  obtain ⟨ys, hpasses, hperm, hordered⟩ :=
    passes_run hgap (h + 1) xs (Nat.lt_succ_self h) hmax
  obtain ⟨k, hk⟩ := hgap.reaches_one
  refine ⟨⟨ys, ?_, hperm, ?_⟩, h, k, hfirst, hk⟩
  · exact (Call.run_bind_ok hfirst).trans hpasses
  · rw [List.pairwise_iff_getElem]
    intro i j hi hj hij
    have hle := hordered i j hij hj
    rwa [cell_eq hi, cell_eq hj] at hle

theorem shellSort_sorts_three :
    ∃ ys, (shellSort 3).run [5, -1, 5] = .ok () ys ∧ ys.Perm [5, -1, 5] ∧ ys.Pairwise (· ≤ ·) :=
  (shellSort_sorts [5, -1, 5] (by decide)).1

end Technopark.ShellSort
