/-
`DArray::At` in every state that pushes and pops lead to.

The guard compares the index with `actual_size_ - 1`, both as `size_t`.  A negative index
becomes a number far above any size, so it is refused with the others.  In an empty array
the difference wraps to the greatest `size_t`, which no index exceeds: there the guard
refuses nothing, and every access reads a cell that holds no element.

A constructor whose multiplication wrapped has fewer cells than its capacity says, so the
invariant here speaks of the cells and not of the capacity.
-/
import Mathlib.Data.Set.List
import Technopark.Proofs.DArray

namespace Technopark.DArray

variable {α : Type} {arr : DArray α}

/-- The elements have been written, in an allocation that can be served. -/
structure Sound (arr : DArray α) : Prop where
  written : ∀ i < arr.actualSize, ∃ x, arr.buffer[i]? = some (some x)
  served : arr.buffer.length * sizeofDouble ≤ ptrdiffMax

namespace Sound

theorem fits (h : arr.Sound) : arr.actualSize ≤ arr.buffer.length := by
  by_contra hover
  obtain ⟨x, hx⟩ := h.written arr.buffer.length (Nat.not_le.mp hover)
  rw [List.getElem?_eq_none (Nat.le_refl _)] at hx
  injection hx

theorem length_lt (h : arr.Sound) : arr.buffer.length < 2 ^ 60 := by
  have hserved := h.served
  unfold sizeofDouble ptrdiffMax at hserved
  omega

/-- Reading an element. -/
theorem subscript_run (h : arr.Sound) {i : Nat} (hi : i < arr.actualSize) :
    ∃ x, arr.buffer[i]? = some (some x) ∧ (subscript i).run arr = .ok x arr := by
  obtain ⟨x, hx⟩ := h.written i hi
  exact ⟨x, hx, by simp [subscript, hx]⟩

/-- Writing a cell keeps the elements written. -/
theorem assign (h : arr.Sound) (i : Nat) (x : α) :
    Sound { arr with buffer := arr.buffer.set i (some x) } := by
  refine ⟨?_, ?_⟩
  · intro j hj
    obtain ⟨y, hy⟩ := h.written j hj
    by_cases hij : i = j
    · subst hij
      exact ⟨x, List.getElem?_set_self (Nat.lt_of_lt_of_le hj h.fits)⟩
    · exact ⟨y, (List.getElem?_set_ne hij).trans hy⟩
  · show (arr.buffer.set i (some x)).length * _ ≤ _
    rw [List.length_set]
    exact h.served

/-- The element behind the last one becomes the last one. -/
theorem append (h : arr.Sound) (hroom : arr.actualSize < arr.buffer.length) (x : α) :
    Sound { arr with
      buffer := arr.buffer.set arr.actualSize (some x), actualSize := arr.actualSize + 1 } := by
  have hset := h.assign arr.actualSize x
  refine ⟨?_, hset.served⟩
  intro j hj
  rcases Nat.lt_succ_iff_lt_or_eq.mp hj with hlt | rfl
  · exact hset.written j hlt
  · exact ⟨x, List.getElem?_set_self hroom⟩

end Sound

theorem Holds.sound {xs : List α} (h : arr.Holds xs) : arr.Sound := by
  refine ⟨?_, ?_⟩
  · intro i hi
    rw [← h.length_eq] at hi
    exact ⟨xs[i], h.cell hi⟩
  · rw [h.allocated]
    exact h.served

theorem new_sound [Zero α] {bufferSize : Nat} (hnew : new bufferSize = .ok arr) : arr.Sound := by
  obtain ⟨hserved, rfl⟩ := new_inv hnew
  refine ⟨fun i hi => absurd hi (Nat.not_lt_zero i), ?_⟩
  show (List.replicate _ _).length * _ ≤ _
  rw [List.length_replicate]
  exact Nat.le_trans (Nat.div_mul_le_self _ _) hserved

/-! ### What a call leaves -/

/-- Without room for an element the array is written outside its allocation. -/
theorem store_sound (h : arr.Sound) (x : α) :
    (∃ arr', (store x).run arr = .ok () arr' ∧ arr'.Sound) ∨
    (store x).run arr = .error (.undefined .outOfBounds) arr := by
  by_cases hroom : arr.actualSize < arr.buffer.length
  · have hlen := h.length_lt
    have hsucc : sizeT (arr.actualSize + 1) = arr.actualSize + 1 := sizeT_eq (by omega)
    exact .inl ⟨_, by simp [store, DArray.assign, hroom, hsucc], h.append hroom x⟩
  · exact .inr (by simp [store, DArray.assign, hroom])

/-- Doubling keeps the elements, fails to allocate or copies from outside the allocation. -/
theorem reallocate_sound (h : arr.Sound) (hfull : arr.actualSize = arr.bufSize) :
    (∃ arr', reallocate.run arr = .ok () arr' ∧ arr'.Sound) ∨
    reallocate.run arr = .error .badAlloc arr ∨
    reallocate.run arr = .error (.undefined .outOfBounds) arr := by
  have hlen := h.length_lt
  have hfits := h.fits
  by_cases hserved : ptrdiffMax < sizeT (arr.bufSize * 2) * sizeofDouble
  · exact .inr (.inl (by simp [reallocate, hserved]))
  have hcopied : sizeT (arr.bufSize * sizeofDouble) / sizeofDouble = arr.actualSize := by
    rw [← hfull, sizeT_eq (by unfold sizeofDouble; omega)]
    simp [sizeofDouble]
  by_cases hcopy : arr.buffer.length < arr.actualSize ∨ sizeT (arr.bufSize * 2) < arr.actualSize
  · exact .inr (.inr (by simp [reallocate, hserved, hcopied, hcopy]))
  refine .inl ⟨{ arr with
    buffer := arr.buffer.take arr.actualSize
      ++ List.replicate (sizeT (arr.bufSize * 2) - arr.actualSize) none
    bufSize := sizeT (arr.bufSize * 2) }, by simp [reallocate, hserved, hcopied, hcopy], ?_, ?_⟩
  · intro i hi
    obtain ⟨x, hx⟩ := h.written i hi
    refine ⟨x, ?_⟩
    have hlt : i < (arr.buffer.take arr.actualSize).length := by
      rw [List.length_take]
      exact Nat.lt_min.mpr ⟨hi, Nat.lt_of_lt_of_le hi hfits⟩
    show (arr.buffer.take arr.actualSize ++ _)[i]? = _
    rw [List.getElem?_append_left hlt, List.getElem?_take_of_lt hi, hx]
  · have hlength : (arr.buffer.take arr.actualSize
        ++ List.replicate (sizeT (arr.bufSize * 2) - arr.actualSize) none).length
          = sizeT (arr.bufSize * 2) := by
      rw [List.length_append, List.length_take, List.length_replicate]
      omega
    show (_ ++ _ : List (Option α)).length * _ ≤ _
    rw [hlength]
    exact Nat.not_lt.mp hserved

theorem pushBack_sound (h : arr.Sound) (x : α) :
    (∃ arr', (pushBack x).run arr = .ok () arr' ∧ arr'.Sound) ∨
    (pushBack x).run arr = .error .badAlloc arr ∨
    ∃ arr', (pushBack x).run arr = .error (.undefined .outOfBounds) arr' := by
  rw [pushBack_eq]
  by_cases hfull : arr.actualSize = arr.bufSize
  · have hgrow := makeRoom_full hfull
    rcases reallocate_sound h hfull with ⟨arr', hrun, hsound⟩ | hrun | hrun
    · rw [Call.run_bind_ok (hgrow.trans hrun)]
      rcases store_sound hsound x with ⟨arr'', hstore, hsound'⟩ | hstore
      · exact .inl ⟨arr'', hstore, hsound'⟩
      · exact .inr (.inr ⟨arr', hstore⟩)
    · exact .inr (.inl (Call.run_bind_error (hgrow.trans hrun)))
    · exact .inr (.inr ⟨arr, Call.run_bind_error (hgrow.trans hrun)⟩)
  · rw [Call.run_bind_ok (makeRoom_ready hfull)]
    rcases store_sound h x with ⟨arr', hstore, hsound⟩ | hstore
    · exact .inl ⟨arr', hstore, hsound⟩
    · exact .inr (.inr ⟨arr, hstore⟩)

theorem popBack_sound (h : arr.Sound) :
    popBack.run arr = .error (.runtimeError "DArray is empty") arr ∨
    ∃ x arr', popBack.run arr = .ok x arr' ∧ arr'.Sound := by
  by_cases hempty : arr.actualSize = 0
  · exact .inl (by simp [popBack, hempty])
  · obtain ⟨x, hx⟩ := h.written (arr.actualSize - 1) (by omega)
    refine .inr ⟨x, { arr with actualSize := arr.actualSize - 1 }, ?_, ?_, h.served⟩
    · simp [popBack, hempty, subscript, hx]
    · intro i hi
      exact h.written i (Nat.lt_of_lt_of_le hi (Nat.sub_le _ _))

/-- **A call whose meaning is defined leaves the elements written.** -/
theorem call_sound (h : arr.Sound) (op : DArrayOp α) :
    (op.call.after arr).Sound ∨ ∃ why, op.call.reply arr = .error (.undefined why) := by
  cases op with
  | pushBack x =>
      rcases pushBack_sound h x with ⟨arr', hrun, hsound⟩ | hrun | ⟨arr', hrun⟩
      · refine .inl ?_
        rw [DArrayOp.call, Call.after_bind_pure, Call.after_ok hrun]
        exact hsound
      · refine .inl ?_
        rw [DArrayOp.call, Call.after_bind_pure, Call.after_error hrun]
        exact h
      · exact .inr ⟨.outOfBounds, Call.reply_error (Call.run_bind_error hrun)⟩
  | popBack =>
      refine .inl ?_
      rw [DArrayOp.call, Call.after_map]
      rcases popBack_sound h with hrun | ⟨x, arr', hrun, hsound⟩
      · rw [Call.after_error hrun]
        exact h
      · rw [Call.after_ok hrun]
        exact hsound
  | write i x =>
      by_cases hlt : i < arr.buffer.length
      · have hcall : (DArrayOp.write i x).call.run arr
            = .ok none { arr with buffer := arr.buffer.set i (some x) } := by
          simp [DArrayOp.call, DArray.assign, hlt]
        rw [Call.after_ok hcall]
        exact .inl (h.assign i x)
      · have hcall : (DArrayOp.write i x).call.run arr = .error (.undefined .outOfBounds) arr := by
          simp [DArrayOp.call, DArray.assign, hlt]
        exact .inr ⟨.outOfBounds, Call.reply_error hcall⟩

/-! ### Reachable arrays -/

/-- The arrays that calls with a defined meaning lead to. -/
inductive Reached [Zero α] : DArray α → Prop
  | new {arr : DArray α} (bufferSize : Nat) (h : new bufferSize = .ok arr) : Reached arr
  | call {arr : DArray α} (op : DArrayOp α) (h : Reached arr)
      (hdefined : ∀ why, op.call.reply arr ≠ .error (.undefined why)) : Reached (op.call.after arr)

theorem Reached.sound [Zero α] (h : Reached arr) : arr.Sound := by
  induction h with
  | new bufferSize h => exact new_sound h
  | call op h hdefined ih =>
      rcases call_sound ih op with hsound | ⟨why, hreply⟩
      · exact hsound
      · exact absurd hreply (hdefined why)

/-! ### `At` -/

/-- The values of an `int`. -/
def IsInt (n : Int) : Prop := -2 ^ 31 ≤ n ∧ n < 2 ^ 31

/-- `At(index)` throws if the index is out of range, and else reads the element there. -/
structure AtChecks (arr : DArray α) (index : Int) : Prop where
  throws : index < 0 ∨ arr.actualSize ≤ index →
    (elementAt index).run arr = .error (.runtimeError "out of range") arr
  returns : 0 ≤ index → index < arr.actualSize →
    ∃ x, arr.contents[index.toNat]? = some x ∧ (elementAt index).run arr = .ok x arr

/-- The branches of `At`. -/
theorem elementAt_run (arr : DArray α) (index : Int) :
    (elementAt index).run arr
      = if sizeTSub arr.actualSize 1 < sizeTOfInt index then
          .error (.runtimeError "out of range") arr
        else if index < 0 then .error (.undefined .outOfBounds) arr
        else (subscript index.toNat).run arr := by
  rw [elementAt, Call.run_bind_ok (EStateM.run_get arr)]
  split
  · rfl
  · split
    · rfl
    · rfl

/-- The guard of an array with elements refuses exactly the indices that are out of range. -/
theorem guard_iff {n : Nat} {index : Int} (hn : 0 < n) (hlt : n < 2 ^ 60) (hint : IsInt index) :
    sizeTSub n 1 < sizeTOfInt index ↔ index < 0 ∨ (n : Int) ≤ index := by
  obtain ⟨hlow, hhigh⟩ := hint
  rw [sizeTSub_eq hn (by omega)]
  unfold sizeTOfInt sizeMod
  omega

/-- The guard of an empty array refuses nothing. -/
theorem guard_empty (index : Int) : ¬ sizeTSub 0 1 < sizeTOfInt index := by
  unfold sizeTSub sizeT sizeTOfInt sizeMod
  omega

/-- The cells below `Size()` are the contents. -/
theorem map_contents (h : arr.Sound) : arr.contents.map some = arr.buffer.take arr.actualSize := by
  have hwritten : arr.buffer.take arr.actualSize ∈ Set.range (List.map (some : α → Option α)) := by
    rw [Set.range_list_map]
    intro cell hcell
    obtain ⟨i, hi⟩ := List.getElem?_of_mem hcell
    rw [List.getElem?_take] at hi
    split at hi
    · next hlt =>
        obtain ⟨x, hx⟩ := h.written i hlt
        exact ⟨x, Option.some.inj (hx.symm.trans hi)⟩
    · injection hi
  obtain ⟨xs, hxs⟩ := hwritten
  rw [contents, ← hxs]
  simp [List.reduceOption]

theorem contents_getElem? (h : arr.Sound) {i : Nat} {x : α} (hi : i < arr.actualSize)
    (hx : arr.buffer[i]? = some (some x)) : arr.contents[i]? = some x := by
  have hcell : (arr.contents.map some)[i]? = some (some x) := by
    rw [map_contents h, List.getElem?_take_of_lt hi, hx]
  rw [List.getElem?_map] at hcell
  obtain ⟨y, hy, hsome⟩ := Option.map_eq_some_iff.mp hcell
  rw [hy, Option.some.inj hsome]

/-- **`At` of an array with elements is checked.** -/
theorem Sound.atChecks (h : arr.Sound) (hne : arr.actualSize ≠ 0) {index : Int}
    (hint : IsInt index) : AtChecks arr index := by
  have hguard := guard_iff (Nat.pos_of_ne_zero hne) (Nat.lt_of_le_of_lt h.fits h.length_lt) hint
  refine ⟨?_, ?_⟩
  · intro hout
    rw [elementAt_run, if_pos (hguard.mpr hout)]
  · intro hnonneg hlt
    have hpass : ¬ sizeTSub arr.actualSize 1 < sizeTOfInt index := by
      rw [hguard]
      omega
    have hi : index.toNat < arr.actualSize := by omega
    obtain ⟨x, hx, hrun⟩ := h.subscript_run hi
    refine ⟨x, contents_getElem? h hi hx, ?_⟩
    rw [elementAt_run, if_neg hpass, if_neg (Int.not_lt.mpr hnonneg), hrun]

/-- `At` of an empty array reads, wherever that is. -/
theorem elementAt_empty (h : arr.actualSize = 0) (index : Int) :
    (elementAt index).run arr
      = if index < 0 then .error (.undefined .outOfBounds) arr
        else (subscript index.toNat).run arr := by
  rw [elementAt_run, h, if_neg (guard_empty index)]

theorem subscript_not_thrown (i : Nat) :
    (subscript i).run arr ≠ .error (.runtimeError "out of range") arr := by
  intro hrun
  rw [subscript, Call.run_bind_ok (EStateM.run_get arr)] at hrun
  split at hrun
  · injection hrun
  · injection hrun with hfault
    injection hfault
  · injection hrun with hfault
    injection hfault

/-- The guard of an empty array never throws. -/
theorem elementAt_not_thrown (h : arr.actualSize = 0) (index : Int) :
    (elementAt index).run arr ≠ .error (.runtimeError "out of range") arr := by
  rw [elementAt_empty h]
  split
  · intro hrun
    injection hrun with hfault
    injection hfault
  · exact subscript_not_thrown _

/-- **`At` is checked exactly on the reachable arrays that are not empty.** -/
theorem at_checks_iff [Zero α] (arr : DArray α) (hreached : Reached arr) (index : Int)
    (hint : IsInt index) : AtChecks arr index ↔ arr.actualSize ≠ 0 := by
  constructor
  · rintro ⟨hthrows, -⟩ hempty
    by_cases hout : index < 0 ∨ (arr.actualSize : Int) ≤ index
    · exact elementAt_not_thrown hempty index (hthrows hout)
    · omega
  · intro hne
    exact hreached.sound.atChecks hne hint

/-- An array with one element, as the constructor and a push leave it. -/
theorem at_checks_one :
    AtChecks (⟨[some 5], 1, 1⟩ : DArray Int) (-1) ↔
      (⟨[some 5], 1, 1⟩ : DArray Int).actualSize ≠ 0 := by
  refine at_checks_iff _ ?_ (-1) ?_
  · have hnew : Reached (⟨[some 0], 1, 0⟩ : DArray Int) := .new 1 rfl
    refine .call (.pushBack 5) hnew ?_
    intro why hreply
    injection hreply
  · unfold IsInt
    omega

/-- `At(0)` of an array nothing was pushed on reads a cell; `At(-1)` reads outside of all. -/
theorem at_unchecked_empty :
    Reached (⟨[some 0], 1, 0⟩ : DArray Int) ∧
    ¬ AtChecks (⟨[some 0], 1, 0⟩ : DArray Int) 0 ∧
    (elementAt 0).run (⟨[some 0], 1, 0⟩ : DArray Int) = .ok 0 ⟨[some 0], 1, 0⟩ ∧
    (elementAt (-1)).run (⟨[some 0], 1, 0⟩ : DArray Int)
      = .error (.undefined .outOfBounds) ⟨[some 0], 1, 0⟩ := by
  refine ⟨.new 1 rfl, ?_, by decide, by decide⟩
  rintro ⟨hthrows, -⟩
  exact elementAt_not_thrown rfl 0 (hthrows (.inr (Int.le_refl 0)))

end Technopark.DArray
