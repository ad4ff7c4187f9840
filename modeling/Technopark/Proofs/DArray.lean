/-
What a `DArray` holds, and what each of its calls does to that.

`Holds arr xs` ties the object to a list: the first `actual_size_` cells are the
elements of `xs`, the allocation really has `buf_size_` cells, and it is one the
allocator could serve.  The last part is what rules out every wrap-around of index
arithmetic, since no index of an allocated array comes near `2 ^ 64`.

Every call has one lemma here that says what it answers and which list the array
holds afterwards; nothing above this file unfolds a call of `DArray`.

The last section puts them together for whole runs.  The capacity only ever doubles, so
it is the first `c * 2 ^ k` that the greatest length so far has fitted into, and that
length is part of the reference's state.
-/
import Technopark.Containers.DArray
import Technopark.Lib.Run

namespace Technopark.DArray

variable {α : Type} {arr : DArray α} {xs : List α}

/-- The array stores exactly `xs`, in an allocation of its full capacity. -/
structure Holds (arr : DArray α) (xs : List α) : Prop where
  cells : arr.buffer.take arr.actualSize = xs.map some
  allocated : arr.buffer.length = arr.bufSize
  served : arr.bufSize * sizeofDouble ≤ ptrdiffMax
  positive : 0 < arr.bufSize
  fits : arr.actualSize ≤ arr.bufSize

namespace Holds

theorem length_eq (h : arr.Holds xs) : xs.length = arr.actualSize := by
  have hlen := congrArg List.length h.cells
  rw [List.length_take, List.length_map, h.allocated, Nat.min_eq_left h.fits] at hlen
  exact hlen.symm

theorem length_le (h : arr.Holds xs) : xs.length ≤ arr.bufSize := by
  rw [h.length_eq]
  exact h.fits

/-- No index into the array is large enough to wrap. -/
theorem bufSize_lt (h : arr.Holds xs) : arr.bufSize < 2 ^ 60 := by
  have hserved := h.served
  unfold sizeofDouble ptrdiffMax at hserved
  omega

theorem length_lt (h : arr.Holds xs) : xs.length < 2 ^ 60 + 1 := by
  have h1 := h.bufSize_lt
  have h2 := h.fits
  rw [h.length_eq]
  omega

/-- The contents are the list, so an array holds only one. -/
theorem contents_eq (h : arr.Holds xs) : arr.contents = xs := by
  unfold contents
  rw [h.cells]
  simp [List.reduceOption]

theorem cell (h : arr.Holds xs) {i : Nat} (hi : i < xs.length) :
    arr.buffer[i]? = some (some xs[i]) := by
  have hlt : i < arr.actualSize := by rw [← h.length_eq]; exact hi
  have hcell : (arr.buffer.take arr.actualSize)[i]? = (xs.map some)[i]? := by rw [h.cells]
  rw [List.getElem?_take_of_lt hlt] at hcell
  rw [hcell]
  simp [hi]

end Holds

/-! ### Construction -/

/-- An allocation of `n` doubles is one the allocator can serve. -/
def Allocates (n : Nat) : Prop := n * sizeofDouble ≤ ptrdiffMax

theorem new_holds [Zero α] {c : Nat} (hpos : 0 < c) (halloc : Allocates c) :
    ∃ arr : DArray α, new c = .ok arr ∧ arr.Holds [] ∧ arr.bufSize = c := by
  have hbytes : sizeT (c * sizeofDouble) = c * sizeofDouble := by
    unfold Allocates ptrdiffMax at halloc
    exact sizeT_eq (by omega)
  refine ⟨{ buffer := List.replicate c (some 0), bufSize := c, actualSize := 0 }, ?_, ?_, rfl⟩
  · unfold new
    rw [hbytes, if_neg (Nat.not_lt.mpr halloc)]
    simp [sizeofDouble]
  · exact ⟨by simp, by simp, halloc, hpos, Nat.zero_le _⟩

/-- The array of a constructor that returned. -/
theorem new_inv [Zero α] {c : Nat} (hnew : new c = .ok arr) :
    sizeT (c * sizeofDouble) ≤ ptrdiffMax ∧
    arr = ⟨List.replicate (sizeT (c * sizeofDouble) / sizeofDouble) (some 0), c, 0⟩ := by
  simp only [new] at hnew
  split at hnew
  · injection hnew
  · next hserved =>
      injection hnew with harr
      exact ⟨Nat.not_lt.mp hserved, harr.symm⟩

theorem new_holds_of_ok [Zero α] {c : Nat} (hnew : new c = .ok arr) (hpos : 1 ≤ c)
    (hlt : c < 2 ^ 61) : arr.Holds [] ∧ arr.bufSize = c := by
  obtain ⟨hserved, -⟩ := new_inv hnew
  rw [sizeT_eq (by unfold sizeofDouble; omega)] at hserved
  obtain ⟨arr', hnew', hholds⟩ := new_holds (α := α) hpos hserved
  rw [hnew] at hnew'
  rw [Except.ok.inj hnew']
  exact hholds

/-! ### Reading and writing a cell -/

@[simp] theorem size_run (arr : DArray α) : size.run arr = .ok arr.actualSize arr := rfl

@[simp] theorem isEmpty_run (arr : DArray α) :
    isEmpty.run arr = .ok (arr.actualSize == 0) arr := rfl

theorem subscript_run (h : arr.Holds xs) {i : Nat} (hi : i < xs.length) :
    (subscript i).run arr = .ok xs[i] arr := by
  simp [subscript, h.cell hi]

/-- Writing any cell of the allocation; one behind the last element changes nothing. -/
theorem assign_run (h : arr.Holds xs) {i : Nat} (hlt : i < arr.bufSize) (x : α) :
    ∃ arr', (assign i x).run arr = .ok () arr' ∧ arr'.Holds (xs.set i x) ∧
      arr'.bufSize = arr.bufSize := by
  rw [← h.allocated] at hlt
  refine ⟨{ arr with buffer := arr.buffer.set i (some x) }, ?_, ?_, rfl⟩
  · simp [assign, hlt]
  · refine ⟨?_, by simpa using h.allocated, h.served, h.positive, h.fits⟩
    show (arr.buffer.set i (some x)).take arr.actualSize = (xs.set i x).map some
    rw [List.take_set, h.cells, List.map_set]

theorem swap_run (h : arr.Holds xs) {i j : Nat} (hi : i < xs.length) (hj : j < xs.length) :
    ∃ arr', (swap i j).run arr = .ok () arr' ∧ arr'.Holds (xs.swap i j) ∧
      arr'.bufSize = arr.bufSize := by
  have hle := h.length_le
  obtain ⟨arr₁, hrun₁, hholds₁, hcap₁⟩ := assign_run h (Nat.lt_of_lt_of_le hi hle) xs[j]
  obtain ⟨arr₂, hrun₂, hholds₂, hcap₂⟩ := assign_run hholds₁
    (by rw [hcap₁]; exact Nat.lt_of_lt_of_le hj hle) xs[i]
  refine ⟨arr₂, ?_, ?_, by rw [hcap₂, hcap₁]⟩
  · simp only [swap, Call.run_bind_ok (subscript_run h hi), Call.run_bind_ok (subscript_run h hj),
      Call.run_bind_ok hrun₁, hrun₂]
  · rw [List.swap_eq_of_lt hi hj]
    exact hholds₂

/-! ### Growing and shrinking -/

/-- Doubling keeps the contents and makes room. -/
theorem reallocate_run (h : arr.Holds xs) (halloc : Allocates (arr.bufSize * 2)) :
    ∃ arr', reallocate.run arr = .ok () arr' ∧ arr'.Holds xs ∧
      arr'.actualSize = arr.actualSize ∧ arr'.bufSize = arr.bufSize * 2 := by
  have hcap := h.bufSize_lt
  have hdouble : sizeT (arr.bufSize * 2) = arr.bufSize * 2 := sizeT_eq (by omega)
  have hcopied : sizeT (arr.bufSize * sizeofDouble) / sizeofDouble = arr.bufSize := by
    rw [sizeT_eq (by unfold sizeofDouble; omega)]
    simp [sizeofDouble]
  have hbound : ¬ ptrdiffMax < arr.bufSize * 2 * sizeofDouble := Nat.not_lt.mpr halloc
  have hcopy : ¬ (arr.buffer.length < arr.bufSize ∨ arr.bufSize * 2 < arr.bufSize) := by
    rw [h.allocated]
    omega
  refine ⟨{ arr with
      buffer := arr.buffer.take arr.bufSize
        ++ List.replicate (arr.bufSize * 2 - arr.bufSize) none
      bufSize := arr.bufSize * 2 }, ?_, ?_, rfl, rfl⟩
  · simp [reallocate, hdouble, hcopied, hbound, hcopy]
  · have hpos := h.positive
    have hfits := h.fits
    refine ⟨?_, ?_, halloc, show 0 < arr.bufSize * 2 by omega,
      show arr.actualSize ≤ arr.bufSize * 2 by omega⟩
    · show (arr.buffer.take arr.bufSize ++ _).take arr.actualSize = xs.map some
      rw [List.take_append_of_le_length (by simp [h.allocated, h.fits]), List.take_take,
        Nat.min_eq_left h.fits, h.cells]
    · simp [h.allocated]
      omega

/-- The doubling that does not fit throws and changes nothing. -/
theorem reallocate_badAlloc (h : arr.Holds xs) (halloc : ¬ Allocates (arr.bufSize * 2)) :
    reallocate.run arr = .error .badAlloc arr := by
  have hcap := h.bufSize_lt
  have hdouble : sizeT (arr.bufSize * 2) = arr.bufSize * 2 := sizeT_eq (by omega)
  have hbound : ptrdiffMax < arr.bufSize * 2 * sizeofDouble := Nat.not_le.mp halloc
  simp [reallocate, hdouble, hbound]

/-- What `PushBack` does before it writes. -/
def makeRoom : Call (DArray α) Unit := do
  let arr ← get
  if arr.actualSize = arr.bufSize then
    reallocate

/-- `PushBack` once there is room. -/
def store (x : α) : Call (DArray α) Unit := do
  let index ← size
  DArray.assign index x
  modify fun arr => { arr with actualSize := sizeT (index + 1) }

theorem pushBack_eq (x : α) : pushBack x = makeRoom >>= fun _ => store x := by
  simp only [pushBack, makeRoom, store, bind_assoc]
  refine bind_congr fun arr => ?_
  split
  · rfl
  · rfl

theorem makeRoom_full (h : arr.actualSize = arr.bufSize) :
    makeRoom.run arr = reallocate.run arr := by
  simp [makeRoom, h]

theorem makeRoom_ready (h : arr.actualSize ≠ arr.bufSize) : makeRoom.run arr = .ok () arr := by
  simp [makeRoom, h]

/-- Writing behind the last element of an array that has room. -/
theorem store_run (h : arr.Holds xs) (hroom : arr.actualSize < arr.bufSize) (x : α) :
    ∃ arr', (store x).run arr = .ok () arr' ∧ arr'.Holds (xs ++ [x]) ∧
      arr'.bufSize = arr.bufSize := by
  have hcap := h.bufSize_lt
  have hlt : arr.actualSize < arr.buffer.length := by rw [h.allocated]; exact hroom
  have hsucc : sizeT (arr.actualSize + 1) = arr.actualSize + 1 := sizeT_eq (by omega)
  refine ⟨{ arr with
      buffer := arr.buffer.set arr.actualSize (some x), actualSize := arr.actualSize + 1 },
    ?_, ?_, rfl⟩
  · simp [store, DArray.assign, hlt, hsucc]
  · refine ⟨?_, by simpa using h.allocated, h.served, h.positive, hroom⟩
    show (arr.buffer.set arr.actualSize (some x)).take (arr.actualSize + 1) = (xs ++ [x]).map some
    rw [List.take_succ_eq_append_getElem (by simpa using hlt), List.map_append, ← h.cells,
      List.take_set, List.set_eq_of_length_le (List.length_take_le _ _)]
    simp

/-- **`PushBack` appends, or fails to allocate and changes nothing.** -/
theorem pushBack_run (h : arr.Holds xs) (x : α) :
    (∃ arr', (pushBack x).run arr = .ok () arr' ∧ arr'.Holds (xs ++ [x]) ∧
      arr'.bufSize = if arr.actualSize = arr.bufSize then arr.bufSize * 2 else arr.bufSize) ∨
    ((pushBack x).run arr = .error .badAlloc arr ∧ arr.actualSize = arr.bufSize ∧
      ¬ Allocates (arr.bufSize * 2)) := by
  rw [pushBack_eq]
  by_cases hfull : arr.actualSize = arr.bufSize
  · by_cases halloc : Allocates (arr.bufSize * 2)
    · obtain ⟨arr₁, hrun₁, hholds₁, hsize₁, hcap₁⟩ := reallocate_run h halloc
      obtain ⟨arr₂, hrun₂, hholds₂, hcap₂⟩ := store_run hholds₁
        (by rw [hsize₁, hcap₁]; have := h.positive; omega) x
      refine Or.inl ⟨arr₂, ?_, hholds₂, by rw [hcap₂, hcap₁, if_pos hfull]⟩
      rw [Call.run_bind_ok ((makeRoom_full hfull).trans hrun₁), hrun₂]
    · refine Or.inr ⟨?_, hfull, halloc⟩
      rw [Call.run_bind_error ((makeRoom_full hfull).trans (reallocate_badAlloc h halloc))]
  · obtain ⟨arr', hrun, hholds, hcap⟩ := store_run h (Nat.lt_of_le_of_ne h.fits hfull) x
    refine Or.inl ⟨arr', ?_, hholds, by rw [hcap, if_neg hfull]⟩
    rw [Call.run_bind_ok (makeRoom_ready hfull), hrun]

/-- `PopBack` on an empty array throws and changes nothing. -/
theorem popBack_empty (h : arr.Holds []) :
    popBack.run arr = .error (.runtimeError "DArray is empty") arr := by
  have hsize : arr.actualSize = 0 := h.length_eq.symm
  simp [popBack, hsize]

/-- `PopBack` returns and removes the last element. -/
theorem popBack_run {x : α} (h : arr.Holds (xs ++ [x])) :
    ∃ arr', popBack.run arr = .ok x arr' ∧ arr'.Holds xs ∧ arr'.bufSize = arr.bufSize := by
  have hlen : arr.actualSize = xs.length + 1 := by rw [← h.length_eq]; simp
  refine ⟨{ arr with actualSize := xs.length }, ?_, ?_, rfl⟩
  · have hcell := h.cell (i := xs.length) (by simp)
    simp only [List.getElem_concat_length] at hcell
    simp [popBack, hlen, subscript, hcell]
  · have hfits := h.fits
    refine ⟨?_, h.allocated, h.served, h.positive, show xs.length ≤ arr.bufSize by omega⟩
    have htake := congrArg (List.take xs.length) h.cells
    rw [hlen, List.take_take, Nat.min_eq_left (Nat.le_succ _)] at htake
    show arr.buffer.take xs.length = xs.map some
    rw [htake]
    simp

/-! ### Whole runs -/

/-- The calls a client makes on an array. -/
inductive DArrayOp (α : Type)
  | pushBack (value : α)
  | popBack
  /-- `arr[index] = value`. -/
  | write (index : Nat) (value : α)
  deriving Repr, DecidableEq

/-- The code behind each call; `popBack` answers with the element. -/
def DArrayOp.call : DArrayOp α → Call (DArray α) (Option α)
  | .pushBack value => do
      DArray.pushBack value
      return none
  | .popBack => some <$> DArray.popBack
  | .write index value => do
      DArray.assign index value
      return none

/-- A list, and the greatest length it has had. -/
def reference : Object (List α × Nat) (DArrayOp α) (Except Fault (Option α))
  | .pushBack value, (xs, most) => (.ok none, (xs ++ [value], max most (xs.length + 1)))
  | .popBack, (xs, most) =>
      match xs.getLast? with
      | none => (.error (.runtimeError "DArray is empty"), (xs, most))
      | some x => (.ok (some x), (xs.dropLast, most))
  | .write index value, (xs, most) => (.ok none, (xs.set index value, most))

/-- A write is to an element of the list. -/
def InRange (t : List α × Nat) (op : DArrayOp α) : Prop :=
  ∀ index value, op = .write index value → index < t.1.length

/-- The least `c * 2 ^ k` that is at least `most`. -/
def LeastCapacity (c most cap : Nat) : Prop :=
  ∃ k, cap = c * 2 ^ k ∧ most ≤ cap ∧ ∀ j < k, c * 2 ^ j < most

/-- The array holds the list in the least capacity that its greatest length fits into. -/
structure Tracks (c : Nat) (arr : DArray α) (t : List α × Nat) : Prop where
  holds : arr.Holds t.1
  longest : t.1.length ≤ t.2
  capacity : LeastCapacity c t.2 arr.bufSize

/-- A length that still fits keeps the capacity the least. -/
theorem LeastCapacity.mono {c most most' cap : Nat} (h : LeastCapacity c most cap)
    (hle : most ≤ most') (hfits : most' ≤ cap) : LeastCapacity c most' cap := by
  obtain ⟨k, hcap, -, hleast⟩ := h
  exact ⟨k, hcap, hfits, fun j hj => Nat.lt_of_lt_of_le (hleast j hj) hle⟩

/-- Doubling makes the least capacity for one element more. -/
theorem LeastCapacity.double {c most cap : Nat} (h : LeastCapacity c most cap) (hcap : 0 < cap) :
    LeastCapacity c (cap + 1) (cap * 2) := by
  obtain ⟨k, rfl, -, -⟩ := h
  refine ⟨k + 1, by rw [pow_succ, Nat.mul_assoc], by omega, ?_⟩
  intro j hj
  have hpow : 2 ^ j ≤ 2 ^ k := Nat.pow_le_pow_right (by decide) (by omega)
  exact Nat.lt_succ_of_le (Nat.mul_le_mul_left c hpow)

theorem pushBack_tracks {c : Nat} {t : List α × Nat} (h : Tracks c arr t) (x : α) :
    (∃ arr', (pushBack x).run arr = .ok () arr' ∧
      Tracks c arr' (t.1 ++ [x], max t.2 (t.1.length + 1))) ∨
    (pushBack x).run arr = .error .badAlloc arr := by
  rcases pushBack_run h.holds x with ⟨arr', hrun, hholds, hcap⟩ | ⟨hrun, -, -⟩
  · refine Or.inl ⟨arr', hrun, hholds, ?_, ?_⟩
    · rw [List.length_append, List.length_singleton]
      exact Nat.le_max_right _ _
    have hlen := h.holds.length_eq
    have hlongest := h.longest
    obtain ⟨k, hk, hmost, hleast⟩ := h.capacity
    have hold : LeastCapacity c t.2 arr.bufSize := ⟨k, hk, hmost, hleast⟩
    rw [hcap]
    split
    · -- the array was full, so its length was already the greatest so far
      rename_i hfull
      have hmax : max t.2 (t.1.length + 1) = arr.bufSize + 1 := by omega
      rw [hmax]
      exact hold.double h.holds.positive
    · rename_i hroom
      have hfits := h.holds.fits
      exact hold.mono (Nat.le_max_left _ _) (by omega)
  · exact Or.inr hrun

/-- Every allowed call answers as the list does, unless it fails to allocate. -/
theorem call_tracks {c : Nat} {t : List α × Nat} (h : Tracks c arr t) {op : DArrayOp α}
    (hop : InRange t op) :
    (∃ a arr' t', op.call.run arr = .ok a arr' ∧ reference op t = (.ok a, t') ∧
      Tracks c arr' t') ∨
    (∃ e, op.call.run arr = .error e arr ∧ (e = .badAlloc ∨ reference op t = (.error e, t))) := by
  obtain ⟨xs, most⟩ := t
  cases op with
  | pushBack x =>
      rcases pushBack_tracks h x with ⟨arr', hrun, htracks⟩ | hrun
      · exact Or.inl ⟨none, arr', _, by simp [DArrayOp.call, hrun], rfl, htracks⟩
      · exact Or.inr ⟨.badAlloc, by simp [DArrayOp.call, hrun], Or.inl rfl⟩
  | popBack =>
      rcases List.eq_nil_or_concat xs with rfl | ⟨ys, x, rfl⟩
      · exact Or.inr ⟨_, by simp [DArrayOp.call, popBack_empty h.holds], Or.inr rfl⟩
      · rw [List.concat_eq_append] at h ⊢
        obtain ⟨arr', hrun, hholds, hcap⟩ := popBack_run h.holds
        have hlongest := h.longest
        rw [List.length_append] at hlongest
        refine Or.inl ⟨some x, arr', (ys, most), by simp [DArrayOp.call, hrun], ?_, hholds,
          Nat.le_of_add_right_le hlongest, ?_⟩
        · simp [reference]
        · rw [hcap]
          exact h.capacity
  | write i x =>
      have hi := hop i x rfl
      obtain ⟨arr', hrun, hholds, hcap⟩ :=
        assign_run h.holds (Nat.lt_of_lt_of_le hi h.holds.length_le) x
      refine Or.inl ⟨none, arr', (xs.set i x, most), by simp [DArrayOp.call, hrun], rfl, hholds, ?_,
        ?_⟩
      · rw [List.length_set]
        exact h.longest
      · rw [hcap]
        exact h.capacity

theorem darray_simulates {c : Nat} :
    SimulatesUnder (Call.object (DArrayOp.call (α := α))) reference InRange
      (fun out => out ≠ .error .badAlloc) (Tracks c) := by
  intro op arr t h hop hadm
  rcases call_tracks h hop with ⟨a, arr', t', hrun, href, htracks⟩ | ⟨e, hrun, he⟩
  · rw [Call.object_ok hrun, href]
    exact ⟨rfl, htracks⟩
  · rw [Call.object_error hrun] at hadm ⊢
    rcases he with rfl | href
    · exact absurd rfl hadm
    · rw [href]
      exact ⟨rfl, h⟩

/--
**A `DArray` is a list over whole runs.**  Every sequence of calls that could allocate,
with writes to elements only, is answered as the list answers it.  In the state it reaches
`Size()` and `operator[]` read that list, a call that throws leaves the state as it was,
and `Capacity()` is the least `c * 2 ^ k` that the greatest length so far fits into.
-/
theorem darray_runs_as_list [Zero α] (c : Nat) (hpos : 1 ≤ c) (hbytes : c * sizeofDouble < 2 ^ 64)
    (arr₀ : DArray α) (hnew : DArray.new c = .ok arr₀) (ops : List (DArrayOp α))
    (hops : Allowed reference InRange ([], 0) ops)
    (halloc : ∀ out ∈ ((Call.object DArrayOp.call).run ops arr₀).1, out ≠ .error .badAlloc) :
    ∀ (arr : DArray α) (xs : List α) (most : Nat),
      arr = ((Call.object DArrayOp.call).run ops arr₀).2 →
      (xs, most) = (reference.run ops ([], 0)).2 →
      ((Call.object DArrayOp.call).run ops arr₀).1 = (reference.run ops ([], 0)).1 ∧
      size.run arr = .ok xs.length arr ∧
      (∀ i (hi : i < xs.length), (subscript i).run arr = .ok xs[i] arr) ∧
      (∃ cap, capacity.run arr = .ok cap arr ∧ xs.length ≤ cap ∧ LeastCapacity c most cap) ∧
      ∀ (op : DArrayOp α) (e : Fault), InRange (xs, most) op → op.call.reply arr = .error e →
        op.call.after arr = arr := by
  intro arr xs most harr hxs
  obtain ⟨hholds, hcap⟩ := new_holds_of_ok hnew hpos (by unfold sizeofDouble at hbytes; omega)
  have hstart : Tracks c arr₀ ([], 0) :=
    ⟨hholds, Nat.le_refl 0, 0, by simpa using hcap, Nat.zero_le _, by simp⟩
  obtain ⟨houts, h⟩ := darray_simulates.run ops arr₀ ([], 0) hstart hops halloc
  rw [← harr, ← hxs] at h
  refine ⟨houts, ?_, fun i hi => subscript_run h.holds hi, ⟨_, rfl, h.holds.length_le, h.capacity⟩,
    ?_⟩
  · rw [size_run, h.holds.length_eq]
  · intro op e hop hreply
    rcases call_tracks h hop with ⟨a, arr', t', hrun, -⟩ | ⟨e', hrun, -⟩
    · rw [Call.reply_ok hrun] at hreply
      cases hreply
    · exact Call.after_error hrun

/-- One cell, grown twice by three elements, shrunk and written. -/
theorem darray_runs_one_cell :
    ((Call.object DArrayOp.call).run
        [.pushBack 5, .pushBack 7, .pushBack 9, .write 1 8, .popBack, .popBack, .popBack, .popBack]
        (⟨[some 0], 1, 0⟩ : DArray Int)).1
      = [.ok none, .ok none, .ok none, .ok none, .ok (some 9), .ok (some 8), .ok (some 5),
        .error (.runtimeError "DArray is empty")] := by
  refine (darray_runs_as_list 1 (by decide) (by decide) ⟨[some 0], 1, 0⟩ rfl _ ?_ ?_ _ _ _
    rfl rfl).1
  · have hother : ∀ {t : List Int × Nat} {op : DArrayOp Int}, (∀ i x, op ≠ .write i x) →
        InRange t op := fun hne i x heq => absurd heq (hne i x)
    refine .cons (hother (by simp)) (.cons (hother (by simp)) (.cons (hother (by simp))
      (.cons ?_ (.cons (hother (by simp)) (.cons (hother (by simp)) (.cons (hother (by simp))
        (.cons (hother (by simp)) .nil)))))))
    intro i x heq
    injection heq with hi _
    subst hi
    decide
  · decide

end Technopark.DArray
