/-
Whether `PushBack` has room for the element it writes.

A full array doubles its capacity before the write.  Doubling a positive capacity makes
room, so an array that was allocated with the capacity it asked for always has some.

The two ends of the range of sizes are different.  Twice zero is zero, and an array
without capacity writes to `buffer_[0]` all the same.  From `2 ^ 61` on the number of bytes
wraps, the array has fewer cells than its capacity says, and it never finds itself full.
In both cases the cells are the `c % 2 ^ 61` of the constructor, for ever: there the array
is safe for as long as it does not hold that many elements and is given another.
-/
import Technopark.Proofs.DArrayAt

namespace Technopark.DArray

variable {α : Type} {arr : DArray α} {xs : List α} {c d : Nat}

/-- The calls that change the size. -/
inductive GrowOp (α : Type)
  | pushBack (value : α)
  | popBack
  deriving Repr, DecidableEq

/-- The code behind each call. -/
def GrowOp.call : GrowOp α → Call (DArray α) (Option α)
  | .pushBack value => (DArrayOp.pushBack value).call
  | .popBack => DArrayOp.popBack.call

/-- How many elements there are after each call. -/
def depth : Object Nat (GrowOp α) Unit
  | .pushBack _, d => ((), d + 1)
  | .popBack, d => ((), d - 1)

/-- Once it has made room, a push writes to a cell of the allocation. -/
def WritesInside (arr : DArray α) (op : GrowOp α) : Prop :=
  ∀ x, op = .pushBack x → ∀ arr', makeRoom.run arr = .ok () arr' →
    arr'.actualSize < arr'.buffer.length

/-- Every push of the run writes inside the allocation, and no size exceeds the capacity. -/
structure StaysInside (arr₀ : DArray α) (ops : List (GrowOp α)) : Prop where
  writes : Allowed (Call.object GrowOp.call) WritesInside arr₀ ops
  sizes : ∀ before after, ops = before ++ after →
    ∀ arr, arr = ((Call.object GrowOp.call).run before arr₀).2 → arr.actualSize ≤ arr.bufSize

/-- A push finds fewer than `room` elements. -/
def FewerThan (room d : Nat) (op : GrowOp α) : Prop := ∀ x, op = .pushBack x → d < room

/-! ### Allocations of the size they were asked for -/

theorem Holds.writesInside (h : arr.Holds xs) (op : GrowOp α) : WritesInside arr op := by
  intro x hop arr' hrun
  by_cases hfull : arr.actualSize = arr.bufSize
  · rw [makeRoom_full hfull] at hrun
    by_cases halloc : Allocates (arr.bufSize * 2)
    · obtain ⟨arr₁, hrun₁, hholds₁, hsize₁, hcap₁⟩ := reallocate_run h halloc
      rw [hrun₁] at hrun
      injection hrun with _ harr
      have hpos := h.positive
      rw [← harr, hholds₁.allocated, hsize₁, hcap₁]
      omega
    · rw [reallocate_badAlloc h halloc] at hrun
      injection hrun
  · rw [makeRoom_ready hfull] at hrun
    injection hrun with _ harr
    rw [← harr, h.allocated]
    exact Nat.lt_of_le_of_ne h.fits hfull

theorem Holds.grow (h : arr.Holds xs) (op : GrowOp α) :
    ∃ ys, (Call.object GrowOp.call op arr).2.Holds ys := by
  cases op with
  | pushBack x =>
      show ∃ ys, ((GrowOp.pushBack x).call.after arr).Holds ys
      rw [GrowOp.call, DArrayOp.call, Call.after_bind_pure]
      rcases pushBack_run h x with ⟨arr', hrun, hholds, -⟩ | ⟨hrun, -, -⟩
      · rw [Call.after_ok hrun]
        exact ⟨_, hholds⟩
      · rw [Call.after_error hrun]
        exact ⟨xs, h⟩
  | popBack =>
      show ∃ ys, (GrowOp.popBack.call.after arr).Holds ys
      rw [GrowOp.call, DArrayOp.call, Call.after_map]
      rcases List.eq_nil_or_concat xs with rfl | ⟨ys, x, rfl⟩
      · rw [Call.after_error (popBack_empty h)]
        exact ⟨[], h⟩
      · rw [List.concat_eq_append] at h
        obtain ⟨arr', hrun, hholds, -⟩ := popBack_run h
        rw [Call.after_ok hrun]
        exact ⟨ys, hholds⟩

/-- An array with a positive capacity, all of it allocated, makes room whenever it has to. -/
theorem Holds.staysInside {arr₀ : DArray α} (h : arr₀.Holds xs) (ops : List (GrowOp α)) :
    StaysInside arr₀ ops := by
  refine ⟨?_, ?_⟩
  · exact Allowed.of_invariant (I := fun arr => ∃ xs, arr.Holds xs)
      (fun op arr ⟨_, h⟩ => ⟨h.writesInside op, h.grow op⟩) ops ⟨xs, h⟩
  · intro before after _ arr harr
    obtain ⟨ys, hholds⟩ := Object.run_keeps (Call.object GrowOp.call)
      (I := fun arr => ∃ xs, arr.Holds xs) (fun op arr ⟨_, h⟩ => h.grow op) before ⟨xs, h⟩
    rw [harr]
    exact hholds.fits

/-! ### Allocations that do not grow -/

/-- Reading changes nothing, wherever it reads. -/
theorem subscript_after (i : Nat) (arr : DArray α) : (subscript i).after arr = arr := by
  rw [subscript, Call.after_bind_ok (EStateM.run_get arr)]
  split
  · rfl
  · rfl
  · rfl

/-- `PopBack` takes the last element away before it reads it. -/
theorem popBack_after (arr : DArray α) :
    popBack.after arr = { arr with actualSize := arr.actualSize - 1 } := by
  by_cases hempty : arr.actualSize = 0
  · have hrun : popBack.run arr = .error (.runtimeError "DArray is empty") arr := by
      simp [popBack, hempty]
    rw [Call.after_error hrun, hempty, Nat.zero_sub, ← hempty]
  · have hread : popBack.run arr = (subscript (arr.actualSize - 1)).run
        { arr with actualSize := arr.actualSize - 1 } := by
      simp [popBack, hempty]
    rw [Call.after, hread]
    exact subscript_after _ _

/-- `d` elements, in the cells of a constructor that allocated less than it was asked for. -/
structure Short (c : Nat) (arr : DArray α) (d : Nat) : Prop where
  capacity : arr.bufSize = c
  extreme : c = 0 ∨ 2 ^ 61 ≤ c
  allocated : arr.buffer.length = c % 2 ^ 61
  stored : arr.actualSize = d
  inside : d ≤ c % 2 ^ 61

namespace Short

/-- Such an array is full only if it has no capacity, and then doubling changes nothing. -/
theorem makeRoom_run (h : Short c arr d) : makeRoom.run arr = .ok () arr := by
  obtain ⟨rfl, hextreme, halloc, rfl, hinside⟩ := h
  rcases hextreme with hzero | hlarge
  · rw [hzero, Nat.zero_mod] at halloc hinside
    have hbuf : arr.buffer = [] := List.length_eq_zero_iff.mp halloc
    rw [makeRoom_full (by omega)]
    have hself : ({ arr with buffer := [], bufSize := 0 } : DArray α) = arr := by
      rw [← hbuf, ← hzero]
    simpa [reallocate, hbuf, hzero, sizeT, sizeofDouble] using hself
  · have hlt : arr.bufSize % 2 ^ 61 < 2 ^ 61 := Nat.mod_lt _ (Nat.two_pow_pos 61)
    exact makeRoom_ready (by omega)

theorem writesInside_iff (h : Short c arr d) (op : GrowOp α) :
    WritesInside arr op ↔ FewerThan (c % 2 ^ 61) d op := by
  refine forall_congr' fun x => imp_congr_right fun hop => ?_
  rw [← h.allocated, ← h.stored]
  constructor
  · intro hwrites
    exact hwrites arr h.makeRoom_run
  · intro hlt arr' hrun
    rw [h.makeRoom_run] at hrun
    injection hrun with _ harr
    rw [← harr]
    exact hlt

/-- A push that writes inside adds an element, and a pop takes one away. -/
theorem grow (h : Short c arr d) {op : GrowOp α} (hop : FewerThan (c % 2 ^ 61) d op) :
    Short c (Call.object GrowOp.call op arr).2 (depth op d).2 := by
  cases op with
  | pushBack x =>
      have hlt := hop x rfl
      have hroom : arr.actualSize < arr.buffer.length := by
        rw [h.allocated, h.stored]
        exact hlt
      have hsucc : sizeT (arr.actualSize + 1) = arr.actualSize + 1 := by
        have hmod : c % 2 ^ 61 < 2 ^ 61 := Nat.mod_lt _ (Nat.two_pow_pos 61)
        rw [h.stored]
        exact sizeT_eq (by omega)
      have hrun : (pushBack x).run arr = .ok () { arr with
          buffer := arr.buffer.set arr.actualSize (some x), actualSize := arr.actualSize + 1 } := by
        rw [pushBack_eq, Call.run_bind_ok h.makeRoom_run]
        simp [store, DArray.assign, hroom, hsucc]
      show Short c ((GrowOp.pushBack x).call.after arr) (d + 1)
      rw [GrowOp.call, DArrayOp.call, Call.after_bind_pure, Call.after_ok hrun]
      exact ⟨h.capacity, h.extreme, (List.length_set).trans h.allocated,
        congrArg (· + 1) h.stored, hlt⟩
  | popBack =>
      show Short c (GrowOp.popBack.call.after arr) (d - 1)
      rw [GrowOp.call, DArrayOp.call, Call.after_map, popBack_after]
      exact ⟨h.capacity, h.extreme, h.allocated, congrArg (· - 1) h.stored,
        Nat.le_trans (Nat.sub_le d 1) h.inside⟩

/-- The run is safe exactly as long as the elements fit into the cells of the constructor. -/
theorem staysInside_iff {arr₀ : DArray α} (h : Short c arr₀ 0) (ops : List (GrowOp α)) :
    StaysInside arr₀ ops ↔ Allowed depth (FewerThan (c % 2 ^ 61)) 0 ops := by
  have hlegal : ∀ (op : GrowOp α) arr d, Short c arr d →
      (WritesInside arr op ↔ FewerThan (c % 2 ^ 61) d op) := fun op arr d h => h.writesInside_iff op
  have hstep : ∀ (op : GrowOp α) arr d, Short c arr d → WritesInside arr op →
      Short c (Call.object GrowOp.call op arr).2 (depth op d).2 :=
    fun op arr d h hop => h.grow ((h.writesInside_iff op).mp hop)
  constructor
  · intro hstays
    exact (Allowed.congr hlegal hstep h).mp hstays.writes
  · intro hfewer
    have hwrites := (Allowed.congr hlegal hstep h).mpr hfewer
    refine ⟨hwrites, ?_⟩
    intro before after hops arr harr
    rw [hops] at hwrites
    have hlast := hwrites.of_append.related hstep h
    rw [harr, hlast.capacity, hlast.stored]
    exact Nat.le_trans hlast.inside (Nat.mod_le _ _)

end Short

/-! ### Every size the constructor accepts -/

theorem new_short [Zero α] (hnew : new c = .ok arr) (hextreme : c = 0 ∨ 2 ^ 61 ≤ c) :
    Short c arr 0 := by
  obtain ⟨-, rfl⟩ := new_inv hnew
  refine ⟨rfl, hextreme, ?_, rfl, Nat.zero_le _⟩
  rw [List.length_replicate]
  unfold sizeT sizeMod sizeofDouble
  omega

/--
**`PushBack` writes inside the allocation exactly when the elements fit into it.**  For a
capacity from 1 to `2 ^ 61 - 1` that is always so.  Otherwise the allocation keeps the
`c % 2 ^ 61` cells it started with, which is none at all for a capacity of zero.
-/
theorem pushBack_stays_inside_iff [Zero α] (c : Nat) (arr₀ : DArray α) (hnew : new c = .ok arr₀)
    (ops : List (GrowOp α)) :
    StaysInside arr₀ ops ↔
      1 ≤ c ∧ c < 2 ^ 61 ∨ Allowed depth (FewerThan (c % 2 ^ 61)) 0 ops := by
  by_cases hordinary : 1 ≤ c ∧ c < 2 ^ 61
  · obtain ⟨hholds, -⟩ := new_holds_of_ok hnew hordinary.1 hordinary.2
    exact ⟨fun _ => .inl hordinary, fun _ => hholds.staysInside ops⟩
  · have hshort := new_short hnew (by omega)
    rw [hshort.staysInside_iff ops]
    exact ⟨.inr, fun h => h.resolve_left hordinary⟩

/-- Two cells, grown once. -/
theorem pushBack_stays_inside_two :
    StaysInside (⟨[some 0, some 0], 2, 0⟩ : DArray Int)
      [.pushBack 1, .pushBack 2, .pushBack 3, .popBack] :=
  (pushBack_stays_inside_iff 2 ⟨[some 0, some 0], 2, 0⟩ rfl _).mpr (.inl ⟨by decide, by decide⟩)

/-- The first push on an array without capacity, and on one whose `malloc` was of no bytes. -/
theorem pushBack_outside_no_cells :
    new 0 = .ok (⟨[], 0, 0⟩ : DArray Int) ∧
    new (2 ^ 61) = .ok (⟨[], 2 ^ 61, 0⟩ : DArray Int) ∧
    ¬ StaysInside (⟨[], 0, 0⟩ : DArray Int) [.pushBack 5] ∧
    ¬ StaysInside (⟨[], 2 ^ 61, 0⟩ : DArray Int) [.pushBack 5] := by
  have hempty : ∀ {c : Nat}, makeRoom.run (⟨[], c, 0⟩ : DArray Int) = .ok () ⟨[], c, 0⟩ →
      ¬ StaysInside (⟨[], c, 0⟩ : DArray Int) [.pushBack 5] := by
    intro c hroom hstays
    exact absurd (hstays.writes.head 5 rfl _ hroom) (Nat.lt_irrefl 0)
  exact ⟨rfl, rfl, hempty rfl, hempty (makeRoom_ready (by decide))⟩

end Technopark.DArray
