/-
For which sizes the arithmetic of the queue is defined.

`queue_size_` is a `size_t`, and the ends are `int`s.  A size from 1 to `INT_MAX` is one the
ends can count to, and there the ring does what it is meant to.

The other sizes have this in common: the ends never come back to zero.  In a queue of size
zero the first `Push` divides by it.  In a queue of `2 ^ 31` cells or more the end of the
ring is out of reach, so `tail_` counts the pushes, whatever is popped in between, and the
push that finds it at `INT_MAX` overflows.

From `2 ^ 62` on the number of bytes wraps.  A queue that got fewer than `INT_MAX` cells
that way writes outside of them before its `tail_` gets that far, at an index that is still
below `queue_size_`.
-/
import Mathlib.Data.List.Count
import Technopark.Proofs.Queue

namespace Technopark.Queue

open Technopark.Ring

variable {n k : Nat} {q : Queue} {xs : List Int} {op : QueueOp}

/-- The index at which `Back` reads. -/
def backIndex (q : Queue) : Int := if q.tail = 0 then sizeTSub q.queueSize 1 else q.tail - 1

/-- The indices at which a call reads or writes `buffer_`. -/
def QueueOp.indices (op : QueueOp) (q : Queue) : List Int :=
  match op with
  | .push _ =>
      if q.tail = intMax ∨ q.queueSize = 0 ∨
          sizeTOfInt (q.tail + 1) % q.queueSize = sizeTOfInt q.head then []
      else [q.tail]
  | .pop => if q.head = q.tail then [] else [q.head]
  | .front => if q.head = q.tail then [] else [q.head]
  | .back => if q.head = q.tail then [] else [q.backIndex]
  | .empty => []

/-- The arithmetic of a call has a meaning, and every index it uses is below the size. -/
structure Defined (q : Queue) (op : QueueOp) : Prop where
  divides : op.call.reply q ≠ .error (.undefined .divisionByZero)
  counts : op.call.reply q ≠ .error (.undefined .signedOverflow)
  below : ∀ i ∈ op.indices q, 0 ≤ i ∧ i < q.queueSize

/-- Whether a call is a `Push`. -/
def QueueOp.isPush : QueueOp → Bool
  | .push _ => true
  | _ => false

theorem isPush_iff : op.isPush = true ↔ ∃ val, op = .push val := by
  cases op with
  | push val => exact iff_of_true rfl ⟨val, rfl⟩
  | pop | front | back | empty => exact iff_of_false Bool.false_ne_true (by rintro ⟨val, ⟨⟩⟩)

/-! ### The calls in any state -/

theorem empty_eq (q : Queue) : empty.run q = .ok (q.head == q.tail) q := rfl

/-- The branches of `Pop`. -/
theorem pop_branches (q : Queue) :
    ∃ out, pop.run q =
      if q.head = q.tail then .error (.runtimeError "queue is empty") q
      else if ¬ Inside q q.head then .error (.undefined .outOfBounds) q
      else if q.head = intMax then .error (.undefined .signedOverflow) q
      else .ok out { q with
        head := if sizeTOfInt (q.head + 1) = q.queueSize then 0 else q.head + 1 } := by
  by_cases hempty : q.head = q.tail
  · exact ⟨0, by simp [pop, empty_eq, hempty]⟩
  simp only [if_neg hempty]
  by_cases hin : Inside q q.head
  · obtain ⟨out, hload⟩ := load_inside hin
    refine ⟨out, ?_⟩
    rw [if_neg (not_not.mpr hin)]
    by_cases hmax : q.head = intMax
    · rw [if_pos hmax]
      rw [hmax] at hload hempty
      simp [pop, empty_eq, hmax, hempty, hload, successor_max]
    · rw [if_neg hmax]
      simp only [pop, EStateM.run_bind, empty_eq, beq_false_of_ne hempty, EStateM.run_get, hload,
        successor_ok hmax, Bool.false_eq_true, if_false]
      split
      · simp
      · simp
  · exact ⟨0, by simp [pop, empty_eq, hempty, load_outside hin, hin]⟩

theorem front_branches (q : Queue) :
    front.run q = if q.head = q.tail then .error (.runtimeError "queue is empty") q
      else (load q.head).run q := by
  by_cases hempty : q.head = q.tail
  · simp [front, empty_eq, hempty]
  · simp [front, empty_eq, hempty]

theorem back_branches (q : Queue) :
    back.run q = if q.head = q.tail then .error (.runtimeError "queue is empty") q
      else (load q.backIndex).run q := by
  by_cases hempty : q.head = q.tail
  · rw [if_pos hempty, back, Call.run_bind_ok (empty_eq q), beq_iff_eq.mpr hempty]
    rfl
  · rw [if_neg hempty, back, Call.run_bind_ok (empty_eq q), beq_false_of_ne hempty, backIndex]
    simp only [Bool.false_eq_true, if_false, EStateM.run_bind, EStateM.run_get]
    split
    · rfl
    · rfl

/-- What a read of `buffer_` answers. -/
theorem load_reply (f : Int → Answer) (i : Int) :
    (f <$> load i).reply q = .error (.undefined .outOfBounds) ↔ ¬ Inside q i := by
  by_cases hin : Inside q i
  · obtain ⟨v, hrun⟩ := load_inside hin
    simp [Call.reply, hrun, hin]
  · simp [Call.reply, load_outside hin, hin]

/-- **A call leaves the allocation exactly when it uses an index outside of it.** -/
theorem outOfBounds_iff (q : Queue) (op : QueueOp) :
    op.call.reply q = .error (.undefined .outOfBounds) ↔ ∃ i ∈ op.indices q, ¬ Inside q i := by
  cases op with
  | push val =>
      by_cases hmax : q.tail = intMax
      · simp [QueueOp.call, Call.reply, push_branches, QueueOp.indices, hmax]
      by_cases hzero : q.queueSize = 0
      · simp [QueueOp.call, Call.reply, push_branches, QueueOp.indices, hmax, hzero]
      by_cases hfull : sizeTOfInt (q.tail + 1) % q.queueSize = sizeTOfInt q.head
      · simp [QueueOp.call, Call.reply, push_branches, QueueOp.indices, hmax, hzero, hfull]
      by_cases hin : Inside q q.tail
      · simp [QueueOp.call, Call.reply, push_branches, QueueOp.indices, hmax, hzero, hfull, hin]
      · simp [QueueOp.call, Call.reply, push_branches, QueueOp.indices, hmax, hzero, hfull, hin]
  | pop =>
      obtain ⟨out, hrun⟩ := pop_branches q
      by_cases hempty : q.head = q.tail
      · rw [if_pos hempty] at hrun
        simp [QueueOp.call, Call.reply, hrun, QueueOp.indices, hempty]
      rw [if_neg hempty] at hrun
      by_cases hin : Inside q q.head
      · rw [if_neg (not_not.mpr hin)] at hrun
        split at hrun
        · simp [QueueOp.call, Call.reply, hrun, QueueOp.indices, hempty, hin]
        · simp [QueueOp.call, Call.reply, hrun, QueueOp.indices, hempty, hin]
      · rw [if_pos hin] at hrun
        simp [QueueOp.call, Call.reply, hrun, QueueOp.indices, hempty, hin]
  | front =>
      by_cases hempty : q.head = q.tail
      · simp [QueueOp.call, Call.reply, front_branches, QueueOp.indices, hempty]
      · have hread := load_reply (q := q) .value q.head
        simpa [QueueOp.call, Call.reply, front_branches, QueueOp.indices, hempty] using hread
  | back =>
      by_cases hempty : q.head = q.tail
      · simp [QueueOp.call, Call.reply, back_branches, QueueOp.indices, hempty]
      · have hread := load_reply (q := q) .value q.backIndex
        simpa [QueueOp.call, Call.reply, back_branches, QueueOp.indices, hempty] using hread
  | empty => simp [QueueOp.call, Call.reply, empty_eq, QueueOp.indices]

/-- The indices are those of the ends, and of the cell before the end. -/
theorem mem_indices {i : Int} (h : i ∈ op.indices q) :
    (q.queueSize ≠ 0 ∧ i = q.tail) ∨ q.head ≠ q.tail ∧ (i = q.head ∨ i = q.backIndex) := by
  cases op with
  | push val =>
      rw [QueueOp.indices] at h
      split at h
      · exact absurd h List.not_mem_nil
      · next hstored =>
          exact .inl ⟨fun hzero => hstored (.inr (.inl hzero)), List.mem_singleton.mp h⟩
  | empty => exact absurd h List.not_mem_nil
  | pop | front =>
      rw [QueueOp.indices] at h
      split at h
      · exact absurd h List.not_mem_nil
      · next hne => exact .inr ⟨hne, .inl (List.mem_singleton.mp h)⟩
  | back =>
      rw [QueueOp.indices] at h
      split at h
      · exact absurd h List.not_mem_nil
      · next hne => exact .inr ⟨hne, .inr (List.mem_singleton.mp h)⟩

/-! ### Sizes up to `INT_MAX` -/

theorem fifo_not_undefined (capacity : Nat) (op : QueueOp) (xs : List Int) (why : Undefined) :
    (fifo capacity op xs).1 ≠ .error (.undefined why) := by
  cases op with
  | push val =>
      rw [fifo]
      split
      · simp
      · simp
  | pop | front | back => cases xs <;> simp [fifo]
  | empty => simp [fifo]

theorem Holds.defined (h : Holds n q xs) (op : QueueOp) : Defined q op := by
  obtain ⟨start, hhead, htail, hspells⟩ := h.ends
  have hbound := h.bound
  have hstart := hspells.start
  have hend : slot n start xs.length < n := slot_lt hstart (Nat.le_of_lt hspells.free)
  have hback : 0 ≤ q.backIndex ∧ q.backIndex < n := by
    unfold intMax at hbound
    rw [backIndex, htail, h.size]
    split
    · rw [sizeTSub_eq (by omega) (by omega)]
      omega
    · omega
  have hreply : op.call.reply q = (fifo (n - 1) op xs).1 := (queue_simulates op q xs h).1
  refine ⟨?_, ?_, ?_⟩
  · rw [hreply]
    exact fifo_not_undefined _ op xs _
  · rw [hreply]
    exact fifo_not_undefined _ op xs _
  · intro i hi
    rw [h.size]
    rcases mem_indices hi with ⟨-, rfl⟩ | ⟨-, rfl | rfl⟩
    · omega
    · omega
    · exact hback

/-- A queue the ends can count around has no call without a meaning. -/
theorem Holds.allowed (h : Holds n q xs) (ops : List QueueOp) :
    Allowed (Call.object QueueOp.call) Defined q ops :=
  Allowed.of_invariant (I := fun q => ∃ xs, Holds n q xs)
    (fun op _ ⟨xs, h⟩ => ⟨h.defined op, _, (queue_simulates op _ xs h).2⟩) ops ⟨xs, h⟩

/-! ### The sizes beyond -/

/-- How many pushes there have been. -/
def pushCount : Object Nat QueueOp Unit :=
  fun op k => ((), if op.isPush then k + 1 else k)

/-- After `k` pushes on a queue whose ends never come back to zero. -/
structure Drifts (n : Nat) (q : Queue) (k : Nat) : Prop where
  size : q.queueSize = n
  extreme : n = 0 ∨ 2 ^ 31 ≤ n
  cells : q.buffer.length = n % 2 ^ 62
  head : ∃ h : Nat, q.head = h ∧ h ≤ min k (n % 2 ^ 62)
  tail : q.tail = (min k (n % 2 ^ 62) : Nat)
  counted : q.tail ≤ intMax

/-- The push after `k` others is one the queue has a number for. -/
def Counts (n k : Nat) : Prop := n ≠ 0 ∧ (2 ^ 31 - 1 ≤ n % 2 ^ 62 → k < 2 ^ 31 - 1)

namespace Drifts

/-- A push that can be counted moves the end by one, or leaves the allocation. -/
theorem push_run (h : Drifts n q k) (hcounts : Counts n k) (val : Int) :
    ∃ q', Drifts n q' (k + 1) ∧
      ((push val).run q = .ok () q' ∨ (push val).run q = .error (.undefined .outOfBounds) q') := by
  obtain ⟨hnonzero, hroom⟩ := hcounts
  obtain ⟨hsize, hextreme, hcells, ⟨start, hhead, hstart⟩, htail, -⟩ := h
  have hlarge : 2 ^ 31 ≤ n := hextreme.resolve_left hnonzero
  generalize hend : min k (n % 2 ^ 62) = e at hstart htail
  have hlt : e < 2 ^ 31 - 1 := by omega
  have hmax : ¬ q.tail = intMax := by
    unfold intMax
    omega
  have hnext : sizeTOfInt (q.tail + 1) = e + 1 := by
    rw [htail, ← Int.natCast_add_one, sizeTOfInt_natCast (by omega)]
  have hfree : ¬ (e + 1) % n = sizeTOfInt q.head := by
    rw [hhead, sizeTOfInt_natCast (by omega), Nat.mod_eq_of_lt (by omega)]
    omega
  rw [push_branches, if_neg hmax, hsize, if_neg hnonzero, hnext, if_neg hfree]
  by_cases hin : Inside q q.tail
  · rw [if_pos hin, if_neg (by omega)]
    have hroom : e < n % 2 ^ 62 := by
      have := hin.2
      omega
    refine ⟨⟨q.buffer.set q.tail.toNat val, n, q.head, q.tail + 1⟩,
      ⟨rfl, hextreme, ?_, ⟨start, hhead, by omega⟩, ?_, ?_⟩, .inl rfl⟩
    · exact List.length_set.trans hcells
    · show q.tail + 1 = _
      omega
    · show q.tail + 1 ≤ intMax
      unfold intMax
      omega
  · rw [if_neg hin]
    have hout : ¬ e < n % 2 ^ 62 := by
      intro hlt
      exact hin ⟨by omega, by omega⟩
    refine ⟨q, ⟨hsize, hextreme, hcells, ⟨start, hhead, by omega⟩, by omega, ?_⟩, .inr rfl⟩
    unfold intMax
    omega

theorem push_undefined (h : Drifts n q k) (hcounts : ¬ Counts n k) (val : Int) :
    (push val).run q = .error (.undefined .divisionByZero) q ∨
    (push val).run q = .error (.undefined .signedOverflow) q := by
  obtain ⟨hsize, hextreme, -, -, htail, hcounted⟩ := h
  rcases hextreme with hzero | hlarge
  · have hmax : ¬ q.tail = intMax := by
      unfold intMax
      omega
    exact .inl (by rw [push_branches, if_neg hmax, hsize, if_pos hzero])
  · have hmax : q.tail = intMax := by
      unfold Counts at hcounts
      unfold intMax at hcounted ⊢
      omega
    exact .inr (by rw [push_branches, if_pos hmax])

/-- A queue that is not empty is read before its end. -/
theorem nonempty (h : Drifts n q k) (hne : q.head ≠ q.tail) :
    0 ≤ q.head ∧ q.head < q.tail ∧ q.backIndex = q.tail - 1 ∧ q.tail ≤ q.buffer.length := by
  obtain ⟨-, -, hcells, ⟨start, hhead, hstart⟩, htail, -⟩ := h
  have hpos : q.tail ≠ 0 := by omega
  rw [backIndex, if_neg hpos]
  refine ⟨by omega, by omega, rfl, by omega⟩

theorem below (h : Drifts n q k) {i : Int} (hi : i ∈ op.indices q) : 0 ≤ i ∧ i < q.queueSize := by
  have hcounted := h.counted
  have hextreme := h.extreme
  have htail := h.tail
  unfold intMax at hcounted
  rw [← h.size] at hextreme
  rcases mem_indices hi with ⟨hnonzero, rfl⟩ | ⟨hne, hread⟩
  · omega
  · obtain ⟨hnonneg, hlt, hback, hroom⟩ := h.nonempty hne
    rw [← h.size] at htail
    rw [hback] at hread
    rcases hread with rfl | rfl <;> omega

/-- A `Pop` moves the head, to where the end has been. -/
theorem pop_run (h : Drifts n q k) :
    (pop.run q = .error (.runtimeError "queue is empty") q) ∨
    ∃ out q', pop.run q = .ok out q' ∧ Drifts n q' k := by
  obtain ⟨out, hrun⟩ := pop_branches q
  by_cases hempty : q.head = q.tail
  · rw [if_pos hempty] at hrun
    exact .inl hrun
  obtain ⟨hnonneg, hlt, -, hroom⟩ := h.nonempty hempty
  have hcounted := h.counted
  rw [if_neg hempty, if_neg (not_not.mpr ⟨hnonneg, by omega⟩), if_neg (by omega)] at hrun
  refine .inr ⟨out, _, hrun, h.size, h.extreme, h.cells, ?_, h.tail, h.counted⟩
  have htail := h.tail
  split
  · exact ⟨0, rfl, Nat.zero_le _⟩
  · exact ⟨q.head.toNat + 1, by show q.head + 1 = _; omega, by omega⟩

/-- The calls that only read, and `Pop`, never go wrong. -/
theorem others_run (h : Drifts n q k) (hop : op.isPush = false) :
    Drifts n (op.call.after q) k ∧ ∀ why, op.call.reply q ≠ .error (.undefined why) := by
  cases op with
  | push val => injection hop
  | pop =>
      rcases h.pop_run with hrun | ⟨out, q', hrun, hdrifts⟩
      · simpa [QueueOp.call, Call.after, Call.reply, hrun] using h
      · simpa [QueueOp.call, Call.after, Call.reply, hrun] using hdrifts
  | front =>
      by_cases hempty : q.head = q.tail
      · simpa [QueueOp.call, Call.after, Call.reply, front_branches, hempty] using h
      · obtain ⟨hnonneg, hlt, -, hroom⟩ := h.nonempty hempty
        obtain ⟨v, hrun⟩ := load_inside (q := q) (i := q.head) ⟨hnonneg, by omega⟩
        simpa [QueueOp.call, Call.after, Call.reply, front_branches, hempty, hrun] using h
  | back =>
      by_cases hempty : q.head = q.tail
      · simpa [QueueOp.call, Call.after, Call.reply, back_branches, hempty] using h
      · obtain ⟨hnonneg, hlt, hback, hroom⟩ := h.nonempty hempty
        obtain ⟨v, hrun⟩ := load_inside (q := q) (i := q.backIndex) ⟨by omega, by omega⟩
        simpa [QueueOp.call, Call.after, Call.reply, back_branches, hempty, hrun] using h
  | empty => simpa [QueueOp.call, Call.after, Call.reply, empty_eq] using h

/-- A push with a number is defined, and no other push is. -/
theorem push_defined_iff (h : Drifts n q k) (val : Int) : Defined q (.push val) ↔ Counts n k := by
  constructor
  · intro hdefined
    by_contra hcounts
    rcases h.push_undefined hcounts val with hrun | hrun
    · exact hdefined.divides (Call.reply_error (Call.run_bind_error hrun))
    · exact hdefined.counts (Call.reply_error (Call.run_bind_error hrun))
  · intro hcounts
    obtain ⟨q', -, hrun | hrun⟩ := h.push_run hcounts val
    · have hreply : (QueueOp.push val).call.reply q = .ok .done :=
        Call.reply_ok (Call.run_bind_ok hrun)
      exact ⟨by simp [hreply], by simp [hreply], fun i => h.below⟩
    · have hreply : (QueueOp.push val).call.reply q = .error (.undefined .outOfBounds) :=
        Call.reply_error (Call.run_bind_error hrun)
      exact ⟨by simp [hreply], by simp [hreply], fun i => h.below⟩

theorem defined_iff (h : Drifts n q k) (op : QueueOp) :
    Defined q op ↔ (op.isPush = true → Counts n k) := by
  by_cases hop : op.isPush = true
  · obtain ⟨val, rfl⟩ := isPush_iff.mp hop
    rw [h.push_defined_iff]
    exact ⟨fun hcounts _ => hcounts, fun hcounts => hcounts hop⟩
  · obtain ⟨-, hreply⟩ := h.others_run (eq_false_of_ne_true hop)
    exact iff_of_true ⟨hreply _, hreply _, fun i => h.below⟩ fun hpush => absurd hpush hop

theorem step (h : Drifts n q k) (hop : Defined q op) :
    Drifts n (Call.object QueueOp.call op q).2 (pushCount op k).2 := by
  by_cases hpush : op.isPush = true
  · obtain ⟨val, rfl⟩ := isPush_iff.mp hpush
    show Drifts n ((QueueOp.push val).call.after q) (k + 1)
    rw [QueueOp.call, Call.after_bind_pure]
    obtain ⟨q', hdrifts, hrun | hrun⟩ := h.push_run ((h.push_defined_iff val).mp hop) val
    · rw [Call.after_ok hrun]
      exact hdrifts
    · rw [Call.after_error hrun]
      exact hdrifts
  · obtain ⟨hdrifts, -⟩ := h.others_run (eq_false_of_ne_true hpush)
    rw [pushCount, if_neg hpush]
    exact hdrifts

end Drifts

/-! ### Every size the constructor accepts -/

/-- A condition on every push of a run, by its number. -/
theorem allowed_pushCount {P : Nat → Prop} (ops : List QueueOp) :
    ∀ k, Allowed pushCount (fun k op => op.isPush = true → P k) k ops ↔
      ∀ j < ops.countP QueueOp.isPush, P (k + j) := by
  induction ops with
  | nil => intro k; simp [Allowed.nil]
  | cons op ops ih =>
      intro k
      rw [Allowed.cons_iff, ih, List.countP_cons]
      by_cases hop : op.isPush = true
      · rw [pushCount, if_pos hop, if_pos hop]
        constructor
        · rintro ⟨hfirst, hrest⟩ j hj
          rcases j with _ | j
          · exact hfirst hop
          · have hj' := hrest j (by omega)
            rwa [Nat.add_right_comm] at hj'
        · intro h
          refine ⟨fun _ => h 0 (by omega), ?_⟩
          intro j hj
          have hj' := h (j + 1) (by omega)
          rwa [← Nat.add_assoc, Nat.add_right_comm] at hj'
      · simp [hop, pushCount]

theorem new_inv (hnew : Queue.new n = .ok q) :
    sizeT (n * sizeofInt) ≤ ptrdiffMax ∧
    q = ⟨List.replicate (sizeT (n * sizeofInt) / sizeofInt) 0, n, 0, 0⟩ := by
  simp only [Queue.new] at hnew
  split at hnew
  · injection hnew
  · next hserved =>
      injection hnew with hq
      exact ⟨Nat.not_lt.mp hserved, hq.symm⟩

theorem new_drifts (hnew : Queue.new n = .ok q) (hextreme : n = 0 ∨ 2 ^ 31 ≤ n) :
    Drifts n q 0 := by
  obtain ⟨-, rfl⟩ := new_inv hnew
  refine ⟨rfl, hextreme, ?_, ⟨0, rfl, Nat.zero_le _⟩, ?_, ?_⟩
  · rw [List.length_replicate]
    unfold sizeT sizeMod sizeofInt
    omega
  · rw [Nat.zero_min]
    rfl
  · exact Int.natCast_nonneg _

/--
**The arithmetic of the queue is defined exactly up to the pushes it can count.**  A queue
without cells cannot take any; one of `2 ^ 31` cells or more can take `INT_MAX` of them,
unless its bytes wrapped to so few cells that the pushes leave the allocation first.
-/
theorem queue_defined_iff (n : Nat) (q₀ : Queue) (hnew : Queue.new n = .ok q₀)
    (ops : List QueueOp) :
    Allowed (Call.object QueueOp.call) Defined q₀ ops ↔
      (n = 0 → ops.countP QueueOp.isPush = 0) ∧
      (2 ^ 31 ≤ n → 2 ^ 31 - 1 ≤ n % 2 ^ 62 → ops.countP QueueOp.isPush ≤ 2 ^ 31 - 1) := by
  by_cases hordinary : 1 ≤ n ∧ n < 2 ^ 31
  · have hbound : (n : Int) ≤ intMax := by
      unfold intMax
      omega
    obtain ⟨q, hnew', hholds⟩ := new_holds hordinary.1 hbound
    rw [hnew] at hnew'
    rw [Except.ok.inj hnew']
    exact iff_of_true (hholds.allowed ops) ⟨by omega, by omega⟩
  · have hdrifts := new_drifts hnew (by omega)
    rw [Allowed.congr (fun op _ _ h => h.defined_iff op) (fun _ _ _ h => h.step) hdrifts,
      allowed_pushCount]
    simp only [Nat.zero_add, Counts]
    constructor
    · intro h
      refine ⟨?_, ?_⟩
      · intro hzero
        by_contra hpos
        exact (h 0 (by omega)).1 hzero
      · intro _ hcells
        by_contra hmany
        exact absurd ((h (2 ^ 31 - 1) (by omega)).2 hcells) (Nat.lt_irrefl _)
    · rintro ⟨hzero, hlarge⟩ j hj
      refine ⟨fun hn => ?_, fun hcells => ?_⟩
      · have := hzero hn
        omega
      · have := hlarge (by omega) hcells
        omega

/-- The queue of the unit test. -/
theorem queue_defined_testQueue :
    Allowed (Call.object QueueOp.call) Defined ⟨[0, 0, 0, 0, 0], 5, 0, 0⟩
      [.push 5, .pop, .push 10, .push 20, .push 40, .push 60, .push 70, .pop, .front, .back] := by
  refine (queue_defined_iff 5 ⟨[0, 0, 0, 0, 0], 5, 0, 0⟩ rfl _).mpr ⟨?_, ?_⟩
  · intro hzero
    injection hzero
  · intro hlarge
    exact absurd hlarge (by decide)

/-- The first push on a queue of size zero divides by the size. -/
theorem queue_undefined_no_cells :
    Queue.new 0 = .ok ⟨[], 0, 0, 0⟩ ∧
    (QueueOp.push 1).call.reply ⟨[], 0, 0, 0⟩ = .error (.undefined .divisionByZero) ∧
    ¬ Allowed (Call.object QueueOp.call) Defined ⟨[], 0, 0, 0⟩ [.push 1] := by
  refine ⟨rfl, rfl, ?_⟩
  intro h
  exact h.head.divides rfl

end Technopark.Queue
