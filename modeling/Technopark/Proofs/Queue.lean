/-
The ring buffer is a bounded first-in first-out queue.

`Holds n q xs` lays the list `xs` out in the buffer from `head_` to `tail_`; that
both ends stay in `[0, n)` is part of it, and with `n` at most `INT_MAX` no
increment overflows.  The code wraps in two ways: `Push` asks `(tail_ + 1) % n` before
it writes and then resets `tail_` when it has reached the end.  `mod_eq_advance` and
`reset_eq_advance` say that both are the one step around the ring.

The reference is the object `fifo`: a list of at most `n - 1` elements that gives
the same answers, errors included.
-/
import Technopark.Containers.Queue
import Technopark.Lib.Ring
import Technopark.Lib.Run

namespace Technopark.Queue

open Technopark.Ring

variable {n : Nat} {q : Queue} {xs : List Int} {x : Int}

/-- The queue object lays `xs` out in its ring of `n` cells. -/
structure Holds (n : Nat) (q : Queue) (xs : List Int) : Prop where
  size : q.queueSize = n
  bound : (n : Int) ≤ intMax
  ends : ∃ h : Nat, q.head = h ∧ q.tail = slot n h xs.length ∧ Spells n q.buffer h xs

theorem new_holds (hpos : 1 ≤ n) (hbound : (n : Int) ≤ intMax) :
    ∃ q, new n = .ok q ∧ Holds n q [] := by
  have hn : n < 2 ^ 31 := by
    unfold intMax at hbound
    omega
  have hbytes : sizeT (n * sizeofInt) = n * sizeofInt := by
    unfold sizeofInt
    exact sizeT_eq (by omega)
  have hserved : ¬ ptrdiffMax < n * sizeofInt := by
    unfold ptrdiffMax sizeofInt
    omega
  refine ⟨{ buffer := List.replicate n 0, queueSize := n, head := 0, tail := 0 }, ?_, rfl, hbound,
    0, rfl, ?_, Spells.nil (by simp) hpos⟩
  · unfold new
    rw [hbytes, if_neg hserved]
    simp [sizeofInt]
  · rw [List.length_nil, slot_zero hpos]
    rfl

/-! ### The two ways the code wraps -/

theorem successor_ok {i : Int} (h : i ≠ intMax) (q : Queue) :
    (successor i).run q = .ok (i + 1) q := by
  rw [successor, if_neg h, EStateM.run_pure]

theorem successor_max (q : Queue) :
    (successor intMax).run q = .error (.undefined .signedOverflow) q := by
  rw [successor, if_pos rfl, Call.run_throw]

theorem mod_eq_advance {t : Nat} (ht : t < n) (hn : n < 2 ^ 31) :
    sizeTOfInt ((t : Int) + 1) % n = advance n t := by
  have hcast : sizeTOfInt ((t : Int) + 1) = t + 1 := by
    rw [← Int.natCast_add_one, sizeTOfInt_natCast (by omega)]
  rw [hcast]
  unfold advance
  split
  · rename_i hend
    rw [hend, Nat.mod_self]
  · exact Nat.mod_eq_of_lt (by omega)

theorem reset_eq_advance {t : Nat} (hn : n < 2 ^ 31) (ht : t < n) :
    (if sizeTOfInt ((t : Int) + 1) = n then (0 : Int) else t + 1) = (advance n t : Int) := by
  have hcast : sizeTOfInt ((t : Int) + 1) = t + 1 := by
    rw [← Int.natCast_add_one, sizeTOfInt_natCast (by omega)]
  rw [hcast]
  unfold advance
  split <;> simp

/-! ### One lemma for each call -/

theorem load_run {i : Nat} {v : Int} (h : q.buffer[i]? = some v) :
    (load (i : Int)).run q = .ok v q := by
  have hnonneg : ¬ (i : Int) < 0 := by omega
  simp [load, hnonneg, h]

theorem store_run {i : Nat} (h : i < q.buffer.length) (v : Int) :
    (store (i : Int) v).run q = .ok () { q with buffer := q.buffer.set i v } := by
  simp [store, h]

/-- `buffer_[i]` is a cell of the allocation. -/
def Inside (q : Queue) (i : Int) : Prop := 0 ≤ i ∧ i.toNat < q.buffer.length

instance (q : Queue) (i : Int) : Decidable (Inside q i) :=
  inferInstanceAs (Decidable (0 ≤ i ∧ i.toNat < q.buffer.length))

theorem load_inside {i : Int} (h : Inside q i) : ∃ v, (load i).run q = .ok v q := by
  obtain ⟨hnonneg, hlt⟩ := h
  have hrun := load_run (List.getElem?_eq_getElem hlt)
  rw [Int.toNat_of_nonneg hnonneg] at hrun
  exact ⟨_, hrun⟩

theorem load_outside {i : Int} (h : ¬ Inside q i) :
    (load i).run q = .error (.undefined .outOfBounds) q := by
  by_cases hneg : i < 0
  · simp [load, hneg]
  · have hout : q.buffer[i.toNat]? = none :=
      List.getElem?_eq_none (Nat.not_lt.mp fun hlt => h ⟨Int.not_lt.mp hneg, hlt⟩)
    simp [load, hneg, hout]

theorem store_inside {i : Int} (h : Inside q i) (val : Int) :
    (store i val).run q = .ok () { q with buffer := q.buffer.set i.toNat val } := by
  obtain ⟨hnonneg, hlt⟩ := h
  have hrun := store_run hlt val
  rwa [Int.toNat_of_nonneg hnonneg] at hrun

theorem store_outside {i : Int} (h : ¬ Inside q i) (val : Int) :
    (store i val).run q = .error (.undefined .outOfBounds) q := by
  unfold Inside at h
  rw [store, Call.run_bind_ok (EStateM.run_get q), if_neg h, Call.run_throw]

/-- The branches of `Push`. -/
theorem push_branches (q : Queue) (val : Int) :
    (push val).run q =
      if q.tail = intMax then .error (.undefined .signedOverflow) q
      else if q.queueSize = 0 then .error (.undefined .divisionByZero) q
      else if sizeTOfInt (q.tail + 1) % q.queueSize = sizeTOfInt q.head then
        .error (.runtimeError "queue is full") q
      else if Inside q q.tail then
        .ok () { q with
          buffer := q.buffer.set q.tail.toNat val
          tail := if sizeTOfInt (q.tail + 1) = q.queueSize then 0 else q.tail + 1 }
      else .error (.undefined .outOfBounds) q := by
  by_cases hmax : q.tail = intMax
  · rw [push, Call.run_bind_ok (EStateM.run_get q), hmax, Call.run_bind_error (successor_max q)]
    rfl
  rw [if_neg hmax]
  by_cases hzero : q.queueSize = 0
  · simp [push, successor_ok hmax, hzero]
  rw [if_neg hzero]
  by_cases hfull : sizeTOfInt (q.tail + 1) % q.queueSize = sizeTOfInt q.head
  · simp [push, successor_ok hmax, hzero, hfull]
  rw [if_neg hfull]
  by_cases hin : Inside q q.tail
  · rw [if_pos hin]
    simp only [push, EStateM.run_bind, EStateM.run_get, successor_ok hmax, hzero, hfull,
      store_inside hin, if_false]
    split
    · simp
    · simp
  · simp [push, successor_ok hmax, hzero, hfull, store_outside hin, hin]

/-- The ends coincide exactly when nothing is stored. -/
theorem empty_run (hq : Holds n q xs) : empty.run q = .ok xs.isEmpty q := by
  obtain ⟨h, hhead, htail, hspells⟩ := hq.ends
  have hiff : (q.head == q.tail) = xs.isEmpty := by
    rw [hhead, htail, Bool.eq_iff_iff, beq_iff_eq, List.isEmpty_iff, Int.natCast_inj, eq_comm,
      slot_eq_start_iff hspells.start (Nat.le_of_lt hspells.free), ← List.length_eq_zero_iff]
    have := hspells.free
    omega
  simp [empty, hiff]

/-- What `Push` compares and computes when `tail_` is at cell `t`. -/
private theorem push_eq {h t : Nat} (hsize : q.queueSize = n) (hhead : q.head = h)
    (htail : q.tail = t) (hn : (n : Int) ≤ intMax) (hh : h < n) (ht : t < n)
    (hbuf : q.buffer.length = n) (v : Int) :
    (push v).run q =
      if advance n t = h then .error (.runtimeError "queue is full") q
      else .ok () { q with buffer := q.buffer.set t v, tail := advance n t } := by
  have hbound : n < 2 ^ 31 := by
    unfold intMax at hn
    omega
  have hmax : q.tail ≠ intMax := by
    unfold intMax
    omega
  have hin : Inside q q.tail := ⟨by omega, by omega⟩
  have hheadT : sizeTOfInt (h : Int) = h := sizeTOfInt_natCast (by omega)
  rw [push_branches, if_neg hmax, if_neg (by omega), if_pos hin, hsize, hhead, htail,
    mod_eq_advance ht hbound, reset_eq_advance hbound ht, hheadT, Int.toNat_natCast]

theorem push_full (hq : Holds n q xs) (hfull : xs.length + 1 = n) (v : Int) :
    (push v).run q = .error (.runtimeError "queue is full") q := by
  obtain ⟨h, hhead, htail, hspells⟩ := hq.ends
  rw [push_eq hq.size hhead htail hq.bound hspells.start
    (slot_lt hspells.start (Nat.le_of_lt hspells.free)) hspells.size,
    advance_slot hspells.start hspells.free, if_pos]
  exact (slot_eq_start_iff hspells.start (Nat.le_of_eq hfull)).mpr (Or.inr hfull)

theorem push_run (hq : Holds n q xs) (hroom : xs.length + 1 < n) (v : Int) :
    ∃ q', (push v).run q = .ok () q' ∧ Holds n q' (xs ++ [v]) := by
  obtain ⟨h, hhead, htail, hspells⟩ := hq.ends
  have hne : slot n h (xs.length + 1) ≠ h := fun heq => by
    have := (slot_eq_start_iff hspells.start (Nat.le_of_lt hroom)).mp heq
    omega
  refine ⟨{ q with
      buffer := q.buffer.set (slot n h xs.length) v, tail := slot n h (xs.length + 1) },
    ?_, hq.size, hq.bound, h, hhead, ?_, hspells.push hroom v⟩
  · rw [push_eq hq.size hhead htail hq.bound hspells.start
      (slot_lt hspells.start (Nat.le_of_lt hspells.free)) hspells.size,
      advance_slot hspells.start hspells.free, if_neg hne]
  · rw [List.length_append, List.length_singleton]

theorem pop_empty (hq : Holds n q []) :
    pop.run q = .error (.runtimeError "queue is empty") q := by
  simp [pop, empty_run hq]

theorem pop_run (hq : Holds n q (x :: xs)) :
    ∃ q', pop.run q = .ok x q' ∧ Holds n q' xs := by
  obtain ⟨h, hhead, htail, hspells⟩ := hq.ends
  have hbound : n < 2 ^ 31 := by
    have := hq.bound
    unfold intMax at this
    omega
  have hsucc : (successor (h : Int)).run q = .ok ((h : Int) + 1) q :=
    successor_ok (by have := hq.bound; have := hspells.start; omega) q
  have hreset := reset_eq_advance hbound hspells.start
  have hfree := hspells.free
  rw [List.length_cons] at hfree
  refine ⟨{ q with head := advance n h }, ?_, hq.size, hq.bound, advance n h, rfl, ?_,
    hspells.pop⟩
  · unfold pop
    rw [Call.run_bind_ok (empty_run hq)]
    simp only [List.isEmpty_cons, Bool.false_eq_true, if_false, EStateM.run_bind,
      EStateM.run_get, hhead, load_run hspells.first, hsucc, hq.size]
    split at hreset
    · rename_i hend
      simp [hend, ← hreset, hq.size]
    · rename_i hend
      simp [hend, ← hreset, hq.size]
  · rw [slot_advance (by omega)]
    exact htail

theorem front_empty (hq : Holds n q []) :
    front.run q = .error (.runtimeError "queue is empty") q := by
  simp [front, empty_run hq]

theorem front_run (hq : Holds n q (x :: xs)) : front.run q = .ok x q := by
  obtain ⟨h, hhead, -, hspells⟩ := hq.ends
  simp [front, empty_run hq, hhead, load_run hspells.first]

theorem back_empty (hq : Holds n q []) :
    back.run q = .error (.runtimeError "queue is empty") q := by
  unfold back
  rw [Call.run_bind_ok (empty_run hq)]
  rfl

/-- The newest element sits one cell before `tail_`, across the end if `tail_` is zero. -/
theorem back_run (hq : Holds n q (xs ++ [x])) : back.run q = .ok x q := by
  obtain ⟨h, hhead, htail, hspells⟩ := hq.ends
  have hfree := hspells.free
  have hbound := hq.bound
  rw [List.length_append, List.length_singleton] at hfree
  rw [List.length_append, List.length_singleton,
    ← advance_slot hspells.start (Nat.lt_of_succ_lt hfree)] at htail
  have hlt : slot n h xs.length < n := slot_lt hspells.start (by omega)
  have hlast := load_run hspells.last
  have hsome : (xs ++ [x]).isEmpty = false := by simp
  unfold back
  rw [Call.run_bind_ok (empty_run hq), hsome]
  simp only [Bool.false_eq_true, if_false, EStateM.run_bind, EStateM.run_get, hq.size]
  by_cases hend : slot n h xs.length + 1 = n
  · have hzero : q.tail = 0 := by rw [htail, advance, if_pos hend]; rfl
    have hidx : ((sizeTSub n 1 : Nat) : Int) = (slot n h xs.length : Int) := by
      unfold intMax at hbound
      rw [sizeTSub_eq (by omega) (by omega)]
      omega
    rw [if_pos hzero, hidx]
    exact hlast
  · have hsucc : q.tail = (slot n h xs.length : Int) + 1 := by
      rw [htail, advance, if_neg hend]
      rfl
    rw [if_neg (by omega), hsucc, Int.add_sub_cancel]
    exact hlast

/-! ### The reference queue -/

/-- The calls a client makes on a queue. -/
inductive QueueOp
  | push (val : Int)
  | pop
  | front
  | back
  | empty
  deriving Repr, DecidableEq

/-- What a call returns. -/
inductive Answer
  | done
  | value (x : Int)
  | flag (b : Bool)
  deriving Repr, DecidableEq

/-- The code behind each call. -/
def QueueOp.call : QueueOp → Call Queue Answer
  | .push val => do
      Queue.push val
      return .done
  | .pop => Answer.value <$> Queue.pop
  | .front => Answer.value <$> Queue.front
  | .back => Answer.value <$> Queue.back
  | .empty => Answer.flag <$> Queue.empty

/-- A list that takes at most `capacity` elements, oldest first. -/
def fifo (capacity : Nat) : Object (List Int) QueueOp (Except Fault Answer)
  | .push val, xs =>
      if xs.length = capacity then (.error (.runtimeError "queue is full"), xs)
      else (.ok .done, xs ++ [val])
  | .pop, [] => (.error (.runtimeError "queue is empty"), [])
  | .pop, x :: xs => (.ok (.value x), xs)
  | .front, [] => (.error (.runtimeError "queue is empty"), [])
  | .front, x :: xs => (.ok (.value x), x :: xs)
  | .back, [] => (.error (.runtimeError "queue is empty"), [])
  | .back, x :: xs => (.ok (.value ((x :: xs).getLast (List.cons_ne_nil x xs))), x :: xs)
  | .empty, xs => (.ok (.flag xs.isEmpty), xs)

/-- Every call answers as the list does, and a call that throws writes nothing. -/
theorem call_run (hq : Holds n q xs) (op : QueueOp) :
    (∃ a q' ys, op.call.run q = .ok a q' ∧ fifo (n - 1) op xs = (.ok a, ys) ∧ Holds n q' ys) ∨
    (∃ e, op.call.run q = .error e q ∧ fifo (n - 1) op xs = (.error e, xs)) := by
  obtain ⟨h, -, -, hspells⟩ := hq.ends
  have hfree := hspells.free
  cases op with
  | push v =>
      by_cases hfull : xs.length + 1 = n
      · refine Or.inr ⟨.runtimeError "queue is full", ?_, ?_⟩
        · simp [QueueOp.call, push_full hq hfull v]
        · rw [fifo, if_pos (by omega)]
      · obtain ⟨q', hrun, hholds⟩ := push_run hq (by omega) v
        refine Or.inl ⟨.done, q', xs ++ [v], by simp [QueueOp.call, hrun], ?_, hholds⟩
        rw [fifo, if_neg (by omega)]
  | pop =>
      cases xs with
      | nil => exact Or.inr ⟨_, by simp [QueueOp.call, pop_empty hq], rfl⟩
      | cons x xs =>
          obtain ⟨q', hrun, hholds⟩ := pop_run hq
          exact Or.inl ⟨.value x, q', xs, by simp [QueueOp.call, hrun], rfl, hholds⟩
  | front =>
      cases xs with
      | nil => exact Or.inr ⟨_, by simp [QueueOp.call, front_empty hq], rfl⟩
      | cons x xs =>
          exact Or.inl ⟨.value x, q, x :: xs, by simp [QueueOp.call, front_run hq], rfl, hq⟩
  | back =>
      cases xs with
      | nil => exact Or.inr ⟨_, by simp [QueueOp.call, back_empty hq], rfl⟩
      | cons x xs =>
          have hlast := back_run (x := (x :: xs).getLast (List.cons_ne_nil x xs))
            (by rw [List.dropLast_append_getLast]; exact hq)
          exact Or.inl ⟨_, q, x :: xs, by simp [QueueOp.call, hlast], rfl, hq⟩
  | empty =>
      exact Or.inl ⟨.flag xs.isEmpty, q, xs, by simp [QueueOp.call, empty_run hq], rfl, hq⟩

/-- The ring buffer and the list answer alike. -/
theorem queue_simulates : Simulates (Call.object QueueOp.call) (fifo (n - 1)) (Holds n) := by
  intro op q xs hq
  rcases call_run hq op with ⟨a, q', ys, hrun, hfifo, hholds⟩ | ⟨e, hrun, hfifo⟩
  · rw [Call.object_ok hrun, hfifo]
    exact ⟨rfl, hholds⟩
  · rw [Call.object_error hrun, hfifo]
    exact ⟨rfl, hq⟩

/--
**The ring buffer is a bounded queue over whole runs.**  Every sequence of calls on
`Queue(n)` is answered as a list of at most `n - 1` elements answers it.  In the
state it reaches, both ends are in `[0, n)`, the cells from `head_` to `tail_` spell
that list around the ring, and a call that throws leaves the state as it was.
-/
theorem queue_runs_as_fifo (n : Nat) (hpos : 1 ≤ n) (hbound : (n : Int) ≤ intMax) :
    ∃ q₀, Queue.new n = .ok q₀ ∧ ∀ (ops : List QueueOp) (q : Queue) (xs : List Int),
      q = ((Call.object QueueOp.call).run ops q₀).2 → xs = ((fifo (n - 1)).run ops []).2 →
      ((Call.object QueueOp.call).run ops q₀).1 = ((fifo (n - 1)).run ops []).1 ∧
      xs.length ≤ n - 1 ∧ 0 ≤ q.head ∧ q.head < n ∧ 0 ≤ q.tail ∧ q.tail < n ∧
      q.tail = (q.head + xs.length) % n ∧
      (∀ i (hi : i < xs.length), q.buffer[((q.head + i) % n).toNat]? = some xs[i]) ∧
      ∀ (op : QueueOp) (e : Fault), op.call.reply q = .error e → op.call.after q = q := by
  obtain ⟨q₀, hnew, hstart⟩ := new_holds hpos hbound
  refine ⟨q₀, hnew, ?_⟩
  intro ops q xs hq hxs
  obtain ⟨houts, hholds⟩ := queue_simulates.run ops q₀ [] hstart
  rw [← hq, ← hxs] at hholds
  obtain ⟨h, hhead, htail, hspells⟩ := hholds.ends
  have hfree := hspells.free
  have htailLt := slot_lt hspells.start (Nat.le_of_lt hfree)
  have hh := hspells.start
  have hslot : ∀ i, i < n → ((h : Int) + i) % n = (slot n h i : Int) := by
    intro i hi
    rw [slot_eq_mod hh hi]
    rfl
  refine ⟨houts, by omega, by omega, by omega, by omega, by omega, ?_, ?_, ?_⟩
  · rw [htail, hhead, hslot _ hfree]
  · intro i hi
    rw [hhead, hslot i (by omega), Int.toNat_natCast]
    exact hspells.cell i hi
  · intro op e hreply
    rcases call_run hholds op with ⟨a, q', ys, hrun, -⟩ | ⟨e', hrun, -⟩
    · rw [Call.reply_ok hrun] at hreply
      cases hreply
    · exact Call.after_error hrun

/-- The queue of the unit test, once around its ring. -/
theorem queue_runs_testQueue :
    1 ≤ 5 ∧ ((5 : Nat) : Int) ≤ intMax ∧
    ∃ q₀, Queue.new 5 = .ok q₀ ∧
      ((Call.object QueueOp.call).run [.push 5, .pop, .push 10, .push 20, .push 40, .push 60,
        .push 70, .pop, .push 80, .front, .back] q₀).1
      = [.ok .done, .ok (.value 5), .ok .done, .ok .done, .ok .done, .ok .done,
        .error (.runtimeError "queue is full"), .ok (.value 10), .ok .done, .ok (.value 20),
        .ok (.value 80)] := by
  obtain ⟨q₀, hnew, hruns⟩ := queue_runs_as_fifo 5 (by decide) (by decide)
  refine ⟨by decide, by decide, q₀, hnew, ?_⟩
  rw [(hruns _ _ _ rfl rfl).1]
  rfl

end Technopark.Queue
