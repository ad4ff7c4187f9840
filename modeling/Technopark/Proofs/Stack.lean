/-
The stack is a bounded last-in first-out list.

`Holds n s xs` lays the list `xs`, newest first, out in the first cells of the buffer.
`top_` is then `xs.length - 1` computed in `size_t`, so it is `2 ^ 64 - 1` exactly when
`xs` is empty: `length_eq_wrap` and `empty_iff_wrap` are the two readings of it that the
calls rely on.  A buffer that was allocated has fewer than `2 ^ 61` cells, so nothing else
wraps.

`Top` checks nothing, and the reference allows it on a list with an element only.
-/
import Technopark.Containers.Stack
import Technopark.Lib.Run

namespace Technopark.Stack

variable {n : Nat} {s : Stack} {xs : List Int} {x : Int}

/-- The stack object stores `xs`, newest first, in a buffer of `n` cells. -/
structure Holds (n : Nat) (s : Stack) (xs : List Int) : Prop where
  size : s.stackSize = n
  served : n * sizeofInt ≤ ptrdiffMax
  allocated : s.buffer.length = n
  cells : s.buffer.take xs.length = xs.reverse
  top : s.topIndex = sizeTSub xs.length 1
  fits : xs.length ≤ n

namespace Holds

theorem length_lt (h : Holds n s xs) : xs.length < 2 ^ 61 := by
  have hserved := h.served
  have hfits := h.fits
  unfold sizeofInt ptrdiffMax at hserved
  omega

/-- `top_ + 1` is the number of elements. -/
theorem length_eq_wrap (h : Holds n s xs) : sizeT (s.topIndex + 1) = xs.length := by
  have hlt := h.length_lt
  rw [h.top]
  unfold sizeTSub sizeT sizeMod
  omega

/-- `top_` is `-1` when there is no element, and only then. -/
theorem empty_iff_wrap (h : Holds n s xs) : s.topIndex = minusOne ↔ xs = [] := by
  have hlt := h.length_lt
  have hminus : minusOne = 2 ^ 64 - 1 := by decide
  rw [h.top, hminus, ← List.length_eq_zero_iff]
  unfold sizeTSub sizeT sizeMod
  omega

/-- On a stack with an element `top_` is the index of the newest. -/
theorem top_eq (h : Holds n s (x :: xs)) : s.topIndex = xs.length := by
  have hlt := h.length_lt
  rw [List.length_cons] at hlt
  rw [h.top, List.length_cons, sizeTSub_eq (by omega) (by omega)]
  rfl

theorem newest (h : Holds n s (x :: xs)) : s.buffer[xs.length]? = some x := by
  have hcell : (s.buffer.take (xs.length + 1))[xs.length]? = some x := by
    rw [← List.length_cons (a := x), h.cells, List.reverse_cons,
      List.getElem?_append_right (by simp)]
    simp
  rwa [List.getElem?_take_of_lt (Nat.lt_succ_self _)] at hcell

end Holds

theorem new_holds {s : Stack} (h : new n = .ok s) : Holds n s [] := by
  unfold new at h
  split at h
  · cases h
  · rename_i hserved
    injection h with h
    subst h
    exact ⟨rfl, Nat.not_lt.mp hserved, by simp, rfl, rfl, Nat.zero_le _⟩

/-! ### One lemma for each call -/

theorem push_full (h : Holds n s xs) (hfull : xs.length = n) (v : Int) :
    (push v).run s = .error (.runtimeError "stack overflow") s := by
  have htest : s.stackSize ≤ sizeT (s.topIndex + 1) := by
    rw [h.size, h.length_eq_wrap, hfull]
  simp [push, htest]

theorem push_run (h : Holds n s xs) (hroom : xs.length < n) (v : Int) :
    ∃ s', (push v).run s = .ok () s' ∧ Holds n s' (v :: xs) := by
  have htest : ¬ n ≤ xs.length := by omega
  have hlt : xs.length < s.buffer.length := by rw [h.allocated]; exact hroom
  refine ⟨{ s with buffer := s.buffer.set xs.length v, topIndex := xs.length }, ?_, ?_⟩
  · simp [push, store, h.length_eq_wrap, h.size, htest, hlt]
  · have hsmall := h.length_lt
    refine ⟨h.size, h.served, by simpa using h.allocated, ?_, ?_, hroom⟩
    · show (s.buffer.set xs.length v).take (xs.length + 1) = (v :: xs).reverse
      rw [List.take_succ_eq_append_getElem (by simpa using hlt), List.reverse_cons, ← h.cells,
        List.take_set, List.set_eq_of_length_le (List.length_take_le _ _)]
      simp
    · show xs.length = sizeTSub (xs.length + 1) 1
      rw [sizeTSub_eq (by omega) (by omega)]
      rfl

theorem size_run (h : Holds n s xs) : size.run s = .ok xs.length s := by
  rw [← h.length_eq_wrap]
  rfl

theorem empty_run (h : Holds n s xs) : empty.run s = .ok xs.isEmpty s := by
  have hflag : (s.topIndex == minusOne) = xs.isEmpty := by
    rw [Bool.eq_iff_iff, beq_iff_eq, List.isEmpty_iff]
    exact h.empty_iff_wrap
  rw [← hflag]
  rfl

theorem pop_empty (h : Holds n s []) :
    pop.run s = .error (.runtimeError "stack underflow") s := by
  have htop := h.empty_iff_wrap.mpr rfl
  simp [pop, htop]

theorem pop_run (h : Holds n s (x :: xs)) :
    ∃ s', pop.run s = .ok x s' ∧ Holds n s' xs := by
  have htop : ¬ s.topIndex = minusOne := by simp [h.empty_iff_wrap]
  have hfits := h.fits
  rw [List.length_cons] at hfits
  refine ⟨{ s with topIndex := sizeTSub s.topIndex 1 }, ?_, ?_⟩
  · rw [h.top_eq] at htop ⊢
    simp [pop, load, h.top_eq, htop, h.newest]
  · refine ⟨h.size, h.served, h.allocated, ?_, ?_, by omega⟩
    · have htake := congrArg (List.take xs.length) h.cells
      rw [List.take_take, List.length_cons, Nat.min_eq_left (Nat.le_succ _), List.reverse_cons,
        List.take_append_of_le_length (by simp)] at htake
      rw [← List.take_of_length_le (l := xs.reverse) (i := xs.length) (by simp)]
      exact htake
    · show sizeTSub s.topIndex 1 = sizeTSub xs.length 1
      rw [h.top_eq]

theorem top_run (h : Holds n s (x :: xs)) : top.run s = .ok x s := by
  simp [top, load, h.top_eq, h.newest]

/-! ### The reference stack -/

/-- The calls a client makes on a stack. -/
inductive StackOp
  | push (val : Int)
  | pop
  | top
  | size
  | empty
  deriving Repr, DecidableEq

/-- What a call returns. -/
inductive Answer
  | done
  | value (x : Int)
  | count (n : Nat)
  | flag (b : Bool)
  deriving Repr, DecidableEq

/-- The code behind each call. -/
def StackOp.call : StackOp → Call Stack Answer
  | .push val => do
      Stack.push val
      return .done
  | .pop => Answer.value <$> Stack.pop
  | .top => Answer.value <$> Stack.top
  | .size => Answer.count <$> Stack.size
  | .empty => Answer.flag <$> Stack.empty

/-- A list that takes at most `capacity` elements, newest first. -/
def lifo (capacity : Nat) : Object (List Int) StackOp (Except Fault Answer)
  | .push val, xs =>
      if xs.length = capacity then (.error (.runtimeError "stack overflow"), xs)
      else (.ok .done, val :: xs)
  | .pop, [] => (.error (.runtimeError "stack underflow"), [])
  | .pop, x :: xs => (.ok (.value x), xs)
  | .top, [] => (.error (.undefined .outOfBounds), [])
  | .top, x :: xs => (.ok (.value x), x :: xs)
  | .size, xs => (.ok (.count xs.length), xs)
  | .empty, xs => (.ok (.flag xs.isEmpty), xs)

/-- `Top` is called on a stack with an element only. -/
def TopAllowed (xs : List Int) (op : StackOp) : Prop := op = .top → xs ≠ []

/-- Every allowed call answers as the list does; one that throws says so and writes nothing. -/
theorem call_run (h : Holds n s xs) {op : StackOp} (hop : TopAllowed xs op) :
    (∃ a s' ys, op.call.run s = .ok a s' ∧ lifo n op xs = (.ok a, ys) ∧ Holds n s' ys) ∨
    (∃ what, op.call.run s = .error (.runtimeError what) s ∧
      lifo n op xs = (.error (.runtimeError what), xs)) := by
  have hfits := h.fits
  cases op with
  | push v =>
      by_cases hfull : xs.length = n
      · refine Or.inr ⟨"stack overflow", ?_, ?_⟩
        · simp [StackOp.call, push_full h hfull v]
        · rw [lifo, if_pos hfull]
      · obtain ⟨s', hrun, hholds⟩ := push_run h (by omega) v
        refine Or.inl ⟨.done, s', v :: xs, by simp [StackOp.call, hrun], ?_, hholds⟩
        rw [lifo, if_neg hfull]
  | pop =>
      cases xs with
      | nil => exact Or.inr ⟨_, by simp [StackOp.call, pop_empty h], rfl⟩
      | cons x xs =>
          obtain ⟨s', hrun, hholds⟩ := pop_run h
          exact Or.inl ⟨.value x, s', xs, by simp [StackOp.call, hrun], rfl, hholds⟩
  | top =>
      cases xs with
      | nil => exact absurd rfl (hop rfl)
      | cons x xs =>
          exact Or.inl ⟨.value x, s, x :: xs, by simp [StackOp.call, top_run h], rfl, h⟩
  | size => exact Or.inl ⟨.count xs.length, s, xs, by simp [StackOp.call, size_run h], rfl, h⟩
  | empty => exact Or.inl ⟨.flag xs.isEmpty, s, xs, by simp [StackOp.call, empty_run h], rfl, h⟩

/-- The buffer and the list answer alike. -/
theorem stack_simulates :
    SimulatesUnder (Call.object StackOp.call) (lifo n) TopAllowed (fun _ => True) (Holds n) := by
  intro op s xs h hop _
  rcases call_run h hop with ⟨a, s', ys, hrun, hlifo, hholds⟩ | ⟨what, hrun, hlifo⟩
  · rw [Call.object_ok hrun, hlifo]
    exact ⟨rfl, hholds⟩
  · rw [Call.object_error hrun, hlifo]
    exact ⟨rfl, h⟩

/--
**The stack is a bounded list over whole runs.**  Every sequence of calls on an allocated
`Stack(n)`, with `Top` on a non-empty stack only, is answered as a list of at most `n`
elements answers it.  In the state it reaches, `top_ + 1` is the length of that list
modulo `2 ^ 64`, the first cells of the buffer spell it, a call that throws leaves the
state as it was, and no call uses an index outside the buffer's `n` cells.
-/
theorem stack_runs_as_lifo (n : Nat) (s₀ : Stack) (hnew : Stack.new n = .ok s₀)
    (ops : List StackOp) (hops : Allowed (lifo n) TopAllowed [] ops) :
    ∀ (s : Stack) (xs : List Int),
      s = ((Call.object StackOp.call).run ops s₀).2 → xs = ((lifo n).run ops []).2 →
      ((Call.object StackOp.call).run ops s₀).1 = ((lifo n).run ops []).1 ∧
      xs.length ≤ n ∧ (s.topIndex + 1) % 2 ^ 64 = xs.length ∧
      s.buffer.length = n ∧ s.buffer.take xs.length = xs.reverse ∧
      ∀ op : StackOp, TopAllowed xs op →
        (∀ e, op.call.reply s = .error e → op.call.after s = s) ∧
        ∀ why, op.call.reply s ≠ .error (.undefined why) := by
  intro s xs hs hxs
  obtain ⟨houts, h⟩ := stack_simulates.run ops s₀ [] (new_holds hnew) hops (by simp)
  rw [← hs, ← hxs] at h
  refine ⟨houts, h.fits, h.length_eq_wrap, h.allocated, h.cells, ?_⟩
  intro op hop
  rcases call_run h hop with ⟨a, s', ys, hrun, -⟩ | ⟨what, hrun, -⟩
  · rw [Call.reply_ok hrun]
    exact ⟨by simp, by simp⟩
  · rw [Call.reply_error hrun]
    exact ⟨fun _ _ => Call.after_error hrun, by simp⟩

/-- A stack of two cells, read, filled past its size and emptied past its bottom. -/
theorem stack_runs_two_cells :
    ((Call.object StackOp.call).run [.push 5, .push 10, .push 20, .top, .size, .pop, .pop, .pop]
        ⟨[0, 0], 2, minusOne⟩).1
      = [.ok .done, .ok .done, .error (.runtimeError "stack overflow"), .ok (.value 10),
        .ok (.count 2), .ok (.value 10), .ok (.value 5),
        .error (.runtimeError "stack underflow")] := by
  refine (stack_runs_as_lifo 2 ⟨[0, 0], 2, minusOne⟩ rfl _ ?_ _ _ rfl rfl).1
  have hother : ∀ {xs : List Int} {op : StackOp}, op ≠ .top → TopAllowed xs op :=
    fun hne htop => absurd htop hne
  exact .cons (hother (by simp)) (.cons (hother (by simp)) (.cons (hother (by simp))
    (.cons (fun _ => by decide) (.cons (hother (by simp)) (.cons (hother (by simp))
      (.cons (hother (by simp)) (.cons (hother (by simp)) .nil)))))))

end Technopark.Stack
