/-
When `Display` comes to an end.

Its loop compares an `int` with `top_`, both as `size_t`.  On a stack with elements `top_`
is the index of the newest, and the loop reads the elements from the bottom up.  On an
empty stack `top_` is the greatest `size_t`, which no index exceeds: the loop reads the cells
that hold no element, and then what is behind them.
-/
import Technopark.Proofs.Stack

namespace Technopark.Stack

variable {n : Nat} {s : Stack} {xs : List Int} {t : Terminal} {i : Int}

/-- What one iteration prints. -/
def shown (x : Int) : List String := [toString x, "\t"]

/--
`Display` reads the cells of the elements and no others, prints the elements from the
bottom up, and its loop has as many iterations as there are elements.
-/
structure Shows (s : Stack) (xs : List Int) : Prop where
  size : size.run s = .ok xs.length s
  returns : ∀ fuel, xs.length ≤ fuel → (display fuel).run ⟨s, [], []⟩
    = .ok () ⟨s, (List.range xs.length).map Nat.cast, xs.reverse.flatMap shown ++ ["\n"]⟩
  iterations : ∀ fuel < xs.length, (display fuel).reply ⟨s, [], []⟩ = .error .outOfFuel

/-! ### The iterations -/

theorem displayLoop_done (h : t.stack.topIndex < sizeTOfInt i) (fuel : Nat) :
    (displayLoop fuel i).run t = .ok () t := by
  have hdone : ¬ sizeTOfInt i ≤ t.stack.topIndex := Nat.not_le.mpr h
  cases fuel with
  | zero => simp [displayLoop, hdone]
  | succ fuel => simp [displayLoop, hdone]

theorem displayLoop_outOfFuel (h : sizeTOfInt i ≤ t.stack.topIndex) :
    (displayLoop 0 i).run t = .error .outOfFuel t := by
  simp [displayLoop, h]

theorem readCell_run {j : Nat} {x : Int} (h : t.stack.buffer[j]? = some x) :
    (readCell j).run t = .ok x { t with reads := t.reads ++ [(j : Int)] } := by
  simp [readCell, h, Int.not_lt.mpr (Int.natCast_nonneg j)]

/-- An iteration whose cell can be read. -/
theorem displayLoop_next {x : Int} {t' : Terminal} (hgoes : sizeTOfInt i ≤ t.stack.topIndex)
    (hread : (readCell i).run t = .ok x t') (fuel : Nat) :
    (displayLoop (fuel + 1) i).run t
      = (successor i >>= displayLoop fuel).run { t' with cout := t'.cout ++ shown x } := by
  simp [displayLoop, hgoes, hread, print, shown]

theorem successor_ok (h : i ≠ intMax) (t : Terminal) : (successor i).run t = .ok (i + 1) t := by
  rw [successor, if_neg h, EStateM.run_pure]

theorem displayLoop_step {j : Nat} {x : Int} (htop : sizeTOfInt j ≤ t.stack.topIndex)
    (hcell : t.stack.buffer[j]? = some x) (hj : (j : Int) < intMax) (fuel : Nat) :
    (displayLoop (fuel + 1) j).run t = (displayLoop fuel (j + 1 : Nat)).run
      ⟨t.stack, t.reads ++ [(j : Int)], t.cout ++ shown x⟩ := by
  rw [displayLoop_next htop (readCell_run hcell),
    Call.run_bind_ok (successor_ok (Int.ne_of_lt hj) _)]
  rfl

/-! ### The whole loop -/

/-- The indices of the cells from `j` on, `len` of them. -/
def indices (j len : Nat) : List Int := (List.range' j len).map Nat.cast

namespace Holds

/-- The elements stand in the buffer from the bottom up. -/
theorem cell (h : Holds n s xs) {before rest : List Int} {x : Int}
    (hsplit : xs.reverse = before ++ x :: rest) :
    before.length < xs.length ∧ s.buffer[before.length]? = some x := by
  have hlen := congrArg List.length hsplit
  rw [List.length_reverse, List.length_append, List.length_cons] at hlen
  have hlt : before.length < xs.length := by omega
  refine ⟨hlt, ?_⟩
  rw [← List.getElem?_take_of_lt hlt, h.cells, hsplit,
    List.getElem?_append_right (Nat.le_refl _), Nat.sub_self, List.getElem?_cons_zero]

/-- The indices that the loop does not stop at are those of the elements. -/
theorem le_top_iff (h : Holds n s xs) (hne : xs ≠ []) {j : Nat} (hj : j ≤ xs.length) :
    sizeTOfInt j ≤ s.topIndex ↔ j < xs.length := by
  have hlt := h.length_lt
  have hpos := List.length_pos_iff.mpr hne
  rw [h.top, sizeTSub_eq hpos (by omega), sizeTOfInt_natCast (by omega)]
  omega

/-- One iteration prints the element it is at. -/
theorem displayLoop_element (h : Holds n s xs) (hn : n < 2 ^ 31) {before rest : List Int} {x : Int}
    (hsplit : xs.reverse = before ++ x :: rest) (fuel : Nat) (reads : List Int)
    (cout : List String) :
    (displayLoop (fuel + 1) before.length).run ⟨s, reads, cout⟩
      = (displayLoop fuel (before ++ [x]).length).run
          ⟨s, reads ++ [(before.length : Int)], cout ++ shown x⟩ := by
  have hfits := h.fits
  obtain ⟨hlt, hcell⟩ := h.cell hsplit
  have hne : xs ≠ [] := List.length_pos_iff.mp (Nat.zero_lt_of_lt hlt)
  rw [List.length_append, List.length_singleton]
  exact displayLoop_step ((h.le_top_iff hne (Nat.le_of_lt hlt)).mpr hlt) hcell
    (by unfold intMax; omega) fuel

/-- **The loop prints the elements that are left.** -/
theorem displayLoop_run (h : Holds n s xs) (hn : n < 2 ^ 31) (hne : xs ≠ []) :
    ∀ (rest before : List Int) (fuel : Nat) (reads : List Int) (cout : List String),
      xs.reverse = before ++ rest → rest.length ≤ fuel →
      (displayLoop fuel before.length).run ⟨s, reads, cout⟩
        = .ok () ⟨s, reads ++ indices before.length rest.length, cout ++ rest.flatMap shown⟩ := by
  intro rest
  induction rest with
  | nil =>
      intro before fuel reads cout hsplit _
      have hend : before.length = xs.length := by
        have hlen := congrArg List.length hsplit
        rw [List.length_reverse, List.append_nil] at hlen
        exact hlen.symm
      have hdone : ¬ sizeTOfInt before.length ≤ s.topIndex := by
        rw [h.le_top_iff hne (Nat.le_of_eq hend), hend]
        exact Nat.lt_irrefl _
      rw [displayLoop_done (Nat.not_le.mp hdone)]
      simp [indices]
  | cons x rest ih =>
      intro before fuel reads cout hsplit hfuel
      rw [List.length_cons] at hfuel
      obtain ⟨fuel, rfl⟩ : ∃ k, fuel = k + 1 := ⟨fuel - 1, by omega⟩
      rw [h.displayLoop_element hn hsplit, ih (before ++ [x]) fuel _ _ (by rw [hsplit]; simp)
        (by omega)]
      simp [indices, List.range'_succ]

/-- Fewer iterations than elements are not enough. -/
theorem displayLoop_short (h : Holds n s xs) (hn : n < 2 ^ 31) (hne : xs ≠ []) :
    ∀ (rest before : List Int) (fuel : Nat) (reads : List Int) (cout : List String),
      xs.reverse = before ++ rest → fuel < rest.length →
      ∃ t, (displayLoop fuel before.length).run ⟨s, reads, cout⟩ = .error .outOfFuel t := by
  intro rest
  induction rest with
  | nil =>
      intro before fuel reads cout _ hfuel
      exact absurd hfuel (Nat.not_lt_zero fuel)
  | cons x rest ih =>
      intro before fuel reads cout hsplit hfuel
      rcases fuel with _ | fuel
      · obtain ⟨hlt, -⟩ := h.cell hsplit
        exact ⟨_, displayLoop_outOfFuel ((h.le_top_iff hne (Nat.le_of_lt hlt)).mpr hlt)⟩
      · rw [h.displayLoop_element hn hsplit]
        rw [List.length_cons] at hfuel
        exact ih (before ++ [x]) fuel _ _ (by rw [hsplit]; simp) (by omega)

theorem shows (h : Holds n s xs) (hn : n < 2 ^ 31) (hne : xs ≠ []) : Shows s xs := by
  have hsplit : xs.reverse = [] ++ xs.reverse := rfl
  refine ⟨size_run h, ?_, ?_⟩
  · intro fuel hfuel
    have hloop := h.displayLoop_run hn hne xs.reverse [] fuel [] [] hsplit (by simpa using hfuel)
    refine (Call.run_bind_ok hloop).trans ?_
    simp [print, indices, List.range_eq_range']
  · intro fuel hfuel
    obtain ⟨t, hloop⟩ := h.displayLoop_short hn hne xs.reverse [] fuel [] [] hsplit
      (by simpa using hfuel)
    exact Call.reply_error (Call.run_bind_error hloop)

end Holds

/-! ### The empty stack -/

theorem le_minusOne (i : Int) : sizeTOfInt i ≤ minusOne := by
  unfold minusOne sizeTOfInt sizeMod
  omega

theorem readCell_ok {x : Int} {t' : Terminal} (h : (readCell i).run t = .ok x t') :
    t' = { t with reads := t.reads ++ [i] } := by
  by_cases hneg : i < 0
  · simp [readCell, hneg] at h
  cases hcell : t.stack.buffer[i.toNat]? with
  | none => simp [readCell, hneg, hcell] at h
  | some y =>
      simp only [readCell, hneg, hcell, EStateM.run_bind, EStateM.run_get, EStateM.run_set,
        if_false, EStateM.run_pure] at h
      injection h with _ ht
      exact ht.symm

/-- Nothing exceeds the `top_` of an empty stack, so the loop never ends. -/
theorem displayLoop_empty (fuel : Nat) :
    ∀ (i : Int) (t : Terminal), t.stack.topIndex = minusOne →
      ∃ e t', (displayLoop fuel i).run t = .error e t' := by
  induction fuel with
  | zero =>
      intro i t ht
      exact ⟨_, _, displayLoop_outOfFuel (by rw [ht]; exact le_minusOne i)⟩
  | succ fuel ih =>
      intro i t ht
      have hgoes : sizeTOfInt i ≤ t.stack.topIndex := by rw [ht]; exact le_minusOne i
      cases hread : (readCell i).run t with
      | error e t' => exact ⟨e, t', by simp [displayLoop, hgoes, hread]⟩
      | ok x t' =>
          obtain rfl := readCell_ok hread
          rw [displayLoop_next hgoes hread]
          by_cases hmax : i = intMax
          · have hover : ∀ t : Terminal, (successor i).run t
                = .error (.undefined .signedOverflow) t := by
              intro t
              rw [successor, if_pos hmax, Call.run_throw]
            exact ⟨_, _, Call.run_bind_error (hover _)⟩
          · rw [Call.run_bind_ok (successor_ok hmax _)]
            exact ih (i + 1) _ ht

/-- `Display` of an empty stack does not return, however long it runs. -/
theorem display_empty (hempty : s.topIndex = minusOne) (fuel : Nat) (reads : List Int)
    (cout : List String) : ∃ e t, (display fuel).run ⟨s, reads, cout⟩ = .error e t := by
  obtain ⟨e, t, hloop⟩ := displayLoop_empty fuel 0 ⟨s, reads, cout⟩ hempty
  exact ⟨e, t, Call.run_bind_error hloop⟩

/--
**`Display` shows the stack exactly if there is something on it.**  In every state that
calls of `Push`, `Pop`, `Size` and `Empty` lead to, the loop reads and prints the elements
in as many iterations as there are, unless there is none: then it never returns.
-/
theorem display_shows_iff (n : Nat) (hn : n < 2 ^ 31) (s₀ : Stack) (hnew : Stack.new n = .ok s₀)
    (ops : List StackOp) (hops : ∀ op ∈ ops, op ≠ .top) :
    ∀ (s : Stack) (xs : List Int),
      s = ((Call.object StackOp.call).run ops s₀).2 → xs = ((lifo n).run ops []).2 →
      (Shows s xs ↔ empty.reply s = .ok false) := by
  intro s xs hs hxs
  have hallowed : Allowed (lifo n) TopAllowed [] ops := by
    intro before op after hsplit htop
    exact absurd htop (hops op (by rw [hsplit]; simp))
  obtain ⟨-, h⟩ := stack_simulates.run ops s₀ [] (new_holds hnew) hallowed (by simp)
  rw [← hs, ← hxs] at h
  rw [Call.reply_ok (empty_run h)]
  constructor
  · intro hshows
    by_contra hempty
    have hnil : xs = [] := by
      cases xs with
      | nil => rfl
      | cons x xs => exact absurd rfl hempty
    obtain ⟨e, t, herror⟩ := display_empty (h.empty_iff_wrap.mpr hnil) xs.length [] []
    rw [hshows.returns xs.length (Nat.le_refl _)] at herror
    injection herror
  · intro hsome
    refine h.shows hn ?_
    rintro rfl
    injection hsome with hflag
    injection hflag

/-- Two elements, the older of which is printed first. -/
theorem display_shows_two : Shows ⟨[5, 10], 2, 1⟩ [10, 5] := by
  refine (display_shows_iff 2 (by decide) ⟨[0, 0], 2, minusOne⟩ rfl [.push 5, .push 10] ?_
    ⟨[5, 10], 2, 1⟩ [10, 5] rfl rfl).mpr rfl
  intro op hop
  simp only [List.mem_cons, List.not_mem_nil, or_false] at hop
  rcases hop with rfl | rfl <;> simp

/-- A new stack of one cell: the cell is printed, then what is behind it is read. -/
theorem display_new_stack :
    Stack.new 1 = .ok ⟨[0], 1, minusOne⟩ ∧
    ¬ Shows ⟨[0], 1, minusOne⟩ [] ∧
    (display 5).run ⟨⟨[0], 1, minusOne⟩, [], []⟩
      = .error (.undefined .outOfBounds) ⟨⟨[0], 1, minusOne⟩, [0, 1], ["0", "\t"]⟩ ∧
    ∀ fuel, ∃ e t, (display fuel).run ⟨⟨[0], 1, minusOne⟩, [], []⟩ = .error e t := by
  have hnever : ∀ fuel, ∃ e t, (display fuel).run ⟨⟨[0], 1, minusOne⟩, [], []⟩ = .error e t :=
    fun fuel => display_empty rfl fuel [] []
  refine ⟨rfl, ?_, rfl, hnever⟩
  intro hshows
  obtain ⟨e, t, herror⟩ := hnever 0
  rw [hshows.returns 0 (Nat.le_refl _)] at herror
  injection herror

end Technopark.Stack
