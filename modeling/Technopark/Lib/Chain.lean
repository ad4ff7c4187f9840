/-
Doubly linked chains.

`Chain next p l` says that following `next` from `p` meets exactly the elements of
`l` and then stops, so a chain is finite by having a list at all.  A `Path` need not stop
there: it may go on, and may come back to where it has been.

`Linked` says of a list of nodes that their `next` and `prev` pointers are those of
neighbours, given what comes before the first and after the last.  It speaks about
one node at a time, so what an update does to it can be read off at the nodes that
were written; the two chains follow from it once the outer neighbours are absent.
-/
import Mathlib.Data.Finset.Card
import Mathlib.Data.Finset.Filter
import Mathlib.Data.List.Induction

namespace Technopark

variable {α : Type} {next prev next' prev' : α → Option α}

/-- Following `next` from the start visits the elements of the list and stops. -/
inductive Chain (next : α → Option α) : Option α → List α → Prop
  | nil : Chain next none []
  | cons {a : α} {l : List α} : Chain next (next a) l → Chain next (some a) (a :: l)

/-- Following `next` from the start visits the elements of the list and gets to `stop`. -/
inductive Path (next : α → Option α) : Option α → List α → Option α → Prop
  | nil {stop : Option α} : Path next stop [] stop
  | cons {a : α} {l : List α} {stop : Option α} : Path next (next a) l stop →
      Path next (some a) (a :: l) stop

/-- The nodes point at their neighbours, and at `before` and `after` at the ends. -/
def Linked (next prev : α → Option α) : Option α → List α → Option α → Prop
  | _, [], _ => True
  | before, a :: l, after =>
      prev a = before ∧ next a = l.head?.or after ∧ Linked next prev (some a) l after

/-- A chain from a given start is unique. -/
theorem Chain.unique {p : Option α} {l l' : List α} (h : Chain next p l) (h' : Chain next p l') :
    l = l' := by
  induction h generalizing l' with
  | nil => cases h' with | nil => rfl
  | cons _ ih => cases h' with | cons h' => rw [ih h']

/-- A chain starts at its first element. -/
theorem Chain.start_eq {p : Option α} {l : List α} (h : Chain next p l) : p = l.head? := by
  cases h with
  | nil => rfl
  | cons _ => rfl

/-- Every element of a chain points to the one behind it. -/
theorem Chain.next_eq {p : Option α} {xs : List α} {a : α} {ys : List α}
    (h : Chain next p (xs ++ a :: ys)) : next a = ys.head? := by
  induction xs generalizing p with
  | nil => cases h with | cons h => exact h.start_eq
  | cons x xs ih => cases h with | cons h => exact ih h

/-- A chain whose last element is made to point to another chain. -/
theorem Chain.append {p : Option α} {xs ys : List α} {t : α} (h : Chain next p (xs ++ [t]))
    (hsame : ∀ a ∈ xs, next' a = next a) (hys : Chain next' (next' t) ys) :
    Chain next' p (xs ++ t :: ys) := by
  induction xs generalizing p with
  | nil => cases h with | cons _ => exact .cons hys
  | cons a xs ih =>
      obtain ⟨ha, hsame⟩ := List.forall_mem_cons.mp hsame
      cases h with
      | cons h =>
          refine .cons ?_
          rw [ha]
          exact ih h hsame

/-- Only the pointers of its elements matter for a chain. -/
theorem Chain.congr {p : Option α} {l : List α} (h : Chain next p l)
    (hsame : ∀ a ∈ l, next' a = next a) : Chain next' p l := by
  induction h with
  | nil => exact .nil
  | @cons a l _ ih =>
      obtain ⟨ha, hsame⟩ := List.forall_mem_cons.mp hsame
      refine .cons ?_
      rw [ha]
      exact ih hsame

/-- A chain is a path that gets to nothing. -/
theorem Chain.path {p : Option α} {l : List α} (h : Chain next p l) : Path next p l none := by
  induction h with
  | nil => exact .nil
  | cons _ ih => exact .cons ih

/-- A chain whose last element is made to point somewhere. -/
theorem Chain.redirect {p : Option α} {xs : List α} {t : α} (h : Chain next p (xs ++ [t]))
    (hsame : ∀ a ∈ xs, next' a = next a) : Path next' p (xs ++ [t]) (next' t) := by
  induction xs generalizing p with
  | nil => cases h with | cons _ => exact .cons .nil
  | cons a xs ih =>
      obtain ⟨ha, hsame⟩ := List.forall_mem_cons.mp hsame
      cases h with
      | cons h =>
          refine .cons ?_
          rw [ha]
          exact ih h hsame

/-- All elements of a chain but the last point into it. -/
theorem Chain.next_mem {p : Option α} {xs : List α} {t : α} (h : Chain next p (xs ++ [t])) :
    ∀ a ∈ xs, ∃ b ∈ xs ++ [t], next a = some b := by
  intro a ha
  obtain ⟨us, vs, rfl⟩ := List.append_of_mem ha
  rw [List.append_assoc, List.cons_append] at h
  have hnext := h.next_eq
  cases vs with
  | nil => exact ⟨t, by simp, hnext⟩
  | cons b vs => exact ⟨b, by simp, hnext⟩

/-- Following `next` from the start gets to `b`. -/
inductive Reaches (next : α → Option α) : Option α → α → Prop
  | here {b : α} : Reaches next (some b) b
  | step {a b : α} : Reaches next (next a) b → Reaches next (some a) b

theorem Chain.mem_of_reaches {p : Option α} {l : List α} (h : Chain next p l) {b : α}
    (hb : Reaches next p b) : b ∈ l := by
  induction h with
  | nil => cases hb
  | cons _ ih =>
      cases hb with
      | here => exact List.mem_cons_self
      | step hb => exact List.mem_cons_of_mem _ (ih hb)

/-- What every step keeps holds along a chain. -/
theorem Chain.forall_mem {p : Option α} {l : List α} (h : Chain next p l) {P : α → Prop}
    (hstep : ∀ a b, next a = some b → P a → P b) (hstart : ∀ a, p = some a → P a) :
    ∀ a ∈ l, P a := by
  induction h with
  | nil => exact fun a ha => absurd ha List.not_mem_nil
  | @cons a l _ ih =>
      have ha := hstart a rfl
      exact List.forall_mem_cons.mpr ⟨ha, ih fun b hb => hstep a b hb ha⟩

/-- **Where every step climbs, a walk over finitely many elements ends.** -/
theorem exists_chain {ι : Type} [LinearOrder ι] {rank : α → ι} {nodes : Finset α}
    (hstep : ∀ a b, next a = some b → b ∈ nodes ∧ rank a < rank b) (p : Option α) :
    ∃ l, Chain next p l ∧ l.Pairwise fun a b => rank a < rank b := by
  -- by induction on how many elements are above the one the walk is at
  have hfrom : ∀ (n : Nat) (a : α), (nodes.filter fun b => rank a < rank b).card ≤ n →
      ∃ l, Chain next (some a) l ∧ l.Pairwise fun a b => rank a < rank b := by
    intro n
    induction n with
    | zero =>
        intro a hcard
        have hnone : next a = none := by
          rw [Option.eq_none_iff_forall_not_mem]
          intro b hb
          obtain ⟨hmem, hlt⟩ := hstep a b hb
          have habove : b ∈ nodes.filter fun b => rank a < rank b :=
            Finset.mem_filter.mpr ⟨hmem, hlt⟩
          rw [Finset.card_eq_zero.mp (Nat.le_zero.mp hcard)] at habove
          exact absurd habove (Finset.notMem_empty b)
        refine ⟨[a], .cons ?_, List.pairwise_singleton _ a⟩
        rw [hnone]
        exact .nil
    | succ n ih =>
        intro a hcard
        cases hnext : next a with
        | none =>
            refine ⟨[a], .cons ?_, List.pairwise_singleton _ a⟩
            rw [hnext]
            exact .nil
        | some b =>
            obtain ⟨hmem, hlt⟩ := hstep a b hnext
            have hfewer : (nodes.filter fun c => rank b < rank c).card
                < (nodes.filter fun c => rank a < rank c).card := by
              refine Finset.card_lt_card (Finset.ssubset_iff_of_subset ?_ |>.mpr ⟨b, ?_, ?_⟩)
              · intro c hc
                obtain ⟨hc, hbc⟩ := Finset.mem_filter.mp hc
                exact Finset.mem_filter.mpr ⟨hc, hlt.trans hbc⟩
              · exact Finset.mem_filter.mpr ⟨hmem, hlt⟩
              · intro hb
                exact lt_irrefl _ (Finset.mem_filter.mp hb).2
            obtain ⟨l, hchain, hsorted⟩ := ih b (by omega)
            refine ⟨a :: l, .cons (hnext ▸ hchain), List.pairwise_cons.mpr ⟨?_, hsorted⟩⟩
            exact hchain.forall_mem (fun c d hd hc => hc.trans (hstep c d hd).2)
              (fun c hc => Option.some.inj hc ▸ hlt)
  cases p with
  | none => exact ⟨[], .nil, .nil⟩
  | some a => exact hfrom _ a (Nat.le_refl _)

theorem linked_append {before after : Option α} {xs ys : List α} :
    Linked next prev before (xs ++ ys) after ↔
      Linked next prev before xs (ys.head?.or after) ∧
        Linked next prev (xs.getLast?.or before) ys after := by
  induction xs generalizing before with
  | nil => simp [Linked]
  | cons x xs ih =>
      rw [List.cons_append, Linked, Linked, ih]
      have hhead : (xs ++ ys).head?.or after = xs.head?.or (ys.head?.or after) := by
        cases xs <;> simp
      have hlast : xs.getLast?.or (some x) = (x :: xs).getLast?.or before := by
        cases xs with
        | nil => rfl
        | cons y xs => simp [List.getLast?_cons]
      rw [hhead, hlast]
      constructor
      · intro h
        obtain ⟨hprev, hnext, hxs, hys⟩ := h
        exact ⟨⟨hprev, hnext, hxs⟩, hys⟩
      · intro h
        obtain ⟨⟨hprev, hnext, hxs⟩, hys⟩ := h
        exact ⟨hprev, hnext, hxs, hys⟩

/-- Only the pointers of the nodes themselves matter. -/
theorem Linked.congr {before after : Option α} {l : List α}
    (h : Linked next prev before l after)
    (hsame : ∀ a ∈ l, next' a = next a ∧ prev' a = prev a) :
    Linked next' prev' before l after := by
  induction l generalizing before with
  | nil => trivial
  | cons a l ih =>
      obtain ⟨hprev, hnext, hl⟩ := h
      obtain ⟨hnext', hprev'⟩ := hsame a (by simp)
      exact ⟨by rw [hprev', hprev], by rw [hnext', hnext],
        ih hl (fun b hb => hsame b (by simp [hb]))⟩

/-- Nodes are linked if each of them points at its neighbours. -/
theorem linked_of_neighbours {before after : Option α} {l : List α}
    (h : ∀ xs a ys, l = xs ++ a :: ys →
      prev a = xs.getLast?.or before ∧ next a = ys.head?.or after) :
    Linked next prev before l after := by
  induction l generalizing before with
  | nil => trivial
  | cons a l ih =>
      obtain ⟨hprev, hnext⟩ := h [] a l rfl
      refine ⟨hprev, hnext, ih ?_⟩
      intro xs b ys heq
      obtain ⟨hprev', hnext'⟩ := h (a :: xs) b ys (by rw [heq]; rfl)
      refine ⟨?_, hnext'⟩
      rw [hprev']
      cases xs with
      | nil => rfl
      | cons x xs => simp [List.getLast?_cons]

/-- Two chains that spell a list in both directions link its nodes. -/
theorem linked_of_chains {p q : Option α} {l : List α} (h : Chain next p l)
    (h' : Chain prev q l.reverse) : Linked next prev none l none := by
  refine linked_of_neighbours ?_
  intro xs a ys heq
  subst heq
  have hback : Chain prev q (ys.reverse ++ a :: xs.reverse) := by simpa using h'
  rw [Option.or_none, Option.or_none, hback.next_eq, h.next_eq, List.head?_reverse]
  exact ⟨rfl, rfl⟩

/-- The chain of `next` pointers spells the list. -/
theorem Linked.forward {before : Option α} {l : List α} (h : Linked next prev before l none) :
    Chain next l.head? l := by
  induction l generalizing before with
  | nil => exact .nil
  | cons a l ih =>
      obtain ⟨-, hnext, hl⟩ := h
      rw [Option.or_none] at hnext
      refine .cons ?_
      rw [hnext]
      exact ih hl

/-- The chain of `prev` pointers spells the list backwards. -/
theorem Linked.backward {after : Option α} {l : List α} (h : Linked next prev none l after) :
    Chain prev l.getLast? l.reverse := by
  induction l using List.reverseRecOn generalizing after with
  | nil => exact .nil
  | append_singleton l a ih =>
      rw [linked_append] at h
      obtain ⟨hl, hprev, -, -⟩ := h
      rw [Option.or_none] at hprev
      rw [List.getLast?_append, List.getLast?_singleton, List.reverse_append,
        List.reverse_singleton]
      refine .cons ?_
      rw [hprev]
      exact ih hl

/-- The first pointer back is set, and all others between the nodes are kept. -/
theorem Linked.reheaded {before before' after : Option α} {ys : List α}
    (h : Linked next prev before ys after) (hnext : ∀ b ∈ ys, next' b = next b)
    (hprev : ∀ b ∈ ys.tail, prev' b = prev b) (hhead : ∀ y ∈ ys.head?, prev' y = before') :
    Linked next' prev' before' ys after := by
  cases ys with
  | nil => trivial
  | cons y ys =>
      obtain ⟨-, hnext_y, hrest⟩ := h
      refine ⟨hhead y rfl, ?_, ?_⟩
      · rw [hnext y List.mem_cons_self, hnext_y]
      · refine Linked.congr hrest ?_
        intro b hb
        exact ⟨hnext b (List.mem_cons_of_mem _ hb), hprev b hb⟩

/--
A node is put in behind `a`: `a` points to it, it points to what `a` pointed to, and
the pointers back are set accordingly.
-/
theorem Linked.insert {before after : Option α} {xs ys : List α} {a n : α}
    (h : Linked next prev before (xs ++ a :: ys) after)
    (hnext : ∀ b ∈ xs ++ ys, next' b = next b) (hnext_a : next' a = some n)
    (hnext_n : next' n = ys.head?.or after)
    (hprev : ∀ b ∈ xs ++ a :: ys.tail, prev' b = prev b) (hprev_n : prev' n = some a)
    (hprev_y : ∀ y ∈ ys.head?, prev' y = some n) :
    Linked next' prev' before (xs ++ a :: n :: ys) after := by
  rw [linked_append] at h ⊢
  obtain ⟨hxs, hprev_a, -, hys⟩ := h
  refine ⟨?_, ?_, ?_, hprev_n, hnext_n, ?_⟩
  · refine Linked.congr hxs ?_
    intro b hb
    exact ⟨hnext b (by simp [hb]), hprev b (by simp [hb])⟩
  · rw [hprev a (by simp), hprev_a]
  · exact hnext_a
  · refine hys.reheaded ?_ ?_ hprev_y
    · intro b hb
      exact hnext b (List.mem_append_right _ hb)
    · intro b hb
      exact hprev b (by simp [hb])

/--
A node is taken out: the one before it points to the one behind it, and back.
-/
theorem Linked.remove {before after : Option α} {xs ys : List α} {a : α}
    (h : Linked next prev before (xs ++ a :: ys) after)
    (hnext : ∀ b ∈ xs.dropLast ++ ys, next' b = next b)
    (hnext_x : ∀ x ∈ xs.getLast?, next' x = ys.head?.or after)
    (hprev : ∀ b ∈ xs ++ ys.tail, prev' b = prev b)
    (hprev_y : ∀ y ∈ ys.head?, prev' y = xs.getLast?.or before) :
    Linked next' prev' before (xs ++ ys) after := by
  rw [linked_append] at h ⊢
  obtain ⟨hxs, -, -, hys⟩ := h
  refine ⟨?_, ?_⟩
  · rcases List.eq_nil_or_concat xs with rfl | ⟨zs, x, hconcat⟩
    · trivial
    · rw [List.concat_eq_append] at hconcat
      subst hconcat
      rw [linked_append] at hxs ⊢
      obtain ⟨hzs, hprev_x, -, -⟩ := hxs
      refine ⟨Linked.congr hzs ?_, ?_, hnext_x x (by simp), trivial⟩
      · intro b hb
        exact ⟨hnext b (by simp [hb]), hprev b (by simp [hb])⟩
      · rw [hprev x (by simp), hprev_x]
  · refine hys.reheaded ?_ ?_ hprev_y
    · intro b hb
      exact hnext b (List.mem_append_right _ hb)
    · intro b hb
      exact hprev b (List.mem_append_right _ hb)

end Technopark
