/-
What a step takes out of a bag and what it puts in.

The activities of a concurrent program are kept in several tables, but a step only ever ends
a few of them and begins a few others.  `Traded old new before after` says just that, of
the elements and not of where they are: both bags are the same apart from `old` and `new`.

Whatever is read off the elements one by one changes with them (`Traded.filterMap`,
`Traded.countP`), so an invariant about all the activities needs a look at no others than
those which a step begins and ends.
-/
import Mathlib.Algebra.Order.Group.Multiset
import Mathlib.Data.List.Perm.Basic

namespace Technopark

/-- `old` was taken out and `new` was put in. -/
def Traded {α : Type} (old new before after : List α) : Prop :=
  ∃ rest, before.Perm (old ++ rest) ∧ after.Perm (new ++ rest)

namespace Traded

variable {α β : Type} {old new before after : List α}

theorem refl (l : List α) : Traded [] [] l l := ⟨l, .refl l, .refl l⟩

/-- Two exchanges in two parts of the bag. -/
theorem append {old' new' before' after' : List α} (h : Traded old new before after)
    (h' : Traded old' new' before' after') :
    Traded (old ++ old') (new ++ new') (before ++ before') (after ++ after') := by
  obtain ⟨rest, hold, hnew⟩ := h
  obtain ⟨rest', hold', hnew'⟩ := h'
  have hswap (l l' : List α) :
      ((l ++ rest) ++ (l' ++ rest')).Perm ((l ++ l') ++ (rest ++ rest')) := by
    simp only [← Multiset.coe_eq_coe, ← Multiset.coe_add]
    exact add_add_add_comm ..
  exact ⟨rest ++ rest', (hold.append hold').trans (hswap _ _),
    (hnew.append hnew').trans (hswap _ _)⟩

/-- Something is added at the end. -/
theorem concat (l : List α) (a : α) : Traded [] [a] l (l ++ [a]) :=
  ⟨l, .refl l, List.perm_append_comm⟩

/-- A row of a table is removed. -/
theorem of_eraseIdx {l : List α} {i : Nat} {a : α} (h : l[i]? = some a) :
    Traded [a] [] l (l.eraseIdx i) := by
  obtain ⟨hi, rfl⟩ := List.getElem?_eq_some_iff.mp h
  exact ⟨l.eraseIdx i, (List.getElem_cons_eraseIdx_perm hi).symm, .refl _⟩

/-- A row of a table is written. -/
theorem of_set {l : List α} {i : Nat} {a : α} (h : l[i]? = some a) (b : α) :
    Traded [a] [b] l (l.set i b) := by
  obtain ⟨hi, rfl⟩ := List.getElem?_eq_some_iff.mp h
  exact ⟨l.eraseIdx i, (List.getElem_cons_eraseIdx_perm hi).symm,
    List.set_perm_cons_eraseIdx hi b⟩

/-- The first row there is of a kind is removed. -/
theorem of_eraseP {l : List α} {p : α → Bool} {a : α} (h : l.find? p = some a) :
    Traded [a] [] l (l.eraseP p) := by
  obtain ⟨hp, before, after, rfl, hbefore⟩ := List.find?_eq_some_iff_append.mp h
  refine ⟨before ++ after, List.perm_middle, ?_⟩
  rw [List.eraseP_append_right _ (by simpa using hbefore), List.eraseP_cons_of_pos hp]
  exact .refl _

/-- The head of a queue is taken. -/
theorem of_cons (a : α) (l : List α) : Traded [a] [] (a :: l) l := ⟨l, .refl _, .refl _⟩

theorem map (f : α → β) (h : Traded old new before after) :
    Traded (old.map f) (new.map f) (before.map f) (after.map f) := by
  obtain ⟨rest, hold, hnew⟩ := h
  refine ⟨rest.map f, ?_, ?_⟩
  · rw [← List.map_append]
    exact hold.map f
  · rw [← List.map_append]
    exact hnew.map f

theorem filterMap (f : α → Option β) (h : Traded old new before after) :
    Traded (old.filterMap f) (new.filterMap f) (before.filterMap f) (after.filterMap f) := by
  obtain ⟨rest, hold, hnew⟩ := h
  refine ⟨rest.filterMap f, ?_, ?_⟩
  · rw [← List.filterMap_append]
    exact hold.filterMap f
  · rw [← List.filterMap_append]
    exact hnew.filterMap f

theorem countP (p : α → Bool) (h : Traded old new before after) :
    after.countP p + old.countP p = before.countP p + new.countP p := by
  obtain ⟨rest, hold, hnew⟩ := h
  rw [hold.countP_eq, hnew.countP_eq, List.countP_append, List.countP_append]
  omega

theorem countP_eq {p : α → Bool} (h : Traded old new before after)
    (hsame : old.countP p = new.countP p) : after.countP p = before.countP p := by
  have hcount := h.countP p
  omega

/-- What is in the bag afterwards was put in or was there. -/
theorem mem_after (h : Traded old new before after) {a : α} (ha : a ∈ after) :
    a ∈ new ∨ a ∈ before := by
  obtain ⟨rest, hold, hnew⟩ := h
  refine (List.mem_append.mp (hnew.mem_iff.mp ha)).imp_right ?_
  intro hrest
  exact hold.mem_iff.mpr (List.mem_append_right _ hrest)

/-- What was in the bag was taken out or is still there. -/
theorem mem_before (h : Traded old new before after) {a : α} (ha : a ∈ before) :
    a ∈ old ∨ a ∈ after := by
  obtain ⟨rest, hold, hnew⟩ := h
  refine (List.mem_append.mp (hold.mem_iff.mp ha)).imp_right ?_
  intro hrest
  exact hnew.mem_iff.mpr (List.mem_append_right _ hrest)

theorem mem_new (h : Traded old new before after) {a : α} (ha : a ∈ new) : a ∈ after := by
  obtain ⟨rest, -, hnew⟩ := h
  exact hnew.mem_iff.mpr (List.mem_append_left _ ha)

theorem mem_old (h : Traded old new before after) {a : α} (ha : a ∈ old) : a ∈ before := by
  obtain ⟨rest, hold, -⟩ := h
  exact hold.mem_iff.mpr (List.mem_append_left _ ha)

/-- The same is put in that was taken out. -/
theorem perm (h : Traded old old before after) : before.Perm after := by
  obtain ⟨rest, hold, hnew⟩ := h
  exact hold.trans hnew.symm

end Traded

end Technopark
