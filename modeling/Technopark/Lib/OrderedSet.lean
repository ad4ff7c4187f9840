/-
An ordered set and the iterators into it.

The elements are kept in a list that increases, as a `std::set` is walked.  An iterator is
the element it designates, or `none` at the end.  It stays valid while other elements come
and go, and is worth nothing once its own element is erased: to advance it then is
undefined, and so is to advance the end.
-/
import Technopark.Lib.Call
import Mathlib.Data.List.Sort
import Mathlib.Order.Defs.LinearOrder

namespace Technopark

/-- A set, in the order it is walked in. -/
structure OrderedSet (α : Type) [LT α] where
  elems : List α
  sorted : elems.Pairwise (· < ·)

/-- An iterator into an ordered set. -/
abbrev SetIterator (α : Type) := Option α

namespace OrderedSet

variable {α : Type} [LT α] {s : OrderedSet α} {x : α} {before after : List α}

instance : Membership α (OrderedSet α) where
  mem s x := x ∈ s.elems

theorem mem_def : x ∈ s ↔ x ∈ s.elems := Iff.rfl

/-- `empty()`. -/
def isEmpty (s : OrderedSet α) : Bool := s.elems.isEmpty

/-- `begin()`. -/
def begin (s : OrderedSet α) : SetIterator α := s.elems.head?

section
variable [DecidableEq α]

instance (s : OrderedSet α) (x : α) : Decidable (x ∈ s) :=
  inferInstanceAs (Decidable (x ∈ s.elems))

/-- `*it`. -/
def deref (s : OrderedSet α) (it : SetIterator α) : Except Fault α :=
  match it with
  | none => .error (.undefined .danglingIterator)
  | some x => if x ∈ s then .ok x else .error (.undefined .danglingIterator)

/-- `++it`. -/
def next [DecidableLT α] (s : OrderedSet α) (it : SetIterator α) :
    Except Fault (SetIterator α) := do
  let x ← s.deref it
  return s.elems.find? fun y => x < y

/-- `erase(x)`. -/
def erase (s : OrderedSet α) (x : α) : OrderedSet α where
  elems := s.elems.erase x
  sorted := s.sorted.sublist List.erase_sublist

/-- `*max_element(begin(), end())`. -/
def maxElement [DecidableLT α] (s : OrderedSet α) : Except Fault α :=
  match s.elems with
  | [] => .error (.undefined .danglingIterator)
  | x :: rest => .ok (rest.foldl (fun greatest y => if greatest < y then y else greatest) x)

theorem deref_ok (h : x ∈ s) : s.deref (some x) = .ok x := if_pos h

theorem deref_dangling (h : x ∉ s) : s.deref (some x) = .error (.undefined .danglingIterator) :=
  if_neg h

end

/-! ### Walking -/

section
variable [Std.Asymm (fun a b : α => a < b)]

/-- No element is there twice. -/
theorem nodup (s : OrderedSet α) : s.elems.Nodup := by
  refine s.sorted.imp ?_
  rintro a b hlt rfl
  exact asymm (r := fun a b : α => a < b) hlt hlt

variable [DecidableEq α]

/-- **An iterator advances to the element behind its own.** -/
theorem next_split [DecidableLT α] (h : s.elems = before ++ x :: after) :
    s.next (some x) = .ok after.head? := by
  have hmem : x ∈ s := by
    rw [mem_def, h]
    simp
  have hsorted := s.sorted
  rw [h] at hsorted
  obtain ⟨-, hrest, hbefore⟩ := List.pairwise_append.mp hsorted
  obtain ⟨hafter, -⟩ := List.pairwise_cons.mp hrest
  have hskip : ∀ y ∈ before ++ [x], ¬ x < y := by
    intro y hy
    rcases List.mem_append.mp hy with hy | hy
    · exact asymm (r := fun a b : α => a < b) (hbefore y hy x List.mem_cons_self)
    · rw [List.mem_singleton.mp hy]
      exact fun hlt => asymm (r := fun a b : α => a < b) hlt hlt
  have hfind : s.elems.find? (fun y => x < y) = after.head? := by
    have hnone : (before ++ [x]).find? (fun y => decide (x < y)) = none := by
      rw [List.find?_eq_none]
      intro y hy
      simpa using hskip y hy
    rw [h, List.append_cons, List.find?_append, hnone, Option.none_or]
    cases after with
    | nil => rfl
    | cons y rest => exact List.find?_cons_of_pos (by simpa using hafter y List.mem_cons_self)
  rw [next, deref_ok hmem, ← hfind]
  rfl

/-- An iterator whose element was erased does not advance. -/
theorem next_erased [DecidableLT α] (s : OrderedSet α) (x : α) :
    (s.erase x).next (some x) = .error (.undefined .danglingIterator) := by
  have hgone : x ∉ s.erase x := by
    rw [mem_def]
    exact s.nodup.not_mem_erase
  rw [next, deref_dangling hgone]
  rfl

end

/-! ### Inserting, and the greatest element -/

section
variable {β : Type} [LinearOrder β]

theorem orderedInsert_sorted {x : β} {l : List β} (hx : x ∉ l) (h : l.Pairwise (· < ·)) :
    (l.orderedInsert (· ≤ ·) x).Pairwise (· < ·) := by
  have hle : (l.orderedInsert (· ≤ ·) x).Pairwise (· ≤ ·) :=
    List.Pairwise.orderedInsert x l (h.imp le_of_lt)
  have hnodup : (l.orderedInsert (· ≤ ·) x).Nodup :=
    (List.perm_orderedInsert _ x l).nodup_iff.mpr (List.nodup_cons.mpr ⟨hx, h.imp ne_of_lt⟩)
  exact (hle.and hnodup).imp fun h => lt_of_le_of_ne h.1 h.2

/-- `insert(x)`. -/
def insert (s : OrderedSet β) (x : β) : OrderedSet β :=
  if hx : x ∈ s.elems then s
  else ⟨s.elems.orderedInsert (· ≤ ·) x, orderedInsert_sorted hx s.sorted⟩

theorem mem_insert {s : OrderedSet β} {x y : β} : y ∈ s.insert x ↔ y = x ∨ y ∈ s := by
  rw [insert]
  split
  · next hx =>
      refine (or_iff_right_of_imp ?_).symm
      rintro rfl
      exact hx
  · exact List.mem_orderedInsert _

/-- The greatest of some elements, looked for from the first to the last. -/
theorem foldl_greatest (l : List β) (x : β) :
    let m := l.foldl (fun greatest y => if greatest < y then y else greatest) x
    m ∈ x :: l ∧ ∀ y ∈ x :: l, y ≤ m := by
  induction l generalizing x with
  | nil => simp
  | cons z l ih =>
      obtain ⟨hmem, hle⟩ := ih (if x < z then z else x)
      obtain ⟨hfirst, hrest⟩ := List.forall_mem_cons.mp hle
      have hx : x ≤ if x < z then z else x := by
        split
        · next h => exact le_of_lt h
        · exact le_refl x
      have hz : z ≤ if x < z then z else x := by
        split
        · exact le_refl z
        · next h => exact not_lt.mp h
      refine ⟨?_, ?_⟩
      · rcases List.mem_cons.mp hmem with heq | hmem
        · rw [List.foldl_cons, heq]
          split
          · exact List.mem_cons_of_mem _ List.mem_cons_self
          · exact List.mem_cons_self
        · exact List.mem_cons_of_mem _ (List.mem_cons_of_mem _ hmem)
      · exact List.forall_mem_cons.mpr ⟨hx.trans hfirst,
          List.forall_mem_cons.mpr ⟨hz.trans hfirst, hrest⟩⟩

/-- **`max_element` is the greatest of the elements.** -/
theorem maxElement_greatest {s : OrderedSet β} {x : β} (h : s.maxElement = .ok x) :
    x ∈ s ∧ ∀ y ∈ s, y ≤ x := by
  rw [maxElement] at h
  simp only [mem_def]
  split at h
  · injection h
  · next y rest hsplit =>
      injection h with h
      rw [hsplit, ← h]
      exact foldl_greatest rest y

theorem maxElement_ok {s : OrderedSet β} (h : s.elems ≠ []) : ∃ x, s.maxElement = .ok x := by
  obtain ⟨x, rest, hsplit⟩ := List.exists_cons_of_ne_nil h
  exact ⟨_, by rw [maxElement, hsplit]⟩

end

end OrderedSet

end Technopark
