/-
A ledger of things that are opened and closed.

Descriptor numbers and heap addresses are handed out, given back and handed out again,
so "closed exactly once" is not a count over a whole run: it is that every closing finds
its number open, and that nothing is open in the end.  `live` is what is open after the
entries of a ledger.  A ledger is `Proper` if every entry made sense when it was made:
only numbers that were not open were opened, and only open ones closed.

In a proper ledger nothing is open twice, and every number was closed as often as it was
opened, less one if it is open still.
-/
import Mathlib.Data.List.Basic
import Mathlib.Data.List.Induction
import Mathlib.Data.List.Nodup

namespace Technopark

/-- Every element of the list fits the elements before it. -/
def Stepwise {α : Type} (fits : List α → α → Prop) (l : List α) : Prop :=
  ∀ before a after, l = before ++ a :: after → fits before a

theorem Stepwise.nil {α : Type} {fits : List α → α → Prop} : Stepwise fits [] := by
  intro before a after h
  simp at h

/-- A list grows at its end by one element that fits. -/
theorem stepwise_concat {α : Type} {fits : List α → α → Prop} {l : List α} {a : α} :
    Stepwise fits (l ++ [a]) ↔ Stepwise fits l ∧ fits l a := by
  constructor
  · intro h
    refine ⟨?_, h l a [] rfl⟩
    intro before b after heq
    exact h before b (after ++ [a]) (by rw [heq, List.append_assoc, List.cons_append])
  · intro h before b after heq
    rcases List.eq_nil_or_concat after with hafter | ⟨rest, last, hafter⟩
    · subst hafter
      obtain ⟨hbefore, hlast⟩ := List.append_inj' heq rfl
      subst hbefore
      injection hlast with hlast _
      subst hlast
      exact h.2
    · rw [hafter, List.concat_eq_append, ← List.cons_append, ← List.append_assoc] at heq
      exact h.1 before b rest (List.append_inj' heq rfl).1

/-- A list grows by elements that fit anywhere. -/
theorem Stepwise.append {α : Type} {fits : List α → α → Prop} {l more : List α}
    (h : Stepwise fits l) (hmore : ∀ a ∈ more, ∀ before, fits before a) :
    Stepwise fits (l ++ more) := by
  induction more using List.reverseRecOn with
  | nil => rwa [List.append_nil]
  | append_singleton more a ih =>
      rw [← List.append_assoc]
      refine stepwise_concat.mpr ⟨ih fun b hb => hmore b (List.mem_append_left _ hb), ?_⟩
      exact hmore a (List.mem_append_right _ List.mem_cons_self) _

namespace Ledger

/-- Something happens to a number. -/
inductive Entry (α : Type)
  | opened (n : α)
  | closed (n : α)
  deriving Repr, DecidableEq

variable {α : Type} [DecidableEq α]

/-- What is open after one more entry. -/
def enter (held : List α) : Entry α → List α
  | .opened n => held ++ [n]
  | .closed n => held.erase n

/-- What is open after the entries, oldest first. -/
def live (ledger : List (Entry α)) : List α := ledger.foldl enter []

/-- The entry makes sense where these numbers are open. -/
def Fits (held : List α) : Entry α → Prop
  | .opened n => n ∉ held
  | .closed n => n ∈ held

instance (held : List α) : (entry : Entry α) → Decidable (Fits held entry)
  | .opened n => inferInstanceAs (Decidable (n ∉ held))
  | .closed n => inferInstanceAs (Decidable (n ∈ held))

/-- Every entry made sense when it was made. -/
def Proper (ledger : List (Entry α)) : Prop := Stepwise (fun before => Fits (live before)) ledger

theorem live_append (ledger more : List (Entry α)) :
    live (ledger ++ more) = more.foldl enter (live ledger) := by
  rw [live, List.foldl_append]
  rfl

@[simp] theorem live_opened (ledger : List (Entry α)) (n : α) :
    live (ledger ++ [.opened n]) = live ledger ++ [n] := by
  rw [live_append]
  rfl

@[simp] theorem live_closed (ledger : List (Entry α)) (n : α) :
    live (ledger ++ [.closed n]) = (live ledger).erase n := by
  rw [live_append]
  rfl

theorem Proper.nil : Proper ([] : List (Entry α)) := Stepwise.nil

theorem Proper.concat {ledger : List (Entry α)} (h : Proper ledger) {entry : Entry α}
    (hfits : Fits (live ledger) entry) : Proper (ledger ++ [entry]) :=
  stepwise_concat.mpr ⟨h, hfits⟩

/-- **Nothing is open twice.** -/
theorem Proper.live_nodup {ledger : List (Entry α)} (h : Proper ledger) : (live ledger).Nodup := by
  induction ledger using List.reverseRecOn with
  | nil => exact List.nodup_nil
  | append_singleton ledger entry ih =>
      obtain ⟨hproper, hfits⟩ := stepwise_concat.mp h
      have hbefore := ih hproper
      cases entry with
      | opened n =>
          rw [live_opened]
          exact List.nodup_append.mpr ⟨hbefore, List.nodup_singleton n, fun a ha b hb heq =>
            hfits (by rw [← List.mem_singleton.mp hb, ← heq]; exact ha)⟩
      | closed n =>
          rw [live_closed]
          exact hbefore.erase n

/-- **Every number was closed as often as it was opened, less one if it is open still.** -/
theorem Proper.count_closed {ledger : List (Entry α)} (h : Proper ledger) (n : α) :
    ledger.count (.closed n) + (live ledger).count n = ledger.count (.opened n) := by
  induction ledger using List.reverseRecOn with
  | nil => rfl
  | append_singleton ledger entry ih =>
      obtain ⟨hproper, hfits⟩ := stepwise_concat.mp h
      have hbefore := ih hproper
      cases entry with
      | opened m =>
          rw [live_opened, List.count_append, List.count_append, List.count_append]
          by_cases hm : m = n
          · subst hm
            simp only [List.count_singleton_self, List.count_singleton]
            simp
            omega
          · simpa [List.count_singleton, hm] using hbefore
      | closed m =>
          have hmem : m ∈ live ledger := hfits
          rw [live_closed, List.count_append, List.count_append]
          by_cases hm : m = n
          · subst hm
            have hpos : 0 < (live ledger).count m := List.count_pos_iff.mpr hmem
            rw [List.count_erase_self, List.count_singleton_self]
            simp
            omega
          · have hne : n ≠ m := fun heq => hm heq.symm
            simpa [List.count_singleton, List.count_erase_of_ne hne, hm] using hbefore

end Ledger

/-! ### Tables with keys -/

/-- Changing a row but not its key. -/
theorem map_set_key {α β : Type} (key : α → β) {rows : List α} {i : Nat} {old new : α}
    (hget : rows[i]? = some old) (hnew : key new = key old) :
    (rows.set i new).map key = rows.map key := by
  have hold : (rows.map key)[i]? = some (key old) := by rw [List.getElem?_map, hget]; rfl
  obtain ⟨hi, hval⟩ := List.getElem?_eq_some_iff.mp hold
  rw [List.map_set, hnew, ← hval, List.set_getElem_self]

/-- Changing a row in place, but not its key. -/
theorem map_modify_key {α β : Type} (key : α → β) {f : α → α} (hf : ∀ a, key (f a) = key a)
    (rows : List α) (i : Nat) : (rows.modify i f).map key = rows.map key := by
  refine List.ext_getElem? ?_
  intro j
  rw [List.getElem?_map, List.getElem?_map, List.getElem?_modify]
  cases rows[j]? with
  | none => rfl
  | some a =>
      by_cases hj : i = j
      · simp [hj, hf]
      · simp [hj]

/-- The keys of a table after the first row with a key is removed. -/
theorem map_eraseP_key {α β : Type} [DecidableEq β] (key : α → β) (rows : List α) (k : β) :
    (rows.eraseP fun row => key row = k).map key = (rows.map key).erase k := by
  have hsame : (fun row => decide (key row = k)) = (k == ·) ∘ key := by
    funext row
    rw [Bool.eq_iff_iff, decide_eq_true_iff, Function.comp_apply, beq_iff_eq]
    exact eq_comm
  rw [List.erase_eq_eraseP, List.eraseP_map, hsame]

end Technopark
