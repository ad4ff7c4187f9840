/-
Objects on a heap and an index that points back at them.

Every object has a key, and the index has an entry under that key which leads back to the
object and agrees with it.  The other way round, every entry under a key the index keeps for
objects leads to an object with that key; `own` says which keys these are.  So objects and
entries correspond one to one.

The lemmas are what can be done to such a pair: an object is added with its entry, an object
and its entry change together, and both are deleted.  Each of them touches one address and
one key, and the others stay as they are because no two objects share a key.
-/
import Mathlib.Logic.Function.Basic

namespace Technopark

variable {α β κ γ : Type} [DecidableEq α] [DecidableEq κ]

/-- Objects and entries point at each other, and agree. -/
structure Paired (own : κ → Prop) (key : β → κ) (back : γ → α) (agree : β → γ → Prop)
    (heap : α → Option β) (index : κ → Option γ) : Prop where
  indexed : ∀ a b, heap a = some b →
    own (key b) ∧ ∃ c, index (key b) = some c ∧ back c = a ∧ agree b c
  stored : ∀ k c, own k → index k = some c → ∃ b, heap (back c) = some b ∧ key b = k

namespace Paired

variable {own : κ → Prop} {key : β → κ} {back : γ → α} {agree : β → γ → Prop}
  {heap : α → Option β} {index : κ → Option γ}

omit [DecidableEq α] [DecidableEq κ] in
/-- No two objects share a key. -/
theorem key_inj (h : Paired own key back agree heap index) {a a' : α} {b b' : β}
    (hb : heap a = some b) (hb' : heap a' = some b') (hkey : key b = key b') : a = a' := by
  obtain ⟨-, c, hc, hback, -⟩ := h.indexed a b hb
  obtain ⟨-, c', hc', hback', -⟩ := h.indexed a' b' hb'
  rw [hkey, hc'] at hc
  rw [← hback, ← hback', Option.some.inj hc]

/-- An object moves into an address with its entry, where there was none or one of its key. -/
theorem put (h : Paired own key back agree heap index) {a : α} {b : β} {c : γ}
    (hown : own (key b)) (hback : back c = a) (hagree : agree b c)
    (haddress : ∀ old, heap a = some old → key old = key b)
    (hentry : ∀ old, index (key b) = some old → back old = a) :
    Paired own key back agree (Function.update heap a (some b))
      (Function.update index (key b) (some c)) := by
  refine ⟨?_, ?_⟩
  · intro a' b' hb'
    by_cases ha : a' = a
    · subst ha
      rw [Function.update_self] at hb'
      obtain rfl := Option.some.inj hb'
      exact ⟨hown, c, Function.update_self .., hback, hagree⟩
    · rw [Function.update_of_ne ha] at hb'
      obtain ⟨hown', c', hc', hback', hagree'⟩ := h.indexed a' b' hb'
      have hkey : key b' ≠ key b := by
        intro heq
        rw [heq] at hc'
        exact ha (hback'.symm.trans (hentry c' hc'))
      exact ⟨hown', c', by rw [Function.update_of_ne hkey, hc'], hback', hagree'⟩
  · intro k c' hk hc'
    by_cases hkey : k = key b
    · subst hkey
      rw [Function.update_self] at hc'
      obtain rfl := Option.some.inj hc'
      exact ⟨b, by rw [hback, Function.update_self], rfl⟩
    · rw [Function.update_of_ne hkey] at hc'
      obtain ⟨b', hb', hkey'⟩ := h.stored k c' hk hc'
      have ha : back c' ≠ a := by
        intro heq
        rw [heq] at hb'
        exact hkey (hkey'.symm.trans (haddress b' hb'))
      exact ⟨b', by rw [Function.update_of_ne ha, hb'], hkey'⟩

/-- A new object at a free address, under a free key. -/
theorem insert (h : Paired own key back agree heap index) {a : α} {b : β} {c : γ}
    (hown : own (key b)) (hback : back c = a) (hagree : agree b c) (haddress : heap a = none)
    (hentry : index (key b) = none) :
    Paired own key back agree (Function.update heap a (some b))
      (Function.update index (key b) (some c)) :=
  h.put hown hback hagree (fun old hold => absurd (haddress.symm.trans hold) (by simp))
    (fun old hold => absurd (hentry.symm.trans hold) (by simp))

/-- An object changes, but for its key, and its entry with it. -/
theorem replace (h : Paired own key back agree heap index) {a : α} {old b : β} {c : γ}
    (hold : heap a = some old) (hkey : key b = key old) (hback : back c = a) (hagree : agree b c) :
    Paired own key back agree (Function.update heap a (some b))
      (Function.update index (key b) (some c)) := by
  obtain ⟨hown, c', hc', hback', -⟩ := h.indexed a old hold
  refine h.put (hkey ▸ hown) hback hagree ?_ ?_
  · intro old' hold'
    rw [hkey, Option.some.inj (hold.symm.trans hold')]
  · intro entry hentry
    rw [hkey, hc'] at hentry
    rw [← Option.some.inj hentry, hback']

/-- An object is deleted with its entry. -/
theorem delete (h : Paired own key back agree heap index) {a : α} {b : β} (hb : heap a = some b) :
    Paired own key back agree (Function.update heap a none)
      (Function.update index (key b) none) := by
  refine ⟨?_, ?_⟩
  · intro a' b' hb'
    by_cases ha : a' = a
    · subst ha
      rw [Function.update_self] at hb'
      exact absurd hb' (by simp)
    · rw [Function.update_of_ne ha] at hb'
      obtain ⟨hown, c, hc, hback, hagree⟩ := h.indexed a' b' hb'
      have hkey : key b' ≠ key b := fun heq => ha (h.key_inj hb' hb heq)
      exact ⟨hown, c, by rw [Function.update_of_ne hkey, hc], hback, hagree⟩
  · intro k c hk hc
    by_cases hkey : k = key b
    · subst hkey
      rw [Function.update_self] at hc
      exact absurd hc (by simp)
    · rw [Function.update_of_ne hkey] at hc
      obtain ⟨b', hb', hkey'⟩ := h.stored k c hk hc
      have ha : back c ≠ a := by
        intro heq
        rw [heq, hb] at hb'
        exact hkey (by rw [← hkey', Option.some.inj hb'])
      exact ⟨b', by rw [Function.update_of_ne ha, hb'], hkey'⟩

end Paired

end Technopark
