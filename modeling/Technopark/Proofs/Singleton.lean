/-
One object, whatever the schedule.

The invariant says what each thread may rely on at its place.  A thread in the lock that
has seen null twice knows that nothing was constructed; one that has constructed its
object knows that the pointer is still null; one that is about to return an object knows
that the pointer is that object.  A stale null from before the lock carries no knowledge
at all, which is why there is nothing to say about `locking`.

A step changes what the threads share only while its thread has the lock.  Then every other
thread is outside the lock, and what such a thread relies on is not affected.
-/
import Technopark.Patterns.Singleton

namespace Technopark.Singleton

variable {ι : Type} {s : State ι}

/-- The thread has the lock. -/
def Pc.critical : Pc → Prop
  | .locked | .constructing | .storing _ | .unlocking _ | .unwinding => True
  | .idle | .locking | .returning _ => False

/-- What a thread relies on. -/
def AtPc (instance_ : Option Nat) (constructed : Nat) : Pc → Prop
  | .locked => instance_ = none → constructed = 0
  | .constructing => instance_ = none ∧ constructed = 0
  | .storing p => p = 0 ∧ instance_ = none ∧ constructed = 1
  | .unlocking p => instance_ = some p
  | .returning p => instance_ = some p
  | .idle | .locking | .unwinding => True

/-- The invariant of the threads. -/
structure Inv (s : State ι) : Prop where
  exclusive : ∀ t, (s.pc t).critical → s.owner = some t
  atPc : ∀ t, AtPc s.atomicInstance s.constructed (s.pc t)
  /-- An object that is not published is in the hands of the thread that made it. -/
  pending : s.atomicInstance = none →
    s.constructed = 0 ∨ s.constructed = 1 ∧ ∃ t, s.pc t = .storing 0
  published : ∀ p, s.atomicInstance = some p → p = 0 ∧ s.constructed = 1
  stores : s.stores = (s.atomicInstance.map fun p => (none, p)).toList
  returned : ∀ r ∈ s.returned, s.atomicInstance = some r.2

/-- A thread outside the lock relies on nothing a thread in the lock changes. -/
theorem AtPc.of_outside {instance_ instance' : Option Nat} {constructed constructed' : Nat}
    {pc : Pc} (h : AtPc instance_ constructed pc) (hpc : ¬ pc.critical)
    (hinstance : ∀ p, instance_ = some p → instance' = some p) :
    AtPc instance' constructed' pc := by
  cases pc with
  | returning p => exact hinstance p h
  | idle | locking => trivial
  | locked | constructing | storing _ | unlocking _ | unwinding => exact absurd trivial hpc

/-- While a thread is in the lock the others are outside. -/
theorem Inv.outside (h : Inv s) {t u : ι} (ht : (s.pc t).critical) (hu : u ≠ t) :
    ¬ (s.pc u).critical := by
  intro hcritical
  have howner := h.exclusive u hcritical
  rw [h.exclusive t ht] at howner
  exact hu (Option.some.inj howner).symm

theorem start_inv : Inv (start : State ι) :=
  ⟨fun _ ht => ht.elim, fun _ => trivial, fun _ => .inl rfl, by simp [start], rfl, by simp [start]⟩

variable [DecidableEq ι]

theorem goto_pc_self (s : State ι) (t : ι) (pc : Pc) : (s.goto t pc).pc t = pc :=
  Function.update_self ..

theorem goto_pc_of_ne (s : State ι) {t u : ι} (h : u ≠ t) (pc : Pc) :
    (s.goto t pc).pc u = s.pc u := Function.update_of_ne h ..

/-- A step that only moves its thread. -/
theorem goto_inv (h : Inv s) {t : ι} {pc : Pc} (hcritical : pc.critical → s.owner = some t)
    (hat : AtPc s.atomicInstance s.constructed pc) (hkeep : s.pc t ≠ .storing 0) :
    Inv (s.goto t pc) := by
  refine ⟨?_, ?_, ?_, h.published, h.stores, h.returned⟩
  · intro u hu
    by_cases hut : u = t
    · subst hut
      rw [goto_pc_self] at hu
      exact hcritical hu
    · rw [goto_pc_of_ne _ hut] at hu
      exact h.exclusive u hu
  · intro u
    by_cases hut : u = t
    · subst hut
      rw [goto_pc_self]
      exact hat
    · rw [goto_pc_of_ne _ hut]
      exact h.atPc u
  · intro hnone
    rcases h.pending hnone with hzero | ⟨hone, u, hu⟩
    · exact .inl hzero
    · have hut : u ≠ t := by
        intro heq
        rw [heq] at hu
        exact hkeep hu
      exact .inr ⟨hone, u, by rw [goto_pc_of_ne _ hut, hu]⟩

/-- A free lock is taken. -/
theorem lock_inv (h : Inv s) {t : ι} (howner : s.owner = none) (hpc : s.pc t = .locking) :
    Inv ({ s with owner := some t }.goto t .locked) := by
  have hfree : ∀ u, ¬ (s.pc u).critical := by
    intro u hu
    have hsome := h.exclusive u hu
    rw [howner] at hsome
    cases hsome
  have howned : Inv { s with owner := some t } :=
    ⟨fun u hu => absurd hu (hfree u), h.atPc, h.pending, h.published, h.stores, h.returned⟩
  refine goto_inv howned (fun _ => rfl) ?_ ?_
  · -- nobody is in the lock, so nobody has an object that is not published
    intro hnone
    rcases h.pending hnone with hzero | ⟨-, u, hu⟩
    · exact hzero
    · exact absurd (by rw [hu]; trivial) (hfree u)
  · simp [hpc]

/-- The lock is given back. -/
theorem unlock_inv (h : Inv s) {t : ι} (ht : (s.pc t).critical) (hkeep : s.pc t ≠ .storing 0)
    {pc : Pc} (hcritical : ¬ pc.critical) (hat : AtPc s.atomicInstance s.constructed pc) :
    Inv ({ s with owner := none }.goto t pc) := by
  have hmoved := goto_inv h (fun hc => absurd hc hcritical) hat hkeep
  refine ⟨?_, hmoved.atPc, hmoved.pending, h.published, h.stores, h.returned⟩
  intro u hu
  by_cases hut : u = t
  · subst hut
    rw [goto_pc_self] at hu
    exact absurd hu hcritical
  · rw [goto_pc_of_ne _ hut] at hu
    exact absurd hu (h.outside ht hut)

/-- A thread in the lock that goes on leaves the others outside. -/
theorem goto_exclusive (h : Inv s) {t : ι} (ht : (s.pc t).critical) (pc : Pc) :
    ∀ u, ((s.goto t pc).pc u).critical → s.owner = some u := by
  intro u hu
  by_cases hut : u = t
  · rw [hut]
    exact h.exclusive t ht
  · rw [goto_pc_of_ne _ hut] at hu
    exact absurd hu (h.outside ht hut)

/-- The object is constructed. -/
theorem construct_inv (h : Inv s) {t : ι} (hpc : s.pc t = .constructing) :
    Inv ({ s with constructed := s.constructed + 1 }.goto t (.storing s.constructed)) := by
  have ht : (s.pc t).critical := by rw [hpc]; trivial
  have hat := h.atPc t
  rw [hpc] at hat
  obtain ⟨hnone, hzero⟩ := hat
  have hone : s.constructed + 1 = 1 := by rw [hzero]
  refine ⟨goto_exclusive h ht _, ?_, ?_, ?_, h.stores, h.returned⟩
  · intro u
    by_cases hut : u = t
    · subst hut
      rw [goto_pc_self]
      exact ⟨hzero, hnone, hone⟩
    · rw [goto_pc_of_ne _ hut]
      exact (h.atPc u).of_outside (h.outside ht hut) (fun _ hp => hp)
  · intro _
    exact .inr ⟨hone, t, by rw [goto_pc_self, hzero]⟩
  · intro p hp
    rw [hnone] at hp
    cases hp

/-- The object is published. -/
theorem store_inv (h : Inv s) {t : ι} {p : Nat} (hpc : s.pc t = .storing p) :
    Inv ({ s with atomicInstance := some p, stores := s.stores ++ [(s.atomicInstance, p)] }.goto t
      (.unlocking p)) := by
  have ht : (s.pc t).critical := by rw [hpc]; trivial
  have hat := h.atPc t
  rw [hpc] at hat
  obtain ⟨rfl, hnone, hone⟩ := hat
  refine ⟨goto_exclusive h ht _, ?_, ?_, ?_, ?_, ?_⟩
  · intro u
    by_cases hut : u = t
    · subst hut
      rw [goto_pc_self]
      rfl
    · rw [goto_pc_of_ne _ hut]
      refine (h.atPc u).of_outside (h.outside ht hut) ?_
      intro q hq
      rw [hnone] at hq
      cases hq
  · intro hnull
    cases hnull
  · intro q hq
    exact ⟨(Option.some.inj hq).symm, hone⟩
  · rw [State.goto, h.stores, hnone]
    rfl
  · intro r hr
    have hsome := h.returned r hr
    rw [hnone] at hsome
    cases hsome

/-- Every step keeps the invariant. -/
theorem step_inv (h : Inv s) (turn : Turn ι) : Inv (step turn s) := by
  have hat := h.atPc turn.thread
  have hexclusive := h.exclusive turn.thread
  cases hpc : s.pc turn.thread with
  | idle =>
      cases hload : s.atomicInstance with
      | none =>
          have hstep : step turn s = s.goto turn.thread .locking := by simp only [step, hpc, hload]
          rw [hstep]
          exact goto_inv h (fun hc => hc.elim) trivial (by simp [hpc])
      | some p =>
          have hstep : step turn s = s.goto turn.thread (.returning p) := by
            simp only [step, hpc, hload]
          rw [hstep]
          exact goto_inv h (fun hc => hc.elim) hload (by simp [hpc])
  | locking =>
      by_cases howner : s.owner = none
      · have hstep :
            step turn s = { s with owner := some turn.thread }.goto turn.thread .locked := by
          simp only [step, hpc, howner, if_true]
        rw [hstep]
        exact lock_inv h howner hpc
      · have hstep : step turn s = s := by simp only [step, hpc, howner, if_false]
        rwa [hstep]
  | locked =>
      rw [hpc] at hat hexclusive
      cases hload : s.atomicInstance with
      | none =>
          have hstep : step turn s = s.goto turn.thread .constructing := by
            simp only [step, hpc, hload]
          rw [hstep]
          exact goto_inv h (fun _ => hexclusive trivial) ⟨hload, hat hload⟩ (by simp [hpc])
      | some p =>
          have hstep : step turn s = s.goto turn.thread (.unlocking p) := by
            simp only [step, hpc, hload]
          rw [hstep]
          exact goto_inv h (fun _ => hexclusive trivial) hload (by simp [hpc])
  | constructing =>
      rw [hpc] at hexclusive
      by_cases hthrows : turn.throws = true
      · have hstep : step turn s = s.goto turn.thread .unwinding := by
          simp only [step, hpc, hthrows, if_true]
        rw [hstep]
        exact goto_inv h (fun _ => hexclusive trivial) trivial (by simp [hpc])
      · have hstep : step turn s = { s with constructed := s.constructed + 1 }.goto turn.thread
            (.storing s.constructed) := by
          simp only [step, hpc, hthrows, Bool.false_eq_true, if_false]
        rw [hstep]
        exact construct_inv h hpc
  | storing p =>
      have hstep : step turn s = { s with
          atomicInstance := some p
          stores := s.stores ++ [(s.atomicInstance, p)] }.goto turn.thread (.unlocking p) := by
        simp only [step, hpc]
      rw [hstep]
      exact store_inv h hpc
  | unlocking p =>
      rw [hpc] at hat
      have hstep : step turn s = { s with owner := none }.goto turn.thread (.returning p) := by
        simp only [step, hpc]
      rw [hstep]
      exact unlock_inv h (by rw [hpc]; trivial) (by simp [hpc]) id hat
  | unwinding =>
      have hstep : step turn s = { s with owner := none }.goto turn.thread .idle := by
        simp only [step, hpc]
      rw [hstep]
      exact unlock_inv h (by rw [hpc]; trivial) (by simp [hpc]) id trivial
  | returning p =>
      rw [hpc] at hat
      have hstep : step turn s = { s with
          returned := s.returned ++ [(turn.thread, p)] }.goto turn.thread .idle := by
        simp only [step, hpc]
      have hlogged : Inv { s with returned := s.returned ++ [(turn.thread, p)] } := by
        refine ⟨h.exclusive, h.atPc, h.pending, h.published, h.stores, ?_⟩
        intro r hr
        rcases List.mem_append.mp hr with hr | hr
        · exact h.returned r hr
        · rw [List.mem_singleton.mp hr]
          exact hat
      rw [hstep]
      exact goto_inv hlogged (fun hc => hc.elim) trivial (by simp [hpc])

theorem run_inv (schedule : List (Turn ι)) : Inv (run schedule) :=
  List.foldlRecOn schedule _ start_inv (fun _ h turn _ => step_inv h turn)

/--
**Under every schedule of any threads at most one object is constructed, the pointer is
stored to at most once, from null to that object, and every call that returned has
returned it.**
-/
theorem getInstance_constructs_once (schedule : List (Turn ι)) :
    (run schedule).constructed ≤ 1 ∧ (run schedule).stores.length ≤ 1 ∧
    (∀ old p, (old, p) ∈ (run schedule).stores → old = none ∧ p < (run schedule).constructed ∧
      (run schedule).atomicInstance = some p) ∧
    ∀ t p, (t, p) ∈ (run schedule).returned →
      p < (run schedule).constructed ∧ (run schedule).atomicInstance = some p := by
  have h := run_inv schedule
  have hpublished : ∀ p, (run schedule).atomicInstance = some p →
      p < (run schedule).constructed := by
    intro p hp
    obtain ⟨hzero, hone⟩ := h.published p hp
    omega
  refine ⟨?_, ?_, ?_, ?_⟩
  · cases hcase : (run schedule).atomicInstance with
    | none =>
        rcases h.pending hcase with hzero | ⟨hone, -⟩
        · omega
        · omega
    | some p => exact Nat.le_of_eq (h.published p hcase).2
  · rw [h.stores]
    cases (run schedule).atomicInstance <;> simp
  · intro old p hmem
    rw [h.stores] at hmem
    cases hcase : (run schedule).atomicInstance with
    | none => simp [hcase] at hmem
    | some q =>
        rw [hcase] at hmem
        simp only [Option.map_some, Option.toList_some, List.mem_singleton, Prod.mk.injEq] at hmem
        obtain ⟨rfl, rfl⟩ := hmem
        exact ⟨rfl, hpublished p hcase, rfl⟩
  · intro t p hmem
    have hp := h.returned (t, p) hmem
    exact ⟨hpublished p hp, hp⟩

end Technopark.Singleton
