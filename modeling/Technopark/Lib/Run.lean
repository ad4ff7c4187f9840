/-
Runs of an object, and what it means for one object to refine another.

An object answers operations one after another.  Its reference is a `Spec`: a
relation that says which answers are allowed in which abstract state and where
they lead.  Being a relation, it can leave an answer open, as a priority queue
does when several of its elements are greatest.

`Refines` asks for one step: from related states, every answer the object gives is
one the reference allows, and the states after it are related again.
`Refines.run` is the same of every run, and is the only induction over operation
sequences the containers need.  Answers outside `admissible` end the obligation:
that is how "as long as allocation succeeds" enters.

The last section is the other shape of a run, for the event loops: a machine takes
the actions its environment picks, and a `Guarded` run is one in which every action is
taken in a state that allows it.
-/
import Technopark.Lib.Call
import Mathlib.Data.List.Basic

namespace Technopark

variable {σ τ A Op Out : Type}

/-- What an operation answers, and the state it leaves. -/
abbrev Object (σ Op Out : Type) := Op → σ → Out × σ

/-- The answers allowed in an abstract state, and the abstract states after them. -/
abbrev Spec (A Op Out : Type) := A → Op → Out → A → Prop

/-- The object a family of calls makes: a call that throws leaves it usable. -/
def Call.object {α : Type} (call : Op → Call σ α) : Object σ Op (Except Fault α) :=
  fun op s => ((call op).reply s, (call op).after s)

theorem Call.object_ok {α : Type} {call : Op → Call σ α} {op : Op} {s t : σ} {a : α}
    (h : (call op).run s = .ok a t) : Call.object call op s = (.ok a, t) := by
  rw [Call.object, Call.reply_ok h, Call.after_ok h]

theorem Call.object_error {α : Type} {call : Op → Call σ α} {op : Op} {s t : σ} {e : Fault}
    (h : (call op).run s = .error e t) : Call.object call op s = (.error e, t) := by
  rw [Call.object, Call.reply_error h, Call.after_error h]

namespace Object

/-- The answers to a sequence of operations, and the state after the last. -/
def run (o : Object σ Op Out) : List Op → σ → List Out × σ
  | [], s => ([], s)
  | op :: ops, s => ((o op s).1 :: (o.run ops (o op s).2).1, (o.run ops (o op s).2).2)

@[simp] theorem run_nil (o : Object σ Op Out) (s : σ) : o.run [] s = ([], s) := rfl

@[simp] theorem run_cons (o : Object σ Op Out) (op : Op) (ops : List Op) (s : σ) :
    o.run (op :: ops) s
      = ((o op s).1 :: (o.run ops (o op s).2).1, (o.run ops (o op s).2).2) := rfl

theorem run_append (o : Object σ Op Out) (ops more : List Op) (s : σ) :
    o.run (ops ++ more) s
      = ((o.run ops s).1 ++ (o.run more (o.run ops s).2).1, (o.run more (o.run ops s).2).2) := by
  induction ops generalizing s with
  | nil => simp
  | cons op ops ih => simp [ih]

/-- Operations that stand for others run as those do. -/
theorem run_map {Op' : Type} (o : Object σ Op Out) (f : Op' → Op) (ops : List Op') (s : σ) :
    Object.run (fun op => o (f op)) ops s = o.run (ops.map f) s := by
  induction ops generalizing s with
  | nil => rfl
  | cons op ops ih => simp [ih]

/-- What holds of every single answer holds of all answers of a run. -/
theorem run_answers (o : Object σ Op Out) {P : Out → Prop} (h : ∀ op s, P (o op s).1) :
    ∀ (ops : List Op) (s : σ), ∀ out ∈ (o.run ops s).1, P out := by
  intro ops
  induction ops with
  | nil => simp
  | cons op ops ih =>
      intro s out hout
      rw [run_cons, List.mem_cons] at hout
      rcases hout with rfl | hout
      · exact h op s
      · exact ih _ out hout

/-- What every operation keeps holds after every run. -/
theorem run_keeps (o : Object σ Op Out) {I : σ → Prop} (hstep : ∀ op s, I s → I (o op s).2) :
    ∀ (ops : List Op) {s : σ}, I s → I (o.run ops s).2 := by
  intro ops
  induction ops with
  | nil => intro s hs; exact hs
  | cons op ops ih => intro s hs; exact ih (hstep op s hs)

end Object

namespace Spec

/-- A sequence of operations answered as the reference allows. -/
inductive Run (spec : Spec A Op Out) : A → List Op → List Out → A → Prop
  | nil (a : A) : Run spec a [] [] a
  | cons {a b c : A} {op : Op} {out : Out} {ops : List Op} {outs : List Out}
      (hstep : spec a op out b) (hrest : Run spec b ops outs c) :
      Run spec a (op :: ops) (out :: outs) c

end Spec

/-- From related states every admissible answer is one the reference allows. -/
def Refines (o : Object σ Op Out) (spec : Spec A Op Out) (admissible : Out → Prop)
    (R : σ → A → Prop) : Prop :=
  ∀ op s a, R s a → admissible (o op s).1 →
    ∃ b, spec a op (o op s).1 b ∧ R (o op s).2 b

/-- **A step-wise refinement is a refinement of whole runs.** -/
theorem Refines.run {o : Object σ Op Out} {spec : Spec A Op Out} {admissible : Out → Prop}
    {R : σ → A → Prop} (h : Refines o spec admissible R) :
    ∀ (ops : List Op) (s : σ) (a : A), R s a → (∀ out ∈ (o.run ops s).1, admissible out) →
      ∃ b, spec.Run a ops (o.run ops s).1 b ∧ R (o.run ops s).2 b := by
  intro ops
  induction ops with
  | nil => intro s a hR _; exact ⟨a, Spec.Run.nil a, hR⟩
  | cons op ops ih =>
      intro s a hR hadm
      obtain ⟨b, hspec, hb⟩ := h op s a hR (hadm _ (by simp))
      obtain ⟨c, hrun, hc⟩ := ih _ b hb (fun out hout => hadm out (by simp [hout]))
      exact ⟨c, Spec.Run.cons hspec hrun, hc⟩

/-! ### Two objects that answer alike -/

/-- From related states both objects give the same answer and stay related. -/
def Simulates (o : Object σ Op Out) (p : Object τ Op Out) (R : σ → τ → Prop) : Prop :=
  ∀ op s t, R s t → (o op s).1 = (p op t).1 ∧ R (o op s).2 (p op t).2

/-- **Step by step alike is alike over whole runs.** -/
theorem Simulates.run {o : Object σ Op Out} {p : Object τ Op Out} {R : σ → τ → Prop}
    (h : Simulates o p R) :
    ∀ (ops : List Op) (s : σ) (t : τ), R s t →
      (o.run ops s).1 = (p.run ops t).1 ∧ R (o.run ops s).2 (p.run ops t).2 := by
  intro ops
  induction ops with
  | nil => intro s t hR; exact ⟨rfl, hR⟩
  | cons op ops ih =>
      intro s t hR
      obtain ⟨hout, hnext⟩ := h op s t hR
      obtain ⟨houts, hlast⟩ := ih _ _ hnext
      exact ⟨by simp [hout, houts], hlast⟩

/-- As `Simulates`, with every operation drawing on a budget that must not run out. -/
def SimulatesWithin (o : Object σ Op Out) (p : Object τ Op Out) (cost : Op → Nat) (budget : Nat)
    (R : Nat → σ → τ → Prop) : Prop :=
  ∀ op s t spent, R spent s t → spent + cost op < budget →
    (o op s).1 = (p op t).1 ∧ R (spent + cost op) (o op s).2 (p op t).2

/-- **Runs within the budget are alike.** -/
theorem SimulatesWithin.run {o : Object σ Op Out} {p : Object τ Op Out} {cost : Op → Nat}
    {budget : Nat} {R : Nat → σ → τ → Prop} (h : SimulatesWithin o p cost budget R) :
    ∀ (ops : List Op) (s : σ) (t : τ) (spent : Nat), R spent s t →
      spent + (ops.map cost).sum < budget →
      (o.run ops s).1 = (p.run ops t).1 ∧
        R (spent + (ops.map cost).sum) (o.run ops s).2 (p.run ops t).2 := by
  intro ops
  induction ops with
  | nil => intro s t spent hR _; exact ⟨rfl, hR⟩
  | cons op ops ih =>
      intro s t spent hR hbudget
      rw [List.map_cons, List.sum_cons, ← Nat.add_assoc] at hbudget ⊢
      obtain ⟨hout, hnext⟩ := h op s t spent hR (by omega)
      obtain ⟨houts, hlast⟩ := ih _ _ _ hnext hbudget
      exact ⟨by simp [hout, houts], hlast⟩

/-- Every operation of the run is one the reference allows in the state it finds. -/
def Allowed (p : Object τ Op Out) (legal : τ → Op → Prop) (t : τ) (ops : List Op) : Prop :=
  ∀ before op after, ops = before ++ op :: after → legal (p.run before t).2 op

theorem Allowed.nil {p : Object τ Op Out} {legal : τ → Op → Prop} {t : τ} :
    Allowed p legal t [] := by
  intro before op after h
  simp at h

theorem Allowed.cons {p : Object τ Op Out} {legal : τ → Op → Prop} {t : τ} {op : Op}
    {ops : List Op} (hop : legal t op) (h : Allowed p legal (p op t).2 ops) :
    Allowed p legal t (op :: ops) := by
  intro before next after heq
  cases before with
  | nil =>
      injection heq with hnext _
      subst hnext
      exact hop
  | cons first before =>
      injection heq with hfirst hrest
      subst hfirst
      exact h before next after hrest

theorem Allowed.head {p : Object τ Op Out} {legal : τ → Op → Prop} {t : τ} {op : Op}
    {ops : List Op} (h : Allowed p legal t (op :: ops)) : legal t op := h [] op ops rfl

theorem Allowed.tail {p : Object τ Op Out} {legal : τ → Op → Prop} {t : τ} {op : Op}
    {ops : List Op} (h : Allowed p legal t (op :: ops)) : Allowed p legal (p op t).2 ops :=
  fun before next after heq => h (op :: before) next after (by rw [heq]; rfl)

theorem Allowed.cons_iff {p : Object τ Op Out} {legal : τ → Op → Prop} {t : τ} {op : Op}
    {ops : List Op} :
    Allowed p legal t (op :: ops) ↔ legal t op ∧ Allowed p legal (p op t).2 ops :=
  ⟨fun h => ⟨h.head, h.tail⟩, fun h => .cons h.1 h.2⟩

/-- An allowed run is allowed up to every point of it. -/
theorem Allowed.of_append {p : Object τ Op Out} {legal : τ → Op → Prop} {t : τ}
    {ops more : List Op} (h : Allowed p legal t (ops ++ more)) : Allowed p legal t ops := by
  intro before op after heq
  subst heq
  exact h before op (after ++ more) (by simp)

/-- Operations that are always allowed under an invariant they keep. -/
theorem Allowed.of_invariant {p : Object τ Op Out} {legal : τ → Op → Prop} {I : τ → Prop}
    (hstep : ∀ op t, I t → legal t op ∧ I (p op t).2) :
    ∀ (ops : List Op) {t : τ}, I t → Allowed p legal t ops := by
  intro ops
  induction ops with
  | nil => intro t _; exact .nil
  | cons op ops ih =>
      intro t ht
      obtain ⟨hlegal, hnext⟩ := hstep op t ht
      exact .cons hlegal (ih hnext)

/-- Related states stay related along the runs that the first object allows. -/
theorem Allowed.related {Out' : Type} {o : Object σ Op Out} {p : Object τ Op Out'}
    {legal : σ → Op → Prop} {R : σ → τ → Prop}
    (hstep : ∀ op s t, R s t → legal s op → R (o op s).2 (p op t).2) :
    ∀ {ops : List Op} {s : σ} {t : τ}, Allowed o legal s ops → R s t →
      R (o.run ops s).2 (p.run ops t).2 := by
  intro ops
  induction ops with
  | nil => intro s t _ hR; exact hR
  | cons op ops ih =>
      intro s t hops hR
      exact ih hops.tail (hstep op s t hR hops.head)

/--
**Two objects allow the same runs**, if related states allow the same operations and an
allowed operation leads to related states.
-/
theorem Allowed.congr {Out' : Type} {o : Object σ Op Out} {p : Object τ Op Out'}
    {legal : σ → Op → Prop} {legal' : τ → Op → Prop} {R : σ → τ → Prop}
    (hlegal : ∀ op s t, R s t → (legal s op ↔ legal' t op))
    (hstep : ∀ op s t, R s t → legal s op → R (o op s).2 (p op t).2) :
    ∀ {ops : List Op} {s : σ} {t : τ}, R s t →
      (Allowed o legal s ops ↔ Allowed p legal' t ops) := by
  intro ops
  induction ops with
  | nil => intro s t _; exact ⟨fun _ => .nil, fun _ => .nil⟩
  | cons op ops ih =>
      intro s t hR
      rw [Allowed.cons_iff, Allowed.cons_iff, hlegal op s t hR]
      refine and_congr_right ?_
      intro hop
      exact ih (hstep op s t hR ((hlegal op s t hR).mpr hop))

/-- As `Simulates`, for allowed operations and admissible answers. -/
def SimulatesUnder (o : Object σ Op Out) (p : Object τ Op Out) (legal : τ → Op → Prop)
    (admissible : Out → Prop) (R : σ → τ → Prop) : Prop :=
  ∀ op s t, R s t → legal t op → admissible (o op s).1 →
    (o op s).1 = (p op t).1 ∧ R (o op s).2 (p op t).2

/-- **Runs of allowed operations are alike as long as the answers are admissible.** -/
theorem SimulatesUnder.run {o : Object σ Op Out} {p : Object τ Op Out} {legal : τ → Op → Prop}
    {admissible : Out → Prop} {R : σ → τ → Prop} (h : SimulatesUnder o p legal admissible R) :
    ∀ (ops : List Op) (s : σ) (t : τ), R s t → Allowed p legal t ops →
      (∀ out ∈ (o.run ops s).1, admissible out) →
      (o.run ops s).1 = (p.run ops t).1 ∧ R (o.run ops s).2 (p.run ops t).2 := by
  intro ops
  induction ops with
  | nil => intro s t hR _ _; exact ⟨rfl, hR⟩
  | cons op ops ih =>
      intro s t hR hlegal hadm
      obtain ⟨hout, hnext⟩ := h op s t hR hlegal.head (hadm _ (by simp))
      obtain ⟨houts, hlast⟩ := ih _ _ hnext hlegal.tail (fun out hmem => hadm out (by simp [hmem]))
      exact ⟨by simp [hout, houts], hlast⟩

/-! ### Machines whose next step the environment picks -/

/-- The state after a sequence of actions, or the first fault. -/
def machineRun (step : Op → σ → Except Fault σ) (s : σ) (actions : List Op) : Except Fault σ :=
  actions.foldlM (fun s action => step action s) s

theorem machineRun_cons_ok {step : Op → σ → Except Fault σ} {s t : σ} {action : Op}
    (h : step action s = .ok t) (actions : List Op) :
    machineRun step s (action :: actions) = machineRun step t actions := by
  rw [machineRun, List.foldlM_cons, h, ok_bind, machineRun]

theorem machineRun_cons_error {step : Op → σ → Except Fault σ} {s : σ} {action : Op}
    {fault : Fault} (h : step action s = .error fault) (actions : List Op) :
    machineRun step s (action :: actions) = .error fault := by
  rw [machineRun, List.foldlM_cons, h, error_bind]

/-- Every action of the run is taken in a state that allows it. -/
def Guarded (step : Op → σ → Except Fault σ) (guard : σ → Op → Prop) (s : σ)
    (actions : List Op) : Prop :=
  ∀ before action after, actions = before ++ action :: after →
    ∀ t, machineRun step s before = .ok t → guard t action

theorem Guarded.nil {step : Op → σ → Except Fault σ} {guard : σ → Op → Prop} {s : σ} :
    Guarded step guard s [] := by
  intro before action after h
  simp at h

theorem Guarded.cons {step : Op → σ → Except Fault σ} {guard : σ → Op → Prop} {s t : σ}
    {action : Op} {actions : List Op} (hguard : guard s action) (hstep : step action s = .ok t)
    (h : Guarded step guard t actions) : Guarded step guard s (action :: actions) := by
  rintro (_ | ⟨first, before⟩) act after hsplit u hu
  · injection hsplit with hact _
    injection hu with hu
    subst hact hu
    exact hguard
  · injection hsplit with hfirst hrest
    subst hfirst
    refine h before act after hrest u ?_
    rw [machineRun_cons_ok hstep] at hu
    exact hu

theorem Guarded.head {step : Op → σ → Except Fault σ} {guard : σ → Op → Prop} {s : σ}
    {action : Op} {actions : List Op} (h : Guarded step guard s (action :: actions)) :
    guard s action := h [] action actions rfl s rfl

theorem Guarded.tail {step : Op → σ → Except Fault σ} {guard : σ → Op → Prop} {s t : σ}
    {action : Op} {actions : List Op} (h : Guarded step guard s (action :: actions))
    (hstep : step action s = .ok t) : Guarded step guard t actions := by
  intro before act after hsplit u hu
  exact h (action :: before) act after (by rw [hsplit]; rfl) u
    (by rw [machineRun_cons_ok hstep, hu])

theorem Guarded.append {step : Op → σ → Except Fault σ} {guard : σ → Op → Prop}
    {actions more : List Op} :
    ∀ {s t : σ}, Guarded step guard s actions → machineRun step s actions = .ok t →
      Guarded step guard t more → Guarded step guard s (actions ++ more) := by
  induction actions with
  | nil =>
      intro s t _ hrun hmore
      injection hrun with hrun
      exact hrun ▸ hmore
  | cons action actions ih =>
      intro s t h hrun hmore
      cases hnext : step action s with
      | ok u =>
          rw [machineRun_cons_ok hnext] at hrun
          exact .cons h.head hnext (ih (h.tail hnext) hrun hmore)
      | error e =>
          rw [machineRun_cons_error hnext] at hrun
          injection hrun

/-- **An invariant that allowed actions keep, without a fault, holds along guarded runs.** -/
theorem Guarded.invariant {step : Op → σ → Except Fault σ} {guard : σ → Op → Prop}
    {I : σ → Prop} (hstep : ∀ action s, I s → guard s action → ∃ t, step action s = .ok t ∧ I t) :
    ∀ {actions : List Op} {s : σ}, Guarded step guard s actions → I s →
      ∃ t, machineRun step s actions = .ok t ∧ I t := by
  intro actions
  induction actions with
  | nil => intro s _ hs; exact ⟨s, rfl, hs⟩
  | cons action actions ih =>
      intro s hguard hs
      obtain ⟨t, ht, hI⟩ := hstep action s hs hguard.head
      rw [machineRun_cons_ok ht]
      exact ih (hguard.tail ht) hI

/-- Some state the actions lead through. -/
def Passes (step : Op → σ → Except Fault σ) (s : σ) (actions : List Op) (P : σ → Prop) : Prop :=
  ∃ before after t, actions = before ++ after ∧ machineRun step s before = .ok t ∧ P t

/-- As `Guarded.invariant`, for actions that fault in some states. -/
theorem Guarded.invariant_until {step : Op → σ → Except Fault σ} {guard : σ → Op → Prop}
    {I stuck : σ → Prop} {fault : Fault} (hstep : ∀ action s, I s → guard s action →
      (∃ t, step action s = .ok t ∧ I t) ∨ step action s = .error fault ∧ stuck s) :
    ∀ {actions : List Op} {s : σ}, Guarded step guard s actions → I s →
      (∃ t, machineRun step s actions = .ok t ∧ I t) ∨
        machineRun step s actions = .error fault ∧ Passes step s actions stuck := by
  intro actions
  induction actions with
  | nil => intro s _ hs; exact .inl ⟨s, rfl, hs⟩
  | cons action actions ih =>
      intro s hguard hs
      rcases hstep action s hs hguard.head with ⟨t, ht, hI⟩ | ⟨hfault, hstuck⟩
      · rw [machineRun_cons_ok ht]
        refine (ih (hguard.tail ht) hI).imp_right ?_
        rintro ⟨hrun, before, after, u, rfl, hu, hstuck⟩
        exact ⟨hrun, action :: before, after, u, rfl, by rw [machineRun_cons_ok ht, hu], hstuck⟩
      · refine .inr ⟨?_, [], action :: actions, s, rfl, rfl, hstuck⟩
        exact machineRun_cons_error hfault actions

/-- Two guards at once. -/
theorem Guarded.and {step : Op → σ → Except Fault σ} {guard guard' : σ → Op → Prop} {s : σ}
    {actions : List Op} (h : Guarded step guard s actions) (h' : Guarded step guard' s actions) :
    Guarded step (fun s action => guard s action ∧ guard' s action) s actions := by
  intro before action after heq t ht
  exact ⟨h before action after heq t ht, h' before action after heq t ht⟩

/-- A guarded run is guarded up to every point of it. -/
theorem Guarded.of_append {step : Op → σ → Except Fault σ} {guard : σ → Op → Prop} {s : σ}
    {actions more : List Op} (h : Guarded step guard s (actions ++ more)) :
    Guarded step guard s actions := by
  intro before action after heq
  subst heq
  exact h before action (after ++ more) (by simp)

/-- The state after one more action. -/
theorem machineRun_concat {step : Op → σ → Except Fault σ} {s t : σ} {actions : List Op}
    (h : machineRun step s actions = .ok t) (action : Op) :
    machineRun step s (actions ++ [action]) = step action t := by
  rw [machineRun, List.foldlM_append, ← machineRun, h]
  exact bind_pure (step action t)

/-- A run of one more action has been through the state before it. -/
theorem machineRun_concat_ok {step : Op → σ → Except Fault σ} {s t : σ} {actions : List Op}
    {action : Op} (h : machineRun step s (actions ++ [action]) = .ok t) :
    ∃ u, machineRun step s actions = .ok u ∧ step action u = .ok t := by
  cases hrun : machineRun step s actions with
  | ok u =>
      rw [machineRun_concat hrun] at h
      exact ⟨u, rfl, h⟩
  | error e =>
      rw [machineRun, List.foldlM_append, ← machineRun, hrun] at h
      injection h

/-- An invariant that allowed actions keep holds wherever a guarded run gets to. -/
theorem Guarded.keeps {step : Op → σ → Except Fault σ} {guard : σ → Op → Prop} {I : σ → Prop}
    (hkeep : ∀ action s t, I s → guard s action → step action s = .ok t → I t) :
    ∀ {actions : List Op} {s t : σ}, Guarded step guard s actions → I s →
      machineRun step s actions = .ok t → I t := by
  intro actions
  induction actions with
  | nil =>
      intro s t _ hs hrun
      injection hrun with hrun
      exact hrun ▸ hs
  | cons action actions ih =>
      intro s t hguarded hs hrun
      cases hnext : step action s with
      | ok u =>
          rw [machineRun_cons_ok hnext] at hrun
          exact ih (hguarded.tail hnext) (hkeep action s u hs hguarded.head hnext) hrun
      | error e =>
          rw [machineRun_cons_error hnext] at hrun
          injection hrun

/--
**A machine gets to the end of exactly the guarded runs**, with everything clean, if an action
gets through and leaves it clean exactly where it is clean and the guard holds.
-/
theorem machineRun_clean_iff {step : Op → σ → Except Fault σ} {guard : σ → Op → Prop}
    {clean : σ → Prop}
    (hstep : ∀ action s, (∃ t, step action s = .ok t ∧ clean t) ↔ clean s ∧ guard s action) :
    ∀ {actions : List Op} {s : σ},
      (∃ t, machineRun step s actions = .ok t ∧ clean t) ↔
        clean s ∧ Guarded step guard s actions := by
  intro actions
  induction actions with
  | nil =>
      intro s
      constructor
      · rintro ⟨t, hrun, ht⟩
        injection hrun with hrun
        exact ⟨hrun ▸ ht, .nil⟩
      · rintro ⟨hs, -⟩
        exact ⟨s, rfl, hs⟩
  | cons action actions ih =>
      intro s
      constructor
      · rintro ⟨t, hrun, ht⟩
        cases hnext : step action s with
        | ok u =>
            rw [machineRun_cons_ok hnext] at hrun
            obtain ⟨hu, hguarded⟩ := ih.mp ⟨t, hrun, ht⟩
            obtain ⟨hs, hguard⟩ := (hstep action s).mp ⟨u, hnext, hu⟩
            exact ⟨hs, .cons hguard hnext hguarded⟩
        | error e =>
            rw [machineRun_cons_error hnext] at hrun
            injection hrun
      · rintro ⟨hs, hguarded⟩
        obtain ⟨u, hnext, hu⟩ := (hstep action s).mpr ⟨hs, hguarded.head⟩
        rw [machineRun_cons_ok hnext]
        exact ih.mpr ⟨hu, hguarded.tail hnext⟩

/-- Every state the actions lead through. -/
def Always (step : Op → σ → Except Fault σ) (s : σ) (actions : List Op) (P : σ → Prop) : Prop :=
  ∀ before after t, actions = before ++ after → machineRun step s before = .ok t → P t

/-- **What every step keeps holds in every state of a run.** -/
theorem Always.of_step {step : Op → σ → Except Fault σ} {I : σ → Prop}
    (hstep : ∀ action s t, I s → step action s = .ok t → I t) {s : σ} (hs : I s)
    (actions : List Op) : Always step s actions I := by
  intro before after t _ hrun
  have hall : Guarded step (fun _ _ => True) s before := fun _ _ _ _ _ _ => trivial
  exact hall.keeps (fun action s t hs _ => hstep action s t hs) hs hrun

/--
**An invariant that allowed actions keep, and that every other action breaks, holds in every
state of exactly the guarded runs.**
-/
theorem always_iff_guarded {step : Op → σ → Except Fault σ} {guard : σ → Op → Prop}
    {I : σ → Prop}
    (hkeep : ∀ action s t, I s → guard s action → step action s = .ok t → I t)
    (hbreak : ∀ action s, I s → ¬ guard s action → ∃ t, step action s = .ok t ∧ ¬ I t)
    {s : σ} (hs : I s) (actions : List Op) :
    Always step s actions I ↔ Guarded step guard s actions := by
  constructor
  · intro halways before action after heq t hrun
    by_contra hguard
    have ht : I t := halways before (action :: after) t heq hrun
    obtain ⟨u, hstep, hu⟩ := hbreak action t ht hguard
    refine hu (halways (before ++ [action]) after u (by rw [heq]; simp) ?_)
    rw [machineRun_concat hrun, hstep]
  · rintro hguarded before after t rfl hrun
    exact hguarded.of_append.keeps hkeep hs hrun

end Technopark
