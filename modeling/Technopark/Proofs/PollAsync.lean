/-
What one round of the asynchronous poll engine does with its events.

Until the first event is handed over, slot `i` is the slot of `m_ClientsWantWork[i]`
and the round is right.  After that the loop looks one event too far: slot `i` is
compared with event `i + 1`.  If that event is in another state the slot is passed
over, which is harmless.  If it is in the same state, it is the event that is handed
over while the one that is ready is deleted, and nothing the round does later brings
it back.  So events are conserved exactly when no ready slot behind a first ready one
is followed by a slot of its own state, which is `NoClash`.
-/
import Technopark.Net.PollAsync
import Mathlib.Data.List.Nodup
import Mathlib.Tactic.Push

namespace Technopark.EventLoop

variable {β : Type} {r r' : Round β}

/-! ### What a round should do -/

/-- The second loop wants to hand the slot's event over. -/
def ready (x : Event β × Revents) : Bool := !x.2.pollhup && (x.2.pollin || x.2.pollout)

/-- The second loop queues the slot's descriptor for removal. -/
def drops (x : Event β × Revents) : Bool :=
  x.2.pollhup || (!x.2.pollin && !x.2.pollout && x.2.pollnval)

/-- The descriptor of an event. -/
def sdOf (x : Event β × Revents) : Int := x.1.client.sd

/-- `poll` reports `POLLIN` and `POLLOUT` only where they were asked for. -/
def Reportable (reported : List (Event β × Revents)) : Prop :=
  ∀ x ∈ reported, (x.2.pollin → x.1.client.state.events = .pollin) ∧
    (x.2.pollout → x.1.client.state.events = .pollout)

/-- Every event is in one place, and for a reason of its own. -/
structure Conserved (reported : List (Event β × Revents)) (r : Round β) : Prop where
  places : (reported.map Prod.fst).Perm (r.wantWork ++ r.haveWork ++
    (reported.map Prod.fst).filter fun event => event.client.sd ∈ r.disconnected)
  dropped : ∀ x ∈ reported, sdOf x ∈ r.disconnected → x.2.pollhup ∨ x.2.pollnval
  handedOver : ∀ x ∈ reported, x.1 ∈ r.haveWork → x.2.pollin ∨ x.2.pollout

/-- A round that starts with the reported events conserves them. -/
def Conserves (reported : List (Event β × Revents)) : Prop :=
  ∃ r, (manageConnections (reported.map Prod.snd)).run ⟨reported.map Prod.fst, [], []⟩ = .ok () r ∧
    Conserved reported r

/-- No ready slot behind another ready one is followed by a slot of its own state. -/
def NoClash (reported : List (Event β × Revents)) : Prop :=
  ∀ before x between y z after, reported = before ++ x :: (between ++ y :: z :: after) →
    ready x → ready y → z.1.client.state ≠ y.1.client.state

/-! ### One step -/

/-- The slot of an event. -/
def slotOf (x : Event β × Revents) : PollFd :=
  { fd := sdOf x, events := x.1.client.state.events, revents := x.2 }

theorem fill_eq (reported : List (Event β × Revents)) :
    fill (reported.map Prod.fst) (reported.map Prod.snd) = reported.map slotOf := by
  induction reported with
  | nil => rfl
  | cons x reported ih =>
      rw [fill] at ih ⊢
      rw [List.map_cons, List.map_cons, List.zipWith_cons_cons, ih]
      rfl

theorem deleteClient_run {sd : Int} (h : ∃ event ∈ r.wantWork, event.client.sd = sd) :
    (deleteClient sd).run r
      = .ok () { r with wantWork := r.wantWork.eraseP fun event => event.client.sd = sd } := by
  simp [deleteClient, h]

theorem deleteClient_ok {sd : Int} (h : (deleteClient sd).run r = .ok () r') :
    r' = { r with wantWork := r.wantWork.eraseP fun event => event.client.sd = sd } := by
  by_cases hmem : ∃ event ∈ r.wantWork, event.client.sd = sd
  · rw [deleteClient_run hmem] at h
    injection h with _ hr
    exact hr.symm
  · simp [deleteClient, hmem] at h

/-- A report with a bit set is not zero. -/
theorem isZero_eq_false {v : Revents}
    (h : (v.pollin || v.pollout || v.pollhup || v.pollnval) = true) : v.isZero = false := by
  simp only [Revents.isZero, decide_eq_false_iff_not]
  intro heq
  subst heq
  simp at h

/-- A slot that is neither ready nor dropped. -/
theorem visit_quiet {x : Event β × Revents} (hready : ¬ ready x) (hdrops : ¬ drops x) (i : Nat) :
    (visit (slotOf x) i).run r = .ok () r := by
  simp only [ready, drops, Bool.not_eq_true] at hready hdrops
  simp only [visit, slotOf]
  split_ifs <;> simp_all

theorem visit_drops {x : Event β × Revents} (hdrops : drops x) (i : Nat) :
    (visit (slotOf x) i).run r = .ok () { r with disconnected := r.disconnected ++ [sdOf x] } := by
  have hzero : x.2.isZero = false := by
    refine isZero_eq_false ?_
    simp only [drops] at hdrops
    grind
  simp only [drops] at hdrops
  simp only [visit, slotOf, hzero]
  split_ifs <;> simp_all [disconnect]

/-- A ready slot is compared with the event at its index. -/
theorem visit_ready {x : Event β × Revents} (hready : ready x) (hreport : Reportable [x])
    (i : Nat) :
    (visit (slotOf x) i).run r = (handOver (slotOf x) i x.1.client.state).run r := by
  obtain ⟨hin, hout⟩ := hreport x (by simp)
  have hzero : x.2.isZero = false := by
    refine isZero_eq_false ?_
    simp only [ready] at hready
    grind
  simp only [ready] at hready
  have hhup : x.2.pollhup = false := by grind
  rw [visit]
  simp only [slotOf, hzero, hhup, Bool.false_eq_true, if_false]
  cases hstate : x.1.client.state with
  | wantRead =>
      have hnout : x.2.pollout = false := by
        by_contra hne
        have := hout (by simpa using hne)
        simp [hstate, ClientState.events] at this
      have hisin : x.2.pollin = true := by grind
      simp [hisin]
  | wantWrite =>
      have hnin : x.2.pollin = false := by
        by_contra hne
        have := hin (by simpa using hne)
        simp [hstate, ClientState.events] at this
      have hisout : x.2.pollout = true := by grind
      simp [hnin, hisout]

/-- The event at the index is in the wrong state: the slot is passed over. -/
theorem handOver_mismatch {slot : PollFd} {i : Nat} {state : ClientState} {event : Event β}
    (hget : r.wantWork[i]? = some event) (hstate : event.client.state ≠ state) :
    (handOver slot i state).run r = .ok () r := by
  simp [handOver, hget, hstate]

/-- The event at the index goes to the workers and the slot's own event is deleted. -/
theorem handOver_match {slot : PollFd} {i : Nat} {event : Event β}
    (hget : r.wantWork[i]? = some event) :
    (handOver slot i event.client.state).run r
      = (deleteClient slot.fd).run { r with haveWork := r.haveWork ++ [event] } := by
  simp [handOver, hget]

/-- What a step that does not throw can have done. -/
theorem visit_ok {slot : PollFd} {i : Nat} (h : (visit slot i).run r = .ok () r') :
    r' = r ∨ r' = { r with disconnected := r.disconnected ++ [slot.fd] } ∨
      ∃ event ∈ r.wantWork, r' = { r with
        haveWork := r.haveWork ++ [event],
        wantWork := r.wantWork.eraseP fun e => e.client.sd = slot.fd } := by
  have hhand : ∀ state, (handOver slot i state).run r = .ok () r' →
      r' = r ∨ ∃ event ∈ r.wantWork, r' = { r with
        haveWork := r.haveWork ++ [event],
        wantWork := r.wantWork.eraseP fun e => e.client.sd = slot.fd } := by
    intro state hrun
    cases hget : r.wantWork[i]? with
    | none => simp [handOver, hget] at hrun
    | some event =>
        by_cases hstate : event.client.state = state
        · subst hstate
          rw [handOver_match hget] at hrun
          exact .inr ⟨event, List.mem_of_getElem? hget, deleteClient_ok hrun⟩
        · rw [handOver_mismatch hget hstate] at hrun
          injection hrun with _ hr
          exact .inl hr.symm
  have hquiet : (pure () : Call (Round β) Unit).run r = .ok () r' → r' = r := by
    intro hrun
    injection hrun with _ hr
    exact hr.symm
  have hdisc : (disconnect slot.fd).run r = .ok () r' →
      r' = { r with disconnected := r.disconnected ++ [slot.fd] } := by
    intro hrun
    injection hrun with _ hr
    exact hr.symm
  unfold visit at h
  split_ifs at h
  · exact .inl (hquiet h)
  · exact .inr (.inl (hdisc h))
  · exact (hhand _ h).imp_right .inr
  · exact (hhand _ h).imp_right .inr
  · exact .inr (.inl (hdisc h))
  · exact .inl (hquiet h)

/-! ### A round in which at most one event is handed over -/

/-- The descriptors a stretch of slots queues for removal. -/
def dropped (xs : List (Event β × Revents)) : List Int := (xs.filter drops).map sdOf

theorem sweep_step {slot : PollFd} {fds : List PollFd} {i : Nat} (hi : i < r.wantWork.length)
    (h : (visit slot i).run r = .ok () r') :
    (sweep (slot :: fds) i).run r = (sweep fds (i + 1)).run r' := by
  rw [sweep]
  simp [hi, h]

theorem sweep_end {fds : List PollFd} {i : Nat} (hi : r.wantWork.length ≤ i) :
    (sweep fds i).run r = .ok () r := by
  have hnot : ¬ i < r.wantWork.length := by omega
  cases fds with
  | nil => simp [sweep, hnot]
  | cons slot fds => simp [sweep, hnot]

/-- Slots that are not ready only queue descriptors. -/
theorem visit_not_ready {x : Event β × Revents} (hready : ¬ ready x) (i : Nat) :
    (visit (slotOf x) i).run r
      = .ok () { r with disconnected := r.disconnected ++ dropped [x] } := by
  by_cases hdrops : drops x
  · rw [visit_drops hdrops]
    simp [dropped, hdrops]
  · rw [visit_quiet hready hdrops]
    simp [dropped, hdrops]

/-- The loop over slots before the first ready one. -/
theorem sweep_not_ready (xs : List (Event β × Revents)) (rest : List PollFd) :
    ∀ (r : Round β) (i : Nat), (∀ x ∈ xs, ¬ ready x) → i + xs.length ≤ r.wantWork.length →
      (sweep (xs.map slotOf ++ rest) i).run r
        = (sweep rest (i + xs.length)).run
            { r with disconnected := r.disconnected ++ dropped xs } := by
  induction xs with
  | nil =>
      intro r i _ _
      simp [dropped]
  | cons x xs ih =>
      intro r i hready hlen
      rw [List.length_cons] at hlen ⊢
      rw [List.map_cons, List.cons_append,
        sweep_step (by omega) (visit_not_ready (hready x (by simp)) i),
        ih _ _ (fun y hy => hready y (by simp [hy])) (by simp; omega)]
      have hdropped : dropped [x] ++ dropped xs = dropped (x :: xs) := by
        simp [dropped, ← List.map_append, ← List.filter_append]
      rw [List.append_assoc, hdropped, Nat.add_assoc, Nat.add_comm 1]

theorem not_drops_of_ready {x : Event β × Revents} (hready : ready x) : ¬ drops x := by
  simp only [ready, drops] at hready ⊢
  grind

/-- A slot whose index holds an event it does not take. -/
theorem visit_pass {x : Event β × Revents} (hreport : Reportable [x]) {i : Nat} {event : Event β}
    (hget : r.wantWork[i]? = some event)
    (hpass : ready x → event.client.state ≠ x.1.client.state) :
    (visit (slotOf x) i).run r
      = .ok () { r with disconnected := r.disconnected ++ dropped [x] } := by
  by_cases hready : ready x
  · have hnone : dropped [x] = [] := by simp [dropped, not_drops_of_ready hready]
    rw [visit_ready hready hreport, handOver_mismatch hget (hpass hready), hnone, List.append_nil]
  · exact visit_not_ready hready i

private theorem drop_cons {α : Type} {l t : List α} {a : α} {i : Nat} (h : l.drop i = a :: t) :
    i < l.length ∧ l[i]? = some a ∧ l.drop (i + 1) = t := by
  refine ⟨?_, ?_, ?_⟩
  · by_contra hge
    rw [List.drop_eq_nil_iff.mpr (by omega)] at h
    simp at h
  · rw [← Nat.add_zero i, ← List.getElem?_drop, h]
    rfl
  · rw [← List.drop_drop, h]
    rfl

theorem Reportable.of_mem {xs : List (Event β × Revents)} (h : Reportable xs)
    {x : Event β × Revents} (hx : x ∈ xs) : Reportable [x] := by
  intro y hy
  obtain rfl : y = x := by simpa using hy
  exact h y hx

/--
The loop behind the first event handed over.  The events left from index `i` on are
those of the slots after the current one, so the last slot is not visited.
-/
theorem sweep_shifted (xs : List (Event β × Revents)) :
    ∀ (r : Round β) (i : Nat), r.wantWork.drop i = xs.tail.map Prod.fst → Reportable xs →
      (∀ before y z after, xs = before ++ y :: z :: after → ready y →
        z.1.client.state ≠ y.1.client.state) →
      (sweep (xs.map slotOf) i).run r
        = .ok () { r with disconnected := r.disconnected ++ dropped xs.dropLast } := by
  induction xs with
  | nil =>
      intro r i hdrop _ _
      rw [sweep_end (List.drop_eq_nil_iff.mp hdrop)]
      simp [dropped]
  | cons x xs ih =>
      intro r i hdrop hreport hclash
      cases xs with
      | nil =>
          rw [sweep_end (List.drop_eq_nil_iff.mp hdrop)]
          simp [dropped]
      | cons y ys =>
          obtain ⟨hi, hget, hnext⟩ := drop_cons hdrop
          have hvisit := visit_pass (hreport.of_mem (x := x) (by simp)) hget (hclash [] x y ys rfl)
          rw [List.map_cons, sweep_step hi hvisit,
            ih { r with disconnected := r.disconnected ++ dropped [x] } _ hnext
            (fun z hz => hreport z (by simp [hz]))
            (fun before a b after hsplit => hclash (x :: before) a b after (by rw [hsplit]; rfl))]
          have hdropped : dropped [x] ++ dropped (y :: ys).dropLast
              = dropped (x :: y :: ys).dropLast := by
            simp [dropped, ← List.map_append, ← List.filter_append]
          rw [List.append_assoc, hdropped]

theorem eraseP_eq_filter {l : List (Event β)} (hnodup : (l.map fun e => e.client.sd).Nodup)
    (sd : Int) :
    (l.eraseP fun e => e.client.sd = sd) = l.filter fun e => e.client.sd ≠ sd := by
  induction l with
  | nil => rfl
  | cons e l ih =>
      rw [List.map_cons, List.nodup_cons] at hnodup
      by_cases he : e.client.sd = sd
      · rw [List.eraseP_cons_of_pos (by simpa using he),
          List.filter_cons_of_neg (by simpa using he)]
        refine (List.filter_eq_self.mpr ?_).symm
        intro e' he'
        have hne : e'.client.sd ≠ sd := by
          intro heq
          subst heq
          exact hnodup.1 (List.mem_map.mpr ⟨e', he', he.symm⟩)
        simpa using hne
      · rw [List.eraseP_cons_of_neg (by simpa using he),
          List.filter_cons_of_pos (by simpa using he),
          ih hnodup.2]

/-- The removal loop removes what was queued, and its assertion holds. -/
theorem removeAll_run (sds : List Int) :
    ∀ (r : Round β), sds.Nodup → (r.wantWork.map fun e => e.client.sd).Nodup →
      (∀ sd ∈ sds, ∃ e ∈ r.wantWork, e.client.sd = sd) →
      (removeAll sds).run r
        = .ok () { r with wantWork := r.wantWork.filter fun e => e.client.sd ∉ sds } := by
  induction sds with
  | nil =>
      intro r _ _ _
      simp [removeAll]
  | cons sd sds ih =>
      intro r hsds hnodup hmem
      rw [List.nodup_cons] at hsds
      have hdelete := deleteClient_run (hmem sd (by simp))
      rw [eraseP_eq_filter hnodup] at hdelete
      have hnext := ih { r with wantWork := r.wantWork.filter fun e => e.client.sd ≠ sd } hsds.2
        (hnodup.sublist (List.filter_sublist.map _)) (by
          intro sd' hsd'
          obtain ⟨e, he, rfl⟩ := hmem sd' (by simp [hsd'])
          refine ⟨e, List.mem_filter.mpr ⟨he, ?_⟩, rfl⟩
          have hne : e.client.sd ≠ sd := by
            intro heq
            exact hsds.1 (heq ▸ hsd')
          simpa using hne)
      rw [removeAll, Call.run_bind_ok hdelete, hnext, List.filter_filter]
      simp [not_or, Bool.and_comm]

theorem dropped_sublist (xs : List (Event β × Revents)) : (dropped xs).Sublist (xs.map sdOf) :=
  List.filter_sublist.map sdOf

theorem mem_dropped {xs : List (Event β × Revents)} {sd : Int} (h : sd ∈ dropped xs) :
    ∃ x ∈ xs, drops x ∧ sdOf x = sd := by
  obtain ⟨x, hx, hsd⟩ := List.mem_map.mp h
  obtain ⟨hmem, hdrops⟩ := List.mem_filter.mp hx
  exact ⟨x, hmem, hdrops, hsd⟩

/-- What the second loop has to leave behind for the round to be right. -/
structure Swept (reported : List (Event β × Revents)) (r : Round β) : Prop where
  places : (reported.map Prod.fst).Perm (r.wantWork ++ r.haveWork)
  once : r.disconnected.Nodup
  dropped : ∀ sd ∈ r.disconnected, ∃ x ∈ reported, drops x ∧ sdOf x = sd
  handedOver : ∀ event ∈ r.haveWork, ∃ x ∈ reported, ready x ∧ x.1 = event

/-- The removal loop completes it. -/
theorem Swept.conserved {reported : List (Event β × Revents)} (h : Swept reported r)
    (hnodup : (reported.map sdOf).Nodup) :
    ∃ r', (removeAll r.disconnected).run r = .ok () r' ∧ Conserved reported r' := by
  have hunique : ∀ x ∈ reported, ∀ y ∈ reported, sdOf x = sdOf y → x = y :=
    fun x hx y hy => List.inj_on_of_nodup_map hnodup hx hy
  have hsds : ((reported.map Prod.fst).map fun e => e.client.sd).Nodup := by
    rw [List.map_map]
    exact hnodup
  have hsplit : ((r.wantWork ++ r.haveWork).map fun e => e.client.sd).Nodup :=
    (h.places.map _).nodup_iff.mp hsds
  -- a descriptor that is queued is not that of an event handed over
  have hkept : ∀ event ∈ r.haveWork, event.client.sd ∉ r.disconnected := by
    intro event hevent hmem
    obtain ⟨x, hx, hready, rfl⟩ := h.handedOver event hevent
    obtain ⟨y, hy, hdrops, hsd⟩ := h.dropped _ hmem
    obtain rfl := hunique y hy x hx hsd
    exact not_drops_of_ready hready hdrops
  have hwant : ∀ sd ∈ r.disconnected, ∃ e ∈ r.wantWork, e.client.sd = sd := by
    intro sd hsd
    obtain ⟨x, hx, -, rfl⟩ := h.dropped sd hsd
    have hmem := h.places.mem_iff.mp (List.mem_map_of_mem (f := Prod.fst) hx)
    rcases List.mem_append.mp hmem with hin | hin
    · exact ⟨x.1, hin, rfl⟩
    · exact absurd hsd (hkept x.1 hin)
  rw [List.map_append] at hsplit
  refine ⟨_, removeAll_run _ r h.once hsplit.of_append_left hwant, ?_, ?_, ?_⟩
  · have hnone : r.haveWork.filter (fun e => e.client.sd ∈ r.disconnected) = [] :=
      List.filter_eq_nil_iff.mpr (fun e he => by simpa using hkept e he)
    have hfilter := h.places.filter fun e => e.client.sd ∈ r.disconnected
    rw [List.filter_append, hnone, List.append_nil] at hfilter
    have hparts : r.wantWork.Perm (r.wantWork.filter (fun e => e.client.sd ∉ r.disconnected) ++
        r.wantWork.filter fun e => e.client.sd ∈ r.disconnected) := by
      have hboth :=
        List.filter_append_perm (fun e => decide (e.client.sd ∉ r.disconnected)) r.wantWork
      simpa using hboth.symm
    refine h.places.trans ((hparts.append_right r.haveWork).trans ?_)
    rw [List.append_assoc, List.append_assoc]
    exact (List.perm_append_comm.trans (hfilter.symm.append_left _)).append_left _
  · intro x hx hsd
    obtain ⟨y, hy, hdrops, heq⟩ := h.dropped _ hsd
    obtain rfl := hunique y hy x hx heq
    simp only [drops] at hdrops
    grind
  · intro x hx hmem
    obtain ⟨y, hy, hready, heq⟩ := h.handedOver x.1 hmem
    obtain rfl := hunique y hy x hx (by rw [sdOf, sdOf, heq])
    simp only [ready] at hready
    grind

/-- The second loop when no slot is ready. -/
theorem sweep_none_ready {reported : List (Event β × Revents)}
    (hnodup : (reported.map sdOf).Nodup) (hready : ∀ x ∈ reported, ¬ ready x) :
    ∃ r, (sweep (reported.map slotOf) 0).run ⟨reported.map Prod.fst, [], []⟩ = .ok () r ∧
      Swept reported r := by
  have hrun := sweep_not_ready reported [] ⟨reported.map Prod.fst, [], []⟩ 0 hready (by simp)
  have hend : (sweep [] (0 + reported.length)).run
      ⟨reported.map Prod.fst, [], [] ++ dropped reported⟩
      = .ok () ⟨reported.map Prod.fst, [], [] ++ dropped reported⟩ := sweep_end (by simp)
  rw [List.append_nil] at hrun
  refine ⟨_, hrun.trans hend, by simp, ?_, ?_, by simp⟩
  · exact hnodup.sublist (dropped_sublist reported)
  · intro sd hsd
    exact mem_dropped (by simpa using hsd)

/-- The round up to and including the first ready slot. -/
theorem sweep_first_ready {before after : List (Event β × Revents)} {x : Event β × Revents}
    (hnodup : ((before ++ x :: after).map sdOf).Nodup) (hreport : Reportable (before ++ x :: after))
    (hbefore : ∀ y ∈ before, ¬ ready y) (hready : ready x) :
    (sweep ((before ++ x :: after).map slotOf) 0).run
        ⟨(before ++ x :: after).map Prod.fst, [], []⟩
      = (sweep (after.map slotOf) (before.length + 1)).run
          ⟨(before ++ after).map Prod.fst, [x.1], dropped before⟩ := by
  have hget : ((before ++ x :: after).map Prod.fst)[before.length]? = some x.1 := by simp
  have hdelete : (visit (slotOf x) before.length).run
      ⟨(before ++ x :: after).map Prod.fst, [], dropped before⟩
      = .ok () ⟨(before ++ after).map Prod.fst, [x.1], dropped before⟩ := by
    have hdelete : (deleteClient (slotOf x).fd).run
        ⟨(before ++ x :: after).map Prod.fst, [] ++ [x.1], dropped before⟩ = _ :=
      deleteClient_run ⟨x.1, by simp, rfl⟩
    rw [visit_ready hready (hreport.of_mem (by simp)), handOver_match hget, hdelete]
    have hnot : ∀ e ∈ before.map Prod.fst, ¬ (decide (e.client.sd = (slotOf x).fd)) = true := by
      intro e he heq
      obtain ⟨y, hy, rfl⟩ := List.mem_map.mp he
      have hsame : sdOf y = sdOf x := of_decide_eq_true heq
      rw [List.map_append, List.map_cons, List.nodup_append] at hnodup
      exact hnodup.2.2 _ (List.mem_map_of_mem hy) _ (by simp) hsame
    have herase : (((before ++ x :: after).map Prod.fst).eraseP
        fun e => e.client.sd = (slotOf x).fd) = (before ++ after).map Prod.fst := by
      rw [List.map_append, List.map_cons, List.eraseP_append_right _ hnot,
        List.eraseP_cons_of_pos (by simp [slotOf, sdOf]), List.map_append]
    rw [herase]
    rfl
  have hfirst := sweep_not_ready before ((x :: after).map slotOf)
    ⟨(before ++ x :: after).map Prod.fst, [], []⟩ 0 hbefore (by simp)
  rw [List.map_append, hfirst, Nat.zero_add, List.nil_append, List.map_cons,
    sweep_step (by simp) hdelete]

/-- With one event gone, the events from the next index on are one slot ahead. -/
theorem drop_shifted (before after : List (Event β × Revents)) :
    ((before ++ after).map Prod.fst).drop (before.length + 1) = after.tail.map Prod.fst := by
  rw [List.map_append, ← List.drop_drop, List.drop_left' (by simp), List.drop_one, List.map_tail]

/-- The second loop when one slot is ready and none behind it clashes. -/
theorem sweep_one_ready {before after : List (Event β × Revents)} {x : Event β × Revents}
    (hnodup : ((before ++ x :: after).map sdOf).Nodup) (hreport : Reportable (before ++ x :: after))
    (hbefore : ∀ y ∈ before, ¬ ready y) (hready : ready x)
    (hclash : ∀ a y z b, after = a ++ y :: z :: b → ready y →
      z.1.client.state ≠ y.1.client.state) :
    ∃ r, (sweep ((before ++ x :: after).map slotOf) 0).run
        ⟨(before ++ x :: after).map Prod.fst, [], []⟩ = .ok () r ∧
      Swept (before ++ x :: after) r := by
  rw [sweep_first_ready hnodup hreport hbefore hready,
    sweep_shifted after _ _ (drop_shifted before after) (fun y hy => hreport y (by simp [hy]))
      hclash]
  refine ⟨_, rfl, ?_, ?_, ?_, ?_⟩
  · rw [List.map_append, List.map_cons, List.map_append]
    exact List.perm_middle.trans (List.perm_append_singleton _ _).symm
  · refine hnodup.sublist ?_
    show (dropped before ++ dropped after.dropLast).Sublist _
    rw [List.map_append, List.map_cons]
    refine (dropped_sublist before).append (List.Sublist.cons _ ?_)
    exact (dropped_sublist after.dropLast).trans (after.dropLast_sublist.map _)
  · intro sd hsd
    rcases List.mem_append.mp hsd with hsd | hsd
    · obtain ⟨y, hy, hdrops⟩ := mem_dropped hsd
      exact ⟨y, by simp [hy], hdrops⟩
    · obtain ⟨y, hy, hdrops⟩ := mem_dropped hsd
      exact ⟨y, by simp [List.dropLast_subset after hy], hdrops⟩
  · intro event hevent
    obtain rfl : event = x.1 := by simpa using hevent
    exact ⟨x, by simp, hready, rfl⟩

/-! ### A round in which two are -/

/-- The event is nowhere, and not because its descriptor was queued for removal. -/
structure Lost (event : Event β) (r : Round β) : Prop where
  want : event ∉ r.wantWork
  work : event ∉ r.haveWork
  disconnected : event.client.sd ∉ r.disconnected

/-- No other slot brings a lost event back. -/
theorem Lost.visit {event : Event β} (h : Lost event r) {slot : PollFd} {i : Nat}
    (hfd : slot.fd ≠ event.client.sd) (hrun : (visit slot i).run r = .ok () r') :
    Lost event r' := by
  rcases visit_ok hrun with rfl | rfl | ⟨other, hother, rfl⟩
  · exact h
  · refine ⟨h.want, h.work, ?_⟩
    intro hmem
    rcases List.mem_append.mp hmem with hmem | hmem
    · exact h.disconnected hmem
    · exact hfd (List.mem_singleton.mp hmem).symm
  · refine ⟨fun hmem => h.want (List.eraseP_subset hmem), ?_, h.disconnected⟩
    intro hmem
    rcases List.mem_append.mp hmem with hmem | hmem
    · exact h.work hmem
    · obtain rfl : event = other := by simpa using hmem
      exact h.want hother

theorem Lost.sweep {event : Event β} :
    ∀ (fds : List PollFd) {r r' : Round β} {i : Nat}, Lost event r →
      (∀ slot ∈ fds, slot.fd ≠ event.client.sd) → (sweep fds i).run r = .ok () r' →
      Lost event r' := by
  intro fds
  induction fds with
  | nil =>
      intro r r' i h _ hrun
      by_cases hi : i < r.wantWork.length
      · simp [EventLoop.sweep, hi] at hrun
      · rw [sweep_end (by omega)] at hrun
        injection hrun with _ hr
        rwa [← hr]
  | cons slot fds ih =>
      intro r r' i h hfds hrun
      by_cases hi : i < r.wantWork.length
      · cases hvisit : (EventLoop.visit slot i).run r with
        | error e r₁ => simp [EventLoop.sweep, hi, hvisit] at hrun
        | ok _ r₁ =>
            rw [sweep_step hi hvisit] at hrun
            exact ih (h.visit (hfds slot (by simp)) hvisit) (fun s hs => hfds s (by simp [hs])) hrun
      · rw [sweep_end (by omega)] at hrun
        injection hrun with _ hr
        rwa [← hr]

theorem Lost.removeAll {event : Event β} :
    ∀ (sds : List Int) {r r' : Round β}, Lost event r → (removeAll sds).run r = .ok () r' →
      Lost event r' := by
  intro sds
  induction sds with
  | nil =>
      intro r r' h hrun
      injection hrun with _ hr
      rwa [← hr]
  | cons sd sds ih =>
      intro r r' h hrun
      rw [EventLoop.removeAll] at hrun
      cases hdelete : (deleteClient sd).run r with
      | error e r₁ =>
          rw [Call.run_bind_error hdelete] at hrun
          cases hrun
      | ok _ r₁ =>
          rw [Call.run_bind_ok hdelete] at hrun
          refine ih ?_ hrun
          rw [deleteClient_ok hdelete]
          exact ⟨fun hmem => h.want (List.eraseP_subset hmem), h.work, h.disconnected⟩

/-- A ready slot whose index holds the next event, in its own state, loses its own. -/
theorem lost_of_clash {x y : Event β × Revents} (hready : ready x) (hreport : Reportable [x])
    {i : Nat} (hget : r.wantWork[i]? = some y.1)
    (hstate : y.1.client.state = x.1.client.state) (hxy : sdOf x ≠ sdOf y)
    (hnodup : (r.wantWork.map fun e => e.client.sd).Nodup) (hwork : x.1 ∉ r.haveWork)
    (hdisc : sdOf x ∉ r.disconnected) (hrun : (visit (slotOf x) i).run r = .ok () r') :
    Lost x.1 r' := by
  rw [visit_ready hready hreport, ← hstate, handOver_match hget] at hrun
  rw [deleteClient_ok hrun]
  refine ⟨?_, ?_, hdisc⟩
  · show x.1 ∉ r.wantWork.eraseP _
    rw [eraseP_eq_filter hnodup]
    simp [slotOf, sdOf]
  · intro hmem
    rcases List.mem_append.mp hmem with hmem | hmem
    · exact hwork hmem
    · refine hxy ?_
      rw [sdOf, sdOf, List.mem_singleton.mp hmem]

/-- A slot that clashes with the one right behind it loses its event for good. -/
theorem sweep_clash_head {a b : Event β × Revents} {rest : List (Event β × Revents)} {i : Nat}
    (hready : ready a) (hstate : b.1.client.state = a.1.client.state)
    (hdrop : r.wantWork.drop i = (b :: rest).map Prod.fst) (hreport : Reportable (a :: b :: rest))
    (hnodup : ((a :: b :: rest).map sdOf).Nodup)
    (hwant : (r.wantWork.map fun e => e.client.sd).Nodup) (hwork : a.1 ∉ r.haveWork)
    (hdisc : sdOf a ∉ r.disconnected)
    (hrun : (sweep ((a :: b :: rest).map slotOf) i).run r = .ok () r') : Lost a.1 r' := by
  obtain ⟨hi, hget, -⟩ := drop_cons hdrop
  rw [List.map_cons, List.nodup_cons] at hnodup
  have hfds : ∀ slot ∈ (b :: rest).map slotOf, slot.fd ≠ a.1.client.sd := by
    intro slot hslot heq
    obtain ⟨x, hx, rfl⟩ := List.mem_map.mp hslot
    exact hnodup.1 (List.mem_map.mpr ⟨x, hx, heq⟩)
  have hab : sdOf a ≠ sdOf b := fun heq => hnodup.1 (by simp [heq])
  cases hvisit : (visit (slotOf a) i).run r with
  | error e r₁ =>
      rw [List.map_cons, sweep] at hrun
      simp [hi, hvisit] at hrun
  | ok _ r₁ =>
      rw [List.map_cons, sweep_step hi hvisit] at hrun
      exact (lost_of_clash hready (hreport.of_mem (by simp)) hget hstate hab hwant hwork hdisc
        hvisit).sweep _ hfds hrun

/-- Passing slot `a` over leaves the events behind it where they were. -/
private theorem free_of_pass {a : Event β × Revents} {rest : List (Event β × Revents)}
    (hnodup : sdOf a ∉ rest.map sdOf)
    (hfree : ∀ w ∈ a :: rest, w.1 ∉ r.haveWork ∧ sdOf w ∉ r.disconnected) :
    ∀ w ∈ rest, w.1 ∉ r.haveWork ∧ sdOf w ∉ r.disconnected ++ dropped [a] := by
  intro w hw
  obtain ⟨hwork, hdisc⟩ := hfree w (List.mem_cons_of_mem a hw)
  refine ⟨hwork, ?_⟩
  intro hmem
  rcases List.mem_append.mp hmem with hmem | hmem
  · exact hdisc hmem
  · have hsame := (dropped_sublist [a]).subset hmem
    rw [List.map_singleton, List.mem_singleton] at hsame
    exact hnodup (List.mem_map.mpr ⟨w, hw, hsame⟩)

/-- The loop behind the first event handed over, when two slots clash. -/
theorem sweep_clash {y z : Event β × Revents} {after : List (Event β × Revents)} (hready : ready y)
    (hstate : z.1.client.state = y.1.client.state) (before : List (Event β × Revents)) :
    ∀ {r r' : Round β} {i : Nat},
      r.wantWork.drop i = (before ++ y :: z :: after).tail.map Prod.fst →
      Reportable (before ++ y :: z :: after) → ((before ++ y :: z :: after).map sdOf).Nodup →
      (r.wantWork.map fun e => e.client.sd).Nodup →
      (∀ x ∈ before ++ y :: z :: after, x.1 ∉ r.haveWork ∧ sdOf x ∉ r.disconnected) →
      (sweep ((before ++ y :: z :: after).map slotOf) i).run r = .ok () r' →
      ∃ x ∈ before ++ y :: z :: after, Lost x.1 r' := by
  induction before with
  | nil =>
      intro r r' i hdrop hreport hnodup hwant hfree hrun
      obtain ⟨hwork, hdisc⟩ := hfree y (by simp)
      exact ⟨y, by simp,
        sweep_clash_head hready hstate hdrop hreport hnodup hwant hwork hdisc hrun⟩
  | cons a before ih =>
      intro r r' i hdrop hreport hnodup hwant hfree hrun
      obtain ⟨b, rest, hrest⟩ : ∃ b rest, before ++ y :: z :: after = b :: rest := by
        cases before with
        | nil => exact ⟨y, _, rfl⟩
        | cons b before => exact ⟨b, _, rfl⟩
      rw [List.cons_append] at hdrop hreport hnodup hfree hrun ⊢
      rw [hrest] at hdrop hreport hnodup hfree hrun ih ⊢
      by_cases hclash : ready a ∧ b.1.client.state = a.1.client.state
      · obtain ⟨hwork, hdisc⟩ := hfree a (by simp)
        exact ⟨a, by simp,
          sweep_clash_head hclash.1 hclash.2 hdrop hreport hnodup hwant hwork hdisc hrun⟩
      · obtain ⟨hi, hget, hnext⟩ := drop_cons hdrop
        have hvisit := visit_pass (hreport.of_mem (x := a) (by simp)) hget
          (fun hready heq => hclash ⟨hready, heq⟩)
        rw [List.map_cons, sweep_step hi hvisit] at hrun
        rw [List.map_cons, List.nodup_cons] at hnodup
        obtain ⟨x, hx, hlost⟩ := ih (r := { r with disconnected := r.disconnected ++ dropped [a] })
          hnext (fun w hw => hreport w (by simp [hw])) hnodup.2 hwant (free_of_pass hnodup.1 hfree)
          hrun
        exact ⟨x, by simp [hx], hlost⟩

/-! ### Whole rounds -/

theorem exists_first_ready {xs : List (Event β × Revents)} (h : ∃ x ∈ xs, ready x) :
    ∃ before x after, xs = before ++ x :: after ∧ (∀ y ∈ before, ¬ ready y) ∧ ready x := by
  induction xs with
  | nil => simp at h
  | cons a xs ih =>
      by_cases ha : ready a
      · exact ⟨[], a, xs, rfl, by simp, ha⟩
      · obtain ⟨x, hx, hready⟩ := h
        have hx : x ∈ xs := by
          rcases List.mem_cons.mp hx with rfl | hx
          · exact absurd hready ha
          · exact hx
        obtain ⟨before, y, after, rfl, hbefore, hy⟩ := ih ⟨x, hx, hready⟩
        refine ⟨a :: before, y, after, rfl, ?_, hy⟩
        intro z hz
        rcases List.mem_cons.mp hz with rfl | hz
        · exact ha
        · exact hbefore z hz

/-- A round in which something is reported. -/
theorem manageConnections_run {reported : List (Event β × Revents)}
    (hlen : reported.length ≤ pollSlots) (hsome : ∃ x ∈ reported, x.2.isZero = false) :
    (manageConnections (reported.map Prod.snd)).run ⟨reported.map Prod.fst, [], []⟩
      = (do sweep (reported.map slotOf) 0
            removeAll (← get).disconnected
          : Call (Round β) Unit).run ⟨reported.map Prod.fst, [], []⟩ := by
  have hnot : ¬ reported.length > pollSlots := by omega
  obtain ⟨x, hx, hzero⟩ := hsome
  have hany : ((reported.map slotOf).any fun slot => !slot.revents.isZero) = true :=
    List.any_eq_true.mpr ⟨slotOf x, List.mem_map_of_mem hx, by simp [slotOf, hzero]⟩
  simp only [manageConnections, EStateM.run_bind, EStateM.run_get, List.length_map, hnot, if_false,
    fill_eq, hany, if_true]

/-- A round in which nothing is. -/
theorem manageConnections_quiet {reported : List (Event β × Revents)}
    (hlen : reported.length ≤ pollSlots) (hnone : ∀ x ∈ reported, x.2.isZero = true) :
    (manageConnections (reported.map Prod.snd)).run ⟨reported.map Prod.fst, [], []⟩
      = .ok () ⟨reported.map Prod.fst, [], []⟩ := by
  have hnot : ¬ reported.length > pollSlots := by omega
  have hany : ((reported.map slotOf).any fun slot => !slot.revents.isZero) = false := by
    rw [List.any_eq_false]
    intro slot hslot
    obtain ⟨x, hx, rfl⟩ := List.mem_map.mp hslot
    simp [slotOf, hnone x hx]
  simp only [manageConnections, EStateM.run_bind, EStateM.run_get, List.length_map, hnot, if_false,
    fill_eq, hany, Bool.false_eq_true]
  rfl

theorem isZero_of_ready {x : Event β × Revents} (h : ready x) : x.2.isZero = false := by
  refine isZero_eq_false ?_
  simp only [ready] at h
  grind

/-- Without a clash the round conserves its events. -/
theorem conserves_of_noClash {reported : List (Event β × Revents)}
    (hlen : reported.length ≤ pollSlots) (hnodup : (reported.map sdOf).Nodup)
    (hreport : Reportable reported) (h : NoClash reported) : Conserves reported := by
  by_cases hsome : ∃ x ∈ reported, x.2.isZero = false
  · obtain ⟨r, hsweep, hswept⟩ : ∃ r, (sweep (reported.map slotOf) 0).run
        ⟨reported.map Prod.fst, [], []⟩ = .ok () r ∧ Swept reported r := by
      by_cases hready : ∃ x ∈ reported, ready x
      · obtain ⟨before, x, after, rfl, hbefore, hx⟩ := exists_first_ready hready
        refine sweep_one_ready hnodup hreport hbefore hx ?_
        intro a y z b heq hy
        subst heq
        exact h before x a y z b rfl hx hy
      · push Not at hready
        exact sweep_none_ready hnodup (by simpa using hready)
    obtain ⟨r', hremove, hconserved⟩ := hswept.conserved hnodup
    refine ⟨r', ?_, hconserved⟩
    rw [manageConnections_run hlen hsome, Call.run_bind_ok hsweep]
    exact hremove
  · push Not at hsome
    refine ⟨_, manageConnections_quiet hlen (by simpa using hsome), by simp, by simp, by simp⟩

/-- A round that lost an event has not conserved them. -/
theorem Lost.not_conserved {reported : List (Event β × Revents)} {x : Event β × Revents}
    (h : Lost x.1 r) (hx : x ∈ reported) : ¬ Conserved reported r := by
  intro hconserved
  have hplace := hconserved.places.mem_iff.mp (List.mem_map_of_mem (f := Prod.fst) hx)
  rw [List.mem_append, List.mem_append, List.mem_filter] at hplace
  rcases hplace with (hwant | hwork) | ⟨-, hdisc⟩
  · exact h.want hwant
  · exact h.work hwork
  · exact h.disconnected (by simpa using hdisc)

/-- A clash loses an event. -/
theorem not_conserves_of_clash {before between after : List (Event β × Revents)}
    {x y z : Event β × Revents} (hx : ready x) (hy : ready y)
    (hstate : z.1.client.state = y.1.client.state)
    (hlen : (before ++ x :: (between ++ y :: z :: after)).length ≤ pollSlots)
    (hnodup : ((before ++ x :: (between ++ y :: z :: after)).map sdOf).Nodup)
    (hreport : Reportable (before ++ x :: (between ++ y :: z :: after))) :
    ¬ Conserves (before ++ x :: (between ++ y :: z :: after)) := by
  -- the first ready slot may come before `x`
  have hready : ∃ v ∈ before ++ [x], ready v := ⟨x, by simp, hx⟩
  obtain ⟨first, w, rest, hsplit, hfirst, hw⟩ := exists_first_ready hready
  have hall : before ++ x :: (between ++ y :: z :: after)
      = first ++ w :: (rest ++ between ++ y :: z :: after) := by
    rw [List.append_cons, hsplit]
    simp
  rw [hall] at hlen hnodup hreport ⊢
  have hparts := hnodup
  rw [List.map_append, List.map_cons, List.nodup_append, List.nodup_cons] at hparts
  obtain ⟨-, ⟨hw_once, htail⟩, hfirst_once⟩ := hparts
  intro h
  obtain ⟨r, hrun, hconserved⟩ := h
  rw [manageConnections_run hlen ⟨w, by simp, isZero_of_ready hw⟩] at hrun
  cases hsweep : (sweep ((first ++ w :: (rest ++ between ++ y :: z :: after)).map slotOf) 0).run
      ⟨(first ++ w :: (rest ++ between ++ y :: z :: after)).map Prod.fst, [], []⟩ with
  | error e r₁ =>
      rw [Call.run_bind_error hsweep] at hrun
      cases hrun
  | ok _ r₁ =>
      rw [Call.run_bind_ok hsweep] at hrun
      rw [sweep_first_ready hnodup hreport hfirst hw] at hsweep
      have hlost : ∃ v ∈ rest ++ between ++ y :: z :: after, Lost v.1 r₁ := by
        refine sweep_clash hy hstate (rest ++ between) (drop_shifted _ _)
          (fun v hv => hreport v (List.mem_append_right _ (List.mem_cons_of_mem _ hv)))
          htail ?_ ?_ hsweep
        · rw [List.map_map]
          exact hnodup.sublist (((List.sublist_cons_self w _).append_left first).map sdOf)
        · intro v hv
          refine ⟨?_, ?_⟩
          · intro hmem
            refine hw_once (List.mem_map.mpr ⟨v, hv, ?_⟩)
            rw [sdOf, sdOf, List.mem_singleton.mp hmem]
          · intro hmem
            exact hfirst_once _ ((dropped_sublist first).subset hmem) _
              (List.mem_cons_of_mem _ (List.mem_map_of_mem hv)) rfl
      obtain ⟨v, hv, hlost⟩ := hlost
      exact (hlost.removeAll _ hrun).not_conserved
        (List.mem_append_right _ (List.mem_cons_of_mem _ hv)) hconserved

/--
**One round of the event loop conserves its events if and only if no ready slot behind
another ready one is followed by a slot of its own state.**
-/
theorem manageConnections_conserves_iff (reported : List (Event β × Revents))
    (hlen : reported.length ≤ pollSlots) (hnodup : (reported.map sdOf).Nodup)
    (hreport : Reportable reported) : Conserves reported ↔ NoClash reported := by
  constructor
  · intro h before x between y z after heq hx hy hstate
    subst heq
    exact not_conserves_of_clash hx hy hstate hlen hnodup hreport h
  · exact conserves_of_noClash hlen hnodup hreport

/-- A reader whose descriptor has data. -/
def readable (sd : Int) : Event Unit × Revents := (⟨⟨sd, .wantRead⟩, ()⟩, { pollin := true })

private theorem readable_reportable (sds : List Int) : Reportable (sds.map readable) := by
  intro x hx
  obtain ⟨sd, -, rfl⟩ := List.mem_map.mp hx
  exact ⟨fun _ => rfl, by simp [readable]⟩

/-- Two readers. -/
theorem conserves_iff_two_readers :
    Conserves [readable 4, readable 5] ↔ NoClash [readable 4, readable 5] :=
  manageConnections_conserves_iff [readable 4, readable 5] (by decide) (by decide)
    (readable_reportable [4, 5])

/-- Three readers with data: the third is handed over for the second, which is gone. -/
theorem manageConnections_loses_event :
    Reportable [readable 4, readable 5, readable 6] ∧
    (manageConnections [{ pollin := true }, { pollin := true }, { pollin := true }]).run
        ⟨[(readable 4).1, (readable 5).1, (readable 6).1], [], []⟩
      = .ok () ⟨[(readable 6).1], [(readable 4).1, (readable 6).1], []⟩ ∧
    ¬ Conserves [readable 4, readable 5, readable 6] := by
  have hrun : (manageConnections [{ pollin := true }, { pollin := true }, { pollin := true }]).run
        ⟨[(readable 4).1, (readable 5).1, (readable 6).1], [], []⟩
      = .ok () ⟨[(readable 6).1], [(readable 4).1, (readable 6).1], []⟩ := by decide
  refine ⟨readable_reportable [4, 5, 6], hrun, ?_⟩
  intro h
  obtain ⟨r, hrun', hconserved⟩ := h
  obtain rfl : r = ⟨[(readable 6).1], [(readable 4).1, (readable 6).1], []⟩ := by
    have hsame := hrun'.symm.trans hrun
    injection hsame
  have hmem := hconserved.places.mem_iff.mp (show (readable 5).1 ∈ _ by simp)
  exact absurd hmem (by decide)

end Technopark.EventLoop
