/-
The descriptors that the select engine hands to the `fd_set` operations.

Whatever `accept` returns is stored, and what is stored is used as a bit index in every round
after it: a failed accept stores `-1`, and a process with many files gets numbers that an
`fd_set` has no bit for.  Nothing else enters the table, so all indices are in range exactly
in the runs whose accepts are.

Nothing is assumed here about the descriptors being different.  `Headed` is all that a round
needs: the listener comes first, so it is served before anything is queued, and the removal
loop finds every descriptor that was queued.
-/
import Technopark.Proofs.Select
import Mathlib.Data.List.Perm.Subperm

namespace Technopark.SelectEngine

variable {listener : Int} {s t : State}

/-! ### What the log says -/

/-- `FD_SETSIZE`. -/
def fdSetsize : Int := 1024

/-- An `fd_set` has a bit for it. -/
def InFdSet (sd : Int) : Prop := 0 ≤ sd ∧ sd < fdSetsize

/-- The descriptors that were handed to `FD_SET`, `FD_ISSET` and `FD_CLR`. -/
def fdOps (log : List Event) : List Int :=
  log.filterMap fun
    | .fdSet sd => some sd
    | .fdIsSet sd => some sd
    | .fdClr sd => some sd
    | _ => none

/-- The bounds that were passed to `select`. -/
def bounds (log : List Event) : List Int :=
  log.filterMap fun
    | .select nfds => some nfds
    | _ => none

theorem fdOps_append (log more : List Event) : fdOps (log ++ more) = fdOps log ++ fdOps more :=
  List.filterMap_append

theorem bounds_append (log more : List Event) : bounds (log ++ more) = bounds log ++ bounds more :=
  List.filterMap_append

/-- The stored descriptors. -/
def State.stored (s : State) : List Int := s.clients.map Client.sd

/-- Every stored descriptor, and every one that was used as an index, is in range. -/
structure InRange (s : State) : Prop where
  stored : ∀ sd ∈ s.stored, InFdSet sd
  used : ∀ sd ∈ fdOps s.log, InFdSet sd

/-- The greatest of some descriptors. -/
def Greatest (sds : List Int) (m : Int) : Prop := m ∈ sds ∧ ∀ sd ∈ sds, sd ≤ m

/-- The listener is the first client. -/
def Headed (listener : Int) (s : State) : Prop := ∃ others, s.stored = listener :: others

theorem Headed.mem (h : Headed listener s) : listener ∈ s.stored := by
  obtain ⟨others, hothers⟩ := h
  rw [hothers]
  exact List.mem_cons_self

/-! ### The steps of a round -/

theorem foldl_fdmax_greatest (clients : List Client) (m : Int) :
    Greatest (m :: clients.map Client.sd)
      (clients.foldl (fun fdmax client => if client.sd > fdmax then client.sd else fdmax) m) := by
  induction clients generalizing m with
  | nil => exact ⟨List.mem_cons_self, by simp⟩
  | cons client clients ih =>
      obtain ⟨hmem, hle⟩ := ih (if client.sd > m then client.sd else m)
      rw [List.foldl_cons, List.map_cons]
      have hfirst := hle _ List.mem_cons_self
      have hboth : m ≤ (if client.sd > m then client.sd else m) ∧
          client.sd ≤ (if client.sd > m then client.sd else m) := by
        split <;> omega
      refine ⟨?_, ?_⟩
      · rcases List.mem_cons.mp hmem with heq | hmem
        · rw [heq]
          split
          · exact List.mem_cons_of_mem _ List.mem_cons_self
          · exact List.mem_cons_self
        · exact List.mem_cons_of_mem _ (List.mem_cons_of_mem _ hmem)
      · intro sd hsd
        rcases List.mem_cons.mp hsd with rfl | hsd
        · exact Int.le_trans hboth.1 hfirst
        · rcases List.mem_cons.mp hsd with rfl | hsd
          · exact Int.le_trans hboth.2 hfirst
          · exact hle sd (List.mem_cons_of_mem _ hsd)

/-- `fdmax` is the greatest stored descriptor. -/
theorem fdmax_greatest (h : Headed listener s) : Greatest s.stored (fdmax listener s.clients) := by
  obtain ⟨others, hothers⟩ := h
  obtain ⟨hmem, hle⟩ := foldl_fdmax_greatest s.clients listener
  refine ⟨?_, fun sd hsd => hle sd (List.mem_cons_of_mem _ hsd)⟩
  rcases List.mem_cons.mp hmem with heq | hmem
  · rw [fdmax, heq, hothers]
    exact List.mem_cons_self
  · exact hmem

theorem strays_unused (strays : List Stray) :
    fdOps (strays.map Event.stray) = [] ∧ bounds (strays.map Event.stray) = [] := by
  induction strays with
  | nil => exact ⟨rfl, rfl⟩
  | cons stray strays ih => exact ih

/-- Reading from a client uses no bit and queues nobody else. -/
theorem serve_unused (sd : Int) (result : ReadResult) (s : State) :
    ∃ events lost, serve sd result s = { s with
        disconnected := s.disconnected ++ lost, log := s.log ++ events } ∧
      lost.Sublist [sd] ∧ fdOps events = [] ∧ bounds events = [] := by
  obtain ⟨hops, hbounds⟩ := strays_unused (readText result.bytes).2
  by_cases hfail : result.r < 0
  · refine ⟨[.read sd result], [sd], ?_, List.Sublist.refl _, rfl, rfl⟩
    simp only [serve, if_pos hfail, State.note]
  · by_cases hzero : result.r = 0
    · refine ⟨[.read sd result] ++ (readText result.bytes).2.map .stray, [sd], ?_,
        List.Sublist.refl _, hops, hbounds⟩
      simp [serve, hzero, State.note]
    · have hpos : 0 < result.r := by omega
      refine ⟨[.read sd result] ++ ((readText result.bytes).2.map .stray ++
        [.wrote sd (echo ++ (readText result.bytes).1 ++ [10])]), [], ?_, List.nil_sublist _,
        ?_, ?_⟩
      · simp [serve, hzero, hfail, hpos, State.note]
      · rw [fdOps_append, fdOps_append, hops]
        rfl
      · rw [bounds_append, bounds_append, hbounds]
        rfl

/-- A sweep without the listener asks about the clients, and queues some of them. -/
theorem sweep_unused {readFds : List Int} (answers : Answers) (hquiet : listener ∉ readFds)
    (rest : List Client) : ∀ (i : Nat) (s : State),
      ∃ events lost, sweep listener readFds answers i rest s = { s with
          disconnected := s.disconnected ++ lost, log := s.log ++ events } ∧
        lost.Sublist (rest.map Client.sd) ∧ listener ∉ lost ∧
        fdOps events = rest.map Client.sd ∧ bounds events = [] := by
  induction rest with
  | nil =>
      intro i s
      exact ⟨[], [], by simp [sweep], List.nil_sublist _, List.not_mem_nil, rfl, rfl⟩
  | cons client rest ih =>
      intro i s
      by_cases hset : client.sd ∉ readFds
      · obtain ⟨events, lost, hsweep, hsub, hspared, hops, hbounds⟩ :=
          ih (i + 1) (s.note [.fdIsSet client.sd])
        refine ⟨.fdIsSet client.sd :: events, lost, ?_, hsub.cons _, hspared, ?_, hbounds⟩
        · rw [sweep, if_pos hset, hsweep]
          simp [State.note]
        · exact congrArg (client.sd :: ·) hops
      · have hother : client.sd ≠ listener := fun heq => hset (heq ▸ hquiet)
        obtain ⟨served, gone, hserve, hgone, hservedOps, hservedBounds⟩ :=
          serve_unused client.sd (answers.read i) (s.note [.fdIsSet client.sd])
        obtain ⟨events, lost, hsweep, hsub, hspared, hops, hbounds⟩ :=
          ih (i + 1) (serve client.sd (answers.read i) (s.note [.fdIsSet client.sd]))
        refine ⟨.fdIsSet client.sd :: (served ++ events), gone ++ lost, ?_, ?_, ?_, ?_, ?_⟩
        · rw [sweep, if_neg hset, if_neg hother, hsweep, hserve]
          simp [State.note]
        · exact hgone.append hsub
        · intro hmem
          rcases List.mem_append.mp hmem with hmem | hmem
          · exact hother (List.mem_singleton.mp (hgone.subset hmem)).symm
          · exact hspared hmem
        · show client.sd :: fdOps (served ++ events) = _
          rw [fdOps_append, hservedOps, hops]
          rfl
        · show bounds (served ++ events) = _
          rw [bounds_append, hservedBounds, hbounds]
          rfl

/-- The removal loop finds what it looks for and leaves the listener first. -/
theorem removeDisconnected_unused (left : List Int) :
    ∀ (s : State), left.Subperm s.stored → listener ∉ left → Headed listener s →
      ∃ t, removeDisconnected left s = .ok t ∧ Headed listener t ∧ t.stored ⊆ s.stored ∧
        ∃ events, t.log = s.log ++ events ∧ fdOps events = left ∧ bounds events = [] := by
  induction left with
  | nil =>
      intro s _ _ h
      exact ⟨s, rfl, h, List.Subset.refl _, [], (List.append_nil _).symm, rfl, rfl⟩
  | cons sd left ih =>
      intro s hleft hspared h
      obtain ⟨hne, hspared⟩ := not_or.mp (mt List.mem_cons.mpr hspared)
      have hsd : sd ∈ s.stored := hleft.subset List.mem_cons_self
      obtain ⟨client, hclient, hclientSd⟩ := List.mem_map.mp hsd
      have hany : s.clients.any (fun client => client.sd = sd) = true :=
        List.any_eq_true.mpr ⟨client, hclient, by simpa using hclientSd⟩
      let removed : State := { s with
        clients := s.clients.eraseP fun client => client.sd = sd,
        log := s.log ++ [.closed sd, .fdClr sd] }
      have herase : removed.stored = s.stored.erase sd := map_eraseP_key Client.sd s.clients sd
      have hrest : left.Subperm removed.stored := by
        rw [herase]
        have hboth := hleft.erase sd
        rwa [List.erase_cons_head] at hboth
      have hheaded : Headed listener removed := by
        obtain ⟨others, hothers⟩ := h
        refine ⟨others.erase sd, ?_⟩
        rw [herase, hothers, List.erase_cons_tail]
        simpa using hne
      obtain ⟨t, hrun, ht, hsub, events, hlog, hops, hbounds⟩ :=
        ih removed hrest hspared hheaded
      refine ⟨t, ?_, ht, ?_, .closed sd :: .fdClr sd :: events, ?_, ?_, hbounds⟩
      · rw [removeDisconnected, if_pos hany]
        exact hrun
      · intro sd' hsd'
        have hmem := hsub hsd'
        rw [herase] at hmem
        exact List.mem_of_mem_erase hmem
      · rw [hlog, List.append_assoc]
        rfl
      · exact congrArg (sd :: ·) hops

/-! ### Rounds -/

/-- The round accepts a connection. -/
def Accepts (listener : Int) (s : State) (answers : Answers) : Prop :=
  s.exited = false ∧ ∃ left, answers.select = some left ∧ listener ∈ left

/-- What a round does to the stored descriptors, and the descriptors it uses as indices. -/
structure Round (listener : Int) (answers : Answers) (s t : State) (events : List Event) :
    Prop where
  log : t.log = s.log ++ events
  headed : Headed listener t
  accepts : Accepts listener s answers → t.stored = s.stored ++ [answers.accept]
  others : ¬ Accepts listener s answers → t.stored ⊆ s.stored
  used : fdOps events ⊆ s.stored
  bounded : ∀ nfds ∈ bounds events, Greatest s.stored (nfds - 1)

theorem fdSets_used (sds : List Int) (nfds : Int) :
    fdOps (sds.map Event.fdSet ++ [.select nfds]) = sds ∧
      bounds (sds.map Event.fdSet ++ [.select nfds]) = [nfds] := by
  induction sds with
  | nil => exact ⟨rfl, rfl⟩
  | cons sd sds ih => exact ⟨congrArg (sd :: ·) ih.1, ih.2⟩

/-- The state after `select` was asked about the descriptors. -/
def asked (listener : Int) (s : State) : State :=
  { s with
    disconnected := []
    log := s.log ++ ((listener :: s.stored).map .fdSet ++
      [.select (fdmax listener s.clients + 1)]) }

/-- The state after `accept` has returned a number. -/
def accepted (listener : Int) (s : State) (sd : Int) : State :=
  { asked listener s with
    clients := s.clients ++ [{ sd := sd }]
    log := (asked listener s).log ++ [.fdIsSet listener, .accepted sd] }

theorem accepted_stored (sd : Int) : (accepted listener s sd).stored = s.stored ++ [sd] :=
  List.map_append

/-- Behind `select` a round uses stored descriptors as indices and nothing else. -/
theorem Round.of_asked {answers : Answers} {events : List Event} (h : Headed listener s)
    (hlog : t.log = (asked listener s).log ++ events) (hheaded : Headed listener t)
    (haccepts : Accepts listener s answers → t.stored = s.stored ++ [answers.accept])
    (hothers : ¬ Accepts listener s answers → t.stored ⊆ s.stored)
    (hused : fdOps events ⊆ s.stored) (hbounds : bounds events = []) :
    ∃ events, Round listener answers s t events := by
  obtain ⟨hops, hselect⟩ := fdSets_used (listener :: s.stored) (fdmax listener s.clients + 1)
  refine ⟨_, hlog.trans (List.append_assoc ..), hheaded, haccepts, hothers, ?_, ?_⟩
  · rw [fdOps_append, hops]
    refine List.append_subset.mpr ⟨List.cons_subset.mpr ⟨h.mem, List.Subset.refl _⟩, hused⟩
  · intro nfds hnfds
    rw [bounds_append, hselect, hbounds, List.append_nil, List.mem_singleton] at hnfds
    rw [hnfds, Int.add_sub_cancel]
    exact fdmax_greatest h

/-- The descriptors that `select` leaves in the set. -/
def readFds (listener : Int) (s : State) (left : List Int) : List Int :=
  (listener :: s.stored).filter (· ∈ left)

/-- A round whose `select` returns. -/
theorem round_select {answers : Answers} {left : List Int} (hexited : s.exited = false)
    (hselect : answers.select = some left) :
    round listener answers s
      = if readFds listener s left = [] then .ok (asked listener s)
        else
          removeDisconnected
            (sweep listener (readFds listener s left) answers 0 s.clients
              (asked listener s)).disconnected
            (sweep listener (readFds listener s left) answers 0 s.clients (asked listener s)) := by
  have hrunning : ¬ s.exited = true := by simp [hexited]
  rw [round, if_neg hrunning, hselect]
  rfl

/-- The listener is served first, and the accept ends the sweep. -/
theorem round_accepts (h : Headed listener s) {answers : Answers} {left : List Int}
    (hexited : s.exited = false) (hselect : answers.select = some left)
    (hmem : listener ∈ left) :
    round listener answers s = .ok (accepted listener s answers.accept) := by
  have hready : listener ∈ readFds listener s left :=
    List.mem_filter.mpr ⟨List.mem_cons_self, by simpa using hmem⟩
  have hsweep : sweep listener (readFds listener s left) answers 0 s.clients (asked listener s)
      = accepted listener s answers.accept := by
    obtain ⟨others, hothers⟩ := h
    obtain ⟨client, rest, hclients, hsd, -⟩ := List.map_eq_cons_iff.mp hothers
    rw [hclients, sweep, if_neg (not_not.mpr (hsd ▸ hready)), if_pos hsd, hsd]
    simp [State.note, accepted, asked, hclients]
  rw [round_select hexited hselect, if_neg (List.ne_nil_of_mem hready), hsweep]
  rfl

/-- The listener is not reported: the sweep reads, and what is gone is removed. -/
theorem round_reads (h : Headed listener s) {answers : Answers} {left : List Int}
    (hexited : s.exited = false) (hselect : answers.select = some left)
    (hmem : listener ∉ left) :
    ∃ t events, round listener answers s = .ok t ∧ t.log = (asked listener s).log ++ events ∧
      Headed listener t ∧ t.stored ⊆ s.stored ∧ fdOps events ⊆ s.stored ∧ bounds events = [] := by
  have hquiet : listener ∉ readFds listener s left := by
    intro hready
    exact hmem (by simpa using (List.mem_filter.mp hready).2)
  rw [round_select hexited hselect]
  by_cases hnobody : readFds listener s left = []
  · rw [if_pos hnobody]
    exact ⟨asked listener s, [], rfl, (List.append_nil _).symm, h, List.Subset.refl _,
      List.nil_subset _, rfl⟩
  · obtain ⟨swept, lost, hsweep, hsub, hspared, hops, hbounds⟩ :=
      sweep_unused answers hquiet s.clients 0 (asked listener s)
    rw [if_neg hnobody, hsweep]
    obtain ⟨t, hrun, ht, htsub, removed, hlog, hremoved, hremovedBounds⟩ :=
      removeDisconnected_unused lost { asked listener s with
        disconnected := (asked listener s).disconnected ++ lost
        log := (asked listener s).log ++ swept } hsub.subperm hspared h
    refine ⟨t, swept ++ removed, hrun, by rw [hlog, List.append_assoc], ht, htsub, ?_, ?_⟩
    · rw [fdOps_append, hops, hremoved]
      exact List.append_subset.mpr ⟨List.Subset.refl _, hsub.subset⟩
    · rw [bounds_append, hbounds, hremovedBounds]
      rfl

/-- **Every round is taken to its end.** -/
theorem round_runs (h : Headed listener s) (answers : Answers) :
    ∃ t events, round listener answers s = .ok t ∧ Round listener answers s t events := by
  by_cases hexited : s.exited = true
  · have hnot : ¬ Accepts listener s answers := by
      rintro ⟨hrunning, -⟩
      rw [hrunning] at hexited
      injection hexited
    exact ⟨s, [], by rw [round, if_pos hexited], ⟨(List.append_nil _).symm, h,
      fun haccepts => absurd haccepts hnot, fun _ => List.Subset.refl _, List.nil_subset _,
      by simp [bounds]⟩⟩
  have hrunning : s.exited = false := by simpa using hexited
  cases hselect : answers.select with
  | none =>
      have hnot : ¬ Accepts listener s answers := by
        rintro ⟨-, left, hsome, -⟩
        rw [hselect] at hsome
        injection hsome
      let left : State := { asked listener s with exited := true }
      obtain ⟨events, hround⟩ := Round.of_asked (t := left) h (List.append_nil _).symm h
        (fun haccepts => absurd haccepts hnot) (fun _ => List.Subset.refl _) (List.nil_subset _) rfl
      refine ⟨left, events, ?_, hround⟩
      rw [round, if_neg hexited, hselect]
      rfl
  | some left =>
      by_cases hmem : listener ∈ left
      · have haccepts : Accepts listener s answers := ⟨hrunning, left, hselect, hmem⟩
        have hheaded : Headed listener (accepted listener s answers.accept) := by
          obtain ⟨others, hothers⟩ := h
          exact ⟨others ++ [answers.accept], by rw [accepted_stored, hothers, List.cons_append]⟩
        have hused : fdOps [.fdIsSet listener, .accepted answers.accept] ⊆ s.stored :=
          List.cons_subset.mpr ⟨h.mem, List.nil_subset _⟩
        obtain ⟨events, hround⟩ := Round.of_asked h rfl hheaded
          (fun _ => accepted_stored answers.accept) (fun hnot => absurd haccepts hnot) hused rfl
        exact ⟨_, events, round_accepts h hrunning hselect hmem, hround⟩
      · have hnot : ¬ Accepts listener s answers := by
          rintro ⟨-, left', hsome, hmem'⟩
          rw [hselect] at hsome
          exact hmem (Option.some.inj hsome ▸ hmem')
        obtain ⟨t, events, hrun, hlog, ht, hsub, hused, hbounds⟩ :=
          round_reads h hrunning hselect hmem
        obtain ⟨events, hround⟩ := Round.of_asked h hlog ht
          (fun haccepts => absurd haccepts hnot) (fun _ => hsub) hused hbounds
        exact ⟨t, events, hrun, hround⟩

/-! ### Runs -/

/-- Should the round accept a connection, its descriptor fits into an `fd_set`. -/
def AcceptsInRange (listener : Int) (s : State) (answers : Answers) : Prop :=
  Accepts listener s answers → InFdSet answers.accept

/-- What the run stores and uses is in range, and every `select` is asked about all of it. -/
structure Watched (listener : Int) (rounds : List Answers) : Prop where
  inRange : Always (round listener) (start listener) rounds InRange
  bounded : ∀ before answers after s t, rounds = before ++ answers :: after →
    machineRun (round listener) (start listener) before = .ok s →
    round listener answers s = .ok t →
    ∃ events, t.log = s.log ++ events ∧ ∀ nfds ∈ bounds events, Greatest s.stored (nfds - 1)

/-- A round out of a state that is in range. -/
theorem Round.inRange_iff {answers : Answers} {events : List Event}
    (h : Round listener answers s t events) (hs : InRange s) :
    InRange t ↔ AcceptsInRange listener s answers := by
  have hused : ∀ sd ∈ fdOps t.log, InFdSet sd := by
    intro sd hsd
    rw [h.log, fdOps_append] at hsd
    rcases List.mem_append.mp hsd with hsd | hsd
    · exact hs.used sd hsd
    · exact hs.stored sd (h.used hsd)
  constructor
  · intro ht haccepts
    refine ht.stored _ ?_
    rw [h.accepts haccepts]
    exact List.mem_append_right _ List.mem_cons_self
  · intro hrange
    refine ⟨?_, hused⟩
    intro sd hsd
    by_cases haccepts : Accepts listener s answers
    · rw [h.accepts haccepts] at hsd
      rcases List.mem_append.mp hsd with hsd | hsd
      · exact hs.stored sd hsd
      · rw [List.mem_singleton.mp hsd]
        exact hrange haccepts
    · exact hs.stored sd (h.others haccepts hsd)

theorem start_headed (listener : Int) : Headed listener (start listener) := ⟨[], rfl⟩

theorem headed_step {answers : Answers} (h : Headed listener s)
    (hstep : round listener answers s = .ok t) : ∃ events, Round listener answers s t events := by
  obtain ⟨t', events, hrun, hround⟩ := round_runs h answers
  rw [hrun] at hstep
  exact ⟨events, Except.ok.inj hstep ▸ hround⟩

/-- The listener stays the first client of every run. -/
theorem always_headed (listener : Int) (rounds : List Answers) :
    Always (round listener) (start listener) rounds (Headed listener) := by
  refine Always.of_step ?_ (start_headed listener) rounds
  intro answers s t hs hstep
  obtain ⟨events, hround⟩ := headed_step hs hstep
  exact hround.headed

theorem start_inRange (listener : Int) : InRange (start listener) ↔ InFdSet listener := by
  constructor
  · intro h
    exact h.stored listener List.mem_cons_self
  · intro h
    refine ⟨?_, fun sd hsd => absurd hsd List.not_mem_nil⟩
    intro sd hsd
    rw [List.mem_singleton.mp hsd]
    exact h

/--
**The select engine stores and uses descriptors that fit into an `fd_set` in exactly the runs
whose listener and whose accepted descriptors do.**
-/
theorem selectEngine_in_range_iff (listener : Int) (rounds : List Answers) :
    Watched listener rounds ↔
      InFdSet listener ∧
        Guarded (round listener) (AcceptsInRange listener) (start listener) rounds := by
  have hheaded := always_headed listener rounds
  have hruns : InFdSet listener →
      (Always (round listener) (start listener) rounds (fun s => Headed listener s ∧ InRange s) ↔
        Guarded (round listener) (AcceptsInRange listener) (start listener) rounds) := by
    intro hlistener
    refine always_iff_guarded ?_ ?_ ⟨start_headed listener, (start_inRange listener).mpr hlistener⟩
      rounds
    · rintro answers s t ⟨hs, hrange⟩ hguard hstep
      obtain ⟨events, hround⟩ := headed_step hs hstep
      exact ⟨hround.headed, (hround.inRange_iff hrange).mpr hguard⟩
    · rintro answers s ⟨hs, hrange⟩ hguard
      obtain ⟨t, events, hrun, hround⟩ := round_runs hs answers
      exact ⟨t, hrun, fun ht => hguard ((hround.inRange_iff hrange).mp ht.2)⟩
  constructor
  · rintro ⟨hrange, -⟩
    have hlistener : InFdSet listener :=
      (start_inRange listener).mp (hrange [] rounds _ rfl rfl)
    refine ⟨hlistener, (hruns hlistener).mp ?_⟩
    intro before after t heq hrun
    exact ⟨hheaded before after t heq hrun, hrange before after t heq hrun⟩
  · rintro ⟨hlistener, hguarded⟩
    refine ⟨?_, ?_⟩
    · intro before after t heq hrun
      exact ((hruns hlistener).mpr hguarded before after t heq hrun).2
    · intro before answers after s t heq hrun hstep
      obtain ⟨events, hround⟩ := headed_step (hheaded before _ s heq hrun) hstep
      exact ⟨events, hround.log, hround.bounded⟩

/-- A failed accept, and a round after it. -/
def failedAccept : List Answers := [{ select := some [3], accept := -1 }, { select := some [] }]

/-- The second round hands `-1` to `FD_SET`. -/
theorem selectEngine_out_of_range :
    (∃ s, machineRun (round 3) (start 3) failedAccept = .ok s ∧
      -1 ∈ s.stored ∧ -1 ∈ fdOps s.log) ∧
    ¬ Watched 3 failedAccept := by
  have hrun : ∃ s, machineRun (round 3) (start 3) failedAccept = .ok s ∧
      -1 ∈ s.stored ∧ -1 ∈ fdOps s.log := ⟨_, rfl, by decide, by decide⟩
  refine ⟨hrun, ?_⟩
  rintro ⟨hrange, -⟩
  obtain ⟨s, hs, hstored, -⟩ := hrun
  have hneg := (hrange failedAccept [] s (List.append_nil _).symm hs).stored (-1) hstored
  exact absurd hneg.1 (by decide)

end Technopark.SelectEngine
