/-
The client table of the select engine over whole runs.

`Table` is what holds at every loop head: the listener first, the other entries exactly the
descriptors that were accepted and not closed, none of them twice.  The sweep keeps it: an
accepted descriptor is new, and a client that is gone is only queued.  The removal loop
keeps it too, one queued descriptor after another, since every queued descriptor is in the
table and is queued once: the queue is a sublist of the table's descriptors.

`SettlesIn` is what a round does about the clients that are gone: the descriptors it closes
are those whose read returned nothing or failed, in the same order, and they have left the
table when the round ends.
-/
import Technopark.Lib.Run
import Technopark.Net.Select

namespace Technopark.SelectEngine

open Technopark.Ledger

variable {listener : Int} {s : State}

/-! ### What the log says -/

/-- What an event means for the descriptors that are open. -/
def Event.entry : Event → Option (Entry Int)
  | .accepted sd => if 0 ≤ sd then some (.opened sd) else none
  | .closed sd => some (.closed sd)
  | _ => none

/-- The openings and closings in a log. -/
def ledger (log : List Event) : List (Entry Int) := log.filterMap Event.entry

/-- The descriptors whose read returned nothing or failed. -/
def gone (log : List Event) : List Int :=
  log.filterMap fun
    | .read sd result => if result.r ≤ 0 then some sd else none
    | _ => none

/-- The descriptors that were closed. -/
def closes (log : List Event) : List Int :=
  log.filterMap fun
    | .closed sd => some sd
    | _ => none

theorem ledger_append (log more : List Event) : ledger (log ++ more) = ledger log ++ ledger more :=
  List.filterMap_append

theorem gone_append (log more : List Event) : gone (log ++ more) = gone log ++ gone more :=
  List.filterMap_append

theorem closes_append (log more : List Event) : closes (log ++ more) = closes log ++ closes more :=
  List.filterMap_append

/-! ### What holds at the loop heads -/

/-- The client table is right. -/
structure Table (listener : Int) (s : State) : Prop where
  /-- `m_Clients[0]` is the listener, the rest are the open clients. -/
  clients : ∃ others, s.clients.map Client.sd = listener :: others ∧
    others.Perm (live (ledger s.log))
  distinct : (s.clients.map Client.sd).Nodup
  /-- Every descriptor that was closed was open. -/
  proper : Proper (ledger s.log)
  listenerOpen : Event.closed listener ∉ s.log

/-- What a round has closed are the clients that are gone, and they are out of the table. -/
def SettlesIn (s t : State) : Prop :=
  ∃ events, t.log = s.log ++ events ∧ closes events = gone events ∧ (gone events).Nodup ∧
    ∀ sd ∈ gone events, sd ∉ t.clients.map Client.sd

/-- What `accept` returns is a descriptor that is not open. -/
def Fresh (listener : Int) (s : State) (answers : Answers) : Prop :=
  0 ≤ answers.accept ∧ answers.accept ≠ listener ∧ answers.accept ∉ live (ledger s.log)

/-- Should `select` report the listener, `accept` succeeds with a descriptor that is not open. -/
def Accepting (listener : Int) (s : State) (answers : Answers) : Prop :=
  ∀ left, answers.select = some left → listener ∈ left → Fresh listener s answers

/-! ### The steps of a round -/

/-- Events that open and close nothing leave the table right. -/
theorem Table.quiet (h : Table listener s) {t : State} {events : List Event}
    (hclients : t.clients = s.clients) (hlog : t.log = s.log ++ events)
    (hledger : ledger events = []) : Table listener t := by
  have hsame : ledger t.log = ledger s.log := by rw [hlog, ledger_append, hledger, List.append_nil]
  refine ⟨?_, ?_, ?_, ?_⟩
  · rw [hclients, hsame]
    exact h.clients
  · rw [hclients]
    exact h.distinct
  · rw [hsame]
    exact h.proper
  · intro hmem
    rw [hlog] at hmem
    rcases List.mem_append.mp hmem with hmem | hmem
    · exact h.listenerOpen hmem
    · have hentry : Entry.closed listener ∈ ledger events :=
        List.mem_filterMap.mpr ⟨_, hmem, rfl⟩
      rw [hledger] at hentry
      exact absurd hentry List.not_mem_nil

theorem Fresh.quiet {answers : Answers} (h : Fresh listener s answers) {t : State}
    {events : List Event} (hlog : t.log = s.log ++ events) (hledger : ledger events = []) :
    Fresh listener t answers := by
  refine ⟨h.1, h.2.1, ?_⟩
  rw [hlog, ledger_append, hledger, List.append_nil]
  exact h.2.2

/-- An accepted descriptor joins the table. -/
theorem Table.accepted (h : Table listener s) {sd : Int} (hsd : 0 ≤ sd) (hne : sd ≠ listener)
    (hfresh : sd ∉ live (ledger s.log)) :
    Table listener { s with
      clients := s.clients ++ [{ sd := sd }], log := s.log ++ [.accepted sd] } := by
  obtain ⟨others, hothers, hperm⟩ := h.clients
  have hentry : ledger [Event.accepted sd] = [.opened sd] := by
    simp [ledger, Event.entry, hsd]
  have hnew : sd ∉ s.clients.map Client.sd := by
    intro hmem
    rw [hothers] at hmem
    rcases List.mem_cons.mp hmem with hmem | hmem
    · exact hne hmem
    · exact hfresh (hperm.mem_iff.mp hmem)
  refine ⟨⟨others ++ [sd], ?_, ?_⟩, ?_, ?_, ?_⟩
  · rw [List.map_append, hothers]
    rfl
  · rw [ledger_append, hentry, live_opened]
    exact hperm.append_right [sd]
  · rw [List.map_append]
    exact List.Nodup.append h.distinct (List.nodup_singleton sd)
      (List.disjoint_singleton.mpr hnew)
  · rw [ledger_append, hentry]
    exact h.proper.concat hfresh
  · simpa using h.listenerOpen

/-- One pass of the removal loop. -/
theorem Table.removed (h : Table listener s) {sd : Int} (hmem : sd ∈ s.clients.map Client.sd)
    (hne : sd ≠ listener) :
    Table listener { s with
      clients := s.clients.eraseP fun client => client.sd = sd,
      log := s.log ++ [.closed sd, .fdClr sd] } := by
  obtain ⟨others, hothers, hperm⟩ := h.clients
  have hclosed : sd ∈ others := by
    rw [hothers] at hmem
    exact (List.mem_cons.mp hmem).resolve_left hne
  have hentry : ledger [Event.closed sd, .fdClr sd] = [.closed sd] := rfl
  have herase : (s.clients.eraseP fun client => client.sd = sd).map Client.sd
      = listener :: others.erase sd := by
    rw [map_eraseP_key, hothers, List.erase_cons_tail (by simpa using hne.symm)]
  refine ⟨⟨others.erase sd, herase, ?_⟩, ?_, ?_, ?_⟩
  · rw [ledger_append, hentry, live_closed]
    exact hperm.erase sd
  · rw [map_eraseP_key]
    exact h.distinct.erase sd
  · rw [ledger_append, hentry]
    exact h.proper.concat (hperm.mem_iff.mp hclosed)
  · intro hlast
    rcases List.mem_append.mp hlast with hlast | hlast
    · exact h.listenerOpen hlast
    · simp [hne.symm] at hlast

/-- What the sweep has done with the clients it has walked over. -/
structure Swept (sds : List Int) (s t : State) (events : List Event) (lost : List Int) : Prop where
  log : t.log = s.log ++ events
  disconnected : t.disconnected = s.disconnected ++ lost
  gone : gone events = lost
  closes : closes events = []
  queued : lost.Sublist sds
  clients : ∃ new, t.clients = s.clients ++ new

theorem Swept.trans {sds more : List Int} {s t u : State} {events events' : List Event}
    {lost lost' : List Int} (h : Swept sds s t events lost) (h' : Swept more t u events' lost') :
    Swept (sds ++ more) s u (events ++ events') (lost ++ lost') := by
  refine ⟨?_, ?_, ?_, ?_, h.queued.append h'.queued, ?_⟩
  · rw [h'.log, h.log, List.append_assoc]
  · rw [h'.disconnected, h.disconnected, List.append_assoc]
  · rw [gone_append, h.gone, h'.gone]
  · rw [closes_append, h.closes, h'.closes]
    rfl
  · obtain ⟨new, hnew⟩ := h.clients
    obtain ⟨new', hnew'⟩ := h'.clients
    exact ⟨new ++ new', by rw [hnew', hnew, List.append_assoc]⟩

theorem strays_quiet (strays : List Stray) :
    gone (strays.map Event.stray) = [] ∧ closes (strays.map Event.stray) = [] ∧
      ledger (strays.map Event.stray) = [] := by
  induction strays with
  | nil => exact ⟨rfl, rfl, rfl⟩
  | cons stray strays ih => exact ih

/-- A client is asked about and read from. -/
theorem serve_swept (sd : Int) (result : ReadResult) (s : State) :
    ∃ events lost, Swept [sd] s (serve sd result s) events lost ∧ ledger events = [] ∧
      (serve sd result s).clients = s.clients := by
  obtain ⟨hgone, hcloses, hledger⟩ := strays_quiet (readText result.bytes).2
  by_cases hfail : result.r < 0
  · have hserve : serve sd result s = { s with
        disconnected := s.disconnected ++ [sd], log := s.log ++ [.read sd result] } := by
      simp only [serve, if_pos hfail, State.note]
    rw [hserve]
    refine ⟨[.read sd result], [sd], ⟨rfl, rfl, ?_, rfl, List.Sublist.refl _, [], ?_⟩, rfl, rfl⟩
    · simp [gone, Int.le_of_lt hfail]
    · rw [List.append_nil]
  · by_cases hzero : result.r = 0
    · have hserve : serve sd result s = { s with
          disconnected := s.disconnected ++ [sd],
          log := s.log ++ ([.read sd result] ++ (readText result.bytes).2.map .stray) } := by
        simp [serve, hzero, State.note]
      rw [hserve]
      refine ⟨_, [sd], ⟨rfl, rfl, ?_, hcloses, List.Sublist.refl _, [], ?_⟩, hledger, rfl⟩
      · rw [gone_append, hgone]
        simp [gone, hzero]
      · rw [List.append_nil]
    · have hpos : 0 < result.r := by omega
      have hserve : serve sd result s = { s with
          log := s.log ++ ([.read sd result] ++ ((readText result.bytes).2.map .stray ++
            [.wrote sd (echo ++ (readText result.bytes).1 ++ [10])])) } := by
        simp [serve, hzero, hfail, hpos, State.note]
      rw [hserve]
      refine ⟨_, [], ⟨rfl, ?_, ?_, ?_, List.nil_sublist _, [], ?_⟩, ?_, rfl⟩
      · rw [List.append_nil]
      · rw [gone_append, gone_append, hgone]
        simp [gone, hpos]
      · rw [closes_append, closes_append, hcloses]
        rfl
      · rw [List.append_nil]
      · rw [ledger_append, ledger_append, hledger]
        rfl

theorem asked_swept (sd : Int) (s : State) :
    Swept [] s (s.note [.fdIsSet sd]) [.fdIsSet sd] [] :=
  ⟨rfl, (List.append_nil _).symm, rfl, rfl, List.nil_sublist _, [], (List.append_nil _).symm⟩

/-- The sweep keeps the table and queues the clients that are gone. -/
theorem sweep_swept {readFds : List Int} {answers : Answers} (rest : List Client) :
    ∀ (i : Nat) {s : State}, Table listener s → (listener ∈ readFds → Fresh listener s answers) →
      ∃ events lost, listener ∉ lost ∧
        Swept (rest.map Client.sd) s (sweep listener readFds answers i rest s) events lost ∧
        Table listener (sweep listener readFds answers i rest s) := by
  induction rest with
  | nil =>
      intro i s h _
      exact ⟨[], [], List.not_mem_nil, ⟨(List.append_nil _).symm, (List.append_nil _).symm, rfl,
        rfl, List.nil_sublist _, [], (List.append_nil _).symm⟩, h⟩
  | cons client rest ih =>
      intro i s h hfresh
      have hasked : Table listener (s.note [.fdIsSet client.sd]) := h.quiet rfl rfl rfl
      have hfresh' : listener ∈ readFds → Fresh listener (s.note [.fdIsSet client.sd]) answers :=
        fun hmem => (hfresh hmem).quiet rfl rfl
      by_cases hset : client.sd ∉ readFds
      · rw [sweep, if_pos hset]
        obtain ⟨events, lost, hspared, hswept, htable⟩ := ih (i + 1) hasked hfresh'
        have hall := (asked_swept client.sd s).trans hswept
        exact ⟨_, _, hspared, { hall with queued := hswept.queued.cons _ }, htable⟩
      · by_cases hlistener : client.sd = listener
        · -- the accept ends the sweep, whatever is left of the clients
          rw [sweep, if_neg hset, if_pos hlistener]
          obtain ⟨hsd, hne, hnew⟩ := hfresh' (hlistener ▸ not_not.mp hset)
          refine ⟨[.fdIsSet client.sd] ++ [.accepted answers.accept], [], List.not_mem_nil, ⟨?_, ?_,
            rfl, rfl, List.nil_sublist _, _, rfl⟩,
            hasked.accepted hsd hne hnew⟩
          · exact List.append_assoc ..
          · rw [List.append_nil]
            rfl
        · rw [sweep, if_neg hset, if_neg hlistener]
          obtain ⟨events, lost, hserved, hledger, hclients⟩ :=
            serve_swept client.sd (answers.read i) (s.note [.fdIsSet client.sd])
          obtain ⟨more, later, hspared, hswept, htable⟩ := ih (i + 1)
            (hasked.quiet hclients hserved.log hledger)
            (fun hmem => (hfresh' hmem).quiet hserved.log hledger)
          refine ⟨_, lost ++ later, ?_, (asked_swept client.sd s).trans (hserved.trans hswept),
            htable⟩
          intro hmem
          rcases List.mem_append.mp hmem with hmem | hmem
          · exact hlistener (List.mem_singleton.mp (hserved.queued.subset hmem)).symm
          · exact hspared hmem

/-- The removal loop closes and removes what is queued, and its assertion holds. -/
theorem removeDisconnected_run (left : List Int) :
    ∀ {s : State}, Table listener s → left.Nodup → listener ∉ left →
      (∀ sd ∈ left, sd ∈ s.clients.map Client.sd) →
      ∃ t, removeDisconnected left s = .ok t ∧ Table listener t ∧
        t.log = s.log ++ left.flatMap (fun sd => [.closed sd, .fdClr sd]) ∧
        (t.clients.map Client.sd).Sublist (s.clients.map Client.sd) ∧
        ∀ sd ∈ left, sd ∉ t.clients.map Client.sd := by
  induction left with
  | nil =>
      intro s h _ _ _
      exact ⟨s, rfl, h, by simp, List.Sublist.refl _, by simp⟩
  | cons sd left ih =>
      intro s h hnodup hspared hmem
      rw [List.nodup_cons] at hnodup
      rw [List.mem_cons, not_or] at hspared
      have hsd : sd ∈ s.clients.map Client.sd := hmem sd (List.mem_cons_self ..)
      obtain ⟨client, hclient, hclientSd⟩ := List.mem_map.mp hsd
      have hany : s.clients.any (fun client => client.sd = sd) = true :=
        List.any_eq_true.mpr ⟨client, hclient, by simpa using hclientSd⟩
      have hstep : removeDisconnected (sd :: left) s = removeDisconnected left { s with
          clients := s.clients.eraseP fun client => client.sd = sd,
          log := s.log ++ [.closed sd, .fdClr sd] } := by
        rw [removeDisconnected, if_pos hany]
        rfl
      have herase : (s.clients.eraseP fun client => client.sd = sd).map Client.sd
          = (s.clients.map Client.sd).erase sd := map_eraseP_key Client.sd s.clients sd
      obtain ⟨t, hrun, htable, hlog, hsub, hout⟩ := ih
        (h.removed hsd (fun heq => hspared.1 heq.symm)) hnodup.2 hspared.2 (by
          intro sd' hsd'
          show sd' ∈ (s.clients.eraseP fun client => client.sd = sd).map Client.sd
          have hne : sd' ≠ sd := fun heq => hnodup.1 (heq ▸ hsd')
          rw [herase, List.mem_erase_of_ne hne]
          exact hmem sd' (List.mem_cons_of_mem _ hsd'))
      have hsub' : (t.clients.map Client.sd).Sublist ((s.clients.map Client.sd).erase sd) := by
        rw [← herase]
        exact hsub
      refine ⟨t, by rw [hstep, hrun], htable, ?_, hsub'.trans List.erase_sublist, ?_⟩
      · rw [hlog, List.flatMap_cons, List.append_assoc]
      · intro sd' hsd' hleft
        rcases List.mem_cons.mp hsd' with heq | hsd'
        · subst heq
          exact h.distinct.not_mem_erase (hsub'.subset hleft)
        · exact hout sd' hsd' hleft

/-! ### Rounds and runs -/

theorem fdSets_quiet (sds : List Int) (nfds : Int) :
    ledger (sds.map Event.fdSet ++ [.select nfds]) = [] ∧
      gone (sds.map Event.fdSet ++ [.select nfds]) = [] ∧
      closes (sds.map Event.fdSet ++ [.select nfds]) = [] := by
  induction sds with
  | nil => exact ⟨rfl, rfl, rfl⟩
  | cons sd sds ih => exact ih

theorem closes_removal (left : List Int) :
    closes (left.flatMap fun sd => [.closed sd, .fdClr sd]) = left ∧
      gone (left.flatMap fun sd => [.closed sd, .fdClr sd]) = [] := by
  induction left with
  | nil => exact ⟨rfl, rfl⟩
  | cons sd left ih =>
      rw [List.flatMap_cons, closes_append, gone_append, ih.1, ih.2]
      exact ⟨rfl, rfl⟩

/-- The sweep and the removal loop, one after the other. -/
theorem sweep_settles (h : Table listener s) {readFds : List Int} {answers : Answers}
    (hfresh : listener ∈ readFds → Fresh listener s answers) (hqueue : s.disconnected = []) :
    ∃ t, removeDisconnected (sweep listener readFds answers 0 s.clients s).disconnected
        (sweep listener readFds answers 0 s.clients s) = .ok t ∧
      Table listener t ∧ SettlesIn s t := by
  obtain ⟨events, lost, hspared, hswept, htable⟩ := sweep_swept s.clients 0 h hfresh
  have hnodup : lost.Nodup := h.distinct.sublist hswept.queued
  have hmem : ∀ sd ∈ lost,
      sd ∈ (sweep listener readFds answers 0 s.clients s).clients.map Client.sd := by
    intro sd hsd
    obtain ⟨new, hnew⟩ := hswept.clients
    rw [hnew, List.map_append]
    exact List.mem_append_left _ (hswept.queued.subset hsd)
  rw [hswept.disconnected, hqueue, List.nil_append]
  obtain ⟨t, hrun, htable', hlog, -, hout⟩ :=
    removeDisconnected_run lost htable hnodup hspared hmem
  obtain ⟨hcloses, hgone⟩ := closes_removal lost
  have hlost : gone (events ++ lost.flatMap fun sd => [.closed sd, .fdClr sd]) = lost := by
    rw [gone_append, hswept.gone, hgone, List.append_nil]
  refine ⟨t, hrun, htable', _, by rw [hlog, hswept.log, List.append_assoc], ?_, ?_, ?_⟩
  · rw [hlost, closes_append, hswept.closes, hcloses]
    rfl
  · rw [hlost]
    exact hnodup
  · rw [hlost]
    exact hout

/-- A round keeps the table and settles the clients that are gone. -/
theorem round_table (h : Table listener s) {answers : Answers}
    (haccept : Accepting listener s answers) :
    ∃ t, round listener answers s = .ok t ∧ Table listener t ∧ SettlesIn s t := by
  by_cases hexited : s.exited = true
  · exact ⟨s, by rw [round, if_pos hexited], h, [], (List.append_nil _).symm, rfl, List.nodup_nil,
      by simp [gone]⟩
  · let given := listener :: s.clients.map Client.sd
    let asked : State := { s with
      disconnected := [],
      log := s.log ++ (given.map .fdSet ++ [.select (fdmax listener s.clients + 1)]) }
    obtain ⟨hledger, hgone, hcloses⟩ := fdSets_quiet given (fdmax listener s.clients + 1)
    have hasked : Table listener asked := h.quiet rfl rfl hledger
    -- what is settled after the call of `select` is settled in the round
    have hsettles : ∀ t, SettlesIn asked t → SettlesIn s t := by
      intro t ht
      obtain ⟨events, hlog, hclosed, hnodup, hout⟩ := ht
      refine ⟨_, by rw [hlog, List.append_assoc], ?_⟩
      rw [closes_append, gone_append, hcloses, hgone]
      exact ⟨hclosed, hnodup, hout⟩
    cases hselect : answers.select with
    | none =>
        have hrun : round listener answers s = .ok { asked with exited := true } := by
          rw [round, if_neg hexited, hselect]
          rfl
        exact ⟨_, hrun, hasked.quiet rfl (List.append_nil _).symm rfl, hsettles _
          ⟨[], (List.append_nil _).symm, rfl, List.nodup_nil, by simp [gone]⟩⟩
    | some left =>
        by_cases hready : given.filter (· ∈ left) = []
        · have hrun : round listener answers s = .ok asked := by
            rw [round, if_neg hexited, hselect]
            exact if_pos hready
          exact ⟨_, hrun, hasked, hsettles _
            ⟨[], (List.append_nil _).symm, rfl, List.nodup_nil, by simp [gone]⟩⟩
        · have hfresh : listener ∈ given.filter (· ∈ left) → Fresh listener asked answers := by
            intro hmem
            have hleft : listener ∈ left := by simpa using (List.mem_filter.mp hmem).2
            exact (haccept left hselect hleft).quiet rfl hledger
          obtain ⟨t, ht, htable, hdone⟩ := sweep_settles hasked hfresh rfl
          refine ⟨t, ?_, htable, hsettles t hdone⟩
          rw [round, if_neg hexited, hselect]
          exact (if_neg hready).trans ht

theorem start_table (listener : Int) : Table listener (start listener) :=
  ⟨⟨[], rfl, List.Perm.refl _⟩, List.nodup_singleton listener, Proper.nil, List.not_mem_nil⟩

/--
**The client table of the select engine is right at every loop head**, its assertion
never fails, and every round closes and removes the clients that are gone, once.
-/
theorem selectEngine_keeps_table (listener : Int) (rounds : List Answers)
    (haccept : Guarded (round listener) (Accepting listener) (start listener) rounds) :
    (∃ s, machineRun (round listener) (start listener) rounds = .ok s ∧ Table listener s) ∧
      ∀ before answers after, rounds = before ++ answers :: after →
        ∃ s t, machineRun (round listener) (start listener) before = .ok s ∧ Table listener s ∧
          round listener answers s = .ok t ∧ SettlesIn s t := by
  have hstep : ∀ answers s, Table listener s → Accepting listener s answers →
      ∃ t, round listener answers s = .ok t ∧ Table listener t := by
    intro answers s hs hguard
    obtain ⟨t, hrun, htable, -⟩ := round_table hs hguard
    exact ⟨t, hrun, htable⟩
  refine ⟨haccept.invariant hstep (start_table listener), ?_⟩
  intro before answers after heq
  subst heq
  obtain ⟨s, hrun, htable⟩ := haccept.of_append.invariant hstep (start_table listener)
  obtain ⟨t, hround, -, hdone⟩ := round_table htable (haccept before answers after rfl s hrun)
  exact ⟨s, t, hrun, htable, hround, hdone⟩

/-- A client comes, leaves, and another one gets its number. -/
def reusedNumber : List Answers :=
  [{ select := some [3], accept := 5 }, { select := some [5], read := fun _ => .data [] },
    { select := some [3], accept := 5 }]

theorem selectEngine_reuses_number :
    ∃ s, machineRun (round 3) (start 3) reusedNumber = .ok s ∧ Table 3 s := by
  refine (selectEngine_keeps_table 3 reusedNumber ?_).1
  refine Guarded.cons (by unfold Accepting Fresh; decide) rfl ?_
  refine Guarded.cons (by unfold Accepting Fresh; decide) rfl ?_
  exact Guarded.cons (by unfold Accepting Fresh; decide) rfl Guarded.nil

end Technopark.SelectEngine
