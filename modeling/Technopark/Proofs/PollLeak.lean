/-
When the poll engine loses a descriptor.

A `Tracked` engine carries a ledger of its client descriptors: an accept opens one and the
closes of the second loop close it.  The second loop queues a client for removal from four
branches.  Two of them, the failed read and the end of file, close the descriptor before
they queue it; the other two, `POLLHUP` and `POLLNVAL`, do not, and once the removal loop
has run nobody knows the descriptor any more.  `KeepsHold` says of a poll call that it
reports nothing that leads to these two branches.

Between the rounds the table and the ledger have the same descriptors.  In the second loop
the table has, besides, those that are queued, and in the removal loop those still to be
removed.  Descriptors may be accepted only between the rounds, so the slots are always
those of the round.
-/
import Technopark.Proofs.Poll

namespace Technopark.PollEngine

open Technopark.Ledger

/-! ### The ledger -/

/-- An engine, and what was opened and closed. -/
structure Tracked where
  engine : State
  ledger : List (Entry Int)

/-- Before the threads start. -/
def Tracked.start : Tracked := { engine := PollEngine.start, ledger := [] }

/-- The closes among the acts of the second loop. -/
def closings (acted : List Acted) : List (Entry Int) :=
  acted.filterMap fun a => if a.act = .close then some (.closed a.fd) else none

/-- What a step means for the ledger. -/
def entries (action : Action) (s t : State) : List (Entry Int) :=
  match action with
  | .accept sd => if 0 ≤ sd then [.opened sd] else []
  | .manage _ => closings (t.acted.drop s.acted.length)

/-- One step of either thread, entered into the ledger. -/
def track (action : Action) (s : Tracked) : Except Fault Tracked :=
  (step action s.engine).map fun t =>
    { engine := t, ledger := s.ledger ++ entries action s.engine t }

variable {s : Tracked}

/-! ### The property and the conditions -/

/-- The open client descriptors are those in the table, and each was closed at most once. -/
structure NoLeak (s : Tracked) : Prop where
  same : (s.engine.clients.map Client.sd).Perm (live s.ledger)
  proper : Proper s.ledger

/-- Accepts succeed with a descriptor that is not open, and only between the rounds. -/
def AcceptsBetween (s : Tracked) : Action → Prop
  | .accept sd => s.engine.pc = .head ∧ 0 ≤ sd ∧ sd ∉ live s.ledger
  | .manage _ => True

/-- The second loop queues the client without closing it. -/
def Revents.drops (v : Revents) : Bool := v.pollhup || (v.pollnval && !v.pollin && !v.pollout)

/-- `poll` reports `POLLHUP` for no client, and `POLLNVAL` only with `POLLIN` or `POLLOUT`. -/
def KeepsHold (s : Tracked) : Action → Prop
  | .accept _ => True
  | .manage answers => ∀ filled revents, s.engine.pc = .polling filled →
      answers.poll = some revents →
      ∀ i < s.engine.clients.length, Revents.drops (revents.getD i {}) = false

/-- There are more clients than slots in `fds`. -/
def Outgrown (s : Tracked) : Prop := pollSlots < s.engine.clients.length

/-! ### The invariant -/

/-- What holds at each point of the round. -/
def LedgerAt (s : Tracked) : Pc → Prop
  | .head => (s.engine.clients.map Client.sd).Perm (live s.ledger)
  | .fill i => (s.engine.clients.map Client.sd).Perm (live s.ledger) ∧
      i ≤ s.engine.clients.length ∧ s.engine.disconnected = [] ∧ ∀ j < i, Filled s.engine j
  | .polling filled => (s.engine.clients.map Client.sd).Perm (live s.ledger) ∧
      filled = s.engine.clients.length ∧ s.engine.disconnected = [] ∧
      ∀ j < filled, Filled s.engine j
  | .second i => (s.engine.clients.map Client.sd).Perm (live s.ledger ++ s.engine.disconnected) ∧
      (s.engine.clients.map Client.sd).Nodup ∧
      s.engine.disconnected.Sublist ((s.engine.clients.map Client.sd).take i) ∧
      ∀ j < s.engine.clients.length, Current s.engine j ∧
        ∀ slot, s.engine.fds j = some slot → Revents.drops slot.pollfd.revents = false
  | .remove left => (s.engine.clients.map Client.sd).Perm (live s.ledger ++ left)
  | .stopped => True

/-- The invariant of the tracked engine. -/
structure Tidy (s : Tracked) : Prop where
  proper : Proper s.ledger
  atPc : LedgerAt s s.engine.pc

theorem start_tidy : Tidy Tracked.start := ⟨Proper.nil, List.Perm.refl _⟩

theorem track_ok {action : Action} {t : State} (hrun : step action s.engine = .ok t) :
    track action s = .ok ⟨t, s.ledger ++ entries action s.engine t⟩ := by
  rw [track, hrun]
  rfl

/-- A step of the manager that acts on no descriptor. -/
theorem track_quiet {answers : Answers} {t : State}
    (hrun : step (.manage answers) s.engine = .ok t) (hacted : t.acted = s.engine.acted) :
    track (.manage answers) s = .ok ⟨t, s.ledger⟩ := by
  have hentries : entries (.manage answers) s.engine t = [] := by
    show closings (t.acted.drop s.engine.acted.length) = []
    rw [hacted, List.drop_length]
    rfl
  rw [track_ok hrun, hentries, List.append_nil]

/-- A client is accepted between the rounds. -/
theorem accept_tidy (h : Tidy s) {sd : Int} (hbetween : AcceptsBetween s (.accept sd)) :
    ∃ t, track (.accept sd) s = .ok t ∧ Tidy t := by
  obtain ⟨hpc, hsd, hfresh⟩ := hbetween
  have hrun : track (.accept sd) s
      = .ok ⟨{ s.engine with clients := s.engine.clients ++ [{ sd := sd }] },
        s.ledger ++ [.opened sd]⟩ := by
    rw [track_ok rfl]
    simp only [entries, if_pos hsd]
  have hat := h.atPc
  rw [hpc] at hat
  refine ⟨_, hrun, h.proper.concat hfresh, ?_⟩
  show LedgerAt _ s.engine.pc
  rw [hpc, LedgerAt, List.map_append, live_opened]
  exact List.Perm.append_right [sd] hat

/-! ### The second loop -/

/-- A visit closes what it queues, and queues no other descriptor than the slot's. -/
theorem visit_closings (s : State) (i : Nat) {fd : PollFd}
    (hkeeps : Revents.drops fd.revents = false) (client : Client) (r : Int) :
    ∃ acts lost, (visit s i fd client r).acted = s.acted ++ acts ∧
      closings acts = lost.map .closed ∧
      (visit s i fd client r).disconnected = s.disconnected ++ lost ∧
      (lost = [] ∨ lost = [fd.fd]) := by
  have hnone : ∃ acts lost, s.acted = s.acted ++ acts ∧ closings acts = lost.map .closed ∧
      s.disconnected = s.disconnected ++ lost ∧ (lost = [] ∨ lost = [fd.fd]) :=
    ⟨[], [], (List.append_nil _).symm, rfl, (List.append_nil _).symm, .inl rfl⟩
  have hgone : ∃ acts lost,
      (((s.act .read fd.fd client).act .close fd.fd client).act .queue fd.fd client).acted
        = s.acted ++ acts ∧ closings acts = lost.map .closed ∧
      (((s.act .read fd.fd client).act .close fd.fd client).act .queue fd.fd client).disconnected
        = s.disconnected ++ lost ∧ (lost = [] ∨ lost = [fd.fd]) := by
    refine ⟨[⟨.read, fd.fd, client.sd⟩, ⟨.close, fd.fd, client.sd⟩, ⟨.queue, fd.fd, client.sd⟩],
      [fd.fd], ?_, rfl, rfl, .inr rfl⟩
    simp [State.act]
  unfold visit
  split_ifs with hzero hhup hin hstate hneg hpos hout hstate' hnval
  · exact hnone
  · simp [Revents.drops, hhup] at hkeeps
  · exact hnone
  · exact hgone
  · exact ⟨[⟨.read, fd.fd, client.sd⟩], [], rfl, rfl, (List.append_nil _).symm, .inl rfl⟩
  · exact hgone
  · exact hnone
  · exact ⟨[⟨.write, fd.fd, client.sd⟩], [], rfl, rfl, (List.append_nil _).symm, .inl rfl⟩
  · simp [Revents.drops, hnval, hin, hout] at hkeeps
  · exact hnone

theorem not_mem_take_of_getElem? {l : List Int} (h : l.Nodup) {i : Nat} {a : Int}
    (hget : l[i]? = some a) : a ∉ l.take i := by
  have htake : (l.take i ++ [a]).Nodup := by
    have hsub := h.sublist (List.take_sublist (i + 1) l)
    rwa [List.take_add_one, hget] at hsub
  intro hmem
  exact (List.nodup_append.mp htake).2.2 a hmem a (List.mem_singleton_self a) rfl

/-- A descriptor goes from the open ones to the queue. -/
theorem close_queue_perm {held queue : List Int} {sd : Int} (h : sd ∈ held) :
    (held ++ queue).Perm (held.erase sd ++ (queue ++ [sd])) := by
  have hcons : (held ++ queue).Perm (sd :: held.erase sd ++ queue) :=
    (List.perm_cons_erase h).append_right queue
  refine hcons.trans ?_
  rw [← List.append_assoc]
  exact List.perm_append_singleton sd (held.erase sd ++ queue) |>.symm

/-- One iteration of the second loop. -/
theorem second_tidy (h : Tidy s) {i : Nat} (hpc : s.engine.pc = .second i) {client : Client}
    (hget : s.engine.clients[i]? = some client) (answers : Answers) :
    ∃ t, track (.manage answers) s = .ok t ∧ Tidy t := by
  have hat := h.atPc
  rw [hpc] at hat
  obtain ⟨hperm, hnodup, hqueued, hslots⟩ := hat
  have hi : i < s.engine.clients.length := (List.getElem?_eq_some_iff.mp hget).1
  obtain ⟨⟨slot, hslot, hround⟩, hkeeps⟩ := hslots i hi
  have hfd : slot.pollfd.fd = client.sd := (hslots i hi).1.fd_eq hget hslot
  have hvisited := visit_visited hget slot.pollfd answers.read
  obtain ⟨acts, lost, hacted, hclosings, hlost, hfew⟩ :=
    visit_closings s.engine i (hkeeps slot hslot) client answers.read
  have hrun : step (.manage answers) s.engine
      = .ok { visit s.engine i slot.pollfd client answers.read with pc := .second (i + 1) } := by
    simp only [step, manage, hpc, hget, hslot]
  have hentries : entries (.manage answers) s.engine
      { visit s.engine i slot.pollfd client answers.read with pc := .second (i + 1) }
      = lost.map .closed := by
    show closings ((visit s.engine i slot.pollfd client answers.read).acted.drop _) = _
    rw [hacted, List.drop_left, hclosings]
  have hsd : (s.engine.clients.map Client.sd)[i]? = some client.sd := by
    rw [List.getElem?_map, hget]
    rfl
  have hledger : Proper (s.ledger ++ lost.map .closed) ∧
      (s.engine.clients.map Client.sd).Perm
        (live (s.ledger ++ lost.map .closed) ++ (s.engine.disconnected ++ lost)) := by
    rcases hfew with hfew | hfew
    · subst hfew
      simpa using ⟨h.proper, hperm⟩
    · subst hfew
      -- a client that was queued came earlier in the table, so this one is open still
      have hopen : slot.pollfd.fd ∈ live s.ledger := by
        rw [hfd]
        have hmem := hperm.mem_iff.mp (List.mem_of_getElem? hsd)
        refine (List.mem_append.mp hmem).resolve_right fun hdisc => ?_
        exact not_mem_take_of_getElem? hnodup hsd (hqueued.subset hdisc)
      refine ⟨h.proper.concat hopen, hperm.trans ?_⟩
      rw [List.map_singleton, live_closed]
      exact close_queue_perm hopen
  have htrack := track_ok hrun
  rw [hentries] at htrack
  refine ⟨_, htrack, hledger.1, ?_, ?_, ?_, ?_⟩
  · show ((visit s.engine i slot.pollfd client answers.read).clients.map Client.sd).Perm
      (live (s.ledger ++ lost.map .closed) ++
        (visit s.engine i slot.pollfd client answers.read).disconnected)
    rw [hvisited.sds, hlost]
    exact hledger.2
  · show ((visit s.engine i slot.pollfd client answers.read).clients.map Client.sd).Nodup
    rw [hvisited.sds]
    exact hnodup
  · show (visit s.engine i slot.pollfd client answers.read).disconnected.Sublist
      (((visit s.engine i slot.pollfd client answers.read).clients.map Client.sd).take (i + 1))
    rw [hvisited.sds, hlost, List.take_add_one, hsd]
    refine hqueued.append ?_
    rcases hfew with hfew | hfew
    · rw [hfew]
      exact List.nil_sublist _
    · rw [hfew, hfd]
      exact List.Sublist.refl _
  · intro j hj
    have hlen : (visit s.engine i slot.pollfd client answers.read).clients.length
        = s.engine.clients.length := by
      simpa using congrArg List.length hvisited.sds
    obtain ⟨hcurrent, hkeeps⟩ := hslots j (by rw [← hlen]; exact hj)
    refine ⟨hcurrent.visited hvisited _, ?_⟩
    intro slot' hslot'
    exact hkeeps slot' (by rw [← hvisited.fds]; exact hslot')

/-! ### The steps and the runs -/

/-- The poll call. -/
theorem poll_tidy (h : Tidy s) {filled : Nat} (hpc : s.engine.pc = .polling filled)
    {answers : Answers} (hkeeps : KeepsHold s (.manage answers)) :
    ∃ t, track (.manage answers) s = .ok t ∧ Tidy t := by
  have hat := h.atPc
  rw [hpc] at hat
  obtain ⟨hperm, hfilled, hdisc, hslots⟩ := hat
  subst hfilled
  cases hpoll : answers.poll with
  | none =>
      have hrun : step (.manage answers) s.engine = .ok { s.engine with pc := .stopped } := by
        simp only [step, manage, hpc, hpoll]
      exact ⟨_, track_quiet hrun rfl, h.proper, trivial⟩
  | some revents =>
      by_cases hret : pollRet s.engine.clients.length revents = 0
      · have hrun : step (.manage answers) s.engine = .ok { s.engine with
            fds := report s.engine s.engine.clients.length revents, pc := .head } := by
          simp only [step, manage, hpc, hpoll, hret, if_true]
        exact ⟨_, track_quiet hrun rfl, h.proper, hperm⟩
      · have hrun : step (.manage answers) s.engine = .ok { s.engine with
            fds := report s.engine s.engine.clients.length revents, pc := .second 0 } := by
          simp only [step, manage, hpc, hpoll, hret, if_false]
        refine ⟨_, track_quiet hrun rfl, h.proper, ?_, ?_, ?_, ?_⟩
        · show (s.engine.clients.map Client.sd).Perm (live s.ledger ++ s.engine.disconnected)
          rw [hdisc, List.append_nil]
          exact hperm
        · exact hperm.nodup_iff.mpr h.proper.live_nodup
        · show s.engine.disconnected.Sublist _
          rw [hdisc]
          exact List.nil_sublist _
        · intro j hj
          refine ⟨Filled.reported hslots revents _ j hj, ?_⟩
          intro slot hslot
          have hj : j < s.engine.clients.length := hj
          obtain ⟨old, hold, -⟩ := hslots j hj
          simp only [report, hj, if_true, hold, Option.map_some, Option.some.injEq] at hslot
          rw [← hslot]
          exact hkeeps _ revents hpc hpoll j hj

/-- One pass of the removal loop. -/
theorem remove_tidy (h : Tidy s) {sd : Int} {left : List Int}
    (hpc : s.engine.pc = .remove (sd :: left)) (answers : Answers) :
    ∃ t, track (.manage answers) s = .ok t ∧ Tidy t := by
  have hat := h.atPc
  rw [hpc] at hat
  have hmem : sd ∈ s.engine.clients.map Client.sd := hat.mem_iff.mpr (by simp)
  obtain ⟨client, hclient, hsd⟩ := List.mem_map.mp hmem
  have hany : s.engine.clients.any (fun client => client.sd = sd) = true :=
    List.any_eq_true.mpr ⟨client, hclient, by simpa using hsd⟩
  have hrun : step (.manage answers) s.engine = .ok { s.engine with
      clients := s.engine.clients.eraseP fun client => client.sd = sd, pc := .remove left } := by
    simp only [step, manage, hpc, hany, if_true]
  refine ⟨_, track_quiet hrun rfl, h.proper, ?_⟩
  show ((s.engine.clients.eraseP fun client => client.sd = sd).map Client.sd).Perm
    (live s.ledger ++ left)
  rw [map_eraseP_key]
  have herase := hat.erase sd
  refine herase.trans ?_
  have hmiddle : (live s.ledger ++ sd :: left).Perm (sd :: (live s.ledger ++ left)) :=
    List.perm_middle
  simpa using hmiddle.erase sd

/-- A step keeps the ledger in order, or runs out of slots. -/
theorem track_tidy (action : Action) (s : Tracked) (h : Tidy s)
    (hguard : AcceptsBetween s action ∧ KeepsHold s action) :
    (∃ t, track action s = .ok t ∧ Tidy t) ∨
      track action s = .error (.undefined .outOfBounds) ∧ Outgrown s := by
  obtain ⟨hbetween, hkeeps⟩ := hguard
  cases action with
  | accept sd => exact .inl (accept_tidy h hbetween)
  | manage answers =>
      have hat := h.atPc
      cases hpc : s.engine.pc with
      | head =>
          rw [hpc] at hat
          by_cases hempty : s.engine.clients = []
          · have hrun : step (.manage answers) s.engine
                = .ok { s.engine with disconnected := [] } := by
              simp only [step, manage, hpc, if_pos hempty]
            refine .inl ⟨_, track_quiet hrun rfl, h.proper, ?_⟩
            show LedgerAt _ s.engine.pc
            rw [hpc]
            exact hat
          · have hrun : step (.manage answers) s.engine = .ok { s.engine with
                disconnected := [], pc := .fill 0, round := s.engine.round + 1 } := by
              simp only [step, manage, hpc, if_neg hempty]
            exact .inl ⟨_, track_quiet hrun rfl, h.proper, hat, Nat.zero_le _, rfl, by simp⟩
      | fill i =>
          rw [hpc] at hat
          obtain ⟨hperm, hle, hdisc, hslots⟩ := hat
          cases hget : s.engine.clients[i]? with
          | none =>
              have hrun : step (.manage answers) s.engine
                  = .ok { s.engine with pc := .polling i } := by
                simp only [step, manage, hpc, hget]
              have hall : i = s.engine.clients.length :=
                Nat.le_antisymm hle (List.getElem?_eq_none_iff.mp hget)
              exact .inl ⟨_, track_quiet hrun rfl, h.proper, hperm, hall, hdisc, hslots⟩
          | some client =>
              have hi : i < s.engine.clients.length := (List.getElem?_eq_some_iff.mp hget).1
              by_cases hroom : i < pollSlots
              · have hrun : step (.manage answers) s.engine = .ok { s.engine with
                    fds := Function.update s.engine.fds i
                      (some ⟨⟨client.sd, client.state.events, {}⟩, s.engine.round, 0⟩),
                    pc := .fill (i + 1) } := by
                  simp only [step, manage, hpc, hget, hroom, if_true]
                exact .inl ⟨_, track_quiet hrun rfl, h.proper, hperm, hi, hdisc,
                  Filled.slot hslots hget rfl _⟩
              · have hrun : step (.manage answers) s.engine
                    = .error (.undefined .outOfBounds) := by
                  simp only [step, manage, hpc, hget, hroom, if_false]
                have hfull : pollSlots ≤ i := Nat.le_of_not_lt hroom
                exact .inr ⟨by rw [track, hrun]; rfl, Nat.lt_of_le_of_lt hfull hi⟩
      | polling filled => exact .inl (poll_tidy h hpc hkeeps)
      | second i =>
          rw [hpc] at hat
          cases hget : s.engine.clients[i]? with
          | none =>
              have hrun : step (.manage answers) s.engine
                  = .ok { s.engine with pc := .remove s.engine.disconnected } := by
                simp only [step, manage, hpc, hget]
              exact .inl ⟨_, track_quiet hrun rfl, h.proper, hat.1⟩
          | some client => exact .inl (second_tidy h hpc hget answers)
      | remove left =>
          rw [hpc] at hat
          cases left with
          | nil =>
              have hrun : step (.manage answers) s.engine = .ok { s.engine with pc := .head } := by
                simp only [step, manage, hpc]
              exact .inl ⟨_, track_quiet hrun rfl, h.proper, by simpa [LedgerAt] using hat⟩
          | cons sd left => exact .inl (remove_tidy h hpc answers)
      | stopped =>
          have hrun : step (.manage answers) s.engine = .ok s.engine := by
            simp only [step, manage, hpc]
          exact .inl ⟨_, track_quiet hrun rfl, h⟩

/--
**As long as `poll` reports no hang-up and no invalid descriptor, the descriptors in the
table at every loop head are exactly the open ones**, however the clients come, read and
leave.  The one fault such a run can end in comes from a table that has outgrown `fds`.
-/
theorem pollEngine_leaks_nothing (actions : List Action)
    (hbetween : Guarded track AcceptsBetween Tracked.start actions)
    (hkeeps : Guarded track KeepsHold Tracked.start actions) :
    ∀ before after, actions = before ++ after →
      (∃ s, machineRun track Tracked.start before = .ok s ∧ (s.engine.pc = .head → NoLeak s)) ∨
        machineRun track Tracked.start before = .error (.undefined .outOfBounds) ∧
          Passes track Tracked.start before Outgrown := by
  intro before after heq
  subst heq
  have hguard := hbetween.of_append.and hkeeps.of_append
  refine (hguard.invariant_until track_tidy start_tidy).imp_left ?_
  intro hrun
  obtain ⟨s, hs, htidy⟩ := hrun
  refine ⟨s, hs, fun hpc => ⟨?_, htidy.proper⟩⟩
  have hat := htidy.atPc
  rw [hpc] at hat
  exact hat

/-! ### Two rounds -/

/-- One client, and the round in which `poll` reports `revents` for it and it is removed. -/
def oneClient (revents : Revents) : List Action :=
  [.accept 4, .manage {}, .manage {}, .manage {}, .manage { poll := some [revents] }, .manage {},
    .manage {}, .manage {}, .manage {}]

theorem oneClient_between (revents : Revents) (h : revents = { pollin := true } ∨
    revents = { pollhup := true }) :
    Guarded track AcceptsBetween Tracked.start (oneClient revents) := by
  rcases h with rfl | rfl <;>
    exact .cons ⟨rfl, by decide, by decide⟩ rfl (.cons trivial rfl (.cons trivial rfl
      (.cons trivial rfl (.cons trivial rfl (.cons trivial rfl (.cons trivial rfl
        (.cons trivial rfl (.cons trivial rfl .nil))))))))

/-- The end of file is read: the client is closed and removed. -/
theorem leaks_nothing_at_eof :
    ∃ s, machineRun track Tracked.start (oneClient { pollin := true }) = .ok s ∧
      s.engine.pc = .head ∧ NoLeak s := by
  have hquiet : ∀ {t : Tracked} {answers : Answers}, (∀ filled, t.engine.pc ≠ .polling filled) →
      KeepsHold t (.manage answers) :=
    fun hpc filled _ heq => absurd heq (hpc filled)
  have hkeeps : Guarded track KeepsHold Tracked.start (oneClient { pollin := true }) := by
    refine .cons trivial rfl (.cons (hquiet (by simp [Tracked.start, start])) rfl
      (.cons (hquiet (by simp)) rfl (.cons (hquiet (by simp)) rfl (.cons ?_ rfl
        (.cons (hquiet (by simp)) rfl (.cons (hquiet (by simp)) rfl (.cons (hquiet (by simp)) rfl
          (.cons (hquiet (by simp)) rfl .nil))))))))
    intro filled revents _ hpoll i hi
    obtain rfl := Option.some.inj hpoll
    obtain rfl : i = 0 := Nat.lt_one_iff.mp hi
    rfl
  obtain ⟨s, hrun, hpc⟩ : ∃ s, machineRun track Tracked.start (oneClient { pollin := true }) = .ok s
      ∧ s.engine.pc = .head := ⟨_, rfl, rfl⟩
  refine ⟨s, hrun, hpc, ?_⟩
  rcases pollEngine_leaks_nothing (oneClient { pollin := true }) (oneClient_between _ (.inl rfl))
    hkeeps (oneClient { pollin := true }) [] (by simp) with ⟨t, ht, hleak⟩ | ⟨hfault, -⟩
  · obtain rfl := Except.ok.inj (hrun.symm.trans ht)
    exact hleak hpc
  · rw [hrun] at hfault
    injection hfault

/-- The peer hangs up: the client is removed and its descriptor stays open. -/
theorem pollEngine_leaks_at_hangup :
    Guarded track AcceptsBetween Tracked.start (oneClient { pollhup := true }) ∧
      ∃ s, machineRun track Tracked.start (oneClient { pollhup := true }) = .ok s ∧
        s.engine.pc = .head ∧ s.engine.clients = [] ∧ live s.ledger = [4] ∧ ¬ NoLeak s := by
  refine ⟨oneClient_between _ (.inr rfl), _, rfl, rfl, rfl, rfl, ?_⟩
  intro h
  exact absurd h.same.length_eq (by decide)

end Technopark.PollEngine
