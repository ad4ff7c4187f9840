/-
When the poll engine works on slots of the current round.

`m_Clients.size()` is read three times in a round, and between the end of the fill loop
and the end of the second loop it must not grow: a client that arrives there has no slot
of this round, and the second loop walks into whatever an earlier round, or nobody, left
in its place.  A round that polls nothing does no harm, since it never gets to the second
loop.  `Careful` is that condition on a single step.

The invariant follows the program counter.  `Filled` and `Current` speak about the
descriptors of the clients only, so they survive the changes of state the second loop
makes, and an append leaves them alone because it leaves the indices alone.  For the
removal loop it is enough that each descriptor is queued no more often than it is in the
table, which is kept by erasing and by appending.
-/
import Technopark.Lib.Ledger
import Technopark.Lib.Run
import Technopark.Net.Poll
import Mathlib.Data.List.Count

namespace Technopark.PollEngine

variable {s : State}

/-! ### The property and the condition -/

/-- Slot `i` was filled in this round from the client at index `i`. -/
def Filled (s : State) (i : Nat) : Prop :=
  ∃ slot, s.fds i = some slot ∧ slot.filledIn = s.round ∧
    (s.clients.map Client.sd)[i]? = some slot.pollfd.fd

/-- ... and this round's poll has reported on it. -/
def Current (s : State) (i : Nat) : Prop :=
  ∃ slot, s.fds i = some slot ∧ slot.filledIn = s.round ∧ slot.reportedIn = s.round ∧
    (s.clients.map Client.sd)[i]? = some slot.pollfd.fd

/-- The second loop works on the slots of its own round, and for the right clients. -/
structure NeverStale (s : State) : Prop where
  current : ∀ i, s.pc = .second i → i < s.clients.length → Current s i
  acted : ∀ a ∈ s.acted, a.fd = a.client

/--
No client arrives in the second loop, `poll` reports something only if none has arrived
since the fill loop, and the table has room in `fds`.
-/
def Careful (s : State) : Action → Prop
  | .accept _ => s.clients.length < pollSlots ∧ ∀ i, s.pc ≠ .second i
  | .manage answers => ∀ filled revents, s.pc = .polling filled → answers.poll = some revents →
      pollRet s.clients.length revents ≠ 0 → s.clients.length = filled

/-! ### The invariant -/

/-- What holds at each point of the round. -/
def AtPc (s : State) : Pc → Prop
  | .head => True
  | .fill i => i ≤ s.clients.length ∧ s.disconnected = [] ∧ ∀ j < i, Filled s j
  | .polling filled => filled ≤ s.clients.length ∧ s.disconnected = [] ∧ ∀ j < filled, Filled s j
  | .second i => i ≤ s.clients.length ∧
      s.disconnected.Sublist ((s.clients.map Client.sd).take i) ∧
      ∀ j < s.clients.length, Current s j
  | .remove left => ∀ sd, left.count sd ≤ (s.clients.map Client.sd).count sd
  | .stopped => True

/-- The invariant of the engine. -/
structure Inv (s : State) : Prop where
  room : s.clients.length ≤ pollSlots
  acted : ∀ a ∈ s.acted, a.fd = a.client
  atPc : AtPc s s.pc

theorem Inv.neverStale (h : Inv s) : NeverStale s := by
  refine ⟨?_, h.acted⟩
  intro i hpc hi
  have hat := h.atPc
  rw [hpc] at hat
  exact hat.2.2 i hi

theorem start_inv : Inv start := ⟨Nat.zero_le _, by simp [start], trivial⟩

theorem Filled.accept {i : Nat} (h : Filled s i) (client : Client) :
    Filled { s with clients := s.clients ++ [client] } i := by
  obtain ⟨slot, hfds, hround, hsd⟩ := h
  refine ⟨slot, hfds, hround, ?_⟩
  have hi := (List.getElem?_eq_some_iff.mp hsd).1
  rw [List.map_append, List.getElem?_append_left hi, hsd]

/-- An iteration of the fill loop fills one slot more. -/
theorem Filled.slot {i : Nat} (h : ∀ j < i, Filled s j) {client : Client}
    (hget : s.clients[i]? = some client) {pollfd : PollFd} (hfd : pollfd.fd = client.sd) (pc : Pc) :
    ∀ j < i + 1, Filled { s with
      fds := Function.update s.fds i (some ⟨pollfd, s.round, 0⟩), pc := pc } j := by
  intro j hj
  by_cases hji : j = i
  · subst hji
    refine ⟨_, Function.update_self .., rfl, ?_⟩
    show (s.clients.map Client.sd)[j]? = some pollfd.fd
    rw [List.getElem?_map, hget, hfd]
    rfl
  · obtain ⟨slot, hslot, hround, hsd⟩ := h j (by omega)
    exact ⟨slot, by rw [← hslot]; exact Function.update_of_ne hji .., hround, hsd⟩

/-- A poll call makes the filled slots current. -/
theorem Filled.reported (h : ∀ j < s.clients.length, Filled s j) (revents : List Revents)
    (pc : Pc) :
    ∀ j < s.clients.length, Current { s with
      fds := report s s.clients.length revents, pc := pc } j := by
  intro j hj
  obtain ⟨slot, hslot, hround, hsd⟩ := h j hj
  refine ⟨{ slot with
    pollfd := { slot.pollfd with revents := revents.getD j {} }, reportedIn := s.round },
    ?_, hround, rfl, hsd⟩
  simp [report, hj, hslot]

/-- The slot of an index is that of the client there. -/
theorem Current.fd_eq {i : Nat} (h : Current s i) {client : Client}
    (hget : s.clients[i]? = some client) {slot : Slot} (hslot : s.fds i = some slot) :
    slot.pollfd.fd = client.sd := by
  obtain ⟨slot', hslot', -, -, hsd⟩ := h
  rw [hslot] at hslot'
  obtain rfl : slot = slot' := Option.some.inj hslot'
  rw [List.getElem?_map, hget] at hsd
  exact (Option.some.inj hsd).symm

/-- The acceptor appends outside the second loop. -/
theorem accept_inv (h : Inv s) {sd : Int} (hcareful : Careful s (.accept sd)) :
    Inv { s with clients := s.clients ++ [{ sd := sd }] } := by
  obtain ⟨hroom, hpc⟩ := hcareful
  refine ⟨by rw [List.length_append, List.length_singleton]; omega, h.acted, ?_⟩
  have hat := h.atPc
  show AtPc _ s.pc
  cases hcase : s.pc with
  | head => trivial
  | fill i =>
      rw [hcase] at hat
      obtain ⟨hle, hdisc, hfilled⟩ := hat
      exact ⟨by simp; omega, hdisc, fun j hj => (hfilled j hj).accept _⟩
  | polling filled =>
      rw [hcase] at hat
      obtain ⟨hle, hdisc, hfilled⟩ := hat
      exact ⟨by simp; omega, hdisc, fun j hj => (hfilled j hj).accept _⟩
  | second i => exact absurd hcase (hpc i)
  | remove left =>
      rw [hcase] at hat
      intro d
      refine Nat.le_trans (hat d) ?_
      simp [List.count_append]
  | stopped => trivial

/-! ### The second loop -/

/-- What visiting a slot can change. -/
structure Visited (s s' : State) (fd : Int) (client : Client) : Prop where
  fds : s'.fds = s.fds
  round : s'.round = s.round
  sds : s'.clients.map Client.sd = s.clients.map Client.sd
  disconnected : s'.disconnected = s.disconnected ∨ s'.disconnected = s.disconnected ++ [fd]
  acted : ∀ a ∈ s'.acted, a ∈ s.acted ∨ a.fd = fd ∧ a.client = client.sd

namespace Visited

variable {s' : State} {fd : Int} {client : Client}

theorem refl (s : State) (fd : Int) (client : Client) : Visited s s fd client :=
  ⟨rfl, rfl, rfl, .inl rfl, fun _ ha => .inl ha⟩

private theorem acted_append (h : Visited s s' fd client) (act : Act) :
    ∀ a ∈ (s'.act act fd client).acted, a ∈ s.acted ∨ a.fd = fd ∧ a.client = client.sd := by
  intro a ha
  rcases List.mem_append.mp ha with ha | ha
  · exact h.acted a ha
  · rw [List.mem_singleton.mp ha]
    exact .inr ⟨rfl, rfl⟩

theorem act (h : Visited s s' fd client) {act : Act} (hact : act ≠ .queue) :
    Visited s (s'.act act fd client) fd client := by
  refine ⟨h.fds, h.round, h.sds, ?_, h.acted_append act⟩
  rw [State.act]
  simpa [hact] using h.disconnected

theorem queue (h : Visited s s' fd client) (hdisc : s'.disconnected = s.disconnected) :
    Visited s (s'.act .queue fd client) fd client := by
  refine ⟨h.fds, h.round, h.sds, .inr ?_, h.acted_append .queue⟩
  simp [State.act, hdisc]

theorem setState (h : Visited s s' fd client) {i : Nat} (hget : s'.clients[i]? = some client)
    (state : ClientState) : Visited s (s'.setState i client state) fd client := by
  have hsds : (s'.setState i client state).clients.map Client.sd = s'.clients.map Client.sd :=
    map_set_key Client.sd hget rfl
  exact ⟨h.fds, h.round, hsds.trans h.sds, h.disconnected, h.acted⟩

end Visited

/-- The branches of the second loop's body. -/
theorem visit_visited {i : Nat} {client : Client} (hget : s.clients[i]? = some client)
    (fd : PollFd) (r : Int) : Visited s (visit s i fd client r) fd.fd client := by
  have hnone := Visited.refl s fd.fd client
  have hread : Visited s (s.act .read fd.fd client) fd.fd client := hnone.act (by simp)
  unfold visit
  split_ifs
  · exact hnone
  · exact hnone.queue rfl
  · exact hnone
  · exact (hread.act (by simp)).queue rfl
  · exact hread.setState hget _
  · exact (hread.act (by simp)).queue rfl
  · exact hnone
  · exact (hnone.act (by simp)).setState hget _
  · exact hnone.queue rfl
  · exact hnone

theorem Current.visited {s' : State} {fd : Int} {client : Client} {j : Nat} (h : Current s j)
    (hvisited : Visited s s' fd client) (pc : Pc) : Current { s' with pc := pc } j := by
  obtain ⟨slot, hslot, hround, hreported, hsd⟩ := h
  refine ⟨slot, ?_, ?_, ?_, ?_⟩
  · show s'.fds j = some slot
    rw [hvisited.fds, hslot]
  · show slot.filledIn = s'.round
    rw [hvisited.round, hround]
  · show slot.reportedIn = s'.round
    rw [hvisited.round, hreported]
  · show (s'.clients.map Client.sd)[j]? = _
    rw [hvisited.sds, hsd]

/-- One iteration of the second loop. -/
theorem visit_inv (h : Inv s) {i : Nat} (hpc : s.pc = .second i) {client : Client}
    (hget : s.clients[i]? = some client) {slot : Slot} (hslot : s.fds i = some slot) (r : Int) :
    Inv { visit s i slot.pollfd client r with pc := .second (i + 1) } := by
  have hvisited := visit_visited hget slot.pollfd r
  have hat := h.atPc
  rw [hpc] at hat
  obtain ⟨-, hdisc, hcurrent⟩ := hat
  have hi : i < s.clients.length := (List.getElem?_eq_some_iff.mp hget).1
  have hlen : (visit s i slot.pollfd client r).clients.length = s.clients.length := by
    have := congrArg List.length hvisited.sds
    simpa using this
  have hsd : (s.clients.map Client.sd)[i]? = some client.sd := by rw [List.getElem?_map, hget]; rfl
  have hfd : slot.pollfd.fd = client.sd := (hcurrent i hi).fd_eq hget hslot
  refine ⟨by rw [hlen]; exact h.room, ?_, ?_, ?_, ?_⟩
  · intro a ha
    rcases hvisited.acted a ha with ha | ⟨hafd, haclient⟩
    · exact h.acted a ha
    · rw [hafd, haclient, hfd]
  · show i + 1 ≤ (visit s i slot.pollfd client r).clients.length
    omega
  · show (visit s i slot.pollfd client r).disconnected.Sublist
      (((visit s i slot.pollfd client r).clients.map Client.sd).take (i + 1))
    rw [hvisited.sds, List.take_add_one, hsd]
    rcases hvisited.disconnected with heq | heq
    · rw [heq]
      exact hdisc.trans (List.sublist_append_left _ _)
    · rw [heq, hfd]
      exact hdisc.append (List.Sublist.refl _)
  · intro j hj
    exact (hcurrent j (by rw [← hlen]; exact hj)).visited hvisited (.second (i + 1))

/-! ### The steps of the manager -/

/-- One iteration of the fill loop. -/
theorem fill_inv (h : Inv s) {i : Nat} (hpc : s.pc = .fill i) (answers : Answers) :
    ∃ t, manage answers s = .ok t ∧ Inv t := by
  have hat := h.atPc
  rw [hpc] at hat
  obtain ⟨hle, hdisc, hfilled⟩ := hat
  cases hget : s.clients[i]? with
  | none =>
      have hrun : manage answers s = .ok { s with pc := .polling i } := by
        simp only [manage, hpc, hget]
      exact ⟨_, hrun, h.room, h.acted, hle, hdisc, hfilled⟩
  | some client =>
      have hi : i < s.clients.length := (List.getElem?_eq_some_iff.mp hget).1
      have hroom : i < pollSlots := Nat.lt_of_lt_of_le hi h.room
      let pollfd : PollFd := { fd := client.sd, events := client.state.events, revents := {} }
      have hrun : manage answers s = .ok { s with
          fds := Function.update s.fds i (some ⟨pollfd, s.round, 0⟩), pc := .fill (i + 1) } := by
        simp only [manage, hpc, hget, hroom, if_true]
        rfl
      exact ⟨_, hrun, h.room, h.acted, hi, hdisc, Filled.slot hfilled hget rfl _⟩

/-- The poll call. -/
theorem poll_inv (h : Inv s) {filled : Nat} (hpc : s.pc = .polling filled) {answers : Answers}
    (hcareful : Careful s (.manage answers)) : ∃ t, manage answers s = .ok t ∧ Inv t := by
  have hat := h.atPc
  rw [hpc] at hat
  obtain ⟨hle, hdisc, hfilled⟩ := hat
  cases hpoll : answers.poll with
  | none =>
      have hrun : manage answers s = .ok { s with pc := .stopped } := by
        simp only [manage, hpc, hpoll]
      exact ⟨_, hrun, h.room, h.acted, trivial⟩
  | some revents =>
      by_cases hret : pollRet s.clients.length revents = 0
      · have hrun : manage answers s
            = .ok { s with fds := report s s.clients.length revents, pc := .head } := by
          simp only [manage, hpc, hpoll, hret, if_true]
        exact ⟨_, hrun, h.room, h.acted, trivial⟩
      · have hrun : manage answers s
            = .ok { s with fds := report s s.clients.length revents, pc := .second 0 } := by
          simp only [manage, hpc, hpoll, hret, if_false]
        have hlen := hcareful filled revents hpc hpoll hret
        subst hlen
        refine ⟨_, hrun, h.room, h.acted, Nat.zero_le _, ?_, Filled.reported hfilled revents _⟩
        show s.disconnected.Sublist _
        rw [hdisc]
        exact List.nil_sublist _

/-- The removal loop finds what it removes. -/
theorem remove_inv (h : Inv s) {sd : Int} {left : List Int} (hpc : s.pc = .remove (sd :: left))
    (answers : Answers) : ∃ t, manage answers s = .ok t ∧ Inv t := by
  have hat := h.atPc
  rw [hpc] at hat
  have hmem : sd ∈ s.clients.map Client.sd := by
    refine List.count_pos_iff.mp (Nat.lt_of_lt_of_le ?_ (hat sd))
    simp
  obtain ⟨client, hclient, hsd⟩ := List.mem_map.mp hmem
  have hany : s.clients.any (fun client => client.sd = sd) = true :=
    List.any_eq_true.mpr ⟨client, hclient, by simpa using hsd⟩
  have herase := map_eraseP_key Client.sd s.clients sd
  have hrun : manage answers s = .ok { s with
      clients := s.clients.eraseP fun client => client.sd = sd, pc := .remove left } := by
    simp only [manage, hpc, hany, if_true]
  refine ⟨_, hrun, ?_, h.acted, ?_⟩
  · exact Nat.le_trans (List.length_eraseP_le ..) h.room
  · intro d
    show left.count d ≤ ((s.clients.eraseP fun client => client.sd = sd).map Client.sd).count d
    have hcount := hat d
    rw [List.count_cons] at hcount
    rw [herase, List.count_erase]
    omega

/-- Every step of the manager keeps the invariant, and none of them faults. -/
theorem manage_inv (h : Inv s) {answers : Answers} (hcareful : Careful s (.manage answers)) :
    ∃ t, manage answers s = .ok t ∧ Inv t := by
  cases hpc : s.pc with
  | head =>
      by_cases hempty : s.clients = []
      · have hrun : manage answers s = .ok { s with disconnected := [] } := by
          simp only [manage, hpc, if_pos hempty]
        refine ⟨_, hrun, h.room, h.acted, ?_⟩
        show AtPc _ s.pc
        rw [hpc]
        trivial
      · have hrun : manage answers s
            = .ok { s with disconnected := [], pc := .fill 0, round := s.round + 1 } := by
          simp only [manage, hpc, if_neg hempty]
        exact ⟨_, hrun, h.room, h.acted, Nat.zero_le _, rfl, by simp⟩
  | fill i => exact fill_inv h hpc answers
  | polling filled => exact poll_inv h hpc hcareful
  | second i =>
      have hat := h.atPc
      rw [hpc] at hat
      obtain ⟨hle, hdisc, hcurrent⟩ := hat
      cases hget : s.clients[i]? with
      | none =>
          have hrun : manage answers s = .ok { s with pc := .remove s.disconnected } := by
            simp only [manage, hpc, hget]
          refine ⟨_, hrun, h.room, h.acted, ?_⟩
          intro d
          exact (hdisc.trans (List.take_sublist _ _)).count_le d
      | some client =>
          have hi : i < s.clients.length := (List.getElem?_eq_some_iff.mp hget).1
          obtain ⟨slot, hslot, -⟩ := hcurrent i hi
          exact ⟨_, by simp only [manage, hpc, hget, hslot],
            visit_inv h hpc hget hslot answers.read⟩
  | remove left =>
      cases left with
      | nil =>
          have hrun : manage answers s = .ok { s with pc := .head } := by simp only [manage, hpc]
          exact ⟨_, hrun, h.room, h.acted, trivial⟩
      | cons sd left => exact remove_inv h hpc answers
  | stopped => exact ⟨s, by simp only [manage, hpc], h⟩

theorem step_inv (action : Action) (s : State) (h : Inv s) (hcareful : Careful s action) :
    ∃ t, step action s = .ok t ∧ Inv t := by
  cases action with
  | accept sd => exact ⟨_, rfl, accept_inv h hcareful⟩
  | manage answers => exact manage_inv h hcareful

/--
**In every interleaving whose steps are careful, every state reached works on slots of
its own round, for the clients they were filled from, and no step faults.**
-/
theorem pollEngine_neverStale (actions : List Action)
    (hcareful : Guarded step Careful start actions) :
    ∀ before after, actions = before ++ after →
      ∃ s, machineRun step start before = .ok s ∧ NeverStale s := by
  intro before after heq
  subst heq
  obtain ⟨s, hrun, hinv⟩ := hcareful.of_append.invariant step_inv start_inv
  exact ⟨s, hrun, hinv.neverStale⟩

/-- One client, and a round up to the point where it has been read. -/
theorem neverStale_one_client :
    ∃ s, machineRun step start [.accept 4, .manage {}, .manage {}, .manage {},
        .manage { poll := some [{ pollin := true }] }, .manage { read := 1 }] = .ok s ∧
      NeverStale s := by
  have hquiet : ∀ {t : State} {answers : Answers}, (∀ filled, t.pc ≠ .polling filled) →
      Careful t (.manage answers) :=
    fun hpc filled _ heq => absurd heq (hpc filled)
  refine pollEngine_neverStale [.accept 4, .manage {}, .manage {}, .manage {},
    .manage { poll := some [{ pollin := true }] }, .manage { read := 1 }] ?_ _ [] (by simp)
  refine .cons ⟨by decide, by simp [start]⟩ rfl (.cons (hquiet (by simp [start])) rfl
    (.cons (hquiet (by simp)) rfl (.cons (hquiet (by simp)) rfl
      (.cons ?_ rfl (.cons (hquiet (by simp)) rfl .nil)))))
  intro filled revents hpc _ _
  injection hpc

/--
Two clients, of which the second hangs up in the first round; in the second round a
third one arrives between the poll and the second loop.
-/
def staleActions : List Action :=
  [.accept 4, .accept 5, .manage {}, .manage {}, .manage {}, .manage {},
    .manage { poll := some [{}, { pollhup := true }] }, .manage {}, .manage {}, .manage {},
    .manage {}, .manage {},
    .manage {}, .manage {}, .manage {}, .manage { poll := some [{ pollin := true }] },
    .accept 6, .manage { read := 1 }]

/-- The second loop is at the third client, with the slot of the second one. -/
theorem pollEngine_reads_stale_slot :
    (∃ s, machineRun step start staleActions = .ok s ∧ s.pc = .second 1 ∧ s.round = 2 ∧
      s.clients = [⟨4, .wantWrite⟩, ⟨6, .wantRead⟩] ∧
      s.fds 1 = some ⟨⟨5, .pollin, { pollhup := true }⟩, 1, 1⟩ ∧ ¬ NeverStale s) ∧
    machineRun step start (staleActions ++ [.manage {}, .manage {}, .manage {}])
      = .error .assertion := by
  refine ⟨⟨_, rfl, rfl, rfl, rfl, rfl, ?_⟩, rfl⟩
  intro h
  obtain ⟨slot, hslot, hround, -⟩ := h.current 1 rfl (by decide)
  obtain rfl := Option.some.inj hslot
  exact absurd hround (by decide)

end Technopark.PollEngine
