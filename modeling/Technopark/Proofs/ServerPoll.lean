/-
When the table of the poll demo server stays valid.

A client whose read fails or ends is closed and stays in the table, and nothing looks at the
size of the table before it grows.  `Served` is the condition on a round that rules both
out: every client that is read from has something to say, and a connection is accepted only
while there is room.

An accept is made at index 0 and nowhere else, because the listener is first and no other
entry has its number.  The entry that joins the table has nothing to report, so the rest of
the walk finds what the poll call has reported, or nothing (`Reported`).
-/
import Technopark.Lib.Ledger
import Technopark.Net.ServerPoll
import Mathlib.Data.List.Nodup
import Mathlib.Tactic.SplitIfs

namespace Technopark.ServerPoll

variable {listener : Int} {s : State} {answers : Answers} {revents : List Revents}

/-! ### The property and the condition -/

/-- The table is valid. -/
structure Valid (listener : Int) (s : State) : Prop where
  size : s.fds.length ≤ pollSize
  first : (s.fds.map PollFd.fd).head? = some listener
  distinct : (s.fds.map PollFd.fd).Nodup
  isOpen : ∀ sd ∈ s.fds.map PollFd.fd, sd ∈ s.held

/-- The lowest number that is not open. -/
def LowestFree (held : List Int) (sd : Int) : Prop :=
  0 ≤ sd ∧ sd ∉ held ∧ ∀ n, 0 ≤ n → n < sd → n ∈ held

/-- `accept` fails or returns the lowest free number. -/
def Accepting (s : State) (answers : Answers) : Prop :=
  0 ≤ answers.accept → LowestFree s.held answers.accept

/-- The table has room for whoever is accepted, and every client that is read from sends. -/
def Served (s : State) (answers : Answers) : Prop :=
  ∀ revents, answers.poll = some revents →
    ((revents.getD 0 {}).isZero = false → 0 ≤ answers.accept → s.fds.length < pollSize) ∧
    ∀ i < s.fds.length, 0 < i → (revents.getD i {}).pollhup = false →
      (revents.getD i {}).pollin = true → 0 < answers.read i

/-! ### One entry -/

/-- Changing what an entry waits for leaves the table valid. -/
theorem Valid.set (h : Valid listener s) {i : Nat} {slot : PollFd} (hget : s.fds[i]? = some slot)
    {new : PollFd} (hfd : new.fd = slot.fd) : Valid listener { s with fds := s.fds.set i new } := by
  have hsame := map_set_key PollFd.fd hget hfd
  refine ⟨?_, ?_, ?_, ?_⟩
  · show (s.fds.set i new).length ≤ pollSize
    rw [List.length_set]
    exact h.size
  · show ((s.fds.set i new).map PollFd.fd).head? = some listener
    rw [hsame]
    exact h.first
  · show ((s.fds.set i new).map PollFd.fd).Nodup
    rw [hsame]
    exact h.distinct
  · show ∀ sd ∈ (s.fds.set i new).map PollFd.fd, sd ∈ s.held
    rw [hsame]
    exact h.isOpen

/-- A connection joins a table that has room. -/
theorem Valid.accept (h : Valid listener s) {sd : Int} (hroom : s.fds.length < pollSize)
    (hfree : sd ∉ s.held) (stopped : Bool) :
    Valid listener { fds := s.fds ++ [{ fd := sd, events := .pollin, revents := {} }],
                     held := s.held ++ [sd], stopped := stopped } := by
  have hnew : sd ∉ s.fds.map PollFd.fd := fun hmem => hfree (h.isOpen sd hmem)
  refine ⟨?_, ?_, ?_, ?_⟩
  · rw [List.length_append]
    exact hroom
  · rw [List.map_append, List.head?_append, h.first]
    rfl
  · rw [List.map_append]
    exact List.Nodup.append h.distinct (List.nodup_singleton sd) (List.disjoint_singleton.mpr hnew)
  · intro n hn
    rw [List.map_append, List.mem_append] at hn
    exact List.mem_append.mpr (hn.imp_left (h.isOpen n))

/-- Entries from index `i` on have what the poll call has reported, or nothing. -/
def Reported (revents : List Revents) (size i : Nat) (s : State) : Prop :=
  ∀ j slot, i ≤ j → s.fds[j]? = some slot → slot.revents.isZero = false →
    j < size ∧ slot.revents = revents.getD j {}

theorem Reported.set {size i : Nat} (h : Reported revents size i s) (new : PollFd) :
    Reported revents size (i + 1) { s with fds := s.fds.set i new } := by
  intro j slot hj hget hzero
  have hne : i ≠ j := by omega
  have hget : (s.fds.set i new)[j]? = some slot := hget
  rw [List.getElem?_set_ne hne] at hget
  exact h j slot (by omega) hget hzero

theorem Reported.next {size i : Nat} (h : Reported revents size i s) :
    Reported revents size (i + 1) s := fun j slot hj => h j slot (by omega)

/-- Serving a client. -/
theorem serve_valid (h : Valid listener s) {size i : Nat} (hreported : Reported revents size i s)
    {slot : PollFd} (hget : s.fds[i]? = some slot) {r : Int}
    (hread : slot.revents.pollhup = false → slot.revents.pollin = true → 0 < r) :
    Valid listener (serve i slot r s) ∧ Reported revents size (i + 1) (serve i slot r s) := by
  unfold serve
  split_ifs with hhup hin hneg hzero hout
  · exact ⟨h, hreported.next⟩
  · have := hread (Bool.not_eq_true _ ▸ hhup) hin
    omega
  · have := hread (Bool.not_eq_true _ ▸ hhup) hin
    omega
  · exact ⟨h.set hget rfl, hreported.set _⟩
  · exact ⟨h.set hget rfl, hreported.set _⟩
  · exact ⟨h, hreported.next⟩

/-- The entries behind the first are not the listener. -/
theorem Valid.ne_listener (h : Valid listener s) {i : Nat} {slot : PollFd} (hi : 0 < i)
    (hget : s.fds[i]? = some slot) : slot.fd ≠ listener := by
  cases hfds : s.fds with
  | nil => simp [hfds] at hget
  | cons first rest =>
      have hfirst := h.first
      have hnodup := h.distinct
      rw [hfds, List.map_cons] at hfirst hnodup
      obtain ⟨i, rfl⟩ := Nat.exists_eq_succ_of_ne_zero (Nat.ne_of_gt hi)
      rw [hfds, List.getElem?_cons_succ] at hget
      intro heq
      refine (List.nodup_cons.mp hnodup).1 ?_
      rw [Option.some.inj hfirst, ← heq]
      exact List.mem_map_of_mem (List.mem_of_getElem? hget)

theorem visit_eq {i : Nat} {slot : PollFd} (hget : s.fds[i]? = some slot) :
    visit listener answers i s
      = if s.stopped ∨ slot.revents.isZero then .ok s
        else if slot.fd = listener then acceptClient answers s
        else .ok (serve i slot (answers.read i) s) := by
  rw [visit, hget]

theorem walk_succ {i : Nat} {t : State} (h : visit listener answers i s = .ok t) (left : Nat) :
    walk listener answers (left + 1) i s = walk listener answers left (i + 1) t := by
  rw [walk, h]
  rfl

/-- The walk of a round. -/
theorem walk_start (listener : Int) (answers : Answers) (s : State) :
    walk listener answers pollSize 0 s
      = (visit listener answers 0 s >>= walk listener answers 31 1) := rfl

/-- The walk behind the listener. -/
theorem walk_valid {size : Nat} (hread : ∀ i < size, 0 < i → (revents.getD i {}).pollhup = false →
    (revents.getD i {}).pollin = true → 0 < answers.read i) (left : Nat) :
    ∀ {i : Nat} {s : State}, 0 < i → Valid listener s → Reported revents size i s →
      ∃ t, walk listener answers left i s = .ok t ∧ Valid listener t := by
  induction left with
  | zero => intro i s _ h _; exact ⟨s, rfl, h⟩
  | succ left ih =>
      intro i s hi h hreported
      have hstep : ∃ t, visit listener answers i s = .ok t ∧ Valid listener t ∧
          Reported revents size (i + 1) t := by
        cases hget : s.fds[i]? with
        | none => exact ⟨s, by rw [visit, hget], h, hreported.next⟩
        | some slot =>
            by_cases hidle : s.stopped = true ∨ slot.revents.isZero = true
            · exact ⟨s, by rw [visit_eq hget, if_pos hidle], h, hreported.next⟩
            · have hzero : slot.revents.isZero = false := by
                simpa using fun hz => hidle (.inr hz)
              obtain ⟨hsize, hrevents⟩ := hreported i slot (Nat.le_refl i) hget hzero
              have hserved := serve_valid h hreported hget (r := answers.read i) (by
                rw [hrevents]
                exact hread i hsize hi)
              refine ⟨serve i slot (answers.read i) s, ?_, hserved⟩
              rw [visit_eq hget, if_neg hidle, if_neg (h.ne_listener hi hget)]
      obtain ⟨t, ht, hvalid, hnext⟩ := hstep
      obtain ⟨u, hu, hlast⟩ := ih (by omega) hvalid hnext
      exact ⟨u, by rw [walk_succ ht, hu], hlast⟩

/-! ### Rounds and runs -/

/-- The walk at the listener. -/
theorem visit_first (h : Valid listener s) {size : Nat} (hreported : Reported revents size 0 s)
    (haccept : Accepting s answers) (hroom : (revents.getD 0 {}).isZero = false →
      0 ≤ answers.accept → s.fds.length < pollSize) :
    ∃ t, visit listener answers 0 s = .ok t ∧ Valid listener t ∧ Reported revents size 1 t := by
  cases hfds : s.fds with
  | nil =>
      have hfirst := h.first
      rw [hfds] at hfirst
      exact absurd hfirst (by simp)
  | cons slot rest =>
      have hget : s.fds[0]? = some slot := by rw [hfds]; rfl
      have hfd : slot.fd = listener := by
        have hfirst := h.first
        rw [hfds] at hfirst
        exact Option.some.inj hfirst
      rw [visit_eq hget]
      by_cases hidle : s.stopped = true ∨ slot.revents.isZero = true
      · exact ⟨s, if_pos hidle, h, hreported.next⟩
      · have hzero : slot.revents.isZero = false := by simpa using fun hz => hidle (.inr hz)
        obtain ⟨-, hrevents⟩ := hreported 0 slot (Nat.le_refl 0) hget hzero
        rw [hrevents] at hzero
        rw [if_neg hidle, if_pos hfd]
        unfold acceptClient
        by_cases hfailed : answers.accept < 0
        · rw [if_pos hfailed]
          exact ⟨_, rfl, ⟨h.size, h.first, h.distinct, h.isOpen⟩, hreported.next⟩
        · have hsd : 0 ≤ answers.accept := Int.not_lt.mp hfailed
          rw [if_neg hfailed, if_pos (hroom hzero hsd)]
          refine ⟨_, rfl, h.accept (hroom hzero hsd) (haccept hsd).2.1 _, ?_⟩
          -- the new entry has nothing to report
          intro j slot' _ hslot hne
          rw [List.getElem?_append] at hslot
          split_ifs at hslot with hj
          · exact hreported j slot' (Nat.zero_le j) hslot hne
          · have hnew := List.mem_singleton.mp (List.mem_of_getElem? hslot)
            rw [hnew] at hne
            simp [Revents.isZero] at hne

theorem map_fd_report (revents : List Revents) (fds : List PollFd) :
    (report revents fds).map PollFd.fd = fds.map PollFd.fd := by
  refine List.ext_getElem? fun i => ?_
  rw [report, List.getElem?_map, List.getElem?_mapIdx, List.getElem?_map, Option.map_map]
  rfl

/-- The poll call. -/
theorem report_valid (h : Valid listener s) (revents : List Revents) :
    Valid listener { s with fds := report revents s.fds } ∧
      Reported revents s.fds.length 0 { s with fds := report revents s.fds } := by
  refine ⟨⟨?_, ?_, ?_, ?_⟩, ?_⟩
  · show (report revents s.fds).length ≤ pollSize
    rw [report, List.length_mapIdx]
    exact h.size
  · show ((report revents s.fds).map PollFd.fd).head? = some listener
    rw [map_fd_report]
    exact h.first
  · show ((report revents s.fds).map PollFd.fd).Nodup
    rw [map_fd_report]
    exact h.distinct
  · show ∀ sd ∈ (report revents s.fds).map PollFd.fd, sd ∈ s.held
    rw [map_fd_report]
    exact h.isOpen
  · intro j slot _ hget _
    have hget : (report revents s.fds)[j]? = some slot := hget
    rw [report, List.getElem?_mapIdx] at hget
    obtain ⟨old, hold, hslot⟩ := Option.map_eq_some_iff.mp hget
    exact ⟨(List.getElem?_eq_some_iff.mp hold).1, by rw [← hslot]⟩

/-- One round. -/
theorem round_valid (answers : Answers) (s : State) (h : Valid listener s)
    (hguard : Accepting s answers ∧ Served s answers) :
    ∃ t, round listener answers s = .ok t ∧ Valid listener t := by
  obtain ⟨haccept, hserved⟩ := hguard
  by_cases hstopped : s.stopped = true
  · exact ⟨s, if_pos hstopped, h⟩
  · cases hpoll : answers.poll with
    | none =>
        have hrun : round listener answers s = .ok { s with stopped := true } := by
          rw [round, if_neg hstopped, hpoll]
        exact ⟨_, hrun, h.size, h.first, h.distinct, h.isOpen⟩
    | some revents =>
        obtain ⟨hroom, hread⟩ := hserved revents hpoll
        obtain ⟨hvalid, hreported⟩ := report_valid h revents
        have hlen : (report revents s.fds).length = s.fds.length := by
          rw [report, List.length_mapIdx]
        by_cases hquiet : (report revents s.fds).all (fun slot => slot.revents.isZero) = true
        · have hrun : round listener answers s = .ok { s with fds := report revents s.fds } := by
            rw [round, if_neg hstopped, hpoll]
            exact if_pos hquiet
          exact ⟨_, hrun, hvalid⟩
        · have hrun : round listener answers s
              = walk listener answers pollSize 0 { s with fds := report revents s.fds } := by
            rw [round, if_neg hstopped, hpoll]
            exact if_neg hquiet
          obtain ⟨t, ht, htvalid, htreported⟩ := visit_first hvalid hreported haccept (by
            intro hzero hsd
            show (report revents s.fds).length < pollSize
            rw [hlen]
            exact hroom hzero hsd)
          obtain ⟨left, hleft⟩ : ∃ left, pollSize = left + 1 := ⟨31, rfl⟩
          obtain ⟨u, hu, huvalid⟩ := walk_valid hread left Nat.zero_lt_one htvalid htreported
          exact ⟨u, by rw [hrun, hleft, walk_succ ht, hu], huvalid⟩

theorem start_valid (listener : Int) (others : List Int) :
    Valid listener (start listener others) :=
  ⟨show 1 ≤ pollSize by decide, rfl, List.nodup_singleton listener, by simp [start]⟩

/--
**As long as every client that is read from sends something and connections are accepted
only while there is room, the table of the demo server is valid at every loop head.**
-/
theorem serverPoll_table_valid (listener : Int) (others : List Int) (rounds : List Answers)
    (haccept : Guarded (round listener) Accepting (start listener others) rounds)
    (hserved : Guarded (round listener) Served (start listener others) rounds) :
    ∀ before after, rounds = before ++ after →
      ∃ s, machineRun (round listener) (start listener others) before = .ok s ∧
        Valid listener s := by
  intro before after heq
  subst heq
  exact (haccept.of_append.and hserved.of_append).invariant round_valid
    (start_valid listener others)

/-- The listener reports a connection, which gets the number `sd`. -/
def connects (sd : Int) : Answers := { poll := some [{ pollin := true }], accept := sd }

/-- The first client is read from. -/
def reads (r : Int) : Answers := { poll := some [{}, { pollin := true }], read := fun _ => r }

theorem connects_accepting {s : State} {sd : Int} (h : sd ∉ s.held)
    (hlow : ∀ n, 0 ≤ n → n < sd → n ∈ s.held) : Accepting s (connects sd) :=
  fun hsd => ⟨hsd, h, hlow⟩

theorem reads_accepting (s : State) (r : Int) : Accepting s (reads r) :=
  fun hsd => absurd hsd (show ¬ (0 : Int) ≤ -1 by decide)

/-- A client connects and sends. -/
theorem table_valid_one_client :
    ∃ s, machineRun (round 3) (start 3 [0, 1, 2]) [connects 4, reads 1] = .ok s ∧ Valid 3 s := by
  refine serverPoll_table_valid 3 [0, 1, 2] [connects 4, reads 1] ?_ ?_ _ [] (by simp)
  · refine .cons (connects_accepting (by decide) ?_) rfl (.cons (reads_accepting _ _) rfl .nil)
    intro n hn hlt
    simp only [start, List.mem_cons, List.not_mem_nil, or_false]
    omega
  · refine .cons ?_ rfl (.cons ?_ rfl .nil)
    · intro revents hpoll
      obtain rfl := Option.some.inj hpoll
      refine ⟨fun _ _ => by decide, fun i hi hpos => ?_⟩
      have hi : i < 1 := hi
      omega
    · intro revents hpoll
      obtain rfl := Option.some.inj hpoll
      exact ⟨fun hzero => absurd hzero (by decide), fun _ _ _ _ _ => Int.one_pos⟩

/-! ### A table that fills up -/

/-- Entries without events are passed over. -/
theorem walk_quiet (left : Nat) : ∀ {i : Nat}, (∀ j slot, i ≤ j → s.fds[j]? = some slot →
    slot.revents.isZero = true) → walk listener answers left i s = .ok s := by
  induction left with
  | zero => intro i _; rfl
  | succ left ih =>
      intro i hquiet
      have hvisit : visit listener answers i s = .ok s := by
        cases hget : s.fds[i]? with
        | none => rw [visit, hget]
        | some slot => rw [visit_eq hget, if_pos (.inr (hquiet i slot (Nat.le_refl i) hget))]
      rw [walk_succ hvisit]
      exact ih fun j slot hj => hquiet j slot (by omega)

/-- A connection goes to the end of the table, or behind it. -/
theorem round_connects (hrunning : s.stopped = false)
    (hfirst : (s.fds.map PollFd.fd).head? = some listener) {sd : Int} (hsd : 0 ≤ sd) :
    round listener (connects sd) s
      = if s.fds.length < pollSize then
          .ok { fds := report [{ pollin := true }] s.fds ++
                  [{ fd := sd, events := .pollin, revents := {} }],
                held := s.held ++ [sd], stopped := false }
        else .error (.undefined .outOfBounds) := by
  obtain ⟨first, rest, hfds⟩ : ∃ first rest, s.fds = first :: rest := by
    cases hfds : s.fds with
    | nil => simp [hfds] at hfirst
    | cons first rest => exact ⟨first, rest, rfl⟩
  have hfd : first.fd = listener := by simpa [hfds] using hfirst
  let reported : State := { s with fds := report [{ pollin := true }] s.fds }
  have hget : reported.fds[0]? = some { first with revents := { pollin := true } } := by
    simp [reported, report, hfds]
  have hbusy : ¬ reported.fds.all (fun slot => slot.revents.isZero) = true := by
    simp [reported, report, hfds, Revents.isZero]
  have hstopped : ¬ s.stopped = true := by simp [hrunning]
  have hlength : reported.fds.length = s.fds.length := List.length_mapIdx
  have hvisit : visit listener (connects sd) 0 reported
      = acceptClient (connects sd) reported := by
    have hidle : ¬ (reported.stopped = true ∨ Revents.isZero { pollin := true } = true) := by
      simp [reported, hrunning, Revents.isZero]
    rw [visit_eq hget, if_neg hidle, if_pos hfd]
  have hpoll : (connects sd).poll = some [{ pollin := true }] := rfl
  have hround : round listener (connects sd) s
      = (acceptClient (connects sd) reported >>= walk listener (connects sd) 31 1) := by
    rw [← hvisit]
    simp only [round, if_neg hstopped, hpoll]
    exact (if_neg hbusy).trans (walk_start ..)
  have haccepted : ¬ (connects sd).accept < 0 := Int.not_lt.mpr hsd
  rw [hround, acceptClient, if_neg haccepted, hlength]
  by_cases hroom : s.fds.length < pollSize
  · rw [if_pos hroom, if_pos hroom, ok_bind]
    refine walk_quiet 31 ?_
    -- only the listener has something to report
    intro j slot hj hslot
    obtain ⟨j, rfl⟩ := Nat.exists_eq_succ_of_ne_zero (Nat.ne_of_gt hj)
    simp only [reported, report, hfds, List.mapIdx_cons, List.cons_append,
      List.getElem?_cons_succ] at hslot
    rcases List.mem_append.mp (List.mem_of_getElem? hslot) with hmem | hmem
    · obtain ⟨k, hk, hval⟩ := List.mem_mapIdx.mp hmem
      rw [← hval]
      simp [Revents.isZero]
    · rw [List.mem_singleton.mp hmem]
      rfl
  · rw [if_neg hroom, if_neg hroom, error_bind]

/-- As long as there is room, connections fill the table. -/
theorem connects_fill (listener : Int) (others : List Int) (n : Nat) (hn : n < pollSize) :
    ∃ s, machineRun (round listener) (start listener others)
        ((List.range n).map fun k : Nat => connects (4 + k)) = .ok s ∧
      s.stopped = false ∧ (s.fds.map PollFd.fd).head? = some listener ∧
      s.fds.length = n + 1 := by
  induction n with
  | zero => exact ⟨_, rfl, rfl, rfl, rfl⟩
  | succ n ih =>
      obtain ⟨s, hrun, hrunning, hfirst, hlength⟩ := ih (by omega)
      have hroom : s.fds.length < pollSize := by omega
      have hround := round_connects hrunning hfirst (show (0 : Int) ≤ 4 + n by omega)
      rw [if_pos hroom] at hround
      refine ⟨_, Eq.trans ?_ hround, rfl, ?_, ?_⟩
      · rw [List.range_succ, List.map_append, List.map_singleton, machineRun_concat hrun]
      · rw [List.map_append, List.head?_append, map_fd_report, hfirst]
        rfl
      · rw [List.length_append, List.length_singleton, report, List.length_mapIdx, hlength]

/-- The connection after that is written behind the table. -/
theorem connects_overflow (listener : Int) (others : List Int) :
    machineRun (round listener) (start listener others)
        ((List.range pollSize).map fun k : Nat => connects (4 + k))
      = .error (.undefined .outOfBounds) := by
  obtain ⟨s, hrun, hrunning, hfirst, hlength⟩ := connects_fill listener others 31 (by decide)
  have hfull : ¬ s.fds.length < pollSize := by
    rw [hlength]
    exact Nat.lt_irrefl _
  rw [pollSize, List.range_succ, List.map_append, List.map_singleton, machineRun_concat hrun,
    round_connects hrunning hfirst (by omega), if_neg hfull]

/--
A client leaves and stays in the table; the next one gets its number, and the table has it
twice.  The 32nd client is written behind the table.
-/
theorem serverPoll_keeps_closed :
    (∃ s, machineRun (round 3) (start 3 [0, 1, 2]) [connects 4, reads 0] = .ok s ∧
      s.fds.map PollFd.fd = [3, 4] ∧ 4 ∉ s.held ∧ ¬ Valid 3 s) ∧
    (∃ s, machineRun (round 3) (start 3 [0, 1, 2]) [connects 4, reads 0, connects 4] = .ok s ∧
      s.fds.map PollFd.fd = [3, 4, 4]) ∧
    Guarded (round 3) Accepting (start 3 [0, 1, 2]) [connects 4, reads 0, connects 4] ∧
    machineRun (round 3) (start 3 [0, 1, 2]) ((List.range 32).map fun n => connects (4 + n))
      = .error (.undefined .outOfBounds) := by
  refine ⟨⟨_, rfl, rfl, by decide, ?_⟩, ⟨_, rfl, rfl⟩, ?_, ?_⟩
  · intro h
    exact absurd (h.isOpen 4 (by decide)) (by decide)
  · refine .cons (connects_accepting (by decide) ?_) rfl (.cons (reads_accepting _ _) rfl
      (.cons (connects_accepting (by decide) ?_) rfl .nil))
    · intro n hn hlt
      simp only [start, List.mem_cons, List.not_mem_nil, or_false]
      omega
    · intro n hn hlt
      have hcases : n = 0 ∨ n = 1 ∨ n = 2 ∨ n = 3 := by omega
      rcases hcases with rfl | rfl | rfl | rfl <;> decide
  · have hnumbers : ((List.range 32).map fun n => connects (4 + n))
        = (List.range pollSize).map fun k : Nat => connects (4 + k) := rfl
    rw [hnumbers]
    exact connects_overflow 3 [0, 1, 2]

end Technopark.ServerPoll
