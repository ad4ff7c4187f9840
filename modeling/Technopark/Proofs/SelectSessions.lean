/-
What a client of the select engine sees over whole runs.

Behind the listener everybody in `m_Clients` waits for its next line.  A line is answered
before the next one is read, by the echo of its text, and a client that is gone is closed in
the round that finds out and not spoken to again.  `Talks` says where each descriptor is, with
the queue of those who are gone as a parameter: the sweep fills it and the removal loop
empties it.

A round does one of two things.  The listener is the first entry of the table, so that a round
in which it is reported ends with the accept: nobody is read from, however many are reported.
-/
import Technopark.Lib.Session
import Technopark.Proofs.Select

namespace Technopark.SelectEngine

open Technopark.Ledger

variable {listener : Int} {s t : State} {waiting : List Int}

/-! ### The conversation with one client -/

/-- The answer to a line: the echo of its text, which ends before a NUL, and a line end. -/
def IsEcho (line ans : Bytes) : Prop := ans = echo ++ trimEols (cString line) ++ [10]

instance (line ans : Bytes) : Decidable (IsEcho line ans) :=
  inferInstanceAs (Decidable (_ = _))

/-- Where a client is. -/
inductive Phase
  | away
  | idle
  /-- It has sent this line, and has no answer yet. -/
  | owing (line : Bytes)
  | gone
  deriving Repr, DecidableEq

/-- What may happen next. -/
def Phase.next : Phase → Event → Option Phase
  | .away, .accepted _ => some .idle
  | .idle, .read _ result => if result.r ≤ 0 then some .gone else some (.owing result.bytes)
  | .owing line, .wrote _ ans => if IsEcho line ans then some .idle else none
  | .gone, .closed _ => some .away
  | _, _ => none

/-- Who something was done to. -/
def Event.party? : Event → Option Int
  | .accepted sd => some sd
  | .read sd _ => some sd
  | .wrote sd _ => some sd
  | .closed sd => some sd
  | _ => none

/-- Where a client is after a log. -/
def phaseIn (sd : Int) (log : List Event) : Option Phase :=
  phaseOf Phase.next .away Event.party? sd log

theorem phaseIn_next {sd : Int} {event : Event} (hparty : event.party? = some sd)
    {log : List Event} {phase phase' : Phase} (h : phaseIn sd log = some phase)
    (hnext : phase.next event = some phase') : phaseIn sd (log ++ [event]) = some phase' :=
  phaseOf_next hparty h hnext

theorem phaseIn_other {sd : Int} {more : List Event} (h : ∀ event ∈ more, event.party? ≠ some sd)
    (log : List Event) : phaseIn sd (log ++ more) = phaseIn sd log :=
  phaseOf_other h log

/-- Where a descriptor is while those of a queue wait to be closed. -/
def phaseWith (waiting : List Int) (s : State) (sd : Int) : Phase :=
  if sd ∈ waiting then .gone else if sd ∈ live (ledger s.log) then .idle else .away

/-- Every descriptor is where it should be. -/
structure Talks (waiting : List Int) (s : State) : Prop where
  phase : ∀ sd, phaseIn sd s.log = some (phaseWith waiting s sd)
  /-- Those who are gone are not closed yet. -/
  queued : ∀ sd ∈ waiting, sd ∈ live (ledger s.log)

/-! ### Where a descriptor is -/

theorem phaseWith_gone {sd : Int} (h : sd ∈ waiting) : phaseWith waiting s sd = .gone := if_pos h

theorem phaseWith_idle {sd : Int} (hnot : sd ∉ waiting) (h : sd ∈ live (ledger s.log)) :
    phaseWith waiting s sd = .idle := by
  rw [phaseWith, if_neg hnot, if_pos h]

theorem phaseWith_away {sd : Int} (hnot : sd ∉ waiting) (h : sd ∉ live (ledger s.log)) :
    phaseWith waiting s sd = .away := by
  rw [phaseWith, if_neg hnot, if_neg h]

theorem phaseWith_congr {waiting' : List Int} {sd : Int} (hqueue : sd ∈ waiting' ↔ sd ∈ waiting)
    (hopen : sd ∈ live (ledger t.log) ↔ sd ∈ live (ledger s.log)) :
    phaseWith waiting' t sd = phaseWith waiting s sd :=
  if_congr hqueue rfl (if_congr hopen rfl rfl)

/-! ### What the steps do to the conversations -/

theorem ledger_nobody {events : List Event} (h : ∀ event ∈ events, event.party? = none) :
    ledger events = [] := by
  rw [ledger, List.filterMap_eq_nil_iff]
  intro event hmem
  have hnone := h event hmem
  cases event with
  | accepted sd => injection hnone
  | closed sd => injection hnone
  | _ => rfl

/-- Events that are nobody's. -/
theorem Talks.quiet (h : Talks waiting s) {events : List Event} (hlog : t.log = s.log ++ events)
    (hnobody : ∀ event ∈ events, event.party? = none) : Talks waiting t := by
  have hsame : ledger t.log = ledger s.log := by
    rw [hlog, ledger_append, ledger_nobody hnobody, List.append_nil]
  refine ⟨?_, ?_⟩
  · intro sd
    have hother : ∀ event ∈ events, event.party? ≠ some sd := by
      intro event hmem
      rw [hnobody event hmem]
      exact (Option.some_ne_none sd).symm
    have hphase : phaseWith waiting t sd = phaseWith waiting s sd :=
      phaseWith_congr Iff.rfl (by rw [hsame])
    rw [hphase, ← h.phase sd, hlog]
    exact phaseIn_other hother s.log
  · rw [hsame]
    exact h.queued

/-- One descriptor moves on. -/
theorem Talks.moves (h : Talks waiting s) {sd : Int} {waiting' : List Int} {events : List Event}
    (hlog : t.log = s.log ++ events)
    (hown : ∀ event ∈ events, event.party? = none ∨ event.party? = some sd)
    (hqueue : ∀ sd', sd' ≠ sd → (sd' ∈ waiting' ↔ sd' ∈ waiting))
    (hopen : ∀ sd', sd' ≠ sd → (sd' ∈ live (ledger t.log) ↔ sd' ∈ live (ledger s.log)))
    (hself : phaseIn sd t.log = some (phaseWith waiting' t sd))
    (hstill : sd ∈ waiting' → sd ∈ live (ledger t.log)) : Talks waiting' t := by
  refine ⟨?_, ?_⟩
  · intro sd'
    by_cases hsd : sd' = sd
    · rw [hsd, hself]
    · have hother : ∀ event ∈ events, event.party? ≠ some sd' := by
        intro event hmem
        rcases hown event hmem with hnone | hsome
        · rw [hnone]
          exact (Option.some_ne_none sd').symm
        · rw [hsome]
          exact fun heq => hsd (Option.some.inj heq).symm
      have hphase : phaseWith waiting' t sd' = phaseWith waiting s sd' :=
        phaseWith_congr (hqueue sd' hsd) (hopen sd' hsd)
      rw [hphase, ← h.phase sd', hlog]
      exact phaseIn_other hother s.log
  · intro sd' hmem
    by_cases hsd : sd' = sd
    · rw [hsd] at hmem ⊢
      exact hstill hmem
    · exact (hopen sd' hsd).mpr (h.queued sd' ((hqueue sd' hsd).mp hmem))

theorem Talks.accept (h : Talks waiting s) {sd : Int} (hsd : 0 ≤ sd)
    (hfresh : sd ∉ live (ledger s.log)) (hlog : t.log = s.log ++ [.accepted sd]) :
    Talks waiting t := by
  have hopen : live (ledger t.log) = live (ledger s.log) ++ [sd] := by
    have hentry : ledger [Event.accepted sd] = [.opened sd] := by simp [ledger, Event.entry, hsd]
    rw [hlog, ledger_append, hentry, live_opened]
  have hnot : sd ∉ waiting := fun hmem => hfresh (h.queued sd hmem)
  have hlive : sd ∈ live (ledger t.log) := by
    rw [hopen]
    exact List.mem_append_right _ List.mem_cons_self
  refine h.moves hlog ?_ (fun _ _ => Iff.rfl) ?_ ?_ (fun _ => hlive)
  · intro event hmem
    exact .inr (List.mem_singleton.mp hmem ▸ rfl)
  · intro sd' hne
    rw [hopen]
    simp [hne]
  · have haway : phaseIn sd s.log = some .away := by rw [h.phase sd, phaseWith_away hnot hfresh]
    rw [phaseWith_idle hnot hlive, hlog]
    exact phaseIn_next rfl haway rfl

theorem Talks.close {sd : Int} (h : Talks (sd :: waiting) s) (hnot : sd ∉ waiting)
    (hnodup : (live (ledger s.log)).Nodup) (hlog : t.log = s.log ++ [.closed sd, .fdClr sd]) :
    Talks waiting t := by
  have hopen : live (ledger t.log) = (live (ledger s.log)).erase sd := by
    have hentry : ledger [Event.closed sd, .fdClr sd] = [.closed sd] := rfl
    rw [hlog, ledger_append, hentry, live_closed]
  refine h.moves hlog ?_ ?_ ?_ ?_ (fun hmem => absurd hmem hnot)
  · intro event hmem
    rcases List.mem_cons.mp hmem with rfl | hmem
    · exact .inr rfl
    · exact .inl (List.mem_singleton.mp hmem ▸ rfl)
  · intro sd' hne
    rw [List.mem_cons, or_iff_right hne]
  · intro sd' hne
    rw [hopen, List.mem_erase_of_ne hne]
  · have hgone : phaseIn sd s.log = some .gone := by
      rw [h.phase sd, phaseWith_gone List.mem_cons_self]
    have hclosed : phaseIn sd (s.log ++ [.closed sd]) = some .away := phaseIn_next rfl hgone rfl
    rw [phaseWith_away hnot (by rw [hopen]; exact hnodup.not_mem_erase), hlog, List.append_cons,
      ← hclosed]
    exact phaseIn_other (by simp [Event.party?]) _

/-! ### Being read from -/

variable {sd : Int} {result : ReadResult}

/-- A client is read from, and some accesses miss. -/
def reading (sd : Int) (result : ReadResult) (strays : List Stray) : List Event :=
  .read sd result :: strays.map .stray

theorem reading_own {strays : List Stray} :
    ∀ event ∈ reading sd result strays, event.party? = none ∨ event.party? = some sd := by
  intro event hmem
  rcases List.mem_cons.mp hmem with rfl | hmem
  · exact .inr rfl
  · obtain ⟨stray, -, rfl⟩ := List.mem_map.mp hmem
    exact .inl rfl

theorem ledger_reading (strays : List Stray) : ledger (reading sd result strays) = [] :=
  (strays_quiet strays).2.2

theorem phaseIn_reading {strays : List Stray} {phase : Phase}
    (h : phaseIn sd s.log = some .idle) (hnext : Phase.next .idle (.read sd result) = some phase) :
    phaseIn sd (s.log ++ reading sd result strays) = some phase := by
  have hread : phaseIn sd (s.log ++ [.read sd result]) = some phase := phaseIn_next rfl h hnext
  rw [reading, List.append_cons, ← hread]
  refine phaseIn_other ?_ _
  intro event hmem
  obtain ⟨stray, -, rfl⟩ := List.mem_map.mp hmem
  exact (Option.some_ne_none sd).symm

/-- A client that is gone is queued. -/
theorem serve_lost (h : result.r ≤ 0) :
    ∃ strays, serve sd result s = { s with
      disconnected := s.disconnected ++ [sd]
      log := s.log ++ reading sd result strays } := by
  rcases Int.lt_or_eq_of_le h with hneg | hzero
  · refine ⟨[], ?_⟩
    simp only [serve, if_pos hneg, State.note]
    rfl
  · refine ⟨(readText result.bytes).2, ?_⟩
    simp [serve, hzero, State.note, reading]

/-- Any other is answered. -/
theorem serve_answered (h : 0 < result.r) :
    ∃ strays ans, IsEcho result.bytes ans ∧ serve sd result s = { s with
      log := s.log ++ reading sd result strays ++ [.wrote sd ans] } := by
  have hne : result.r ≠ 0 := Int.ne_of_gt h
  refine ⟨(readText result.bytes).2, echo ++ (readText result.bytes).1 ++ [10], rfl, ?_⟩
  simp [serve, Int.not_lt.mpr (Int.le_of_lt h), hne, h, State.note, reading]

/-- A line is answered, and a client that is gone waits to be closed. -/
theorem Talks.serve (h : Talks s.disconnected s) (hopen : sd ∈ live (ledger s.log))
    (hnot : sd ∉ s.disconnected) (result : ReadResult) :
    Talks (serve sd result s).disconnected (SelectEngine.serve sd result s) := by
  have hidle : phaseIn sd s.log = some .idle := by rw [h.phase sd, phaseWith_idle hnot hopen]
  by_cases hr : result.r ≤ 0
  · obtain ⟨strays, hserve⟩ := @serve_lost s sd result hr
    have hgone : Phase.next .idle (.read sd result) = some .gone := if_pos hr
    have hsame : ledger (s.log ++ reading sd result strays) = ledger s.log := by
      rw [ledger_append, ledger_reading, List.append_nil]
    have hmem : sd ∈ s.disconnected ++ [sd] := List.mem_append_right _ List.mem_cons_self
    rw [hserve]
    refine h.moves rfl reading_own ?_ ?_ ?_ ?_
    · intro sd' hne
      simp [hne]
    · intro sd' _
      exact iff_of_eq (congrArg (sd' ∈ live ·) hsame)
    · rw [phaseWith_gone hmem]
      exact phaseIn_reading hidle hgone
    · intro _
      show sd ∈ live (ledger (s.log ++ reading sd result strays))
      rw [hsame]
      exact hopen
  · obtain ⟨strays, ans, hans, hserve⟩ := @serve_answered s sd result (Int.not_le.mp hr)
    have howing : Phase.next .idle (.read sd result) = some (.owing result.bytes) := if_neg hr
    have hecho : Phase.next (.owing result.bytes) (.wrote sd ans) = some .idle := if_pos hans
    have hsame : ledger (s.log ++ reading sd result strays ++ [.wrote sd ans])
        = ledger s.log := by
      rw [ledger_append, ledger_append, ledger_reading, List.append_nil]
      exact List.append_nil _
    rw [hserve]
    refine h.moves (List.append_assoc ..) ?_ (fun _ _ => Iff.rfl) ?_ ?_ (absurd · hnot)
    · intro event hmem
      rcases List.mem_append.mp hmem with hmem | hmem
      · exact reading_own event hmem
      · exact .inr (List.mem_singleton.mp hmem ▸ rfl)
    · intro sd' _
      exact iff_of_eq (congrArg (sd' ∈ live ·) hsame)
    · rw [phaseWith_idle hnot (by rw [← hsame] at hopen; exact hopen)]
      exact phaseIn_next rfl (phaseIn_reading hidle howing) hecho

/-! ### The sweep and the removal loop -/

/-- The clients from here on are open, and none of them waits to be closed. -/
def Ready (listener : Int) (rest : List Client) (s : State) : Prop :=
  ∀ client ∈ rest, client.sd ≠ listener →
    client.sd ∈ live (ledger s.log) ∧ client.sd ∉ s.disconnected

theorem Ready.quiet {rest : List Client} (h : Ready listener rest s) {events : List Event}
    (hlog : t.log = s.log ++ events) (hledger : ledger events = [])
    (hqueue : ∀ client ∈ rest, client.sd ∈ t.disconnected → client.sd ∈ s.disconnected) :
    Ready listener rest t := by
  intro client hmem hne
  obtain ⟨hopen, hnot⟩ := h client hmem hne
  refine ⟨?_, fun hqueued => hnot (hqueue client hmem hqueued)⟩
  rw [hlog, ledger_append, hledger, List.append_nil]
  exact hopen

theorem Talks.sweep {readFds : List Int} {answers : Answers} (rest : List Client) :
    ∀ (i : Nat) {s : State}, Talks s.disconnected s → (rest.map Client.sd).Nodup →
      Ready listener rest s → (listener ∈ readFds → Fresh listener s answers) →
      Talks (sweep listener readFds answers i rest s).disconnected
        (SelectEngine.sweep listener readFds answers i rest s) := by
  induction rest with
  | nil =>
      intro i s h _ _ _
      exact h
  | cons client rest ih =>
      intro i s h hnodup hready hfresh
      obtain ⟨hnew, hnodup⟩ := List.nodup_cons.mp hnodup
      have hnobody : ∀ event ∈ [Event.fdIsSet client.sd], event.party? = none := by
        intro event hmem
        exact List.mem_singleton.mp hmem ▸ rfl
      have hasked : Talks s.disconnected (s.note [.fdIsSet client.sd]) := h.quiet rfl hnobody
      have hfresh' : listener ∈ readFds → Fresh listener (s.note [.fdIsSet client.sd]) answers :=
        fun hmem => (hfresh hmem).quiet rfl rfl
      have hready' : Ready listener (client :: rest) (s.note [.fdIsSet client.sd]) :=
        hready.quiet rfl rfl fun _ _ hmem => hmem
      have hrest : Ready listener rest (s.note [.fdIsSet client.sd]) :=
        fun other hmem => hready' other (List.mem_cons_of_mem _ hmem)
      by_cases hset : client.sd ∉ readFds
      · rw [SelectEngine.sweep, if_pos hset]
        exact ih (i + 1) hasked hnodup hrest hfresh'
      rw [SelectEngine.sweep, if_neg hset]
      by_cases hlistener : client.sd = listener
      · rw [if_pos hlistener]
        obtain ⟨hsd, -, hunused⟩ := hfresh' (hlistener ▸ not_not.mp hset)
        exact hasked.accept hsd hunused rfl
      · rw [if_neg hlistener]
        obtain ⟨hopen, hnot⟩ := hready' client List.mem_cons_self hlistener
        obtain ⟨events, lost, hserved, hledger, -⟩ :=
          serve_swept client.sd (answers.read i) (s.note [.fdIsSet client.sd])
        refine ih (i + 1) (hasked.serve hopen hnot _) hnodup ?_
          fun hmem => (hfresh' hmem).quiet hserved.log hledger
        refine hrest.quiet hserved.log hledger ?_
        intro other hmem hqueued
        rw [hserved.disconnected] at hqueued
        refine (List.mem_append.mp hqueued).resolve_right ?_
        intro hlost
        have hsame : other.sd = client.sd := List.mem_singleton.mp (hserved.queued.subset hlost)
        exact hnew (hsame ▸ List.mem_map_of_mem hmem)

theorem Talks.removeDisconnected (left : List Int) :
    ∀ {s : State}, Talks left s → left.Nodup → (live (ledger s.log)).Nodup →
      removeDisconnected left s = .ok t → Talks [] t := by
  induction left with
  | nil =>
      intro s h _ _ hrun
      injection hrun with hrun
      exact hrun ▸ h
  | cons sd left ih =>
      intro s h hnodup hopen hrun
      obtain ⟨hnot, hnodup⟩ := List.nodup_cons.mp hnodup
      rw [SelectEngine.removeDisconnected] at hrun
      split at hrun
      · refine ih (h.close hnot hopen rfl) hnodup ?_ hrun
        have hentry : ledger [Event.closed sd, .fdClr sd] = [.closed sd] := rfl
        show (live (ledger (s.log ++ [.closed sd, .fdClr sd]))).Nodup
        rw [ledger_append, hentry, live_closed]
        exact hopen.erase sd
      · injection hrun

/-! ### Rounds and runs -/

/-- What `select` is asked about. -/
def given (listener : Int) (s : State) : List Int := listener :: s.clients.map Client.sd

/-- `select` was asked. -/
def State.asked (listener : Int) (s : State) : State :=
  { s with
    disconnected := []
    log := s.log ++
      ((given listener s).map .fdSet ++ [.select (fdmax listener s.clients + 1)]) }

/-- The clients were swept. -/
def State.swept (listener : Int) (answers : Answers) (left : List Int) (s : State) : State :=
  sweep listener ((given listener s).filter (· ∈ left)) answers 0 s.clients (s.asked listener)

/-- The branches of a round. -/
theorem round_run {answers : Answers} (hgoes : s.exited = false) :
    round listener answers s
      = match answers.select with
        | none => .ok { s.asked listener with exited := true }
        | some left =>
            if (given listener s).filter (· ∈ left) = [] then .ok (s.asked listener)
            else removeDisconnected (s.swept listener answers left).disconnected
              (s.swept listener answers left) := by
  have hstays : ¬ s.exited = true := by
    rw [hgoes]
    exact Bool.false_ne_true
  rw [round, if_neg hstays]
  rfl

theorem asked_nobody (sds : List Int) (nfds : Int) :
    ∀ event ∈ sds.map Event.fdSet ++ [.select nfds], event.party? = none := by
  intro event hmem
  rcases List.mem_append.mp hmem with hmem | hmem
  · obtain ⟨sd, -, rfl⟩ := List.mem_map.mp hmem
    rfl
  · exact List.mem_singleton.mp hmem ▸ rfl

theorem Table.asked (h : Table listener s) : Table listener (s.asked listener) :=
  h.quiet rfl rfl (fdSets_quiet _ _).1

/-- The sweep that `select` let happen. -/
theorem Table.swept (h : Table listener s) {answers : Answers} {left : List Int}
    (hfresh : listener ∈ left → Fresh listener s answers) :
    ∃ events lost, listener ∉ lost ∧
      Swept (s.clients.map Client.sd) (s.asked listener) (s.swept listener answers left)
        events lost ∧
      Table listener (s.swept listener answers left) := by
  refine sweep_swept s.clients 0 h.asked ?_
  intro hmem
  have hleft : listener ∈ left := by simpa using (List.mem_filter.mp hmem).2
  exact (hfresh hleft).quiet rfl (fdSets_quiet _ _).1

theorem Talks.swept (h : Talks [] s) (htable : Table listener s) {answers : Answers}
    {left : List Int} (hfresh : listener ∈ left → Fresh listener s answers) :
    Talks (s.swept listener answers left).disconnected (s.swept listener answers left) := by
  have hasked : Talks [] (s.asked listener) := h.quiet rfl (asked_nobody _ _)
  refine hasked.sweep s.clients 0 htable.distinct ?_ ?_
  · intro client hmem hne
    refine ⟨?_, List.not_mem_nil⟩
    obtain ⟨others, hothers, hperm⟩ := htable.asked.clients
    have hclient : client.sd ∈ listener :: others := hothers ▸ List.mem_map_of_mem hmem
    exact hperm.mem_iff.mp ((List.mem_cons.mp hclient).resolve_left hne)
  · intro hmem
    have hleft : listener ∈ left := by simpa using (List.mem_filter.mp hmem).2
    exact (hfresh hleft).quiet rfl (fdSets_quiet _ _).1

/-- Everybody in the table is served in turn, and nobody else is. -/
structure Serves (listener : Int) (s : State) : Prop where
  table : Table listener s
  talks : Talks [] s

theorem Serves.round (h : Serves listener s) {answers : Answers}
    (haccept : Accepting listener s answers) (hround : round listener answers s = .ok t) :
    Serves listener t := by
  obtain ⟨u, hu, htable, -⟩ := round_table h.table haccept
  obtain rfl : u = t := by
    rw [hu] at hround
    injection hround
  refine ⟨htable, ?_⟩
  cases hgoes : s.exited with
  | true =>
      rw [SelectEngine.round, if_pos hgoes] at hround
      injection hround with hround
      exact hround ▸ h.talks
  | false =>
      have hasked : Talks [] (s.asked listener) := h.talks.quiet rfl (asked_nobody _ _)
      rw [round_run hgoes] at hround
      cases hselect : answers.select with
      | none =>
          rw [hselect] at hround
          injection hround with hround
          exact hround ▸ hasked.quiet (List.append_nil _).symm (by simp)
      | some left =>
          rw [hselect] at hround
          dsimp only at hround
          split at hround
          · injection hround with hround
            exact hround ▸ hasked
          · have hfresh : listener ∈ left → Fresh listener s answers := haccept left hselect
            obtain ⟨events, lost, -, hswept, hswepttable⟩ := h.table.swept hfresh
            have hnodup : (s.swept listener answers left).disconnected.Nodup := by
              rw [hswept.disconnected]
              exact h.table.distinct.sublist hswept.queued
            exact (h.talks.swept h.table hfresh).removeDisconnected _ hnodup
              hswepttable.proper.live_nodup hround

theorem serves_start (listener : Int) : Serves listener (start listener) :=
  ⟨start_table listener, fun _ => rfl, by simp⟩

/--
**Everybody in the table of the select engine is served in turn.**  In every state of a run the
log has, for every descriptor, whole conversations, and one that is not over yet if the
descriptor is in the table: each line was answered by the echo of its text before the next one
was read, and each client that was gone was closed before anything else happened to its number.
-/
theorem selectEngine_serves (rounds : List Answers)
    (haccept : Guarded (round listener) (Accepting listener) (start listener) rounds) :
    Always (round listener) (start listener) rounds (Serves listener) := by
  intro before after t hsplit hrun
  rw [hsplit] at haccept
  exact haccept.of_append.keeps (fun answers s t h hguard hround => h.round hguard hround)
    (serves_start listener) hrun

/-- Two clients, of which the first one leaves. -/
def twoClients : List Answers :=
  [{ select := some [3], accept := 4 }, { select := some [3, 4], accept := 5 },
    { select := some [4, 5], read := fun i => if i = 1 then .data [] else .data [104, 105] }]

theorem twoClients_accepting :
    Guarded (round 3) (Accepting 3) (start 3) twoClients := by
  refine Guarded.cons (by unfold Accepting Fresh; decide) rfl ?_
  refine Guarded.cons (by unfold Accepting Fresh; decide) rfl ?_
  exact Guarded.cons (by unfold Accepting Fresh; decide) rfl Guarded.nil

theorem selectEngine_serves_two : Always (round 3) (start 3) twoClients (Serves 3) :=
  selectEngine_serves twoClients twoClients_accepting

/-! ### What a round does -/

/-- The clients that were read from. -/
def readFrom (log : List Event) : List Int :=
  log.filterMap fun
    | .read sd _ => some sd
    | _ => none

/-- What `accept` has returned. -/
def accepts (log : List Event) : List Int :=
  log.filterMap fun
    | .accepted sd => some sd
    | _ => none

theorem readFrom_append (log more : List Event) :
    readFrom (log ++ more) = readFrom log ++ readFrom more := List.filterMap_append

theorem accepts_append (log more : List Event) :
    accepts (log ++ more) = accepts log ++ accepts more := List.filterMap_append

/-- Events that are nobody's. -/
theorem nobody_quiet {events : List Event} (h : ∀ event ∈ events, event.party? = none) :
    readFrom events = [] ∧ accepts events = [] := by
  refine ⟨List.filterMap_eq_nil_iff.mpr ?_, List.filterMap_eq_nil_iff.mpr ?_⟩
  · intro event hmem
    have hnone := h event hmem
    cases event with
    | read sd r => injection hnone
    | _ => rfl
  · intro event hmem
    have hnone := h event hmem
    cases event with
    | accepted sd => injection hnone
    | _ => rfl

/-- A client is read from once. -/
theorem serve_reads (sd : Int) (result : ReadResult) (s : State) :
    ∃ events, (serve sd result s).log = s.log ++ events ∧ readFrom events = [sd] ∧
      accepts events = [] := by
  have hstrays (strays : List Stray) : readFrom (reading sd result strays) = [sd] ∧
      accepts (reading sd result strays) = [] := by
    have hnobody : ∀ event ∈ strays.map Event.stray, event.party? = none := by
      intro event hmem
      obtain ⟨stray, -, rfl⟩ := List.mem_map.mp hmem
      rfl
    obtain ⟨hread, haccepts⟩ := nobody_quiet hnobody
    exact ⟨congrArg (sd :: ·) hread, haccepts⟩
  by_cases hr : result.r ≤ 0
  · obtain ⟨strays, hserve⟩ := @serve_lost s sd result hr
    exact ⟨_, congrArg State.log hserve, hstrays strays⟩
  · obtain ⟨strays, ans, -, hserve⟩ := @serve_answered s sd result (Int.not_le.mp hr)
    obtain ⟨hread, haccepts⟩ := hstrays strays
    refine ⟨reading sd result strays ++ [.wrote sd ans], ?_, ?_, ?_⟩
    · rw [hserve]
      exact List.append_assoc ..
    · rw [readFrom_append, hread]
      rfl
    · rw [accepts_append, haccepts]
      rfl

/-- The clients behind the listener are read from in order, whoever is reported. -/
theorem sweep_reads {readFds : List Int} {answers : Answers} (rest : List Client) :
    ∀ (i : Nat) (s : State), listener ∉ rest.map Client.sd →
      ∃ events, (sweep listener readFds answers i rest s).log = s.log ++ events ∧
        readFrom events = (rest.map Client.sd).filter (· ∈ readFds) ∧ accepts events = [] := by
  induction rest with
  | nil =>
      intro i s _
      exact ⟨[], (List.append_nil _).symm, rfl, rfl⟩
  | cons client rest ih =>
      intro i s hnot
      rw [List.map_cons, List.mem_cons, not_or] at hnot
      rw [List.map_cons]
      by_cases hset : client.sd ∉ readFds
      · rw [sweep, if_pos hset, List.filter_cons_of_neg (by simpa using hset)]
        obtain ⟨events, hlog, hread, haccepts⟩ := ih (i + 1) (s.note [.fdIsSet client.sd]) hnot.2
        refine ⟨[.fdIsSet client.sd] ++ events, ?_, hread, haccepts⟩
        rw [hlog]
        exact List.append_assoc ..
      · rw [sweep, if_neg hset, if_neg (Ne.symm hnot.1),
          List.filter_cons_of_pos (by simpa using hset)]
        obtain ⟨served, hserved, hself, hquiet⟩ :=
          serve_reads client.sd (answers.read i) (s.note [.fdIsSet client.sd])
        obtain ⟨events, hlog, hread, haccepts⟩ := ih (i + 1) _ hnot.2
        refine ⟨[.fdIsSet client.sd] ++ served ++ events, ?_, ?_, ?_⟩
        · rw [hlog, hserved, List.append_assoc]
          exact (List.append_assoc ..).trans (by rw [List.append_assoc])
        · rw [readFrom_append, readFrom_append, hself, hread]
          rfl
        · rw [accepts_append, accepts_append, hquiet, haccepts]
          rfl

/-- Who is accepted and who is read from in a round in which `select` has left these. -/
def Attends (listener : Int) (left : List Int) (accept : Int) (s : State) (events : List Event) :
    Prop :=
  if listener ∈ left then accepts events = [accept] ∧ readFrom events = []
  else accepts events = [] ∧ readFrom events = (s.clients.map Client.sd).filter (· ∈ left)

theorem attends_accept {left : List Int} {accept : Int} {events : List Event}
    (h : listener ∈ left) :
    Attends listener left accept s events ↔ accepts events = [accept] ∧ readFrom events = [] := by
  rw [Attends, if_pos h]

theorem attends_read {left : List Int} {accept : Int} {events : List Event}
    (h : listener ∉ left) :
    Attends listener left accept s events ↔
      accepts events = [] ∧ readFrom events = (s.clients.map Client.sd).filter (· ∈ left) := by
  rw [Attends, if_neg h]

/-- Events around it that read from nobody. -/
theorem Attends.wrap {left : List Int} {accept : Int} {events before after : List Event}
    (h : Attends listener left accept s events)
    (hbefore : readFrom before = [] ∧ accepts before = [])
    (hafter : readFrom after = [] ∧ accepts after = []) :
    Attends listener left accept s (before ++ events ++ after) := by
  rw [Attends, readFrom_append, readFrom_append, accepts_append, accepts_append, hbefore.1,
    hbefore.2, hafter.1, hafter.2, List.nil_append, List.nil_append, List.append_nil,
    List.append_nil]
  exact h

/-- The listener is the first entry, so that the sweep meets it before any client. -/
theorem Table.attends (h : Table listener s) (answers : Answers) (left : List Int) :
    ∃ events, (s.swept listener answers left).log = (s.asked listener).log ++ events ∧
      Attends listener left answers.accept s events := by
  obtain ⟨others, hothers, -⟩ := h.clients
  obtain ⟨first, rest, hclients, hfirst, hrest⟩ := List.map_eq_cons_iff.mp hothers
  have hnot : listener ∉ rest.map Client.sd := by
    have hdistinct := h.distinct
    rw [hothers] at hdistinct
    rw [hrest]
    exact (List.nodup_cons.mp hdistinct).1
  have hreported : ∀ sd ∈ given listener s,
      (sd ∈ (given listener s).filter (· ∈ left) ↔ sd ∈ left) := by
    intro sd hmem
    simp [hmem]
  have hlistener := hreported listener List.mem_cons_self
  rw [State.swept, hclients]
  by_cases hleft : listener ∈ left
  · have hset : ¬ first.sd ∉ (given listener s).filter (· ∈ left) := by
      rw [hfirst, not_not]
      exact hlistener.mpr hleft
    rw [sweep, if_neg hset, if_pos hfirst]
    refine ⟨[Event.fdIsSet first.sd] ++ [.accepted answers.accept], ?_,
      (attends_accept hleft).mpr ⟨rfl, rfl⟩⟩
    exact List.append_assoc ..
  · have hset : first.sd ∉ (given listener s).filter (· ∈ left) := by
      rw [hfirst]
      exact mt hlistener.mp hleft
    rw [sweep, if_pos hset]
    obtain ⟨events, hlog, hread, haccepts⟩ :=
      @sweep_reads listener ((given listener s).filter (· ∈ left)) answers rest 1
        ((s.asked listener).note [.fdIsSet first.sd]) hnot
    refine ⟨[.fdIsSet first.sd] ++ events, ?_, (attends_read hleft).mpr ⟨haccepts, ?_⟩⟩
    · rw [hlog]
      exact List.append_assoc ..
    · rw [hclients, List.map_cons, List.filter_cons_of_neg (by simpa [hfirst] using hleft)]
      refine hread.trans (List.filter_congr ?_)
      intro sd hmem
      have hgiven : sd ∈ given listener s := by
        rw [given, hothers, ← hrest]
        exact List.mem_cons_of_mem _ (List.mem_cons_of_mem _ hmem)
      exact decide_eq_decide.mpr (hreported sd hgiven)

theorem removal_quiet (lost : List Int) :
    readFrom (lost.flatMap fun sd => [.closed sd, .fdClr sd]) = [] ∧
      accepts (lost.flatMap fun sd => [.closed sd, .fdClr sd]) = [] := by
  induction lost with
  | nil => exact ⟨rfl, rfl⟩
  | cons sd lost ih => exact ih

/-- A round in which `select` succeeds. -/
theorem round_attends (h : Table listener s) {answers : Answers} {left : List Int}
    (hgoes : s.exited = false) (hselect : answers.select = some left)
    (hfresh : listener ∈ left → Fresh listener s answers)
    (hround : round listener answers s = .ok t) :
    ∃ events, t.log = s.log ++ events ∧ Attends listener left answers.accept s events := by
  have hasked := nobody_quiet
    (asked_nobody (given listener s) (fdmax listener s.clients + 1))
  rw [round_run hgoes, hselect] at hround
  dsimp only at hround
  split at hround
  · next hnone =>
      injection hround with hround
      subst hround
      have hnot : ∀ sd ∈ given listener s, sd ∉ left := by
        simpa [List.filter_eq_nil_iff] using hnone
      refine ⟨_, rfl, ?_⟩
      refine (attends_read (hnot listener List.mem_cons_self)).mpr ⟨hasked.2, ?_⟩
      refine hasked.1.trans (List.filter_eq_nil_iff.mpr ?_).symm
      intro sd hmem
      simpa using hnot sd (List.mem_cons_of_mem _ hmem)
  · obtain ⟨events, lost, hspared, hswept, htable⟩ := h.swept hfresh
    obtain ⟨attended, hlog, hattends⟩ := h.attends answers left
    have hlost : (s.swept listener answers left).disconnected = lost := hswept.disconnected
    have hmem : ∀ sd ∈ lost, sd ∈ (s.swept listener answers left).clients.map Client.sd := by
      intro sd hsd
      obtain ⟨new, hnew⟩ := hswept.clients
      rw [hnew, List.map_append]
      exact List.mem_append_left _ (hswept.queued.subset hsd)
    obtain ⟨u, hu, -, hremoved, -⟩ := removeDisconnected_run lost htable
      (h.distinct.sublist hswept.queued) hspared hmem
    rw [hlost, hu] at hround
    injection hround with hround
    subst hround
    refine ⟨_, ?_, hattends.wrap hasked (removal_quiet lost)⟩
    rw [hremoved, hlog]
    simp only [State.asked, List.append_assoc]

/--
**A round accepts somebody or reads from the clients, never both.**  If the listener is
reported, one client is accepted and nobody is read from.  Otherwise everybody who is reported
is read from, once and in the order of the table.
-/
theorem selectEngine_accepts_or_reads (rounds : List Answers)
    (haccept : Guarded (round listener) (Accepting listener) (start listener) rounds) :
    ∀ before answers after left, rounds = before ++ answers :: after →
      answers.select = some left →
      ∃ s t events, machineRun (round listener) (start listener) before = .ok s ∧
        round listener answers s = .ok t ∧ t.log = s.log ++ events ∧
        (s.exited = false → Attends listener left answers.accept s events) := by
  intro before answers after left heq hselect
  subst heq
  have hstep : ∀ answers s, Table listener s → Accepting listener s answers →
      ∃ t, round listener answers s = .ok t ∧ Table listener t := by
    intro answers s hs hguard
    obtain ⟨t, hrun, htable, -⟩ := round_table hs hguard
    exact ⟨t, hrun, htable⟩
  obtain ⟨s, hrun, htable⟩ := haccept.of_append.invariant hstep (start_table listener)
  have hguard := haccept before answers after rfl s hrun
  obtain ⟨t, hround, -, hlater⟩ := round_table htable hguard
  refine ⟨s, t, ?_⟩
  cases hgoes : s.exited with
  | true =>
      obtain ⟨events, hlog, -⟩ := hlater
      exact ⟨events, hrun, hround, hlog, fun hstill => by injection hstill⟩
  | false =>
      obtain ⟨events, hlog, hattends⟩ :=
        round_attends htable hgoes hselect (hguard left hselect) hround
      exact ⟨events, hrun, hround, hlog, fun _ => hattends⟩

theorem selectEngine_reads_two :
    ∃ s t events, machineRun (round 3) (start 3) (twoClients.take 2) = .ok s ∧
      round 3 twoClients[2] s = .ok t ∧ t.log = s.log ++ events ∧
      (s.exited = false → Attends 3 [4, 5] (-1) s events) :=
  selectEngine_accepts_or_reads twoClients twoClients_accepting _ _ [] [4, 5] rfl rfl

end Technopark.SelectEngine
