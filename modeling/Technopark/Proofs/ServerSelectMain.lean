/-
The select demo server over whole runs.

As long as `main` runs, everybody who is connected is in the set, and with everybody in the set
a conversation goes on: a message comes in, and it is answered before the next one is read.  A
client that is gone is closed at once, and only then its number may come back.  `select` is
always asked about the listener and exactly those who are connected (`main_serves`).

How long `main` runs is the other question, as far as its iterators, its exceptions and its
trimming go.  It runs on until somebody leaves while somebody else is connected, a message is
nothing but line ends, or a new client cannot be made non-blocking (`main_runs_iff`).
-/
import Technopark.Lib.Ledger
import Technopark.Lib.Run
import Technopark.Lib.Session
import Technopark.Net.ServerSelectMain
import Technopark.Proofs.Receive
import Technopark.Proofs.ServerSelect

namespace Technopark.ServerSelect

variable {listener : Int} {env : Round} {s t : Main}

/-! ### The conversation with one client -/

/-- Where a client is. -/
inductive Phase
  | away
  | idle
  /-- It has sent this much, and has no answer yet. -/
  | owing (bytesRead : Int)
  | gone
  deriving Repr, DecidableEq

/-- What may happen next. -/
def Phase.next : Phase → MainEvent → Option Phase
  | .away, .accepted _ => some .idle
  | .idle, .client (.received _ bytesRead) =>
      if bytesRead ≤ 0 then some .gone else some (.owing bytesRead)
  | .owing bytesRead, .client (.sent _ ret) =>
      if fromServer <:+ ret ∧ ret.length ≤ bytesRead + fromServer.length then some .idle else none
  | .gone, .client (.closed _) => some .away
  | _, _ => none

/-- Who something was done to. -/
def MainEvent.party? : MainEvent → Option Int
  | .select .. => none
  | .accepted sock => some sock
  | .client (.received sd _) => some sd
  | .client (.closed sd) => some sd
  | .client (.stray _) => none
  | .client (.sent sd _) => some sd

/-- Where a client is after a log. -/
def phaseIn (sd : Int) (log : List MainEvent) : Option Phase :=
  phaseOf Phase.next .away MainEvent.party? sd log

theorem phaseIn_next {sd : Int} {event : MainEvent} (hparty : event.party? = some sd)
    {log : List MainEvent} {phase phase' : Phase} (h : phaseIn sd log = some phase)
    (hnext : phase.next event = some phase') : phaseIn sd (log ++ [event]) = some phase' :=
  phaseOf_next hparty h hnext

theorem phaseIn_other {sd : Int} {more : List MainEvent}
    (h : ∀ event ∈ more, event.party? ≠ some sd) (log : List MainEvent) :
    phaseIn sd (log ++ more) = phaseIn sd log :=
  phaseOf_other h log

/-! ### The properties -/

/-- `select` is asked about the listener and those who are connected. -/
def Asked (listener : Int) (before : List MainEvent) : MainEvent → Prop
  | .select readset nfds =>
      readset.Nodup ∧ (∀ sd, sd ∈ readset ↔ sd = listener ∨ phaseIn sd before = some .idle) ∧
        ∀ sd ∈ readset, sd < nfds
  | _ => True

/-- Everybody in the set is served in turn, and nobody else is. -/
structure Serves (listener : Int) (s : Main) : Prop where
  apart : listener ∉ s.clients
  phase : ∀ sd, phaseIn sd s.log = some (if sd ∈ s.clients then .idle else .away)
  asked : Stepwise (Asked listener) s.log

/-- `accept` does not return a descriptor that is open. -/
def Fresh (listener : Int) (s : Main) (env : Round) : Prop :=
  env.accept ≠ listener ∧ env.accept ∉ s.clients

/-! ### The sweep -/

variable {answers : Answers} {clients : OrderedSet Int}

theorem bytesRead_eq {sd : Int} (h : 0 < answers.bytesRead sd) :
    answers.bytesRead sd = (answers.bytes sd).length := by
  rw [Answers.bytesRead] at h ⊢
  cases hwaiting : answers.waiting sd with
  | some bytes => rfl
  | none =>
      rw [hwaiting] at h
      exact absurd h (Int.not_lt.mpr (Int.negSucc_lt_zero 0).le)

/-- What happens to a client has to do with nobody else. -/
theorem party?_events {sd sd' : Int} (h : sd ≠ sd') :
    ∀ event ∈ (events answers sd).map MainEvent.client, event.party? ≠ some sd' := by
  intro event hmem
  obtain ⟨ev, hev, rfl⟩ := List.mem_map.mp hmem
  rw [events] at hev
  split at hev
  · rcases List.mem_cons.mp hev with rfl | hev
    · simpa [MainEvent.party?] using h
    rcases List.mem_append.mp hev with hev | hev
    · split at hev
      · rw [List.mem_singleton.mp hev]
        exact Option.some_ne_none _ ∘ Eq.symm
      · exact absurd hev List.not_mem_nil
    · rw [List.mem_singleton.mp hev]
      simpa [MainEvent.party?] using h
  · exact absurd hev List.not_mem_nil

/-- Whoever is not gone and was read from has its answer. -/
theorem phaseIn_events {sd : Int} {log : List MainEvent} (h : phaseIn sd log = some .idle)
    (hkept : ¬ Gone answers sd) :
    phaseIn sd (log ++ (events answers sd).map .client) = some .idle := by
  by_cases hready : answers.ready sd
  · have hpos : 0 < answers.bytesRead sd := Int.not_le.mp fun hle => hkept ⟨hready, hle⟩
    have hsuffix : fromServer <:+ trimEols (answers.bytes sd) ++ fromServer :=
      List.suffix_append _ _
    have hlength : ((trimEols (answers.bytes sd) ++ fromServer).length : Int)
        ≤ answers.bytesRead sd + fromServer.length := by
      have := length_trimEols_le (answers.bytes sd)
      rw [bytesRead_eq hpos, List.length_append]
      omega
    have hread : Phase.next .idle (.client (.received sd (answers.bytesRead sd)))
        = some (.owing (answers.bytesRead sd)) := if_neg (Int.not_le.mpr hpos)
    have hanswer : Phase.next (.owing (answers.bytesRead sd))
        (.client (.sent sd (trimEols (answers.bytes sd) ++ fromServer))) = some .idle :=
      if_pos ⟨hsuffix, hlength⟩
    have howing := phaseIn_next rfl h hread
    rw [events, if_pos hready, List.map_cons, List.map_append, List.append_cons,
      ← List.append_assoc]
    refine phaseIn_next rfl ?_ hanswer
    -- a stray access is nobody's event
    refine (phaseIn_other ?_ _).trans howing
    intro event hevent
    obtain ⟨ev, hev, rfl⟩ := List.mem_map.mp hevent
    split at hev
    · rw [List.mem_singleton.mp hev]
      exact Option.some_ne_none _ ∘ Eq.symm
    · exact absurd hev List.not_mem_nil
  · rw [events, if_neg hready, List.map_nil, List.append_nil]
    exact h

/-- The sweep of clients that are not gone changes nobody's phase. -/
theorem phaseIn_swept {fine : List Int} {log : List MainEvent}
    (h : ∀ sd ∈ fine, phaseIn sd log = some .idle ∧ ¬ Gone answers sd) (sd : Int) :
    phaseIn sd (log ++ (fine.flatMap (events answers)).map .client) = phaseIn sd log := by
  induction fine generalizing log with
  | nil => rw [List.flatMap_nil, List.map_nil, List.append_nil]
  | cons first fine ih =>
      obtain ⟨⟨hidle, hkept⟩, hrest⟩ := List.forall_mem_cons.mp h
      have hsame : ∀ sd', phaseIn sd' (log ++ (events answers first).map .client)
          = phaseIn sd' log := by
        intro sd'
        by_cases hsd : first = sd'
        · rw [← hsd, phaseIn_events hidle hkept, hidle]
        · exact phaseIn_other (party?_events hsd) log
      rw [List.flatMap_cons, List.map_append, ← List.append_assoc, ih, hsame]
      intro sd' hmem
      rw [hsame]
      exact hrest sd' hmem

/-- How a sweep ends. -/
inductive SweptTo (answers : Answers) (clients : OrderedSet Int) : State → Prop
  | kept (hkept : ∀ sd ∈ clients, ¬ Gone answers sd) :
      SweptTo answers clients ⟨clients, clients.elems.flatMap (events answers)⟩
  | emptied {sd : Int} (honly : clients.elems = [sd]) (hgone : Gone answers sd) :
      SweptTo answers clients
        ⟨clients.erase sd, [.received sd (answers.bytesRead sd), .closed sd]⟩

/-- A sweep ends that way, or not at all. -/
theorem sweepClients_cases (answers : Answers) (clients : OrderedSet Int) :
    (∃ swept, sweepClients answers clients = .ok swept ∧ SweptTo answers clients swept) ∨
      (∃ sd ∈ clients, Gone answers sd) ∧ clients.elems.length ≠ 1 ∧
        sweepClients answers clients = .error (.undefined .danglingIterator) := by
  by_cases hkept : ∀ sd ∈ clients, ¬ Gone answers sd
  · exact .inl ⟨_, sweepClients_through answers (List.append_nil _).symm hkept, .kept hkept⟩
  obtain ⟨sd, hmem, hgone⟩ : ∃ sd, sd ∈ clients ∧ Gone answers sd := by simpa using hkept
  by_cases hone : clients.elems.length = 1
  · obtain ⟨only, honly⟩ := List.length_eq_one_iff.mp hone
    obtain rfl : sd = only := by
      rw [OrderedSet.mem_def, honly] at hmem
      exact List.mem_singleton.mp hmem
    have hempty : (clients.erase sd).isEmpty = true := by
      show (clients.elems.erase sd).isEmpty = true
      rw [honly, List.erase_cons_head]
      rfl
    refine .inl ⟨_, ?_, .emptied honly hgone⟩
    rw [sweepClients, OrderedSet.begin, honly]
    exact (sweep_gone hmem hgone).trans (if_pos hempty)
  · exact .inr ⟨⟨sd, hmem, hgone⟩, hone, sweepClients_dangling hone ⟨sd, hmem, hgone⟩⟩

/-! ### One round -/

/-- `mx` bounds what `select` is asked about. -/
theorem mx_bound {clients : OrderedSet Int} {m : Int} (h : mx listener clients = .ok m) :
    ∀ sd ∈ listener :: clients.elems, sd ≤ m := by
  rw [mx] at h
  split at h
  · next hempty =>
      injection h with h
      rw [List.isEmpty_iff.mp hempty, ← h]
      simp
  · cases hmax : clients.maxElement with
    | error e =>
        rw [hmax] at h
        injection h
    | ok greatest =>
        rw [hmax] at h
        injection h with h
        obtain ⟨-, hle⟩ := OrderedSet.maxElement_greatest hmax
        refine List.forall_mem_cons.mpr ⟨?_, fun sd hmem => ?_⟩
        · exact h ▸ le_max_left _ _
        · exact (hle sd hmem).trans (h ▸ le_max_right _ _)

theorem Serves.select (h : Serves listener s) {m : Int} (hm : mx listener s.clients = .ok m) :
    Serves listener (s.note [.select (listener :: s.clients.elems) (m + 1)]) := by
  refine ⟨h.apart, ?_, ?_⟩
  · intro sd
    exact (phaseIn_other (by simp [MainEvent.party?]) s.log).trans (h.phase sd)
  · refine stepwise_concat.mpr ⟨h.asked, ?_, ?_, ?_⟩
    · exact List.nodup_cons.mpr ⟨h.apart, s.clients.nodup⟩
    · intro sd
      rw [List.mem_cons, h.phase sd, ← OrderedSet.mem_def]
      split
      · next hmem => simp [hmem]
      · next hmem => simp [hmem]
    · intro sd hmem
      have := mx_bound hm sd hmem
      omega

theorem Serves.accept (h : Serves listener s) {sock : Int}
    (hfresh : sock ≠ listener ∧ sock ∉ s.clients) :
    Serves listener { s.note [.accepted sock] with clients := s.clients.insert sock } := by
  refine ⟨?_, ?_, ?_⟩
  · rw [OrderedSet.mem_insert, not_or]
    exact ⟨hfresh.1.symm, h.apart⟩
  · intro sd
    show phaseIn sd (s.log ++ [.accepted sock]) = some (if sd ∈ s.clients.insert sock then _ else _)
    by_cases hsd : sd = sock
    · subst hsd
      have haway : phaseIn sd s.log = some .away := by rw [h.phase sd, if_neg hfresh.2]
      rw [if_pos (OrderedSet.mem_insert.mpr (.inl rfl))]
      exact phaseIn_next rfl haway rfl
    · have hother : ∀ event ∈ [MainEvent.accepted sock], event.party? ≠ some sd := by
        simpa [MainEvent.party?] using Ne.symm hsd
      have hmem : sd ∈ s.clients.insert sock ↔ sd ∈ s.clients := by
        rw [OrderedSet.mem_insert, or_iff_right hsd]
      rw [phaseIn_other hother, h.phase sd, if_congr hmem rfl rfl]
  · exact h.asked.append fun event hevent before => by
      rw [List.mem_singleton.mp hevent]
      exact trivial

theorem Serves.sweep (h : Serves listener s) {answers : Answers} {swept : State}
    (hswept : SweptTo answers s.clients swept) :
    Serves listener
      { s with clients := swept.clients, log := s.log ++ swept.log.map .client } := by
  have hasked : Stepwise (Asked listener) (s.log ++ swept.log.map .client) := by
    refine h.asked.append ?_
    intro event hevent before
    obtain ⟨ev, -, rfl⟩ := List.mem_map.mp hevent
    exact trivial
  cases hswept with
  | kept hkept =>
      refine ⟨h.apart, ?_, hasked⟩
      intro sd
      rw [← h.phase sd]
      refine phaseIn_swept ?_ sd
      intro sd' hmem
      refine ⟨?_, hkept sd' hmem⟩
      rw [h.phase sd', if_pos (OrderedSet.mem_def.mpr hmem)]
  | @emptied sd honly hgone =>
      have hempty : ∀ sd', sd' ∉ s.clients.erase sd := by
        intro sd'
        show sd' ∉ s.clients.elems.erase sd
        rw [honly, List.erase_cons_head]
        exact List.not_mem_nil
      refine ⟨hempty listener, ?_, hasked⟩
      intro sd'
      rw [if_neg (hempty sd')]
      by_cases hsd : sd' = sd
      · subst hsd
        have hidle : phaseIn sd' s.log = some .idle := by
          rw [h.phase sd', if_pos (by rw [OrderedSet.mem_def, honly]; exact List.mem_cons_self)]
        have hleft : Phase.next .idle (.client (.received sd' (answers.bytesRead sd')))
            = some .gone := if_pos hgone.2
        show phaseIn sd' (s.log ++ ([_] ++ [_])) = _
        rw [← List.append_assoc]
        exact phaseIn_next rfl (phaseIn_next rfl hidle hleft) rfl
      · have hother : ∀ event ∈ [Event.received sd (answers.bytesRead sd), .closed sd].map
            MainEvent.client, event.party? ≠ some sd' := by
          simpa [MainEvent.party?] using Ne.symm hsd
        have hnever : sd' ∉ s.clients := by
          rw [OrderedSet.mem_def, honly, List.mem_singleton]
          exact hsd
        rw [phaseIn_other hother, h.phase sd', if_neg hnever]

/-- What `select` leaves in the set. -/
def reported (listener : Int) (s : Main) (env : Round) : List Int :=
  match env.select with
  | none => []
  | some left => (listener :: s.clients.elems).filter (· ∈ left)

/-- What the sweep of a round is given. -/
def answersOf (listener : Int) (s : Main) (env : Round) : Answers where
  ready := fun sd => sd ∈ reported listener s env
  waiting := env.waiting

/-- `select` was asked. -/
def Main.asked (s : Main) (listener m : Int) : Main :=
  s.note [.select (listener :: s.clients.elems) (m + 1)]

/-- Somebody was accepted. -/
def Main.joined (s : Main) (sock : Int) : Main :=
  { s.note [.accepted sock] with clients := s.clients.insert sock }

/-- The clients were swept. -/
def Main.swept (s : Main) (swept : State) : Main :=
  { s with clients := swept.clients, log := s.log ++ swept.log.map .client }

theorem mx_ok (listener : Int) (clients : OrderedSet Int) : ∃ m, mx listener clients = .ok m := by
  by_cases hempty : clients.isEmpty
  · exact ⟨listener, if_pos hempty⟩
  · obtain ⟨greatest, hmax⟩ := OrderedSet.maxElement_ok (mt List.isEmpty_iff.mpr hempty)
    exact ⟨max listener greatest, by rw [mx, if_neg hempty, hmax]; rfl⟩

/-- The branches of a round. -/
theorem round_run (hrunning : s.exited = false) {m : Int} (hm : mx listener s.clients = .ok m) :
    round listener env s
      = if reported listener s env = [] then .ok { s.asked listener m with exited := true }
        else if listener ∈ reported listener s env then
          if env.accept < 0 then .ok { s.asked listener m with exited := true }
          else if env.fcntl = -1 then .error (.runtimeError ("make nonblocked: " ++ env.strerror))
          else (sweepClients (answersOf listener s env) (s.clients.insert env.accept)).map
            ((s.asked listener m).joined env.accept).swept
        else (sweepClients (answersOf listener s env) s.clients).map
          (s.asked listener m).swept := by
  have hsweep (u : Main) (left : List Int) (hselect : env.select = some left) :
      sweepRound ((listener :: s.clients.elems).filter (· ∈ left)) env u
        = (sweepClients (answersOf listener s env) u.clients).map u.swept := by
    rw [sweepRound, answersOf, reported, hselect]
    rfl
  have hgoes : ¬ s.exited = true := by
    rw [hrunning]
    exact Bool.false_ne_true
  rw [round, if_neg hgoes, hm, ok_bind]
  cases hselect : env.select with
  | none =>
      have hnone : reported listener s env = [] := by rw [reported, hselect]
      rw [if_pos hnone]
      rfl
  | some left =>
      have hreported :
          reported listener s env = (listener :: s.clients.elems).filter (· ∈ left) := by
        rw [reported, hselect]
      rw [hreported]
      show (if (listener :: s.clients.elems).filter (· ∈ left) = [] then _ else _) = _
      refine if_congr Iff.rfl rfl ?_
      by_cases hlistener : listener ∈ (listener :: s.clients.elems).filter (· ∈ left)
      · rw [if_pos hlistener, if_pos hlistener, acceptClient]
        by_cases haccept : env.accept < 0
        · rw [if_pos haccept, if_pos haccept]
          rfl
        · rw [if_neg haccept, if_neg haccept, setNonBlockedImpl]
          by_cases hfcntl : env.fcntl = -1
          · rw [if_pos hfcntl, if_pos hfcntl]
            rfl
          · rw [if_neg hfcntl, if_neg hfcntl]
            refine Eq.trans ?_ (hsweep ((s.asked listener m).joined env.accept) left hselect)
            show (if s.exited = true then _ else _) = _
            rw [if_neg hgoes]
            rfl
      · rw [if_neg hlistener, if_neg hlistener]
        refine Eq.trans ?_ (hsweep (s.asked listener m) left hselect)
        show (if s.exited = true then _ else _) = _
        rw [if_neg hgoes]
        rfl

/-- A round that came to its sweep. -/
theorem Serves.of_sweep {u : Main} (h : Serves listener u) {answers : Answers}
    (hswept : (sweepClients answers u.clients).map u.swept = .ok t) : Serves listener t := by
  rcases sweepClients_cases answers u.clients with ⟨swept, hrun, hto⟩ | ⟨-, -, hrun⟩
  · rw [hrun] at hswept
    injection hswept with hswept
    exact hswept ▸ h.sweep hto
  · rw [hrun] at hswept
    injection hswept

/-- **A round keeps everybody served in turn.** -/
theorem Serves.round (h : Serves listener s) (hfresh : Fresh listener s env)
    (hround : round listener env s = .ok t) : Serves listener t := by
  cases hrunning : s.exited with
  | true =>
      rw [ServerSelect.round, if_pos hrunning] at hround
      injection hround with hround
      exact hround ▸ h
  | false =>
      obtain ⟨m, hm⟩ := mx_ok listener s.clients
      have hasked : Serves listener (s.asked listener m) := h.select hm
      have hleft : Serves listener { s.asked listener m with exited := true } :=
        ⟨hasked.apart, hasked.phase, hasked.asked⟩
      rw [round_run hrunning hm] at hround
      split at hround
      · injection hround with hround
        exact hround ▸ hleft
      split at hround
      · split at hround
        · injection hround with hround
          exact hround ▸ hleft
        split at hround
        · injection hround
        · have hjoined : Serves listener ((s.asked listener m).joined env.accept) :=
            hasked.accept hfresh
          exact hjoined.of_sweep hround
      · exact hasked.of_sweep hround

theorem serves_start (listener : Int) : Serves listener .start := by
  refine ⟨List.not_mem_nil, fun sd => rfl, .nil⟩

/--
**Everybody who is connected is served in turn.**  In every state of a run the log has, for
every descriptor, whole conversations and at most one that is not over yet, which is that of
a client in the set: each message was answered before the next one was read, and each client
that was gone was closed at once.  `select` was always asked about the listener and those who
were connected, each of them once and within its bound.
-/
theorem main_serves (rounds : List Round)
    (hfresh : Guarded (round listener) (Fresh listener) .start rounds) :
    Always (round listener) .start rounds (Serves listener) := by
  intro before after t hsplit hrun
  rw [hsplit] at hfresh
  exact hfresh.of_append.keeps
    (fun env s t h hfresh hround => h.round hfresh hround) (serves_start listener) hrun

/-- One client that says something and leaves. -/
def shortVisit : List Round :=
  [{ select := some [3], accept := 4 }, { select := some [4], waiting := fun _ => some [104, 105] },
    { select := some [4], waiting := fun _ => some [] }]

theorem main_serves_shortVisit : Always (round 3) .start shortVisit (Serves 3) :=
  main_serves shortVisit
    (.cons (show Fresh 3 _ _ from ⟨by decide, by decide⟩) rfl
      (.cons (show Fresh 3 _ _ from ⟨by decide, by decide⟩) rfl
        (.cons (show Fresh 3 _ _ from ⟨by decide, by decide⟩) rfl .nil)))

/-! ### How long it runs -/

/-- The clients that are swept over. -/
def present (listener : Int) (s : Main) (env : Round) : OrderedSet Int :=
  if listener ∈ reported listener s env then s.clients.insert env.accept else s.clients

/-- `select` or `accept` fails. -/
def Leaves (listener : Int) (s : Main) (env : Round) : Prop :=
  reported listener s env = [] ∨ listener ∈ reported listener s env ∧ env.accept < 0

/-- No message was trimmed until nothing was left of it. -/
def Tidy (s : Main) : Prop := ∀ stray, MainEvent.client (.stray stray) ∉ s.log

/--
No iterator is used whose element was erased, no exception leaves `main`, and the `back()` of an
empty string is never read.
-/
structure RunsOn (result : Except Fault Main) : Prop where
  iterators : result ≠ .error (.undefined .danglingIterator)
  exceptions : ∀ what, result ≠ .error (.runtimeError what)
  trimming : ∀ t, result = .ok t → Tidy t

/-- A message that comes in is not only line ends. -/
def Says (answers : Answers) (sd : Int) : Prop :=
  answers.ready sd → 0 < answers.bytesRead sd → HasText (answers.bytes sd)

/--
Nobody leaves while somebody else is there, no message is only line ends, and a new client can be
made non-blocking.
-/
def Lively (listener : Int) (s : Main) (env : Round) : Prop :=
  s.exited = true ∨ Leaves listener s env ∨
    (listener ∈ reported listener s env → env.fcntl ≠ -1) ∧
      ((∀ sd ∈ present listener s env, ¬ Gone (answersOf listener s env) sd) ∨
        (present listener s env).elems.length = 1) ∧
      ∀ sd ∈ present listener s env, Says (answersOf listener s env) sd

/-! ### What was trimmed -/

theorem tidy_append {s t : Main} {events : List MainEvent} (hlog : t.log = s.log ++ events) :
    Tidy t ↔ Tidy s ∧ ∀ stray, MainEvent.client (.stray stray) ∉ events := by
  simp only [Tidy, hlog, List.mem_append, not_or, forall_and]

theorem tidy_asked {m : Int} : Tidy (s.asked listener m) ↔ Tidy s :=
  (tidy_append rfl).trans (and_iff_left (by simp))

theorem tidy_joined {sock : Int} : Tidy (s.joined sock) ↔ Tidy s :=
  (tidy_append rfl).trans (and_iff_left (by simp))

/-- A client that is not gone leaves the log tidy if it says something. -/
theorem events_tidy_iff {sd : Int} (hkept : ¬ Gone answers sd) :
    (∀ stray, Event.stray stray ∉ events answers sd) ↔ Says answers sd := by
  by_cases hready : answers.ready sd
  · have hpos : 0 < answers.bytesRead sd := (kept_iff sd).mp hkept hready
    by_cases htext : HasText (answers.bytes sd)
    · have hleft : trimEols (answers.bytes sd) ≠ [] := mt trimEols_eq_nil_iff.mp (not_not.mpr htext)
      exact iff_of_true (by simp [events, hready, hleft]) fun _ _ => htext
    · have hnone : trimEols (answers.bytes sd) = [] := trimEols_eq_nil_iff.mpr htext
      refine iff_of_false ?_ fun htold => htext (htold hready hpos)
      intro htidy
      refine htidy .emptyBack ?_
      simp [events, hready, hnone]
  · exact iff_of_true (by simp [events, hready]) fun hready' => absurd hready' hready

/-- So does a sweep that ends, if everybody does. -/
theorem SweptTo.tidy_iff {swept : State} (h : SweptTo answers clients swept) :
    (∀ stray, Event.stray stray ∉ swept.log) ↔ ∀ sd ∈ clients, Says answers sd := by
  cases h with
  | kept hkept =>
      constructor
      · intro htidy sd hmem
        refine (events_tidy_iff (hkept sd hmem)).mp ?_
        intro stray hstray
        exact htidy stray (List.mem_flatMap.mpr ⟨sd, OrderedSet.mem_def.mp hmem, hstray⟩)
      · intro htold stray hstray
        obtain ⟨sd, hmem, hstray⟩ := List.mem_flatMap.mp hstray
        exact (events_tidy_iff (hkept sd hmem)).mpr (htold sd hmem) stray hstray
  | @emptied sd honly hgone =>
      refine iff_of_true (by simp) ?_
      intro sd' hmem hready hpos
      rw [OrderedSet.mem_def, honly, List.mem_singleton] at hmem
      subst hmem
      exact absurd hgone.2 (Int.not_le.mpr hpos)

/-! ### The rounds that go well -/

theorem sweep_tidy_iff (answers : Answers) (clients : OrderedSet Int) (u : Main) :
    (∃ t, (sweepClients answers clients).map u.swept = .ok t ∧ Tidy t) ↔
      Tidy u ∧ ((∀ sd ∈ clients, ¬ Gone answers sd) ∨ clients.elems.length = 1) ∧
        ∀ sd ∈ clients, Says answers sd := by
  rcases sweepClients_cases answers clients with ⟨swept, hrun, hto⟩ | ⟨hgone, hone, hrun⟩
  · have hfine : (∀ sd ∈ clients, ¬ Gone answers sd) ∨ clients.elems.length = 1 := by
      cases hto with
      | kept hkept => exact .inl hkept
      | emptied honly => exact .inr (by rw [honly]; rfl)
    have htidy : Tidy (u.swept swept) ↔ Tidy u ∧ ∀ sd ∈ clients, Says answers sd := by
      rw [tidy_append (s := u) rfl, ← hto.tidy_iff]
      simp
    rw [hrun, and_iff_right hfine, ← htidy]
    constructor
    · rintro ⟨t, ht, hclean⟩
      injection ht with ht
      exact ht ▸ hclean
    · intro hclean
      exact ⟨_, rfl, hclean⟩
  · refine iff_of_false ?_ ?_
    · rintro ⟨t, ht, -⟩
      rw [hrun] at ht
      injection ht
    · obtain ⟨sd, hmem, hgone⟩ := hgone
      rintro ⟨-, hkept | hone', -⟩
      · exact hkept sd hmem hgone
      · exact hone hone'

theorem ok_tidy_iff {t : Main} (h : Tidy t ↔ Tidy s) :
    (∃ u, (.ok t : Except Fault Main) = .ok u ∧ Tidy u) ↔ Tidy s := by
  constructor
  · rintro ⟨u, hu, hclean⟩
    injection hu with hu
    exact h.mp (hu ▸ hclean)
  · intro hclean
    exact ⟨t, rfl, h.mpr hclean⟩

/-- The rounds that have a meaning. -/
theorem round_tidy_iff :
    (∃ t, round listener env s = .ok t ∧ Tidy t) ↔ Tidy s ∧ Lively listener s env := by
  cases hrunning : s.exited with
  | true =>
      rw [round, if_pos hrunning, ok_tidy_iff Iff.rfl]
      exact (and_iff_left (.inl hrunning)).symm
  | false =>
      obtain ⟨m, hm⟩ := mx_ok listener s.clients
      have hleft : Tidy { s.asked listener m with exited := true } ↔ Tidy s := tidy_asked
      rw [round_run hrunning hm, Lively, hrunning, or_iff_right Bool.false_ne_true]
      by_cases hnone : reported listener s env = []
      · rw [if_pos hnone, ok_tidy_iff hleft]
        exact (and_iff_left (.inl (.inl hnone))).symm
      rw [if_neg hnone]
      by_cases hlistener : listener ∈ reported listener s env
      · rw [if_pos hlistener]
        by_cases haccept : env.accept < 0
        · rw [if_pos haccept, ok_tidy_iff hleft]
          exact (and_iff_left (.inl (.inr ⟨hlistener, haccept⟩))).symm
        have hstays : ¬ Leaves listener s env := by
          rintro (hnone' | ⟨-, haccept'⟩)
          · exact hnone hnone'
          · exact haccept haccept'
        rw [if_neg haccept, or_iff_right hstays]
        by_cases hfcntl : env.fcntl = -1
        · rw [if_pos hfcntl]
          refine iff_of_false ?_ fun hlively => hlively.2.1 hlistener hfcntl
          rintro ⟨t, ht, -⟩
          injection ht
        · rw [if_neg hfcntl, sweep_tidy_iff, tidy_joined, tidy_asked, present, if_pos hlistener]
          exact and_congr_right fun _ => (and_iff_right fun _ => hfcntl).symm
      · have hstays : ¬ Leaves listener s env := by
          rintro (hnone' | ⟨hlistener', -⟩)
          · exact hnone hnone'
          · exact hlistener hlistener'
        rw [if_neg hlistener, sweep_tidy_iff, tidy_asked, or_iff_right hstays, present,
          if_neg hlistener]
        exact and_congr_right fun _ =>
          (and_iff_right fun hlistener' => absurd hlistener' hlistener).symm

/-- A round ends in nothing else. -/
theorem round_runsOn {e : Fault} (h : round listener env s = .error e) :
    ¬ RunsOn (.error e) := by
  have hswept {answers : Answers} {clients : OrderedSet Int} {u : Main}
      (h : (sweepClients answers clients).map u.swept = .error e) : ¬ RunsOn (.error e) := by
    rcases sweepClients_cases answers clients with ⟨swept, hrun, -⟩ | ⟨-, -, hrun⟩
    · rw [hrun] at h
      injection h
    · rw [hrun] at h
      injection h with h
      exact fun hruns => hruns.iterators (congrArg Except.error h.symm)
  cases hrunning : s.exited with
  | true =>
      rw [round, if_pos hrunning] at h
      injection h
  | false =>
      obtain ⟨m, hm⟩ := mx_ok listener s.clients
      rw [round_run hrunning hm] at h
      split at h
      · injection h
      split at h
      · split at h
        · injection h
        split at h
        · injection h with h
          exact fun hruns => hruns.exceptions _ (congrArg Except.error h.symm)
        · exact hswept h
      · exact hswept h

/-- It runs on if it gets through and has a tidy log. -/
theorem runsOn_iff (rounds : List Round) : ∀ s : Main,
    RunsOn (machineRun (round listener) s rounds) ↔
      ∃ t, machineRun (round listener) s rounds = .ok t ∧ Tidy t := by
  induction rounds with
  | nil =>
      intro s
      constructor
      · intro hruns
        exact ⟨s, rfl, hruns.trimming s rfl⟩
      · rintro ⟨t, ht, hclean⟩
        refine ⟨nofun, nofun, ?_⟩
        intro u hu
        rw [ht] at hu
        injection hu with hu
        exact hu ▸ hclean
  | cons env rounds ih =>
      intro s
      cases hround : round listener env s with
      | ok u =>
          rw [machineRun_cons_ok hround]
          exact ih u
      | error e =>
          rw [machineRun_cons_error hround]
          exact iff_of_false (round_runsOn hround) nofun

/--
**`main` runs on exactly as long as nobody leaves while somebody else is connected**, no message
is only line ends, and every new client can be made non-blocking.  The client that is accepted in
the same round counts already.
-/
theorem main_runs_iff (rounds : List Round) :
    RunsOn (machineRun (round listener) .start rounds) ↔
      Guarded (round listener) (Lively listener) .start rounds := by
  have hstart : Tidy .start := fun _ => List.not_mem_nil
  have hrun := @machineRun_clean_iff _ _ (round listener) (Lively listener) Tidy
    (fun _ _ => round_tidy_iff) rounds .start
  rw [runsOn_iff, hrun]
  exact and_iff_right hstart

end Technopark.ServerSelect
