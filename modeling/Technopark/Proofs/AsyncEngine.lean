/-
When a connection of the asynchronous engine is closed exactly once.

The destructor of a `Connection` closes its descriptor, and so does a worker whose `read` has
failed.  The worker then drops its event, and with the last event goes the connection: its
descriptor is closed once more.  `Change` says once what a step can do to the connections;
the balance behind the theorem is that a connection was closed once for every failed read,
and once more if it is gone.
-/
import Technopark.Lib.Ledger
import Technopark.Lib.Run
import Technopark.Net.AsyncEngine

namespace Technopark.AsyncPollEngine

variable {s t : State}

/-! ### The property and the condition -/

/-- How often the descriptor of a connection was closed. -/
def closes (conn : ConnId) (log : List Note) : Nat :=
  log.countP fun
    | .closed c _ => c = conn
    | _ => false

/-- How often a read for a connection has failed. -/
def failures (conn : ConnId) (log : List Note) : Nat := log.count (.readFailed conn)

/-- Every connection that is gone was closed once, and none of the others was. -/
def ClosedOnce (s : State) : Prop :=
  ∀ (conn : ConnId) (c : Connection), s.conns[conn]? = some c →
    closes conn s.log = if c.alive then 0 else 1

/-- The step is a `read` that returns `-1`. -/
def FailsRead (s : State) : Action → Prop
  | .answer w result => ∃ event, s.workers[w]? = some (.taken event) ∧
      event.client.state = .wantRead ∧ result.r < 0
  | _ => False

/-! ### What a step does -/

/-- Which connections exist. -/
def State.alive (s : State) : List Bool := s.conns.map Connection.alive

/-- Notes that are neither a failed read nor a close. -/
def Quiet (notes : List Note) : Prop :=
  ∀ conn, closes conn notes = 0 ∧ failures conn notes = 0

/-- Nothing happens to the connections: none is made, dropped or closed, and none is new held. -/
structure Quietly (s t : State) : Prop where
  alive : t.alive = s.alive
  holders : t.holders ⊆ s.holders
  log : ∃ notes, t.log = s.log ++ notes ∧ Quiet notes

/-- What a step other than a failed read can do. -/
inductive Change (s t : State) : Prop
  | quiet (h : Quietly s t)
  | accepted (halive : t.alive = s.alive ++ [true])
      (hholders : ∀ conn ∈ t.holders, conn ∈ s.holders ∨ conn = s.alive.length)
      (hlog : t.log = s.log)
  | destroyed (conn : ConnId) (sd : Int) (hheld : conn ∈ s.holders) (hfree : conn ∉ t.holders)
      (halive : t.alive = s.alive.set conn false) (hholders : t.holders ⊆ s.holders)
      (hlog : t.log = s.log ++ [.closed conn sd])

/-- What a failed read does. -/
structure Failed (s t : State) (conn : ConnId) (sd : Int) : Prop where
  held : conn ∈ s.holders
  alive : t.alive = s.alive
  holders : t.holders ⊆ s.holders
  log : t.log = s.log ++ [.readFailed conn, .closed conn sd]

theorem closes_append (conn : ConnId) (log notes : List Note) :
    closes conn (log ++ notes) = closes conn log + closes conn notes := List.countP_append

theorem failures_append (conn : ConnId) (log notes : List Note) :
    failures conn (log ++ notes) = failures conn log + failures conn notes := List.count_append

theorem Quietly.refl (s : State) : Quietly s s :=
  ⟨rfl, fun _ h => h, [], (List.append_nil _).symm, fun _ => ⟨rfl, rfl⟩⟩

theorem Quietly.trans {u : State} (h : Quietly s t) (h' : Quietly t u) : Quietly s u := by
  obtain ⟨notes, hlog, hquiet⟩ := h.log
  obtain ⟨notes', hlog', hquiet'⟩ := h'.log
  refine ⟨h'.alive.trans h.alive, fun c hc => h.holders (h'.holders hc), notes ++ notes', ?_, ?_⟩
  · rw [hlog', hlog, List.append_assoc]
  · intro conn
    rw [closes_append, failures_append, (hquiet conn).1, (hquiet conn).2, (hquiet' conn).1,
      (hquiet' conn).2]
    exact ⟨rfl, rfl⟩

/-- A change that leaves the log alone. -/
theorem Quietly.of_log_eq (halive : t.alive = s.alive) (hholders : t.holders ⊆ s.holders)
    (hlog : t.log = s.log) : Quietly s t :=
  ⟨halive, hholders, [], by rw [hlog, List.append_nil], fun _ => ⟨rfl, rfl⟩⟩

theorem mem_holders {conn : ConnId} :
    conn ∈ s.holders ↔ (∃ e ∈ s.wantWork, e.work = conn) ∨ (∃ e ∈ s.haveWork, e.work = conn) ∨
      (∃ worker ∈ s.workers, ∃ e, worker.event? = some e ∧ e.work = conn) ∨
      s.acceptor.conn? = some conn := by
  simp only [State.holders, List.mem_append, List.mem_map, List.mem_filterMap,
    Option.map_eq_some_iff, Option.mem_toList, or_assoc]

theorem want_held {event : Event ConnId} (h : event ∈ s.wantWork) : event.work ∈ s.holders :=
  mem_holders.mpr (.inl ⟨event, h, rfl⟩)

theorem have_held {event : Event ConnId} (h : event ∈ s.haveWork) : event.work ∈ s.holders :=
  mem_holders.mpr (.inr (.inl ⟨event, h, rfl⟩))

theorem worker_held {worker : Worker} {event : Event ConnId} (h : worker ∈ s.workers)
    (hevent : worker.event? = some event) : event.work ∈ s.holders :=
  mem_holders.mpr (.inr (.inr (.inl ⟨worker, h, event, hevent, rfl⟩)))

theorem acceptor_held {conn : ConnId} (h : s.acceptor.conn? = some conn) : conn ∈ s.holders :=
  mem_holders.mpr (.inr (.inr (.inr h)))

/-- Who holds what after a step was held before it. -/
theorem holders_subset (hwant : ∀ e ∈ t.wantWork, e.work ∈ s.holders)
    (hhave : ∀ e ∈ t.haveWork, e.work ∈ s.holders)
    (hworkers : ∀ worker ∈ t.workers, ∀ e, worker.event? = some e → e.work ∈ s.holders)
    (hacceptor : ∀ conn, t.acceptor.conn? = some conn → conn ∈ s.holders) :
    t.holders ⊆ s.holders := by
  intro conn hconn
  rcases mem_holders.mp hconn with ⟨e, he, rfl⟩ | ⟨e, he, rfl⟩ | ⟨worker, hworker, e, he, rfl⟩ | h
  · exact hwant e he
  · exact hhave e he
  · exact hworkers worker hworker e he
  · exact hacceptor conn h

/-- The same for a step on the queues alone. -/
theorem holders_queues (hworkers : t.workers = s.workers) (hacceptor : t.acceptor = s.acceptor)
    (hwant : ∀ e ∈ t.wantWork, e.work ∈ s.holders)
    (hhave : ∀ e ∈ t.haveWork, e.work ∈ s.holders) : t.holders ⊆ s.holders := by
  refine holders_subset hwant hhave ?_ ?_
  · intro worker hworker e he
    exact worker_held (hworkers ▸ hworker) he
  · intro conn hconn
    exact acceptor_held (hacceptor ▸ hconn)

/-- A worker goes on with an event that was held before. -/
theorem holders_goto {w : Nat} {new : Worker} (hholders : t.holders ⊆ s.holders)
    (hnew : ∀ e, new.event? = some e → e.work ∈ s.holders) :
    (t.goto w new).holders ⊆ s.holders := by
  refine holders_subset (fun e he => hholders (want_held he)) (fun e he => hholders (have_held he))
    ?_ (fun conn hconn => hholders (acceptor_held hconn))
  intro worker hworker e he
  rcases List.mem_or_eq_of_mem_set hworker with hold | rfl
  · exact hholders (worker_held hold he)
  · exact hnew e he

/-- Queueing an event of a connection that is held. -/
theorem holders_push {conn : ConnId} (hheld : conn ∈ s.holders) (sd : Int) (state : ClientState) :
    (s.push sd state conn).holders ⊆ s.holders := by
  refine holders_queues rfl rfl ?_ (fun e he => have_held (s := s) he)
  intro e he
  rcases List.mem_append.mp he with he | he
  · exact want_held he
  · rw [List.mem_singleton.mp he]
    exact hheld

theorem note_quietly (s : State) {notes : List Note} (h : Quiet notes) :
    Quietly s (s.note notes) := ⟨rfl, fun _ hc => hc, notes, rfl, h⟩

theorem Quietly.goto (h : Quietly s t) {w : Nat} {new : Worker}
    (hnew : ∀ e, new.event? = some e → e.work ∈ s.holders) : Quietly s (t.goto w new) :=
  ⟨h.alive, holders_goto h.holders hnew, h.log⟩

theorem assign_quietly (s : State) (conn : ConnId) (bytes : Bytes) :
    Quietly s (s.assign conn bytes) := by
  unfold State.assign
  split
  · exact .refl s
  · next c hget => exact .of_log_eq (map_set_key Connection.alive hget rfl) (fun _ hc => hc) rfl

theorem read_quietly {conn : ConnId} (hheld : conn ∈ s.holders) : Quietly s (read conn s) := by
  unfold read
  split
  · exact .refl s
  · exact .of_log_eq rfl (holders_push hheld _ _) rfl

theorem write_quietly {conn : ConnId} (hheld : conn ∈ s.holders) (text : Bytes) :
    Quietly s (write conn text s) := by
  unfold write
  split
  · exact .refl s
  · next c hget =>
      have hbuf : Quietly s { s with conns := s.conns.set conn { c with writeBuf := text } } :=
        .of_log_eq (map_set_key Connection.alive hget rfl) (fun _ hc => hc) rfl
      exact hbuf.trans (.of_log_eq rfl (holders_push hheld _ _) rfl)

theorem readHandler_quietly {conn : ConnId} (hheld : conn ∈ s.holders) :
    Quietly s (readHandler conn s) := by
  unfold readHandler
  split
  · exact .refl s
  · next c hget =>
      dsimp only
      split_ifs
      · exact .refl s
      · have hnote : Quietly s (s.note [.stray conn .emptyBack]) :=
          note_quietly s fun _ => ⟨rfl, rfl⟩
        have hsame : conn ∈ (s.note [.stray conn .emptyBack]).holders := hheld
        exact hnote.trans (write_quietly hsame _)
      · exact write_quietly hheld _

/-- The callback of a worker's event. -/
theorem callback_quietly {w : Nat} {event : Event ConnId} (hheld : event.work ∈ s.holders) :
    Quietly s (callback w event s) := by
  have hevent : ∀ e, (Worker.done event).event? = some e → e.work ∈ s.holders := by
    intro e he
    rw [← Option.some.inj he]
    exact hheld
  unfold callback
  split
  · exact (readHandler_quietly hheld).goto hevent
  · exact (read_quietly hheld).goto hevent

/-- A `read` that did not fail, or a `write`. -/
theorem answer_quietly {w : Nat} {event : Event ConnId} {result : ReadResult}
    (hheld : event.work ∈ s.holders)
    (hok : event.client.state = .wantRead → ¬ result.r < 0) :
    Quietly s (answer w event result s) := by
  have hevent : ∀ e, (Worker.answered event).event? = some e → e.work ∈ s.holders := by
    intro e he
    rw [← Option.some.inj he]
    exact hheld
  unfold answer
  split
  · next hstate =>
      rw [if_neg (hok hstate)]
      dsimp only
      split_ifs
      · have hnote : Quietly s (s.note [.stray event.work .terminator]) :=
          note_quietly s fun _ => ⟨rfl, rfl⟩
        exact (hnote.trans (assign_quietly _ _ _)).goto hevent
      · exact (assign_quietly _ _ _).goto hevent
  · exact (note_quietly s fun _ => ⟨rfl, rfl⟩).goto hevent

/-- A `read` that failed. -/
theorem answer_failed {w : Nat} {event : Event ConnId} {result : ReadResult}
    (hheld : event.work ∈ s.holders) (hstate : event.client.state = .wantRead)
    (hfail : result.r < 0) :
    Failed s (answer w event result s) event.work event.client.sd := by
  have hanswer : answer w event result s
      = (s.note [.readFailed event.work, .closed event.work event.client.sd]).goto w
        (.done event) := by
    rw [answer, hstate]
    exact if_pos hfail
  rw [hanswer]
  refine ⟨hheld, rfl, holders_goto (fun _ hc => hc) ?_, rfl⟩
  intro e he
  rw [← Option.some.inj he]
  exact hheld

/-- A `shared_ptr` is dropped. -/
theorem release_change {conn : ConnId} (hheld : conn ∈ s.holders) (hquiet : Quietly s t)
    (hlog : t.log = s.log) : Change s (t.release conn) := by
  unfold State.release
  split_ifs with hstill
  · exact .quiet hquiet
  · split
    · exact .quiet hquiet
    · next c hget =>
        refine .destroyed conn c.sd hheld hstill ?_ hquiet.holders ?_
        · show (t.conns.set conn { c with alive := false }).map Connection.alive = _
          rw [List.map_set, ← hquiet.alive]
          rfl
        · show t.log ++ [.closed conn c.sd] = _
          rw [hlog]

/-- A connection is accepted. -/
theorem accept_change (s : State) (sd : Int) :
    Change s { s with
      conns := s.conns ++ [{ sd := sd }], acceptor := .accepted s.conns.length } := by
  refine .accepted ?_ ?_ rfl
  · simp [State.alive]
  · intro conn hconn
    rcases mem_holders.mp hconn with hwant | hhave | hworker | hacceptor
    · exact .inl (mem_holders.mpr (.inl hwant))
    · exact .inl (mem_holders.mpr (.inr (.inl hhave)))
    · exact .inl (mem_holders.mpr (.inr (.inr (.inl hworker))))
    · refine .inr ?_
      rw [← Option.some.inj hacceptor, State.alive, List.length_map]

/-- Its first event is queued. -/
theorem startRead_quietly {conn : ConnId} (hacceptor : s.acceptor = .accepted conn) :
    Quietly s { read conn s with acceptor := .started conn } := by
  have hheld : conn ∈ s.holders := acceptor_held (by rw [hacceptor]; rfl)
  have hread := read_quietly hheld
  refine ⟨hread.alive, ?_, hread.log⟩
  refine holders_subset (fun _ he => hread.holders (want_held he))
    (fun _ he => hread.holders (have_held he))
    (fun _ hworker _ he => hread.holders (worker_held hworker he)) ?_
  intro c hc
  rw [← Option.some.inj hc]
  exact hheld

/-- The acceptor lets go of it. -/
theorem forget_change {conn : ConnId} (hacceptor : s.acceptor = .started conn) :
    Change s ({ s with acceptor := .polling }.release conn) := by
  have hheld : conn ∈ s.holders := acceptor_held (by rw [hacceptor]; rfl)
  refine release_change hheld (.of_log_eq rfl ?_ rfl) rfl
  exact holders_subset (fun e he => want_held (s := s) he) (fun e he => have_held (s := s) he)
    (fun _ hworker _ => worker_held (s := s) hworker)
    (fun _ hconn => absurd hconn (by simp [Acceptor.conn?]))

/-- The manager copies an event to the other queue. -/
theorem handOver_quietly {i : Nat} {event : Event ConnId} (hget : s.wantWork[i]? = some event) :
    Quietly s { s with haveWork := s.haveWork ++ [event] } := by
  refine .of_log_eq rfl ?_ rfl
  refine holders_queues rfl rfl (fun e he => want_held (s := s) he) ?_
  intro e he
  rcases List.mem_append.mp he with he | he
  · exact have_held he
  · rw [List.mem_singleton.mp he]
    exact want_held (List.mem_of_getElem? hget)

/-- The manager drops an event. -/
theorem deleteClient_change {sd : Int} {event : Event ConnId}
    (hfind : s.wantWork.find? (fun event => event.client.sd = sd) = some event) :
    Change s ({ s with
      wantWork := s.wantWork.eraseP fun event => event.client.sd = sd }.release event.work) := by
  refine release_change (want_held (List.mem_of_find?_eq_some hfind)) (.of_log_eq rfl ?_ rfl) rfl
  exact holders_queues rfl rfl (fun e he => want_held (List.mem_of_mem_eraseP he))
    (fun e he => have_held (s := s) he)

/-- A worker pops an event. -/
theorem take_quietly {w : Nat} {event : Event ConnId} {rest : List (Event ConnId)}
    (hhave : s.haveWork = event :: rest) :
    Quietly s ({ s with haveWork := rest }.goto w (.taken event)) := by
  have hrest : Quietly s { s with haveWork := rest } := by
    refine .of_log_eq rfl ?_ rfl
    refine holders_queues rfl rfl (fun e he => want_held (s := s) he) ?_
    intro e he
    exact have_held (by rw [hhave]; exact List.mem_cons_of_mem _ he)
  refine hrest.goto ?_
  intro e he
  rw [← Option.some.inj he]
  exact have_held (by rw [hhave]; simp)

/-- A worker drops its event. -/
theorem finish_change {w : Nat} {event : Event ConnId} (hget : s.workers[w]? = some (.done event)) :
    Change s ((s.goto w .idle).release event.work) := by
  refine release_change (worker_held (List.mem_of_getElem? hget) rfl) ?_ rfl
  exact (Quietly.refl s).goto fun e he => absurd he (by simp [Worker.event?])

/-- A worker reads or writes. -/
theorem answer_change {w : Nat} {result : ReadResult} {event : Event ConnId}
    (hget : s.workers[w]? = some (.taken event)) :
    (FailsRead s (.answer w result) ∧ ∃ conn sd, Failed s (answer w event result s) conn sd) ∨
      (¬ FailsRead s (.answer w result) ∧ Change s (answer w event result s)) := by
  have hheld : event.work ∈ s.holders := worker_held (List.mem_of_getElem? hget) rfl
  by_cases hfail : event.client.state = .wantRead ∧ result.r < 0
  · exact .inl ⟨⟨event, hget, hfail.1, hfail.2⟩, _, _, answer_failed hheld hfail.1 hfail.2⟩
  · refine .inr ⟨?_, .quiet (answer_quietly hheld fun hstate hr => hfail ⟨hstate, hr⟩)⟩
    rintro ⟨event', hget', hstate, hr⟩
    rw [hget] at hget'
    obtain rfl := Worker.taken.inj (Option.some.inj hget')
    exact hfail ⟨hstate, hr⟩

/-- **What a step can do.** -/
theorem step_change {action : Action} (hstep : step action s = .ok t) :
    (FailsRead s action ∧ ∃ conn sd, Failed s t conn sd) ∨ (¬ FailsRead s action ∧ Change s t) := by
  -- a step that is not enabled leaves the state as it is
  have hidle : Change s s := .quiet (.refl s)
  cases action with
  | accept sd =>
      refine .inr ⟨id, ?_⟩
      simp only [step] at hstep
      split_ifs at hstep
      · exact Except.ok.inj hstep ▸ accept_change s sd
      · exact Except.ok.inj hstep ▸ hidle
  | startRead =>
      refine .inr ⟨id, ?_⟩
      simp only [step] at hstep
      split at hstep
      · next conn hacceptor => exact Except.ok.inj hstep ▸ .quiet (startRead_quietly hacceptor)
      · exact Except.ok.inj hstep ▸ hidle
  | forget =>
      refine .inr ⟨id, ?_⟩
      simp only [step] at hstep
      split at hstep
      · next conn hacceptor => exact Except.ok.inj hstep ▸ forget_change hacceptor
      · exact Except.ok.inj hstep ▸ hidle
  | handOver i =>
      refine .inr ⟨id, ?_⟩
      simp only [step] at hstep
      split at hstep
      · next event hget => exact Except.ok.inj hstep ▸ .quiet (handOver_quietly hget)
      · exact Except.ok.inj hstep ▸ hidle
  | deleteClient sd =>
      refine .inr ⟨id, ?_⟩
      simp only [step] at hstep
      split at hstep
      · next event hfind => exact Except.ok.inj hstep ▸ deleteClient_change hfind
      · exact absurd hstep (by simp)
  | take w =>
      refine .inr ⟨id, ?_⟩
      simp only [step] at hstep
      split at hstep
      · next event rest _ hhave => exact Except.ok.inj hstep ▸ .quiet (take_quietly hhave)
      · exact Except.ok.inj hstep ▸ hidle
  | answer w result =>
      simp only [step] at hstep
      split at hstep
      · next event hget => exact Except.ok.inj hstep ▸ answer_change hget
      · next hnone =>
          refine .inr ⟨?_, Except.ok.inj hstep ▸ hidle⟩
          rintro ⟨event, hget, -⟩
          exact hnone event hget
  | callback w =>
      refine .inr ⟨id, ?_⟩
      simp only [step] at hstep
      split at hstep
      · next event hget =>
          have hheld : event.work ∈ s.holders := worker_held (List.mem_of_getElem? hget) rfl
          exact Except.ok.inj hstep ▸ .quiet (callback_quietly hheld)
      · exact Except.ok.inj hstep ▸ hidle
  | finish w =>
      refine .inr ⟨id, ?_⟩
      simp only [step] at hstep
      split at hstep
      · next event hget => exact Except.ok.inj hstep ▸ finish_change hget
      · exact Except.ok.inj hstep ▸ hidle

/-! ### The balance -/

/-- What holds in every state. -/
structure Balanced (s : State) : Prop where
  /-- Whoever is held exists. -/
  held : ∀ conn ∈ s.holders, s.alive[conn]? = some true
  /-- One close for every failed read, and one for the destructor. -/
  balance : ∀ (conn : ConnId) (alive : Bool), s.alive[conn]? = some alive →
    closes conn s.log = failures conn s.log + if alive then 0 else 1
  /-- Nothing is noted for connections that were not accepted yet. -/
  unknown : ∀ conn, s.alive.length ≤ conn → closes conn s.log = 0 ∧ failures conn s.log = 0

theorem start_balanced : Balanced start := ⟨by decide, by simp [start, State.alive],
  fun _ _ => ⟨rfl, rfl⟩⟩

theorem closes_closed (conn conn' : ConnId) (sd : Int) :
    closes conn [.closed conn' sd] = if conn' = conn then 1 else 0 := by
  by_cases h : conn' = conn <;> simp [closes, h]

theorem failures_failed (conn conn' : ConnId) (sd : Int) :
    failures conn [.readFailed conn', .closed conn' sd] = if conn' = conn then 1 else 0 := by
  by_cases h : conn' = conn <;> simp [failures, h]

theorem closes_failed (conn conn' : ConnId) (sd : Int) :
    closes conn [.readFailed conn', .closed conn' sd] = if conn' = conn then 1 else 0 := by
  rw [← closes_closed conn conn' sd]
  rfl

theorem Balanced.lt_length (h : Balanced s) {conn : ConnId} (hconn : conn ∈ s.holders) :
    conn < s.alive.length := (List.getElem?_eq_some_iff.mp (h.held conn hconn)).1

/-- A step other than a failed read keeps the balance. -/
theorem Change.balanced (h : Balanced s) (hchange : Change s t) :
    Balanced t ∧ ∀ conn, failures conn t.log = failures conn s.log := by
  cases hchange with
  | quiet hquiet =>
      obtain ⟨notes, hlog, hnotes⟩ := hquiet.log
      have hsame : ∀ conn, closes conn t.log = closes conn s.log ∧
          failures conn t.log = failures conn s.log := by
        intro conn
        rw [hlog, closes_append, failures_append, (hnotes conn).1, (hnotes conn).2]
        exact ⟨rfl, rfl⟩
      refine ⟨⟨?_, ?_, ?_⟩, fun conn => (hsame conn).2⟩
      · intro conn hconn
        rw [hquiet.alive]
        exact h.held conn (hquiet.holders hconn)
      · intro conn alive halive
        rw [hquiet.alive] at halive
        rw [(hsame conn).1, (hsame conn).2]
        exact h.balance conn alive halive
      · intro conn hconn
        rw [hquiet.alive] at hconn
        rw [(hsame conn).1, (hsame conn).2]
        exact h.unknown conn hconn
  | accepted halive hholders hlog =>
      refine ⟨⟨?_, ?_, ?_⟩, fun conn => by rw [hlog]⟩
      · intro conn hconn
        rw [halive]
        rcases hholders conn hconn with hold | rfl
        · rw [List.getElem?_append_left (h.lt_length hold)]
          exact h.held conn hold
        · simp
      · intro conn alive hget
        rw [halive] at hget
        rw [hlog]
        rcases Nat.lt_or_ge conn s.alive.length with hlt | hge
        · rw [List.getElem?_append_left hlt] at hget
          exact h.balance conn alive hget
        · -- the connection that was just accepted
          rw [List.getElem?_append_right hge] at hget
          have htrue := List.mem_singleton.mp (List.mem_of_getElem? hget)
          rw [htrue, (h.unknown conn hge).1, (h.unknown conn hge).2]
          rfl
      · intro conn hconn
        rw [halive, List.length_append] at hconn
        rw [hlog]
        exact h.unknown conn (by omega)
  | destroyed gone sd hheld hfree halive hholders hlog =>
      have hfailures : ∀ conn, failures conn t.log = failures conn s.log := by
        intro conn
        rw [hlog, failures_append]
        rfl
      refine ⟨⟨?_, ?_, ?_⟩, hfailures⟩
      · intro conn hconn
        have hne : gone ≠ conn := fun heq => hfree (heq ▸ hconn)
        rw [halive, List.getElem?_set_ne hne]
        exact h.held conn (hholders hconn)
      · intro conn alive hget
        rw [halive] at hget
        rw [hfailures, hlog, closes_append, closes_closed]
        by_cases heq : gone = conn
        · subst heq
          rw [List.getElem?_set_self (h.lt_length hheld)] at hget
          rw [← Option.some.inj hget, h.balance gone true (h.held gone hheld)]
          simp
        · rw [List.getElem?_set_ne heq] at hget
          rw [if_neg heq, h.balance conn alive hget]
          rfl
      · intro conn hconn
        rw [halive, List.length_set] at hconn
        have hne : gone ≠ conn := Nat.ne_of_lt (Nat.lt_of_lt_of_le (h.lt_length hheld) hconn)
        rw [hfailures, hlog, closes_append, closes_closed, if_neg hne, (h.unknown conn hconn).1,
          (h.unknown conn hconn).2]
        exact ⟨rfl, rfl⟩

/-- So does a failed read, which counts. -/
theorem Failed.balanced (h : Balanced s) {conn : ConnId} {sd : Int} (hfailed : Failed s t conn sd) :
    Balanced t ∧ failures conn t.log = failures conn s.log + 1 ∧
      ∀ c, failures c s.log ≤ failures c t.log := by
  have hfailures : ∀ c, failures c t.log = failures c s.log + if conn = c then 1 else 0 := by
    intro c
    rw [hfailed.log, failures_append, failures_failed]
  have hcloses : ∀ c, closes c t.log = closes c s.log + if conn = c then 1 else 0 := by
    intro c
    rw [hfailed.log, closes_append, closes_failed]
  refine ⟨⟨?_, ?_, ?_⟩, by rw [hfailures, if_pos rfl], fun c => by rw [hfailures]; omega⟩
  · intro c hc
    rw [hfailed.alive]
    exact h.held c (hfailed.holders hc)
  · intro c alive hget
    rw [hfailed.alive] at hget
    rw [hcloses, hfailures, h.balance c alive hget]
    omega
  · intro c hc
    rw [hfailed.alive] at hc
    have hne : conn ≠ c := Nat.ne_of_lt (Nat.lt_of_lt_of_le (h.lt_length hfailed.held) hc)
    rw [hcloses, hfailures, if_neg hne, (h.unknown c hc).1, (h.unknown c hc).2]
    exact ⟨rfl, rfl⟩

/-- Along a run no failed read is forgotten, and none happens unnoticed. -/
theorem run_balanced (actions : List Action) : ∀ {s t : State}, Balanced s →
    machineRun step s actions = .ok t →
    Balanced t ∧ (∀ conn, failures conn s.log ≤ failures conn t.log) ∧
      ((∀ conn, failures conn t.log = failures conn s.log) ↔
        Guarded step (fun s action => ¬ FailsRead s action) s actions) := by
  induction actions with
  | nil =>
      intro s t h hrun
      obtain rfl := Except.ok.inj hrun
      exact ⟨h, fun _ => Nat.le_refl _, fun _ => Guarded.nil, fun _ _ => rfl⟩
  | cons action actions ih =>
      intro s u h hrun
      cases hstep : step action s with
      | error fault =>
          rw [machineRun_cons_error hstep] at hrun
          injection hrun
      | ok t =>
          rw [machineRun_cons_ok hstep] at hrun
          rcases step_change hstep with ⟨hfails, conn, sd, hfailed⟩ | ⟨hfails, hchange⟩
          · obtain ⟨ht, hmore, hle⟩ := hfailed.balanced h
            obtain ⟨hu, hle', -⟩ := ih ht hrun
            refine ⟨hu, fun c => Nat.le_trans (hle c) (hle' c), ?_⟩
            refine iff_of_false ?_ (fun hguard => hguard.head hfails)
            intro hsame
            have := hle' conn
            have := hsame conn
            omega
          · obtain ⟨ht, hsame⟩ := hchange.balanced h
            obtain ⟨hu, hle, hiff⟩ := ih ht hrun
            refine ⟨hu, fun c => by rw [← hsame c]; exact hle c, ?_⟩
            have hstart : (∀ conn, failures conn u.log = failures conn s.log) ↔
                ∀ conn, failures conn u.log = failures conn t.log :=
              forall_congr' fun conn => by rw [hsame conn]
            rw [hstart, hiff]
            exact ⟨fun hguard => hguard.cons hfails hstep, fun hguard => hguard.tail hstep⟩

/--
**Every connection is closed exactly once exactly when no read has failed**, whatever the
order in which the threads take their steps.
-/
theorem asyncEngine_closesOnce_iff (actions : List Action) (s : State)
    (hrun : machineRun step start actions = .ok s) :
    ClosedOnce s ↔ Guarded step (fun s action => ¬ FailsRead s action) start actions := by
  obtain ⟨hbalanced, -, hiff⟩ := run_balanced actions start_balanced hrun
  rw [← hiff]
  constructor
  · intro honce conn
    show failures conn s.log = 0
    cases hget : s.conns[conn]? with
    | none =>
        refine (hbalanced.unknown conn ?_).2
        rw [State.alive, List.length_map]
        exact List.getElem?_eq_none_iff.mp hget
    | some c =>
        have hcloses := hbalanced.balance conn c.alive (by
          rw [State.alive, List.getElem?_map, hget]
          rfl)
        rw [honce conn c hget] at hcloses
        omega
  · intro hnone conn c hget
    rw [hbalanced.balance conn c.alive (by rw [State.alive, List.getElem?_map, hget]; rfl),
      hnone conn]
    show 0 + _ = _
    rw [Nat.zero_add]

/-- A client is accepted, its event handed over and read by the first worker with this result. -/
def oneRead (result : ReadResult) : List Action :=
  [.accept 5, .startRead, .forget, .handOver 0, .deleteClient 5, .take 0, .answer 0 result,
    .callback 0, .finish 0]

/-- The end of file is read: the connection is destroyed and closed once. -/
theorem closesOnce_at_eof :
    ∃ s, machineRun step start (oneRead (.data [])) = .ok s ∧
      s.log = [.closed 0 5] ∧ ClosedOnce s := by
  refine ⟨_, rfl, rfl, (asyncEngine_closesOnce_iff (oneRead (.data [])) _ rfl).mpr ?_⟩
  refine .cons id rfl (.cons id rfl (.cons id rfl (.cons id rfl (.cons id rfl (.cons id rfl
    (.cons ?_ rfl (.cons id rfl (.cons id rfl .nil))))))))
  intro hfails
  obtain ⟨event, -, -, hr⟩ := hfails
  exact absurd hr (by decide)

/-- The read fails: the worker closes the descriptor, and the destructor closes it again. -/
theorem asyncEngine_closes_twice :
    ∃ s, machineRun step start (oneRead .failed) = .ok s ∧
      s.log = [.readFailed 0, .closed 0 5, .closed 0 5] ∧ ¬ ClosedOnce s := by
  refine ⟨_, rfl, rfl, ?_⟩
  intro h
  exact absurd (h 0 _ rfl) (by decide)

end Technopark.AsyncPollEngine
