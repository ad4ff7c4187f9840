/-
What protects the buffers of a connection of the asynchronous engine.

A connection has two buffers, which its handlers write to and read from without a lock, and
four workers call the handlers.  What keeps them apart is that a connection has one event at a
time, or a worker that has not called its handler yet.  `Watched.turns` lists these, and
`InTurn` says that no connection is in it twice, and that what its buffers hold is what its
next turn needs: the bytes that were read last, or the answer to them.

The manager moves an event in two steps.  It copies the event to the other queue, and deletes
it only then, by its descriptor; in between, a worker may have answered the copy and queued
the connection's next event already.  `Watched.owed` is the descriptor it still has to delete,
and `waiting` is what will be left of the queue once it has.

A step ends one turn and begins another one, of the same connection; `Turned` says which.
-/
import Technopark.Lib.Exchange
import Technopark.Lib.Session
import Technopark.Proofs.AsyncEngine
import Technopark.Proofs.Receive

namespace Technopark.AsyncPollEngine

/-! ### What is said, and what is owed -/

/-- What passes between a connection and its peer. -/
inductive Message
  | heard (bytes : Bytes)
  | told (text : Bytes)
  deriving Repr, DecidableEq

/-- An engine, with what was said to whom. -/
structure Watched where
  engine : State
  /-- The descriptor of the event that was handed over and is not deleted yet. -/
  owed : Option Int
  talk : List (ConnId × Message)
  /-- The connections whose event the removal loop has deleted. -/
  dropped : List ConnId

/-- Before the first step. -/
def Watched.start : Watched :=
  { engine := AsyncPollEngine.start, owed := none, talk := [], dropped := [] }

/-- A note about an answer. -/
def Note.told? : Note → Option (ConnId × Message)
  | .wrote conn bytes => some (conn, .told bytes)
  | _ => none

/-- What a worker reads. -/
def heard (s : State) : Action → List (ConnId × Message)
  | .answer w result =>
      match s.workers[w]? with
      | some (.taken event) =>
          if event.client.state = .wantRead then [(event.work, .heard result.bytes)] else []
      | _ => []
  | _ => []

/-- What a step adds to the talk: the answers are those of the engine's own log. -/
def said (action : Action) (s t : State) : List (ConnId × Message) :=
  heard s action ++ (t.log.drop s.log.length).filterMap Note.told?

/-- What the manager owes after a step. -/
def owes (s : Watched) : Action → Option Int
  | .handOver i => (s.engine.wantWork[i]?).map fun event => event.client.sd
  | .deleteClient _ => none
  | _ => s.owed

/-- The event the removal loop deletes; it owes nothing then. -/
def drops (s : Watched) : Action → List ConnId
  | .deleteClient sd =>
      if s.owed = none then
        ((s.engine.wantWork.find? fun event => event.client.sd = sd).map Event.work).toList
      else []
  | _ => []

/-- The state a step leads to. -/
def Watched.after (s : Watched) (action : Action) (t : State) : Watched :=
  { engine := t
    owed := owes s action
    talk := s.talk ++ said action s.engine t
    dropped := s.dropped ++ drops s action }

/-- One step of one thread. -/
def watch (action : Action) (s : Watched) : Except Fault Watched :=
  (step action s.engine).map (s.after action)

/-- What is expected of a step. -/
def Orderly (s : Watched) : Action → Prop
  | .accept sd => ∀ c ∈ s.engine.conns, c.alive = true → c.sd ≠ sd
  | .handOver _ => s.owed = none
  | .deleteClient sd => match s.owed with
      | some owed => sd = owed
      | none => ∃ event ∈ s.engine.wantWork, event.client.sd = sd
  | .answer w result => ¬ FailsRead s.engine (.answer w result)
  | _ => True

/-! ### The conversation with one connection -/

/-- Where a connection is. -/
inductive Phase
  | idle
  /-- It has sent this, and has no answer yet. -/
  | owing (bytes : Bytes)
  /-- It has come to the end of its stream. -/
  | over
  deriving Repr, DecidableEq

/-- What may be said next. -/
def Phase.next : Phase → Message → Option Phase
  | .idle, .heard bytes => if bytes = [] then some .over else some (.owing bytes)
  | .owing bytes, .told text => if text = answerTo bytes then some .idle else none
  | _, _ => none

/-- Where a connection is after a talk. -/
def phaseIn (conn : ConnId) (talk : List (ConnId × Message)) : Option Phase :=
  session Phase.next .idle (eventsOf conn talk)

/-- The connection a worker reads, writes or handles. -/
def Worker.busy? : Worker → Option ConnId
  | .taken event => some event.work
  | .answered event => some event.work
  | _ => none

/-- Everybody is served by one worker at a time, and answered in turn. -/
structure Conversing (s : Watched) : Prop where
  /-- No two workers have the same connection in their hands. -/
  exclusive : (s.engine.workers.filterMap Worker.busy?).Nodup
  /-- What is said to a connection is the answer to what was heard from it last. -/
  inTurn : ∀ conn, (phaseIn conn s.talk).isSome
  /-- Nobody is closed who is not at the end, unless the removal loop has dropped it. -/
  kept : ∀ (conn : ConnId) (c : Connection), s.engine.conns[conn]? = some c → c.alive = false →
    phaseIn conn s.talk = some .over ∨ conn ∈ s.dropped

/-! ### Turns -/

variable {s t : Watched}

/-- What comes next for a connection. -/
inductive Turn
  /-- Its event waits to be worked off. -/
  | todo (state : ClientState)
  /-- It was worked off, and the callback comes next. -/
  | did (state : ClientState)
  deriving Repr, DecidableEq

/-- An event in a queue. -/
def turnOf (event : Event ConnId) : ConnId × Turn := (event.work, .todo event.client.state)

/-- An event whose callback has returned is only dropped. -/
def Worker.turn? : Worker → Option (ConnId × Turn)
  | .taken event => some (turnOf event)
  | .answered event => some (event.work, .did event.client.state)
  | _ => none

def Acceptor.turn? : Acceptor → Option (ConnId × Turn)
  | .accepted conn => some (conn, .todo .wantRead)
  | _ => none

/-- `m_ClientsWantWork` after the manager has deleted what it owes. -/
def waiting : Option Int → List (Event ConnId) → List (Event ConnId)
  | none, wantWork => wantWork
  | some sd, wantWork => wantWork.eraseP fun event => event.client.sd = sd

/-- Whose turn it is, and with what. -/
def Watched.turns (s : Watched) : List (ConnId × Turn) :=
  (waiting s.owed s.engine.wantWork).map turnOf ++ s.engine.haveWork.map turnOf ++
    s.engine.workers.filterMap Worker.turn? ++ s.engine.acceptor.turn?.toList

/-- `m_ReadBuf` and `m_WriteBuf`. -/
def Connection.buffers (c : Connection) : Bytes × Bytes := (c.readBuf, c.writeBuf)

def Watched.buffers (s : Watched) : List (Bytes × Bytes) := s.engine.conns.map Connection.buffers

/-- A turn fits where its connection is, and what its buffers have. -/
def Fits (b : Bytes × Bytes) : Turn → Phase → Prop
  | .todo .wantRead, phase => phase = .idle
  | .did .wantRead, phase => phase = if b.1 = [] then .over else .owing b.1
  | .todo .wantWrite, phase => ∃ bytes, phase = .owing bytes ∧ b.2 = answerTo bytes
  | .did .wantWrite, phase => phase = .idle

/-- Every connection has one turn at most, and the turn fits. -/
structure InTurn (s : Watched) : Prop where
  once : (s.turns.map Prod.fst).Nodup
  fits : ∀ conn turn, (conn, turn) ∈ s.turns → ∃ b phase, s.buffers[conn]? = some b ∧
    phaseIn conn s.talk = some phase ∧ Fits b turn phase
  rest : ∀ conn < s.buffers.length, (∀ turn, (conn, turn) ∉ s.turns) →
    phaseIn conn s.talk = some .over ∨ conn ∈ s.dropped ∧ (phaseIn conn s.talk).isSome
  known : ∀ entry ∈ s.talk, entry.1 < s.buffers.length

/-! ### What a step does to the turns -/

/-- How a turn goes on: what is said, what comes next and what becomes of the buffers. -/
inductive Advances : Bytes × Bytes → Turn → List Message → Option Turn → Bytes × Bytes → Prop
  | hears (b : Bytes × Bytes) (bytes : Bytes) :
      Advances b (.todo .wantRead) [.heard bytes] (some (.did .wantRead)) (bytes, b.2)
  | tells (b : Bytes × Bytes) :
      Advances b (.todo .wantWrite) [.told b.2] (some (.did .wantWrite)) b
  | answers (b : Bytes × Bytes) (h : b.1 ≠ []) :
      Advances b (.did .wantRead) [] (some (.todo .wantWrite)) (b.1, answerTo b.1)
  | ends (b : Bytes × Bytes) (h : b.1 = []) : Advances b (.did .wantRead) [] none b
  | listens (b : Bytes × Bytes) : Advances b (.did .wantWrite) [] (some (.todo .wantRead)) b

/-- What a step can do. -/
inductive Turned (s t : Watched) : Prop
  | stayed {old : List (ConnId × Turn)} (hturns : Traded old old s.turns t.turns)
      (hbuffers : t.buffers = s.buffers) (htalk : t.talk = s.talk)
      (hdropped : t.dropped = s.dropped)
  | accepted (hturns : Traded [] [(s.buffers.length, .todo .wantRead)] s.turns t.turns)
      (hbuffers : t.buffers = s.buffers ++ [([], [])]) (htalk : t.talk = s.talk)
      (hdropped : t.dropped = s.dropped)
  | advanced {conn : ConnId} {turn : Turn} {said : List Message} {new : Option Turn}
      {b b' : Bytes × Bytes} (hadvances : Advances b turn said new b')
      (hget : s.buffers[conn]? = some b)
      (hturns : Traded [(conn, turn)] (new.toList.map (conn, ·)) s.turns t.turns)
      (hbuffers : t.buffers = s.buffers.set conn b')
      (htalk : t.talk = s.talk ++ said.map (conn, ·)) (hdropped : t.dropped = s.dropped)
  | lost {conn : ConnId} {turn : Turn} (hturns : Traded [(conn, turn)] [] s.turns t.turns)
      (hbuffers : t.buffers = s.buffers) (htalk : t.talk = s.talk)
      (hdropped : t.dropped = s.dropped ++ [conn])

/-- A turn that goes on fits again, and nothing comes after the end. -/
theorem Advances.fits {b b' : Bytes × Bytes} {turn : Turn} {said : List Message}
    {new : Option Turn} {phase : Phase} (h : Advances b turn said new b')
    (hfits : Fits b turn phase) :
    ∃ phase', session Phase.next phase said = some phase' ∧ (∀ turn' ∈ new, Fits b' turn' phase') ∧
      (new = none → phase' = .over) := by
  cases h with
  | hears bytes =>
      obtain rfl : phase = .idle := hfits
      refine ⟨if bytes = [] then .over else .owing bytes, ?_, ?_, by simp⟩
      · by_cases hempty : bytes = [] <;> simp [session, Phase.next, hempty]
      · intro turn' hturn'
        obtain rfl := Option.some.inj hturn'
        rfl
  | tells =>
      obtain ⟨bytes, rfl, hanswer⟩ := hfits
      refine ⟨.idle, by simp [session, Phase.next, hanswer], ?_, by simp⟩
      intro turn' hturn'
      obtain rfl := Option.some.inj hturn'
      rfl
  | answers hsome =>
      have hphase : phase = .owing b.1 := by
        rw [show phase = _ from hfits, if_neg hsome]
      refine ⟨phase, rfl, ?_, by simp⟩
      intro turn' hturn'
      obtain rfl := Option.some.inj hturn'
      exact ⟨b.1, hphase, rfl⟩
  | ends hempty =>
      have hphase : phase = .over := by
        rw [show phase = _ from hfits, if_pos hempty]
      exact ⟨phase, rfl, by simp, fun _ => hphase⟩
  | listens =>
      refine ⟨phase, rfl, ?_, by simp⟩
      intro turn' hturn'
      obtain rfl := Option.some.inj hturn'
      exact hfits

/-- A connection nobody has spoken to. -/
theorem phaseIn_unknown {conn : ConnId} {talk : List (ConnId × Message)}
    (h : ∀ entry ∈ talk, entry.1 ≠ conn) : phaseIn conn talk = some .idle := by
  rw [phaseIn, eventsOf_eq_nil h]
  rfl

/-- What is said to one connection. -/
theorem phaseIn_said {conn conn' : ConnId} {talk : List (ConnId × Message)} {said : List Message}
    {phase phase' : Phase} (h : phaseIn conn talk = some phase)
    (hsaid : session Phase.next phase said = some phase') :
    phaseIn conn' (talk ++ said.map (conn, ·))
      = if conn' = conn then some phase' else phaseIn conn' talk := by
  rw [phaseIn, eventsOf_append]
  by_cases hconn : conn' = conn
  · rw [hconn, eventsOf_map_self, session_append, if_pos rfl]
    rw [phaseIn] at h
    rw [h]
    exact hsaid
  · rw [eventsOf_map_ne (Ne.symm hconn), List.append_nil, if_neg hconn]
    rfl

theorem InTurn.stayed (h : InTurn s) (hturns : s.turns.Perm t.turns)
    (hbuffers : t.buffers = s.buffers) (htalk : t.talk = s.talk)
    (hdropped : t.dropped = s.dropped) : InTurn t := by
  refine ⟨(hturns.map _).nodup_iff.mp h.once, ?_, ?_, ?_⟩
  · intro conn turn hmem
    rw [hbuffers, htalk]
    exact h.fits conn turn (hturns.mem_iff.mpr hmem)
  · intro conn hconn hnone
    rw [hbuffers] at hconn
    rw [htalk, hdropped]
    exact h.rest conn hconn fun turn hmem => hnone turn (hturns.mem_iff.mp hmem)
  · rw [hbuffers, htalk]
    exact h.known

/-- A connection nobody has spoken to yet. -/
theorem InTurn.accepted (h : InTurn s)
    (hturns : Traded [] [(s.buffers.length, .todo .wantRead)] s.turns t.turns)
    (hbuffers : t.buffers = s.buffers ++ [([], [])]) (htalk : t.talk = s.talk)
    (hdropped : t.dropped = s.dropped) : InTurn t := by
  obtain ⟨rest, hbefore, hafter⟩ := hturns
  have hturns : t.turns.Perm ((s.buffers.length, .todo .wantRead) :: s.turns) :=
    hafter.trans (hbefore.symm.cons (s.buffers.length, Turn.todo .wantRead))
  have hold : ∀ conn turn, (conn, turn) ∈ s.turns → conn < s.buffers.length := by
    intro conn turn hmem
    obtain ⟨b, -, hget, -⟩ := h.fits conn turn hmem
    exact (List.getElem?_eq_some_iff.mp hget).1
  refine ⟨?_, ?_, ?_, ?_⟩
  · rw [(hturns.map Prod.fst).nodup_iff]
    refine List.nodup_cons.mpr ⟨?_, h.once⟩
    intro hmem
    obtain ⟨⟨conn, turn⟩, hturn, heq⟩ := List.mem_map.mp hmem
    exact Nat.ne_of_lt (hold conn turn hturn) heq
  · intro conn turn hmem
    rw [hbuffers, htalk]
    rcases List.mem_cons.mp (hturns.mem_iff.mp hmem) with heq | hturn
    · obtain ⟨rfl, rfl⟩ := Prod.mk.inj heq
      exact ⟨([], []), .idle, List.getElem?_concat_length,
        phaseIn_unknown fun entry hentry => Nat.ne_of_lt (h.known entry hentry), rfl⟩
    · obtain ⟨b, phase, hget, hrest⟩ := h.fits conn turn hturn
      exact ⟨b, phase, by rw [List.getElem?_append_left (hold conn turn hturn), hget], hrest⟩
  · intro conn hconn hnone
    have hne : conn ≠ s.buffers.length := by
      rintro rfl
      exact hnone _ (hturns.mem_iff.mpr List.mem_cons_self)
    rw [hbuffers, List.length_append, List.length_singleton] at hconn
    rw [htalk, hdropped]
    exact h.rest conn (Nat.lt_of_le_of_ne (Nat.le_of_lt_succ hconn) hne)
      fun turn hmem => hnone turn (hturns.mem_iff.mpr (List.mem_cons_of_mem _ hmem))
  · intro entry hentry
    rw [htalk] at hentry
    rw [hbuffers, List.length_append]
    exact Nat.lt_add_right _ (h.known entry hentry)

/-- One connection goes on. -/
theorem InTurn.advanced (h : InTurn s) {conn : ConnId} {turn : Turn} {said : List Message}
    {new : Option Turn} {b b' : Bytes × Bytes} (hadvances : Advances b turn said new b')
    (hget : s.buffers[conn]? = some b)
    (hturns : Traded [(conn, turn)] (new.toList.map (conn, ·)) s.turns t.turns)
    (hbuffers : t.buffers = s.buffers.set conn b')
    (htalk : t.talk = s.talk ++ said.map (conn, ·)) (hdropped : t.dropped = s.dropped) :
    InTurn t := by
  obtain ⟨rest, hbefore, hafter⟩ := hturns
  have hlength : t.buffers.length = s.buffers.length := by rw [hbuffers, List.length_set]
  have hlt : conn < s.buffers.length := (List.getElem?_eq_some_iff.mp hget).1
  have hnodup : (conn :: rest.map Prod.fst).Nodup := (hbefore.map Prod.fst).nodup_iff.mp h.once
  have hother : ∀ conn' turn', (conn', turn') ∈ rest → conn' ≠ conn := by
    rintro conn' turn' hmem rfl
    exact (List.nodup_cons.mp hnodup).1 (List.mem_map_of_mem hmem)
  obtain ⟨b₀, phase, hget₀, hphase, hfits⟩ :=
    h.fits conn turn (hbefore.mem_iff.mpr List.mem_cons_self)
  obtain rfl := Option.some.inj (hget.symm.trans hget₀)
  obtain ⟨phase', hsaid, hnew, hover⟩ := hadvances.fits hfits
  have hsame : ∀ conn', phaseIn conn' t.talk
      = if conn' = conn then some phase' else phaseIn conn' s.talk := by
    intro conn'
    rw [htalk]
    exact phaseIn_said hphase hsaid
  have hmem : ∀ conn' turn', (conn', turn') ∈ t.turns ↔
      (turn' ∈ new ∧ conn' = conn) ∨ (conn', turn') ∈ rest := by
    intro conn' turn'
    rw [hafter.mem_iff]
    simp [and_comm, eq_comm]
  refine ⟨?_, ?_, ?_, ?_⟩
  · rw [(hafter.map Prod.fst).nodup_iff]
    cases new with
    | none => exact (List.nodup_cons.mp hnodup).2
    | some turn' => exact hnodup
  · intro conn' turn' hturn
    rw [hsame, hbuffers]
    rcases (hmem conn' turn').mp hturn with ⟨hturn', rfl⟩ | hrest
    · exact ⟨b', phase', List.getElem?_set_self hlt, if_pos rfl, hnew turn' hturn'⟩
    · have hne := hother conn' turn' hrest
      rw [List.getElem?_set_ne (Ne.symm hne), if_neg hne]
      exact h.fits conn' turn' (hbefore.mem_iff.mpr (List.mem_cons_of_mem _ hrest))
  · intro conn' hconn' hnone
    rw [hlength] at hconn'
    rw [hsame, hdropped]
    by_cases hconn : conn' = conn
    · have hnew : new = none := by
        rw [Option.eq_none_iff_forall_ne_some]
        intro turn' hturn'
        exact hnone turn' ((hmem conn' turn').mpr (.inl ⟨hturn', hconn⟩))
      rw [if_pos hconn, hover hnew]
      exact .inl rfl
    · rw [if_neg hconn]
      refine h.rest conn' hconn' ?_
      intro turn' hturn
      rcases List.mem_cons.mp (hbefore.mem_iff.mp hturn) with heq | hrest
      · exact hconn (congrArg Prod.fst heq)
      · exact hnone turn' ((hmem conn' turn').mpr (.inr hrest))
  · intro entry hentry
    rw [hlength]
    rw [htalk, List.mem_append, List.mem_map] at hentry
    rcases hentry with hentry | ⟨message, -, rfl⟩
    · exact h.known entry hentry
    · exact hlt

/-- The removal loop takes a turn away. -/
theorem InTurn.lost (h : InTurn s) {conn : ConnId} {turn : Turn}
    (hturns : Traded [(conn, turn)] [] s.turns t.turns) (hbuffers : t.buffers = s.buffers)
    (htalk : t.talk = s.talk) (hdropped : t.dropped = s.dropped ++ [conn]) : InTurn t := by
  obtain ⟨rest, hbefore, hafter⟩ := hturns
  have hnodup : (conn :: rest.map Prod.fst).Nodup := (hbefore.map Prod.fst).nodup_iff.mp h.once
  obtain ⟨-, phase, -, hphase, -⟩ := h.fits conn turn (hbefore.mem_iff.mpr List.mem_cons_self)
  refine ⟨(hafter.map Prod.fst).nodup_iff.mpr (List.nodup_cons.mp hnodup).2, ?_, ?_, ?_⟩
  · intro conn' turn' hturn
    rw [hbuffers, htalk]
    exact h.fits conn' turn'
      (hbefore.mem_iff.mpr (List.mem_cons_of_mem _ (hafter.mem_iff.mp hturn)))
  · intro conn' hconn' hnone
    rw [hbuffers] at hconn'
    rw [htalk, hdropped]
    by_cases hconn : conn' = conn
    · rw [hconn, hphase]
      exact .inr ⟨List.mem_append_right _ List.mem_cons_self, rfl⟩
    · refine (h.rest conn' hconn' ?_).imp_right ?_
      · intro turn' hturn
        rcases List.mem_cons.mp (hbefore.mem_iff.mp hturn) with heq | hrest
        · exact hconn (congrArg Prod.fst heq)
        · exact hnone turn' (hafter.mem_iff.mpr hrest)
      · rintro ⟨hmem, hsome⟩
        exact ⟨List.mem_append_left _ hmem, hsome⟩
  · rw [hbuffers, htalk]
    exact h.known

theorem Turned.inTurn (h : InTurn s) (hturned : Turned s t) : InTurn t := by
  cases hturned with
  | stayed hturns hbuffers htalk hdropped => exact h.stayed hturns.perm hbuffers htalk hdropped
  | accepted hturns hbuffers htalk hdropped => exact h.accepted hturns hbuffers htalk hdropped
  | advanced hadvances hget hturns hbuffers htalk hdropped =>
      exact h.advanced hadvances hget hturns hbuffers htalk hdropped
  | lost hturns hbuffers htalk hdropped => exact h.lost hturns hbuffers htalk hdropped

end Technopark.AsyncPollEngine
