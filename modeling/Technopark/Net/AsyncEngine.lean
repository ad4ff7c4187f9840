/-
`net/libtpevent/src/poll_async.cpp`: connections, workers and the acceptor of
`AsyncPollEngine`.

A `Connection` is kept alive by the callbacks of its events and, while it is being set up, by
the acceptor; its destructor closes the descriptor.  An event is copied from
`m_ClientsWantWork` to `m_ClientsHaveWork`, popped by a worker, answered with a `read` or a
`write` and dropped at the end of the worker's iteration.  `Net/PollAsync.lean` has the rounds
of the manager; here they are only the two things they do to the queues, and which events are
handed over and which are deleted is left open.

A connection is named by the order in which it was accepted.  What the callback and the
buffer of an event belong to is that name.  A step that is not enabled does nothing.  The log
has what was done with the descriptors, for which connection.
-/
import Technopark.Net.PollAsync
import Technopark.Net.Receive

namespace Technopark

namespace AsyncPollEngine

/-- The name of a `Connection`. -/
abbrev ConnId := Nat

/-- A `Connection`. -/
structure Connection where
  sd : Int
  readBuf : Bytes := []
  writeBuf : Bytes := []
  alive : Bool := true
  deriving Repr, DecidableEq

/-- What a worker thread has in its hands. -/
inductive Worker
  /-- At the top of the loop. -/
  | idle
  /-- An event was popped. -/
  | taken (event : Event ConnId)
  /-- Its descriptor was read from or written to, the callback comes next. -/
  | answered (event : Event ConnId)
  /-- The end of the iteration. -/
  | done (event : Event ConnId)
  deriving Repr, DecidableEq

/-- What the accepting thread does. -/
inductive Acceptor
  | polling
  /-- `accept_work` has returned the connection. -/
  | accepted (conn : ConnId)
  /-- `conn->read()` has returned. -/
  | started (conn : ConnId)
  deriving Repr, DecidableEq

/-- Something that was done for a connection. -/
inductive Note
  | readFailed (conn : ConnId)
  /-- `close(sd)`. -/
  | closed (conn : ConnId) (sd : Int)
  | wrote (conn : ConnId) (bytes : Bytes)
  | stray (conn : ConnId) (stray : Stray)
  deriving Repr, DecidableEq

/-- The engine. -/
structure State where
  conns : List Connection
  wantWork : List (Event ConnId)
  haveWork : List (Event ConnId)
  workers : List Worker
  acceptor : Acceptor
  log : List Note
  deriving Repr, DecidableEq

/-- `AsyncPollEngine::run` after it has started its worker threads. -/
def start : State :=
  { conns := [], wantWork := [], haveWork := [], workers := List.replicate 4 .idle,
    acceptor := .polling, log := [] }

/-- The steps of the threads. -/
inductive Action
  /-- `accept` returns, and the connection is made. -/
  | accept (sd : Int)
  /-- `conn->read()`. -/
  | startRead
  /-- The acceptor's `conn` goes out of scope. -/
  | forget
  /-- The manager pushes the event at an index to `m_ClientsHaveWork`. -/
  | handOver (i : Nat)
  /-- The manager calls `deleteClient`. -/
  | deleteClient (sd : Int)
  /-- A worker pops an event. -/
  | take (worker : Nat)
  /-- A worker reads or writes. -/
  | answer (worker : Nat) (result : ReadResult)
  /-- A worker calls the callback. -/
  | callback (worker : Nat)
  /-- A worker's event goes out of scope. -/
  | finish (worker : Nat)
  deriving Repr, DecidableEq

/-- The event in a worker's hands. -/
def Worker.event? : Worker → Option (Event ConnId)
  | .idle => none
  | .taken event => some event
  | .answered event => some event
  | .done event => some event

/-- The connection in the acceptor's hands. -/
def Acceptor.conn? : Acceptor → Option ConnId
  | .polling => none
  | .accepted conn => some conn
  | .started conn => some conn

/-- The connections somebody has a `shared_ptr` to. -/
def State.holders (s : State) : List ConnId :=
  s.wantWork.map Event.work ++ s.haveWork.map Event.work ++
    s.workers.filterMap (fun worker => worker.event?.map Event.work) ++ s.acceptor.conn?.toList

/-- Add to the log. -/
def State.note (s : State) (notes : List Note) : State := { s with log := s.log ++ notes }

/-- A `shared_ptr` was dropped: the last one runs `~Connection`. -/
def State.release (s : State) (conn : ConnId) : State :=
  if conn ∈ s.holders then s
  else
    match s.conns[conn]? with
    | none => s
    | some c =>
        { s with
          conns := s.conns.set conn { c with alive := false }
          log := s.log ++ [.closed conn c.sd] }

/-- `asyncRead` and `asyncWrite`. -/
def State.push (s : State) (sd : Int) (state : ClientState) (conn : ConnId) : State :=
  { s with wantWork := s.wantWork ++ [{ client := { sd := sd, state := state }, work := conn }] }

/-- `Connection::read`. -/
def read (conn : ConnId) (s : State) : State :=
  match s.conns[conn]? with
  | none => s
  | some c => s.push c.sd .wantRead conn

/-- `"server: "`. -/
def server : Bytes := [115, 101, 114, 118, 101, 114, 58, 32]

/-- `Connection::write`. -/
def write (conn : ConnId) (text : Bytes) (s : State) : State :=
  match s.conns[conn]? with
  | none => s
  | some c =>
      { s with conns := s.conns.set conn { c with writeBuf := text } }.push c.sd .wantWrite conn

/-- `Connection::readHandler`. -/
def readHandler (conn : ConnId) (s : State) : State :=
  match s.conns[conn]? with
  | none => s
  | some c =>
      if c.readBuf = [] then s
      else
        let tmp := trimEols c.readBuf
        let s := if tmp = [] then s.note [.stray conn .emptyBack] else s
        write conn (server ++ tmp ++ [10]) s

/-- `Connection::writeHandler`. -/
def writeHandler (conn : ConnId) (s : State) : State := read conn s

/-- `event._data.get().assign(...)`. -/
def State.assign (s : State) (conn : ConnId) (bytes : Bytes) : State :=
  match s.conns[conn]? with
  | none => s
  | some c => { s with conns := s.conns.set conn { c with readBuf := bytes } }

/-- Worker `w` goes on. -/
def State.goto (s : State) (w : Nat) (worker : Worker) : State :=
  { s with workers := s.workers.set w worker }

/-- The worker's `read` or `write` on the descriptor of its event. -/
def answer (w : Nat) (event : Event ConnId) (result : ReadResult) (s : State) : State :=
  match event.client.state with
  | .wantRead =>
      if result.r < 0 then
        (s.note [.readFailed event.work, .closed event.work event.client.sd]).goto w (.done event)
      else
        let s := if result.bytes.length = bufSize then s.note [.stray event.work .terminator] else s
        (s.assign event.work result.bytes).goto w (.answered event)
  | .wantWrite =>
      let text := ((s.conns[event.work]?).map Connection.writeBuf).getD []
      (s.note [.wrote event.work text]).goto w (.answered event)

/-- `event._callback(errno)`. -/
def callback (w : Nat) (event : Event ConnId) (s : State) : State :=
  match event.client.state with
  | .wantRead => (readHandler event.work s).goto w (.done event)
  | .wantWrite => (writeHandler event.work s).goto w (.done event)

/-- One step of one thread. -/
def step (action : Action) (s : State) : Except Fault State :=
  match action with
  | .accept sd =>
      if s.acceptor = .polling then
        .ok { s with conns := s.conns ++ [{ sd := sd }], acceptor := .accepted s.conns.length }
      else .ok s
  | .startRead =>
      match s.acceptor with
      | .accepted conn => .ok { read conn s with acceptor := .started conn }
      | _ => .ok s
  | .forget =>
      match s.acceptor with
      | .started conn => .ok ({ s with acceptor := .polling }.release conn)
      | _ => .ok s
  | .handOver i =>
      match s.wantWork[i]? with
      | some event => .ok { s with haveWork := s.haveWork ++ [event] }
      | none => .ok s
  | .deleteClient sd =>
      match s.wantWork.find? (fun event => event.client.sd = sd) with
      | some event =>
          .ok ({ s with
            wantWork := s.wantWork.eraseP fun event => event.client.sd = sd }.release event.work)
      | none => .error .assertion
  | .take w =>
      match s.workers[w]?, s.haveWork with
      | some .idle, event :: rest => .ok ({ s with haveWork := rest }.goto w (.taken event))
      | _, _ => .ok s
  | .answer w result =>
      match s.workers[w]? with
      | some (.taken event) => .ok (answer w event result s)
      | _ => .ok s
  | .callback w =>
      match s.workers[w]? with
      | some (.answered event) => .ok (callback w event s)
      | _ => .ok s
  | .finish w =>
      match s.workers[w]? with
      | some (.done event) => .ok ((s.goto w .idle).release event.work)
      | _ => .ok s

end AsyncPollEngine

end Technopark
