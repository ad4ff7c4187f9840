/-
`net/asio/main.cpp`: the classes `Client` and `Server`.

The `io_service` has the operations that were started, and when one is finished it has the
handler to be called with the outcome.  Four threads are in `service_.run()`, and each of
them takes a handler that is ready, whichever it is, and runs it.  A handler is walked
through here statement by statement, so between any two of them the other threads may run and
any operation may finish.  A step that is not enabled does nothing.

The handlers hold a `shared_ptr` to their `Client`, and so does the operation that will call
them.  When the last of them is dropped the object is destroyed, and its socket is closed with
it.  A `Client` is named by the order in which they were made.  What arrives in `m_Buf` is
only counted.

What the operations end with is the environment's, and so is whether `remote_endpoint()`
throws.  An exception leaves the thread function, which is the end of the program.  The log
has what happened at the clients' sockets, which the program does not keep.
-/
import Technopark.Lib.StdString
import Technopark.Net.Socket

namespace Technopark

namespace Asio

/-! ### `Client::m_SendBuf` -/

/-- `sizeof(m_SendBuf)`. -/
def sendBufSize : Nat := 1024

/-- A `char` array; a cell that was never written is `none`. -/
abbrev CharArray := List (Option UInt8)

/-- What `snprintf(buf + k, sizeof(buf) - k, str)` puts there: what fits, and a terminator. -/
def snprintfCells (size k : Nat) (str : Bytes) : CharArray :=
  if k < size then (str.take (size - k - 1)).map some ++ [some 0] else []

/-- `snprintf(buf + k, sizeof(buf) - k, str)`, and the `k` behind it. -/
def snprintf (str : Bytes) (buf : CharArray) (k : Nat) : CharArray × Nat :=
  let cells := snprintfCells buf.length k str
  (buf.take k ++ cells ++ buf.drop (k + cells.length), k + str.length)

/-- The three `snprintf` of `handleRead`. -/
def fillSendBuf (buf : CharArray) : CharArray :=
  let (buf, k) := snprintf (text "HTTP/1.1 200 OK\r\n") buf 0
  let (buf, k) := snprintf (text "Content-Length: 26\r\n\r\n") buf k
  (snprintf (text "ready proxy") buf k).1

/-! ### The state -/

/-- The name of a `Client`. -/
abbrev ClientId := Nat

/-- A `Client`: its socket once it has one, and `m_SendBuf`. -/
structure Client where
  sock : Option Int := none
  sendBuf : CharArray := List.replicate sendBufSize none
  alive : Bool := true
  deriving Repr, DecidableEq

/-- `Client::Client`. -/
def Client.new : Client := {}

/-- A `boost::system::error_code` that is set. -/
inductive ErrorCode
  | eof
  | other
  deriving Repr, DecidableEq

/-- An operation that was started. -/
inductive Op
  | accept (client : ClientId)
  | read (client : ClientId)
  | write (client : ClientId)
  deriving Repr, DecidableEq

/-- A handler, with the arguments it is called with. -/
inductive Handler
  | onAccept (client : ClientId) (e : Option ErrorCode)
  | handleRead (client : ClientId) (e : Option ErrorCode)
  /-- The lambda that is given to `async_write_some`. -/
  | written (client : ClientId)
  deriving Repr, DecidableEq

/-- What a thread does. -/
inductive Thread
  /-- It waits in `service_.run()`. -/
  | idle
  /-- At the first statement of a handler. -/
  | called (handler : Handler)
  /-- In `onAccept`, before `c->read()`. -/
  | accepted (client : ClientId)
  /-- In `onAccept`, before `startAccept()`. -/
  | reading (client : ClientId)
  /-- In `handleRead`, before the `snprintf`s. -/
  | answering (client : ClientId)
  /-- In `handleRead`, before `async_write_some`. -/
  | filled (client : ClientId)
  /-- At the end of a handler, which is then destroyed. -/
  | leaving (client : ClientId)
  deriving Repr, DecidableEq

/-- Something happens at the socket of a client. -/
inductive Event
  | accepted (sd : Int)
  | refused
  | received (bytesTransferred : Nat)
  | hungUp
  | sent (cells : CharArray)
  | closed (sock : Option Int)
  deriving Repr, DecidableEq

/-- The server. -/
structure State where
  clients : List Client
  pending : List Op
  ready : List Handler
  threads : List Thread
  log : List (ClientId × Event)
  deriving Repr, DecidableEq

/-- `Server::startServer` when its threads have started: `startAccept` was called before. -/
def startServer : State :=
  { clients := [Client.new], pending := [.accept 0], ready := [], threads := List.replicate 4 .idle,
    log := [] }

/-! ### Who holds what -/

def Op.client : Op → ClientId
  | .accept client => client
  | .read client => client
  | .write client => client

def Handler.client : Handler → ClientId
  | .onAccept client _ => client
  | .handleRead client _ => client
  | .written client => client

/-- The client of the handler a thread is in. -/
def Thread.client? : Thread → Option ClientId
  | .idle => none
  | .called handler => some handler.client
  | .accepted client => some client
  | .reading client => some client
  | .answering client => some client
  | .filled client => some client
  | .leaving client => some client

/-- The clients somebody has a `shared_ptr` to. -/
def State.holders (s : State) : List ClientId :=
  s.pending.map Op.client ++ s.ready.map Handler.client ++ s.threads.filterMap Thread.client?

/-- A `shared_ptr` was dropped: the last one runs `~Client`. -/
def State.release (s : State) (client : ClientId) : State :=
  if client ∈ s.holders then s
  else
    match s.clients[client]? with
    | none => s
    | some c =>
        { s with
          clients := s.clients.set client { c with alive := false }
          log := s.log ++ [(client, .closed c.sock)] }

/-! ### The steps -/

/-- What an operation ends with: the error, the new descriptor and the bytes transferred. -/
structure Outcome where
  e : Option ErrorCode := none
  sd : Int := 0
  bytesTransferred : Nat := 0
  deriving Repr, DecidableEq

inductive Action
  /-- The pending operation at an index is finished. -/
  | complete (i : Nat) (outcome : Outcome)
  /-- A waiting thread takes the ready handler at an index. -/
  | take (thread i : Nat)
  /-- A thread goes on; `remote_endpoint()` may throw. -/
  | advance (thread : Nat) (endpointError : Option String)
  deriving Repr, DecidableEq

/-- The handler an operation calls. -/
def Op.handler (outcome : Outcome) : Op → Handler
  | .accept client => .onAccept client outcome.e
  | .read client => .handleRead client outcome.e
  | .write client => .written client

/-- What happens at the socket when an operation is finished. -/
def Op.event (outcome : Outcome) (c : Client) : Op → Event
  | .accept _ => if outcome.e = none then .accepted outcome.sd else .refused
  | .read _ => if outcome.e = none then .received outcome.bytesTransferred else .hungUp
  -- the lambda does not look at its error
  | .write _ => .sent (c.sendBuf.take outcome.bytesTransferred)

/-- The client after the operation: an accepted one has a socket. -/
def Op.finish (outcome : Outcome) (c : Client) : Op → Client
  | .accept _ => if outcome.e = none then { c with sock := some outcome.sd } else c
  | .read _ => c
  | .write _ => c

/-- The operation at an index is finished. -/
def complete (i : Nat) (outcome : Outcome) (s : State) : State :=
  match s.pending[i]? with
  | none => s
  | some op =>
      match s.clients[op.client]? with
      | none => s
      | some c =>
          { s with
            clients := s.clients.set op.client (op.finish outcome c)
            pending := s.pending.eraseIdx i
            ready := s.ready ++ [op.handler outcome]
            log := s.log ++ [(op.client, op.event outcome c)] }

/-- `m_Sock.remote_endpoint()`. -/
def remoteEndpoint (error : Option String) : Except Fault Unit :=
  match error with
  | none => .ok ()
  | some what => .error (.runtimeError what)

/-- Thread `t` goes on. -/
def State.goto (s : State) (t : Nat) (thread : Thread) : State :=
  { s with threads := s.threads.set t thread }

/-- Start an operation. -/
def State.async (s : State) (op : Op) : State := { s with pending := s.pending ++ [op] }

/-- `Client::read`. -/
def read (client : ClientId) (s : State) : State := s.async (.read client)

/-- `Server::startAccept`. -/
def startAccept (s : State) : State :=
  { s with clients := s.clients ++ [Client.new] }.async (.accept s.clients.length)

/-- The next statement of the handler that thread `t` is in. -/
def advance (t : Nat) (endpointError : Option String) (s : State) : Except Fault State :=
  match s.threads[t]? with
  | none => .ok s
  | some .idle => .ok s
  | some (.called (.onAccept c e)) =>
      if e = none then do
        remoteEndpoint endpointError
        return s.goto t (.accepted c)
      else .ok (s.goto t (.leaving c))
  | some (.accepted c) => .ok ((read c s).goto t (.reading c))
  | some (.reading c) => .ok ((startAccept s).goto t (.leaving c))
  | some (.called (.handleRead c e)) => do
      if e = some .eof then
        remoteEndpoint endpointError
      if e ≠ none then
        return s.goto t (.leaving c)
      return s.goto t (.answering c)
  | some (.answering c) =>
      .ok ({ s with
        clients := s.clients.modify c fun client =>
          { client with sendBuf := fillSendBuf client.sendBuf } }.goto t (.filled c))
  | some (.filled c) => .ok ((s.async (.write c)).goto t (.leaving c))
  | some (.called (.written c)) => .ok ((read c s).goto t (.leaving c))
  | some (.leaving c) => .ok ((s.goto t .idle).release c)

/-- A waiting thread takes a handler. -/
def take (t i : Nat) (s : State) : State :=
  match s.threads[t]?, s.ready[i]? with
  | some .idle, some handler => { s with ready := s.ready.eraseIdx i }.goto t (.called handler)
  | _, _ => s

/-- One step. -/
def step : Action → State → Except Fault State
  | .complete i outcome, s => .ok (complete i outcome s)
  | .take t i, s => .ok (take t i s)
  | .advance t endpointError, s => advance t endpointError s

end Asio

end Technopark
