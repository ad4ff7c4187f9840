/-
`net/simple_server/simple_server.cpp` and `net/prefork/prefork.cpp`: echo servers on `Socket`.

A process of either server has one client at a time.  `client_work` reads a piece, answers it
and reads the next one, until a member of `Socket` throws; then the client is closed with its
`shared_ptr`, and `main` accepts the next one.  `prefork` runs this loop in two processes and
answers without the line end; nothing is shared between them but the listener.

`accept` gives a null pointer when the system call fails, and `client_work` does not look.  The
timeout is set before its `try` block, so that an exception there leaves `main`.
-/
import Technopark.Net.HttpClient
import Technopark.Net.Receive
import Technopark.Net.ServerMain

namespace Technopark

namespace EchoServer

open Socket (SendResults Wire)

/-- Something a process did. -/
inductive Event
  | accepted (sd : Int)
  /-- `recv` returned this line. -/
  | received (sd : Int) (line : Bytes)
  /-- `send` was called with this, and made these system calls. -/
  | sent (sd : Int) (str : Bytes) (wire : Wire)
  /-- `"exception: "` and `e.what()`, on `cerr`. -/
  | caught (sd : Int) (what : String)
  | closed (sd : Int)
  deriving Repr, DecidableEq

/-- What the system calls of one pass of `client_work` return. -/
structure Turn where
  recv : SysRecv
  send : SendResults
  /-- How many times `::send` may be called. -/
  fuel : Nat

/-- What the system calls return from one `accept` to the next. -/
structure Visit where
  accept : Int
  setsockopt : Int := 0
  strerror : String := ""
  turns : List Turn

/-- The answer of `simple_server`. -/
def simpleAnswer (line : Bytes) : Bytes := echo ++ line ++ [10]

/-- The answer of `prefork`. -/
def preforkAnswer (line : Bytes) : Bytes := echo ++ line

/-- The handler of `client_work`. -/
def caught (sd : Int) (e : Fault) (log : List Event) : Except Fault (List Event) :=
  match e.what with
  | some what => .ok (log ++ [.caught sd what])
  | none => .error e

/-- The loop of `client_work`. -/
def clientWork (answer : Bytes → Bytes) (sd : Int) :
    List Turn → List Event → Except Fault (List Event)
  | [], _ => .error .outOfFuel
  | turn :: turns, log =>
      match Socket.recv sd turn.recv with
      | .error e => caught sd e log
      | .ok line =>
          match (Socket.send turn.send turn.fuel (answer line)).run { log := [] } with
          | .ok () wire =>
              clientWork answer sd turns
                (log ++ [.received sd line, .sent sd (answer line) wire])
          | .error e wire =>
              caught sd e (log ++ [.received sd line, .sent sd (answer line) wire])

/-- `~Socket` of a client. -/
def close (sd : Int) (log : List Event) : List Event :=
  if sd > 0 then log ++ [.closed sd] else log

/-- One pass of the loop of `main`. -/
def serve (answer : Bytes → Bytes) (visit : Visit) (log : List Event) :
    Except Fault (List Event) :=
  if visit.accept = -1 then .error (.undefined .nullPointer)
  else do
    Socket.setRcvTimeout visit.setsockopt visit.strerror
    let log ← clientWork answer visit.accept visit.turns (log ++ [.accepted visit.accept])
    return close visit.accept log

/-- How `main` returns. -/
inductive Ended
  | usage
  /-- `e.what()`. -/
  | exception (what : String)
  deriving Repr, DecidableEq

/-- `main`, with one `Visit` for each `accept`; an exception of `stoi` is not caught. -/
def main (answer : Bytes → Bytes) (sys : Socket.SysCalls) (args : List Bytes)
    (visits : List Visit) : Except Fault Ended :=
  match args with
  | [_, port] => do
      let _ ← stoi port
      let served : Except Fault (List Event) := do
        (Socket.createServerSocket sys).reply (Socket.construct none)
        machineRun (serve answer) [] visits
      match served with
      | .ok _ => throw .outOfFuel
      | .error e =>
          match e.what with
          | some what => return .exception what
          | none => throw e
  | _ => return .usage

end EchoServer

end Technopark
