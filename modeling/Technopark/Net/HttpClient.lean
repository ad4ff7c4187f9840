/-
`net/http_client/http_client.cpp`: a request for a URL, of which the headers are printed.

`main` strings the members of `Socket` together: it connects, sets a timeout, sends the query
and waits until the other side has nothing more to say.  The callback gets whatever
`recv_loop` returns.  What goes wrong on the way is printed, as long as it is an exception.

The host matters to `connect` only in that it is found or not; the log of the descriptor is
dropped.
-/
import Technopark.Net.Http
import Technopark.Net.SocketLife

namespace Technopark

/-! ### The rest of `Socket` -/

namespace Socket

/-- `Socket::setRcvTimeout`, from the result of its system call. -/
def setRcvTimeout (setsockopt : Int) (strerror : String) : Except Fault Unit :=
  if setsockopt ≠ 0 then .error (.runtimeError ("set rcvtimeout: " ++ strerror)) else .ok ()

/-- What the system calls of a query return. -/
structure Peer where
  send : SendResults
  /-- How many times `::send` may be called. -/
  fuel : Nat
  /-- What `::recv` returns, one after another. -/
  recv : List SysRecv

/-- `Socket::httpQuery`. -/
def httpQuery {α : Type} (peer : Peer) (query : Bytes) (cb : Bytes → Except Fault α) :
    Except Fault α := do
  (send peer.send peer.fuel query).reply { log := [] }
  let res ← recvLoop peer.recv []
  cb res

end Socket

/-! ### The client -/

namespace HttpClient

open Socket

/-- What is printed. -/
inductive Shown
  | usage
  /-- `"headers:"`, and the headers. -/
  | headers (bytes : Bytes)
  /-- `e.what()`. -/
  | exception (what : String)
  deriving Repr, DecidableEq

/-- The results of the system calls. -/
structure Environment where
  connect : SysCalls
  setRcvTimeout : Int := 0
  strerror : String := ""
  peer : Peer

/-- The callback: what it prints. -/
def showHeaders (resp : Bytes) : Except Fault Bytes := do
  let pos := find resp (text "\r\n\r\n") 0
  if pos = npos then
    throw (.runtimeError "exception: error getting headers")
  substr resp 0 pos

/-- The block that is tried. -/
def request (env : Environment) (url : Bytes) : Except Fault Bytes := do
  let q ← Http.makeQuery url
  (connect env.connect).reply (construct none)
  setRcvTimeout env.setRcvTimeout env.strerror
  httpQuery env.peer q.query showHeaders

/-- `main`. -/
def main (env : Environment) (args : List Bytes) : Except Fault Shown :=
  match args with
  | [_, url] =>
      match request env url with
      | .ok headers => .ok (.headers headers)
      | .error (.runtimeError what) => .ok (.exception what)
      | .error e => .error e
  | _ => .ok .usage

end HttpClient

end Technopark
