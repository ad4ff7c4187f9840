/-
`net/simplest_client_server/server_select.cpp`: the sweep of a round over the clients.

The clients are a `std::set<int>`, walked by an iterator while clients are erased from it.
What `select` has reported and what `recv` returns is the environment's.  The log has what
was done to the clients, which the program does not keep.

The trimming of a message that is nothing but line ends reads the back of an empty string;
this is recorded and the run goes on (`Net/Receive.lean`).  What is printed of the buffer is
left out, the bytes behind a message that has no terminator with it, and so is a `send` that
raises SIGPIPE.
-/
import Technopark.Lib.OrderedSet
import Technopark.Net.Receive

namespace Technopark

namespace ServerSelect

/-- Something that was done to a client. -/
inductive Event
  /-- `recv` returned `bytes_read`. -/
  | received (sd : Int) (bytesRead : Int)
  | closed (sd : Int)
  | stray (stray : Stray)
  | sent (sd : Int) (ret : Bytes)
  deriving Repr, DecidableEq

/-- The clients, and the log. -/
structure State where
  clients : OrderedSet Int
  log : List Event

/-- What the environment answers in a round. -/
structure Answers where
  /-- `FD_ISSET(sd, &readset)`. -/
  ready : Int → Bool
  /-- The bytes that wait at a client: none when it has disconnected, `none` for `-1`. -/
  waiting : Int → Option Bytes

/-- The bytes that `recv(sd, buf, 1024, 0)` delivers. -/
def Answers.bytes (answers : Answers) (sd : Int) : Bytes :=
  ((answers.waiting sd).getD []).take 1024

/-- `bytes_read`. -/
def Answers.bytesRead (answers : Answers) (sd : Int) : Int :=
  match answers.waiting sd with
  | some _ => (answers.bytes sd).length
  | none => -1

/-- Add to the log. -/
def State.note (s : State) (events : List Event) : State := { s with log := s.log ++ events }

/-- `" from server\n"`. -/
def fromServer : Bytes := [32, 102, 114, 111, 109, 32, 115, 101, 114, 118, 101, 114, 10]

/-- The reply to a message. -/
def reply (sd : Int) (bytes : Bytes) (s : State) : State :=
  let ret := trimEols bytes
  let s := if ret = [] then s.note [.stray .emptyBack] else s
  s.note [.sent sd (ret ++ fromServer)]

/-- The sweep from an iterator on, over at most `fuel` clients. -/
def sweep (answers : Answers) : Nat → SetIterator Int → State → Except Fault State
  | _, none, s => .ok s
  | 0, some _, _ => .error .outOfFuel
  | fuel + 1, it, s => do
      let sd ← s.clients.deref it
      if answers.ready sd then
        let s := s.note [.received sd (answers.bytesRead sd)]
        if answers.bytesRead sd ≤ 0 then
          let s := s.note [.closed sd]
          let s := { s with clients := s.clients.erase sd }
          if s.clients.isEmpty then
            return s
          -- `continue`
          let it ← s.clients.next it
          sweep answers fuel it s
        else
          let s := reply sd (answers.bytes sd) s
          let it ← s.clients.next it
          sweep answers fuel it s
      else
        let it ← s.clients.next it
        sweep answers fuel it s

/-- The sweep of a round. -/
def sweepClients (answers : Answers) (clients : OrderedSet Int) : Except Fault State :=
  sweep answers clients.elems.length clients.begin { clients := clients, log := [] }

end ServerSelect

end Technopark
