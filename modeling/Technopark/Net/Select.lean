/-
`net/libtpevent/src/select.cpp`: the rounds of `SelectEngine::manageConnections`.

The listener is the first entry of `m_Clients`.  In every round `select` is asked about all
entries, the entries are walked in order, and the clients that are gone are closed and
removed in the end.  An accept ends the walk, because the vector has grown.

What the round does is recorded in a log, which the program does not keep: the descriptors
handed to the `fd_set` operations, the accepted and closed ones, and what was read and
written.  A descriptor that does not fit into an `fd_set` is recorded like any other and
the run goes on.
-/
import Technopark.Lib.Ledger
import Technopark.Net.Engine
import Technopark.Net.Receive

namespace Technopark

namespace SelectEngine

/-- Something the engine did. -/
inductive Event
  | fdSet (sd : Int)
  /-- `select(nfds, ...)`. -/
  | select (nfds : Int)
  | fdIsSet (sd : Int)
  /-- `accept` returned this. -/
  | accepted (sd : Int)
  /-- `read` on a client gave this. -/
  | read (sd : Int) (result : ReadResult)
  | stray (stray : Stray)
  /-- `write` was called with this. -/
  | wrote (sd : Int) (ans : Bytes)
  | closed (sd : Int)
  | fdClr (sd : Int)
  deriving Repr, DecidableEq

/-- A `SelectEngine`. -/
structure State where
  clients : List Client
  disconnected : List Int
  log : List Event
  /-- `select` has failed and the process has left. -/
  exited : Bool
  deriving Repr, DecidableEq

/-- What the environment answers in a round. -/
structure Answers where
  /-- The descriptors `select` leaves in the set; `none` is `-1`. -/
  select : Option (List Int)
  accept : Int := -1
  /-- The result of reading from the client at an index of `m_Clients`. -/
  read : Nat → ReadResult := fun _ => .failed

/-- Add to the log. -/
def State.note (s : State) (events : List Event) : State := { s with log := s.log ++ events }

/-- The engine at its first loop head, with the listener pushed to `m_Clients`. -/
def start (listener : Int) : State :=
  { clients := [{ sd := listener }], disconnected := [], log := [], exited := false }

/-- `fdmax` after the loop over the clients. -/
def fdmax (listener : Int) (clients : List Client) : Int :=
  clients.foldl (fun fdmax client => if client.sd > fdmax then client.sd else fdmax) listener

/-- The read branch of the sweep on one client. -/
def serve (sd : Int) (result : ReadResult) (s : State) : State :=
  let s := s.note [.read sd result]
  if result.r < 0 then { s with disconnected := s.disconnected ++ [sd] }
  else
    let (tmp, strays) := readText result.bytes
    let s := s.note (strays.map .stray)
    let s := if result.r > 0 then s.note [.wrote sd (echo ++ tmp ++ [10])] else s
    if result.r = 0 then { s with disconnected := s.disconnected ++ [sd] } else s

/-- The sweep over the clients from index `i` on. -/
def sweep (listener : Int) (readFds : List Int) (answers : Answers) :
    Nat → List Client → State → State
  | _, [], s => s
  | i, client :: rest, s =>
      let s := s.note [.fdIsSet client.sd]
      if client.sd ∉ readFds then sweep listener readFds answers (i + 1) rest s
      else if client.sd = listener then
        let s := s.note [.accepted answers.accept]
        { s with clients := s.clients ++ [{ sd := answers.accept }] }
      else sweep listener readFds answers (i + 1) rest (serve client.sd (answers.read i) s)

/-- The removal loop on the descriptors still to remove. -/
def removeDisconnected : List Int → State → Except Fault State
  | [], s => .ok s
  | sd :: left, s =>
      if s.clients.any (fun client => client.sd = sd) then
        let s := s.note [.closed sd, .fdClr sd]
        removeDisconnected left
          { s with clients := s.clients.eraseP fun client => client.sd = sd }
      else .error .assertion

/-- One round of `SelectEngine::manageConnections`. -/
def round (listener : Int) (answers : Answers) (s : State) : Except Fault State :=
  if s.exited then .ok s
  else
    let given := listener :: s.clients.map Client.sd
    let s := { s with disconnected := [] }
    let s := s.note (given.map .fdSet ++ [.select (fdmax listener s.clients + 1)])
    match answers.select with
    | none => .ok { s with exited := true }
    | some left =>
        let readFds := given.filter (· ∈ left)
        if readFds = [] then .ok s
        else
          let s := sweep listener readFds answers 0 s.clients s
          removeDisconnected s.disconnected s

end SelectEngine

end Technopark
