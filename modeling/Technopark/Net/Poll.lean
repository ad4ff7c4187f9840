/-
`net/libtpevent/src/poll.cpp`: the two threads of `PollEngine`.

`acceptNewConnections` appends to `m_Clients` whenever a client arrives.
`manageConnections` goes round and round: it fills a slot of `fds` for every client,
polls, walks the slots and the clients in step and removes the clients that are gone.
There is no lock between the two, so the acceptor may append between any two steps of
the manager.

A step of the manager is one iteration of one of its loops, or the poll call; `Pc` says
which comes next.  `m_Clients.size()` is read in the step that needs it.  The array
`fds` outlives the rounds and is not initialised, so a slot is absent until it is first
filled and afterwards keeps what was last written to it.

`round`, and the two stamps of a slot, are there to say in which round it was written;
`acted` records which descriptors were used, and the client at the index they were used
at.  The program has neither.  What is read is only printed, so the rounds do without it;
`readBranch` is what the branch that reads makes of the bytes.
-/
import Technopark.Net.Engine
import Technopark.Net.Receive
import Mathlib.Logic.Function.Basic

namespace Technopark

namespace PollEngine

/-- A slot of `fds`, and the rounds that filled it and polled it last. -/
structure Slot where
  pollfd : PollFd
  filledIn : Nat
  reportedIn : Nat
  deriving Repr, DecidableEq

/-- What the second loop does with a descriptor. -/
inductive Act
  | read
  | write
  | close
  /-- `disconnected_clients.push_back(fd)`. -/
  | queue
  deriving Repr, DecidableEq

/-- An act on a descriptor, with the descriptor of the client at the same index. -/
structure Acted where
  act : Act
  fd : Int
  client : Int
  deriving Repr, DecidableEq

/-- What the manager does next. -/
inductive Pc
  /-- The top of the round. -/
  | head
  /-- The fill loop at index `i`. -/
  | fill (i : Nat)
  /-- The poll call, after the fill loop ended at index `filled`. -/
  | polling (filled : Nat)
  /-- The second loop at index `i`. -/
  | second (i : Nat)
  /-- The removal loop, with the descriptors still to remove. -/
  | remove (left : List Int)
  /-- `poll` failed and the thread has thrown. -/
  | stopped
  deriving Repr, DecidableEq

/-- A `PollEngine`. -/
structure State where
  clients : List Client
  fds : Nat → Option Slot
  disconnected : List Int
  pc : Pc
  round : Nat
  acted : List Acted

/-- The engine before its threads start. -/
def start : State :=
  { clients := [], fds := fun _ => none, disconnected := [], pc := .head, round := 0, acted := [] }

/-- What the environment answers, should the manager ask. -/
structure Answers where
  /-- The `revents` of the polled slots; `none` is a failed poll. -/
  poll : Option (List Revents) := some []
  /-- The result of `read`. -/
  read : Int := 0
  deriving Repr, DecidableEq

/-- The steps of the two threads. -/
inductive Action
  /-- `m_Clients.push_back(Client(cli_sd))`. -/
  | accept (sd : Int)
  /-- The manager's next step. -/
  | manage (answers : Answers)
  deriving Repr, DecidableEq

/-- `poll(fds, nfds, ...)`: the first `nfds` slots get what is reported. -/
def report (s : State) (nfds : Nat) (revents : List Revents) : Nat → Option Slot := fun i =>
  if i < nfds then
    (s.fds i).map fun slot =>
      { slot with
        pollfd := { slot.pollfd with revents := revents.getD i {} }, reportedIn := s.round }
  else s.fds i

/-- `poll_ret`, the number of slots with something to report. -/
def pollRet (nfds : Nat) (revents : List Revents) : Nat :=
  (revents.take nfds).countP fun v => !v.isZero

/-- Do something with the slot's descriptor at the index of a client. -/
def State.act (s : State) (act : Act) (fd : Int) (client : Client) : State :=
  { s with
    acted := s.acted ++ [⟨act, fd, client.sd⟩]
    disconnected := if act = .queue then s.disconnected ++ [fd] else s.disconnected }

/-- `m_Clients[i].state = state`. -/
def State.setState (s : State) (i : Nat) (client : Client) (state : ClientState) : State :=
  { s with clients := s.clients.set i { client with state := state } }

/-- The branch that reads, behind its `read`: the text it prints, and what was missed. -/
def readBranch (result : ReadResult) : Bytes × List Stray :=
  if result.r < 0 then ([], []) else readText result.bytes

/-- The body of the second loop on slot `i` and the client at index `i`. -/
def visit (s : State) (i : Nat) (fd : PollFd) (client : Client) (r : Int) : State :=
  if fd.revents.isZero then s
  else if fd.revents.pollhup then s.act .queue fd.fd client
  else if fd.revents.pollin then
    if client.state ≠ .wantRead then s
    else
      let s := s.act .read fd.fd client
      if r < 0 then (s.act .close fd.fd client).act .queue fd.fd client
      else if r > 0 then s.setState i client .wantWrite
      else (s.act .close fd.fd client).act .queue fd.fd client
  else if fd.revents.pollout then
    if client.state ≠ .wantWrite then s
    else (s.act .write fd.fd client).setState i client .wantRead
  else if fd.revents.pollnval then s.act .queue fd.fd client
  else s

/-- The next step of `PollEngine::manageConnections`. -/
def manage (answers : Answers) (s : State) : Except Fault State :=
  match s.pc with
  | .head =>
      if s.clients = [] then .ok { s with disconnected := [] }
      else .ok { s with disconnected := [], pc := .fill 0, round := s.round + 1 }
  | .fill i =>
      match s.clients[i]? with
      | none => .ok { s with pc := .polling i }
      | some client =>
          if i < pollSlots then
            let pollfd := { fd := client.sd, events := client.state.events, revents := {} }
            let slot : Slot := { pollfd := pollfd, filledIn := s.round, reportedIn := 0 }
            .ok { s with fds := Function.update s.fds i (some slot), pc := .fill (i + 1) }
          else .error (.undefined .outOfBounds)
  | .polling _ =>
      match answers.poll with
      | none => .ok { s with pc := .stopped }
      | some revents =>
          let s' := { s with fds := report s s.clients.length revents }
          if pollRet s.clients.length revents = 0 then .ok { s' with pc := .head }
          else .ok { s' with pc := .second 0 }
  | .second i =>
      match s.clients[i]? with
      | none => .ok { s with pc := .remove s.disconnected }
      | some client =>
          match s.fds i with
          | none => .error (.undefined .uninitialised)
          | some slot =>
              .ok { visit s i slot.pollfd client answers.read with pc := .second (i + 1) }
  | .remove [] => .ok { s with pc := .head }
  | .remove (sd :: left) =>
      if s.clients.any (fun client => client.sd = sd) then
        .ok { s with
          clients := s.clients.eraseP fun client => client.sd = sd, pc := .remove left }
      else .error .assertion
  | .stopped => .ok s

/-- One step of either thread. -/
def step : Action → State → Except Fault State
  | .accept sd, s => .ok { s with clients := s.clients ++ [{ sd := sd }] }
  | .manage answers, s => manage answers s

end PollEngine

end Technopark
