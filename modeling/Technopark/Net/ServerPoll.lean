/-
`net/simplest_client_server/server_poll.cpp`: the rounds of the poll demo server.

The table `fds` has room for `POLL_SIZE` entries, of which the first `numfds` are in use; the
listener is the first.  Here it is the list of the entries in use.  In every round all of
them are polled and then walked in order.  A connection is accepted when the listener has
something to report, and joins the table behind the others, where the same walk still gets
to it.

`held` are the descriptors the process has open.  The text that is read is only printed, and
its trimming is not part of this module.
-/
import Technopark.Lib.Run
import Technopark.Net.Engine

namespace Technopark

namespace ServerPoll

/-- `POLL_SIZE`. -/
def pollSize : Nat := 32

/-- The server at a loop head. -/
structure State where
  /-- `fds[0]` up to `fds[numfds - 1]`. -/
  fds : List PollFd
  held : List Int
  /-- `main` has been left, by an exception or by `exit`. -/
  stopped : Bool
  deriving Repr, DecidableEq

/-- What the environment answers in a round. -/
structure Answers where
  /-- The `revents` of the entries; `none` is a failed poll. -/
  poll : Option (List Revents)
  accept : Int := -1
  /-- `fcntl(sock, F_SETFL, new_flags)`. -/
  fcntl : Int := 0
  /-- The result of reading from the entry at an index. -/
  read : Nat → Int := fun _ => 1

/-- Before the first round: the listener is in the table, the process has other descriptors. -/
def start (listener : Int) (others : List Int) : State :=
  { fds := [{ fd := listener, events := .pollin, revents := {} }], held := listener :: others,
    stopped := false }

/-- `poll(fds, numfds, timeout)`. -/
def report (revents : List Revents) (fds : List PollFd) : List PollFd :=
  fds.mapIdx fun i slot => { slot with revents := revents.getD i {} }

/-- The listener has something to report. -/
def acceptClient (answers : Answers) (s : State) : Except Fault State :=
  if answers.accept < 0 then .ok { s with stopped := true }
  else if s.fds.length < pollSize then
    .ok { fds := s.fds ++ [{ fd := answers.accept, events := .pollin, revents := {} }]
          held := s.held ++ [answers.accept]
          stopped := answers.fcntl = -1 }
  else .error (.undefined .outOfBounds)

/-- A client has something to report. -/
def serve (i : Nat) (slot : PollFd) (r : Int) (s : State) : State :=
  if slot.revents.pollhup then s
  else if slot.revents.pollin then
    let slot := { slot with revents := {} }
    let closed := { s with fds := s.fds.set i slot, held := s.held.erase slot.fd }
    if r < 0 then closed
    else if r = 0 then closed
    else { s with fds := s.fds.set i { slot with events := .pollout } }
  else if slot.revents.pollout then { s with fds := s.fds.set i { slot with events := .pollin } }
  else s

/-- The body of the walk at index `i`. -/
def visit (listener : Int) (answers : Answers) (i : Nat) (s : State) : Except Fault State :=
  match s.fds[i]? with
  | none => .ok s
  | some slot =>
      if s.stopped ∨ slot.revents.isZero then .ok s
      else if slot.fd = listener then acceptClient answers s
      else .ok (serve i slot (answers.read i) s)

/-- The walk from index `i` on, over at most `left` entries. -/
def walk (listener : Int) (answers : Answers) : Nat → Nat → State → Except Fault State
  | 0, _, s => .ok s
  | left + 1, i, s => do
      let s ← visit listener answers i s
      walk listener answers left (i + 1) s

/-- One round of the loop in `main`. -/
def round (listener : Int) (answers : Answers) (s : State) : Except Fault State :=
  if s.stopped then .ok s
  else
    match answers.poll with
    | none => .ok { s with stopped := true }
    | some revents =>
        let s := { s with fds := report revents s.fds }
        if s.fds.all (fun slot => slot.revents.isZero) then .ok s
        else walk listener answers pollSize 0 s

end ServerPoll

end Technopark
