/-
`net/libtpevent/src/poll_async.cpp`: the connection manager of `EventLoop`.

One round of `manageConnections` fills a slot for every waiting event, polls, hands
the events that are ready to the workers and removes those whose descriptor is gone.
The second loop walks the slots and the events in step, but `deleteClient` takes an
event out from under it, and from then on `m_ClientsWantWork[i]` is not the event
that slot `i` was filled from.

The round never reads `m_ClientsHaveWork`, so of that queue the state only has what
the round pushes.  What an event carries besides its client, a callback and a buffer,
is moved around and never looked at: it is the parameter `β`.
-/
import Technopark.Net.Engine

namespace Technopark

/-- `EventLoop::Event`. -/
structure Event (β : Type) where
  client : Client
  work : β
  deriving Repr, DecidableEq

namespace EventLoop

/-- The state of one round. -/
structure Round (β : Type) where
  wantWork : List (Event β)
  /-- What the round has pushed to `m_ClientsHaveWork`. -/
  haveWork : List (Event β)
  disconnected : List Int
  deriving Repr, DecidableEq

variable {β : Type}

/-- `EventLoop::deleteClient`. -/
def deleteClient (sd : Int) : Call (Round β) Unit := do
  let r ← get
  if r.wantWork.any (fun event => event.client.sd = sd) then
    set { r with wantWork := r.wantWork.eraseP fun event => event.client.sd = sd }
  else
    throw .assertion

/-- `disconnected_clients.push_back(fd)`. -/
def disconnect (fd : Int) : Call (Round β) Unit :=
  modify fun r => { r with disconnected := r.disconnected ++ [fd] }

/-- `m_ClientsHaveWork.push(m_ClientsWantWork[i])` and `deleteClient`, if the state fits. -/
def handOver (slot : PollFd) (i : Nat) (state : ClientState) : Call (Round β) Unit := do
  let r ← get
  match r.wantWork[i]? with
  | none => throw (.undefined .outOfBounds)
  | some event =>
      if event.client.state = state then
        set { r with haveWork := r.haveWork ++ [event] }
        deleteClient slot.fd

/-- The body of the second loop. -/
def visit (slot : PollFd) (i : Nat) : Call (Round β) Unit :=
  if slot.revents.isZero then pure ()
  else if slot.revents.pollhup then disconnect slot.fd
  else if slot.revents.pollin then handOver slot i .wantRead
  else if slot.revents.pollout then handOver slot i .wantWrite
  else if slot.revents.pollnval then disconnect slot.fd
  else pure ()

/-- The second loop from index `i` on; `m_ClientsWantWork.size()` is read each time. -/
def sweep : List PollFd → Nat → Call (Round β) Unit
  | [], i => do
      if i < (← get).wantWork.length then throw (.undefined .uninitialised)
  | slot :: fds, i => do
      if i < (← get).wantWork.length then
        visit slot i
        sweep fds (i + 1)

/-- The removal loop. -/
def removeAll : List Int → Call (Round β) Unit
  | [] => pure ()
  | sd :: sds => do
      deleteClient sd
      removeAll sds

/-- The slots after the fill loop and the poll call. -/
def fill (wantWork : List (Event β)) (revents : List Revents) : List PollFd :=
  wantWork.zipWith
    (fun event r => { fd := event.client.sd, events := event.client.state.events, revents := r })
    revents

/-- One round of `EventLoop::manageConnections` in which `poll` reports `revents`. -/
def manageConnections (revents : List Revents) : Call (Round β) Unit := do
  let wantWork := (← get).wantWork
  if wantWork.length > pollSlots then
    throw (.undefined .outOfBounds)
  let fds := fill wantWork revents
  -- with no slot reported `poll` returns 0 and the round is over
  if fds.any (fun slot => !slot.revents.isZero) then
    sweep fds 0
    removeAll (← get).disconnected

end EventLoop

end Technopark
