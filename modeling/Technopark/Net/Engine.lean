/-
`net/libtpevent/src/engine.hpp`, and what the poll engines share.

A `pollfd` is a descriptor, the event it waits for and what `poll` has reported for
it.  The engines ask for `POLLIN` or `POLLOUT`, never for both; `POLLERR`, `POLLHUP`
and `POLLNVAL` may be reported whatever was asked for.
-/
import Technopark.Lib.Call

namespace Technopark

/-- `client_state_t`. -/
inductive ClientState
  | wantRead
  | wantWrite
  deriving Repr, DecidableEq

/-- A `Client`: an sd and a state. -/
structure Client where
  sd : Int
  state : ClientState := .wantRead
  deriving Repr, DecidableEq

/-- The bits of `revents` that `poll` can set for a slot. -/
structure Revents where
  pollin : Bool := false
  pollout : Bool := false
  pollerr : Bool := false
  pollhup : Bool := false
  pollnval : Bool := false
  deriving Repr, DecidableEq

/-- `revents == 0`. -/
def Revents.isZero (r : Revents) : Bool := r = {}

/-- What a slot asks for. -/
inductive PollEvents
  | pollin
  | pollout
  deriving Repr, DecidableEq

/-- A `struct pollfd`. -/
structure PollFd where
  fd : Int
  events : PollEvents
  revents : Revents
  deriving Repr, DecidableEq

/-- What a client waits for. -/
def ClientState.events : ClientState → PollEvents
  | .wantRead => .pollin
  | .wantWrite => .pollout

/-- The number of slots in `struct pollfd fds[32768]`. -/
def pollSlots : Nat := 32768

end Technopark
