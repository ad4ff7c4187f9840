/-
`net/libtpevent/src/epoll.cpp`: the steps of `EpollEngine::eventLoop`.

A client lives in three places: a `Client` on the heap, its state there, and its entry in the
interest set of the kernel, which carries the address of the object and the event it waits
for.  In a round `epoll_wait` reports a batch of events, they are handled one after the
other, and the clients that are gone are closed and deleted in the end.

`epoll_data` is a union, so the test for the listener looks at the low half of an address
when the event is a client's.  An access to an address that holds no object is undefined.

A reply is the text `"hello from server!\n"` with its NUL, all of it: the loop does not look at
what `write` returns, and the client wants to be read from again even if `write` has failed or
has taken a part only.  A `Cell` counts the non-empty reads from its client, the replies that
were taken whole and those that were not; the program counts none of them.  The text that is
read is only printed, and its trimming is not part of this module.  A `write` that raises
SIGPIPE ends the process and has no step here.
-/
import Technopark.Net.Engine
import Mathlib.Logic.Function.Basic

namespace Technopark

namespace EpollEngine

/-- What a descriptor is registered for. -/
inductive Mask
  | epollin
  | epollout
  deriving Repr, DecidableEq

/-- The event a client waits for. -/
def mask : ClientState → Mask
  | .wantRead => .epollin
  | .wantWrite => .epollout

/-- The bits of `events` that `epoll_wait` can report. -/
structure Bits where
  epollin : Bool := false
  epollout : Bool := false
  epollerr : Bool := false
  epollhup : Bool := false
  deriving Repr, DecidableEq

/-- A `struct epoll_event` that was reported; `data` is the whole union. -/
structure EpollEvent where
  events : Bits
  data : Nat
  deriving Repr, DecidableEq

/-- `data.fd`. -/
def EpollEvent.fd (event : EpollEvent) : Int := toInt32 event.data

/-- An entry of the interest set. -/
structure Interest where
  events : Mask
  data : Nat
  deriving Repr, DecidableEq

/-- `sizeof(buf)` for `char buf[] = "hello from server!\n"`. -/
def replySize : Int := 20

/-- A `Client` on the heap, and what has passed between it and the engine. -/
structure Cell where
  client : Client
  /-- The non-empty reads from it. -/
  reads : Nat := 0
  /-- The replies that `write` has taken whole. -/
  replies : Nat := 0
  /-- The replies that it has not. -/
  unsent : Nat := 0
  deriving Repr, DecidableEq

/-- A client that was read from. -/
def Cell.read (cell : Cell) : Cell :=
  { cell with client := { cell.client with state := .wantWrite }, reads := cell.reads + 1 }

/-- A client that was written to, with this result. -/
def Cell.wrote (cell : Cell) (result : Int) : Cell :=
  let client := { cell.client with state := .wantRead }
  if result = replySize then { cell with client := client, replies := cell.replies + 1 }
  else { cell with client := client, unsent := cell.unsent + 1 }

/-- What the loop does next. -/
inductive Pc
  /-- The top of the round. -/
  | head
  /-- The events of the batch that are still to be handled. -/
  | events (left : List EpollEvent)
  /-- The disconnected clients that are still to be deleted. -/
  | remove (left : List Nat)
  /-- The loop has thrown. -/
  | stopped
  deriving Repr, DecidableEq

/-- An `EpollEngine`, the heap and the interest set. -/
structure State where
  heap : Nat → Option Cell
  interest : Int → Option Interest
  disconnected : List Nat
  pc : Pc

/-- What the environment answers, should the loop ask. -/
structure Answers where
  /-- The descriptors `epoll_wait` reports, with their events; `none` is `-1`. -/
  wait : Option (List (Int × Bits)) := some []
  accept : Int := -1
  /-- The address `new Client` returns. -/
  new : Nat := 0
  read : Int := 0
  write : Int := replySize
  /-- `epoll_ctl` has no reason to fail. -/
  ctl : Bool := true
  deriving Repr, DecidableEq

/-- The union with `data.fd = fd` and the rest zero. -/
def dataOfFd (fd : Int) : Nat := (fd % 2 ^ 32).toNat

/-- The engine at its first loop head: the listener is registered. -/
def start (listener : Int) : State :=
  { heap := fun _ => none
    interest := Function.update (fun _ => none) listener (some ⟨.epollin, dataOfFd listener⟩)
    disconnected := [], pc := .head }

/-- `disconnected_clients.push_back(cs)`. -/
def State.disconnect (s : State) (cs : Nat) : State :=
  { s with disconnected := s.disconnected ++ [cs] }

/-- Write to the object at an address. -/
def State.store (s : State) (cs : Nat) (cell : Cell) : State :=
  { s with heap := Function.update s.heap cs (some cell) }

/-- `epoll_ctl(epfd, EPOLL_CTL_ADD, sd, &ev)`. -/
def epollAdd (answers : Answers) (sd : Int) (interest : Interest) (s : State) : State :=
  if answers.ctl ∧ s.interest sd = none then
    { s with interest := Function.update s.interest sd (some interest) }
  else s

/-- `accept_action`. -/
def acceptAction (answers : Answers) (s : State) : State :=
  epollAdd answers answers.accept ⟨.epollin, answers.new⟩
    (s.store answers.new { client := { sd := answers.accept } })

/-- `set_desire_events`, and the exception when it fails. -/
def setDesireEvents (answers : Answers) (sd : Int) (events : Mask) (cs : Nat) (s : State) : State :=
  if answers.ctl ∧ s.interest sd ≠ none then
    { s with interest := Function.update s.interest sd (some ⟨events, cs⟩) }
  else { s with pc := .stopped }

/-- The `EPOLLIN` branch on a client that wants to be read. -/
def readFrom (answers : Answers) (cs : Nat) (cell : Cell) (s : State) : State :=
  if answers.read < 0 then s.disconnect cs
  else if answers.read > 0 then
    setDesireEvents answers cell.client.sd .epollout cs (s.store cs cell.read)
  else s.disconnect cs

/-- The `EPOLLOUT` branch on a client that wants to be written to. -/
def writeTo (answers : Answers) (cs : Nat) (cell : Cell) (s : State) : State :=
  -- the result of `write` only decides what is counted
  setDesireEvents answers cell.client.sd .epollin cs (s.store cs (cell.wrote answers.write))

/-- The body of the loop over the events. -/
def handle (listener : Int) (answers : Answers) (event : EpollEvent) (s : State) :
    Except Fault State :=
  if event.fd = listener then .ok (acceptAction answers s)
  else if event.events.epollhup then .ok (s.disconnect event.data)
  else
    match s.heap event.data with
    | none => .error (.undefined .outOfBounds)
    | some cell =>
        if event.events.epollin then
          if cell.client.state ≠ .wantRead then .ok s
          else .ok (readFrom answers event.data cell s)
        else if event.events.epollout then
          if cell.client.state ≠ .wantWrite then .ok s
          else .ok (writeTo answers event.data cell s)
        else .ok s

/-- `close(sd)` and `delete` on a disconnected client. -/
def deleteClient (cs : Nat) (s : State) : Except Fault State :=
  match s.heap cs with
  | none => .error (.undefined .outOfBounds)
  | some cell =>
      .ok { s with
        interest := Function.update s.interest cell.client.sd none
        heap := Function.update s.heap cs none }

/-- The events `epoll_wait` fills in for the descriptors it reports. -/
def report (s : State) (ready : List (Int × Bits)) : List EpollEvent :=
  ready.filterMap fun r => (s.interest r.1).map fun interest => ⟨r.2, interest.data⟩

/-- The next step of `EpollEngine::eventLoop`. -/
def step (listener : Int) (answers : Answers) (s : State) : Except Fault State :=
  match s.pc with
  | .head =>
      match answers.wait with
      | none => .ok { s with disconnected := [], pc := .stopped }
      | some [] => .ok { s with disconnected := [] }
      | some ready => .ok { s with disconnected := [], pc := .events (report s ready) }
  | .events [] => .ok { s with pc := .remove s.disconnected }
  | .events (event :: left) => handle listener answers event { s with pc := .events left }
  | .remove [] => .ok { s with pc := .head }
  | .remove (cs :: left) => deleteClient cs { s with pc := .remove left }
  | .stopped => .ok s

end EpollEngine

end Technopark
