/-
`net/simplest_client_server/server_select.cpp`: the rounds of `main`.

A round asks `select` about the listener and all clients, accepts at most one client and sweeps
over the set, which has the new client in it already.  Whenever `select` or `accept` fails, or
nothing happens for a minute, the process leaves with everything open.

The log has what was asked and what was done, which the program does not keep.  What is
printed is left out.  The set of a `select` in the log is what `FD_SET` was called with; a
descriptor that does not fit into an `fd_set` is in it like any other and the run goes on, as
in `Net/Select.lean`.
-/
import Technopark.Net.ServerSelect

namespace Technopark

namespace ServerSelect

/-- Something that `main` did. -/
inductive MainEvent
  /-- `select(nfds, &readset, ...)`. -/
  | select (readset : List Int) (nfds : Int)
  /-- `accept` returned this, and it is not an error. -/
  | accepted (sock : Int)
  /-- Something that was done to a client. -/
  | client (event : Event)
  deriving Repr, DecidableEq

/-- The clients, and the log. -/
structure Main where
  clients : OrderedSet Int
  log : List MainEvent
  /-- `exit(3)` was called. -/
  exited : Bool

/-- What the environment answers in a round. -/
structure Round where
  /-- The descriptors that `select` leaves in the set; `none` is `-1`. -/
  select : Option (List Int)
  accept : Int := -1
  /-- What `fcntl(sock, F_SETFL, ...)` returns. -/
  fcntl : Int := 0
  strerror : String := ""
  /-- The bytes that wait at a client: none when it has disconnected, `none` for `-1`. -/
  waiting : Int → Option Bytes := fun _ => none

/-- Add to the log. -/
def Main.note (s : Main) (events : List MainEvent) : Main := { s with log := s.log ++ events }

/-- `main` at its first loop head. -/
def Main.start : Main := { clients := ⟨[], .nil⟩, log := [], exited := false }

/-- `mx`. -/
def mx (listener : Int) (clients : OrderedSet Int) : Except Fault Int :=
  if clients.isEmpty then .ok listener
  else do return max listener (← clients.maxElement)

/-- `set_non_blocked_impl(sock, true)`. -/
def setNonBlockedImpl (env : Round) : Except Fault Unit :=
  if env.fcntl = -1 then .error (.runtimeError ("make nonblocked: " ++ env.strerror)) else .ok ()

/-- The branch of a round that accepts. -/
def acceptClient (env : Round) (s : Main) : Except Fault Main :=
  if env.accept < 0 then .ok { s with exited := true }
  else do
    let s := s.note [.accepted env.accept]
    setNonBlockedImpl env
    return { s with clients := s.clients.insert env.accept }

/-- The sweep of a round. -/
def sweepRound (readset : List Int) (env : Round) (s : Main) : Except Fault Main := do
  let swept ← sweepClients { ready := fun sd => sd ∈ readset, waiting := env.waiting } s.clients
  return { s with clients := swept.clients, log := s.log ++ swept.log.map .client }

/-- One round of the loop in `main`. -/
def round (listener : Int) (env : Round) (s : Main) : Except Fault Main :=
  if s.exited then .ok s
  else do
    let readset := listener :: s.clients.elems
    let s := s.note [.select readset ((← mx listener s.clients) + 1)]
    match env.select with
    | none => return { s with exited := true }
    | some left =>
        let readset := readset.filter (· ∈ left)
        if readset = [] then return { s with exited := true }
        let s ← if listener ∈ readset then acceptClient env s else pure s
        if s.exited then return s
        sweepRound readset env s

end ServerSelect

end Technopark
