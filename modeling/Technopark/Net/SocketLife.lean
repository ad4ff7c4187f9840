/-
`net/common/socket.cpp` and `socket.hpp`: how a `Socket` comes by its descriptor.

`connect`, its overload with a timeout and `createServerSocket` ask for a descriptor, prepare
it and store it in `m_Sd`; where a system call fails they throw.  `close()` and the destructor
close `m_Sd`.  The results of the system calls are the environment's, and one `SysCalls` has
those of one call of a member.  The log has what happened to descriptors; the class does not
keep one.

Host and port only reach `resolve`, of which it matters whether it finds the host, and the
queue size only `listen`, whose result is ignored.  `FD_SET` before the `select` of `connect`
touches nothing that is modelled; a descriptor that does not fit into an `fd_set` goes the way
of any other, as in the server loops, and the log has it as `opened`.
-/
import Technopark.Lib.Run

namespace Technopark

namespace Socket

/-- Something happens to a descriptor. -/
inductive FdEvent
  /-- `socket` returned it. -/
  | opened (sd : Int)
  /-- `m_Sd = sd`. -/
  | took (sd : Int)
  /-- `::close(sd)` in a member that has opened it. -/
  | released (sd : Int)
  /-- `::close(m_Sd)`, in `close()` or in the destructor. -/
  | closed (sd : Int)
  deriving Repr, DecidableEq

/-- A `Socket`. -/
structure Owner where
  mSd : Int
  log : List FdEvent
  deriving Repr, DecidableEq

/-- The results of the system calls in one call of a member. -/
structure SysCalls where
  /-- `gethostbyname` knows the host. -/
  resolves : Bool := true
  socket : Int
  setsockopt : Int := 0
  /-- `fcntl(sd, F_SETFL, new_flags)`. -/
  fcntl : Int := 0
  connect : Int := 0
  /-- `errno == EINPROGRESS` after `::connect`. -/
  inProgress : Bool := false
  select : Int := 1
  bind : Int := 0
  strerror : String := ""
  deriving Repr, DecidableEq

/-- `Socket()` and `Socket(int sd)`: a descriptor that is given is one the object has. -/
def construct : Option Int → Owner
  | none => { mSd := -1, log := [] }
  | some sd => { mSd := sd, log := if 0 ≤ sd then [.opened sd, .took sd] else [] }

/-- Add to the log. -/
def note (event : FdEvent) : Call Owner Unit :=
  modify fun o => { o with log := o.log ++ [event] }

/-- `socket(PF_INET, SOCK_STREAM, IPPROTO_TCP)`. -/
def sysSocket (sys : SysCalls) : Call Owner Int := do
  if 0 ≤ sys.socket then note (.opened sys.socket)
  return sys.socket

/-- `resolve`. -/
def resolve (sys : SysCalls) : Call Owner Unit := do
  if !sys.resolves then throw (.runtimeError ("resolve error: " ++ sys.strerror))

/-- `set_non_blocked_impl`. -/
def setNonBlockedImpl (sys : SysCalls) : Call Owner Unit := do
  if sys.fcntl = -1 then throw (.runtimeError ("make nonblocked: " ++ sys.strerror))

/-- `Socket::setReuseAddr`. -/
def setReuseAddr (sys : SysCalls) (sd : Int) : Call Owner Unit := do
  if sys.setsockopt = -1 then
    note (.released sd)
    throw (.runtimeError ("setopt: " ++ sys.strerror))

/-- `m_Sd = sd`. -/
def take (sd : Int) : Call Owner Unit := do
  modify fun o => { o with mSd := sd }
  note (.took sd)

/-- `Socket::connect(host, port)`. -/
def connect (sys : SysCalls) : Call Owner Unit := do
  resolve sys
  let sd ← sysSocket sys
  if sd ≤ 0 then throw (.runtimeError ("error to create socket: " ++ sys.strerror))
  if sys.connect = -1 then
    note (.released sd)
    throw (.runtimeError ("connect error: " ++ sys.strerror))
  take sd

/-- `Socket::connect(host, port, timeout)`. -/
def connectTimeout (sys : SysCalls) : Call Owner Unit := do
  resolve sys
  let sd ← sysSocket sys
  if sd ≤ 0 then throw (.runtimeError ("error to create socket: " ++ sys.strerror))
  setNonBlockedImpl sys
  if sys.connect = -1 ∧ ¬ sys.inProgress then
    note (.released sd)
    throw (.runtimeError ("connect error: " ++ sys.strerror))
  if sys.select ≠ 1 then
    note (.released sd)
    throw (.runtimeError "connect timeout")
  take sd

/-- `Socket::createServerSocket`. -/
def createServerSocket (sys : SysCalls) : Call Owner Unit := do
  let sd ← sysSocket sys
  if sd ≤ 0 then throw (.runtimeError ("socket: " ++ sys.strerror))
  setReuseAddr sys sd
  if sys.bind < 0 then
    note (.released sd)
    throw (.runtimeError ("bind: " ++ sys.strerror))
  take sd

/-- `Socket::close`. -/
def close : Call Owner Unit := do note (.closed (← get).mSd)

/-- `~Socket`. -/
def destroy (o : Owner) : Owner :=
  if o.mSd > 0 then { o with log := o.log ++ [.closed o.mSd] } else o

/-- The calls that bear on the descriptor. -/
inductive Member
  | connect (sys : SysCalls)
  | connectTimeout (sys : SysCalls)
  | createServerSocket (sys : SysCalls)
  | close
  deriving Repr, DecidableEq

/-- A call of a member. -/
def Member.call : Member → Call Owner Unit
  | .connect sys => Socket.connect sys
  | .connectTimeout sys => Socket.connectTimeout sys
  | .createServerSocket sys => Socket.createServerSocket sys
  | .close => Socket.close

/-- An object from its constructor to its destructor: what happened to descriptors. -/
def life (given : Option Int) (calls : List Member) : List FdEvent :=
  (destroy ((Call.object Member.call).run calls (construct given)).2).log

end Socket

end Technopark
