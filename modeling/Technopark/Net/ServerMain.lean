/-
`net/libtpevent/src/engine.cpp` and `main.cpp`: an engine opens its listener, and `main` runs it.

`listenSocket` prepares a descriptor as `Socket::createServerSocket` does, but where a call
fails it just returns `-1`, and the constructor throws.  Everything that is thrown on the way
to the engine's loop ends in the one handler of `main`; what is undefined does not.

The log has what happened to descriptors.  What the engine does in its loop is in the modules
about the engines.
-/
import Technopark.Net.Server
import Technopark.Net.SocketLife

namespace Technopark

namespace Engine

open Socket (Owner SysCalls)

/-- `htons(port)` of a port that was converted to `uint32_t`. -/
def sinPort (port : Int) : Nat := (port % 2 ^ 32).toNat % 2 ^ 16

/-- `Engine::listenSocket`. -/
def listenSocket (sys : SysCalls) : Call Owner Int := do
  let sd ← Socket.sysSocket sys
  if sd ≤ 0 then return -1
  if sys.setsockopt = -1 then return -1
  if sys.bind < 0 then return -1
  return sd

/-- `Engine::Engine`, with the member `m_Listener` kept in `mSd`. -/
def new (sys : SysCalls) : Call Owner Int := do
  let sd ← listenSocket sys
  Socket.take sd
  if sd ≤ 0 then throw (.runtimeError ("error listen socket: " ++ sys.strerror))
  return sd

/-- `Engine::~Engine`. -/
def destroy (o : Owner) : Owner := { o with log := o.log ++ [.closed o.mSd] }

end Engine

/-- The port of an engine. -/
def EngineObject.port : EngineObject → Int
  | .selectEngine port => port
  | .pollEngine port => port
  | .asyncPollEngine port => port

/-- How far `main` gets. -/
inductive Ran
  /-- `"Terminated: " << e.what()`. -/
  | terminated (what : String)
  /-- The loop of the engine, which accepts from a listener on this port. -/
  | running (engine : EngineObject) (sinPort : Nat) (listener : Int)
  deriving Repr, DecidableEq

/-- `e.what()` of what is caught as a `std::exception`. -/
def Fault.what : Fault → Option String
  | .runtimeError what => some what
  | .logicError what => some what
  | .outOfRange => some "stoi"
  | .invalidArgument => some "stoi"
  | .badAlloc => some "std::bad_alloc"
  | .assertion => none
  | .undefined _ => none
  | .outOfFuel => none

/-- `Server serv(opt)`: the engine, and its listener. -/
def Server.construct (sys : Socket.SysCalls) (opt : Options) : Except Fault Ran := do
  let engine ← Server.new opt
  let listener ← (Engine.new sys).reply (Socket.construct none)
  return .running engine (Engine.sinPort engine.port) listener

/-- `main`, up to the loop of the engine. -/
def serverMain (sys : Socket.SysCalls) (args : List Bytes) : Except Fault Ran :=
  let built : Except Fault Ran := do
    let opt ← Options.new args
    Server.construct sys opt
  match built with
  | .ok ran => .ok ran
  | .error e =>
      match e.what with
      | some what => .ok (.terminated what)
      | none => .error e

end Technopark
