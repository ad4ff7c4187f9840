/-
`net/libtpevent/src/server.cpp`: the engine a server runs.

The constructor reads the three options and builds an engine from them.  Which engine it
is and the port it is given are the result; opening the listening socket belongs to the
engine.  `engine_t` has no epoll engine, so the case for one is left out.
-/
import Technopark.Net.Options

namespace Technopark

/-- The engines, with the port each is built with. -/
inductive EngineObject
  | selectEngine (port : Int)
  | pollEngine (port : Int)
  | asyncPollEngine (port : Int)
  deriving Repr, DecidableEq

/-- `get_engine`. -/
def getEngine (type : EngineT) (port : Int) (async : Bool) : Except Fault EngineObject :=
  match type with
  | .select => .ok (.selectEngine port)
  | .poll => if async then .ok (.asyncPollEngine port) else .ok (.pollEngine port)
  | .unknown => .error (.logicError "unknown engine type")

/-- `Server::Server`. -/
def Server.new (opt : Options) : Except Fault EngineObject := do
  let type ← opt.engine
  let port ← opt.port
  let async ← opt.async
  getEngine type port async

end Technopark
