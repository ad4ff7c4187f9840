/-
`net/libtpevent/src/options.cpp` and `utils.cpp`: the command line of the server.

The constructor assigns a member for every argument it understands and leaves the others
as they were, so a member is `none` until some argument has set it; reading such a member
is undefined.  `args` are all the arguments, the program's name first, and `count` is
their number.  What `usage` prints is left out, but not that it needs a name to print.
-/
import Technopark.Lib.StdString
import Technopark.Net.Socket

namespace Technopark

/-! ### `utils` -/

/-- `utils::split`: the parts between the delimiters, empty ones included. -/
def split (line delimiter : Bytes) : List Bytes := line.splitOnP (· ∈ delimiter)

/-- `utils::starts_with`. -/
def startsWith (s predicate : Bytes) : Bool := predicate.isPrefixOf s

/-! ### `Options` -/

/-- `engine_t`. -/
inductive EngineT
  | unknown
  | select
  | poll
  deriving Repr, DecidableEq

/-- An `Options` object. -/
structure Options where
  mPort : Option Nat
  mEngine : Option EngineT
  mAsync : Option Bool
  deriving Repr, DecidableEq

namespace Options

/-- Reading a member. -/
def load {α : Type} : Option α → Except Fault α
  | some a => .ok a
  | none => .error (.undefined .uninitialised)

/-- `Options::port`. -/
def port (o : Options) : Except Fault Nat := load o.mPort

/-- `Options::engine`. -/
def engine (o : Options) : Except Fault EngineT := load o.mEngine

/-- `Options::async`. -/
def async (o : Options) : Except Fault Bool := load o.mAsync

def optPort : Bytes := text "port"

def optEngine : Bytes := text "engine"

def optAsync : Bytes := text "async"

/-- `string2engine`. -/
def string2engine (s : Bytes) : EngineT :=
  if s = text "select" then .select
  else if s = text "poll" then .poll
  else .unknown

/-- An `int` converted to `uint16_t`. -/
def toUInt16 (n : Int) : Nat := (n % 2 ^ 16).toNat

/-- `usage(args[0]); throw std::runtime_error("bad options")`. -/
def badOptions {α : Type} (args : List Bytes) : Except Fault α :=
  match args with
  | [] => .error (.undefined .nullPointer)
  | _ :: _ => .error (.runtimeError "bad options")

/-- The name of an option: `--port` is `port`. -/
def optName (name : Bytes) : Except Fault Bytes :=
  if startsWith name (text "--") then substr name 2 npos else .ok name

/-- The branches of the loop over the name. -/
def setOption (args : List Bytes) (o : Options) (name value : Bytes) : Except Fault Options :=
  if name = optPort then do
    return { o with mPort := some (toUInt16 (← stoi value)) }
  else if name = optEngine then
    let o := { o with mEngine := some (string2engine value) }
    if string2engine value = .unknown then badOptions args else .ok o
  else if name = optAsync then do
    let async ← stoi value
    if async = 0 then
      return { o with mAsync := some false }
    else if async = 1 then
      return { o with mAsync := some true }
    else
      badOptions args
  else
    badOptions args

/-- The body of the loop, for one argument. -/
def parseOption (args : List Bytes) (o : Options) (arg : Bytes) : Except Fault Options :=
  match split arg (text "=") with
  | [name, value] => do
      let name ← optName name
      setOption args o name value
  | _ => badOptions args

/-- `Options::Options`. -/
def new (args : List Bytes) : Except Fault Options :=
  if args.length < 4 then
    badOptions args
  else
    args.tail.foldlM (parseOption args) { mPort := none, mEngine := none, mAsync := none }

end Options

end Technopark
