/-
`net/common/socket.cpp`: sending and receiving on a connected `Socket`.

The system calls are the environment's.  `::send` and `::recv` are given by the
sequence of results they return, in the order the calls are made; `Wire` keeps what
a run has used of them.  A `::send` that accepts `k` bytes has taken the range that
starts at the offset the call was given, so the log of the calls says which bytes
of the string went out.

The loops of `send` and of `recv(size_t)` have no bound of their own; they take the
number of system calls the run may make and end in `outOfFuel` if they want another one.
The buffer of `recv(size_t)` has a cell for every byte that was asked for, and the kernel
writing behind it is undefined.  So is `back()` of an empty string in `recv` and `recv_loop`;
the server loops record that access and go on (`Net/Receive.lean`).
-/
import Technopark.Lib.Call

namespace Technopark

/-- A byte string. -/
abbrev Bytes := List UInt8

/-- One call `::send(m_Sd, str.data() + offset, len, flags)` and its result. -/
structure SysSend where
  offset : Nat
  len : Nat
  result : Int
  deriving Repr, DecidableEq

/-- What `::recv` returns, with `errno` as text where it matters. -/
inductive SysRecv
  /-- Between one byte and the whole buffer. -/
  | data (chunk : Bytes)
  /-- `0`: the peer has closed. -/
  | closed
  /-- `-1` with `EAGAIN`: the receive timeout. -/
  | timeout
  /-- `-1` with another `errno`. -/
  | failed (strerror : String)
  deriving Repr, DecidableEq

namespace Socket

/-! ### `Socket::send` -/

/-- The system calls a run of `send` has made. -/
structure Wire where
  log : List SysSend
  deriving Repr, DecidableEq

/-- The results of `::send`, in order, and the text of `errno` after each. -/
structure SendResults where
  result : Nat → Int
  strerror : Nat → String

/-- `::send(m_Sd, str.data() + offset, len, flags)`. -/
def sysSend (env : SendResults) (offset len : Nat) : Call Wire Int := do
  let w ← get
  let result := env.result w.log.length
  set ({ log := w.log ++ [⟨offset, len, result⟩] } : Wire)
  return result

/--
The loop of `Socket::send` on a string of `size` bytes.  The offset of a call is the
result of the call before it.
-/
def sendLoop (env : SendResults) (size : Nat) : Nat → Nat → Int → Call Wire Unit
  | 0, left, _ => if left > 0 then throw .outOfFuel else pure ()
  | fuel + 1, left, sent => do
      if left > 0 then
        let sent ← sysSend env (sizeTOfInt sent) (sizeTSub size (sizeTOfInt sent))
        if sent = -1 then
          throw (.runtimeError ("write failed: " ++ env.strerror ((← get).log.length - 1)))
        sendLoop env size fuel (sizeTSub left (sizeTOfInt sent)) sent

/-- `Socket::send`, with at most `fuel` system calls. -/
def send (env : SendResults) (fuel : Nat) (str : Bytes) : Call Wire Unit :=
  sendLoop env str.length fuel str.length 0

/-! ### `Socket::recv(size_t)` -/

/-- One call `::recv(m_Sd, buf + offset, len, 0)` and what it delivers; `none` is `-1`. -/
structure SysRead where
  offset : Nat
  len : Nat
  delivered : Option Bytes
  deriving Repr, DecidableEq

/-- The bytes a call puts into the buffer. -/
def SysRead.chunk (call : SysRead) : Bytes := call.delivered.getD []

/-- The `ssize_t rc` of a call. -/
def SysRead.rc (call : SysRead) : Int :=
  match call.delivered with
  | some chunk => chunk.length
  | none => -1

/-- The results of `::recv`, in order, and the text of `errno` after each. -/
structure RecvResults where
  delivered : Nat → Option Bytes
  strerror : Nat → String

/-- The system calls a run has made, and the buffer it has allocated. -/
structure Inbox where
  log : List SysRead
  buf : List (Option UInt8)
  deriving Repr, DecidableEq

/-- `new char[bytes]`. -/
def newBuf (bytes : Nat) : Call Inbox Unit := do
  if ptrdiffMax < bytes then
    throw .badAlloc
  modify fun s => { s with buf := List.replicate bytes none }

/-- `delete[] buf`. -/
def deleteBuf : Call Inbox Unit := modify fun s => { s with buf := [] }

/-- The kernel writes to `buf + offset`. -/
def writeBuf (offset : Nat) (chunk : Bytes) : Call Inbox Unit := do
  let s ← get
  if s.buf.length < offset + chunk.length then
    throw (.undefined .outOfBounds)
  set ({ s with
    buf := s.buf.take offset ++ chunk.map some ++ s.buf.drop (offset + chunk.length) } : Inbox)

/-- `::recv(m_Sd, buf + offset, len, 0)`. -/
def sysRecv (env : RecvResults) (offset len : Nat) : Call Inbox Int := do
  let s ← get
  let call : SysRead := ⟨offset, len, env.delivered s.log.length⟩
  set ({ s with log := s.log ++ [call] } : Inbox)
  writeBuf offset call.chunk
  return call.rc

/-- The loop of `Socket::recv(bytes)`, with `r` bytes in the buffer. -/
def recvBytesLoop (env : RecvResults) (bytes : Nat) : Nat → Nat → Call Inbox Unit
  | 0, r => if r ≠ bytes then throw .outOfFuel else pure ()
  | fuel + 1, r => do
      if r ≠ bytes then
        let rc ← sysRecv env r (sizeTSub bytes r)
        if rc = -1 ∨ rc = 0 then
          deleteBuf
          throw (.runtimeError ("read failed: " ++ env.strerror ((← get).log.length - 1)))
        recvBytesLoop env bytes fuel (sizeT (r + sizeTOfInt rc))

/-- `std::string ret(buf, buf + bytes)`. -/
def stringOfBuf (bytes : Nat) : Call Inbox Bytes := do
  let s ← get
  if s.buf.length < bytes then
    throw (.undefined .outOfBounds)
  match (s.buf.take bytes).mapM id with
  | some ret => return ret
  | none => throw (.undefined .uninitialised)

/-- `Socket::recv(bytes)`, with at most `fuel` system calls. -/
def recvBytes (env : RecvResults) (fuel bytes : Nat) : Call Inbox Bytes := do
  newBuf bytes
  recvBytesLoop env bytes fuel 0
  let ret ← stringOfBuf bytes
  deleteBuf
  return ret

/-! ### `Socket::recv` and `Socket::recv_loop` -/

/-- `c == '\r' || c == '\n'`. -/
def isEol (c : UInt8) : Bool := c == 13 || c == 10

/--
`while (ret.back() == '\r' || ret.back() == '\n') ret.pop_back()`, on the string read
from its end.  `back()` of an empty string is undefined.
-/
def popEols : Bytes → Except Fault Bytes
  | [] => .error (.undefined .emptyString)
  | c :: rest => if isEol c then popEols rest else .ok (c :: rest)

/-- The trimming loop on the string itself. -/
def trimBack (ret : Bytes) : Except Fault Bytes := (popEols ret.reverse).map List.reverse

/-- `Socket::recv`, from the result of its system call. -/
def recv (mSd : Int) : SysRecv → Except Fault Bytes
  | .failed strerror => .error (.runtimeError ("read failed: " ++ strerror))
  | .closed => .error (.runtimeError ("client: " ++ toString mSd ++ " disconnected"))
  | .timeout => .error (.runtimeError ("client: " ++ toString mSd ++ " timeouted"))
  | .data chunk => trimBack chunk

/-- `Socket::recv_loop`, from the contents of `ret`. -/
def recvLoop : List SysRecv → Bytes → Except Fault Bytes
  | [], _ => .error .outOfFuel
  | .data chunk :: results, ret => do
      let ret ← trimBack (ret ++ chunk)
      recvLoop results ret
  | .closed :: _, ret => .ok ret
  | .timeout :: _, ret => .ok ret
  | .failed strerror :: _, _ => .error (.runtimeError ("read failed: " ++ strerror))

end Socket

end Technopark
