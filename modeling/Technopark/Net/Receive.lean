/-
What the servers make of the bytes a `read` has delivered.

The servers read into a `char buf[256]`, write a terminator behind the bytes, make a
string of the buffer and take the line ends off its end.  Two of the accesses on the way
may miss: the terminator when the buffer is full, and `tmp[tmp.size() - 1]` when nothing is
left of the string.  Neither stops the program, so they are recorded as `Stray` and the run
goes on, as if what they touch were neither a line end nor anything that is used.

Which accesses go astray is only a question while a loop goes on, and that is why they are
recorded here and in the other server loops.  The trimming in a call of `Socket::recv`
(`Net/Socket.lean`) is the same, but the call has only its result to show, and an access that
has no meaning is a fault of the call.  A run without a `stray` in its log and a call that
returns `ok` say the same.
-/
import Technopark.Net.Socket

namespace Technopark

/-- `"echo: "`. -/
def echo : Bytes := [101, 99, 104, 111, 58, 32]

/-- The string a `char*` points to: it ends at the first NUL. -/
def cString (bytes : Bytes) : Bytes := bytes.takeWhile (· ≠ 0)

/-- `sizeof(buf)`. -/
def bufSize : Nat := 256

/-- What `read(sd, buf, sizeof(buf))` gives. -/
inductive ReadResult
  /-- `-1`. -/
  | failed
  /-- As many of the waiting bytes as fit; none at the end of the stream. -/
  | data (waiting : Bytes)
  deriving Repr, DecidableEq

/-- The bytes that reach the buffer. -/
def ReadResult.bytes : ReadResult → Bytes
  | .failed => []
  | .data waiting => waiting.take bufSize

/-- The `int r` of the call. -/
def ReadResult.r : ReadResult → Int
  | .failed => -1
  | .data waiting => (waiting.take bufSize).length

/-- An access outside of what it is meant for. -/
inductive Stray
  /-- `buf[sizeof(buf)] = '\0'`. -/
  | terminator
  /-- `tmp[tmp.size() - 1]` of an empty string. -/
  | emptyBack
  deriving Repr, DecidableEq

/-- The string without the line ends it ends in. -/
def trimEols (tmp : Bytes) : Bytes := (tmp.reverse.dropWhile Socket.isEol).reverse

theorem length_trimEols_le (bytes : Bytes) : (trimEols bytes).length ≤ bytes.length := by
  rw [trimEols, List.length_reverse]
  exact Nat.le_trans (List.dropWhile_sublist _).length_le (Nat.le_of_eq List.length_reverse)

/-- `buf[r] = '\0'; std::string tmp(buf);` and the trimming loop: the text, and what was missed. -/
def readText (bytes : Bytes) : Bytes × List Stray :=
  let tmp := trimEols (cString bytes)
  (tmp, (if bytes.length = bufSize then [.terminator] else []) ++
    (if tmp = [] then [.emptyBack] else []))

end Technopark
