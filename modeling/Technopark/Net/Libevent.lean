/-
`net/libevent/main.cpp`: the echo callback of the libevent server.

libevent keeps an input and an output buffer for every connection, appends what arrives to
the input and then calls `echo_read_cb`.  The callback takes one line off the input with
`evbuffer_readln` and writes the answer to the output.

`evbuffer_readln` belongs to libevent and is a parameter: from the contents of the buffer
it gives the line and what stays in the buffer, or nothing.
-/
import Technopark.Net.Receive

namespace Technopark

namespace Libevent

/-- `evbuffer_readln(buf, &len, EVBUFFER_EOL_CRLF)`: the line, and what is left in `buf`. -/
abbrev Readln := Bytes → Option (Bytes × Bytes)

/-- A `struct bufferevent`. -/
structure Bufferevent where
  input : Bytes
  output : Bytes
  deriving Repr, DecidableEq

/-- A connection that was just accepted. -/
def accepted : Bufferevent := { input := [], output := [] }

/-- `"\r\n"`. -/
def crlf : Bytes := [13, 10]

/-- `echo_read_cb`. -/
def echoReadCb (readln : Readln) (bufEv : Bufferevent) : Bufferevent :=
  match readln bufEv.input with
  | none => bufEv
  | some (requestLine, rest) =>
      { input := rest, output := bufEv.output ++ (echo ++ cString requestLine ++ crlf) }

/-- A chunk arrives and the callback is called. -/
def receive (readln : Readln) (bufEv : Bufferevent) (chunk : Bytes) : Bufferevent :=
  echoReadCb readln { bufEv with input := bufEv.input ++ chunk }

/-- The connection after all chunks have arrived. -/
def received (readln : Readln) (chunks : List Bytes) : Bufferevent :=
  chunks.foldl (receive readln) accepted

end Libevent

end Technopark
