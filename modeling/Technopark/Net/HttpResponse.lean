/-
`net/asio/main.cpp`: what `sync_http_full` makes of the response.

`Net/Http.lean` has the function up to the request.  The response is read from the same
stream with the operations of `std::istream`: a word, a number and the rest of a line, then
line after line, and in the end everything that is left.  That the stream breaks off early, as
it does when the time is over, is a shorter response.

What is printed is given by its parts.  The number that is not initialised before it is read
is 0 here; it is not used if reading it fails.
-/
import Technopark.Lib.Istream
import Technopark.Net.Http

namespace Technopark.Http

/-- What `sync_http_full` prints. -/
inductive Printed
  /-- `"Exception: " << e.what()`. -/
  | exception (what : String)
  /-- `"Unable to connect: " << s.error().message()`. -/
  | unableToConnect (message : String)
  /-- `"Invalid response\n"`. -/
  | invalidResponse
  /-- `"Response returned with status code " << status_code`. -/
  | statusCode (code : Nat)
  /-- The headers, an empty line and the rest. -/
  | page (bytes : Bytes)
  deriving Repr, DecidableEq

/-- `while (std::getline(s, header) && header != "\r") std::cout << header << "\n"`. -/
def printHeaders : Nat → Bytes → Istream → Except Fault (Bytes × Istream)
  | 0, _, _ => .error .outOfFuel
  | fuel + 1, header, s =>
      let (header, s) := s.getline header
      if s.fail = false ∧ header ≠ text "\r" then do
        let (printed, s) ← printHeaders fuel header s
        return (header ++ 10 :: printed, s)
      else
        .ok ([], s)

/-- The headers and what is left in the stream behind them. -/
def printPage (s : Istream) : Except Fault Printed := do
  let (headers, s) ← printHeaders (s.rest.length + 1) [] s
  return .page (headers ++ 10 :: s.rest)

/-- `sync_http_full` from the response on. -/
def printResponse (response : Bytes) : Except Fault Printed :=
  let (httpVersion, s) := Istream.word [] { rest := response }
  let (statusCode, s) := Istream.number 0 s
  let (_, s) := Istream.getline [] s
  if s.fail ∨ httpVersion.take 5 ≠ text "HTTP/" then .ok .invalidResponse
  else if statusCode ≠ 200 then .ok (.statusCode statusCode)
  else printPage s

/-- The other side: why a host cannot be connected to, and what is answered to a request. -/
structure Host where
  connectError : Bytes → Option String
  respond : Bytes → Bytes

/-- `sync_http_full(url)`. -/
def syncHttp (host : Host) (url : Bytes) : Except Fault Printed :=
  match syncHttpFull url with
  | .ok q =>
      match host.connectError q.connect with
      | some message => .ok (.unableToConnect message)
      | none => printResponse (host.respond q.request)
  | .error (.runtimeError what) => .ok (.exception what)
  | .error e => .error e

end Technopark.Http
