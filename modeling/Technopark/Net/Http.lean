/-
The HTTP texts: `parse_protocol` of `net/common/socket.cpp`, `make_query` of
`net/http_client/http_client.cpp`, and the copy of it in `net/asio/main.cpp`.

Positions are `size_t` and are computed with as in the source, `npos` included: the count
given to `substr` is a position in `parse_protocol` and a difference that may wrap in
`make_query`.  Running out of memory for a string is not modelled.
-/
import Technopark.Lib.StdString
import Technopark.Net.Receive

namespace Technopark.Http

/-! ### `parse_protocol` -/

/-- `"\r\n"`. -/
def crlf : Bytes := text "\r\n"

/-- `"\r\n\r\n"`. -/
def headerEnd : Bytes := text "\r\n\r\n"

/-- `"Content-Length: "`. -/
def fieldName : Bytes := text "Content-Length: "

/-- `parse_protocol(buf, bytes_left)`, called on `bytes_left`. -/
def parseProtocol (buf : Bytes) : Call Nat Bool := do
  let hdrEndPos := find buf headerEnd 0
  if hdrEndPos = npos then
    return false
  let body ← Call.ofExcept (substr buf (sizeT (hdrEndPos + 4)) npos)
  let pos := find buf fieldName 0
  if pos = npos then
    throw (.runtimeError "http broken")
  let lengthPos := sizeT (pos + fieldName.length)
  let field ← Call.ofExcept (substr buf lengthPos (find buf crlf lengthPos))
  let contentLength := sizeTOfInt (← Call.ofExcept (stoi field))
  set (sizeTSub contentLength body.length)
  return true

/-! ### `make_query` -/

/-- A `HttpQuery` object. -/
structure HttpQuery where
  query : Bytes
  host : Bytes
  deriving Repr, DecidableEq

/-- `make_query(response)`. -/
def makeQuery (response : Bytes) : Except Fault HttpQuery := do
  let pos := find response (text "//") 0
  if pos = npos then
    throw (.runtimeError "bad query")
  let host ← substr response (sizeT (pos + 2))
    (sizeTSub (sizeTSub (find response (text "/") (sizeT (pos + 2))) pos) 2)
  if host = [] then
    throw (.runtimeError "bad query")
  let query := text "GET " ++ response ++ text " HTTP/1.1\r\n"
  let query := query ++ (text "Host: " ++ host ++ text "\r\n")
  let query := query ++ text "\r\n"
  return { query, host }

/-- What `sync_http_full` connects to and sends; both go through `c_str()`. -/
structure SyncRequest where
  host : Bytes
  connect : Bytes
  request : Bytes
  deriving Repr, DecidableEq

/-- `sync_http_full(url)` up to the request. -/
def syncHttpFull (url : Bytes) : Except Fault SyncRequest := do
  let pos := find url (text "//") 0
  if pos = npos then
    throw (.runtimeError "bad query")
  let host ← substr url (sizeT (pos + 2))
    (sizeTSub (sizeTSub (find url (text "/") (sizeT (pos + 2))) pos) 2)
  if host = [] then
    throw (.runtimeError "bad query")
  return {
    host
    connect := cString host
    request := text "GET " ++ cString url ++ text " HTTP/1.0\r\n"
      ++ text "Host: " ++ cString host ++ text "\r\n"
      ++ text "Accept: */*\r\n" ++ text "Connection: close\r\n\r\n" }

end Technopark.Http
