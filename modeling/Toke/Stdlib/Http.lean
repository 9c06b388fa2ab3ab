/-
  Toke.Stdlib.Http — **THE HTTP/1.1 CONNECTION** (`handle_connection` of `http.c`).

  One buffer per request.  The loop reads until the buffer holds a blank line,
  decides from the buffer how the body is framed, reads the rest of a body of
  known length into the same buffer and parses the request from it.  A chunked
  body is read from the socket instead.  The buffer is cleared before the next
  request: bytes read beyond a request are not kept.
-/
import Toke.Library.Streaming
import Toke.Library.Searching
import Toke.Stdlib.Encoding
import Toke.Stdlib.Number

namespace Toke.Stdlib.Http

open Streaming Searching

/-! ## §1. Texts. -/

/-- A line end. -/
def crlf : List UInt8 := [13, 10]

/-- The end of a head. -/
def blankLine : List UInt8 := [13, 10, 13, 10]

/-- Without the blanks in front. -/
def skipBlanks (s : List UInt8) : List UInt8 := s.dropWhile (· = 32)

/-- What stands before and behind the first occurrence of a pattern. -/
def cutFirst (pat s : List UInt8) : Option (List UInt8 × List UInt8) :=
  (afterFirst pat s).map fun r => (s.take (s.length - r.length - pat.length), r)

/-! ## §2. Framing. -/

/-- The length of the head: everything up to the first blank line. -/
def headLength (raw : List UInt8) : Option Nat :=
  (afterFirst blankLine (cstr raw)).map fun r => (cstr raw).length - r.length

/-- What follows the first line that begins with `name`.  The scan does not
stop at the blank line: it runs over everything in the buffer. -/
def findField (name : List UInt8) : Nat → List UInt8 → Option (List UInt8)
  | 0, _ => none
  | fuel + 1, p =>
    if startsNoCase name p then some (p.drop name.length)
    else
      match afterFirst crlf p with
      | some q => findField name fuel q
      | none => none

/-- How the body is delimited. -/
inductive Framing where
  | both
  | chunked
  | sized (length : Int64)
  | plain
  deriving DecidableEq

/-- Phases 2 and 2b: `Content-Length` and `Transfer-Encoding` in the buffer. -/
def framing (s : List UInt8) : Framing :=
  let isChunked := (findField (ascii "Transfer-Encoding:") (s.length + 1) s).any
    fun v => startsNoCase (ascii "chunked") (skipBlanks v)
  match findField (ascii "Content-Length:") (s.length + 1) s with
  | some v => if isChunked then .both else .sized ((strtoll v).getD 0)
  | none => if isChunked then .chunked else .plain

/-! ## §3. The request. -/

/-- `Req`; the fields a request without a request line leaves `NULL` are optional. -/
structure Req where
  method : Option (List UInt8)
  path : Option (List UInt8)
  headers : List (List UInt8 × List UInt8)
  body : Option (List UInt8)
  deriving DecidableEq

/-- The lines up to the first empty one. -/
def headerLines : Nat → List UInt8 → List (List UInt8)
  | 0, _ => []
  | fuel + 1, p =>
    match cutFirst crlf p with
    | none => []
    | some (line, rest) => if line = [] then [] else line :: headerLines fuel rest

/-- A header line at its first colon; one blank behind the colon is dropped. -/
def parseHeader (line : List UInt8) : Option (List UInt8 × List UInt8) :=
  (cutFirst [58] line).map fun (key, val) => (key, if val.head? = some 32 then val.tail else val)

/-- `HTTP_MAX_REQ_HEADERS`. -/
def maxReqHeaders : Nat := 64

/-- `parse_request`. -/
def parseRequest (s : List UInt8) : Req :=
  match cutFirst crlf s with
  | none => ⟨none, none, [], none⟩
  | some (line, rest) =>
    match cutFirst [32] line with
    | none => ⟨none, none, [], none⟩
    | some (method, target) =>
      { method := some method
        path := some (target.takeWhile (· ≠ 32))
        headers := ((headerLines (rest.length + 1) rest).filterMap parseHeader).take maxReqHeaders
        body := some ((afterFirst blankLine s).getD []) }

/-- `req_wants_close`: the first `Connection` header decides. -/
def reqWantsClose (s : List UInt8) : Bool :=
  match afterFirst crlf s with
  | none => false
  | some rest =>
    match (headerLines (rest.length + 1) rest).find? (startsNoCase (ascii "Connection:")) with
    | some line => startsNoCase (ascii "close") (skipBlanks (line.drop 11))
    | none => false

/-- The value of a header. -/
def Req.header (req : Req) (name : List UInt8) : Option (List UInt8) :=
  (req.headers.find? fun h => sameNoCase h.1 name).map Prod.snd

/-! ## §4. The chunked body. -/

/-- The limits and the parts of the configuration the loop reads. -/
structure Config where
  maxHeader : Nat
  maxBody : Nat
  /-- The server is built with OpenSSL, which has the upgrade to HTTP/2. -/
  openssl : Bool
  /-- `cors_match_origin` finds the origin. -/
  corsMatches : List UInt8 → Bool

/-- The size line of a chunk, byte by byte, without its line end. -/
def readLine : Nat → List UInt8 → Feed UInt8 → Option (List UInt8) × Feed UInt8
  | 0, _, f => (none, f)
  | fuel + 1, line, f =>
    let (b, f) := f.recv 1
    if b.isEmpty then (none, f)
    else if crlf <:+ line ++ b then (some ((line ++ b).take ((line ++ b).length - 2)), f)
    else readLine fuel (line ++ b) f

/-- The value of a hex digit. -/
def hexValue (c : UInt8) : Option Nat :=
  if 48 ≤ c && c ≤ 57 then some (c.toNat - 48)
  else if 97 ≤ c && c ≤ 102 then some (c.toNat - 97 + 10)
  else if 65 ≤ c && c ≤ 70 then some (c.toNat - 65 + 10)
  else none

/-- The size of a chunk; a size that would not fit a `size_t` is refused. -/
def chunkSize (line : List UInt8) : Option Nat :=
  ((cstr line).takeWhile (· ≠ 59)).foldlM
    (fun csz c => do
      let nibble ← hexValue c
      if csz > (2 ^ 64 - 1 - 15) / 16 then none else some (csz * 16 + nibble)) 0

/-- The loop of `http_chunked_read`; every chunk takes at least its size line. -/
def chunkLoop (maxBody : Nat) : Nat → List UInt8 → Feed UInt8 → Option (List UInt8) × Feed UInt8
  | 0, _, f => (none, f)
  | fuel + 1, body, f =>
    match readLine 127 [] f with
    | (none, f) => (none, f)
    | (some line, f) =>
      match chunkSize line with
      | none => (none, f)
      | some 0 => (some body, (f.recv 2).2)
      | some csz =>
        if csz > maxBody ∨ body.length + csz > maxBody then (none, f)
        else
          match fill (fun buf => csz - buf.length) csz [] f with
          | (none, f) => (none, f)
          | (some data, f) =>
            -- a line end that comes in two packets fails the request body
            let (tail, f) := f.recv 2
            if tail.length < 2 then (none, f) else chunkLoop maxBody fuel (body ++ data) f

/-- `http_chunked_read`. -/
def httpChunkedRead (cfg : Config) (f : Feed UInt8) : Option (List UInt8) × Feed UInt8 :=
  chunkLoop cfg.maxBody (f.rest.length + 1) [] f

/-! ## §5. The connection. -/

/-- Phase 1 asks for the rest of the header limit until the head is complete. -/
def headWant (cfg : Config) (buf : List UInt8) : Nat :=
  if (headLength buf).isSome then 0 else cfg.maxHeader - buf.length

/-- Phase 3 asks for the rest of the body, as far as the buffer goes. -/
def bodyWant (cfg : Config) (total : Nat) (buf : List UInt8) : Nat :=
  min (total - buf.length) (cfg.maxHeader + cfg.maxBody + 8 - buf.length - 1)

/-- The number of a body length that is within the limit. -/
def bodyLength (cfg : Config) (cl : Int64) : Option Nat :=
  if cl.toInt < 0 ∨ cl.toInt > cfg.maxBody then none else some cl.toInt.toNat

/-- The buffer of a request, whether a chunked body follows, and what is
still to come.  A failure is the status of the error response, `none` when the
connection is closed without one. -/
abbrev Received := Except (Option Nat) (List UInt8 × Bool × Feed UInt8)

/-- Phases 2 and 3, with a complete head in the buffer. -/
def receiveBody (cfg : Config) (hlen : Nat) (raw : List UInt8) (f : Feed UInt8) : Received :=
  match framing (cstr raw) with
  | .both => .error (some 400)
  | .chunked => .ok (raw, true, f)
  | .plain => .ok (raw, false, f)
  | .sized cl =>
    match bodyLength cfg cl with
    | none => .error (some 413)
    | some n =>
      match fill (bodyWant cfg (hlen + n)) n raw f with
      | (none, _) => .error none
      | (some raw, f) => .ok (raw, false, f)

/-- Phases 1 to 3. -/
def receive (cfg : Config) (f : Feed UInt8) : Received :=
  match fill (headWant cfg) cfg.maxHeader [] f with
  | (none, _) => .error none
  | (some raw, f) =>
    match headLength raw with
    | none => .error (some 431)
    | some hlen => receiveBody cfg hlen raw f

/-- What becomes of a request or of a failed attempt to read one. -/
inductive Exchange where
  | route (req : Req)
  | preflight (req : Req)
  | notAllowed (req : Req)
  | error (status : Nat)
  deriving DecidableEq

/-- The methods that reach the router. -/
def routedMethods : List (List UInt8) :=
  ["GET", "POST", "PUT", "DELETE", "PATCH", "OPTIONS", "HEAD"].map ascii

/-- A preflight and an unknown method are answered before the router. -/
def dispatch (cfg : Config) (req : Req) : Exchange :=
  if req.method = some (ascii "OPTIONS") ∧ (req.header (ascii "Origin")).any cfg.corsMatches then
    .preflight req
  else if req.method.any (· ∉ routedMethods) then .notAllowed req
  else .route req

/-- The h2c upgrade leaves HTTP/1.1. -/
def upgrades (cfg : Config) (req : Req) : Bool :=
  cfg.openssl && (req.header (ascii "Upgrade")).any fun v => sameNoCase v (ascii "h2c")

/-- Phase 4: a chunked body replaces the parsed one if it could be read. -/
def withBody (cfg : Config) (chunked : Bool) (req : Req) (f : Feed UInt8) : Req × Feed UInt8 :=
  if chunked then
    match httpChunkedRead cfg f with
    | (some decoded, f) => ({ req with body := some (cstr decoded) }, f)
    | (none, f) => (req, f)
  else (req, f)

/-- The loop over the requests of a connection, at most `fuel` more of them. -/
def serve (cfg : Config) : Nat → Feed UInt8 → List Exchange
  | 0, _ => []
  | fuel + 1, f =>
    match receive cfg f with
    | .error none => []
    | .error (some status) => [.error status]
    | .ok (raw, chunked, f) =>
      let req := parseRequest (cstr raw)
      if upgrades cfg req then []
      else
        let (req, f) := withBody cfg chunked req f
        dispatch cfg req :: (if reqWantsClose (cstr raw) then [] else serve cfg fuel f)

/-- The requests of one connection. -/
def keepaliveMaxRequests : Nat := 1000

/-- `handle_connection`. -/
def handleConnection (cfg : Config) (f : Feed UInt8) : List Exchange :=
  serve cfg keepaliveMaxRequests f

/-- The requests the router gets. -/
def routedRequests (cfg : Config) (f : Feed UInt8) : List Req :=
  (handleConnection cfg f).filterMap fun
    | .route req => some req
    | _ => none

end Toke.Stdlib.Http
