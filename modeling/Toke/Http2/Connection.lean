/-
  Toke.Http2.Connection
  **THE HTTP/2 CONNECTION** (`handle_h2_connection` of `http.c` over the frames
  and settings of `http2.c`).

  One frame is received, handled and answered before the next.  A request is
  answered as soon as its header block is complete, with a HEADERS frame and as
  many DATA frames as the body needs.  The handlers that compute responses are
  not part of the model: a response comes with the frame that completes the
  request.
-/
import Toke.Http2.Hpack

namespace Toke.Http2

open Stdlib (CString)

/-! ## §1. Frames and settings. -/

/-- The types of frames. -/
inductive FrameType where
  | data | headers | priority | rstStream | settings | pushPromise | ping | goaway
  | windowUpdate | continuation | unknown
deriving DecidableEq

/-- A frame as it is received or sent. -/
structure Frame where
  type : FrameType
  flags : UInt8
  streamId : Nat
  payload : List UInt8
deriving DecidableEq

/-- `H2_FLAG_END_STREAM`. -/
def flagEndStream : UInt8 := 0x01
/-- `H2_FLAG_END_HEADERS`. -/
def flagEndHeaders : UInt8 := 0x04
/-- `H2_FLAG_PADDED`. -/
def flagPadded : UInt8 := 0x08
/-- `H2_FLAG_PRIORITY`. -/
def flagPriority : UInt8 := 0x20
/-- On SETTINGS and PING only. -/
def flagAck : UInt8 := 0x01

/-- A flag is set. -/
def Frame.has (f : Frame) (flag : UInt8) : Bool := f.flags &&& flag ≠ 0

/-- The length of the payload. -/
def Frame.length (f : Frame) : Nat := f.payload.length

/-- The error codes that are sent. -/
inductive ErrorCode where
  | protocol | frameSize | refusedStream | compression | enhanceYourCalm
deriving DecidableEq

/-- Their numbers. -/
def ErrorCode.toNat : ErrorCode → Nat
  | protocol => 0x01
  | frameSize => 0x06
  | refusedStream => 0x07
  | compression => 0x09
  | enhanceYourCalm => 0x0b

/-- Four bytes, the high one first. -/
def be32 (n : Nat) : List UInt8 :=
  [UInt8.ofNat (n / 2 ^ 24), UInt8.ofNat (n / 2 ^ 16), UInt8.ofNat (n / 2 ^ 8), UInt8.ofNat n]

/-- The number of four bytes. -/
def ofBe32 (a b c d : UInt8) : Nat :=
  a.toNat * 2 ^ 24 + b.toNat * 2 ^ 16 + c.toNat * 2 ^ 8 + d.toNat

/-- `H2Settings`. -/
structure H2Settings where
  headerTableSize : Nat
  enablePush : Nat
  maxConcurrentStreams : Nat
  initialWindowSize : Nat
  maxFrameSize : Nat
  maxHeaderListSize : Nat

/-- `h2_settings_default`. -/
def h2SettingsDefault : H2Settings := ⟨4096, 0, 128, 65535, 16384, 65536⟩

/-- `H2_MAX_WINDOW_SIZE`. -/
def maxWindowSize : Nat := 2 ^ 31 - 1

/-- `H2_MAX_FRAME_SIZE_LIMIT`. -/
def maxFrameSizeLimit : Nat := 2 ^ 24 - 1

/-- `H2_MAX_STREAMS`: the slots of one connection. -/
def maxStreams : Nat := 256

/-- `H2_MAX_STREAMS_TOTAL`: the HEADERS frames of one connection. -/
def maxStreamsTotal : Nat := 1000

/-! ## §2. The connection. -/

/-- `H2StreamState`. -/
inductive H2StreamState where
  | idle | opened | halfClosedLocal | halfClosedRemote | closed
deriving DecidableEq

/-- `H2Stream`. -/
structure H2Stream where
  id : Nat
  state : H2StreamState
  window : Int
  headerBlock : Option (List UInt8)

/-- The connection, with the count of HEADERS frames its handler keeps. -/
structure H2Conn where
  peerSettings : H2Settings
  connWindowRecv : Int
  connWindowSend : Int
  streams : List H2Stream
  lastStreamId : Nat
  goawaySent : Bool
  decoder : HpackTable
  encoder : HpackTable
  totalStreams : Nat

/-- `h2_conn_new`. -/
def h2ConnNew : H2Conn where
  peerSettings := h2SettingsDefault
  connWindowRecv := 65535
  connWindowSend := 65535
  streams := []
  lastStreamId := 0
  goawaySent := false
  decoder := hpackTableInit 4096
  encoder := hpackTableInit 4096
  totalStreams := 0

/-- What a handler answered: the response without its framing. -/
structure Response where
  status : Nat
  contentType : CString
  body : CString

/-- A received frame, with the response to the request it completes, if it
completes one. -/
structure Event where
  frame : Frame
  response : Response

/-- The connection with its past: what was sent, and every value stored in a
window.  A window is an `int32_t`; the value recorded is the exact
one, which the C arithmetic only has while it is in range. -/
structure Server where
  conn : H2Conn
  sent : List Frame
  stored : List Int

namespace Server

/-- One frame is sent. -/
def emit (s : Server) (f : Frame) : Server := { s with sent := s.sent ++ [f] }

/-- Some frames are sent. -/
def emitAll (s : Server) (fs : List Frame) : Server := { s with sent := s.sent ++ fs }

/-- A change of the connection that stores `values` in its windows. -/
def put (s : Server) (conn : H2Conn) (values : List Int) : Server :=
  { s with conn := conn, stored := s.stored ++ values }

end Server

/-- `h2_send_goaway`. -/
def h2SendGoaway (s : Server) (code : ErrorCode) : Server :=
  { s with conn := { s.conn with goawaySent := true } }.emit
    ⟨.goaway, 0, 0, be32 s.conn.lastStreamId ++ be32 code.toNat⟩

/-- `h2_send_rst_stream`. -/
def h2SendRstStream (s : Server) (streamId : Nat) (code : ErrorCode) : Server :=
  s.emit ⟨.rstStream, 0, streamId, be32 code.toNat⟩

/-- `h2_send_window_update`. -/
def h2SendWindowUpdate (s : Server) (streamId increment : Nat) : Server :=
  if increment = 0 ∨ maxWindowSize < increment then s
  else s.emit ⟨.windowUpdate, 0, streamId, be32 increment⟩

/-- The slot of a stream, which is created if there is room. -/
def h2StreamGet (s : Server) (streamId : Nat) : Server × Option H2Stream :=
  match s.conn.streams.find? (·.id = streamId) with
  | some x => (s, some x)
  | none =>
    if maxStreams ≤ s.conn.streams.length then (s, none)
    else
      let x : H2Stream := ⟨streamId, .idle, s.conn.peerSettings.initialWindowSize, none⟩
      (s.put { s.conn with
          streams := s.conn.streams ++ [x]
          lastStreamId := max s.conn.lastStreamId streamId } [x.window],
        some x)

/-- A change of the first slot with an id. -/
def updateFirst (streamId : Nat) (f : H2Stream → H2Stream) : List H2Stream → List H2Stream
  | [] => []
  | x :: xs => if x.id = streamId then f x :: xs else x :: updateFirst streamId f xs

/-- A change of a slot that leaves its window alone. -/
def Server.touch (s : Server) (streamId : Nat) (f : H2Stream → H2Stream) : Server :=
  { s with conn := { s.conn with streams := updateFirst streamId f s.conn.streams } }

/-- A new value in the window of a slot. -/
def Server.setWindow (s : Server) (x : H2Stream) (window : Int) : Server :=
  s.put { s.conn with
    streams := updateFirst x.id (fun x => { x with window := window }) s.conn.streams } [window]

/-- `h2_stream_transition` for a received frame; an invalid one changes
nothing, and no caller looks at the result. -/
def h2StreamTransition (x : H2Stream) (type : FrameType) (endStream : Bool) : H2Stream :=
  match x.state with
  | .idle =>
    if type = .headers then
      { x with state := if endStream then .halfClosedRemote else .opened }
    else x
  | .opened =>
    if type = .rstStream then { x with state := .closed }
    else if endStream then { x with state := .halfClosedRemote }
    else x
  | .halfClosedLocal => if endStream then { x with state := .closed } else x
  | .halfClosedRemote => if type = .rstStream then { x with state := .closed } else x
  | .closed => x

/-! ## §3. Settings. -/

/-- A new initial window size moves the window of every stream by the change. -/
def Server.announce (s : Server) (value : Nat) : Server :=
  let delta : Int := value - s.conn.peerSettings.initialWindowSize
  let streams := s.conn.streams.map fun x => { x with window := x.window + delta }
  s.put { s.conn with
    streams := streams
    peerSettings := { s.conn.peerSettings with initialWindowSize := value } }
    (streams.map (·.window))

/-- New settings of the peer. -/
def Server.setPeer (s : Server) (settings : H2Settings) : Server :=
  { s with conn := { s.conn with peerSettings := settings } }

/-- One setting; `false` is an error. -/
def applySetting (s : Server) (id value : Nat) : Server × Bool :=
  let peer := s.conn.peerSettings
  match id with
  | 1 =>
    let s := s.setPeer { peer with headerTableSize := value }
    ({ s with conn := { s.conn with encoder := hpackTableResize s.conn.encoder value } }, true)
  | 2 => if 1 < value then (s, false) else (s.setPeer { peer with enablePush := value }, true)
  | 3 => (s.setPeer { peer with maxConcurrentStreams := value }, true)
  | 4 => if maxWindowSize < value then (s, false) else (s.announce value, true)
  | 5 =>
    if value < 16384 ∨ maxFrameSizeLimit < value then (s, false)
    else (s.setPeer { peer with maxFrameSize := value }, true)
  | 6 => (s.setPeer { peer with maxHeaderListSize := value }, true)
  | _ => (s, true)

/-- The settings of a payload in order, up to the first error. -/
def applySettingsLoop (s : Server) : List UInt8 → Server × Bool
  | i₀ :: i₁ :: a :: b :: c :: d :: rest =>
    match applySetting s (i₀.toNat * 256 + i₁.toNat) (ofBe32 a b c d) with
    | (s, true) => applySettingsLoop s rest
    | (s, false) => (s, false)
  | _ => (s, true)

/-- `h2_apply_settings`. -/
def h2ApplySettings (s : Server) (payload : List UInt8) : Server × Bool :=
  if payload.length % 6 ≠ 0 then (s, false) else applySettingsLoop s payload

/-! ## §4. The response. -/

/-- The DATA frames of a body, and whether the loop over it ends.  The length
of a frame is what is left, as a `uint32_t`, but at most `maxData`; where that
is 0, the loop sends empty frames for ever. -/
def sendBody (streamId maxData : Nat) : Nat → List UInt8 → List Frame × Bool
  | _, [] => ([], true)
  | 0, _ :: _ => ([], false)
  | fuel + 1, b :: bs =>
    let rest := b :: bs
    let chunk := min (rest.length % 2 ^ 32) maxData
    if chunk = 0 then ([], false)
    else
      let next := sendBody streamId maxData fuel (rest.drop chunk)
      (⟨.data, if rest.length ≤ chunk then flagEndStream else 0, streamId, rest.take chunk⟩
        :: next.1, next.2)

/-- The response headers: the status is cut to three characters. -/
def responseHeaders (r : Response) : List HpackEntry :=
  [⟨.ofText ":status", .ofText (String.ofList ((toString r.status).toList.take 3))⟩,
   ⟨.ofText "content-length", .ofText (toString r.body.length)⟩,
   ⟨.ofText "content-type", r.contentType⟩]

/-- What a frame leads to: the next frame, the end of the connection, or a loop
that does not end. -/
inductive Outcome where
  | next | done | stuck
deriving DecidableEq

/-- The HEADERS frame of a response; a failed encoding sends none. -/
def sendHead (s : Server) (streamId : Nat) (r : Response) : Server :=
  let encoded := hpackEncode s.conn.encoder (responseHeaders r) 4096
  let s := { s with conn := { s.conn with encoder := encoded.table } }
  let flags := if r.body.length = 0 then flagEndHeaders ||| flagEndStream else flagEndHeaders
  if 0 < encoded.ret then s.emit ⟨.headers, flags, streamId, encoded.out⟩ else s

/-- A response is sent. -/
def respond (s : Server) (streamId : Nat) (r : Response) : Server × Outcome :=
  let s := sendHead s streamId r
  let body := sendBody streamId s.conn.peerSettings.maxFrameSize r.body.length r.body.bytes
  (s.emitAll body.1, if body.2 then .next else .stuck)

/-! ## §5. The frames. -/

/-- A GOAWAY ends the connection. -/
def refuse (s : Server) (code : ErrorCode) : Server × Outcome := (h2SendGoaway s code, .done)

/-- The header block of a HEADERS frame without padding and priority. -/
def headerFragment (f : Frame) : Option (List UInt8) :=
  (if f.has flagPadded then
    match f.payload with
    | [] => none
    | pad :: block =>
      if block.length ≤ pad.toNat then none else some (block.take (block.length - pad.toNat))
   else some f.payload).bind fun block =>
  if f.has flagPriority then
    if block.length < 5 then none else some (block.drop 5)
  else some block

/-- A HEADERS frame. -/
def handleHeaders (s : Server) (e : Event) : Server × Outcome :=
  let f := e.frame
  if f.streamId = 0 then refuse s .protocol
  else
    let s := { s with conn := { s.conn with totalStreams := s.conn.totalStreams + 1 } }
    if maxStreamsTotal < s.conn.totalStreams then refuse s .enhanceYourCalm
    else
      match h2StreamGet s f.streamId with
      | (s, none) => refuse s .refusedStream
      | (s, some x) =>
        let s := s.touch f.streamId fun x => h2StreamTransition x .headers (f.has flagEndStream)
        match headerFragment f with
        | none => (s, .done)
        | some fragment =>
          let block := x.headerBlock.getD [] ++ fragment
          if f.has flagEndHeaders then
            let decoded := hpackDecode s.conn.decoder block
            let s := { s with conn := { s.conn with decoder := decoded.1 } }
            let s := s.touch f.streamId fun x => { x with headerBlock := none }
            match decoded.2 with
            | none => (h2SendRstStream s f.streamId .compression, .next)
            | some _ => respond s f.streamId e.response
          else (s.touch f.streamId fun x => { x with headerBlock := some block }, .next)

/-- A header block that goes on is collected, and never answered. -/
def handleContinuation (s : Server) (f : Frame) : Server × Outcome :=
  if f.streamId = 0 then refuse s .protocol
  else
    match h2StreamGet s f.streamId with
    | (s, none) => refuse s .protocol
    | (s, some x) =>
      match x.headerBlock with
      | none => refuse s .protocol
      | some block =>
        (s.touch f.streamId fun x => { x with headerBlock := some (block ++ f.payload) }, .next)

/-- Received data lowers the receive window of the connection, and the window of
the stream, which is the one for sending. -/
def handleData (s : Server) (f : Frame) : Server × Outcome :=
  if f.streamId = 0 then refuse s .protocol
  else
    let window := s.conn.connWindowRecv - f.length
    let s := s.put { s.conn with connWindowRecv := window } [window]
    let s := match h2StreamGet s f.streamId with
      | (s, none) => s
      | (s, some x) =>
        (s.setWindow x (x.window - f.length)).touch f.streamId fun x =>
          h2StreamTransition x .data (f.has flagEndStream)
    (h2SendWindowUpdate (h2SendWindowUpdate s 0 f.length) f.streamId f.length, .next)

/-- A PING frame. -/
def handlePing (s : Server) (f : Frame) : Server × Outcome :=
  if f.streamId ≠ 0 ∨ f.length ≠ 8 then refuse s .protocol
  else if f.has flagAck then (s, .next)
  else (s.emit ⟨.ping, flagAck, 0, f.payload⟩, .next)

/-- The increment of a WINDOW_UPDATE: its payload without the reserved bit. -/
def incrementOf (payload : List UInt8) : Nat :=
  match payload with
  | [a, b, c, d] => ofBe32 a b c d % 2 ^ 31
  | _ => 0

/-- A WINDOW_UPDATE frame. -/
def handleWindowUpdate (s : Server) (f : Frame) : Server × Outcome :=
  if f.length ≠ 4 then refuse s .frameSize
  else
    let increment := incrementOf f.payload
    if increment = 0 then
      if f.streamId = 0 then (h2SendGoaway s .protocol, .next)
      else (h2SendRstStream s f.streamId .protocol, .next)
    else if f.streamId = 0 then
      let window := s.conn.connWindowSend + increment
      (s.put { s.conn with connWindowSend := window } [window], .next)
    else
      match h2StreamGet s f.streamId with
      | (s, none) => (s, .next)
      | (s, some x) => (s.setWindow x (x.window + increment), .next)

/-- A RST_STREAM frame. -/
def handleRstStream (s : Server) (f : Frame) : Server × Outcome :=
  if f.streamId = 0 ∨ f.length ≠ 4 then refuse s .protocol
  else
    match h2StreamGet s f.streamId with
    | (s, none) => (s, .next)
    | (s, some _) => (s.touch f.streamId fun x => { x with state := .closed }, .next)

/-- A SETTINGS frame. -/
def handleSettings (s : Server) (f : Frame) : Server × Outcome :=
  if f.has flagAck then (s, .next)
  else if f.streamId ≠ 0 then refuse s .protocol
  else
    match h2ApplySettings s f.payload with
    | (s, false) => refuse s .protocol
    | (s, true) => (s.emit ⟨.settings, flagAck, 0, []⟩, .next)

/-- The `switch` over the type of a frame. -/
def handleFrame (s : Server) (e : Event) : Server × Outcome :=
  match e.frame.type with
  | .settings => handleSettings s e.frame
  | .headers => handleHeaders s e
  | .continuation => handleContinuation s e.frame
  | .data => handleData s e.frame
  | .ping => handlePing s e.frame
  | .windowUpdate => handleWindowUpdate s e.frame
  | .rstStream => handleRstStream s e.frame
  | .goaway => (s, .done)
  | .pushPromise => refuse s .protocol
  | .priority => (s, .next)
  | .unknown => (s, .next)

/-! ## §6. The run. -/

/-- One turn of the frame loop.  A frame that is too long for the peer's own
limit is answered twice. -/
def turn (s : Server) (e : Event) : Server × Outcome :=
  let s := if s.conn.peerSettings.maxFrameSize < e.frame.length then h2SendGoaway s .frameSize else s
  if h2SettingsDefault.maxFrameSize < e.frame.length then refuse s .frameSize
  else
    match handleFrame s e with
    | (s, .next) => (s, if s.conn.goawaySent then .done else .next)
    | stop => stop

/-- A connection at work: the frames received, and what the last one led to. -/
structure Run where
  server : Server
  outcome : Outcome
  received : List Event

/-- Behind the end of the connection nothing is received. -/
def Run.receive (r : Run) (e : Event) : Run :=
  if r.outcome = .next then
    ⟨(turn r.server e).1, (turn r.server e).2, r.received ++ [e]⟩
  else r

/-- A whole run. -/
def serve (es : List Event) : Run := es.foldl Run.receive ⟨⟨h2ConnNew, [], []⟩, .next, []⟩

end Toke.Http2
