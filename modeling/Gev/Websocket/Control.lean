import Gev.Lib.Slices
import Gev.Websocket.Framing

namespace Gev.Websocket.Control

open Gev.Connection.State Gev.Lib Gev.Lib.Slices Gev.Websocket.Framing

section OpCode

def opText : UInt8 := 0x1

def opBinary : UInt8 := 0x2

def opClose : UInt8 := 0x8

def opPing : UInt8 := 0x9

def opPong : UInt8 := 0xa

def isControl (c : UInt8) : Bool := c &&& 0x8 != 0

end OpCode

section StatusCode

structure StatusCodeRange where
  min : UInt16
  max : UInt16

def StatusCodeRange.contains (r : StatusCodeRange) (s : UInt16) : Bool := r.min ≤ s && s ≤ r.max

def statusRangeNotInUse : StatusCodeRange := ⟨0, 999⟩

def statusRangeProtocol : StatusCodeRange := ⟨1000, 2999⟩

def statusNormalClosure : UInt16 := 1000

def statusProtocolError : UInt16 := 1002

def statusNoMeaningYet : UInt16 := 1004

def isNotUsed (s : UInt16) : Bool := statusRangeNotInUse.contains s

def isProtocolSpec (s : UInt16) : Bool := statusRangeProtocol.contains s

def isProtocolDefined (s : UInt16) : Bool :=
  s ∈ [statusNormalClosure, 1001, statusProtocolError, 1003, 1007, 1008, 1009, 1010, 1011, 1005, 1006, 1015]

def isProtocolReserved (s : UInt16) : Bool := s ∈ [1005, 1006, 1015]

end StatusCode

section Frames

structure Frame where
  header : Header
  payload : Bytes

def newFrame (op : UInt8) (fin : Bool) (p : Bytes) : Frame := ⟨⟨fin, 0, op, false, fun _ => 0, p.length⟩, p⟩

def newTextFrame (p : Bytes) : Frame := newFrame opText true p

def newBinaryFrame (p : Bytes) : Frame := newFrame opBinary true p

def newPingFrame (p : Bytes) : Frame := newFrame opPing true p

def newPongFrame (p : Bytes) : Frame := newFrame opPong true p

def newCloseFrame (p : Bytes) : Frame := newFrame opClose true p

/-- The bytes are returned together with an error, as in the source. -/
def frameToBytes (f : Frame) : Bytes × Option HeaderError := match writeHeader f.header with
  | .ok ret => (ret ++ f.payload, none)
  | .error e => (f.payload, some e)

def maxControlFramePayloadSize : Nat := 125

def putCloseFrameBody (p : Bytes) (code : UInt16) (reason : Bytes) : Bytes :=
  overwrite (overwrite p 0 (BigEndian.put 2 code.toNat)) 2 reason

/-- The slice made here passes the index test of PutCloseFrameBody. -/
def newCloseFrameBody (code : UInt16) (reason : Bytes) : Bytes :=
  let n := min (2 + reason.length) maxControlFramePayloadSize
  let crop := min (maxControlFramePayloadSize - 2) reason.length
  putCloseFrameBody (List.replicate n 0) code (reason.take crop)

/-- A reason is a Go string, that is a sequence of bytes. -/
def parseCloseFrameData (payload : Bytes) : UInt16 × Bytes :=
  if payload.length < 2 then (0, []) else (UInt16.ofNat (BigEndian.get (payload.take 2)), payload.drop 2)

end Frames

section Check

/-- What may follow a first byte of a UTF-8 sequence: how many bytes, and the range of the next one. -/
def leading (b : UInt8) : Option (Nat × UInt8 × UInt8) :=
  if b < 0x80 then some (0, 0x80, 0xbf)
  else if b < 0xc2 then none
  else if b < 0xe0 then some (1, 0x80, 0xbf)
  else if b = 0xe0 then some (2, 0xa0, 0xbf)
  else if b = 0xed then some (2, 0x80, 0x9f)
  else if b < 0xf0 then some (2, 0x80, 0xbf)
  else if b = 0xf0 then some (3, 0x90, 0xbf)
  else if b < 0xf4 then some (3, 0x80, 0xbf)
  else if b = 0xf4 then some (3, 0x80, 0x8f)
  else none

/-- The rest of a string of which a number of continuation bytes is still due, the next one in a range. -/
def validFrom : Nat → UInt8 → UInt8 → Bytes → Bool
  | due, _, _, [] => due == 0
  | 0, _, _, b :: rest => match leading b with
    | some (due, lo, hi) => validFrom due lo hi rest
    | none => false
  | due + 1, lo, hi, b :: rest => lo ≤ b && b ≤ hi && validFrom due 0x80 0xbf rest

def validString (s : Bytes) : Bool := validFrom 0 0x80 0xbf s

inductive ProtocolError
  | statusCodeNotInUse
  | statusCodeApplicationLevel
  | statusCodeNoMeaning
  | statusCodeUnknown
  | invalidUTF8
  deriving DecidableEq

def ProtocolError.text : ProtocolError → String
  | .statusCodeNotInUse => "status code is not in use"
  | .statusCodeApplicationLevel => "status code is only application level"
  | .statusCodeNoMeaning => "status code has no meaning yet"
  | .statusCodeUnknown => "status code is not defined in spec"
  | .invalidUTF8 => "invalid utf8 sequence in close reason"

def ProtocolError.error (e : ProtocolError) : Bytes := e.text.toList.map fun c => UInt8.ofNat c.toNat

def checkCloseFrameData (code : UInt16) (reason : Bytes) : Option ProtocolError :=
  if isNotUsed code then some .statusCodeNotInUse
  else if isProtocolReserved code then some .statusCodeApplicationLevel
  else if code = statusNoMeaningYet then some .statusCodeNoMeaning
  else if isProtocolSpec code && !isProtocolDefined code then some .statusCodeUnknown
  else if !validString reason then some .invalidUTF8
  else none

end Check

section Replies

def packCloseData (reason : Bytes) : Bytes × Option HeaderError :=
  frameToBytes (newCloseFrame (newCloseFrameBody statusNormalClosure reason))

def handleClose (h : Header) (payload : Bytes) : Bytes × Option HeaderError :=
  if h.length = 0 then
    match writeHeader ⟨true, 0, opClose, false, fun _ => 0, 0⟩ with
    | .ok ret => (ret, none)
    | .error e => ([], some e)
  else
    let (code, reason) := parseCloseFrameData payload
    match checkCloseFrameData code reason with
    | some err => frameToBytes (newCloseFrame (newCloseFrameBody statusProtocolError err.error))
    | none => frameToBytes (newCloseFrame (newCloseFrameBody code reason))

def handlePing (payload : Bytes) : Bytes × Option HeaderError := frameToBytes (newPongFrame payload)

def handlePong (payload : Bytes) : Bytes × Option HeaderError := frameToBytes (newPingFrame payload)

end Replies

theorem writeHeader_ne_nil {h : Header} {ret : Bytes} (hw : writeHeader h = .ok ret) : ret ≠ [] := by
  simp only [writeHeader] at hw
  split at hw
  · cases hw
    simp
  · split at hw
    · cases hw
      simp
    · split at hw <;> cases hw
      simp

theorem frameToBytes_newFrame_ne_nil (op : UInt8) (fin : Bool) (p : Bytes) :
    (frameToBytes (newFrame op fin p)).1 ≠ [] := by
  rw [frameToBytes]
  cases hw : writeHeader (newFrame op fin p).header with
  | ok ret => simp [writeHeader_ne_nil hw]
  | error e =>
      -- Only a payload that is far from empty has no header.
      simp only [newFrame]
      rintro rfl
      simp [writeHeader, newFrame, len7] at hw

/-- Every Close frame is answered. -/
theorem handleClose_ne_nil (h : Header) (payload : Bytes) : (handleClose h payload).1 ≠ [] := by
  rw [handleClose]
  split
  · have hw : writeHeader ⟨true, 0, opClose, false, fun _ => 0, 0⟩ = .ok [0x88, 0x00] := rfl
    simp [hw]
  · dsimp only
    split
    · exact frameToBytes_newFrame_ne_nil _ _ _
    · exact frameToBytes_newFrame_ne_nil _ _ _

end Gev.Websocket.Control
