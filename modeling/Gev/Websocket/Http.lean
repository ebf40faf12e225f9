import Gev.Connection.State
import Gev.Lib.BigEndian
import Gev.Lib.Substrings
import Mathlib.Data.List.DropRight

namespace Gev.Websocket.Http

open Gev.Connection.State Gev.Lib.Substrings

def ascii (s : String) : Bytes := s.toUTF8.data.toList

def itoa (n : Int) : Bytes := ascii (toString n)

def crlf : Bytes := ascii "\r\n"
def colonAndSpace : Bytes := ascii ": "

def headerHost : Bytes := ascii "Host"
def headerUpgrade : Bytes := ascii "Upgrade"
def headerConnection : Bytes := ascii "Connection"
def headerSecVersion : Bytes := ascii "Sec-WebSocket-Version"
def headerSecProtocol : Bytes := ascii "Sec-WebSocket-Protocol"
def headerSecExtensions : Bytes := ascii "Sec-WebSocket-Extensions"
def headerSecKey : Bytes := ascii "Sec-WebSocket-Key"
def headerSecAccept : Bytes := ascii "Sec-WebSocket-Accept"

def headerHostCanonical : Bytes := ascii "Host"
def headerUpgradeCanonical : Bytes := ascii "Upgrade"
def headerConnectionCanonical : Bytes := ascii "Connection"
def headerSecVersionCanonical : Bytes := ascii "Sec-Websocket-Version"
def headerSecProtocolCanonical : Bytes := ascii "Sec-Websocket-Protocol"
def headerSecExtensionsCanonical : Bytes := ascii "Sec-Websocket-Extensions"
def headerSecKeyCanonical : Bytes := ascii "Sec-Websocket-Key"

def specHeaderValueUpgrade : Bytes := ascii "websocket"
def specHeaderValueConnection : Bytes := ascii "Upgrade"
def specHeaderValueConnectionLower : Bytes := ascii "upgrade"
def specHeaderValueSecVersion : Bytes := ascii "13"

section Errors

/-- What a HandshakeHeader writes, and whether it reports an error after that. -/
structure HandshakeHeader where
  text : Bytes
  failed : Bool
  deriving DecidableEq

structure RejectConnectionError where
  reason : Bytes
  code : Int
  header : Option HandshakeHeader
  deriving DecidableEq

/-- The error values of the package, which are told apart by identity and not by their texts. -/
inductive Sentinel
  | badProtocol
  | badMethod
  | badHost
  | badUpgrade
  | badConnection
  | badSecAccept
  | badSecKey
  | badSecVersion
  | malformedRequest
  | upgradeRequired
  deriving DecidableEq

def statusBadRequest : Int := 400
def statusMethodNotAllowed : Int := 405
def statusUpgradeRequired : Int := 426
def statusInternalServerError : Int := 500
def statusHTTPVersionNotSupported : Int := 505

def badHeader (name : Bytes) : RejectConnectionError :=
  ⟨ascii "handshake error: bad \"" ++ name ++ ascii "\" header", statusBadRequest, none⟩

def Sentinel.value : Sentinel → RejectConnectionError
  | .badProtocol => ⟨ascii "handshake error: bad HTTP protocol version", statusHTTPVersionNotSupported, none⟩
  | .badMethod => ⟨ascii "handshake error: bad HTTP request method", statusMethodNotAllowed, none⟩
  | .badHost => badHeader headerHost
  | .badUpgrade => badHeader headerUpgrade
  | .badConnection => badHeader headerConnection
  | .badSecAccept => badHeader headerSecAccept
  | .badSecKey => badHeader headerSecKey
  | .badSecVersion => badHeader headerSecVersion
  | .malformedRequest => ⟨ascii "malformed HTTP request", statusBadRequest, none⟩
  | .upgradeRequired =>
      ⟨(badHeader headerSecVersion).reason, statusUpgradeRequired,
        some ⟨headerSecVersion ++ ascii ": 13\r\n", false⟩⟩

/-- Any error a handshake can end with: one of the package, a rejection that a callback made, or another error of
a callback with its text. -/
inductive HandshakeError
  | sentinel (e : Sentinel)
  | rejection (e : RejectConnectionError)
  | other (text : Bytes)
  deriving DecidableEq

def HandshakeError.rejected : HandshakeError → Option RejectConnectionError
  | .sentinel e => some e.value
  | .rejection e => some e
  | .other _ => none

def HandshakeError.error : HandshakeError → Bytes
  | .sentinel e => e.value.reason
  | .rejection e => e.reason
  | .other text => text

end Errors

/-- The functions of other packages that a handshake calls. The tokens of a header value come with the result that
a scan to their end has. -/
structure Library (σ ε : Type) where
  sha1 : Bytes → Bytes
  base64 : Bytes → Bytes
  statusText : Int → Bytes
  scanTokens : Bytes → List Bytes × Bool
  selectOptions : (σ → ε → σ × Bool) → σ → Bytes → List ε → σ × List ε × Bool
  writeOptions : List ε → Bytes
  length_sha1 : ∀ s, (sha1 s).length = 20
  length_base64 : ∀ s, (base64 s).length = (s.length + 2) / 3 * 4

section Parsing

/-- The loop squares a and halves b until b is zero, which takes at most b rounds. -/
def powLoop : Nat → Int64 → Nat → Int64 → Int64
  | 0, _, _, p => p
  | rounds + 1, a, b, p =>
      if 0 < b then powLoop rounds (a * a) (b >>> 1) (if b &&& 1 ≠ 0 then p * a else p) else p

def pow (a : Int64) (b : Nat) : Int64 := powLoop b a b 1

def asciiLoop : Bytes → Int64 → Option Int64
  | [], ret => some ret
  | c :: bts, ret =>
      if c &&& 0xf0 ≠ 0x30 then none
      else asciiLoop bts (ret + Int64.ofNat (c &&& 0xf).toNat * pow 10 bts.length)

def asciiToInt (bts : Bytes) : Option Int64 := if bts.length < 1 then none else asciiLoop bts 0

def bsplit3 (bts : Bytes) (sep : UInt8) : Bytes × Bytes × Bytes :=
  match bts.idxOf? sep with
  | none => (bts, [], [])
  | some a =>
      match (bts.drop (a + 1)).idxOf? sep with
      | none => (bts, [], [])
      | some b => (bts.take a, (bts.drop (a + 1)).take b, bts.drop (b + (a + 1) + 1))

def space : UInt8 := 0x20
def tab : UInt8 := 0x09
def dot : UInt8 := 0x2e
def colon : UInt8 := 0x3a
def hyphen : UInt8 := 0x2d

def isBlank (c : UInt8) : Bool := c = space || c = tab

def btrim (bts : Bytes) : Bytes := (bts.dropWhile isBlank).rdropWhile isBlank

def toLower : UInt8 := 0x20
def toUpper : UInt8 := ~~~toLower

def canonicalByte (upper : Bool) (c : UInt8) : UInt8 :=
  if upper ∧ 0x61 ≤ c ∧ c ≤ 0x7a then c &&& toUpper
  else if ¬ upper ∧ 0x41 ≤ c ∧ c ≤ 0x5a then c ||| toLower
  else c

def canonicalizeLoop : Bool → Bytes → Bytes
  | _, [] => []
  | upper, c :: k => canonicalByte upper c :: canonicalizeLoop (c = hyphen) k

def canonicalizeHeaderKey (k : Bytes) : Bytes := canonicalizeLoop true k

def httpVersion10 : Bytes := ascii "HTTP/1.0"
def httpVersion11 : Bytes := ascii "HTTP/1.1"
def httpVersionPrefix : Bytes := ascii "HTTP/"

def httpParseVersion (bts : Bytes) : Option (Int64 × Int64) :=
  if bts = httpVersion10 then some (1, 0)
  else if bts = httpVersion11 then some (1, 1)
  else if bts.length < 8 then none
  else if bts.take 5 ≠ httpVersionPrefix then none
  else do
    let bts := bts.drop 5
    let i ← bts.idxOf? dot
    let major ← asciiToInt (bts.take i)
    let minor ← asciiToInt (bts.drop (i + 1))
    pure (major, minor)

structure HttpRequestLine where
  method : Bytes
  uri : Bytes
  major : Int64
  minor : Int64

def httpParseRequestLine (line : Bytes) : Except HandshakeError HttpRequestLine :=
  let (method, uri, proto) := bsplit3 line space
  match httpParseVersion proto with
  | none => .error (.sentinel .malformedRequest)
  | some (major, minor) => .ok ⟨method, uri, major, minor⟩

def httpParseHeaderLine (line : Bytes) : Option (Bytes × Bytes) :=
  match line.idxOf? colon with
  | none => none
  | some i => some (canonicalizeHeaderKey (btrim (line.take i)), btrim (line.drop (i + 1)))

end Parsing

section Writing

variable {σ ε : Type} (lib : Library σ ε)

inductive Panic
  | acceptBuffer
  | nonce
  | headersState
  deriving DecidableEq

def nonceSize : Nat := 24
def acceptSize : Nat := 28

def magic : Bytes := ascii "258EAFA5-E914-47DA-95CA-C5AB0DC85B11"

def copyTo (dst src : Bytes) : Bytes := src.take dst.length ++ dst.drop src.length

def initAcceptFromNonce (accept nonce : Bytes) : Except Panic Bytes :=
  if accept.length ≠ acceptSize then .error .acceptBuffer
  else if nonce.length ≠ nonceSize then .error .nonce
  else .ok (copyTo accept (lib.base64 (lib.sha1 (nonce ++ magic))))

def writeAccept (nonce : Bytes) : Except Panic Bytes := initAcceptFromNonce lib (List.replicate acceptSize 0) nonce

structure Handshake (ε : Type) where
  protocol : Bytes
  extensions : List ε

/-- WriteTo of a pair of headers. The second is not written after an error of the first. -/
def writeHeaders (fst snd : Option HandshakeHeader) : Bytes :=
  match fst with
  | none => (snd.map (·.text)).getD []
  | some h => h.text ++ if h.failed then [] else (snd.map (·.text)).getD []

def httpWriteHeaderKey (key : Bytes) : Bytes := key ++ colonAndSpace

def httpWriteHeader (key value : Bytes) : Bytes := httpWriteHeaderKey key ++ value ++ crlf

def textHeadUpgrade : Bytes :=
  ascii "HTTP/1.1 101 Switching Protocols\r\nUpgrade: websocket\r\nConnection: Upgrade\r\n"

def httpWriteResponseUpgrade (nonce : Bytes) (hs : Handshake ε) (header : Bytes) : Except Panic Bytes := do
  let accept ← writeAccept lib nonce
  pure (textHeadUpgrade ++ httpWriteHeader headerSecAccept accept ++
    (if hs.protocol ≠ [] then httpWriteHeader headerSecProtocol hs.protocol else []) ++
    (if 0 < hs.extensions.length then httpWriteHeader headerSecExtensions (lib.writeOptions hs.extensions) else []) ++
    header ++ crlf)

def writeStatusText (code : Int) : Bytes :=
  ascii "HTTP/1.1 " ++ itoa code ++ ascii " " ++ lib.statusText code ++ crlf ++
    ascii "Content-Type: text/plain; charset=utf-8" ++ crlf

def writeErrorText (err : HandshakeError) : Bytes :=
  ascii "Content-Length: " ++ itoa err.error.length ++ crlf ++ crlf ++ err.error

def textHeadBadRequest : Bytes := writeStatusText lib statusBadRequest
def textHeadInternalServerError : Bytes := writeStatusText lib statusInternalServerError
def textHeadUpgradeRequired : Bytes := writeStatusText lib statusUpgradeRequired

def textTailErrHandshakeBadProtocol : Bytes := writeErrorText (.sentinel .badProtocol)
def textTailErrHandshakeBadMethod : Bytes := writeErrorText (.sentinel .badMethod)
def textTailErrHandshakeBadHost : Bytes := writeErrorText (.sentinel .badHost)
def textTailErrHandshakeBadUpgrade : Bytes := writeErrorText (.sentinel .badUpgrade)
def textTailErrHandshakeBadConnection : Bytes := writeErrorText (.sentinel .badConnection)
def textTailErrHandshakeBadSecAccept : Bytes := writeErrorText (.sentinel .badSecAccept)
def textTailErrHandshakeBadSecKey : Bytes := writeErrorText (.sentinel .badSecKey)
def textTailErrHandshakeBadSecVersion : Bytes := writeErrorText (.sentinel .badSecVersion)
def textTailErrUpgradeRequired : Bytes := writeErrorText (.sentinel .upgradeRequired)

def errorTail : HandshakeError → Bytes
  | .sentinel .badProtocol => textTailErrHandshakeBadProtocol
  | .sentinel .badMethod => textTailErrHandshakeBadMethod
  | .sentinel .badHost => textTailErrHandshakeBadHost
  | .sentinel .badUpgrade => textTailErrHandshakeBadUpgrade
  | .sentinel .badConnection => textTailErrHandshakeBadConnection
  | .sentinel .badSecAccept => textTailErrHandshakeBadSecAccept
  | .sentinel .badSecKey => textTailErrHandshakeBadSecKey
  | .sentinel .badSecVersion => textTailErrHandshakeBadSecVersion
  | .sentinel .upgradeRequired => textTailErrUpgradeRequired
  | err => writeErrorText err

def httpWriteResponseError (err : HandshakeError) (code : Int) (header : Bytes) : Bytes :=
  (if code = statusBadRequest then textHeadBadRequest lib
    else if code = statusInternalServerError then textHeadInternalServerError lib
    else if code = statusUpgradeRequired then textHeadUpgradeRequired lib
    else writeStatusText lib code) ++ header ++ errorTail err

end Writing

section Lines

theorem bsplit3_append {sep : UInt8} {b1 b2 : Bytes} (h1 : sep ∉ b1) (h2 : sep ∉ b2) (b3 : Bytes) :
    bsplit3 (b1 ++ sep :: (b2 ++ sep :: b3)) sep = (b1, b2, b3) := by
  have hrest : (b1 ++ sep :: (b2 ++ sep :: b3)).drop (b1.length + 1) = b2 ++ sep :: b3 := by
    rw [List.drop_length_add_append, List.drop_one, List.tail_cons]
  have hlast : (b1 ++ sep :: (b2 ++ sep :: b3)).drop (b2.length + (b1.length + 1) + 1) = b3 := by
    rw [show b2.length + (b1.length + 1) + 1 = (b1.length + 1) + (b2.length + 1) by omega, ← List.drop_drop, hrest,
      List.drop_length_add_append, List.drop_one, List.tail_cons]
  simp only [bsplit3, idxOf?_append_cons h1, hrest, idxOf?_append_cons h2, hlast, List.take_left]

/-- A line without two separators ends up in the first part; the others are empty. -/
theorem bsplit3_cases (bts : Bytes) (sep : UInt8) : bsplit3 bts sep = (bts, [], []) ∨
    ∃ b1 b2 b3, bsplit3 bts sep = (b1, b2, b3) ∧ bts = b1 ++ sep :: (b2 ++ sep :: b3) ∧ sep ∉ b1 ∧ sep ∉ b2 := by
  rw [bsplit3]
  split
  · exact .inl rfl
  · next a ha =>
    obtain ⟨ha1, ha2⟩ := cut_of_idxOf? ha
    split
    · exact .inl rfl
    · next b hb =>
      obtain ⟨hb1, hb2⟩ := cut_of_idxOf? hb
      rw [List.drop_drop] at hb2
      refine .inr ⟨_, _, _, rfl, ?_, ha1, hb1⟩
      rw [show b + (a + 1) + 1 = a + 1 + (b + 1) by omega, ← hb2]
      exact ha2

theorem httpParseRequestLine_ok_iff {line : Bytes} {req : HttpRequestLine} :
    httpParseRequestLine line = .ok req ↔ ∃ version, line = req.method ++ space :: (req.uri ++ space :: version) ∧
      space ∉ req.method ∧ space ∉ req.uri ∧ httpParseVersion version = some (req.major, req.minor) := by
  constructor
  · intro h
    obtain hshort | ⟨method, uri, version, heq, hline, hmethod, huri⟩ := bsplit3_cases line space
    · rw [httpParseRequestLine, hshort] at h
      cases h
    · rw [httpParseRequestLine, heq] at h
      dsimp only at h
      split at h
      · cases h
      · next hversion =>
        cases h
        exact ⟨version, hline, hmethod, huri, hversion⟩
  · rintro ⟨version, rfl, hmethod, huri, hversion⟩
    simp only [httpParseRequestLine, bsplit3_append hmethod huri, hversion]

theorem httpParseHeaderLine_of_mem {line : Bytes} (h : colon ∈ line) :
    httpParseHeaderLine line = some (canonicalizeHeaderKey (btrim (line.take (line.idxOf colon))),
      btrim (line.drop (line.idxOf colon + 1))) := by
  simp only [httpParseHeaderLine, idxOf?_of_mem h]

theorem httpParseHeaderLine_of_notMem {line : Bytes} (h : colon ∉ line) : httpParseHeaderLine line = none := by
  simp only [httpParseHeaderLine, List.idxOf?_eq_none_iff.mpr h]

end Lines

section Canonical

def asciiLower (c : UInt8) : UInt8 := if 0x41 ≤ c ∧ c ≤ 0x5a then c ||| toLower else c

theorem canonicalByte_lower (upper : Bool) (c : UInt8) : asciiLower (canonicalByte upper c) = asciiLower c ∧
    canonicalByte upper (asciiLower c) = canonicalByte upper c ∧ (asciiLower c = hyphen ↔ c = hyphen) := by
  revert upper c
  decide +kernel

theorem map_canonicalizeLoop (upper : Bool) (k : Bytes) :
    (canonicalizeLoop upper k).map asciiLower = k.map asciiLower := by
  induction k generalizing upper with
  | nil => rfl
  | cons c k ih => rw [canonicalizeLoop, List.map_cons, List.map_cons, ih, (canonicalByte_lower upper c).1]

theorem canonicalizeLoop_map (upper : Bool) (k : Bytes) :
    canonicalizeLoop upper (k.map asciiLower) = canonicalizeLoop upper k := by
  induction k generalizing upper with
  | nil => rfl
  | cons c k ih =>
      obtain ⟨-, hbyte, hhyphen⟩ := canonicalByte_lower upper c
      simp only [List.map_cons, canonicalizeLoop, hbyte, hhyphen, ih]

/-- Two keys become the same exactly if they differ in the case of letters only. -/
theorem canonicalizeHeaderKey_eq_iff {j k : Bytes} :
    canonicalizeHeaderKey j = canonicalizeHeaderKey k ↔ j.map asciiLower = k.map asciiLower := by
  simp only [canonicalizeHeaderKey]
  constructor
  · intro h
    rw [← map_canonicalizeLoop true j, h, map_canonicalizeLoop]
  · intro h
    rw [← canonicalizeLoop_map true j, h, canonicalizeLoop_map]

theorem toNat_asciiLower (c : UInt8) :
    (asciiLower c).toNat = if 65 ≤ c.toNat ∧ c.toNat ≤ 90 then c.toNat + 32 else c.toNat := by
  revert c
  decide +kernel

def SameLetter (c d : UInt8) : Prop :=
  c = d ∨ (0x41 ≤ c ∧ c ≤ 0x5a ∧ d = c + 0x20) ∨ (0x41 ≤ d ∧ d ≤ 0x5a ∧ c = d + 0x20)

instance (c d : UInt8) : Decidable (SameLetter c d) := inferInstanceAs (Decidable (_ ∨ _))

theorem asciiLower_eq_iff {c d : UInt8} : asciiLower c = asciiLower d ↔ SameLetter c d := by
  have h20 : (0x20 : UInt8).toNat = 32 := rfl
  have h41 : (0x41 : UInt8).toNat = 65 := rfl
  have h5a : (0x5a : UInt8).toNat = 90 := rfl
  have hc := c.toNat_lt
  have hd := d.toNat_lt
  simp only [SameLetter, ← UInt8.toNat_inj, UInt8.le_iff_toNat_le, UInt8.toNat_add, toNat_asciiLower, h20, h41, h5a]
  split <;> split <;> omega

def EqualFold (j k : Bytes) : Prop :=
  j.length = k.length ∧ ∀ i (hj : i < j.length) (hk : i < k.length), SameLetter j[i] k[i]

theorem map_asciiLower_eq_iff {j k : Bytes} : j.map asciiLower = k.map asciiLower ↔ EqualFold j k := by
  rw [← List.forall₂_eq_eq_eq, List.forall₂_map_left_iff, List.forall₂_map_right_iff]
  simp only [asciiLower_eq_iff]
  exact List.forall₂_iff_get

theorem equalFold_canonicalizeHeaderKey (k : Bytes) : EqualFold k (canonicalizeHeaderKey k) := by
  rw [← map_asciiLower_eq_iff, canonicalizeHeaderKey, map_canonicalizeLoop]

theorem canonicalizeHeaderKey_idem (k : Bytes) :
    canonicalizeHeaderKey (canonicalizeHeaderKey k) = canonicalizeHeaderKey k := by
  rw [canonicalizeHeaderKey_eq_iff, canonicalizeHeaderKey, map_canonicalizeLoop]

end Canonical

section Responses

variable {σ ε : Type} (lib : Library σ ε)

theorem copyTo_of_length_eq {dst src : Bytes} (h : src.length = dst.length) : copyTo dst src = src := by
  rw [copyTo, ← h, List.take_length, h, List.drop_length, List.append_nil]

theorem writeAccept_of_length {nonce : Bytes} (h : nonce.length = nonceSize) :
    writeAccept lib nonce = .ok (lib.base64 (lib.sha1 (nonce ++ magic))) := by
  have hlen : (lib.base64 (lib.sha1 (nonce ++ magic))).length = (List.replicate acceptSize (0 : UInt8)).length := by
    rw [lib.length_base64, lib.length_sha1, List.length_replicate]
    rfl
  rw [writeAccept, initAcceptFromNonce, if_neg (by simp), if_neg (by simpa using h), copyTo_of_length_eq hlen]

/-- The texts that are kept ready are those that would be written anyway. -/
theorem httpWriteResponseError_eq (err : HandshakeError) (code : Int) (header : Bytes) :
    httpWriteResponseError lib err code header = writeStatusText lib code ++ header ++ writeErrorText err := by
  have hhead : (if code = statusBadRequest then textHeadBadRequest lib
      else if code = statusInternalServerError then textHeadInternalServerError lib
      else if code = statusUpgradeRequired then textHeadUpgradeRequired lib
      else writeStatusText lib code) = writeStatusText lib code := by
    split_ifs with h400 h500 h426
    · rw [h400, textHeadBadRequest]
    · rw [h500, textHeadInternalServerError]
    · rw [h426, textHeadUpgradeRequired]
    · rfl
  have htail : errorTail err = writeErrorText err := by
    cases err with
    | sentinel e => cases e <;> rfl
    | rejection e => rfl
    | other text => rfl
  rw [httpWriteResponseError, hhead, htail]

end Responses

end Gev.Websocket.Http
