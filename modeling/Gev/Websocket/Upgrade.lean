import Gev.Websocket.Decoder
import Gev.Websocket.Http

namespace Gev.Websocket.Upgrade

open Gev.Connection.State Gev.Lib Gev.Lib.RingBuffers Gev.Lib.Substrings
open Gev.Websocket.Framing Gev.Websocket.Http

structure Upgrader (σ ε : Type) where
  protocol : Option (σ → Bytes → σ × Bool)
  protocolCustom : Option (σ → Bytes → σ × Bytes × Bool)
  extension : Option (σ → ε → σ × Bool)
  extensionCustom : Option (σ → Bytes → List ε → σ × List ε × Bool)
  header : Option HandshakeHeader
  onRequest : Option (σ → Bytes → σ × Option HandshakeError)
  onHost : Option (σ → Bytes → σ × Option HandshakeError)
  onHeader : Option (σ → Bytes → Bytes → σ × Option HandshakeError)
  onBeforeUpgrade : Option (σ → σ × Option HandshakeHeader × Option HandshakeError)

inductive Key
  | host
  | upgrade
  | connection
  | secVersion
  | secKey
  | secProtocol
  | secExtensions
  deriving DecidableEq

def Key.canonical : Key → Bytes
  | .host => headerHostCanonical
  | .upgrade => headerUpgradeCanonical
  | .connection => headerConnectionCanonical
  | .secVersion => headerSecVersionCanonical
  | .secKey => headerSecKeyCanonical
  | .secProtocol => headerSecProtocolCanonical
  | .secExtensions => headerSecExtensionsCanonical

def keys : List Key := [.host, .upgrade, .connection, .secVersion, .secKey, .secProtocol, .secExtensions]

def keyOf (k : Bytes) : Option Key := keys.find? fun key => key.canonical = k

def headerSeenHost : UInt8 := 1
def headerSeenUpgrade : UInt8 := 2
def headerSeenConnection : UInt8 := 4
def headerSeenSecVersion : UInt8 := 8
def headerSeenSecKey : UInt8 := 16

def headerSeenAll : UInt8 :=
  0 ||| headerSeenHost ||| headerSeenUpgrade ||| headerSeenConnection ||| headerSeenSecVersion ||| headerSeenSecKey

structure Progress (σ ε : Type) where
  err : Option HandshakeError
  headerSeen : UInt8
  nonce : Bytes
  hs : Handshake ε
  conn : σ

structure Outcome (σ ε : Type) where
  out : Bytes
  hs : Handshake ε
  err : Option HandshakeError
  conn : σ

variable {σ ε : Type} (lib : Library σ ε) (u : Upgrader σ ε)

section Code

/-- The first token that is checked with success; the scan ends there. -/
def selectToken (check : σ → Bytes → σ × Bool) : σ → List Bytes → σ × Option Bytes
  | c, [] => (c, none)
  | c, v :: tokens =>
      let (c, ok) := check c v
      if ok then (c, some v) else selectToken check c tokens

def btsSelectProtocol (c : σ) (h : Bytes) (check : σ → Bytes → σ × Bool) : σ × Bytes × Bool :=
  let (tokens, ok) := lib.scanTokens h
  match selectToken check c tokens with
  | (c, some selected) => (c, selected, true)
  | (c, none) => (c, [], ok)

def btsSelectExtensions (c : σ) (h : Bytes) (selected : List ε) (check : σ → ε → σ × Bool) : σ × List ε × Bool :=
  lib.selectOptions check c h selected

def Progress.report (s : Progress σ ε) (r : σ × Option HandshakeError) : Progress σ ε :=
  { s with conn := r.1, err := r.2 }

def Progress.setProtocol (s : Progress σ ε) (r : σ × Bytes × Bool) : Progress σ ε :=
  { s with
    conn := r.1
    hs := { s.hs with protocol := r.2.1 }
    err := if r.2.2 then s.err else some (.sentinel .malformedRequest) }

def Progress.setExtensions (s : Progress σ ε) (r : σ × List ε × Bool) : Progress σ ε :=
  { s with
    conn := r.1
    hs := { s.hs with extensions := r.2.1 }
    err := if r.2.2 then s.err else some (.sentinel .malformedRequest) }

def handleHeader (k v : Bytes) (s : Progress σ ε) : Progress σ ε :=
  match keyOf k with
  | some .host =>
      let s := { s with headerSeen := s.headerSeen ||| headerSeenHost }
      match u.onHost with
      | none => s
      | some onHost => s.report (onHost s.conn v)
  | some .upgrade =>
      { s with
        headerSeen := s.headerSeen ||| headerSeenUpgrade
        err := if v ≠ specHeaderValueUpgrade then some (.sentinel .badUpgrade) else s.err }
  | some .connection =>
      { s with
        headerSeen := s.headerSeen ||| headerSeenConnection
        err := if v ≠ specHeaderValueConnection ∧ v ≠ specHeaderValueConnectionLower then
            some (.sentinel .badConnection)
          else s.err }
  | some .secVersion =>
      { s with
        headerSeen := s.headerSeen ||| headerSeenSecVersion
        err := if v ≠ specHeaderValueSecVersion then some (.sentinel .upgradeRequired) else s.err }
  | some .secKey =>
      let s := { s with headerSeen := s.headerSeen ||| headerSeenSecKey }
      if v.length ≠ nonceSize then { s with err := some (.sentinel .badSecKey) }
      else { s with nonce := copyTo s.nonce v }
  | some .secProtocol =>
      if s.hs.protocol = [] then
        match u.protocolCustom, u.protocol with
        | some custom, _ => s.setProtocol (custom s.conn v)
        | none, some check => s.setProtocol (btsSelectProtocol lib s.conn v check)
        | none, none => s
      else s
  | some .secExtensions =>
      match u.extensionCustom, u.extension with
      | some custom, _ => s.setExtensions (custom s.conn v s.hs.extensions)
      | none, some check => s.setExtensions (btsSelectExtensions lib s.conn v s.hs.extensions check)
      | none, none => s
  | none =>
      match u.onHeader with
      | none => s
      | some onHeader => s.report (onHeader s.conn k v)

def headerLoop : List Bytes → Progress σ ε → Progress σ ε
  | [], s => s
  | line :: lines, s =>
      if s.err.isSome ∨ line.length = 0 then s
      else
        match httpParseHeaderLine line with
        | none => { s with err := some (.sentinel .malformedRequest) }
        | some (k, v) => headerLoop lines (handleHeader lib u k v s)

def missingHeader (headerSeen : UInt8) : Except Panic HandshakeError :=
  if headerSeen &&& headerSeenHost = 0 then .ok (.sentinel .badHost)
  else if headerSeen &&& headerSeenUpgrade = 0 then .ok (.sentinel .badUpgrade)
  else if headerSeen &&& headerSeenConnection = 0 then .ok (.sentinel .badConnection)
  else if headerSeen &&& headerSeenSecVersion = 0 then .ok (.sentinel .badSecVersion)
  else if headerSeen &&& headerSeenSecKey = 0 then .ok (.sentinel .badSecKey)
  else .error .headersState

/-- The code of a rejection, unless it is zero, and that of an internal error otherwise. -/
def statusCode (err : HandshakeError) : Int :=
  let code := (err.rejected.map (·.code)).getD 0
  if code = 0 then statusInternalServerError else code

def reject (s : Progress σ ε) (extra : Option HandshakeHeader) (err : HandshakeError) : Outcome σ ε :=
  let extra := match err.rejected with
    | some rej => rej.header
    | none => extra
  ⟨httpWriteResponseError lib err (statusCode err) (writeHeaders u.header extra), s.hs, some err, s.conn⟩

def accept (s : Progress σ ε) (extra : Option HandshakeHeader) : Except Panic (Outcome σ ε) := do
  let out ← httpWriteResponseUpgrade lib s.nonce s.hs (writeHeaders u.header extra)
  pure ⟨out, s.hs, none, s.conn⟩

def finish (s : Progress σ ε) : Except Panic (Outcome σ ε) :=
  match s.err with
  | some err => .ok (reject lib u s none err)
  | none =>
      if s.headerSeen ≠ headerSeenAll then do
        let err ← missingHeader s.headerSeen
        pure (reject lib u s none err)
      else
        match u.onBeforeUpgrade with
        | none => accept lib u s none
        | some onBeforeUpgrade =>
            match onBeforeUpgrade s.conn with
            | (c, extra, none) => accept lib u { s with conn := c } extra
            | (c, extra, some err) => .ok (reject lib u { s with conn := c } extra err)

def methodGet : Bytes := ascii "GET"

def checkRequest (c : σ) (req : HttpRequestLine) : σ × Option HandshakeError :=
  if req.major ≠ 1 ∨ req.minor < 1 then (c, some (.sentinel .badProtocol))
  else if req.method ≠ methodGet then (c, some (.sentinel .badMethod))
  else
    match u.onRequest with
    | none => (c, none)
    | some onRequest => onRequest c req.uri

def begin (c : σ) : Progress σ ε := ⟨none, 0, List.replicate nonceSize 0, ⟨[], []⟩, c⟩

/-- Upgrade from the request on. An error in the request line is returned without a response. -/
def handshake (c : σ) (data : Bytes) : Except Panic (Outcome σ ε) :=
  match split crlf data with
  | [] => .ok ⟨[], ⟨[], []⟩, some (.other (ascii "len(lines) = 0")), c⟩
  | requestLine :: lines =>
      match httpParseRequestLine requestLine with
      | .error err => .ok ⟨[], ⟨[], []⟩, some err, c⟩
      | .ok req =>
          match checkRequest u c req with
          | (c, some err) => .ok ⟨[], ⟨[], []⟩, some err, c⟩
          | (c, none) => finish lib u (headerLoop lib u lines (begin c))

def terminator : Bytes := ascii "\r\n\r\n"

/-- The request that Upgrade takes out of a buffer which wraps after the given number of bytes. The buffer is not
empty where it reads, so that Read does not fail. -/
def takeRequest (wrap : Nat) (buffer : RingBuffer UInt8) : Bytes × RingBuffer UInt8 :=
  let (first, last) := buffer.peekAll wrap
  match index terminator first with
  | some i => buffer.read (i + 4)
  | none =>
      if 0 < last.length then
        match index terminator last with
        | some i => buffer.read (i + 4)
        | none => ([], buffer)
      else ([], buffer)

def upgrade (wrap : Nat) (c : σ) (buffer : RingBuffer UInt8) : Except Panic (Outcome σ ε) × RingBuffer UInt8 :=
  let (data, buffer) := takeRequest wrap buffer
  (handshake lib u c data, buffer)

/-- Upgrade as UnPacket sees it, for a connection in the given state and a buffer that may wrap anywhere. -/
def upgrader (wrap : RingBuffer UInt8 → Nat) (c : σ) : Decoder.Upgrader where
  upgrade buffer :=
    match upgrade lib u (wrap buffer) c buffer with
    | (.ok o, rest) => (o.out, o.err.isSome, rest)
    | (.error _, rest) => ([], true, rest)

end Code

section Layout

/-- The bytes through the first terminator are taken, and nothing if there is none. -/
def wholeRequest (buffer : RingBuffer UInt8) : Bytes × RingBuffer UInt8 :=
  match index terminator buffer.data with
  | some i => buffer.read (i + 4)
  | none => ([], buffer)

/-- The terminator lies within the first segment, or it is found at the same place in the second one. -/
def InReach (wrap : Nat) (buffer : RingBuffer UInt8) : Prop :=
  ∀ i, index terminator buffer.data = some i →
    i + 4 ≤ wrap ∨ index terminator (buffer.data.drop wrap) = some i

theorem length_terminator : terminator.length = 4 := by decide

theorem takeRequest_of_first {wrap i : Nat} {buffer : RingBuffer UInt8}
    (h : index terminator (buffer.data.take wrap) = some i) : takeRequest wrap buffer = buffer.read (i + 4) := by
  simp only [takeRequest, RingBuffer.peekAll, h]

theorem takeRequest_of_last {wrap : Nat} {buffer : RingBuffer UInt8}
    (h : index terminator (buffer.data.take wrap) = none) :
    takeRequest wrap buffer = match index terminator (buffer.data.drop wrap) with
      | some i => buffer.read (i + 4)
      | none => ([], buffer) := by
  have hfirst : index terminator (buffer.peekAll wrap).1 = none := h
  by_cases hlast : 0 < (buffer.peekAll wrap).2.length
  · simp only [takeRequest, hfirst, if_pos hlast]
    rfl
  · have hnil : buffer.data.drop wrap = [] := List.length_eq_zero_iff.mp (Nat.eq_zero_of_not_pos hlast)
    simp only [takeRequest, hfirst, if_neg hlast, hnil]
    rfl

theorem wholeRequest_of_index {i : Nat} {buffer : RingBuffer UInt8} (h : index terminator buffer.data = some i) :
    wholeRequest buffer = buffer.read (i + 4) := by
  simp only [wholeRequest, h]

theorem index_first_none {wrap i : Nat} {buffer : RingBuffer UInt8} (h : index terminator buffer.data = some i)
    (hw : ¬ i + 4 ≤ wrap) : index terminator (buffer.data.take wrap) = none := by
  rw [Option.eq_none_iff_forall_ne_some]
  intro j hj
  obtain ⟨hij, hfits⟩ := index_take_iff.mp hj
  rw [h] at hij
  cases hij
  exact hw (length_terminator ▸ hfits)

theorem length_read (buffer : RingBuffer UInt8) (n : Nat) (h : n ≤ buffer.length) :
    (buffer.read n).2.length + n = buffer.length := by
  simp only [RingBuffer.read, RingBuffer.length, RingBuffer.data_retrieve, List.length_drop]
  exact Nat.sub_add_cancel h

theorem takeRequest_of_inReach {wrap : Nat} {buffer : RingBuffer UInt8} (h : InReach wrap buffer) :
    takeRequest wrap buffer = wholeRequest buffer := by
  cases hi : index terminator buffer.data with
  | none =>
      rw [takeRequest_of_last (index_take_none hi wrap), index_drop_none hi, wholeRequest, hi]
  | some i =>
      rw [wholeRequest_of_index hi]
      by_cases hw : i + 4 ≤ wrap
      · exact takeRequest_of_first (index_take_iff.mpr ⟨hi, length_terminator.symm ▸ hw⟩)
      · rw [takeRequest_of_last (index_first_none hi hw), (h i hi).resolve_left hw]

theorem inReach_of_rest {wrap : Nat} {buffer : RingBuffer UInt8}
    (h : (takeRequest wrap buffer).2 = (wholeRequest buffer).2) : InReach wrap buffer := by
  intro i hi
  by_cases hw : i + 4 ≤ wrap
  · exact .inl hw
  · refine .inr ?_
    have hfits := index_add_le hi
    rw [length_terminator] at hfits
    have hwhole := length_read buffer (i + 4) hfits
    rw [wholeRequest_of_index hi, takeRequest_of_last (index_first_none hi hw)] at h
    cases hj : index terminator (buffer.data.drop wrap) with
    | none =>
        simp only [hj] at h
        rw [← h] at hwhole
        omega
    | some j =>
        have hlast := index_add_le hj
        rw [length_terminator, List.length_drop] at hlast
        have hread := length_read buffer (j + 4) (by rw [RingBuffer.length]; omega)
        simp only [hj] at h
        rw [h] at hread
        rw [show j = i by omega]

/-- Where the buffer wraps does not matter exactly if the terminator is in reach. -/
theorem layout_independent (wrap : Nat) (c : σ) (buffer : RingBuffer UInt8) :
    upgrade lib u wrap c buffer = (handshake lib u c (wholeRequest buffer).1, (wholeRequest buffer).2) ↔
      InReach wrap buffer := by
  constructor
  · intro h
    have hrest : (upgrade lib u wrap c buffer).2 = (wholeRequest buffer).2 := congrArg Prod.snd h
    exact inReach_of_rest hrest
  · intro h
    rw [upgrade, takeRequest_of_inReach h]

def bare : Upgrader σ ε := ⟨none, none, none, none, none, none, none, none, none⟩

def sampleKey : Bytes := ascii "dGhlIHNhbXBsZSBub25jZQ=="

def sampleHash : Bytes :=
  [0xb3, 0x7a, 0x4f, 0x2c, 0xc0, 0x62, 0x4f, 0x16, 0x90, 0xf6, 0x46, 0x06, 0xcf, 0x38, 0x59, 0x45, 0xb2, 0xbe, 0xc4,
    0xea]

def plainLibrary : Library Unit Unit where
  sha1 s := if s = sampleKey ++ ascii "258EAFA5-E914-47DA-95CA-C5AB0DC85B11" then sampleHash else List.replicate 20 0
  base64 s :=
    if s = sampleHash then ascii "s3pPLMBiTxaQ9kYGzzhZRbK+xOo=" else List.replicate ((s.length + 2) / 3 * 4) 0x41
  statusText _ := []
  scanTokens _ := ([], true)
  selectOptions _ c _ options := (c, options, true)
  writeOptions _ := []
  length_sha1 s := by
    split
    · rfl
    · exact List.length_replicate ..
  length_base64 s := by
    split
    next h =>
      rw [h]
      rfl
    next => exact List.length_replicate ..

def shortRequest : Bytes := ascii "GET / HTTP/1.1\r\nHost: a\r\n\r\n"

/-- The whole request is taken and answered; if the buffer wraps within the terminator then nothing is taken, and if it
wraps before it then the first seven bytes are, without an answer. -/
theorem layout_matters :
    (upgrade plainLibrary bare 27 () (.ofList shortRequest)).2 = .ofList [] ∧
    (upgrade plainLibrary bare 27 () (.ofList shortRequest)).1.toOption.map (·.out) ≠ some [] ∧
    (upgrade plainLibrary bare 25 () (.ofList shortRequest)).2 = .ofList shortRequest ∧
    (upgrade plainLibrary bare 25 () (.ofList shortRequest)).1.toOption.map (·.out) = some [] ∧
    (upgrade plainLibrary bare 20 () (.ofList shortRequest)).2 = .ofList (shortRequest.drop 7) ∧
    (upgrade plainLibrary bare 20 () (.ofList shortRequest)).1.toOption.map (·.out) = some [] := by
  decide +kernel

end Layout

section Headers

def seenBits (host upgrade connection secVersion secKey : Bool) : UInt8 :=
  (if host then headerSeenHost else 0) ||| (if upgrade then headerSeenUpgrade else 0) |||
    (if connection then headerSeenConnection else 0) ||| (if secVersion then headerSeenSecVersion else 0) |||
    (if secKey then headerSeenSecKey else 0)

def seenOf (ks : List Key) : UInt8 :=
  seenBits (.host ∈ ks) (.upgrade ∈ ks) (.connection ∈ ks) (.secVersion ∈ ks) (.secKey ∈ ks)

theorem seenBits_or (a b c d e : Bool) :
    seenBits a b c d e ||| headerSeenHost = seenBits true b c d e ∧
    seenBits a b c d e ||| headerSeenUpgrade = seenBits a true c d e ∧
    seenBits a b c d e ||| headerSeenConnection = seenBits a b true d e ∧
    seenBits a b c d e ||| headerSeenSecVersion = seenBits a b c true e ∧
    seenBits a b c d e ||| headerSeenSecKey = seenBits a b c d true := by
  revert a b c d e
  decide +kernel

theorem seenBits_all (a b c d e : Bool) :
    seenBits a b c d e = headerSeenAll ↔ a = true ∧ b = true ∧ c = true ∧ d = true ∧ e = true := by
  revert a b c d e
  decide +kernel

/-- One of the five cases always applies, so that the last one with its panic does not. -/
theorem missingHeader_seenOf {ks : List Key} (h : seenOf ks ≠ headerSeenAll) :
    ∃ err, missingHeader (seenOf ks) = .ok err := by
  have bits : ∀ a b c d e, seenBits a b c d e ≠ headerSeenAll →
      (missingHeader (seenBits a b c d e)).toOption.isSome = true := by
    decide +kernel
  have hsome : (missingHeader (seenOf ks)).toOption.isSome = true := bits _ _ _ _ _ h
  cases hm : missingHeader (seenOf ks) with
  | ok err => exact ⟨err, rfl⟩
  | error p =>
      rw [hm] at hsome
      cases hsome

def Key.bit : Key → UInt8
  | .host => headerSeenHost
  | .upgrade => headerSeenUpgrade
  | .connection => headerSeenConnection
  | .secVersion => headerSeenSecVersion
  | .secKey => headerSeenSecKey
  | .secProtocol | .secExtensions => 0

theorem seenOf_concat (ks : List Key) (key : Key) : seenOf (ks ++ [key]) = seenOf ks ||| key.bit := by
  obtain ⟨hhost, hupgrade, hconnection, hversion, hkey⟩ := seenBits_or (Key.host ∈ ks) (Key.upgrade ∈ ks)
    (Key.connection ∈ ks) (Key.secVersion ∈ ks) (Key.secKey ∈ ks)
  cases key <;> simp [seenOf, Key.bit, *]

variable {lib u}

variable (lib u) in
/-- What a header does to the bits and to the nonce does not depend on the callbacks. -/
theorem handleHeader_effect (k v : Bytes) (s : Progress σ ε) :
    (handleHeader lib u k v s).headerSeen = s.headerSeen ||| ((keyOf k).map Key.bit).getD 0 ∧
    (handleHeader lib u k v s).nonce =
      if keyOf k = some .secKey ∧ v.length = nonceSize then copyTo s.nonce v else s.nonce := by
  rw [handleHeader]
  cases keyOf k with
  | none =>
      dsimp only
      split <;> exact ⟨UInt8.or_zero.symm, rfl⟩
  | some key =>
      cases key with
      | host =>
          dsimp only
          split <;> exact ⟨rfl, rfl⟩
      | upgrade | connection | secVersion => exact ⟨rfl, rfl⟩
      | secKey =>
          dsimp only
          split
          next hne => exact ⟨rfl, (if_neg fun h => hne h.2).symm⟩
          next heq => exact ⟨rfl, (if_pos ⟨rfl, Decidable.not_not.mp heq⟩).symm⟩
      | secProtocol =>
          dsimp only
          split
          · split <;> exact ⟨UInt8.or_zero.symm, rfl⟩
          · exact ⟨UInt8.or_zero.symm, rfl⟩
      | secExtensions =>
          dsimp only
          split <;> exact ⟨UInt8.or_zero.symm, rfl⟩

structure Sound (s : Progress σ ε) : Prop where
  nonce : s.nonce.length = nonceSize
  seen : ∃ ks, s.headerSeen = seenOf ks

theorem sound_begin (c : σ) : Sound (begin c : Progress σ ε) :=
  ⟨List.length_replicate .., [], rfl⟩

theorem sound_handleHeader (k v : Bytes) {s : Progress σ ε} (h : Sound s) : Sound (handleHeader lib u k v s) := by
  obtain ⟨hnonce, ks, hks⟩ := h
  constructor
  · rw [(handleHeader_effect lib u k v s).2]
    split
    next hv => rw [copyTo_of_length_eq (hv.2.trans hnonce.symm), hv.2]
    next => exact hnonce
  · rw [(handleHeader_effect lib u k v s).1, hks]
    cases keyOf k with
    | none => exact ⟨ks, UInt8.or_zero⟩
    | some key => exact ⟨ks ++ [key], (seenOf_concat ks key).symm⟩

theorem sound_headerLoop (lines : List Bytes) {s : Progress σ ε} (h : Sound s) : Sound (headerLoop lib u lines s) := by
  induction lines generalizing s with
  | nil => exact h
  | cons line lines ih =>
      rw [headerLoop]
      split
      · exact h
      · split
        · exact ⟨h.nonce, h.seen⟩
        · exact ih (sound_handleHeader _ _ h)

end Headers

section Answers

variable {lib u}

/-- A response in keeping with the error: with its status code, or the one for switching protocols. -/
def Answered (o : Outcome σ ε) : Prop :=
  match o.err with
  | none => textHeadUpgrade <+: o.out
  | some err => ascii "HTTP/1.1 " ++ itoa (statusCode err) ++ ascii " " <+: o.out

/-- The request line is that of a GET request of HTTP/1.1 or higher, and OnRequest does not object. -/
def Admitted (u : Upgrader σ ε) (c : σ) (data : Bytes) : Prop :=
  ∃ req, httpParseRequestLine ((split crlf data).headD []) = .ok req ∧ req.major = 1 ∧ 1 ≤ req.minor ∧
    req.method = methodGet ∧ ∀ onRequest, u.onRequest = some onRequest → (onRequest c req.uri).2 = none

theorem ne_nil_of_answered {o : Outcome σ ε} (h : Answered o) : o.out ≠ [] := by
  intro hnil
  rw [Answered, hnil] at h
  split at h
  · exact absurd (List.prefix_nil.mp h) (by decide)
  · rw [List.prefix_nil, List.append_eq_nil_iff] at h
    exact absurd h.2 (by decide)

theorem answered_reject (s : Progress σ ε) (extra : Option HandshakeHeader) (err : HandshakeError) :
    Answered (reject lib u s extra err) := by
  simp only [Answered, reject, httpWriteResponseError_eq, List.append_assoc]
  have hstatus : ascii "HTTP/1.1 " ++ (itoa (statusCode err) ++ ascii " ") <+:
      writeStatusText lib (statusCode err) := by
    simp only [writeStatusText, List.append_assoc, List.prefix_append_right_inj]
    exact List.prefix_append _ _
  exact hstatus.trans (List.prefix_append _ _)

theorem answered_accept {s : Progress σ ε} (h : s.nonce.length = nonceSize) (extra : Option HandshakeHeader) :
    ∃ o, accept lib u s extra = .ok o ∧ Answered o := by
  refine ⟨_, by simp only [accept, httpWriteResponseUpgrade, writeAccept_of_length lib h]; rfl, ?_⟩
  simp only [Answered, List.append_assoc]
  exact List.prefix_append _ _

variable (lib u) in
theorem finish_missing {s : Progress σ ε} {ks : List Key} (h : s.err = none) (hks : s.headerSeen = seenOf ks)
    (hne : seenOf ks ≠ headerSeenAll) : ∃ err, finish lib u s = .ok (reject lib u s none err) := by
  obtain ⟨err, herr⟩ := missingHeader_seenOf hne
  refine ⟨err, ?_⟩
  rw [finish, h, hks]
  dsimp only
  rw [if_pos hne, herr]
  rfl

theorem answered_finish {s : Progress σ ε} (h : Sound s) : ∃ o, finish lib u s = .ok o ∧ Answered o := by
  obtain ⟨hnonce, ks, hks⟩ := h
  cases herr : s.err with
  | some err =>
      rw [finish, herr]
      exact ⟨_, rfl, answered_reject ..⟩
  | none =>
      by_cases hall : seenOf ks = headerSeenAll
      · rw [finish, herr]
        dsimp only
        rw [if_neg (not_not_intro (hks.trans hall))]
        split
        · exact answered_accept hnonce none
        · split
          · refine answered_accept ?_ _
            exact hnonce
          · exact ⟨_, rfl, answered_reject ..⟩
      · obtain ⟨err, hfinish⟩ := finish_missing lib u herr hks hall
        exact ⟨_, hfinish, answered_reject ..⟩

theorem checkRequest_none_iff {c : σ} {req : HttpRequestLine} : (checkRequest u c req).2 = none ↔
    req.major = 1 ∧ 1 ≤ req.minor ∧ req.method = methodGet ∧
      ∀ onRequest, u.onRequest = some onRequest → (onRequest c req.uri).2 = none := by
  rw [checkRequest]
  split
  next h =>
    refine iff_of_false nofun ?_
    rintro ⟨hmajor, hminor, -⟩
    exact h.elim (fun hne => hne hmajor) (Int64.not_lt.mpr hminor)
  next h =>
    obtain ⟨hmajor, hminor⟩ := not_or.mp h
    split
    next hmethod => exact iff_of_false nofun fun hall => hmethod hall.2.2.1
    next hmethod =>
      have hline : req.major = 1 ∧ 1 ≤ req.minor ∧ req.method = methodGet :=
        ⟨Decidable.not_not.mp hmajor, Int64.not_lt.mp hminor, Decidable.not_not.mp hmethod⟩
      split
      next hnone => simp [hline, hnone]
      next onRequest hsome => simp [hline, hsome]

variable (lib u) in
/-- Either the request line is admitted and the headers are read, or there is an error and no response. -/
theorem handshake_cases (c : σ) (data : Bytes) :
    (Admitted u c data ∧
      ∃ c', handshake lib u c data = finish lib u (headerLoop lib u (split crlf data).tail (begin c'))) ∨
    (¬ Admitted u c data ∧ ∃ err c', handshake lib u c data = .ok ⟨[], ⟨[], []⟩, some err, c'⟩) := by
  rw [handshake, Admitted]
  cases hsplit : split crlf data with
  | nil => exact absurd hsplit (split_ne_nil (by decide) data)
  | cons requestLine lines =>
      dsimp only [List.headD_cons, List.tail_cons]
      cases hline : httpParseRequestLine requestLine with
      | error err =>
          refine .inr ⟨?_, err, c, rfl⟩
          rintro ⟨req, hreq, -⟩
          cases hreq
      | ok req =>
          dsimp only
          split
          next c' err hcheck =>
            refine .inr ⟨?_, err, c', rfl⟩
            rintro ⟨req', hreq, hall⟩
            cases hreq
            rw [← checkRequest_none_iff, hcheck] at hall
            cases hall
          next c' hcheck =>
            exact .inl ⟨⟨req, rfl, checkRequest_none_iff.mp (by rw [hcheck])⟩, c', rfl⟩

/-- UnPacket of a connection that is not upgraded hands on what Upgrade returns. -/
theorem unPacket_upgrader (order : Cipher.ByteOrder) (pooled : Scratch) (wrap : RingBuffer UInt8 → Nat) (c : σ)
    (buffer : RingBuffer UInt8) {o : Outcome σ ε} (h : (upgrade lib u (wrap buffer) c buffer).1 = .ok o) :
    Decoder.unPacket order (upgrader lib u wrap c) pooled none buffer =
      ((none, o.out), if o.err.isSome then none else some pooled, (takeRequest (wrap buffer) buffer).2) := by
  have hpair : upgrade lib u (wrap buffer) c buffer = (.ok o, (takeRequest (wrap buffer) buffer).2) := Prod.ext h rfl
  simp only [Decoder.unPacket, upgrader, hpair]

/-- Upgrade does not panic, and it returns a response exactly if it admits the request line; then the response is in
keeping with the error. -/
theorem request_answered (lib : Library σ ε) (u : Upgrader σ ε) (wrap : Nat) (c : σ) (buffer : RingBuffer UInt8) :
    ∃ o, (upgrade lib u wrap c buffer).1 = .ok o ∧
      (o.out ≠ [] ↔ Admitted u c (takeRequest wrap buffer).1) ∧
      (Admitted u c (takeRequest wrap buffer).1 → Answered o) := by
  obtain ⟨hadmitted, c', hfinish⟩ | ⟨hrefused, err, c', herr⟩ :=
    handshake_cases lib u c (takeRequest wrap buffer).1
  · obtain ⟨o, ho, hanswered⟩ := answered_finish (sound_headerLoop _ (sound_begin c'))
    exact ⟨o, hfinish.trans ho, iff_of_true (ne_nil_of_answered hanswered) hadmitted, fun _ => hanswered⟩
  · exact ⟨_, herr, iff_of_false (fun hne => hne rfl) hrefused, fun h => absurd h hrefused⟩

def postRequest : Bytes := ascii "POST / HTTP/1.1\r\n\r\n"

/-- The whole request is taken from the input, and nothing is returned to send. -/
theorem post_unanswered :
    takeRequest postRequest.length (.ofList postRequest) = (postRequest, .ofList []) ∧
    (upgrade plainLibrary bare postRequest.length () (.ofList postRequest)).1.toOption.map (fun o => (o.out, o.err)) =
      some ([], some (.sentinel .badMethod)) ∧
    Decoder.unPacket .little (upgrader plainLibrary bare RingBuffer.length ()) ⟨List.replicate 12 0, rfl⟩ none
      (.ofList postRequest) = ((none, []), none, .ofList []) := by
  have htaken : takeRequest postRequest.length (.ofList postRequest) = (postRequest, .ofList []) := by
    decide +kernel
  have hresult : (upgrade plainLibrary bare postRequest.length () (.ofList postRequest)).1.toOption.map
      (fun o => (o.out, o.err)) = some ([], some (.sentinel .badMethod)) := by
    decide +kernel
  refine ⟨htaken, hresult, ?_⟩
  cases hup : (upgrade plainLibrary bare postRequest.length () (.ofList postRequest)).1 with
  | error p =>
      rw [hup] at hresult
      cases hresult
  | ok o =>
      rw [hup] at hresult
      obtain ⟨hout, herr⟩ := Prod.mk.inj (Option.some.inj hresult)
      have hunpack :=
        unPacket_upgrader .little ⟨List.replicate 12 0, rfl⟩ RingBuffer.length () (.ofList postRequest) hup
      simp only [hout, herr] at hunpack
      exact hunpack.trans (by rw [RingBuffer.length, RingBuffer.data_ofList, htaken]; rfl)

end Answers

end Gev.Websocket.Upgrade
