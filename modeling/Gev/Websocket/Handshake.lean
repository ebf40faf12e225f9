import Gev.Websocket.Upgrade

namespace Gev.Websocket.Handshake

open Gev.Connection.State Gev.Lib Gev.Lib.RingBuffers Gev.Lib.Substrings
open Gev.Websocket.Http Gev.Websocket.Upgrade

def keyName : Key → Bytes
  | .host => headerHost
  | .upgrade => headerUpgrade
  | .connection => headerConnection
  | .secVersion => headerSecVersion
  | .secKey => headerSecKey
  | .secProtocol => headerSecProtocol
  | .secExtensions => headerSecExtensions

def required : List Key := [.host, .upgrade, .connection, .secVersion, .secKey]

def Legal : Key → Bytes → Prop
  | .host, _ => True
  | .upgrade, v => v = ascii "websocket"
  | .connection, v => v = ascii "Upgrade" ∨ v = ascii "upgrade"
  | .secVersion, v => v = ascii "13"
  | .secKey, v => v.length = 24
  | .secProtocol, _ => True
  | .secExtensions, _ => True

def headerLines (data : Bytes) : List Bytes := (split crlf data).tail.takeWhile (· ≠ [])

def nameOf (line : Bytes) : Bytes := btrim (line.take (line.idxOf colon))

def valueOf (line : Bytes) : Bytes := btrim (line.drop (line.idxOf colon + 1))

def Named (key : Key) (line : Bytes) : Prop := (nameOf line).map asciiLower = (keyName key).map asciiLower

instance (key : Key) (line : Bytes) : Decidable (Named key line) := inferInstanceAs (Decidable (_ = _))

def values (key : Key) (lines : List Bytes) : List Bytes := (lines.filter fun line => Named key line).map valueOf

/-- A request for an upgrade as the server wants it. -/
structure Acceptable (data : Bytes) : Prop where
  requestLine : ∃ uri version minor,
    (split crlf data).headD [] = ascii "GET" ++ space :: (uri ++ space :: version) ∧ space ∉ uri ∧
      httpParseVersion version = some (1, minor) ∧ 1 ≤ minor
  colons : ∀ line ∈ headerLines data, colon ∈ line
  headers : ∀ key ∈ required, values key (headerLines data) ≠ [] ∧ ∀ v ∈ values key (headerLines data), Legal key v

def switchingProtocols (accept : Bytes) : Bytes :=
  ascii "HTTP/1.1 101 Switching Protocols\r\nUpgrade: websocket\r\nConnection: Upgrade\r\nSec-WebSocket-Accept: " ++
    accept ++ ascii "\r\n\r\n"

section Names

theorem keyOf_eq_some_iff {k : Bytes} {key : Key} : keyOf k = some key ↔ k = key.canonical := by
  constructor
  · intro h
    have hfound := List.find?_some (show keys.find? (fun key => key.canonical = k) = some key from h)
    exact (of_decide_eq_true hfound).symm
  · rintro rfl
    cases key <;> decide +kernel

theorem canonicalizeHeaderKey_keyName (key : Key) : canonicalizeHeaderKey (keyName key) = key.canonical := by
  cases key <;> decide +kernel

theorem keyOf_nameOf {line : Bytes} {key : Key} :
    keyOf (canonicalizeHeaderKey (nameOf line)) = some key ↔ Named key line := by
  rw [keyOf_eq_some_iff, ← canonicalizeHeaderKey_keyName, canonicalizeHeaderKey_eq_iff, Named]

theorem keyOf_canonicalizeHeaderKey {k : Bytes} {key : Key} :
    keyOf (canonicalizeHeaderKey k) = some key ↔ EqualFold k key.canonical := by
  have hfixed : canonicalizeHeaderKey key.canonical = key.canonical := by
    rw [← canonicalizeHeaderKey_keyName, canonicalizeHeaderKey_idem]
  rw [keyOf_eq_some_iff, ← map_asciiLower_eq_iff, ← canonicalizeHeaderKey_eq_iff, hfixed]

theorem keyOf_httpParseHeaderLine {line : Bytes} {key : Key} :
    (∃ k v, httpParseHeaderLine line = some (k, v) ∧ keyOf k = some key) ↔
      colon ∈ line ∧ EqualFold (nameOf line) key.canonical := by
  by_cases hcolon : colon ∈ line
  · rw [httpParseHeaderLine_of_mem hcolon, ← keyOf_canonicalizeHeaderKey]
    constructor
    · rintro ⟨k, v, hline, hk⟩
      cases hline
      exact ⟨hcolon, hk⟩
    · rintro ⟨-, hk⟩
      exact ⟨_, _, rfl, hk⟩
  · rw [httpParseHeaderLine_of_notMem hcolon]
    exact iff_of_false (fun ⟨_, _, hline, _⟩ => Option.some_ne_none _ hline.symm) fun h => hcolon h.1

/-- Canonical keys are equal exactly if the names are, ignoring case, and the switch of Upgrade recognises a header
exactly by its name ignoring case. -/
theorem canonicalizeHeaderKey_decides (j k : Bytes) :
    (canonicalizeHeaderKey j = canonicalizeHeaderKey k ↔ EqualFold j k) ∧
    EqualFold k (canonicalizeHeaderKey k) ∧
    canonicalizeHeaderKey (canonicalizeHeaderKey k) = canonicalizeHeaderKey k ∧
    (∀ key, keyOf (canonicalizeHeaderKey k) = some key ↔ EqualFold k key.canonical) ∧
    ∀ line key, (∃ name v, httpParseHeaderLine line = some (name, v) ∧ keyOf name = some key) ↔
      colon ∈ line ∧ EqualFold (nameOf line) key.canonical := by
  refine ⟨?_, equalFold_canonicalizeHeaderKey k, canonicalizeHeaderKey_idem k, ?_, ?_⟩
  · rw [canonicalizeHeaderKey_eq_iff, map_asciiLower_eq_iff]
  · intro key
    exact keyOf_canonicalizeHeaderKey
  · intro line key
    exact keyOf_httpParseHeaderLine

end Names

section Loop

variable {σ ε : Type} {lib : Library σ ε}

def Fine (line : Bytes) : Prop := colon ∈ line ∧ ∀ key, Named key line → Legal key (valueOf line)

theorem err_of_check {p : Prop} [Decidable p] {old : Option HandshakeError} (e : HandshakeError) (h : old = none) :
    (if p then some e else old) = none ↔ ¬ p := by
  split
  next hp => exact iff_of_false nofun (not_not_intro hp)
  next hp => exact iff_of_true h hp

variable (lib) in
theorem handleHeader_bare (k v : Bytes) {s : Progress σ ε} (h : s.err = none) :
    ((handleHeader lib bare k v s).err = none ↔ ∀ key, keyOf k = some key → Legal key v) ∧
      (handleHeader lib bare k v s).hs = s.hs := by
  rw [handleHeader]
  cases keyOf k with
  | none => exact ⟨iff_of_true h fun key hkey => absurd hkey (Option.some_ne_none key).symm, rfl⟩
  | some key =>
      simp only [Option.some.injEq, forall_eq']
      cases key with
      | host | secExtensions => exact ⟨iff_of_true h trivial, rfl⟩
      | upgrade | secVersion => exact ⟨(err_of_check _ h).trans Decidable.not_not, rfl⟩
      | connection =>
          refine ⟨(err_of_check _ h).trans ?_, rfl⟩
          rw [not_and_or, Decidable.not_not, Decidable.not_not]
          rfl
      | secKey =>
          dsimp only
          split
          next hne => exact ⟨iff_of_false (Option.some_ne_none _) hne, rfl⟩
          next heq =>
            have hv : v.length = nonceSize := Decidable.not_not.mp heq
            exact ⟨iff_of_true h hv, rfl⟩
      | secProtocol =>
          dsimp only [bare]
          rw [ite_self]
          exact ⟨iff_of_true h trivial, rfl⟩

theorem headerLoop_of_err {u : Upgrader σ ε} (lines : List Bytes) {s : Progress σ ε} (h : s.err ≠ none) :
    headerLoop lib u lines s = s := by
  cases lines with
  | nil => rfl
  | cons line lines => rw [headerLoop, if_pos (.inl (Option.isSome_iff_ne_none.mpr h))]

theorem headerLoop_cons {u : Upgrader σ ε} {line : Bytes} (lines : List Bytes) {s : Progress σ ε} (h : s.err = none)
    (hline : line ≠ []) (hcolon : colon ∈ line) : headerLoop lib u (line :: lines) s =
      headerLoop lib u lines (handleHeader lib u (canonicalizeHeaderKey (nameOf line)) (valueOf line) s) := by
  have hgo : ¬ (s.err.isSome = true ∨ line.length = 0) := by simp [h, hline]
  rw [headerLoop, if_neg hgo, httpParseHeaderLine_of_mem hcolon]
  rfl

variable (lib) in
theorem handleLine_err_iff {line : Bytes} (hcolon : colon ∈ line) {s : Progress σ ε} (h : s.err = none) :
    (handleHeader lib bare (canonicalizeHeaderKey (nameOf line)) (valueOf line) s).err = none ↔ Fine line := by
  rw [(handleHeader_bare lib _ _ h).1, Fine, and_iff_right hcolon]
  exact forall_congr' fun key => imp_congr_left keyOf_nameOf

variable (lib) in
/-- The loop ends without an error exactly if there is nothing wrong with any line before the first empty one. -/
theorem headerLoop_err_iff (lines : List Bytes) {s : Progress σ ε} (h : s.err = none) :
    (headerLoop lib bare lines s).err = none ↔ ∀ line ∈ lines.takeWhile (· ≠ []), Fine line := by
  induction lines generalizing s with
  | nil => exact iff_of_true h (List.forall_mem_nil _)
  | cons line lines ih =>
      by_cases hline : line = []
      · rw [headerLoop, if_pos (.inr (List.length_eq_zero_iff.mpr hline)), List.takeWhile_cons_of_neg (by simpa)]
        exact iff_of_true h (List.forall_mem_nil _)
      · rw [List.takeWhile_cons_of_pos (by simpa), List.forall_mem_cons]
        by_cases hcolon : colon ∈ line
        · rw [headerLoop_cons lines h hline hcolon]
          by_cases hfine : Fine line
          · rw [ih ((handleLine_err_iff lib hcolon h).mpr hfine), and_iff_right hfine]
          · have herr := mt (handleLine_err_iff lib hcolon h).mp hfine
            rw [headerLoop_of_err lines herr]
            exact iff_of_false herr fun hall => hfine hall.1
        · have hgo : ¬ (s.err.isSome = true ∨ line.length = 0) := by simp [h, hline]
          rw [headerLoop, if_neg hgo, httpParseHeaderLine_of_notMem hcolon]
          exact iff_of_false (Option.some_ne_none _) fun hall => hcolon hall.1.1

def keysIn (lines : List Bytes) : List Key :=
  lines.filterMap fun line => keyOf (canonicalizeHeaderKey (nameOf line))

structure Reads (lines : List Bytes) (s t : Progress σ ε) : Prop where
  hs : t.hs = s.hs
  seen : ∀ ks, s.headerSeen = seenOf ks → t.headerSeen = seenOf (ks ++ keysIn lines)
  size : s.nonce.length = nonceSize → t.nonce.length = nonceSize
  nonce : s.nonce.length = nonceSize → t.nonce = (values .secKey lines).getLast?.getD s.nonce

theorem reads_nil (s : Progress σ ε) : Reads [] s s :=
  ⟨rfl, fun ks h => h.trans (by rw [keysIn, List.filterMap_nil, List.append_nil]), id, fun _ => rfl⟩

theorem Reads.append {l₁ l₂ : List Bytes} {r s t : Progress σ ε} (h₁ : Reads l₁ r s) (h₂ : Reads l₂ s t) :
    Reads (l₁ ++ l₂) r t where
  hs := h₂.hs.trans h₁.hs
  seen := by
    intro ks hks
    rw [h₂.seen _ (h₁.seen ks hks), keysIn, keysIn, keysIn, List.filterMap_append, List.append_assoc]
  size h := h₂.size (h₁.size h)
  nonce := by
    intro h
    rw [h₂.nonce (h₁.size h), h₁.nonce h, values, values, values, List.filter_append, List.map_append,
      List.getLast?_append, Option.getD_or]

theorem values_singleton (key : Key) (line : Bytes) :
    values key [line] = if Named key line then [valueOf line] else [] := by
  by_cases h : Named key line <;> simp [values, h]

variable (lib) in
theorem reads_handleLine {line : Bytes} (hfine : Fine line) {s : Progress σ ε} (h : s.err = none) :
    Reads [line] s (handleHeader lib bare (canonicalizeHeaderKey (nameOf line)) (valueOf line) s) := by
  obtain ⟨hseen, hnonce⟩ := handleHeader_effect lib bare (canonicalizeHeaderKey (nameOf line)) (valueOf line) s
  have hkey : (keyOf (canonicalizeHeaderKey (nameOf line)) = some .secKey ∧ (valueOf line).length = nonceSize) ↔
      Named .secKey line := by
    rw [keyOf_nameOf]
    exact and_iff_left_of_imp (hfine.2 .secKey)
  have hvalue : s.nonce.length = nonceSize →
      (handleHeader lib bare (canonicalizeHeaderKey (nameOf line)) (valueOf line) s).nonce =
        if Named .secKey line then valueOf line else s.nonce := by
    intro hsize
    rw [hnonce, if_congr hkey rfl rfl]
    split
    next hnamed => exact copyTo_of_length_eq (((hkey.mpr hnamed).2).trans hsize.symm)
    next => rfl
  refine ⟨(handleHeader_bare lib _ _ h).2, ?_, ?_, ?_⟩
  · intro ks hks
    rw [hseen, hks, keysIn, List.filterMap_cons, List.filterMap_nil]
    cases keyOf (canonicalizeHeaderKey (nameOf line)) with
    | none => rw [List.append_nil, Option.map_none, Option.getD_none, UInt8.or_zero]
    | some key => exact (seenOf_concat ks key).symm
  · intro hsize
    rw [hvalue hsize]
    split
    next hnamed => exact (hkey.mpr hnamed).2
    next => exact hsize
  · intro hsize
    rw [hvalue hsize, values_singleton]
    split <;> rfl

variable (lib) in
theorem headerLoop_reads (lines : List Bytes) {s : Progress σ ε} (h : s.err = none)
    (hfine : ∀ line ∈ lines.takeWhile (· ≠ []), Fine line) :
    Reads (lines.takeWhile (· ≠ [])) s (headerLoop lib bare lines s) := by
  induction lines generalizing s with
  | nil => exact reads_nil s
  | cons line lines ih =>
      by_cases hline : line = []
      · rw [headerLoop, if_pos (.inr (List.length_eq_zero_iff.mpr hline)), List.takeWhile_cons_of_neg (by simpa)]
        exact reads_nil s
      · rw [List.takeWhile_cons_of_pos (by simpa), List.forall_mem_cons] at hfine
        obtain ⟨hhead, htail⟩ := hfine
        rw [List.takeWhile_cons_of_pos (by simpa), headerLoop_cons lines h hline hhead.1]
        have hstep := reads_handleLine lib hhead h
        exact hstep.append (ih ((handleLine_err_iff lib hhead.1 h).mpr hhead) htail)

end Loop

section Acceptance

variable {σ ε : Type} {lib : Library σ ε}

theorem mem_values {key : Key} {lines : List Bytes} {v : Bytes} :
    v ∈ values key lines ↔ ∃ line ∈ lines, Named key line ∧ valueOf line = v := by
  simp [values, and_assoc]

theorem mem_keysIn {key : Key} {lines : List Bytes} : key ∈ keysIn lines ↔ values key lines ≠ [] := by
  simp only [keysIn, List.mem_filterMap, keyOf_nameOf]
  constructor
  · rintro ⟨line, hline, hnamed⟩
    exact List.ne_nil_of_mem (mem_values.mpr ⟨line, hline, hnamed, rfl⟩)
  · intro hne
    obtain ⟨v, hv⟩ := List.exists_mem_of_ne_nil _ hne
    obtain ⟨line, hline, hnamed, -⟩ := mem_values.mp hv
    exact ⟨line, hline, hnamed⟩

theorem seenOf_all {ks : List Key} : seenOf ks = headerSeenAll ↔ ∀ key ∈ required, key ∈ ks := by
  rw [seenOf, seenBits_all]
  simp [required]

theorem fine_iff {lines : List Bytes} : (∀ line ∈ lines, Fine line) ↔
    (∀ line ∈ lines, colon ∈ line) ∧ ∀ key ∈ required, ∀ v ∈ values key lines, Legal key v := by
  constructor
  · intro h
    refine ⟨fun line hline => (h line hline).1, ?_⟩
    intro key _ v hv
    obtain ⟨line, hline, hnamed, rfl⟩ := mem_values.mp hv
    exact (h line hline).2 key hnamed
  · rintro ⟨hcolons, hlegal⟩ line hline
    refine ⟨hcolons line hline, ?_⟩
    intro key hnamed
    by_cases hkey : key ∈ required
    · exact hlegal key hkey _ (mem_values.mpr ⟨line, hline, hnamed, rfl⟩)
    · cases key with
      | secProtocol | secExtensions => trivial
      | host | upgrade | connection | secVersion | secKey => exact absurd (by decide) hkey

theorem admitted_bare_iff {c : σ} {data : Bytes} : Admitted (bare : Upgrader σ ε) c data ↔
    ∃ uri version minor, (split crlf data).headD [] = ascii "GET" ++ space :: (uri ++ space :: version) ∧
      space ∉ uri ∧ httpParseVersion version = some (1, minor) ∧ 1 ≤ minor := by
  constructor
  · rintro ⟨req, hreq, hmajor, hminor, hmethod, -⟩
    obtain ⟨version, hline, -, huri, hversion⟩ := httpParseRequestLine_ok_iff.mp hreq
    rw [hmethod] at hline
    rw [hmajor] at hversion
    exact ⟨req.uri, version, req.minor, hline, huri, hversion, hminor⟩
  · rintro ⟨uri, version, minor, hline, huri, hversion, hminor⟩
    refine ⟨⟨methodGet, uri, 1, minor⟩, ?_, rfl, hminor, rfl, nofun⟩
    have hget : space ∉ methodGet := by decide
    exact httpParseRequestLine_ok_iff.mpr ⟨version, hline, hget, huri, hversion⟩

theorem accept_bare {s : Progress σ ε} (hs : s.hs = ⟨[], []⟩) (hn : s.nonce.length = nonceSize) :
    accept lib bare s none =
      .ok ⟨switchingProtocols (lib.base64 (lib.sha1 (s.nonce ++ magic))), s.hs, none, s.conn⟩ := by
  have hhead : textHeadUpgrade ++ (headerSecAccept ++ colonAndSpace) = ascii
      "HTTP/1.1 101 Switching Protocols\r\nUpgrade: websocket\r\nConnection: Upgrade\r\nSec-WebSocket-Accept: " := by
    decide +kernel
  have hend : crlf ++ crlf = ascii "\r\n\r\n" := by decide
  have hout : httpWriteResponseUpgrade lib s.nonce s.hs [] =
      .ok (switchingProtocols (lib.base64 (lib.sha1 (s.nonce ++ magic)))) := by
    rw [httpWriteResponseUpgrade, writeAccept_of_length lib hn, hs, switchingProtocols, ← hhead, ← hend]
    simp [pure, Except.pure, bind, Except.bind, httpWriteHeader, httpWriteHeaderKey]
  rw [accept, show writeHeaders bare.header none = [] from rfl, hout]
  rfl

theorem finish_bare_err {s : Progress σ ε} {e : HandshakeError} (h : s.err = some e) :
    finish lib bare s = .ok (reject lib bare s none e) := by
  rw [finish, h]

theorem finish_bare_all {s : Progress σ ε} {ks : List Key} (h : s.err = none) (hks : s.headerSeen = seenOf ks)
    (hall : ∀ key ∈ required, key ∈ ks) : finish lib bare s = accept lib bare s none := by
  rw [finish, h]
  dsimp only
  rw [if_neg (not_not_intro (hks.trans (seenOf_all.mpr hall)))]
  rfl

theorem acceptable_iff {c : σ} {data : Bytes} : Acceptable data ↔ Admitted (bare : Upgrader σ ε) c data ∧
    (∀ line ∈ headerLines data, Fine line) ∧ ∀ key ∈ required, key ∈ keysIn (headerLines data) := by
  rw [admitted_bare_iff, fine_iff]
  simp only [mem_keysIn]
  constructor
  · intro h
    exact ⟨h.requestLine, ⟨h.colons, fun key hkey => (h.headers key hkey).2⟩, fun key hkey => (h.headers key hkey).1⟩
  · rintro ⟨hline, ⟨hcolons, hlegal⟩, hall⟩
    exact ⟨hline, hcolons, fun key hkey => ⟨hall key hkey, hlegal key hkey⟩⟩

variable (lib) in
theorem handshake_bare (c : σ) (data : Bytes) : ∃ o, handshake lib bare c data = .ok o ∧
    (o.err = none ↔ Acceptable data) ∧
    (o.err = none → ∃ k, (values .secKey (headerLines data)).getLast? = some k ∧
      o.out = switchingProtocols (lib.base64 (lib.sha1 (k ++ magic)))) := by
  rw [acceptable_iff (σ := σ) (ε := ε) (c := c)]
  obtain ⟨hadmitted, c', hfinish⟩ | ⟨hrefused, err, c', herr⟩ := handshake_cases lib bare c data
  · rw [hfinish]
    by_cases hfine : ∀ line ∈ headerLines data, Fine line
    · have hreads := headerLoop_reads lib (split crlf data).tail (s := begin c') rfl hfine
      have herr := (headerLoop_err_iff lib (split crlf data).tail (s := begin c') rfl).mpr hfine
      have hseen := hreads.seen [] rfl
      by_cases hall : ∀ key ∈ required, key ∈ keysIn (headerLines data)
      · have hsize := hreads.size (List.length_replicate ..)
        have hnonce := hreads.nonce (List.length_replicate ..)
        refine ⟨_, (finish_bare_all herr hseen hall).trans (accept_bare hreads.hs hsize),
          iff_of_true rfl ⟨hadmitted, hfine, hall⟩, ?_⟩
        intro _
        obtain ⟨k, hk⟩ := Option.ne_none_iff_exists'.mp
          (mt List.getLast?_eq_none_iff.mp (mem_keysIn.mp (hall .secKey (by decide))))
        refine ⟨k, hk, ?_⟩
        have hlast : (headerLoop lib bare (split crlf data).tail (begin c')).nonce = k := by
          rw [hnonce]
          exact congrArg (Option.getD · _) hk
        rw [hlast]
      · obtain ⟨e, he⟩ := finish_missing lib bare herr hseen (mt seenOf_all.mp hall)
        exact ⟨_, he, iff_of_false nofun fun h => hall h.2.2, nofun⟩
    · have herr := mt (headerLoop_err_iff lib (split crlf data).tail (s := begin c') rfl).mp hfine
      obtain ⟨e, he⟩ := Option.ne_none_iff_exists'.mp herr
      exact ⟨_, finish_bare_err he, iff_of_false nofun fun h => hfine h.2.1, nofun⟩
  · exact ⟨_, herr, iff_of_false nofun fun h => hrefused h.1, nofun⟩

/-- Without callbacks a request in the first segment is accepted exactly if it is as it should be. The response is then
made from the last key. -/
theorem handshake_accepted (lib : Library σ ε) (c : σ) (buffer : RingBuffer UInt8) (wrap i : Nat)
    (h : index terminator (buffer.peekAll wrap).1 = some i) :
    ∃ o, (upgrade lib bare wrap c buffer).1 = .ok o ∧
      (o.err = none ↔ Acceptable ((buffer.peekAll wrap).1.take (i + 4))) ∧
      (o.err = none → ∃ k, (values .secKey (headerLines ((buffer.peekAll wrap).1.take (i + 4)))).getLast? = some k ∧
        o.out = switchingProtocols (lib.base64 (lib.sha1 (k ++ ascii "258EAFA5-E914-47DA-95CA-C5AB0DC85B11")))) := by
  have hfits := (index_take_iff.mp h).2
  rw [length_terminator] at hfits
  have htaken : (takeRequest wrap buffer).1 = (buffer.peekAll wrap).1.take (i + 4) := by
    rw [takeRequest_of_first h, RingBuffer.peekAll, List.take_take, Nat.min_eq_left hfits, RingBuffer.read]
  rw [upgrade, ← htaken]
  exact handshake_bare lib c (takeRequest wrap buffer).1

def upgradeRequest : Bytes := ascii
  "GET /chat HTTP/1.1\r\nsec-websocket-key: dGhlIHNhbXBsZSBub25jZQ==\r\nHost: a\r\nSec-WebSocket-Version: 13\r\n" ++
    ascii "CONNECTION: upgrade\r\nUpgrade: websocket\r\n\r\n"

theorem handshake_accepted_lowercase :
    index terminator ((RingBuffer.ofList upgradeRequest).peekAll 200).1 = some 140 ∧
    ∃ o, (upgrade plainLibrary bare 200 () (.ofList upgradeRequest)).1 = .ok o ∧ o.err = none ∧
      Acceptable (((RingBuffer.ofList upgradeRequest).peekAll 200).1.take 144) ∧
      o.out = switchingProtocols (ascii "s3pPLMBiTxaQ9kYGzzhZRbK+xOo=") := by
  have hfound : index terminator ((RingBuffer.ofList upgradeRequest).peekAll 200).1 = some 140 := by decide +kernel
  have herr : (upgrade plainLibrary bare 200 () (.ofList upgradeRequest)).1.toOption.map (·.err) = some none := by
    decide +kernel
  refine ⟨hfound, ?_⟩
  obtain ⟨o, ho, haccepted, hout⟩ := handshake_accepted plainLibrary () (.ofList upgradeRequest) 200 140 hfound
  rw [ho] at herr
  have hnone : o.err = none := Option.some.inj herr
  obtain ⟨k, hlast, hk⟩ := hout hnone
  have hkey : (values .secKey (headerLines (((RingBuffer.ofList upgradeRequest).peekAll 200).1.take 144))).getLast? =
      some sampleKey := by decide +kernel
  obtain rfl : sampleKey = k := Option.some.inj (hkey.symm.trans hlast)
  have hsample : plainLibrary.base64 (plainLibrary.sha1 (sampleKey ++ ascii "258EAFA5-E914-47DA-95CA-C5AB0DC85B11")) =
      ascii "s3pPLMBiTxaQ9kYGzzhZRbK+xOo=" := by simp [plainLibrary]
  rw [hsample] at hk
  exact ⟨o, ho, hnone, haccepted.mp hnone, hk⟩

end Acceptance

end Gev.Websocket.Handshake
