import Gev.Websocket.Wrap

namespace Gev.Websocket.Replies

open Gev.Connection.State Gev.Lib Gev.Lib.Slices Gev.Lib.RingBuffers
open Gev.Websocket.Framing Gev.Websocket.Cipher Gev.Websocket.Control Gev.Websocket.Wrap

section Legal

/-- The bytes of an unmasked frame in one piece whose length fits into the second byte. -/
def shortFrame (op : UInt8) (payload : Bytes) : Bytes := (bit0 ||| op) :: UInt8.ofNat payload.length :: payload

def LegalStatus (code : Nat) : Prop :=
  1000 ≤ code ∧ code ≤ 1003 ∨ 1007 ≤ code ∧ code ≤ 1011 ∨ 3000 ≤ code ∧ code ≤ 4999

def LegalBody (payload : Bytes) : Prop :=
  ∃ code reason, payload = BigEndian.put 2 code ++ reason ∧ LegalStatus code ∧ validString reason = true

structure LegalControl (op : UInt8) (payload : Bytes) : Prop where
  opCode : op ∈ [opClose, opPing, opPong]
  size : payload.length ≤ maxControlFramePayloadSize
  close : op = opClose → payload = [] ∨ LegalBody payload

/-- No bytes, or those of one control frame. -/
def LegalReply (out : Bytes) : Prop := out = [] ∨ ∃ op payload, LegalControl op payload ∧ out = shortFrame op payload

theorem legalReply_shortFrame {op : UInt8} (hop : op ∈ [opClose, opPing, opPong]) (payload : Bytes) :
    LegalReply (shortFrame op payload) ↔ LegalControl op payload := by
  constructor
  · rintro (hnil | ⟨op', payload', hlegal, heq⟩)
    · cases hnil
    · have hinj : ∀ a ∈ [opClose, opPing, opPong], ∀ b ∈ [opClose, opPing, opPong],
          bit0 ||| a = bit0 ||| b → a = b := by decide +kernel
      obtain ⟨hfirst, hrest⟩ := List.cons.inj heq
      obtain ⟨-, hpayload⟩ := List.cons.inj hrest
      rw [hinj op hop op' hlegal.opCode hfirst, hpayload]
      exact hlegal
  · intro hlegal
    exact .inr ⟨op, payload, hlegal, rfl⟩

theorem not_legalReply_long {b0 b1 : UInt8} {rest : Bytes} (h : 126 ≤ b1.toNat) : ¬ LegalReply (b0 :: b1 :: rest) := by
  rintro (hnil | ⟨op, payload, hlegal, heq⟩)
  · cases hnil
  · have hsize : payload.length ≤ 125 := hlegal.size
    have hb1 : b1 = UInt8.ofNat payload.length := (List.cons.inj (List.cons.inj heq).2).1
    rw [hb1, UInt8.toNat_ofNat'] at h
    omega

end Legal

section Frames

theorem frameToBytes_short (op : UInt8) {p : Bytes} (h : p.length ≤ maxControlFramePayloadSize) :
    (frameToBytes (newFrame op true p)).1 = shortFrame op p := by
  have hle : (p.length : Int) ≤ len7 := Int.ofNat_le.mpr h
  have hmod : ((p.length : Int) % 256).toNat = p.length := by
    simp only [maxControlFramePayloadSize] at h
    omega
  have hflag : ∀ b : UInt8, b ||| 0 = b := fun b => UInt8.or_zero
  simp [frameToBytes, newFrame, writeHeader, hle, hmod, Header.byte0, Header.maskBytes, shortFrame, hflag]

theorem newFrame_valid {op : UInt8} (hop : op < 16) {p : Bytes} (hmax : (p.length : Int) ≤ len64) :
    (newFrame op true p).header.Valid where
  rsv := show (0 : UInt8) < 8 by decide
  opCode := hop
  nonneg := Int.natCast_nonneg _
  bounded := hmax
  unmasked := fun _ => rfl

theorem frameToBytes_long {op : UInt8} (hop : op < 16) {p : Bytes} (h : maxControlFramePayloadSize < p.length)
    (hmax : (p.length : Int) ≤ len64) :
    ∃ b0 b1 rest, (frameToBytes (newFrame op true p)).1 = b0 :: b1 :: rest ∧ 126 ≤ b1.toNat := by
  have hv := newFrame_valid hop hmax
  have hbyte : (newFrame op true p).header.byte1 = (newFrame op true p).header.lengthCode := UInt8.or_zero
  have hlong : ¬ (newFrame op true p).header.length ≤ len7 := Int.not_le.mpr (Int.ofNat_lt.mpr h)
  rw [frameToBytes, writeHeader_eq hv, hbyte]
  refine ⟨_, _, _, rfl, ?_⟩
  rcases lengthCode_cases hv with ⟨hle, -⟩ | ⟨-, -, hc⟩ | ⟨-, hc⟩
  · exact absurd hle hlong
  · rw [hc]
    decide
  · rw [hc]
    decide

theorem legalReply_newFrame {op : UInt8} (hop : op ∈ [opPing, opPong]) {p : Bytes} (hmax : (p.length : Int) ≤ len64) :
    LegalReply (frameToBytes (newFrame op true p)).1 ↔ p.length ≤ maxControlFramePayloadSize := by
  rcases Nat.lt_or_ge maxControlFramePayloadSize p.length with hlong | hshort
  · have hop' : ∀ op ∈ [opPing, opPong], op < 16 := by decide +kernel
    obtain ⟨b0, b1, rest, heq, hb1⟩ := frameToBytes_long (hop' op hop) hlong hmax
    rw [heq]
    exact iff_of_false (not_legalReply_long hb1) (Nat.not_le.mpr hlong)
  · have hop' : op ∈ [opClose, opPing, opPong] := List.mem_cons_of_mem _ hop
    have hclose : op ≠ opClose := by
      rintro rfl
      exact absurd hop (by decide)
    rw [frameToBytes_short op hshort, legalReply_shortFrame hop']
    exact iff_of_true ⟨hop', hshort, fun hc => absurd hc hclose⟩ hshort

end Frames

section Close

theorem newCloseFrameBody_eq (code : UInt16) (reason : Bytes) :
    newCloseFrameBody code reason = BigEndian.put 2 code.toNat ++ reason.take 123 := by
  have hn : min (2 + reason.length) maxControlFramePayloadSize = 2 + min 123 reason.length := by
    simp only [maxControlFramePayloadSize]
    omega
  have hcrop : min (maxControlFramePayloadSize - 2) reason.length = min 123 reason.length := rfl
  have htake : reason.take (min 123 reason.length) = reason.take 123 := by
    rw [List.take_eq_take_iff]
    omega
  rw [newCloseFrameBody, hn, hcrop, htake, putCloseFrameBody]
  simp [overwrite, List.drop_append, List.length_take]

theorem length_closeBody (code : UInt16) (reason : Bytes) :
    (newCloseFrameBody code reason).length ≤ maxControlFramePayloadSize := by
  rw [newCloseFrameBody_eq, List.length_append, BigEndian.length_put, List.length_take]
  simp only [maxControlFramePayloadSize]
  omega

theorem put_code_inj {a b : Nat} (ha : a < 65536) (hb : b < 65536) (h : BigEndian.put 2 a = BigEndian.put 2 b) :
    a = b := by
  have hget := congrArg BigEndian.get h
  rw [BigEndian.get_put, BigEndian.get_put] at hget
  omega

theorem legalBody_iff (code : UInt16) (reason : Bytes) :
    LegalBody (BigEndian.put 2 code.toNat ++ reason) ↔ LegalStatus code.toNat ∧ validString reason = true := by
  constructor
  · rintro ⟨code', reason', heq, hstatus, hvalid⟩
    obtain ⟨hcode, hreason⟩ := List.append_inj heq (by simp)
    have hlt : code' < 65536 := by
      unfold LegalStatus at hstatus
      omega
    rw [put_code_inj code.toNat_lt hlt hcode, hreason]
    exact ⟨hstatus, hvalid⟩
  · intro h
    exact ⟨code.toNat, reason, rfl, h⟩

theorem legalReply_close (code : UInt16) (reason : Bytes) :
    LegalReply (frameToBytes (newCloseFrame (newCloseFrameBody code reason))).1 ↔
      LegalStatus code.toNat ∧ validString (reason.take 123) = true := by
  have hsize := length_closeBody code reason
  have hne : newCloseFrameBody code reason ≠ [] := by
    rw [newCloseFrameBody_eq]
    simp [BigEndian.put]
  rw [newCloseFrame, frameToBytes_short opClose hsize, legalReply_shortFrame (by decide), ← legalBody_iff,
    ← newCloseFrameBody_eq]
  constructor
  · intro hlegal
    exact (hlegal.close rfl).resolve_left hne
  · intro hbody
    exact ⟨by decide, hsize, fun _ => .inr hbody⟩

/-- The codes that pass the checks are the legal ones and those from 5000 on. -/
theorem status_of_accepted {code : UInt16} {reason : Bytes} (h : checkCloseFrameData code reason = none) :
    (LegalStatus code.toNat ↔ code.toNat ≤ 4999) ∧ validString reason = true := by
  have hcode : ∀ n : UInt16, code ≠ n → code.toNat ≠ n.toNat := fun n hn heq => hn (UInt16.toNat_inj.mp heq)
  simp only [checkCloseFrameData] at h
  split at h
  · cases h
  next hused =>
    split at h
    · cases h
    next hreserved =>
      split at h
      · cases h
      next hmeaning =>
        split at h
        · cases h
        next hdefined =>
          split at h
          · cases h
          next hvalid =>
            refine ⟨?_, by simpa using hvalid⟩
            simp only [isNotUsed, StatusCodeRange.contains, statusRangeNotInUse, isProtocolReserved, statusNoMeaningYet,
              isProtocolSpec, statusRangeProtocol, isProtocolDefined, statusNormalClosure, statusProtocolError,
              Bool.and_eq_true, decide_eq_true_eq, UInt16.le_iff_toNat_le, List.mem_cons, List.not_mem_nil, or_false,
              Bool.not_eq_true', decide_eq_false_iff_not, not_and, not_or, not_le, ← UInt16.toNat_inj]
              at hused hreserved hmeaning hdefined
            simp at hused hreserved hmeaning hdefined
            unfold LegalStatus
            omega

end Close

/-- The frames whose reply is a legal control frame: no payload of a Ping or Pong is too long, and a Close frame that is
accepted has a legal code and a reason that is still valid when it is cropped. -/
def Answerable (opCode : UInt8) (payload : Bytes) : Prop :=
  (opCode = opPing ∨ opCode = opPong → payload.length ≤ maxControlFramePayloadSize) ∧
  (opCode = opClose → payload ≠ [] →
    checkCloseFrameData (parseCloseFrameData payload).1 (parseCloseFrameData payload).2 = none →
    (parseCloseFrameData payload).1.toNat ≤ 4999 ∧ validString ((parseCloseFrameData payload).2.take 123) = true)

theorem answerable_echo {op : UInt8} (hop : op = opPing ∨ op = opPong) (payload : Bytes) :
    Answerable op payload ↔ payload.length ≤ maxControlFramePayloadSize := by
  have hclose : op ≠ opClose := by rcases hop with rfl | rfl <;> decide
  exact ⟨fun h => h.1 hop, fun h => ⟨fun _ => h, fun hc => absurd hc hclose⟩⟩

theorem legalReply_handleClose {header : Header} {payload : Bytes} (hlen : header.length = payload.length) :
    LegalReply (handleClose header payload).1 ↔ Answerable opClose payload := by
  have hno : ¬ (opClose = opPing ∨ opClose = opPong) := by decide
  simp only [Answerable, hno, false_imp_iff, true_and, forall_const]
  rw [handleClose]
  by_cases hzero : header.length = 0
  · have hnil : payload = [] := List.eq_nil_of_length_eq_zero (by omega)
    have hreply : LegalReply (shortFrame opClose []) :=
      (legalReply_shortFrame (by decide) []).mpr ⟨by decide, by decide, fun _ => .inl rfl⟩
    rw [if_pos hzero]
    exact iff_of_true hreply fun hne => absurd hnil hne
  · have hne : payload ≠ [] := by
      rintro rfl
      exact hzero hlen
    rw [if_neg hzero]
    generalize parseCloseFrameData payload = parsed
    obtain ⟨code, reason⟩ := parsed
    dsimp only
    cases hcheck : checkCloseFrameData code reason with
    | some err =>
        have htext : validString (err.error.take 123) = true := by cases err <;> decide
        have hcode : LegalStatus statusProtocolError.toNat := .inl ⟨by decide, by decide⟩
        exact iff_of_true ((legalReply_close statusProtocolError err.error).mpr ⟨hcode, htext⟩) (by simp)
    | none =>
        have hstatus := (status_of_accepted hcheck).1
        simp only [legalReply_close, hstatus, hne, ne_eq, not_false_eq_true, forall_const]

variable {υ : Type}

theorem onMessage_legal (wsHandler : WSHandler υ) (app : υ) {header : Header} {payload : Bytes}
    (hlen : header.length = payload.length) (hmax : (payload.length : Int) ≤ len64)
    (hc : isControl header.opCode = true) :
    ∃ out, (onMessage wsHandler app (some header) payload).out = some out ∧
      (LegalReply out ↔ Answerable header.opCode payload) := by
  simp only [onMessage, if_pos hc]
  by_cases hclose : header.opCode = opClose
  · rw [if_pos hclose, hclose]
    exact ⟨_, rfl, legalReply_handleClose hlen⟩
  · rw [if_neg hclose]
    by_cases hping : header.opCode = opPing
    · rw [if_pos hping]
      refine ⟨_, rfl, ?_⟩
      rw [handlePing, newPongFrame, legalReply_newFrame (by decide) hmax, answerable_echo (.inl hping)]
    · rw [if_neg hping]
      by_cases hpong : header.opCode = opPong
      · rw [if_pos hpong]
        refine ⟨_, rfl, ?_⟩
        rw [handlePong, newPingFrame, legalReply_newFrame (by decide) hmax, answerable_echo (.inr hpong)]
      · have hanswer : Answerable header.opCode payload :=
          ⟨fun ho => absurd ho (by simp [hping, hpong]), fun ho => absurd ho hclose⟩
        rw [if_neg hpong]
        exact ⟨[], rfl, iff_of_true (.inl rfl) hanswer⟩

/-- The reply to a control frame that UnPacket delivers is a legal control frame, or empty, exactly for the answerable
frames. -/
theorem control_reply_legal (wsHandler : WSHandler υ) (app : υ) (order : ByteOrder) (u : Decoder.Upgrader)
    (pooled bts : Scratch) (buffer rest : RingBuffer UInt8) (bts' : Option Scratch) (header : Header) (payload : Bytes)
    (h : Decoder.unPacket order u pooled (some bts) buffer = ((some header, payload), bts', rest))
    (hc : isControl header.opCode = true) :
    ∃ out, (onMessage wsHandler app (some header) payload).out = some out ∧
      (LegalReply out ↔ Answerable header.opCode payload) := by
  obtain ⟨hlen, hmax⟩ := Decoder.unPacket_delivered h
  exact onMessage_legal wsHandler app hlen hmax hc

/-- A Ping with one byte. -/
theorem control_reply_legal_ping : ∃ header bts' rest,
    Decoder.unPacket .little Chunking.noUpgrade Chunking.zeroScratch (some Chunking.zeroScratch)
      (.ofList [0x89, 0x81, 0, 0, 0, 0, 42]) = ((some header, [42]), bts', rest) ∧ header.opCode = opPing ∧
    ∃ out, (onMessage silent () (some header) [42]).out = some out ∧ LegalReply out := by
  refine ⟨_, _, _, rfl, rfl, ?_⟩
  obtain ⟨out, hout, hlegal⟩ := control_reply_legal silent () .little Chunking.noUpgrade Chunking.zeroScratch
    Chunking.zeroScratch (.ofList [0x89, 0x81, 0, 0, 0, 0, 42]) _ _ _ [42] rfl rfl
  exact ⟨out, hout, hlegal.mpr ((answerable_echo (.inl rfl) _).mpr (by decide))⟩

theorem noRsv : (0 : UInt8) < 8 := by decide

def longPing : Decoder.Frame :=
  ⟨true, 0, opPing, fun _ => 0, List.replicate 126 0, noRsv, by decide, by simp [len64]⟩

def unknownCode : Decoder.Frame := ⟨true, 0, opClose, fun _ => 0, [0x13, 0x88], noRsv, by decide, by decide⟩

def splitReason : Decoder.Frame :=
  ⟨true, 0, opClose, fun _ => 0, [0x03, 0xe8] ++ List.replicate 122 0x61 ++ [0xc3, 0xa9], noRsv, by decide,
    by simp [len64]⟩

def AnsweredIllegally (f : Decoder.Frame) : Prop := ∃ bts' rest out,
    Decoder.unPacket .little Chunking.noUpgrade Chunking.zeroScratch (some Chunking.zeroScratch)
      (.ofList (f.encode .little)) = ((some f.header, f.payload), bts', rest) ∧
    isControl f.header.opCode = true ∧ (onMessage silent () (some f.header) f.payload).out = some out ∧
    ¬ LegalReply out

theorem answeredIllegally {f : Decoder.Frame} (hcontrol : isControl f.header.opCode = true)
    (hbad : ¬ Answerable f.header.opCode f.payload) : AnsweredIllegally f := by
  obtain ⟨out, hout, hlegal⟩ := onMessage_legal silent () f.header_length f.size hcontrol
  rw [AnsweredIllegally, ← List.append_nil (f.encode .little)]
  exact ⟨_, _, out, Decoder.unPacket_frame f _ [], hcontrol, hout, fun h => hbad (hlegal.mp h)⟩

theorem control_replies_illegal :
    AnsweredIllegally longPing ∧ AnsweredIllegally unknownCode ∧ AnsweredIllegally splitReason := by
  refine ⟨answeredIllegally (by decide) ?_, answeredIllegally (by decide) ?_, answeredIllegally (by decide) ?_⟩
  · exact fun h => absurd (h.1 (.inl rfl)) (by simp [longPing, maxControlFramePayloadSize])
  · exact fun h => absurd (h.2 rfl (by decide) (by decide)).1 (by decide)
  · exact fun h => absurd (h.2 rfl (by decide) (by decide +kernel)).2 (by decide +kernel)

end Gev.Websocket.Replies
