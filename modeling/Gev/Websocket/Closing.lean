import Gev.Websocket.Replies

namespace Gev.Websocket.Closing

open Gev.Connection.State Gev.Lib Gev.Lib.RingBuffers
open Gev.Websocket.Framing Gev.Websocket.Control Gev.Websocket.Replies
open Gev.Websocket.Decoder (WireFrame unPacket_wire)

/-- From these bytes, and whatever follows them, UnPacket delivers the frame as soon as six bytes are there. -/
def Decodes (out : Bytes) (header : Header) (payload : Bytes) : Prop :=
  ∀ (order : Cipher.ByteOrder) (u : Decoder.Upgrader) (pooled bts : Scratch) (rest : Bytes),
    6 ≤ (out ++ rest).length →
      ∃ now, Decoder.unPacket order u pooled (some bts) (.ofList (out ++ rest)) =
        ((some header, payload), some now, .ofList rest)

def closeHeader (payload : Bytes) : Header := ⟨true, 0, opClose, false, fun _ => 0, payload.length⟩

theorem decodes_close {p : Bytes} (h : p.length ≤ maxControlFramePayloadSize) :
    Decodes (frameToBytes (newCloseFrame p)).1 (closeHeader p) p ∧ (frameToBytes (newCloseFrame p)).2 = none := by
  have hmax : (p.length : Int) ≤ len64 := by
    simp only [maxControlFramePayloadSize, len64] at h ⊢
    omega
  have hv : (closeHeader p).Valid := newFrame_valid (by decide) hmax
  have hbytes : frameToBytes (newCloseFrame p) =
      ((closeHeader p).byte0 :: (closeHeader p).byte1 :: ((closeHeader p).extra ++ p), none) := by
    rw [frameToBytes, show (newCloseFrame p).header = closeHeader p from rfl, writeHeader_eq hv]
    rfl
  rw [hbytes]
  refine ⟨?_, rfl⟩
  intro order u pooled bts rest h6
  have hwire := unPacket_wire order u pooled ⟨closeHeader p, p, hv, rfl⟩ bts rest
  rw [WireFrame.encode_eq] at hwire
  exact hwire h6

section Reasons

/-- Whether a byte can be the first one of a character, as unicode/utf8 says it. -/
def runeStart (b : UInt8) : Bool := b &&& 0xc0 != 0x80

theorem leading_range {b lo hi : UInt8} {due : Nat} (h : leading b = some (due, lo, hi)) :
    runeStart b = true ∧ 0x80 ≤ lo ∧ hi ≤ 0xbf := by
  have key : ∀ b, ∀ r ∈ leading b, runeStart b = true ∧ 0x80 ≤ r.2.1 ∧ r.2.2 ≤ 0xbf := by
    decide +kernel
  exact key b _ h

theorem not_runeStart {b : UInt8} (h1 : 0x80 ≤ b) (h2 : b ≤ 0xbf) : runeStart b = false := by
  revert b
  decide +kernel

/-- A valid text can be cut exactly in front of a byte that begins a character. -/
theorem validFrom_cut {due : Nat} {lo hi b : UInt8} {xs ys : Bytes} (hlo : 0x80 ≤ lo) (hhi : hi ≤ 0xbf)
    (h : validFrom due lo hi (xs ++ b :: ys) = true) : validFrom due lo hi xs = runeStart b := by
  induction xs generalizing due lo hi with
  | nil =>
      cases due with
      | zero =>
          rw [List.nil_append, validFrom] at h
          cases hb : leading b with
          | none => simp [hb] at h
          | some r => exact (leading_range hb).1.symm
      | succ due =>
          simp only [List.nil_append, validFrom, Bool.and_eq_true, decide_eq_true_eq] at h
          exact (not_runeStart (UInt8.le_trans hlo h.1.1) (UInt8.le_trans h.1.2 hhi)).symm
  | cons x xs ih =>
      cases due with
      | zero =>
          rw [List.cons_append, validFrom] at h
          rw [validFrom]
          cases hx : leading x with
          | none => simp [hx] at h
          | some r =>
              obtain ⟨-, hlo', hhi'⟩ := leading_range hx
              rw [hx] at h
              exact ih hlo' hhi' h
      | succ due =>
          simp only [List.cons_append, validFrom, Bool.and_eq_true] at h
          rw [validFrom, h.1.1, h.1.2, ih (by decide) (by decide) h.2]
          rfl

theorem validString_take {s : Bytes} (h : validString s = true) (n : Nat) :
    validString (s.take n) = true ↔ ∀ b ∈ s[n]?, runeStart b = true := by
  cases hb : s[n]? with
  | none =>
      rw [List.take_of_length_le (List.getElem?_eq_none_iff.mp hb)]
      exact iff_of_true h (by simp)
  | some b =>
      obtain ⟨hn, rfl⟩ := List.getElem?_eq_some_iff.mp hb
      rw [validString, ← List.take_append_drop n s, List.drop_eq_getElem_cons hn] at h
      rw [validString, validFrom_cut (by decide) (by decide) h]
      simp

theorem parse_newCloseFrameBody (code : UInt16) (reason : Bytes) :
    parseCloseFrameData (newCloseFrameBody code reason) = (code, reason.take 123) := by
  have hlen : (BigEndian.put 2 code.toNat).length = 2 := BigEndian.length_put 2 _
  have hcode : UInt16.ofNat (BigEndian.get (BigEndian.put 2 code.toNat)) = code := by
    have hlt := code.toNat_lt
    rw [BigEndian.get_put, Nat.mod_eq_of_lt (by omega), UInt16.ofNat_toNat]
  have htwo : ¬ (BigEndian.put 2 code.toNat ++ reason.take 123).length < 2 := by
    rw [List.length_append, hlen]
    omega
  rw [newCloseFrameBody_eq, parseCloseFrameData, if_neg htwo, List.take_left' hlen, List.drop_left' hlen, hcode]

theorem check_normalClosure (reason : Bytes) :
    checkCloseFrameData statusNormalClosure reason = none ↔ validString reason = true := by
  have hcode : checkCloseFrameData statusNormalClosure reason =
      if !validString reason then some .invalidUTF8 else none := rfl
  rw [hcode]
  cases validString reason <;> decide

/-- The Close frame that PackCloseData makes of a valid reason has the code 1000 and the reason, cropped to 123 bytes.
It passes the checks of this package exactly if the byte behind the cut begins a character. -/
theorem packCloseData_checked (reason : Bytes) (h : validString reason = true) :
    (packCloseData reason).2 = none ∧
    ∃ payload, Decodes (packCloseData reason).1 (closeHeader payload) payload ∧
      payload.length ≤ 125 ∧ ∃ r, parseCloseFrameData payload = (1000, r) ∧
        (reason.length ≤ 123 → r = reason) ∧ r <+: reason ∧
        (checkCloseFrameData 1000 r = none ↔ ∀ b ∈ reason[123]?, runeStart b = true) := by
  obtain ⟨hdecodes, hok⟩ := decodes_close (length_closeBody statusNormalClosure reason)
  refine ⟨hok, _, hdecodes, length_closeBody _ _, _, parse_newCloseFrameBody _ _, ?_, List.take_prefix _ _, ?_⟩
  · exact List.take_of_length_le
  · exact (check_normalClosure _).trans (validString_take h 123)

theorem packCloseData_checked_bye : validString [0x62, 0x79, 0x65] = true ∧
    ∃ payload, Decodes (packCloseData [0x62, 0x79, 0x65]).1 (closeHeader payload) payload ∧
      checkCloseFrameData 1000 (parseCloseFrameData payload).2 = none := by
  have hvalid : validString [0x62, 0x79, 0x65] = true := by decide
  refine ⟨hvalid, ?_⟩
  obtain ⟨-, payload, hdecodes, -, r, hparse, -, -, hcheck⟩ := packCloseData_checked _ hvalid
  refine ⟨payload, hdecodes, ?_⟩
  rw [hparse]
  exact hcheck.mpr (by simp)

def splitReason : Bytes := List.replicate 122 0x61 ++ [0xc3, 0xa9]

/-- The crop leaves the first byte of the letter, and the frame does not pass the checks. -/
theorem packCloseData_unchecked : validString splitReason = true ∧
    ∃ payload, Decodes (packCloseData splitReason).1 (closeHeader payload) payload ∧
      parseCloseFrameData payload = (1000, List.replicate 122 0x61 ++ [0xc3]) ∧
      checkCloseFrameData 1000 (List.replicate 122 0x61 ++ [0xc3]) = some .invalidUTF8 := by
  have hcrop : splitReason.take 123 = List.replicate 122 0x61 ++ [0xc3] := by decide +kernel
  have hparse := parse_newCloseFrameBody statusNormalClosure splitReason
  rw [hcrop] at hparse
  exact ⟨by decide +kernel, _, (decodes_close (length_closeBody _ _)).1, hparse, by decide +kernel⟩

end Reasons

section Echo

theorem newCloseFrameBody_parsed {payload : Bytes} (h2 : 2 ≤ payload.length) (h125 : payload.length ≤ 125) :
    newCloseFrameBody (parseCloseFrameData payload).1 (parseCloseFrameData payload).2 = payload := by
  have hfront : (payload.take 2).length = 2 := by rw [List.length_take, Nat.min_eq_left h2]
  have hlt := BigEndian.get_lt (payload.take 2)
  rw [hfront] at hlt
  have hput := BigEndian.put_get (payload.take 2)
  rw [hfront] at hput
  have hcode : BigEndian.put 2 (UInt16.ofNat (BigEndian.get (payload.take 2))).toNat = payload.take 2 := by
    rw [UInt16.toNat_ofNat', Nat.mod_eq_of_lt (by omega), hput]
  have hreason : (payload.drop 2).length ≤ 123 := by
    rw [List.length_drop]
    omega
  rw [newCloseFrameBody_eq, parseCloseFrameData, if_neg (by omega), hcode, List.take_of_length_le hreason,
    List.take_append_drop]

/-- The text of an error fits a close body, and the body passes the checks. -/
theorem error_accepted (err : ProtocolError) :
    newCloseFrameBody statusProtocolError err.error = BigEndian.put 2 1002 ++ err.error ∧
      checkCloseFrameData statusProtocolError err.error = none := by
  have hlen : err.error.length ≤ 123 := by cases err <;> decide +kernel
  rw [newCloseFrameBody_eq, List.take_of_length_le hlen]
  exact ⟨rfl, by cases err <;> decide +kernel⟩

theorem parse_error (err : ProtocolError) :
    parseCloseFrameData (newCloseFrameBody statusProtocolError err.error) = (statusProtocolError, err.error) := by
  have hlen : err.error.length ≤ 123 := by cases err <;> decide +kernel
  rw [parse_newCloseFrameBody, List.take_of_length_le hlen]

def echo (payload : Bytes) : Bytes :=
  if payload = [] then []
  else match checkCloseFrameData (parseCloseFrameData payload).1 (parseCloseFrameData payload).2 with
    | none => newCloseFrameBody (parseCloseFrameData payload).1 (parseCloseFrameData payload).2
    | some err => newCloseFrameBody statusProtocolError err.error

theorem handleClose_eq {h : Header} {payload : Bytes} (hlen : h.length = payload.length) :
    handleClose h payload = frameToBytes (newCloseFrame (echo payload)) := by
  rw [handleClose, echo]
  by_cases hnil : payload = []
  · subst hnil
    have hzero : h.length = 0 := hlen
    rw [if_pos hzero, if_pos rfl]
    rfl
  · have hne : ¬ h.length = 0 := by
      have hpos := List.length_pos_iff.mpr hnil
      omega
    rw [if_neg hne, if_neg hnil]
    generalize parseCloseFrameData payload = parsed
    obtain ⟨code, reason⟩ := parsed
    dsimp only
    cases checkCloseFrameData code reason with
    | none => rfl
    | some err => rfl

theorem length_echo (payload : Bytes) : (echo payload).length ≤ maxControlFramePayloadSize := by
  rw [echo]
  split
  · exact Nat.zero_le _
  · split <;> exact length_closeBody _ _

theorem echo_accepted {payload : Bytes} (h2 : 2 ≤ payload.length) (h125 : payload.length ≤ 125)
    (h : checkCloseFrameData (parseCloseFrameData payload).1 (parseCloseFrameData payload).2 = none) :
    echo payload = payload := by
  have hne : payload ≠ [] := List.ne_nil_of_length_pos (by omega)
  rw [echo, if_neg hne, h]
  exact newCloseFrameBody_parsed h2 h125

theorem echo_rejected {payload : Bytes} {err : ProtocolError} (hne : payload ≠ [])
    (h : checkCloseFrameData (parseCloseFrameData payload).1 (parseCloseFrameData payload).2 = some err) :
    echo payload = newCloseFrameBody statusProtocolError err.error := by
  rw [echo, if_neg hne, h]

/-- A payload of one byte counts as the code 0, which is not in use. -/
theorem check_short {payload : Bytes} (h : payload.length < 2) :
    checkCloseFrameData (parseCloseFrameData payload).1 (parseCloseFrameData payload).2 =
      some .statusCodeNotInUse := by
  rw [parseCloseFrameData, if_pos h]
  rfl

theorem echo_echo {payload : Bytes} (h : payload.length ≤ 125) : echo (echo payload) = echo payload := by
  by_cases hnil : payload = []
  · subst hnil
    rfl
  · cases hcheck : checkCloseFrameData (parseCloseFrameData payload).1 (parseCloseFrameData payload).2 with
    | none =>
        have h2 : 2 ≤ payload.length := by
          by_contra hshort
          rw [check_short (by omega)] at hcheck
          cases hcheck
        rw [echo_accepted h2 h hcheck, echo_accepted h2 h hcheck]
    | some err =>
        have hbody : (newCloseFrameBody statusProtocolError err.error).length = 2 + err.error.length := by
          rw [(error_accepted err).1, List.length_append, BigEndian.length_put]
        rw [echo_rejected hnil hcheck]
        apply echo_accepted
        · omega
        · exact length_closeBody _ _
        · rw [parse_error]
          exact (error_accepted err).2

/-- A Close frame of legal size is answered with one Close frame: an empty one for an empty one, the same payload if it
passes the checks, and otherwise the code 1002 with the text of the error. The answer to the answer is the same. -/
theorem handleClose_echoes (h : Header) (payload : Bytes) (hlen : h.length = payload.length)
    (hmax : payload.length ≤ 125) :
    (handleClose h payload).2 = none ∧
    ∃ reply, Decodes (handleClose h payload).1 (closeHeader reply) reply ∧
      (payload = [] → reply = []) ∧
      (2 ≤ payload.length → checkCloseFrameData (parseCloseFrameData payload).1 (parseCloseFrameData payload).2 = none →
        reply = payload) ∧
      (payload ≠ [] → ¬ (2 ≤ payload.length ∧
          checkCloseFrameData (parseCloseFrameData payload).1 (parseCloseFrameData payload).2 = none) →
        ∃ err, checkCloseFrameData (parseCloseFrameData payload).1 (parseCloseFrameData payload).2 = some err ∧
          reply = BigEndian.put 2 1002 ++ err.error) ∧
      ∀ h' : Header, h'.length = reply.length → handleClose h' reply = handleClose h payload := by
  obtain ⟨hdecodes, hok⟩ := decodes_close (length_echo payload)
  rw [handleClose_eq hlen]
  refine ⟨hok, echo payload, hdecodes, ?_, ?_, ?_, ?_⟩
  · rintro rfl
    rfl
  · intro h2 hcheck
    exact echo_accepted h2 hmax hcheck
  · intro hne hno
    cases hcheck : checkCloseFrameData (parseCloseFrameData payload).1 (parseCloseFrameData payload).2 with
    | none =>
        have hshort : payload.length < 2 := Nat.lt_of_not_le fun h2 => hno ⟨h2, hcheck⟩
        rw [check_short hshort] at hcheck
        cases hcheck
    | some err => exact ⟨err, rfl, (echo_rejected hne hcheck).trans (error_accepted err).1⟩
  · intro h' hlen'
    rw [handleClose_eq hlen', echo_echo hmax]

theorem handleClose_echoes_going :
    checkCloseFrameData (parseCloseFrameData [0x03, 0xe9, 0x62]).1 (parseCloseFrameData [0x03, 0xe9, 0x62]).2 = none ∧
    Decodes (handleClose (closeHeader [0x03, 0xe9, 0x62]) [0x03, 0xe9, 0x62]).1 (closeHeader [0x03, 0xe9, 0x62])
      [0x03, 0xe9, 0x62] := by
  have hcheck : checkCloseFrameData (parseCloseFrameData [0x03, 0xe9, 0x62]).1
      (parseCloseFrameData [0x03, 0xe9, 0x62]).2 = none := by
    decide
  obtain ⟨-, reply, hdecodes, -, hsame, -⟩ :=
    handleClose_echoes (closeHeader [0x03, 0xe9, 0x62]) [0x03, 0xe9, 0x62] rfl (by decide)
  rw [hsame (by decide) hcheck] at hdecodes
  exact ⟨hcheck, hdecodes⟩

end Echo

end Gev.Websocket.Closing
