import Gev.Websocket.Decoder

namespace Gev.Websocket.HeaderCodec

open Gev.Connection.State Gev.Lib Gev.Lib.RingBuffers Gev.Websocket.Framing

def headerSize (unread : Bytes) : Nat :=
  2 + (if unread.getD 1 0 &&& 0x80 ≠ 0 then 4 else 0) +
    (if unread.getD 1 0 &&& 0x7f = 126 then 2 else if unread.getD 1 0 &&& 0x7f = 127 then 8 else 0)

/-- The length does not fit a shorter form than the one the second byte announces. -/
structure Shortest (unread : Bytes) (h : Header) : Prop where
  two : unread.getD 1 0 &&& 0x7f = 126 → 125 < h.length
  eight : unread.getD 1 0 &&& 0x7f = 127 → 65535 < h.length

theorem headerSize_eq (b0 b1 : UInt8) (tail : Bytes) :
    headerSize (b0 :: b1 :: tail) = 2 + extraSize (firstBytes b0 b1) (b1 &&& 0x7f) := by
  have hmask : (b1 &&& 0x80 ≠ 0) ↔ (firstBytes b0 b1).masked = true := bne_iff_ne.symm
  rw [extraSize, ← Nat.add_assoc, ← if_congr hmask rfl rfl]
  rfl

theorem firstBytes_byte0 (b0 b1 : UInt8) :
    (firstBytes b0 b1).byte0 = b0 ∧ (firstBytes b0 b1).rsv < 8 ∧ (firstBytes b0 b1).opCode < 16 := by
  have key : ∀ b, (firstBytes b 0).byte0 = b ∧ (firstBytes b 0).rsv < 8 ∧ (firstBytes b 0).opCode < 16 := by
    decide +kernel
  exact key b0

theorem code_or_flag (b : UInt8) : (b &&& 0x7f) ||| (if b &&& bit0 != 0 then bit0 else 0) = b := by
  revert b
  decide +kernel

theorem code_cases (b : UInt8) :
    (b &&& 0x7f < 126 ∧ lengthSize (b &&& 0x7f) = 0) ∨ b &&& 0x7f = 126 ∨ b &&& 0x7f = 127 := by
  revert b
  decide +kernel

/-- What a header read to its end is made of. -/
theorem finish_fields {h header : Header} {length : UInt8} {bts : Scratch} (hf : finish h length bts = .ok header) :
    header.byte0 = h.byte0 ∧ header.rsv = h.rsv ∧ header.opCode = h.opCode ∧ header.masked = h.masked ∧
      header.length = (if lengthSize length = 0 then h.length else BigEndian.get (bts.bytes.take (lengthSize length))) ∧
      header.mask = if h.masked then fun i : Fin 4 => bts.get (lengthSize length + i) else h.mask := by
  rw [finish] at hf
  split at hf
  · cases hf
  · cases hf
    by_cases hk : lengthSize length = 0 <;> cases hm : h.masked <;> simp [hk, hm, Header.byte0]

section Sound

variable {b0 b1 : UInt8} {field : Bytes} {bts : Scratch} {header : Header}

/-- The shortest form of a length that was read is the one it was read from. -/
theorem lengthCode_sound (hk : lengthSize (b1 &&& 0x7f) ≤ field.length) (h12 : field.length ≤ 12)
    (hlength : header.length = if lengthSize (b1 &&& 0x7f) = 0 then (firstBytes b0 b1).length
      else BigEndian.get ((bts.fill field).bytes.take (lengthSize (b1 &&& 0x7f))))
    (hs : Shortest [b0, b1] header) :
    header.lengthCode = b1 &&& 0x7f ∧ header.lengthBytes = field.take (lengthSize (b1 &&& 0x7f)) := by
  rw [bts.fill_bytes h12, List.take_append_of_le_length hk] at hlength
  have hsize : (field.take (lengthSize (b1 &&& 0x7f))).length = lengthSize (b1 &&& 0x7f) := by
    rw [List.length_take, Nat.min_eq_left hk]
  have hput := BigEndian.put_get (field.take (lengthSize (b1 &&& 0x7f)))
  have hlt := BigEndian.get_lt (field.take (lengthSize (b1 &&& 0x7f)))
  rw [hsize] at hput hlt
  have hcode : header.lengthCode = b1 &&& 0x7f := by
    rcases code_cases b1 with ⟨hsmall, hzero⟩ | h6 | h7
    · have hvalue : header.length = (b1 &&& 0x7f).toNat := by
        rw [hlength, if_pos hzero]
        exact if_pos hsmall
      have h125 : header.length ≤ len7 := by
        rw [hvalue]
        exact Int.ofNat_le.mpr (Nat.le_of_lt_succ (UInt8.lt_iff_toNat_lt.mp hsmall))
      rw [Header.lengthCode, if_pos h125, hvalue, Int.toNat_natCast, UInt8.ofNat_toNat]
    · have hlong := hs.two h6
      rw [h6, show lengthSize 126 = 2 from rfl, if_neg (by decide)] at hlength
      rw [h6, show lengthSize 126 = 2 from rfl] at hlt
      rw [h6, Header.lengthCode, if_neg (by simp only [len7]; omega), if_pos (by simp only [len16]; omega)]
    · have hlong := hs.eight h7
      rw [h7, Header.lengthCode, if_neg (by simp only [len7]; omega), if_neg (by simp only [len16]; omega)]
  refine ⟨hcode, ?_⟩
  rw [Header.lengthBytes, hcode]
  by_cases hzero : lengthSize (b1 &&& 0x7f) = 0
  · rw [hzero, List.take_zero]
    rfl
  · rw [hlength, if_neg hzero, Int.toNat_natCast]
    exact hput

theorem maskBytes_sound (hlen : field.length = extraSize (firstBytes b0 b1) (b1 &&& 0x7f)) (h12 : field.length ≤ 12)
    (hmasked : header.masked = (firstBytes b0 b1).masked)
    (hmask : header.mask = if (firstBytes b0 b1).masked then
      fun i : Fin 4 => (bts.fill field).get (lengthSize (b1 &&& 0x7f) + i) else (firstBytes b0 b1).mask) :
    header.maskBytes = field.drop (lengthSize (b1 &&& 0x7f)) := by
  rw [Header.maskBytes, hmasked, hmask]
  cases hm : (firstBytes b0 b1).masked with
  | false =>
      rw [extraSize, hm] at hlen
      simp only [Bool.false_eq_true, ↓reduceIte, Nat.zero_add] at hlen ⊢
      rw [← hlen, List.drop_length]
  | true =>
      rw [extraSize, hm] at hlen
      simp only [↓reduceIte] at hlen ⊢
      apply List.ext_getElem
      · rw [List.length_ofFn, List.length_drop]
        omega
      · intro i hi hi'
        rw [List.length_ofFn] at hi
        rw [List.getElem_ofFn, List.getElem_drop, bts.get_fill (by omega) h12]
        exact List.getD_eq_getElem _ _ _

/-- A header that was read to its end, with its length in the shortest form, is encoded as the bytes it was read
from. -/
theorem finish_sound (hlen : field.length = extraSize (firstBytes b0 b1) (b1 &&& 0x7f))
    (hf : finish (firstBytes b0 b1) (b1 &&& 0x7f) (bts.fill field) = .ok header) (hs : Shortest [b0, b1] header) :
    writeHeader header = .ok (b0 :: b1 :: field) := by
  have h12 : field.length ≤ 12 := by
    rw [hlen]
    exact Decoder.extraSize_le b0 b1
  have hk : lengthSize (b1 &&& 0x7f) ≤ field.length := by
    rw [hlen]
    exact Nat.le_add_left _ _
  obtain ⟨hbyte0, hrsv, hopCode, hmasked, hlength, hmask⟩ := finish_fields hf
  obtain ⟨hb0, hr, ho⟩ := firstBytes_byte0 b0 b1
  obtain ⟨h0, hmax⟩ := Decoder.finish_length (Decoder.firstBytes_length b0 b1) hf
  obtain ⟨hcode, hbytes⟩ := lengthCode_sound hk h12 hlength hs
  have hv : header.Valid := by
    refine ⟨hrsv ▸ hr, hopCode ▸ ho, h0, hmax, ?_⟩
    intro hm
    rw [hmask, ← hmasked, hm]
    rfl
  have hbyte1 : header.byte1 = b1 := by
    rw [Header.byte1, hcode, hmasked]
    exact code_or_flag b1
  rw [writeHeader_eq hv, hbyte0, hb0, hbyte1, Header.extra, hbytes, maskBytes_sound hlen h12 hmasked hmask,
    List.take_append_drop]

end Sound

theorem writeHeader_of_read {bts now : Scratch} {buffer rest : RingBuffer UInt8} {h : Header}
    (hread : virtualReadHeader bts buffer = (.ok h, now, rest))
    (hwhole : headerSize (buffer.data.drop buffer.cursor) ≤ (buffer.data.drop buffer.cursor).length)
    (hs : Shortest (buffer.data.drop buffer.cursor) h) :
    writeHeader h = .ok ((buffer.data.drop buffer.cursor).take (rest.cursor - buffer.cursor)) := by
  have h6 : 6 ≤ buffer.length := by
    by_contra hlt
    simp [virtualReadHeader, Nat.lt_of_not_le hlt] at hread
  have hleft : buffer.virtualLength = (buffer.data.drop buffer.cursor).length := List.length_drop.symm
  generalize hu : buffer.data.drop buffer.cursor = unread at hwhole hs hleft ⊢
  rcases unread with _ | ⟨b0, _ | ⟨b1, tail⟩⟩
  · simp [headerSize] at hwhole
  · simp [headerSize] at hwhole
  · rw [virtualReadHeader_eq bts h6 hu] at hread
    obtain ⟨hfinish, hrest⟩ := Prod.mk.inj hread
    obtain ⟨-, rfl⟩ := Prod.mk.inj hrest
    rw [headerSize_eq, List.length_cons, List.length_cons] at hwhole
    have hcursor : (buffer.virtualRead (2 + extraSize (firstBytes b0 b1) (b1 &&& 0x7f))).2.cursor - buffer.cursor =
        extraSize (firstBytes b0 b1) (b1 &&& 0x7f) + 2 := by
      simp only [RingBuffer.virtualRead, hleft, List.length_cons]
      omega
    rw [hcursor, List.take_succ_cons, List.take_succ_cons]
    exact finish_sound (by rw [List.length_take]; omega) hfinish ⟨hs.two, hs.eight⟩

theorem virtualReadHeader_written {h : Header} (hv : h.Valid) (bts : Scratch) {buffer : RingBuffer UInt8} {s : Bytes}
    (hu : buffer.data.drop buffer.cursor = h.byte0 :: h.byte1 :: (h.extra ++ s))
    (h6 : 6 ≤ (buffer.data.drop buffer.cursor).length) :
    ∃ now rest, virtualReadHeader bts buffer = (.ok h, now, rest) ∧ rest.data = buffer.data ∧
      rest.cursor = buffer.cursor + (h.byte0 :: h.byte1 :: h.extra).length := by
  have hlen : 6 ≤ buffer.length := by
    rw [List.length_drop] at h6
    exact Nat.le_trans h6 (Nat.sub_le _ _)
  obtain ⟨now, hread⟩ := virtualReadHeader_whole hv bts hlen hu
  refine ⟨now, _, hread, rfl, ?_⟩
  have hleft : buffer.virtualLength = (h.byte0 :: h.byte1 :: (h.extra ++ s)).length := by
    rw [RingBuffer.virtualLength, ← List.length_drop, hu]
  simp only [RingBuffer.virtualRead, hleft, List.length_cons, List.length_append]
  omega

/-- A header that is written is read back, and what is read in its shortest form is written again, from any place in a
buffer and with any content of the scratch buffer. -/
theorem header_codec (bts : Scratch) (buffer : RingBuffer UInt8) :
    (∀ h : Header, h.Valid → ∃ w, writeHeader h = .ok w ∧
      ∀ s, buffer.data.drop buffer.cursor = w ++ s → 6 ≤ (w ++ s).length →
        ∃ now rest, virtualReadHeader bts buffer = (.ok h, now, rest) ∧ rest.data = buffer.data ∧
          rest.cursor = buffer.cursor + w.length) ∧
    (∀ h now rest, virtualReadHeader bts buffer = (.ok h, now, rest) →
      headerSize (buffer.data.drop buffer.cursor) ≤ (buffer.data.drop buffer.cursor).length →
      Shortest (buffer.data.drop buffer.cursor) h →
        writeHeader h = .ok ((buffer.data.drop buffer.cursor).take (rest.cursor - buffer.cursor))) := by
  constructor
  · intro h hv
    refine ⟨_, writeHeader_eq hv, ?_⟩
    intro s hu h6
    rw [← hu] at h6
    exact virtualReadHeader_written hv bts hu h6
  · intro h now rest hread hwhole hs
    exact writeHeader_of_read hread hwhole hs

def mediumHeader : Header := ⟨true, 0, 2, true, fun _ => 7, 200⟩

theorem mediumHeader_valid : mediumHeader.Valid :=
  ⟨by decide, by decide, by decide, by decide, fun _ => by contradiction⟩

theorem header_codec_medium : ∃ now rest,
    virtualReadHeader ⟨List.replicate 12 0xff, rfl⟩ (.ofList [0x82, 0xfe, 0, 200, 7, 7, 7, 7, 1]) =
      (.ok mediumHeader, now, rest) ∧ rest.cursor = 8 ∧
    writeHeader mediumHeader = .ok [0x82, 0xfe, 0, 200, 7, 7, 7, 7] := by
  obtain ⟨hthere, hback⟩ := header_codec ⟨List.replicate 12 0xff, rfl⟩
    (.ofList [0x82, 0xfe, 0, 200, 7, 7, 7, 7, 1])
  obtain ⟨w, hw, hread⟩ := hthere mediumHeader mediumHeader_valid
  have hbytes : w = [0x82, 0xfe, 0, 200, 7, 7, 7, 7] := Except.ok.inj (hw.symm.trans (by decide +kernel))
  subst hbytes
  obtain ⟨now, rest, heq, -, hcursor⟩ := hread [1] rfl (by decide)
  refine ⟨now, rest, heq, hcursor, ?_⟩
  have hagain := hback mediumHeader now rest heq (by decide +kernel) ⟨fun _ => by decide, fun h => by contradiction⟩
  rw [hcursor] at hagain
  exact hagain

end Gev.Websocket.HeaderCodec
