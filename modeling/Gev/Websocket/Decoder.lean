import Gev.Websocket.Framing
import Gev.Websocket.Cipher

namespace Gev.Websocket.Decoder

open Gev.Connection.State Gev.Lib Gev.Lib.RingBuffers Gev.Websocket.Framing Gev.Websocket.Cipher

structure Upgrader where
  upgrade : RingBuffer UInt8 → Bytes × Bool × RingBuffer UInt8

variable (order : ByteOrder) (u : Upgrader) (pooled : Scratch)

/-- UnPacket of the websocket protocol. A connection has a header buffer once it is upgraded; a new one comes
from the pool with whatever bytes it held before. -/
def unPacket : Option Scratch → RingBuffer UInt8 → (Option Header × Bytes) × Option Scratch × RingBuffer UInt8
  | none, buffer =>
      let (out, failed, buffer) := u.upgrade buffer
      ((none, out), if failed then none else some pooled, buffer)
  | some bts, buffer =>
      match virtualReadHeader bts buffer with
      | (.error _, bts, buffer) => ((none, []), some bts, buffer)
      | (.ok header, bts, buffer) =>
          if header.length ≤ buffer.virtualLength then
            let (payload, buffer) := buffer.virtualFlush.read header.length.toNat
            ((some header, if header.masked then cipher order payload header.mask 0 else payload), some bts, buffer)
          else ((none, []), some bts, buffer.virtualRevert)

/-- The loop of handlerProtocol over this protocol, which hands on what UnPacket delivers until nothing comes. -/
def drain : Nat → Option Scratch → RingBuffer UInt8 → List (Option Header × Bytes) × Option Scratch × RingBuffer UInt8
  | 0, bts, buffer => ([], bts, buffer)
  | fuel + 1, bts, buffer =>
      let (message, bts, buffer) := unPacket order u pooled bts buffer
      if message.1.isSome ∨ message.2 ≠ [] then
        let (more, bts, buffer) := drain fuel bts buffer
        (message :: more, bts, buffer)
      else ([], bts, buffer)

structure Frame where
  fin : Bool
  rsv : UInt8
  opCode : UInt8
  mask : Fin 4 → UInt8
  payload : Bytes
  rsv_lt : rsv < 8
  opCode_lt : opCode < 16
  size : (payload.length : Int) ≤ len64

namespace Frame

def header (f : Frame) : Header := ⟨f.fin, f.rsv, f.opCode, true, f.mask, f.payload.length⟩

def encode (f : Frame) : Bytes := (writeHeader f.header).toOption.getD [] ++ cipher order f.payload f.mask 0

def message (f : Frame) : Option Header × Bytes := (some f.header, f.payload)

@[simp] theorem header_masked (f : Frame) : f.header.masked = true := rfl

@[simp] theorem header_length (f : Frame) : f.header.length = f.payload.length := rfl

theorem valid (f : Frame) : f.header.Valid where
  rsv := f.rsv_lt
  opCode := f.opCode_lt
  nonneg := Int.natCast_nonneg _
  bounded := f.size
  unmasked := by
    intro h
    cases h

theorem encode_eq (f : Frame) :
    f.encode order =
      f.header.byte0 :: f.header.byte1 :: (f.header.extra ++ cipher order f.payload f.mask 0) := by
  simp [encode, writeHeader_eq f.valid, Except.toOption]

theorem length_cipher (f : Frame) : (cipher order f.payload f.mask 0).length = f.payload.length := by
  rw [cipher_eq_xorBytes, length_xorBytes]

theorem length_encode (f : Frame) : (f.encode order).length = 2 + f.header.extra.length + f.payload.length := by
  simp only [encode_eq, List.length_cons, List.length_append, length_cipher]
  omega

end Frame

theorem virtualReadHeader_buffer (bts : Scratch) (buffer : RingBuffer UInt8) :
    (virtualReadHeader bts buffer).2.2.data = buffer.data ∧
      (6 ≤ buffer.length → 2 ≤ (virtualReadHeader bts buffer).2.2.cursor) := by
  have hb := buffer.bounded
  unfold virtualReadHeader
  by_cases hlen : buffer.length < 6
  · rw [if_pos hlen]
    exact ⟨rfl, fun h => absurd hlen (by omega)⟩
  · have h2 : 2 ≤ (buffer.virtualRead 2).2.cursor := by
      simp only [RingBuffer.virtualRead, RingBuffer.virtualLength, RingBuffer.length] at hlen ⊢
      omega
    simp only [if_neg hlen]
    split
    · exact ⟨rfl, fun _ => h2⟩
    · split
      · exact ⟨rfl, fun _ => h2⟩
      · exact ⟨rfl, fun _ => Nat.le_trans h2 (Nat.le_add_right _ _)⟩

/-- On an upgraded connection UnPacket only takes bytes off the front. -/
theorem unPacket_suffix (bts : Scratch) (buffer : RingBuffer UInt8) :
    (unPacket order u pooled (some bts) buffer).2.2.data <:+ buffer.data := by
  rw [← (virtualReadHeader_buffer bts buffer).1, unPacket]
  rcases virtualReadHeader bts buffer with ⟨result, bts', buffer'⟩
  cases result with
  | error e => exact List.suffix_refl _
  | ok header =>
      dsimp only
      split
      · exact (List.drop_suffix _ _).trans (List.drop_suffix _ _)
      · exact List.suffix_refl _

/-- On an upgraded connection a delivery takes bytes from the input, and nothing but a delivery shows a payload. -/
theorem unPacket_cases (bts : Scratch) (buffer : RingBuffer UInt8) :
    ∃ message bts' buffer', unPacket order u pooled (some bts) buffer = (message, some bts', buffer') ∧
      (message = (none, []) ∨ message.1.isSome ∧ buffer'.length < buffer.length) := by
  obtain ⟨hdata, hcursor⟩ := virtualReadHeader_buffer bts buffer
  cases hr : virtualReadHeader bts buffer with
  | mk result rest =>
      obtain ⟨bts', buffer'⟩ := rest
      simp only [hr] at hdata hcursor
      cases result with
      | error e => exact ⟨_, bts', buffer', by simp only [unPacket, hr], Or.inl rfl⟩
      | ok header =>
          by_cases hle : header.length ≤ buffer'.virtualLength
          · refine ⟨_, bts', _, by simp only [unPacket, hr, if_pos hle]; rfl, Or.inr ⟨rfl, ?_⟩⟩
            have h6 : 6 ≤ buffer.length := by
              by_contra hlt
              simp [virtualReadHeader, Nat.lt_of_not_le hlt] at hr
            have hc := hcursor h6
            have hb := buffer'.bounded
            simp only [RingBuffer.read, RingBuffer.virtualFlush, RingBuffer.length, RingBuffer.data_retrieve,
              RingBuffer.data_advance, List.length_drop, ← hdata] at h6 ⊢
            omega
          · exact ⟨_, bts', _, by simp only [unPacket, hr, if_neg hle]; rfl, Or.inl rfl⟩

variable {order u pooled}

theorem unPacket_read {bts now : Scratch} {data : Bytes} {n : Nat} {header : Header}
    (h : virtualReadHeader bts (.ofList data) = (.ok header, now, ((RingBuffer.ofList data).virtualRead n).2)) :
    unPacket order u pooled (some bts) (.ofList data) =
      let payload := (data.drop n).take header.length.toNat
      if header.length ≤ (data.length - n : Nat) then
        ((some header, if header.masked then cipher order payload header.mask 0 else payload), some now,
          .ofList ((data.drop n).drop header.length.toNat))
      else ((none, []), some now, .ofList data) := by
  simp only [unPacket, h, RingBuffer.virtualLength_virtualRead, RingBuffer.virtualFlush_virtualRead,
    RingBuffer.virtualRevert_virtualRead, RingBuffer.read_ofList]

/-- A header that was read back is delivered with the bytes behind it. -/
theorem unPacket_whole {bts now : Scratch} {h : Header} {body rest : Bytes} (hl : h.length = body.length)
    (hread : let data := h.byte0 :: h.byte1 :: (h.extra ++ (body ++ rest))
      virtualReadHeader bts (.ofList data) =
        (.ok h, now, ((RingBuffer.ofList data).virtualRead (2 + h.extra.length)).2)) :
    unPacket order u pooled (some bts) (.ofList (h.byte0 :: h.byte1 :: (h.extra ++ (body ++ rest)))) =
      ((some h, if h.masked then cipher order body h.mask 0 else body), some now, .ofList rest) := by
  have hdrop : (h.byte0 :: h.byte1 :: (h.extra ++ (body ++ rest))).drop (2 + h.extra.length) = body ++ rest := by
    rw [Nat.add_comm, List.drop_succ_cons, List.drop_succ_cons, List.drop_left]
  have hlen : (h.byte0 :: h.byte1 :: (h.extra ++ (body ++ rest))).length - (2 + h.extra.length) =
      body.length + rest.length := by
    rw [← List.length_drop, hdrop, List.length_append]
  have hsize : h.length.toNat = body.length := by omega
  rw [unPacket_read hread, hdrop, hlen, hsize, List.take_left, List.drop_left, if_pos (by omega)]

theorem unPacket_frame (f : Frame) (bts : Scratch) (rest : Bytes) :
    unPacket order u pooled (some bts) (.ofList (f.encode order ++ rest)) =
      (f.message, some (bts.fill f.header.extra), .ofList rest) := by
  obtain ⟨hlow, -⟩ := extra_bounds f.header_masked
  have htail : 4 ≤ (f.header.extra ++ (cipher order f.payload f.mask 0 ++ rest)).length := by
    simp only [List.length_append]
    omega
  have hread := virtualReadHeader_arrived f.valid (by omega) bts _ htail
  simp only [List.take_left, finish_encoded f.valid bts] at hread
  have hl : f.header.length = (cipher order f.payload f.mask 0).length := by rw [f.length_cipher, f.header_length]
  rw [f.encode_eq, List.cons_append, List.cons_append, List.append_assoc, unPacket_whole hl hread, f.header_masked,
    if_pos rfl, show f.header.mask = f.mask from rfl, cipher_cipher]
  rfl

theorem unPacket_short (bts : Scratch) {data : Bytes} (h : data.length < 6) :
    unPacket order u pooled (some bts) (.ofList data) = ((none, []), some bts, .ofList data) := by
  have hread : virtualReadHeader bts (.ofList data) = (.error .notReady, bts, .ofList data) := by
    simp [virtualReadHeader, RingBuffer.length, h]
  simp only [unPacket, hread]

/-- The first o bytes of a frame are taken for a whole frame: the part of the length field that has not arrived is
read from old bytes, and it all is zero. -/
def Misread (bts : Scratch) (f : Frame) (o : Nat) : Prop :=
  len16 < f.payload.length ∧ 6 ≤ o ∧ o < 10 ∧
    ∀ b ∈ (BigEndian.put 8 f.payload.length).take (o - 2) ++ (bts.bytes.drop (o - 2)).take (10 - o), b = 0

theorem take_encode (f : Frame) {o : Nat} (h : 2 ≤ o) :
    (f.encode order).take o = f.header.byte0 :: f.header.byte1 ::
      (f.header.extra ++ cipher order f.payload f.mask 0).take (o - 2) := by
  obtain ⟨k, rfl⟩ : ∃ k, o = k + 2 := ⟨o - 2, by omega⟩
  rw [f.encode_eq]
  rfl

theorem virtualReadHeader_incomplete (order : ByteOrder) (f : Frame) (bts : Scratch) {o : Nat} (h6 : 6 ≤ o)
    (ho : o < (f.encode order).length) :
    let now := bts.fill (f.header.extra.take (o - 2))
    virtualReadHeader bts (.ofList ((f.encode order).take o)) =
      (.ok { f.header with
        mask := fun i => now.get (lengthSize f.header.lengthCode + i)
        length := if f.header.lengthCode = 127 then BigEndian.get (now.bytes.take 8) else f.payload.length }, now,
        ((RingBuffer.ofList ((f.encode order).take o)).virtualRead (2 + f.header.extra.length)).2) := by
  intro now
  have hlen := f.length_encode order
  have hgot : ((f.header.extra ++ cipher order f.payload f.mask 0).take (o - 2)).take f.header.extra.length =
      f.header.extra.take (o - 2) := by
    rw [List.take_take, Nat.min_comm, ← List.take_take, List.take_left]
  have htail : 4 ≤ ((f.header.extra ++ cipher order f.payload f.mask 0).take (o - 2)).length := by
    rw [List.length_take, List.length_append, f.length_cipher]
    omega
  obtain ⟨hlow, -⟩ := extra_bounds f.header_masked
  have hread := virtualReadHeader_arrived f.valid (by omega) bts _ htail
  simp only [hgot, finish_arrived f.valid bts (show 4 ≤ o - 2 by omega), f.header_masked, ↓reduceIte] at hread
  rw [take_encode f (by omega)]
  exact hread

theorem long_fields {f : Frame} (h : f.header.lengthCode = 127) :
    f.header.lengthBytes = BigEndian.put 8 f.payload.length ∧ f.header.extra.length = 12 := by
  constructor
  · simp [Header.lengthBytes, h, lengthSize]
  · simp [length_extra, extraSize, h, lengthSize]

theorem code_long_iff (f : Frame) : f.header.lengthCode = 127 ↔ len16 < f.payload.length := by
  rcases lengthCode_cases f.valid with ⟨hl, hc, -⟩ | ⟨-, hl, hc⟩ | ⟨hl, hc⟩
  · have hne : f.header.lengthCode ≠ 127 := UInt8.ne_of_lt (UInt8.lt_trans hc (by decide))
    have hlt : ¬ len16 < f.payload.length := by
      simp only [Frame.header_length, len7, len16] at hl ⊢
      omega
    simp [hne, hlt]
  · have hlt : ¬ len16 < f.payload.length := Int.not_lt.mpr hl
    simp [hc, hlt]
  · simpa [hc] using hl

/-- The length field of a long header after o bytes of the frame, completed by what the buffer held. -/
theorem arrived_length {f : Frame} (h : f.header.lengthCode = 127) (bts : Scratch) {o : Nat} (h2 : 2 ≤ o) :
    (bts.fill (f.header.extra.take (o - 2))).bytes.take 8 =
      (BigEndian.put 8 f.payload.length).take (o - 2) ++ (bts.bytes.drop (o - 2)).take (10 - o) := by
  obtain ⟨hb, hx⟩ := long_fields h
  have hsize : bts.bytes.length = 12 := bts.size
  have hlen : (f.header.extra.take (o - 2)).length = min (o - 2) 12 := by rw [List.length_take, hx]
  have hfront : (f.header.extra.take (o - 2)).take 8 = (BigEndian.put 8 f.payload.length).take (o - 2) := by
    rw [List.take_take, Nat.min_comm, ← List.take_take, Header.extra, hb,
      List.take_left' (BigEndian.length_put 8 _)]
  rw [bts.fill_bytes (by omega), List.take_append, hfront, hlen]
  congr 1
  rcases Nat.lt_or_ge o 10 with ho | ho
  · rw [Nat.min_eq_left (by omega)]
    congr 1
    omega
  · rw [show 8 - min (o - 2) 12 = 0 by omega, show 10 - o = 0 by omega, List.take_zero, List.take_zero]

variable (order u pooled) in
theorem unPacket_misread {f : Frame} {bts : Scratch} {o : Nat} (h : Misread bts f o) :
    ∃ header bts' buffer, header.length = 0 ∧
      unPacket order u pooled (some bts) (.ofList ((f.encode order).take o)) = ((some header, []), bts', buffer) := by
  obtain ⟨hlong, h6, h10, hzero⟩ := h
  have hcode := (code_long_iff f).mpr hlong
  obtain ⟨-, hx⟩ := long_fields hcode
  have hlen := f.length_encode order
  have hread := virtualReadHeader_incomplete order f bts h6 (by omega)
  simp only [hcode, ↓reduceIte, arrived_length hcode bts (show 2 ≤ o by omega),
    BigEndian.get_eq_zero.mpr hzero] at hread
  rw [unPacket_read hread]
  simp only [Int.toNat_zero, Nat.cast_zero, List.take_zero, Int.natCast_nonneg, ↓reduceIte]
  exact ⟨_, _, _, rfl, rfl⟩

theorem unPacket_incomplete {f : Frame} {bts : Scratch} {o : Nat} (h6 : 6 ≤ o) (ho : o < (f.encode order).length)
    (h : ¬ Misread bts f o) :
    unPacket order u pooled (some bts) (.ofList ((f.encode order).take o)) =
      ((none, []), some (bts.fill (f.header.extra.take (o - 2))), .ofList ((f.encode order).take o)) := by
  have hlen := f.length_encode order
  have hread := virtualReadHeader_incomplete order f bts h6 ho
  simp only at hread
  rw [unPacket_read hread, if_neg]
  simp only [List.length_take, Nat.min_eq_left (Nat.le_of_lt ho)]
  by_cases hcode : f.header.lengthCode = 127
  · obtain ⟨hb, hx⟩ := long_fields hcode
    have hlong := (code_long_iff f).mp hcode
    have hfull := get_lengthBytes f.valid (by rw [hcode]; decide)
    simp only [hcode, ↓reduceIte, arrived_length hcode bts (show 2 ≤ o by omega)]
    rcases Nat.lt_or_ge o 10 with h10 | h10
    · have hne : BigEndian.get ((BigEndian.put 8 f.payload.length).take (o - 2) ++
          (bts.bytes.drop (o - 2)).take (10 - o)) ≠ 0 := by
        intro hz
        exact h ⟨hlong, h6, h10, BigEndian.get_eq_zero.mp hz⟩
      omega
    · have hput : (BigEndian.put 8 f.payload.length).take (o - 2) = BigEndian.put 8 f.payload.length :=
        List.take_of_length_le (by rw [BigEndian.length_put]; omega)
      rw [hb, f.header_length] at hfull
      rw [hput, show 10 - o = 0 by omega, List.take_zero, List.append_nil, hfull]
      simp only [len16] at hlong
      omega
  · simp only [if_neg hcode]
    rcases lengthCode_cases f.valid with ⟨-, hc, -⟩ | ⟨hl, -, hc⟩ | ⟨-, hc⟩
    · have h6' : f.header.lengthCode ≠ 126 := UInt8.ne_of_lt hc
      have hx : f.header.extra.length = 4 := by simp [length_extra, extraSize, lengthSize, h6', hcode]
      omega
    · simp only [f.header_length, len7] at hl
      omega
    · exact absurd hc hcode

theorem msb_set {b : UInt8} (h : 128 ≤ b.toNat) : b &&& 0x80 ≠ 0 := by
  revert b
  decide +kernel

/-- A length field without its highest bit fits an int64. -/
theorem lengthField_le {length : UInt8} {bts : Scratch} (h : ¬ (length = 127 ∧ bts.get 0 &&& 0x80 ≠ 0)) :
    (BigEndian.get (bts.bytes.take (lengthSize length)) : Int) ≤ len64 := by
  have hsize : bts.bytes.length = 12 := bts.size
  by_cases h7 : length = 127
  · have hfirst : bts.get 0 &&& 0x80 = 0 := by simpa [h7] using h
    rw [h7, show lengthSize 127 = 8 from rfl]
    rw [Scratch.get] at hfirst
    generalize bts.bytes = bytes at hsize hfirst ⊢
    cases bytes with
    | nil => simp at hsize
    | cons b rest =>
        have hb : ¬ 128 ≤ b.toNat := fun hb => msb_set hb hfirst
        have hrest : (rest.take 7).length = 7 := by
          rw [List.length_cons] at hsize
          rw [List.length_take]
          omega
        have hlt := BigEndian.get_lt (rest.take 7)
        rw [List.take_succ_cons, BigEndian.get]
        rw [hrest] at hlt ⊢
        simp only [len64]
        omega
  · have hcode : lengthSize length ≤ 2 := by
      simp only [lengthSize, if_neg h7]
      split <;> decide
    have hlt := BigEndian.get_lt (bts.bytes.take (lengthSize length))
    have hpow : 256 ^ (bts.bytes.take (lengthSize length)).length ≤ 256 ^ 2 := by
      apply Nat.pow_le_pow_right (by decide)
      rw [List.length_take]
      omega
    simp only [len64]
    omega

theorem finish_length {h header : Header} {length : UInt8} {bts : Scratch} (hh : 0 ≤ h.length ∧ h.length ≤ len64)
    (hf : finish h length bts = .ok header) : 0 ≤ header.length ∧ header.length ≤ len64 := by
  simp only [finish] at hf
  split at hf
  · cases hf
  next hmsb =>
    have hfield := lengthField_le hmsb
    cases hf
    by_cases hk : lengthSize length = 0
    · simp only [hk, ↓reduceIte]
      split <;> exact hh
    · simp only [hk, ↓reduceIte]
      split <;> exact ⟨Int.natCast_nonneg _, hfield⟩

theorem firstBytes_length (b0 b1 : UInt8) : 0 ≤ (firstBytes b0 b1).length ∧ (firstBytes b0 b1).length ≤ len64 := by
  have hlt := (b1 &&& 0x7f).toNat_lt
  simp only [firstBytes, len64]
  split <;> omega

theorem virtualReadHeader_length {bts now : Scratch} {buffer rest : RingBuffer UInt8} {header : Header}
    (h : virtualReadHeader bts buffer = (.ok header, now, rest)) : 0 ≤ header.length ∧ header.length ≤ len64 := by
  simp only [virtualReadHeader] at h
  split at h
  · cases h
  · split at h
    · cases h
    · split at h
      · cases h
        exact firstBytes_length _ _
      · exact finish_length (firstBytes_length _ _) (congrArg Prod.fst h)

/-- A payload is delivered with a header that states its length. -/
theorem unPacket_delivered {bts : Scratch} {buffer rest : RingBuffer UInt8} {header : Header} {payload : Bytes}
    {bts' : Option Scratch}
    (h : unPacket order u pooled (some bts) buffer = ((some header, payload), bts', rest)) :
    header.length = payload.length ∧ (payload.length : Int) ≤ len64 := by
  rw [unPacket] at h
  rcases hr : virtualReadHeader bts buffer with ⟨result, now, buffer'⟩
  rw [hr] at h
  cases result with
  | error e => cases h
  | ok read =>
      dsimp only at h
      split at h
      next hle =>
        obtain ⟨h0, hmax⟩ := virtualReadHeader_length hr
        have hgot : (buffer'.virtualFlush.read read.length.toNat).1.length = read.length.toNat := by
          simp only [RingBuffer.read, RingBuffer.virtualFlush, RingBuffer.data_advance, List.length_take,
            List.length_drop]
          simp only [RingBuffer.virtualLength] at hle
          omega
        obtain ⟨hmessage, -⟩ := Prod.mk.inj h
        obtain ⟨hheader, hpayload⟩ := Prod.mk.inj hmessage
        obtain rfl := Option.some.inj hheader
        have hlen : payload.length = read.length.toNat := by
          rw [← hpayload]
          split
          · rw [cipher_eq_xorBytes, length_xorBytes, hgot]
          · exact hgot
        omega
      next _ => cases h

/-- A header is there whose length takes eight bytes and has its highest bit set. -/
def Overlong (data : Bytes) : Prop := 6 ≤ data.length ∧ data.getD 1 0 &&& 0x7f = 127 ∧ data.getD 2 0 &&& 0x80 ≠ 0

theorem extraSize_le (b0 b1 : UInt8) : extraSize (firstBytes b0 b1) (b1 &&& 0x7f) ≤ 12 := by
  have hk : lengthSize (b1 &&& 0x7f) ≤ 8 := by
    unfold lengthSize
    split
    · decide
    · split <;> decide
  unfold extraSize
  split <;> omega

theorem finish_outcome (h : Header) (length : UInt8) (bts : Scratch) :
    ((length = 127 ∧ bts.get 0 &&& 0x80 ≠ 0) ∧ finish h length bts = .error .lengthMSB) ∨
      (¬ (length = 127 ∧ bts.get 0 &&& 0x80 ≠ 0) ∧ ∃ header, finish h length bts = .ok header) := by
  by_cases ho : length = 127 ∧ bts.get 0 &&& 0x80 ≠ 0
  · exact .inl ⟨ho, if_pos ho⟩
  · exact .inr ⟨ho, _, if_neg ho⟩

/-- With six bytes there VirtualReadHeader moves the cursor, and it fails on an overlong header only. -/
theorem virtualReadHeader_outcome (bts : Scratch) {data : Bytes} (h : 6 ≤ data.length) :
    ∃ now n, 2 ≤ n ∧ ((Overlong data ∧ virtualReadHeader bts (.ofList data) =
        (.error .lengthMSB, now, ((RingBuffer.ofList data).virtualRead n).2)) ∨
      (¬ Overlong data ∧ ∃ header, virtualReadHeader bts (.ofList data) =
        (.ok header, now, ((RingBuffer.ofList data).virtualRead n).2))) := by
  match data, h with
  | b0 :: b1 :: b2 :: tail, h =>
      have h6 : 6 ≤ (RingBuffer.ofList (b0 :: b1 :: b2 :: tail)).length := h
      have heq := virtualReadHeader_eq bts h6 rfl
      have hsize := extraSize_le b0 b1
      have hover : Overlong (b0 :: b1 :: b2 :: tail) ↔ b1 &&& 0x7f = 127 ∧ b2 &&& 0x80 ≠ 0 := by
        simp only [Overlong, h, true_and]
        rfl
      have hfirst : b1 &&& 0x7f = 127 → ((bts.fill [b0, b1]).fill
          ((b2 :: tail).take (extraSize (firstBytes b0 b1) (b1 &&& 0x7f)))).get 0 = b2 := by
        intro hc
        obtain ⟨k, hk⟩ : ∃ k, extraSize (firstBytes b0 b1) (b1 &&& 0x7f) = k + 1 := by
          rw [hc, extraSize, show lengthSize 127 = 8 from rfl]
          exact ⟨_, rfl⟩
        rw [hk] at hsize ⊢
        exact Scratch.get_fill _ (by simp) (by simp only [List.length_take]; omega)
      dsimp only at heq
      generalize (bts.fill [b0, b1]).fill _ = now at heq hfirst
      refine ⟨now, 2 + extraSize (firstBytes b0 b1) (b1 &&& 0x7f), Nat.le_add_right 2 _, ?_⟩
      rw [heq, hover]
      rcases finish_outcome (firstBytes b0 b1) (b1 &&& 0x7f) now with ⟨⟨hc, hmsb⟩, herr⟩ | ⟨hno, header, hok⟩
      · rw [hfirst hc] at hmsb
        exact .inl ⟨⟨hc, hmsb⟩, by rw [herr]⟩
      · refine .inr ⟨?_, header, by rw [hok]⟩
        rintro ⟨hc, hmsb⟩
        exact hno ⟨hc, by rwa [hfirst hc]⟩

variable (order u pooled) in
/-- A call of UnPacket that delivers nothing leaves the unread bytes and the cursor as they are, unless it meets an
overlong header. -/
theorem undelivered_intact (bts : Scratch) (data : Bytes) :
    ((unPacket order u pooled (some bts) (.ofList data)).1 = (none, []) →
      (unPacket order u pooled (some bts) (.ofList data)).2.2 = .ofList data) ↔ ¬ Overlong data := by
  rcases Nat.lt_or_ge data.length 6 with hshort | hlong
  · rw [unPacket_short bts hshort]
    exact iff_of_true (fun _ => rfl) (fun ho => absurd ho.1 (Nat.not_le.mpr hshort))
  · obtain ⟨now, n, hn, ⟨ho, hread⟩ | ⟨ho, header, hread⟩⟩ := virtualReadHeader_outcome bts hlong
    · refine iff_of_false ?_ (fun hno => hno ho)
      intro hintact
      simp only [unPacket, hread, forall_const] at hintact
      have hcursor := congrArg RingBuffer.cursor hintact
      rw [RingBuffer.cursor_virtualRead, RingBuffer.cursor_ofList] at hcursor
      omega
    · refine iff_of_true ?_ ho
      simp only [unPacket, hread]
      split
      · nofun
      · exact fun _ => RingBuffer.virtualRevert_virtualRead data n

/-- The cursor is left behind the bytes of the header. -/
theorem overlong_moves_cursor : ∃ bts rest,
    unPacket .little ⟨fun buffer => ([], true, buffer)⟩ ⟨List.replicate 12 0, rfl⟩ (some ⟨List.replicate 12 0, rfl⟩)
      (.ofList [0x82, 0x7f, 0x80, 0, 0, 0]) = ((none, []), bts, rest) ∧
    rest.data = [0x82, 0x7f, 0x80, 0, 0, 0] ∧ 2 ≤ rest.cursor := by
  have hover : Overlong [0x82, 0x7f, 0x80, 0, 0, 0] := ⟨by decide, by decide, by decide⟩
  obtain ⟨now, n, hn, ⟨-, hread⟩ | ⟨ho, -⟩⟩ := virtualReadHeader_outcome ⟨List.replicate 12 0, rfl⟩ hover.1
  · refine ⟨some now, ((RingBuffer.ofList [0x82, 0x7f, 0x80, 0, 0, 0]).virtualRead n).2, ?_, rfl, ?_⟩
    · simp only [unPacket, hread]
    · rw [RingBuffer.cursor_virtualRead]
      exact Nat.le_min.mpr ⟨hn, by decide⟩
  · exact absurd hover ho

structure WireFrame where
  header : Header
  payload : Bytes
  valid : header.Valid
  size : header.length = payload.length

namespace WireFrame

def body (order : ByteOrder) (f : WireFrame) : Bytes :=
  if f.header.masked then cipher order f.payload f.header.mask 0 else f.payload

def encode (order : ByteOrder) (f : WireFrame) : Bytes := (writeHeader f.header).toOption.getD [] ++ f.body order

theorem encode_eq (order : ByteOrder) (f : WireFrame) :
    f.encode order = f.header.byte0 :: f.header.byte1 :: (f.header.extra ++ f.body order) := by
  simp [encode, writeHeader_eq f.valid, Except.toOption]

theorem length_body (order : ByteOrder) (f : WireFrame) : (f.body order).length = f.payload.length := by
  rw [body]
  split
  · rw [cipher_eq_xorBytes, length_xorBytes]
  · rfl

theorem length_encode (order : ByteOrder) (f : WireFrame) :
    (f.encode order).length = 2 + f.header.extra.length + f.payload.length := by
  simp only [encode_eq, List.length_cons, List.length_append, length_body]
  omega

theorem unmask_body (order : ByteOrder) (f : WireFrame) :
    (if f.header.masked then cipher order (f.body order) f.header.mask 0 else f.body order) = f.payload := by
  rw [body]
  split
  · rw [cipher_cipher]
  · rfl

end WireFrame

variable (order u pooled) in
/-- A whole frame is delivered as soon as six bytes are there. -/
theorem unPacket_wire (f : WireFrame) (bts : Scratch) (rest : Bytes) (h : 6 ≤ (f.encode order ++ rest).length) :
    ∃ now, unPacket order u pooled (some bts) (.ofList (f.encode order ++ rest)) =
      ((some f.header, f.payload), some now, .ofList rest) := by
  rw [f.encode_eq, List.cons_append, List.cons_append, List.append_assoc] at h ⊢
  obtain ⟨now, hread⟩ := virtualReadHeader_encoded f.valid bts (f.body order ++ rest)
    (Nat.le_of_succ_le_succ (Nat.le_of_succ_le_succ h))
  have hl : f.header.length = (f.body order).length := by rw [f.length_body, f.size]
  exact ⟨now, by rw [unPacket_whole hl hread, f.unmask_body]⟩

variable (order u pooled) in
/-- The start of a frame with the whole length field is left in the buffer. -/
theorem unPacket_part (f : WireFrame) (bts : Scratch) {o : Nat} (h6 : 6 ≤ o)
    (hlength : 2 + f.header.lengthBytes.length ≤ o) (ho : o < (f.encode order).length) :
    ∃ now, unPacket order u pooled (some bts) (.ofList ((f.encode order).take o)) =
      ((none, []), some now, .ofList ((f.encode order).take o)) := by
  have htotal := f.length_encode order
  obtain ⟨k, rfl⟩ : ∃ k, o = k + 2 := ⟨o - 2, by omega⟩
  have hdata : (f.encode order).take (k + 2) =
      f.header.byte0 :: f.header.byte1 :: (f.header.extra ++ f.body order).take k := by
    rw [f.encode_eq]
    rfl
  have hgot : ((f.header.extra ++ f.body order).take k).take f.header.extra.length = f.header.extra.take k := by
    rw [List.take_take, Nat.min_comm, ← List.take_take, List.take_left]
  have hlen : ((f.encode order).take (k + 2)).length = k + 2 := List.length_take_of_le (Nat.le_of_lt ho)
  have henough : 6 ≤ (RingBuffer.ofList ((f.encode order).take (k + 2))).length := by
    rw [RingBuffer.length, RingBuffer.data_ofList, hlen]
    exact h6
  have hread := virtualReadHeader_eq bts henough hdata
  obtain ⟨header, hheader, hsize⟩ :=
    finish_length_arrived f.valid (bts.fill [f.header.byte0, f.header.byte1]) (show 4 ≤ k by omega) (by omega)
  simp only [byte1_code f.valid, extraSize_encoded f.valid, hgot, hheader] at hread
  -- A frame without a payload has no extended length, so six bytes are all of it.
  have hempty : f.payload.length = 0 → f.header.extra.length ≤ 4 := by
    intro h0
    have hcode : f.header.lengthBytes.length = 0 := by
      have hl : f.header.length ≤ len7 := by
        rw [f.size, h0]
        decide
      obtain ⟨hc, hlt⟩ := lengthCode_small f.valid hl
      rw [length_lengthBytes, hc, lengthSize_small hlt]
    rw [length_extra, extraSize, ← length_lengthBytes, hcode]
    split <;> omega
  have hwait : ¬ header.length ≤ (((f.encode order).take (k + 2)).length - (2 + f.header.extra.length) : Nat) := by
    rw [hsize, f.size, hlen]
    omega
  exact ⟨_, (unPacket_read hread).trans (if_neg hwait)⟩

end Gev.Websocket.Decoder
