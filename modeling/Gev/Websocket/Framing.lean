import Gev.Connection.State
import Gev.Lib.BigEndian
import Mathlib.Data.Fintype.EquivFin
import Mathlib.Data.List.GetD

namespace Gev.Websocket.Framing

open Gev.Connection.State Gev.Lib Gev.Lib.RingBuffers

def bit0 : UInt8 := 0x80

def len7 : Int := 125

def len16 : Int := 65535

def len64 : Int := 2 ^ 63 - 1

def maxHeaderSize : Nat := 14

structure Header where
  fin : Bool
  rsv : UInt8
  opCode : UInt8
  masked : Bool
  mask : Fin 4 → UInt8
  length : Int
  deriving DecidableEq

inductive HeaderError
  | lengthMSB
  | lengthUnexpected
  | notReady
  deriving DecidableEq

/-- The bytes behind the header buffer that UnPacket keeps for each connection. -/
@[ext]
structure Scratch where
  bytes : Bytes
  size : bytes.length = maxHeaderSize - 2

namespace Scratch

/-- A read into the front of the buffer; what lies behind the bytes read keeps its old content. -/
def fill (bts : Scratch) (got : Bytes) : Scratch where
  bytes := (got ++ bts.bytes.drop got.length).take (maxHeaderSize - 2)
  size := by
    have h := bts.size
    simp only [List.length_take, List.length_append, List.length_drop]
    omega

def get (bts : Scratch) (i : Nat) : UInt8 := bts.bytes.getD i 0

theorem fill_bytes (bts : Scratch) {got : Bytes} (h : got.length ≤ 12) :
    (bts.fill got).bytes = got ++ bts.bytes.drop got.length := by
  apply List.take_of_length_le
  have hs : bts.bytes.length = 12 := bts.size
  simp [maxHeaderSize, hs]
  omega

theorem fill_nil (bts : Scratch) : bts.fill [] = bts := by
  apply Scratch.ext
  rw [fill_bytes bts (by simp)]
  rfl

theorem fill_fill (bts : Scratch) {got more : Bytes} (h : got.length ≤ more.length) (hm : more.length ≤ 12) :
    (bts.fill got).fill more = bts.fill more := by
  apply Scratch.ext
  rw [fill_bytes _ hm, fill_bytes _ hm, fill_bytes _ (Nat.le_trans h hm), List.drop_append,
    List.drop_of_length_le h, List.drop_drop, List.nil_append, Nat.add_sub_cancel' h]

theorem get_fill (bts : Scratch) {got : Bytes} {i : Nat} (hi : i < got.length) (h : got.length ≤ 12) :
    (bts.fill got).get i = got.getD i 0 := by
  rw [get, fill_bytes bts h, List.getD_append _ _ _ _ hi]

theorem get_two_zero (bts : Scratch) (b0 b1 : UInt8) : (bts.fill [b0, b1]).get 0 = b0 :=
  bts.get_fill (by simp) (by simp)

theorem get_two_one (bts : Scratch) (b0 b1 : UInt8) : (bts.fill [b0, b1]).get 1 = b1 :=
  bts.get_fill (by simp) (by simp)

end Scratch

def Header.byte0 (h : Header) : UInt8 := (if h.fin then bit0 else 0) ||| h.rsv <<< 4 ||| h.opCode

def Header.maskBytes (h : Header) : Bytes := if h.masked then List.ofFn h.mask else []

def writeHeader (h : Header) : Except HeaderError Bytes :=
  let flag := if h.masked then bit0 else 0
  if h.length ≤ len7 then
    .ok ([h.byte0, UInt8.ofNat (h.length % 256).toNat ||| flag] ++ h.maskBytes)
  else if h.length ≤ len16 then
    .ok ([h.byte0, 126 ||| flag] ++ BigEndian.put 2 h.length.toNat ++ h.maskBytes)
  else if h.length ≤ len64 then
    .ok ([h.byte0, 127 ||| flag] ++ BigEndian.put 8 h.length.toNat ++ h.maskBytes)
  else
    .error .lengthUnexpected

def firstBytes (b0 b1 : UInt8) : Header where
  fin := b0 &&& bit0 != 0
  rsv := (b0 &&& 0x70) >>> 4
  opCode := b0 &&& 0x0f
  masked := b1 &&& bit0 != 0
  mask := fun _ => 0
  length := if b1 &&& 0x7f < 126 then (b1 &&& 0x7f).toNat else 0

def lengthSize (length : UInt8) : Nat :=
  if length = 126 then 2 else if length = 127 then 8 else 0

def extraSize (h : Header) (length : UInt8) : Nat := (if h.masked then 4 else 0) + lengthSize length

def finish (h : Header) (length : UInt8) (bts : Scratch) : Except HeaderError Header :=
  if length = 127 ∧ bts.get 0 &&& 0x80 ≠ 0 then .error .lengthMSB
  else
    let k := lengthSize length
    let h := if k = 0 then h else { h with length := BigEndian.get (bts.bytes.take k) }
    .ok (if h.masked then { h with mask := fun i => bts.get (k + i) } else h)

def virtualReadHeader (bts : Scratch) (buffer : RingBuffer UInt8) :
    Except HeaderError Header × Scratch × RingBuffer UInt8 :=
  if buffer.length < 6 then (.error .notReady, bts, buffer)
  else
    let (got, buffer) := buffer.virtualRead 2
    let bts := bts.fill got
    let h := firstBytes (bts.get 0) (bts.get 1)
    let length := bts.get 1 &&& 0x7f
    if 127 < length then (.error .lengthUnexpected, bts, buffer)
    else
      let extra := extraSize h length
      if extra = 0 then (.ok h, bts, buffer)
      else
        let (got, buffer) := buffer.virtualRead extra
        let bts := bts.fill got
        (finish h length bts, bts, buffer)

structure Header.Valid (h : Header) : Prop where
  rsv : h.rsv < 8
  opCode : h.opCode < 16
  nonneg : 0 ≤ h.length
  bounded : h.length ≤ len64
  unmasked : h.masked = false → h.mask = fun _ => 0

def Header.lengthCode (h : Header) : UInt8 :=
  if h.length ≤ len7 then UInt8.ofNat h.length.toNat else if h.length ≤ len16 then 126 else 127

def Header.byte1 (h : Header) : UInt8 := h.lengthCode ||| (if h.masked then bit0 else 0)

def Header.lengthBytes (h : Header) : Bytes := BigEndian.put (lengthSize h.lengthCode) h.length.toNat

def Header.extra (h : Header) : Bytes := h.lengthBytes ++ h.maskBytes

theorem length_lengthBytes (h : Header) : h.lengthBytes.length = lengthSize h.lengthCode := BigEndian.length_put ..

theorem lengthCode_small {h : Header} (hv : h.Valid) (hl : h.length ≤ len7) :
    h.lengthCode = UInt8.ofNat h.length.toNat ∧ h.length.toNat < 126 := by
  have h0 := hv.nonneg
  constructor
  · simp [Header.lengthCode, hl]
  · simp only [len7] at hl
    omega

theorem lengthSize_small {n : Nat} (h : n < 126) : lengthSize (UInt8.ofNat n) = 0 := by
  have key : ∀ n : Fin 126, lengthSize (UInt8.ofNat n) = 0 := by decide
  exact key ⟨n, h⟩

theorem writeHeader_eq {h : Header} (hv : h.Valid) :
    writeHeader h = .ok (h.byte0 :: h.byte1 :: h.extra) := by
  by_cases h7 : h.length ≤ len7
  · obtain ⟨hc, hn⟩ := lengthCode_small hv h7
    have hm : (h.length % 256).toNat = h.length.toNat := by
      have h0 := hv.nonneg
      omega
    simp [writeHeader, h7, Header.byte1, Header.extra, Header.lengthBytes, hc, lengthSize_small hn, hm,
      BigEndian.put]
  · by_cases h16 : h.length ≤ len16
    · simp [writeHeader, h7, h16, Header.byte1, Header.extra, Header.lengthBytes, Header.lengthCode, lengthSize]
    · simp [writeHeader, h7, h16, hv.bounded, Header.byte1, Header.extra, Header.lengthBytes, Header.lengthCode,
        lengthSize]

theorem byte0_fields (fin : Bool) {rsv opCode : UInt8} (hr : rsv < 8) (ho : opCode < 16) :
    let b := (if fin then bit0 else 0) ||| rsv <<< 4 ||| opCode
    (b &&& bit0 != 0) = fin ∧ (b &&& 0x70) >>> 4 = rsv ∧ b &&& 0x0f = opCode := by
  have key : ∀ (fin : Bool) (r : Fin 8) (o : Fin 16),
      let b := (if fin then bit0 else 0) ||| UInt8.ofNat r <<< 4 ||| UInt8.ofNat o
      (b &&& bit0 != 0) = fin ∧ (b &&& 0x70) >>> 4 = UInt8.ofNat r ∧ b &&& 0x0f = UInt8.ofNat o := by
    decide
  simpa using key fin ⟨rsv.toNat, UInt8.lt_iff_toNat_lt.mp hr⟩ ⟨opCode.toNat, UInt8.lt_iff_toNat_lt.mp ho⟩

theorem byte1_fields (masked : Bool) {code : UInt8} (hc : code < 128) :
    let b := code ||| (if masked then bit0 else 0)
    (b &&& bit0 != 0) = masked ∧ b &&& 0x7f = code := by
  revert masked code
  decide +kernel

theorem lengthCode_cases {h : Header} (hv : h.Valid) :
    (h.length ≤ len7 ∧ h.lengthCode < 126 ∧ (h.lengthCode.toNat : Int) = h.length) ∨
      (len7 < h.length ∧ h.length ≤ len16 ∧ h.lengthCode = 126) ∨ (len16 < h.length ∧ h.lengthCode = 127) := by
  by_cases h7 : h.length ≤ len7
  · obtain ⟨hc, hn⟩ := lengthCode_small hv h7
    have ht : h.lengthCode.toNat = h.length.toNat := by
      rw [hc, UInt8.toNat_ofNat']
      omega
    refine Or.inl ⟨h7, ?_, ?_⟩
    · rw [UInt8.lt_iff_toNat_lt, ht]
      exact hn
    · rw [ht]
      exact Int.toNat_of_nonneg hv.nonneg
  · by_cases h16 : h.length ≤ len16
    · exact Or.inr (Or.inl ⟨by omega, h16, by simp [Header.lengthCode, h7, h16]⟩)
    · exact Or.inr (Or.inr ⟨by omega, by simp [Header.lengthCode, h7, h16]⟩)

theorem lengthCode_lt {h : Header} (hv : h.Valid) : h.lengthCode < 128 := by
  rcases lengthCode_cases hv with ⟨-, hc, -⟩ | ⟨-, -, hc⟩ | ⟨-, hc⟩
  · exact UInt8.lt_trans hc (by decide)
  · rw [hc]
    decide
  · rw [hc]
    decide

theorem byte1_code {h : Header} (hv : h.Valid) : h.byte1 &&& 0x7f = h.lengthCode :=
  (byte1_fields h.masked (lengthCode_lt hv)).2

theorem firstBytes_encoded {h : Header} (hv : h.Valid) :
    firstBytes h.byte0 h.byte1 =
      { h with mask := fun _ => 0, length := if h.lengthCode < 126 then h.length else 0 } := by
  obtain ⟨hf, hr, ho⟩ := byte0_fields h.fin hv.rsv hv.opCode
  have hm := (byte1_fields h.masked (lengthCode_lt hv)).1
  have hl : (if h.lengthCode < 126 then (h.lengthCode.toNat : Int) else 0) =
      if h.lengthCode < 126 then h.length else 0 := by
    rcases lengthCode_cases hv with ⟨-, -, hc⟩ | ⟨-, -, hc⟩ | ⟨-, hc⟩ <;> simp [hc]
  simp only [firstBytes, byte1_code hv, hl]
  simp only [Header.byte0, Header.byte1, hf, hr, ho, hm]

theorem length_extra (h : Header) :
    h.extra.length = extraSize h h.lengthCode := by
  cases hm : h.masked <;> simp [extraSize, Header.extra, Header.lengthBytes, Header.maskBytes, hm, Nat.add_comm]

theorem extraSize_encoded {h : Header} (hv : h.Valid) :
    extraSize (firstBytes h.byte0 h.byte1) h.lengthCode = h.extra.length := by
  rw [firstBytes_encoded hv, length_extra]
  rfl

theorem lengthSize_cases (length : UInt8) : lengthSize length = 0 ∨ lengthSize length = 2 ∨ lengthSize length = 8 := by
  unfold lengthSize
  split
  · exact .inr (.inl rfl)
  · split
    · exact .inr (.inr rfl)
    · exact .inl rfl

theorem extra_le (h : Header) : h.extra.length ≤ 12 := by
  have hk := lengthSize_cases h.lengthCode
  rw [length_extra, extraSize]
  split <;> omega

theorem extra_bounds {h : Header} (hm : h.masked = true) : 4 ≤ h.extra.length ∧ h.extra.length ≤ 12 := by
  refine ⟨?_, extra_le h⟩
  simp only [length_extra, extraSize, hm, ↓reduceIte]
  omega

theorem low_bits_le (b : UInt8) : ¬ 127 < b &&& 0x7f := by
  rw [UInt8.not_lt, UInt8.le_iff_toNat_le, UInt8.toNat_and]
  exact Nat.and_le_right

theorem finish_bare {h : Header} {length : UInt8} (hx : extraSize h length = 0) (bts : Scratch) :
    finish h length bts = .ok h := by
  rw [extraSize] at hx
  have hm : ¬ h.masked = true := by
    intro hm
    rw [if_pos hm] at hx
    omega
  have hk : lengthSize length = 0 := by omega
  have h7 : length ≠ 127 := by
    rintro rfl
    exact absurd hk (by decide)
  rw [finish, if_neg (fun hbad => h7 hbad.1)]
  dsimp only
  rw [if_pos hk, if_neg hm]

/-- Where two bytes or more are left to read, the first two say how many more are read, over what the scratch buffer
held. -/
theorem virtualReadHeader_eq (bts : Scratch) {buffer : RingBuffer UInt8} {b0 b1 : UInt8} {tail : Bytes}
    (h6 : 6 ≤ buffer.length) (hu : buffer.data.drop buffer.cursor = b0 :: b1 :: tail) :
    let extra := extraSize (firstBytes b0 b1) (b1 &&& 0x7f)
    let now := (bts.fill [b0, b1]).fill (tail.take extra)
    virtualReadHeader bts buffer =
      (finish (firstBytes b0 b1) (b1 &&& 0x7f) now, now, (buffer.virtualRead (2 + extra)).2) := by
  intro extra now
  have hgot : buffer.virtualRead 2 = ([b0, b1], (buffer.virtualRead 2).2) := by
    rw [RingBuffer.virtualRead, hu]
    rfl
  unfold virtualReadHeader
  rw [if_neg (Nat.not_lt.mpr h6), hgot]
  simp only [bts.get_two_zero, bts.get_two_one, if_neg (low_bits_le b1)]
  split
  next hx =>
    have hnow : now = bts.fill [b0, b1] := by simp only [now, extra, hx, List.take_zero, Scratch.fill_nil]
    rw [finish_bare hx, hnow, show extra = 0 from hx]
  next hx =>
    rw [RingBuffer.virtualRead_virtualRead, hu]
    rfl

/-- A header whose first two bytes and four more have arrived: the rest of it is read as far as it is there, over what
the scratch buffer held. -/
theorem virtualReadHeader_arrived {h : Header} (hv : h.Valid) (hx : 2 ≤ h.extra.length) (bts : Scratch)
    (tail : Bytes) (ht : 4 ≤ tail.length) :
    let data := h.byte0 :: h.byte1 :: tail
    let now := bts.fill (tail.take h.extra.length)
    virtualReadHeader bts (.ofList data) = (finish (firstBytes h.byte0 h.byte1) h.lengthCode now, now,
      ((RingBuffer.ofList data).virtualRead (2 + h.extra.length)).2) := by
  intro data now
  have hhigh := extra_le h
  have h6 : 6 ≤ (RingBuffer.ofList data).length := by
    simp only [RingBuffer.length, RingBuffer.data_ofList, data, List.length_cons]
    omega
  have hfill : (bts.fill [h.byte0, h.byte1]).fill (tail.take h.extra.length) = now := by
    apply bts.fill_fill
    · simp only [List.length_cons, List.length_nil, List.length_take]
      omega
    · simp only [List.length_take]
      omega
  have hu : (RingBuffer.ofList data).data.drop (RingBuffer.ofList data).cursor = h.byte0 :: h.byte1 :: tail := rfl
  have heq := virtualReadHeader_eq bts h6 hu
  simp only [byte1_code hv, extraSize_encoded hv, hfill] at heq
  exact heq

theorem msb_clear {b : UInt8} (h : b.toNat < 128) : b &&& 0x80 = 0 := by
  revert b
  decide +kernel

theorem get_lengthBytes {h : Header} (hv : h.Valid) (hc : 126 ≤ h.lengthCode) :
    (BigEndian.get h.lengthBytes : Int) = h.length := by
  have h0 := hv.nonneg
  have hb := hv.bounded
  have hmod : h.length.toNat % 256 ^ lengthSize h.lengthCode = h.length.toNat := by
    apply Nat.mod_eq_of_lt
    rcases lengthCode_cases hv with ⟨-, hlt, -⟩ | ⟨-, h16, heq⟩ | ⟨-, heq⟩
    · exact absurd hlt (UInt8.not_lt.mpr hc)
    · simp only [heq, lengthSize, ↓reduceIte, len16] at h16 ⊢
      omega
    · have hne : ¬ (127 : UInt8) = 126 := by decide
      simp only [heq, lengthSize, if_neg hne, ↓reduceIte, len64] at hb ⊢
      omega
  rw [Header.lengthBytes, BigEndian.get_put, hmod]
  exact Int.toNat_of_nonneg h0

/-- What is made of a header of which at least six bytes have arrived. -/
theorem finish_arrived {h : Header} (hv : h.Valid) (bts : Scratch) {j : Nat} (hj : 4 ≤ j) :
    let now := bts.fill (h.extra.take j)
    finish (firstBytes h.byte0 h.byte1) h.lengthCode now =
      .ok { h with
        mask := if h.masked then fun i => now.get (lengthSize h.lengthCode + i) else h.mask
        length := if h.lengthCode = 127 then BigEndian.get (now.bytes.take 8) else h.length } := by
  intro now
  have hhigh := extra_le h
  have hmask : h.masked = false → (fun _ => 0) = h.mask := fun hm => (hv.unmasked hm).symm
  have hgot : (h.extra.take j).length ≤ 12 := by
    simp only [List.length_take]
    omega
  have hnow : now.bytes = h.extra.take j ++ bts.bytes.drop (h.extra.take j).length := bts.fill_bytes hgot
  rw [firstBytes_encoded hv, finish]
  rcases lengthCode_cases hv with ⟨-, hlt, hc⟩ | ⟨-, -, hc⟩ | ⟨-, hc⟩
  · have h6 : h.lengthCode ≠ 126 := UInt8.ne_of_lt hlt
    have h7 : h.lengthCode ≠ 127 := UInt8.ne_of_lt (UInt8.lt_trans hlt (by decide))
    cases hm : h.masked <;> simp [h6, h7, lengthSize, hlt, hm, hmask]
  · have hk : h.lengthBytes.length = 2 := by simp [Header.lengthBytes, lengthSize, hc]
    have htwo : 2 ≤ h.extra.length := by
      rw [Header.extra, List.length_append]
      omega
    have htake : now.bytes.take 2 = h.lengthBytes := by
      rw [hnow, List.take_append_of_le_length (by simp only [List.length_take]; omega), List.take_take,
        Nat.min_eq_left (by omega), Header.extra, ← hk, List.take_left]
    have hlen := get_lengthBytes hv (by rw [hc]; decide)
    cases hm : h.masked <;> simp [hc, lengthSize, hm, htake, hlen, hmask]
  · have hk : h.lengthBytes = UInt8.ofNat (h.length.toNat / 256 ^ 7) :: BigEndian.put 7 h.length.toNat := by
      simp [Header.lengthBytes, lengthSize, hc, BigEndian.put]
    have hfirst : now.get 0 = UInt8.ofNat (h.length.toNat / 256 ^ 7) := by
      obtain ⟨i, rfl⟩ : ∃ i, j = i + 1 := ⟨j - 1, by omega⟩
      rw [Scratch.get, hnow, Header.extra, hk]
      rfl
    have hmsb : now.get 0 &&& 0x80 = 0 := by
      rw [hfirst]
      have hb := hv.bounded
      exact msb_clear (BigEndian.head_put_lt 7 (by simp only [len64] at hb; omega))
    cases hm : h.masked <;> simp [hc, lengthSize, hm, hmsb, hmask]

theorem finish_encoded {h : Header} (hv : h.Valid) (bts : Scratch) :
    finish (firstBytes h.byte0 h.byte1) h.lengthCode (bts.fill h.extra) = .ok h := by
  have hhigh := extra_le h
  have hk := length_lengthBytes h
  have hmask : (if h.masked then fun i : Fin 4 => (bts.fill h.extra).get (lengthSize h.lengthCode + i) else h.mask) =
      h.mask := by
    split
    next hm =>
      funext i
      rw [bts.get_fill (by simp only [length_extra, extraSize, hm, ↓reduceIte]; omega) hhigh, Header.extra,
        List.getD_append_right _ _ _ _ (by omega), hk, Nat.add_sub_cancel_left, Header.maskBytes, if_pos hm,
        List.getD_eq_getElem _ _ (by simp)]
      exact List.getElem_ofFn _
    next _ => rfl
  have hlen : (if h.lengthCode = 127 then (BigEndian.get ((bts.fill h.extra).bytes.take 8) : Int) else h.length) =
      h.length := by
    split
    · next hc =>
        have h8 : h.lengthBytes.length = 8 := by simp [hk, hc, lengthSize]
        rw [bts.fill_bytes hhigh, Header.extra, List.append_assoc, ← h8, List.take_left]
        exact get_lengthBytes hv (by rw [hc]; decide)
    · rfl
  have harrived := finish_arrived hv bts (show 4 ≤ 12 by decide)
  simp only [List.take_of_length_le hhigh, hmask, hlen] at harrived
  exact harrived

/-- A header whose length field is all there is read with its length, though its mask may be missing. -/
theorem finish_length_arrived {h : Header} (hv : h.Valid) (bts : Scratch) {j : Nat} (hj : 4 ≤ j)
    (hlength : h.lengthBytes.length ≤ j) :
    ∃ header, finish (firstBytes h.byte0 h.byte1) h.lengthCode (bts.fill (h.extra.take j)) = .ok header ∧
      header.length = h.length := by
  refine ⟨_, finish_arrived hv bts hj, ?_⟩
  dsimp only
  split
  next hc =>
    have h8 : h.lengthBytes.length = 8 := by simp [length_lengthBytes, hc, lengthSize]
    have htake : h.extra.take j = h.lengthBytes ++ h.maskBytes.take (j - 8) := by
      rw [Header.extra, List.take_append, List.take_of_length_le hlength, h8]
    have hle : (h.extra.take j).length ≤ 12 := Nat.le_trans (List.length_take_le' ..) (extra_le h)
    rw [bts.fill_bytes hle, htake, List.append_assoc, ← h8, List.take_left]
    exact get_lengthBytes hv (by rw [hc]; decide)
  next => rfl

/-- A header that is all there is read back, whatever the scratch buffer held, and the cursor moves behind it. -/
theorem virtualReadHeader_whole {h : Header} (hv : h.Valid) (bts : Scratch) {buffer : RingBuffer UInt8} {rest : Bytes}
    (h6 : 6 ≤ buffer.length) (hu : buffer.data.drop buffer.cursor = h.byte0 :: h.byte1 :: (h.extra ++ rest)) :
    ∃ now, virtualReadHeader bts buffer = (.ok h, now, (buffer.virtualRead (2 + h.extra.length)).2) := by
  have heq := virtualReadHeader_eq bts h6 hu
  simp only [byte1_code hv, extraSize_encoded hv, List.take_left, finish_encoded hv] at heq
  exact ⟨_, heq⟩

theorem virtualReadHeader_encoded {h : Header} (hv : h.Valid) (bts : Scratch) (rest : Bytes)
    (hr : 4 ≤ (h.extra ++ rest).length) :
    let data := h.byte0 :: h.byte1 :: (h.extra ++ rest)
    ∃ now, virtualReadHeader bts (.ofList data) =
      (.ok h, now, ((RingBuffer.ofList data).virtualRead (2 + h.extra.length)).2) := by
  intro data
  have h6 : 6 ≤ (RingBuffer.ofList data).length := by
    simp only [RingBuffer.length, RingBuffer.data_ofList, data, List.length_cons]
    omega
  exact virtualReadHeader_whole hv bts h6 rfl

end Gev.Websocket.Framing
