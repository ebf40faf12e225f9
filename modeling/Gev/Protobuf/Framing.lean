import Gev.Connection.State
import Gev.Lib.BigEndian
import Gev.Lib.Streams

namespace Gev.Protobuf.Framing

open Gev.Connection.State Gev.Lib Gev.Lib.RingBuffers Gev.Lib.Streams

def packMessage (msgType data : Bytes) : Bytes :=
  let typeLen := msgType.length
  let length := data.length + typeLen + 2
  BigEndian.put 4 length ++ BigEndian.put 2 typeLen ++ msgType ++ data

def peekUint (k : Nat) (buffer : RingBuffer UInt8) : Nat :=
  if buffer.length < k then 0 else BigEndian.get (buffer.data.take k)

def readInto (buffer : RingBuffer UInt8) (p : Bytes) : Bytes × RingBuffer UInt8 :=
  let (got, buffer) := buffer.read p.length
  (got ++ p.drop got.length, buffer)

/-- UnPacket, with what the pool gives for a type of each length. No result is the panic of make with a negative
length. -/
def unPacket (pool : (n : Nat) → { p : Bytes // p.length = n }) (buffer : RingBuffer UInt8) :
    Option ((Option Bytes × Bytes) × RingBuffer UInt8) :=
  if 6 < buffer.length then
    let length := peekUint 4 buffer
    if length + 4 ≤ buffer.length then
      let buffer := buffer.retrieve 4
      let typeLen := peekUint 2 buffer
      let buffer := buffer.retrieve 2
      let (typeByte, buffer) := readInto buffer (pool typeLen)
      let dataLen : Int := length - 2 - typeLen
      if dataLen < 0 then none
      else
        let (data, buffer) := readInto buffer (List.replicate dataLen.toNat 0)
        some ((some typeByte, data), buffer)
    else some ((none, []), buffer)
  else some ((none, []), buffer)

/-- One round of handlerProtocol: it goes on if there is a type or there are data. -/
def next (pool : (n : Nat) → { p : Bytes // p.length = n }) (buffer : RingBuffer UInt8) :
    Option (Option (Option Bytes × Bytes) × RingBuffer UInt8) :=
  (unPacket pool buffer).map fun r => (if r.1.1.isSome ∨ r.1.2 ≠ [] then some r.1 else none, r.2)

structure Message where
  msgType : Bytes
  data : Bytes
  typeLen : msgType.length < 2 ^ 16
  length : 2 + msgType.length + data.length < 2 ^ 32
  nonempty : msgType ≠ [] ∨ data ≠ []

namespace Message

def encode (m : Message) : Bytes := packMessage m.msgType m.data

def delivered (m : Message) : Option Bytes × Bytes := (some m.msgType, m.data)

theorem length_encode (m : Message) : m.encode.length = 6 + m.msgType.length + m.data.length := by
  simp only [encode, packMessage, List.length_append, BigEndian.length_put]

theorem length_pos (m : Message) : 0 < m.msgType.length + m.data.length := by
  have h := m.nonempty
  simp only [← List.length_pos_iff] at h
  omega

theorem encode_append (m : Message) (rest : Bytes) :
    m.encode ++ rest = BigEndian.put 4 (m.data.length + m.msgType.length + 2) ++
      (BigEndian.put 2 m.msgType.length ++ (m.msgType ++ (m.data ++ rest))) := by
  simp only [encode, packMessage, List.append_assoc]

end Message

variable (pool : (n : Nat) → { p : Bytes // p.length = n })

theorem peekUint_put {k n : Nat} (h : n < 256 ^ k) (rest : Bytes) :
    peekUint k (.ofList (BigEndian.put k n ++ rest)) = n := by
  have hlen : ¬ (RingBuffer.ofList (BigEndian.put k n ++ rest)).length < k := by
    simp [RingBuffer.length]
  rw [peekUint, if_neg hlen, RingBuffer.data_ofList, List.take_left' (BigEndian.length_put k n), BigEndian.get_put,
    Nat.mod_eq_of_lt h]

theorem retrieve_put (k n : Nat) (rest : Bytes) :
    (RingBuffer.ofList (BigEndian.put k n ++ rest)).retrieve k = .ofList rest := by
  rw [RingBuffer.retrieve_ofList, List.drop_left' (BigEndian.length_put k n)]

theorem readInto_ofList {p xs : Bytes} (h : p.length ≤ xs.length) :
    readInto (.ofList xs) p = (xs.take p.length, .ofList (xs.drop p.length)) := by
  have hnil : p.drop (xs.take p.length).length = [] := by
    apply List.drop_of_length_le
    rw [List.length_take, Nat.min_eq_left h]
  simp only [readInto, RingBuffer.read_ofList, hnil, List.append_nil]

theorem readInto_append {p xs : Bytes} (h : p.length = xs.length) (rest : Bytes) :
    readInto (.ofList (xs ++ rest)) p = (xs, .ofList rest) := by
  rw [readInto_ofList (by rw [List.length_append]; omega), h, List.take_left, List.drop_left]

theorem unPacket_whole (m : Message) (rest : Bytes) :
    unPacket pool (.ofList (m.encode ++ rest)) = some (m.delivered, .ofList rest) := by
  have hpos := m.length_pos
  have hlen := m.length_encode
  have hguard : 6 < (RingBuffer.ofList (m.encode ++ rest)).length := by
    simp only [RingBuffer.length, RingBuffer.data_ofList, List.length_append]
    omega
  have hpeek : peekUint 4 (.ofList (m.encode ++ rest)) = m.data.length + m.msgType.length + 2 := by
    have h := m.length
    rw [m.encode_append, peekUint_put (by omega)]
  have hcomplete : m.data.length + m.msgType.length + 2 + 4 ≤ (RingBuffer.ofList (m.encode ++ rest)).length := by
    simp only [RingBuffer.length, RingBuffer.data_ofList, List.length_append]
    omega
  have hdata : ((m.data.length + m.msgType.length + 2 : Nat) : Int) - 2 - m.msgType.length = m.data.length := by
    omega
  simp only [unPacket, if_pos hguard, hpeek, if_pos hcomplete]
  rw [m.encode_append, retrieve_put, peekUint_put m.typeLen, retrieve_put,
    readInto_append (pool m.msgType.length).property]
  simp only [hdata, if_neg (Int.not_lt.mpr (Int.natCast_nonneg _)), Int.toNat_natCast,
    readInto_append (List.length_replicate)]
  rfl

theorem unPacket_part (m : Message) {n : Nat} (h : n < m.encode.length) :
    unPacket pool (.ofList (m.encode.take n)) = some ((none, []), .ofList (m.encode.take n)) := by
  have hlen : (RingBuffer.ofList (m.encode.take n)).length = n := by
    simp only [RingBuffer.length, RingBuffer.data_ofList, List.length_take]
    omega
  by_cases h6 : 6 < n
  · have hpeek : peekUint 4 (.ofList (m.encode.take n)) = m.data.length + m.msgType.length + 2 := by
      have hl := m.length
      have htake : m.encode.take n = BigEndian.put 4 (m.data.length + m.msgType.length + 2) ++
          (BigEndian.put 2 m.msgType.length ++ (m.msgType ++ m.data)).take (n - 4) := by
        have henc := m.encode_append []
        simp only [List.append_nil] at henc
        rw [henc, List.take_append, BigEndian.length_put, List.take_of_length_le (by rw [BigEndian.length_put]; omega)]
      rw [htake, peekUint_put (by omega)]
    have hmore : ¬ m.data.length + m.msgType.length + 2 + 4 ≤ n := by
      rw [m.length_encode] at h
      omega
    simp only [unPacket, hlen, if_pos h6, hpeek, if_neg hmore]
  · simp only [unPacket, hlen, if_neg h6]

theorem framing : Framing (next pool) RingBuffer.write .ofList Message.encode Message.delivered where
  whole := by
    intro m rest
    rw [next, unPacket_whole]
    rfl
  part := by
    intro m n h
    rw [next, unPacket_part pool m h]
    rfl
  empty := rfl
  write := RingBuffer.write_ofList
  nonempty := by
    intro m h
    have hlen := m.length_encode
    rw [h] at hlen
    simp at hlen
    omega

def hello : Message := ⟨[104, 105], [1], by decide, by decide, .inl (by decide)⟩

def untyped : Message := ⟨[], [2, 3], by decide, by decide, .inr (by decide)⟩

def cleared (n : Nat) : { p : Bytes // p.length = n } := ⟨List.replicate n 0, List.length_replicate⟩

/-- Whatever the cuts, the messages written by PackMessage are delivered in order, each with the chunk that completes
it, and at the end the buffer is empty. -/
theorem chunked_round_trip (ms : List Message) (pre post : List Bytes) (fuel : Nat)
    (h : (pre ++ post).flatten = stream Message.encode ms) (hf : (stream Message.encode ms).length < fuel) :
    feed (next pool) RingBuffer.write fuel .empty pre =
      some ((arrived Message.encode ms pre.flatten.length).map Message.delivered,
        .ofList (unfinished Message.encode ms pre.flatten.length)) ∧
    feed (next pool) RingBuffer.write fuel .empty (pre ++ post) = some (ms.map Message.delivered, .empty) := by
  have hpre : pre.flatten <+: stream Message.encode ms := ⟨post.flatten, by rw [← h, List.flatten_append]⟩
  refine ⟨(framing pool).feed_chunks hpre hf, ?_⟩
  have hwhole : (pre ++ post).flatten <+: stream Message.encode ms := ⟨[], by rw [h, List.append_nil]⟩
  have hall := (framing pool).feed_chunks hwhole hf
  rw [h, arrived_all, unfinished_all] at hall
  exact hall

/-- Cuts inside the length, right behind the first message, and inside the type length of the second. -/
theorem chunked_round_trip_cut :
    [[0, 0], [0, 5, 0, 2, 104, 105, 1], [0, 0, 0, 4, 0], [0, 2, 3]].flatten = stream Message.encode [hello, untyped] ∧
    feed (next cleared) RingBuffer.write 18 .empty [[0, 0], [0, 5, 0, 2, 104, 105, 1]] =
      some ([(some [104, 105], [1])], .empty) ∧
    feed (next cleared) RingBuffer.write 18 .empty [[0, 0], [0, 5, 0, 2, 104, 105, 1], [0, 0, 0, 4, 0], [0, 2, 3]] =
      some ([(some [104, 105], [1]), (some [], [2, 3])], .empty) := by
  have hsplit : [[0, 0], [0, 5, 0, 2, 104, 105, 1], [0, 0, 0, 4, 0], [0, 2, 3]].flatten =
      stream Message.encode [hello, untyped] := by decide
  exact ⟨hsplit, chunked_round_trip cleared [hello, untyped] [[0, 0], [0, 5, 0, 2, 104, 105, 1]]
    [[0, 0, 0, 4, 0], [0, 2, 3]] 18 hsplit (by decide)⟩

def lengthOf (B : Bytes) : Nat := BigEndian.get (B.take 4)

def typeLenOf (B : Bytes) : Nat := BigEndian.get (B.extract 4 6)

/-- UnPacket does not panic; it delivers the message at the front of the buffer if it is all there and its two lengths
agree, and waits if it is not all there. -/
structure Exact (B : Bytes) : Prop where
  safe : unPacket pool (.ofList B) ≠ none
  whole : 6 ≤ B.length → 4 + lengthOf B ≤ B.length → 2 + typeLenOf B ≤ lengthOf B →
    unPacket pool (.ofList B) = some ((some (B.extract 6 (6 + typeLenOf B)),
      B.extract (6 + typeLenOf B) (4 + lengthOf B)), .ofList (B.drop (4 + lengthOf B)))
  part : B.length < 6 ∨ B.length < 4 + lengthOf B → unPacket pool (.ofList B) = some ((none, []), .ofList B)

def Overfull (B : Bytes) : Prop := 6 < B.length ∧ 4 + lengthOf B ≤ B.length ∧ lengthOf B < 2 + typeLenOf B

def Bare (B : Bytes) : Prop := B.length = 6 ∧ lengthOf B = 2 ∧ typeLenOf B = 0

theorem unPacket_few {B : Bytes} (h : B.length ≤ 6) : unPacket pool (.ofList B) = some ((none, []), .ofList B) := by
  have hlen : ¬ 6 < (RingBuffer.ofList B).length := Nat.not_lt.mpr h
  simp only [unPacket, if_neg hlen]

theorem unPacket_ofList {B : Bytes} (h : 6 < B.length) : unPacket pool (.ofList B) =
    if 4 + lengthOf B ≤ B.length then
      if lengthOf B < 2 + typeLenOf B then none
      else some ((some (B.extract 6 (6 + typeLenOf B)), B.extract (6 + typeLenOf B) (4 + lengthOf B)),
        .ofList (B.drop (4 + lengthOf B)))
    else some ((none, []), .ofList B) := by
  have hlen : (RingBuffer.ofList B).length = B.length := rfl
  have hpeek : peekUint 4 (.ofList B) = lengthOf B := if_neg (by omega)
  have hpeek' : peekUint 2 ((RingBuffer.ofList B).retrieve 4) = typeLenOf B := by
    rw [RingBuffer.retrieve_ofList]
    apply if_neg
    simp only [RingBuffer.length, RingBuffer.data_ofList, List.length_drop]
    omega
  simp only [unPacket, hlen, if_pos h, hpeek, Nat.add_comm (lengthOf B) 4]
  rw [hpeek', RingBuffer.retrieve_ofList, RingBuffer.retrieve_ofList, List.drop_drop]
  split
  next hwhole =>
    by_cases hfull : lengthOf B < 2 + typeLenOf B
    · have hneg : ((lengthOf B : Int) - 2 - typeLenOf B) < 0 := by omega
      simp only [if_pos hneg, if_pos hfull]
    · have hneg : ¬ ((lengthOf B : Int) - 2 - typeLenOf B) < 0 := by omega
      have hdata : ((lengthOf B : Int) - 2 - typeLenOf B).toNat = lengthOf B - 2 - typeLenOf B := by omega
      have htype : (pool (typeLenOf B)).val.length ≤ (B.drop 6).length := by
        rw [(pool (typeLenOf B)).property, List.length_drop]
        omega
      have hread := readInto_ofList htype
      rw [(pool (typeLenOf B)).property, List.drop_drop] at hread
      have hread' : readInto (.ofList (B.drop (6 + typeLenOf B)))
          (List.replicate (lengthOf B - 2 - typeLenOf B) 0) =
          (B.extract (6 + typeLenOf B) (4 + lengthOf B), .ofList (B.drop (4 + lengthOf B))) := by
        have hroom : (List.replicate (lengthOf B - 2 - typeLenOf B) (0 : UInt8)).length ≤
            (B.drop (6 + typeLenOf B)).length := by
          rw [List.length_replicate, List.length_drop]
          omega
        rw [readInto_ofList hroom, List.length_replicate, List.drop_drop, List.extract_eq_take_drop,
          show 4 + lengthOf B - (6 + typeLenOf B) = lengthOf B - 2 - typeLenOf B by omega,
          show 6 + typeLenOf B + (lengthOf B - 2 - typeLenOf B) = 4 + lengthOf B by omega]
      have hextract : B.extract 6 (6 + typeLenOf B) = (B.drop 6).take (typeLenOf B) := by
        rw [List.extract_eq_take_drop, Nat.add_sub_cancel_left]
      simp only [if_neg hneg, if_neg hfull, hdata, hread, hread', hextract]
  next _ => rfl

/-- UnPacket is exact on every content of the buffer but two kinds. -/
theorem unPacket_exact (B : Bytes) : Exact pool B ↔ ¬ Overfull B ∧ ¬ Bare B := by
  rcases Nat.lt_or_ge 6 B.length with hlong | hshort
  · have hu := unPacket_ofList pool hlong
    have hbare : ¬ Bare B := fun hb => absurd hb.1 (Nat.ne_of_gt hlong)
    by_cases hover : Overfull B
    · refine iff_of_false (fun he => ?_) (fun hno => hno.1 hover)
      rw [if_pos hover.2.1, if_pos hover.2.2] at hu
      exact he.safe hu
    · refine iff_of_true ⟨?_, ?_, ?_⟩ ⟨hover, hbare⟩
      · rw [hu]
        split
        next hwhole =>
          rw [if_neg (fun hlt => hover ⟨hlong, hwhole, hlt⟩)]
          exact Option.some_ne_none _
        next _ => exact Option.some_ne_none _
      · intro _ hwhole hfit
        rw [hu, if_pos hwhole, if_neg (Nat.not_lt.mpr hfit)]
      · intro hpart
        rw [hu, if_neg (by omega)]
  · have hu := unPacket_few pool hshort
    have hover : ¬ Overfull B := fun ho => absurd ho.1 (Nat.not_lt.mpr hshort)
    by_cases hbare : Bare B
    · refine iff_of_false (fun he => ?_) (fun hno => hno.2 hbare)
      obtain ⟨hlen, hl, ht⟩ := hbare
      have hwhole := he.whole (by omega) (by omega) (by omega)
      rw [hu] at hwhole
      simp at hwhole
    · refine iff_of_true ⟨?_, ?_, fun _ => hu⟩ ⟨hover, hbare⟩
      · rw [hu]
        exact Option.some_ne_none _
      · intro h6 hwhole hfit
        exact absurd ⟨by omega, by omega, by omega⟩ hbare

/-- Seven bytes of zero make UnPacket panic, and a message without type and data is not delivered. -/
theorem unPacket_inexact :
    unPacket cleared (.ofList [0, 0, 0, 0, 0, 0, 0]) = none ∧
    ([0, 0, 0, 2, 0, 0] : Bytes).length = 4 + lengthOf [0, 0, 0, 2, 0, 0] ∧
    lengthOf [0, 0, 0, 2, 0, 0] = 2 + typeLenOf [0, 0, 0, 2, 0, 0] ∧
    unPacket cleared (.ofList [0, 0, 0, 2, 0, 0]) = some ((none, []), .ofList [0, 0, 0, 2, 0, 0]) := by
  decide

end Gev.Protobuf.Framing
