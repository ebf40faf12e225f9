import Gev.Connection.Framing
import Gev.Lib.BigEndian

namespace Gev.Example.Protocol

open Gev.Lib Gev.Lib.RingBuffers Gev.Connection.State Gev.Connection.Framing

section Code

def exampleHeaderLen : Nat := 4

/-- UnPacket of ExampleProtocol: what it returns and the buffer it leaves. -/
def unPacket (buffer : RingBuffer UInt8) : Bytes × RingBuffer UInt8 :=
  if exampleHeaderLen < buffer.virtualLength then
    let (buf, buffer) := buffer.virtualRead exampleHeaderLen
    let dataLen := BigEndian.get buf
    if dataLen ≤ buffer.virtualLength then
      let (ret, buffer) := buffer.virtualRead dataLen
      (ret, buffer.virtualFlush)
    else ([], buffer.virtualRevert)
  else ([], buffer)

def packet (data : Bytes) : Bytes := BigEndian.put exampleHeaderLen data.length ++ data

def exampleProtocol {σ κ : Type} : Protocol σ κ Bytes where
  unPacket user _ buffer :=
    let (out, rest) := unPacket buffer
    ⟨user, buffer.length - rest.length, rest.cursor, none, out⟩
  packet _ data := packet data

end Code

structure Payload where
  data : Bytes
  nonempty : data ≠ []
  length : data.length < 2 ^ 32

namespace Payload

def encode (m : Payload) : Bytes := packet m.data

theorem length_encode (m : Payload) : m.encode.length = 4 + m.data.length := by
  simp [encode, packet, exampleHeaderLen]

theorem length_pos (m : Payload) : 0 < m.data.length := List.length_pos_of_ne_nil m.nonempty

theorem get_encode (m : Payload) {n : Nat} (h : 4 ≤ n) (rest : Bytes) :
    BigEndian.get (((m.encode ++ rest).take n).take 4) = m.data.length := by
  have hput : (m.encode ++ rest).take 4 = BigEndian.put 4 m.data.length := by
    rw [encode, packet, exampleHeaderLen, List.append_assoc, List.take_left' (BigEndian.length_put 4 _)]
  rw [List.take_take, Nat.min_eq_left h, hput, BigEndian.get_put]
  exact Nat.mod_eq_of_lt m.length

end Payload

theorem unPacket_ofList {xs : Bytes} (h : 4 < xs.length) :
    unPacket (.ofList xs) =
      if BigEndian.get (xs.take 4) ≤ xs.length - 4 then
        ((xs.drop 4).take (BigEndian.get (xs.take 4)), .ofList (xs.drop (4 + BigEndian.get (xs.take 4))))
      else ([], .ofList xs) := by
  have hlen : exampleHeaderLen < (RingBuffer.ofList xs).virtualLength := h
  rw [unPacket, if_pos hlen]
  dsimp only
  rw [RingBuffer.virtualRead_virtualRead, exampleHeaderLen, RingBuffer.virtualLength_virtualRead,
    RingBuffer.virtualFlush_virtualRead]
  rfl

theorem unPacket_whole (m : Payload) (rest : Bytes) :
    unPacket (.ofList (m.encode ++ rest)) = (m.data, .ofList rest) := by
  have hpos := m.length_pos
  have hlen : (m.encode ++ rest).length = 4 + m.data.length + rest.length := by
    rw [List.length_append, m.length_encode]
  have hget := m.get_encode (n := (m.encode ++ rest).length) (by omega) rest
  rw [List.take_length] at hget
  have hdrop : (m.encode ++ rest).drop 4 = m.data ++ rest := by
    rw [Payload.encode, packet, List.append_assoc]
    exact List.drop_left' (BigEndian.length_put 4 _)
  rw [unPacket_ofList (by omega), hget, if_pos (by omega), ← List.drop_drop, hdrop, List.take_left, List.drop_left]

theorem unPacket_part (m : Payload) {n : Nat} (h : n < m.encode.length) :
    unPacket (.ofList (m.encode.take n)) = ([], .ofList (m.encode.take n)) := by
  have hlen : (m.encode.take n).length = n := by
    rw [List.length_take, Nat.min_eq_left (Nat.le_of_lt h)]
  by_cases hn : 4 < n
  · have hget := m.get_encode (Nat.le_of_lt hn) []
    rw [List.append_nil] at hget
    rw [m.length_encode] at h
    rw [unPacket_ofList (by omega), hget, if_neg (by omega)]
  · exact if_neg (fun hlt => hn (hlen ▸ hlt))

theorem round_eq {σ κ : Type} {user : σ} {wrap : Nat} {xs rest out : Bytes}
    (h : unPacket (.ofList xs) = (out, .ofList rest)) (hrest : rest <:+ xs) :
    oneRound (exampleProtocol : Protocol σ κ Bytes) user wrap (.ofList xs) =
      some (if out ≠ [] then some (none, out) else none, .ofList rest) := by
  have hadvance : (RingBuffer.ofList xs).advance ((RingBuffer.ofList xs).length - (RingBuffer.ofList rest).length)
      (RingBuffer.ofList rest).cursor = .ofList rest := RingBuffer.advance_of_suffix hrest
  simp only [oneRound, exampleProtocol, h, hadvance, Option.isSome_none, Bool.false_eq_true, false_or]

theorem framed {σ κ : Type} :
    Framed (exampleProtocol : Protocol σ κ Bytes) Payload.encode fun m => (none, m.data) where
  framing := by
    intro user wrap
    refine ⟨?_, ?_, rfl, RingBuffer.write_ofList, ?_⟩
    · intro m rest
      rw [round_eq (unPacket_whole m rest) (List.suffix_append _ _), if_pos m.nonempty]
    · intro m n hn
      rw [round_eq (unPacket_part m hn) (List.suffix_refl _), if_neg (fun h => h rfl)]
    · intro m hnil
      have hlen := m.length_encode
      rw [hnil] at hlen
      exact absurd hlen (by simp; omega)
  user := by
    intro user wrap ms n hn
    rfl

end Gev.Example.Protocol
