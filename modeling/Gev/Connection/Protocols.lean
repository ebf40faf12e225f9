import Gev.Connection.Draining
import Gev.Protobuf.Framing
import Gev.Websocket.Upgrade
import Gev.Websocket.Wrap

namespace Gev.Connection.Protocols

open Lib.Atomic Lib.Slices Lib.RingBuffers Lib.Substrings State Code ReadPath Draining
open Gev.Websocket.Framing (Header Scratch)
open Gev.Websocket.Http (Library)
open Gev.Websocket.Upgrade (Upgrader upgrader upgrade takeRequest handshake terminator)
open Gev.Websocket.Wrap (Context)

variable {σ ε υ : Type}

section Websocket

variable (order : Websocket.Cipher.ByteOrder) (lib : Library σ ε) (u : Upgrader σ ε) (pooled : Scratch)

def afterUpgrade (wrap : Nat) (c : σ) (buffer : RingBuffer UInt8) : σ :=
  match (upgrade lib u wrap c buffer).1 with
  | .ok o => o.conn
  | .error _ => c

def websocketProtocol : Protocol (Context σ) Header Bytes where
  unPacket st wrap buffer :=
    let (message, headerbuffer, rest) :=
      Websocket.Decoder.unPacket order (upgrader lib u (fun _ => wrap) st.app) pooled st.headerbuffer buffer
    let app := if st.headerbuffer.isSome then st.app else afterUpgrade lib u wrap st.app buffer
    ⟨⟨headerbuffer, app⟩, buffer.length - rest.length, rest.cursor, message.1, message.2⟩
  packet _ data := data

variable {lib u}

theorem takeRequest_cases (wrap : Nat) (buffer : RingBuffer UInt8) :
    takeRequest wrap buffer = ([], buffer) ∨
      ∃ n, 0 < n ∧ n ≤ buffer.length ∧ takeRequest wrap buffer = buffer.read n := by
  cases hfirst : index terminator (buffer.data.take wrap) with
  | some i =>
      have hfit := index_add_le hfirst
      rw [Websocket.Upgrade.length_terminator, List.length_take] at hfit
      exact .inr ⟨i + 4, by omega, Nat.le_trans hfit (Nat.min_le_right _ _),
        Websocket.Upgrade.takeRequest_of_first hfirst⟩
  | none =>
      rw [Websocket.Upgrade.takeRequest_of_last hfirst]
      cases hlast : index terminator (buffer.data.drop wrap) with
      | none => exact .inl rfl
      | some i =>
          have hfit := index_add_le hlast
          rw [Websocket.Upgrade.length_terminator, List.length_drop] at hfit
          exact .inr ⟨i + 4, by omega, Nat.le_trans hfit (Nat.sub_le _ _), rfl⟩

variable (lib u) in
/-- Without a request there is no response. -/
theorem handshake_nil (c : σ) : ∃ err c', handshake lib u c [] = .ok ⟨[], ⟨[], []⟩, some err, c'⟩ := by
  obtain ⟨⟨req, hreq, -⟩, -⟩ | ⟨-, hrefused⟩ := Websocket.Upgrade.handshake_cases lib u c []
  · obtain ⟨version, hline, -⟩ := Websocket.Http.httpParseRequestLine_ok_iff.mp hreq
    simp [split, splitN] at hline
  · exact hrefused

theorem upgrade_rest (wrap : Nat) (c : σ) (buffer : RingBuffer UInt8) :
    ((upgrader lib u (fun _ => wrap) c).upgrade buffer).2.2 = (takeRequest wrap buffer).2 := by
  simp only [upgrader, upgrade]
  cases handshake lib u c (takeRequest wrap buffer).1 <;> rfl

theorem upgrade_shrinks {wrap : Nat} {c : σ} {buffer : RingBuffer UInt8}
    (h : ((upgrader lib u (fun _ => wrap) c).upgrade buffer).1 ≠ []) :
    ((upgrader lib u (fun _ => wrap) c).upgrade buffer).2.2.length < buffer.length := by
  rw [upgrade_rest]
  rcases takeRequest_cases wrap buffer with hnone | ⟨n, hpos, hle, htaken⟩
  · obtain ⟨err, c', hrefused⟩ := handshake_nil lib u c
    simp only [upgrader, upgrade, hnone, hrefused] at h
    exact absurd rfl h
  · have hread := Websocket.Upgrade.length_read buffer n hle
    rw [htaken]
    omega

theorem upgrade_suffix (wrap : Nat) (c : σ) (buffer : RingBuffer UInt8) :
    ((upgrader lib u (fun _ => wrap) c).upgrade buffer).2.2.data <:+ buffer.data := by
  rw [upgrade_rest]
  rcases takeRequest_cases wrap buffer with hnone | ⟨n, -, -, htaken⟩
  · rw [hnone]
  · rw [htaken]
    exact List.drop_suffix _ _

/-- The buffer is left as UnPacket leaves it. -/
theorem websocket_buffer (st : Context σ) (wrap : Nat) (buffer : RingBuffer UInt8) :
    let r := (websocketProtocol order lib u pooled).unPacket st wrap buffer
    buffer.advance r.consumed r.cursor =
      (Websocket.Decoder.unPacket order (upgrader lib u (fun _ => wrap) st.app) pooled st.headerbuffer buffer).2.2 := by
  obtain ⟨headerbuffer, app⟩ := st
  apply RingBuffer.advance_of_suffix
  cases headerbuffer with
  | none => exact upgrade_suffix wrap app buffer
  | some bts => exact Websocket.Decoder.unPacket_suffix order (upgrader lib u (fun _ => wrap) app) pooled bts buffer

/-- On any connection, with any bytes in its header buffer and a virtual read pending or not, what UnPacket returns is
paid for with bytes of the input. -/
theorem websocket_shrinks : Shrinks (websocketProtocol order lib u pooled) := by
  rintro ⟨headerbuffer, app⟩ wrap buffer
  dsimp only
  rw [websocket_buffer]
  cases headerbuffer with
  | none =>
      intro hmore
      exact upgrade_shrinks (hmore.resolve_left Bool.false_ne_true)
  | some bts =>
      obtain ⟨message, bts', rest, heq, hcase⟩ :=
        Websocket.Decoder.unPacket_cases order (upgrader lib u (fun _ => wrap) app) pooled bts buffer
      simp only [websocketProtocol, heq]
      intro hmore
      rcases hcase with rfl | ⟨-, hlt⟩
      · simp at hmore
      · exact hlt

end Websocket

section Protobuf

/-- What a connection keeps for the protobuf plugin: nothing but the application's state. The flag is set by a panic. -/
structure Guarded (υ : Type) where
  app : υ
  panicked : Bool

variable (pool : (n : Nat) → { p : Bytes // p.length = n })

/-- Protocol of the protobuf plugin. A panic of make ends the loop, as a result of nothing does. -/
def protobufProtocol : Protocol (Guarded υ) Bytes Bytes where
  unPacket st _ buffer :=
    match Protobuf.Framing.unPacket pool buffer with
    | some (message, rest) => ⟨st, buffer.length - rest.length, rest.cursor, message.1, message.2⟩
    | none => ⟨{ st with panicked := true }, 0, buffer.cursor, none, []⟩
  packet _ data := data

theorem readInto_suffix (buffer : RingBuffer UInt8) (p : Bytes) :
    (Protobuf.Framing.readInto buffer p).2.data <:+ buffer.data :=
  List.drop_suffix _ _

/-- A message takes its two lengths and what they announce off the front of the buffer. -/
theorem protobuf_cases {buffer rest : RingBuffer UInt8} {message : Option Bytes × Bytes}
    (h : Protobuf.Framing.unPacket pool buffer = some (message, rest)) :
    (message = (none, []) ∧ rest = buffer) ∨ (6 < buffer.length ∧ rest.data <:+ buffer.data.drop 6) := by
  rw [Protobuf.Framing.unPacket] at h
  split at h
  next h6 =>
    dsimp only at h
    split at h
    next hwhole =>
      split at h
      · cases h
      · cases h
        refine .inr ⟨h6, ((readInto_suffix _ _).trans (readInto_suffix _ _)).trans ?_⟩
        rw [RingBuffer.data_retrieve, RingBuffer.data_retrieve, List.drop_drop]
    next =>
      cases h
      exact .inl ⟨rfl, rfl⟩
  next =>
    cases h
    exact .inl ⟨rfl, rfl⟩

theorem protobuf_shrinks : Shrinks (protobufProtocol pool : Protocol (Guarded υ) Bytes Bytes) := by
  intro st wrap buffer
  simp only [protobufProtocol]
  cases hunpack : Protobuf.Framing.unPacket pool buffer with
  | none =>
      intro hmore
      simp at hmore
  | some r =>
      obtain ⟨message, rest⟩ := r
      intro hmore
      rcases protobuf_cases pool hunpack with ⟨rfl, -⟩ | ⟨h6, hsuffix⟩
      · simp at hmore
      · have hlen := hsuffix.length_le
        rw [RingBuffer.advance_of_suffix (hsuffix.trans (List.drop_suffix 6 buffer.data))]
        simp only [RingBuffer.length, List.length_drop] at h6 hlen ⊢
        omega

end Protobuf

theorem default_shrinks {κ : Type} : Shrinks (defaultProtocol : Protocol σ κ Bytes) := by
  intro user wrap buffer
  dsimp only
  intro hmore
  have hne : buffer.data ≠ [] := by
    intro hnil
    simp [defaultProtocol, RingBuffer.peekAll, hnil] at hmore
  have hpos := List.length_pos_iff.mpr hne
  simp only [defaultProtocol, RingBuffer.length, RingBuffer.data_advance, List.length_drop]
  omega

inductive BuiltIn : {σ κ δ : Type} → Protocol σ κ δ → Prop
  | default {σ κ : Type} : BuiltIn (defaultProtocol : Protocol σ κ Bytes)
  | websocket {σ ε : Type} (order : Websocket.Cipher.ByteOrder) (lib : Library σ ε) (u : Upgrader σ ε)
      (pooled : Scratch) : BuiltIn (websocketProtocol order lib u pooled)
  | protobuf {υ : Type} (pool : (n : Nat) → { p : Bytes // p.length = n }) :
      BuiltIn (protobufProtocol pool : Protocol (Guarded υ) Bytes Bytes)

theorem BuiltIn.shrinks {σ κ δ : Type} {p : Protocol σ κ δ} (h : BuiltIn p) : Shrinks p := by
  cases h with
  | default => exact default_shrinks
  | websocket order lib u pooled => exact websocket_shrinks order pooled
  | protobuf pool => exact protobuf_shrinks pool

/-- With a protocol of the library every message takes bytes from the buffer, so that handlerProtocol ends, after at
most as many calls of OnMessage as there were bytes. -/
theorem message_loop_ends {C κ δ : Type} [DecidableEq C] (cfg : Config C σ κ δ) (h : BuiltIn cfg.protocol) :
    Shrinks cfg.protocol ∧
    ∀ (policy : Policy C σ κ δ) (c : C) (b : Buffer) (fuel : Nat) (L : Local C σ κ δ) (tmpBuffer : Slice),
      b ≠ .outBuffer → Placed c b L tmpBuffer → (L.ring c b).length < fuel →
        ∃ r calls, eval (semantics cfg) policy (handlerProtocol c b fuel tmpBuffer) L = some r ∧
          messages (r.2.conns c) = messages (L.conns c) ++ calls ∧ calls.length ≤ (L.ring c b).length := by
  refine ⟨h.shrinks, ?_⟩
  intro policy c b fuel L tmpBuffer hb hplaced hfuel
  obtain ⟨r, calls, hr, hkept, hcount⟩ := handlerProtocol_drains policy h.shrinks hb hplaced hfuel
  exact ⟨r, calls, hr, hkept.messages, hcount⟩

/-- A server with the protobuf plugin that echoes, and a connection on which one message has come in. -/
def echoes : Config Unit (Guarded Unit) Bytes Bytes :=
  ⟨fun _ => 5, 0, protobufProtocol Protobuf.Framing.cleared, ⟨id, fun st _ data => (st, some data), id⟩, fun _ n => n⟩

def helloArrived : Local Unit (Guarded Unit) Bytes Bytes :=
  newLocal 16 fun _ => { newConnection echoes ⟨(), false⟩ 0 with inBuffer := .ofList Protobuf.Framing.hello.encode }

theorem message_loop_ends_hello : ∃ r calls,
    eval (semantics echoes) (fun o _ => Answers.choice ⟨0, 0, .error .EAGAIN, .count 0, true, []⟩ o)
      (handlerProtocol () .inBuffer 10 ⟨0, 0, 0, 16⟩) helloArrived = some r ∧
    messages (r.2.conns ()) = calls ∧ calls.length ≤ 9 := by
  have hbuiltIn : BuiltIn echoes.protocol := .protobuf Protobuf.Framing.cleared
  have hplaced : Placed () .inBuffer helloArrived ⟨0, 0, 0, 16⟩ :=
    ⟨⟨by decide, by decide, by decide⟩, fun hb => by contradiction⟩
  obtain ⟨-, hends⟩ := message_loop_ends echoes hbuiltIn
  obtain ⟨r, calls, hr, hcalls, hcount⟩ := hends
    (fun o _ => Answers.choice ⟨0, 0, .error .EAGAIN, .count 0, true, []⟩ o) () .inBuffer 10 helloArrived
    ⟨0, 0, 0, 16⟩ (by decide) hplaced (by decide)
  exact ⟨r, calls, hr, hcalls, hcount⟩

end Gev.Connection.Protocols
