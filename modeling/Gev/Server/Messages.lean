import Gev.Connection.Protocols
import Gev.Example.Protocol
import Gev.Server.Refinement

namespace Gev.Server.Messages

open Lib.Runs Lib.RingBuffers Connection.State Connection.Code Connection.Behaviour Connection.Framing
open Connection.Protocols Interleaving Invariant Delivery Refinement
open Connection.ReadPath (messages)
open Connection.Traffic (sendsTo)
open Lib.Streams (Framing stream arrived unfinished)
open Example.Protocol (Payload exampleProtocol)
open Protobuf.Framing (Message)

section Codecs

variable {υ : Type} {pool : (n : Nat) → { p : Bytes // p.length = n }} {st : Guarded υ} {wrap : Nat}
variable {buffer rest : RingBuffer UInt8}

theorem protobuf_user {r : Option (Option Bytes × Bytes) × RingBuffer UInt8}
    (h : Protobuf.Framing.next pool buffer = some r) : ((protobufProtocol pool).unPacket st wrap buffer).user = st := by
  obtain ⟨u, hu, -⟩ := Option.map_eq_some_iff.mp h
  simp only [protobufProtocol, hu]

/-- A round with the protobuf codec is one of its own rounds, unless that panics. -/
theorem round_protobuf {r : Option (Option Bytes × Bytes) × RingBuffer UInt8}
    (h : Protobuf.Framing.next pool buffer = some r) : oneRound (protobufProtocol pool) st wrap buffer = some r := by
  obtain ⟨⟨message, rest⟩, hu, rfl⟩ := Option.map_eq_some_iff.mp h
  have hsuffix : rest.data <:+ buffer.data := by
    rcases protobuf_cases pool hu with ⟨-, rfl⟩ | ⟨-, hsuffix⟩
    · exact List.suffix_refl _
    · exact hsuffix.trans (List.drop_suffix 6 buffer.data)
  simp only [oneRound, protobufProtocol, hu, RingBuffer.advance_of_suffix hsuffix]

variable (υ pool) in
theorem protobuf_framed :
    Framed (protobufProtocol pool : Protocol (Guarded υ) Bytes Bytes) Message.encode Message.delivered where
  framing := by
    intro st wrap
    have hframing := Protobuf.Framing.framing pool
    exact ⟨fun m rest => round_protobuf (hframing.whole m rest), fun m n hn => round_protobuf (hframing.part m n hn),
      round_protobuf hframing.empty, hframing.write, hframing.nonempty⟩
  user := by
    intro st wrap ms n hn
    rcases (Protobuf.Framing.framing pool).next_take ms hn with ⟨-, -, hnext⟩ | ⟨_, _, _, -, -, -, hnext⟩
    · exact protobuf_user hnext
    · exact protobuf_user hnext

/-- The codecs whose messages carry their length in front: that of the protobuf plugin and that of the example. -/
inductive LengthPrefixed : {σ κ μ : Type} → Protocol σ κ Bytes → (μ → Bytes) → (μ → Option κ × Bytes) → Prop
  | protobuf {υ : Type} (pool : (n : Nat) → { p : Bytes // p.length = n }) :
      LengthPrefixed (protobufProtocol pool : Protocol (Guarded υ) Bytes Bytes) Message.encode Message.delivered
  | sized {σ κ : Type} :
      LengthPrefixed (exampleProtocol : Protocol σ κ Bytes) Payload.encode fun m => (none, m.data)

theorem LengthPrefixed.framed {σ κ μ : Type} {p : Protocol σ κ Bytes} {encode : μ → Bytes}
    {view : μ → Option κ × Bytes} (h : LengthPrefixed p encode view) : Framed p encode view := by
  cases h with
  | protobuf pool => exact protobuf_framed _ pool
  | sized => exact Example.Protocol.framed

end Codecs

variable {Λ G C σ κ μ : Type} [DecidableEq C] [DecidableEq Λ] [DecidableEq G]

/-- A server with one of these codecs. If the bytes that the kernel delivers for a connection begin a stream of
messages, then OnMessage has been called with those that have come in completely, in order and once each, however the
stream was cut and whatever else was going on, and the rest is kept. Without Sends, what the kernel has taken are the
first of the replies that the handler gives to these messages one by one. -/
theorem messages_arrive (S : Setup Λ C σ κ Bytes) {encode : μ → Bytes} {view : μ → Option κ × Bytes}
    (hcodec : LengthPrefixed S.cfg.protocol encode view) (packetSize taskQueueSize : Nat) (conns : C → Conn σ κ)
    (hconns : ∀ c, ∃ user now, conns c = newConnection S.cfg user now) (ls : List (Label Λ G C Bytes))
    (s : Process Λ G C σ κ Bytes) (h : run (step S) (init packetSize taskQueueSize conns) ls = some s) (c : C)
    (u : Unit) (hd : (s.loops (S.loopOf c)).prog = .done u) (ms : List μ) (n : Nat)
    (hn : n = (delivered S c (init packetSize taskQueueSize conns) ls).flatten.length)
    (hms : (delivered S c (init packetSize taskQueueSize conns) ls).flatten <+: stream encode ms) :
    messages (s.conn S c) = (arrived encode ms n).map view ∧
    (s.conn S c).inBuffer = .ofList (unfinished encode ms n) ∧
    (Meets (step S) Timely (init packetSize taskQueueSize conns) ls →
      (∀ user, S.cfg.callBack.onConnect user = user) → (∀ user, S.cfg.callBack.onClose user = user) →
      (s.loops (S.loopOf c)).poll.executed.filterMap (sendsTo c) = [] →
      ∃ user replies, answer S.cfg (conns c).user ((arrived encode ms n).map view) = (user, replies) ∧
        (s.conn S c).user = user ∧ (s.conn S c).accepted <+: replies ∧
        ((s.conn S c).connected = true → (s.conn S c).accepted ++ (s.conn S c).outBuffer.data = replies)) := by
  obtain ⟨user, now, hc⟩ := hconns c
  obtain ⟨es, hes⟩ := lives_of_run h hc hd
  have hframed := hcodec.framed
  have huser : (conns c).user = user := by rw [hc]; rfl
  have htaken : taken es = (delivered S c (init packetSize taskQueueSize conns) ls).flatten :=
    congrArg List.flatten hes.input.symm
  rw [← htaken] at hn hms
  obtain ⟨hcalls, hunread⟩ := behaves_stream hframed hes.behaves rfl hms
  rw [← hn] at hcalls hunread
  refine ⟨hes.messages.trans hcalls, hunread, ?_⟩
  intro hok hconnect hclose hsends
  have hanswer := behaves_answer hframed hconnect hclose hes.behaves rfl hms
  rw [hcalls] at hanswer
  have hout := output_of_lives (inv_of_run hconns hok h) hd hes
  rw [output_eq_replies (hes.no_sends hsends)] at hout
  exact ⟨_, _, huser ▸ hanswer.symm, rfl, hout⟩

def echoing : Setup Unit Nat (Guarded Unit) Bytes Bytes where
  cfg := ⟨fun _ => 5, 0, protobufProtocol Protobuf.Framing.cleared, ⟨id, fun st _ data => (st, some data), id⟩,
    fun _ n => n⟩
  loopOf _ := ()
  growQueue _ n := n
  fuel := 3

def fresh : Nat → Conn (Guarded Unit) Bytes := fun _ => newConnection echoing.cfg ⟨(), false⟩ 0

def echoingInit : Process Unit Bool Nat (Guarded Unit) Bytes Bytes := init 16 4 fresh

/-- The loop handles a socket that is ready, from which the given bytes can be read. -/
def reads (n : Nat) (data : Bytes) : List LifeCycle.Step :=
  LifeCycle.runs [.poll [.socket 5 EventRead], .event] ++
    .replicate n (.op () ⟨0, 1, .bytes data, .count 1, true, [1]⟩) ++ LifeCycle.runs [.endBatch]

def greeting : List LifeCycle.Step :=
  LifeCycle.registering ++ reads 12 [0, 0, 0, 5, 0] ++ reads 20 [2, 104, 105, 1]

theorem messages_arrive_cut : ∃ s, run (step echoing) echoingInit greeting = some s ∧
    delivered echoing 1 echoingInit greeting = [[0, 0, 0, 5, 0], [2, 104, 105, 1]] ∧
    messages (s.conn echoing 1) = [(some [104, 105], [1])] ∧ (s.conn echoing 1).inBuffer = .ofList [] ∧
    (s.conn echoing 1).accepted = [1] ∧
    ∃ user replies, answer echoing.cfg ⟨(), false⟩ [(some [104, 105], [1])] = (user, replies) ∧ [1] <+: replies := by
  have hrun : ∃ s, run (step echoing) echoingInit greeting = some s ∧ (s.loops ()).prog = .done () ∧
      delivered echoing 1 echoingInit greeting = [[0, 0, 0, 5, 0], [2, 104, 105, 1]] ∧
      (s.loops ()).poll.executed.filterMap (sendsTo 1) = [] ∧ (s.conn echoing 1).accepted = [1] :=
    ⟨_, rfl, rfl, rfl, rfl, rfl⟩
  obtain ⟨s, hs, hd, hin, hsends, hacc⟩ := hrun
  have hconns : ∀ c, ∃ user now, fresh c = newConnection echoing.cfg user now := fun _ => ⟨_, _, rfl⟩
  have hok : Meets (step echoing) Timely echoingInit greeting := timely_run (Int.le_refl 0) hconns greeting
  have hstream : (delivered echoing 1 echoingInit greeting).flatten <+:
      stream Message.encode [Protobuf.Framing.hello] := hin.symm ▸ List.prefix_refl _
  obtain ⟨hmessages, hkept, hanswer⟩ := messages_arrive echoing (.protobuf Protobuf.Framing.cleared) 16 4 fresh hconns
    greeting s hs 1 () hd [Protobuf.Framing.hello] 9 (congrArg (·.flatten.length) hin).symm hstream
  obtain ⟨user, replies, heq, -, hle, -⟩ := hanswer hok (fun _ => rfl) (fun _ => rfl) hsends
  exact ⟨s, hs, hin, hmessages, hkept, hacc, user, replies, heq, hacc ▸ hle⟩

end Gev.Server.Messages
