import Gev.Connection.Protocols
import Gev.Server.Refinement
import Gev.Websocket.Handshake

namespace Gev.Server.Upgrades

open Lib.Runs Lib.RingBuffers Connection.State Connection.Code Connection.Behaviour Connection.Protocols
open Interleaving Invariant Delivery Refinement
open Connection.ReadPath (messages reply)
open Connection.Traffic (sendsTo)
open Websocket.Framing (Header Scratch)
open Websocket.Http (Library HandshakeError ascii itoa textHeadUpgrade)
open Websocket.Upgrade (Upgrader Outcome Answered statusCode upgrade upgrader)
open Websocket.Chunking (zeroScratch)
open Websocket.Wrap (Context WSHandler handlerWrap)

section Codec

/-- A call of OnMessage on a websocket connection: with the response of a call of Upgrade that has returned an error,
with the response of one that has not, or with a frame. -/
inductive Call
  | refused (err : HandshakeError) (out : Bytes)
  | accepted (out : Bytes)
  | frame (header : Header) (payload : Bytes)

def Call.message : Call → Option Header × Bytes
  | .refused _ out | .accepted out => (none, out)
  | .frame header payload => (some header, payload)

def Call.isRefused : Call → Bool
  | .refused _ _ => true
  | .accepted _ | .frame _ _ => false

def Call.isAccepted : Call → Bool
  | .accepted _ => true
  | .refused _ _ | .frame _ _ => false

def Call.isFrame : Call → Bool
  | .frame _ _ => true
  | .refused _ _ | .accepted _ => false

variable {υ ε : Type} (order : Websocket.Cipher.ByteOrder) (lib : Library υ ε) (u : Upgrader υ ε) (pooled : Scratch)

variable {order lib u pooled} {st : Context υ} {wrap : Nat} {buffer : RingBuffer UInt8}
variable {r : Unpacked (Context υ) Header}

end Codec

/-- How a websocket connection has gone so far, by its calls of OnMessage and what was replied to them. Until there is
a header buffer, there are responses that refuse a handshake, and they are what was replied. Then there is one that
accepts it, and nothing but frames behind it. -/
def Talk (talk : List Call) (replies : Bytes) : Option Scratch → Prop
  | none => (∀ call ∈ talk, call.isRefused) ∧ replies = talk.flatMap (·.message.2)
  | some _ => ∃ refused out frames answers, talk = refused ++ .accepted out :: frames ∧
      (∀ call ∈ refused, call.isRefused) ∧ (∀ call ∈ frames, call.isFrame) ∧
      replies = refused.flatMap (·.message.2) ++ out ++ answers

section Talking

variable {C υ ε : Type} {order : Websocket.Cipher.ByteOrder} {lib : Library υ ε} {u : Upgrader υ ε} {pooled : Scratch}
variable {wsHandler : WSHandler υ} {cfg : Config C (Context υ) Header Bytes}
variable {talk : List Call} {replies : Bytes}

theorem not_accepted_of_refused {call : Call} (h : call.isRefused) : call.isAccepted = false := by
  cases call with
  | refused => rfl
  | accepted | frame => cases h

theorem not_accepted_of_frame {call : Call} (h : call.isFrame) : call.isAccepted = false := by
  cases call with
  | frame => rfl
  | accepted | refused => cases h

/-- There is a header buffer when a handshake has been accepted, and at most one has been. -/
theorem Talk.accepted {bts : Option Scratch} (h : Talk talk replies bts) :
    (bts.isSome ↔ ∃ out, .accepted out ∈ talk) ∧ talk.countP Call.isAccepted ≤ 1 := by
  have hnone : ∀ {calls : List Call}, (∀ call ∈ calls, call.isAccepted = false) →
      calls.countP Call.isAccepted = 0 := by
    intro calls hcalls
    rw [List.countP_eq_zero]
    intro call hcall
    rw [hcalls call hcall]
    exact Bool.false_ne_true
  cases bts with
  | none =>
      obtain ⟨hrefused, -⟩ := h
      refine ⟨⟨fun h => absurd h Bool.false_ne_true, ?_⟩, ?_⟩
      · rintro ⟨out, hout⟩
        cases hrefused _ hout
      · rw [hnone (fun call hcall => not_accepted_of_refused (hrefused call hcall))]
        exact Nat.zero_le 1
  | some bts =>
      obtain ⟨refused, out, frames, answers, rfl, hrefused, hframes, -⟩ := h
      refine ⟨⟨fun _ => ⟨out, by simp⟩, fun _ => rfl⟩, ?_⟩
      rw [List.countP_append, List.countP_cons_of_pos rfl,
        hnone (fun call hcall => not_accepted_of_refused (hrefused call hcall)),
        hnone (fun call hcall => not_accepted_of_frame (hframes call hcall))]

theorem Talk.frame {bts bts' : Scratch} (h : Talk talk replies (some bts)) (header : Header) (payload answer : Bytes) :
    Talk (talk ++ [.frame header payload]) (replies ++ answer) (some bts') := by
  obtain ⟨refused, out, frames, answers, rfl, hrefused, hframes, rfl⟩ := h
  refine ⟨refused, out, frames ++ [.frame header payload], answers ++ answer, by simp, hrefused, ?_, by simp⟩
  intro call hcall
  rcases List.mem_append.mp hcall with hcall | hcall
  · exact hframes call hcall
  · rw [List.mem_singleton.mp hcall]
    rfl

theorem Talk.refuse (h : Talk talk replies none) (err : HandshakeError) (out : Bytes) :
    Talk (talk ++ [.refused err out]) (replies ++ out) none := by
  obtain ⟨hrefused, rfl⟩ := h
  refine ⟨?_, by simp [Call.message]⟩
  intro call hcall
  rcases List.mem_append.mp hcall with hcall | hcall
  · exact hrefused call hcall
  · rw [List.mem_singleton.mp hcall]
    rfl

theorem Talk.accept (h : Talk talk replies none) (out : Bytes) (bts : Scratch) :
    Talk (talk ++ [.accepted out]) (replies ++ out) (some bts) := by
  obtain ⟨hrefused, rfl⟩ := h
  exact ⟨talk, out, [], [], rfl, hrefused, by simp, by simp⟩

end Talking

variable {Λ G C υ ε : Type} [DecidableEq C] [DecidableEq Λ] [DecidableEq G]

def echoing : Setup Unit Nat (Context Unit) Header Bytes where
  cfg := ⟨fun _ => 5, 0,
    websocketProtocol .little Websocket.Upgrade.plainLibrary Websocket.Upgrade.bare zeroScratch,
    handlerWrap ⟨id, fun app msg => (app, .text, msg), id⟩, fun _ n => n⟩
  loopOf _ := ()
  growQueue _ n := n
  fuel := 3

def fresh : Nat → Conn (Context Unit) Header := fun _ => newConnection echoing.cfg ⟨none, ()⟩ 0

def echoingInit : Process Unit Bool Nat (Context Unit) Header Bytes := init 160 4 fresh

/-- The loop handles a socket that is ready, and the kernel takes the given number of bytes of the reply. -/
def reads (n : Nat) (data : Bytes) (taken : Nat) : List LifeCycle.Step :=
  LifeCycle.runs [.poll [.socket 5 EventRead], .event] ++
    .replicate n (.op () ⟨0, 200, .bytes data, .count taken, true, [1]⟩) ++ LifeCycle.runs [.endBatch]

def idle : Prog Nat Header Bytes Unit → Bool
  | .done _ => true
  | .step _ _ => false

end Gev.Server.Upgrades
