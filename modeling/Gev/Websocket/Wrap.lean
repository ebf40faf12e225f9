import Gev.Connection.Session
import Gev.Connection.Outward
import Gev.Websocket.Control
import Gev.Websocket.Chunking

namespace Gev.Websocket.Wrap

open Gev.Lib Gev.Lib.Atomic Gev.Lib.RingBuffers Gev.Connection Gev.Connection.State Gev.Connection.Code
open Gev.Connection.Reading Gev.Connection.Outward
open Gev.Websocket.Framing Gev.Websocket.Cipher Gev.Websocket.Control
open Gev.Connection.Session (answering)

inductive MessageType
  | text
  | binary
  deriving DecidableEq

structure WSHandler (υ : Type) where
  onConnect : υ → υ
  onMessage : υ → Bytes → υ × MessageType × Bytes
  onClose : υ → υ

structure Context (υ : Type) where
  headerbuffer : Option Scratch
  app : υ

variable {υ : Type}

section Code

structure Answer (υ : Type) where
  app : υ
  out : Option Bytes
  shutdown : Bool

/-- OnMessage of HandlerWrap. The slice of a control opcode without a case is nil, but the value returned is not. -/
def onMessage (wsHandler : WSHandler υ) (app : υ) (ctx : Option Header) (payload : Bytes) : Answer υ :=
  match ctx with
  | none => if payload.length ≠ 0 then ⟨app, some payload, false⟩ else ⟨app, none, false⟩
  | some header =>
      if isControl header.opCode then
        if header.opCode = opClose then ⟨app, some (handleClose header payload).1, true⟩
        else if header.opCode = opPing then ⟨app, some (handlePing payload).1, false⟩
        else if header.opCode = opPong then ⟨app, some (handlePong payload).1, false⟩
        else ⟨app, some [], false⟩
      else
        let (app, messageType, out) := wsHandler.onMessage app payload
        if 0 < out.length then
          let frame := match messageType with
            | .binary => newBinaryFrame out
            | .text => newTextFrame out
          ⟨app, some (frameToBytes frame).1, false⟩
        else ⟨app, none, false⟩

variable (order : ByteOrder) (u : Decoder.Upgrader) (pooled : Scratch) (wsHandler : WSHandler υ)

def protocol : Protocol (Context υ) Header Bytes where
  unPacket st _ buffer :=
    let (message, headerbuffer, rest) := Decoder.unPacket order u pooled st.headerbuffer buffer
    ⟨{ st with headerbuffer := headerbuffer }, buffer.length - rest.length, rest.cursor, message.1, message.2⟩
  packet _ data := data

def handlerWrap : Handler (Context υ) Header Bytes where
  onConnect st := { st with app := wsHandler.onConnect st.app }
  onMessage st ctx payload :=
    let answer := onMessage wsHandler st.app ctx payload
    ({ st with app := answer.app }, answer.out)
  onClose st := { st with app := wsHandler.onClose st.app }

def server {C : Type} (fd : C → Fd) (idleTime : Int) (grow : Nat → Nat → Nat) : Config C (Context υ) Header Bytes :=
  ⟨fd, idleTime, protocol order u pooled, handlerWrap wsHandler, grow⟩

end Code

/-- On an upgraded connection the protocol leaves the buffer that UnPacket leaves. -/
theorem protocol_buffer (order : ByteOrder) (u : Decoder.Upgrader) (pooled bts : Scratch) (app : υ) (wrap : Nat)
    (buffer : RingBuffer UInt8) :
    let unpacked := (protocol order u pooled).unPacket ⟨some bts, app⟩ wrap buffer
    buffer.advance unpacked.consumed unpacked.cursor = (Decoder.unPacket order u pooled (some bts) buffer).2.2 :=
  RingBuffer.advance_of_suffix (Decoder.unPacket_suffix order u pooled bts buffer)

section Order

variable {C : Type} [DecidableEq C]

/-- What shows of an event outside the connection: the replies OnMessage returns, the shutdowns it calls for, and the
bytes the kernel takes. -/
inductive Deed
  | reply (ctx : Option Header) (out : Bytes)
  | shutdown
  | write (data : Bytes)
  deriving DecidableEq

def Answer.deeds (answer : Answer υ) (ctx : Option Header) : List Deed :=
  .reply ctx (answer.out.getD []) :: if answer.shutdown then [.shutdown] else []

def deeds (wsHandler : WSHandler υ) : (o : Op C Header Bytes) → Choice o → Local C (Context υ) Header Bytes → List Deed
  | .onMessage c ctx payload, _, L => (onMessage wsHandler (L.conns c).user.app ctx payload).deeds ctx
  | .unixWrite _ _ data, .count n, _ => [.write (data.take n)]
  | _, _, _ => []

def Deed.replied : Deed → Bytes
  | .reply _ out => out
  | _ => []

def Deed.written : Deed → Bytes
  | .write data => data
  | _ => []

def replies (log : List Deed) : Bytes := log.flatMap Deed.replied

def written (log : List Deed) : Bytes := log.flatMap Deed.written

/-- At every shutdown, the replies up to it have been handed to the kernel. -/
def Delivered (log : List Deed) : Prop :=
  ∀ before after, log = before ++ .shutdown :: after → replies before <+: written before

def IsClose (ctx : Option Header) : Prop := ∃ header, ctx = some header ∧ header.opCode = opClose

theorem onMessage_shutdown (wsHandler : WSHandler υ) (app : υ) (ctx : Option Header) (payload : Bytes) :
    (onMessage wsHandler app ctx payload).shutdown = true ↔ IsClose ctx := by
  cases ctx with
  | none =>
      rw [onMessage]
      split <;> simp [IsClose]
  | some header =>
      by_cases hclose : header.opCode = opClose
      · have hcontrol : isControl opClose = true := rfl
        simp [onMessage, IsClose, hclose, hcontrol]
      · simp only [onMessage, hclose, if_false]
        repeat' split
        all_goals simp [IsClose, hclose]

theorem onMessage_close (wsHandler : WSHandler υ) (app : υ) {ctx : Option Header} (payload : Bytes) (h : IsClose ctx) :
    (onMessage wsHandler app ctx payload).out.getD [] ≠ [] := by
  obtain ⟨header, rfl, hclose⟩ := h
  have hcontrol : isControl opClose = true := rfl
  simpa [onMessage, hclose, hcontrol] using handleClose_ne_nil header payload

section Logs

variable (wsHandler : WSHandler υ)

inductive Parsed : List Deed → Prop
  | nil : Parsed []
  | message {log : List Deed} (h : Parsed log) (app : υ) (ctx : Option Header) (payload : Bytes) :
      Parsed (log ++ (onMessage wsHandler app ctx payload).deeds ctx)

def Shape (log : List Deed) : Prop :=
  ∃ parsed writes, log = parsed ++ writes ∧ Parsed wsHandler parsed ∧ ∀ d ∈ writes, ∃ data, d = .write data

variable {wsHandler} {log : List Deed}

theorem Parsed.shape (h : Parsed wsHandler log) : Shape wsHandler log :=
  ⟨log, [], (List.append_nil _).symm, h, by simp⟩

theorem Shape.write (h : Shape wsHandler log) (data : Bytes) : Shape wsHandler (log ++ [.write data]) := by
  obtain ⟨parsed, writes, rfl, hp, hw⟩ := h
  refine ⟨parsed, writes ++ [.write data], List.append_assoc _ _ _, hp, ?_⟩
  intro d hd
  rcases List.mem_append.mp hd with hd | hd
  · exact hw d hd
  · exact ⟨data, List.mem_singleton.mp hd⟩

theorem written_append (log more : List Deed) : written (log ++ more) = written log ++ written more :=
  List.flatMap_append

theorem Answer.written_deeds (answer : Answer υ) (ctx : Option Header) : written (answer.deeds ctx) = [] := by
  rw [Answer.deeds]
  split <;> rfl

theorem Parsed.written (h : Parsed wsHandler log) : written log = [] := by
  induction h with
  | nil => rfl
  | message _ app ctx payload ih => rw [written_append, ih, Answer.written_deeds, List.append_nil]

theorem Answer.mem_deeds {answer : Answer υ} {ctx : Option Header} {d : Deed} :
    d ∈ answer.deeds ctx ↔ d = .reply ctx (answer.out.getD []) ∨ answer.shutdown = true ∧ d = .shutdown := by
  cases h : answer.shutdown <;> simp [Answer.deeds, h]

theorem Parsed.close_iff_shutdown (h : Parsed wsHandler log) :
    (∃ ctx out, .reply ctx out ∈ log ∧ IsClose ctx) ↔ .shutdown ∈ log := by
  induction h with
  | nil => simp
  | message _ app ctx payload ih =>
      simp only [List.mem_append, Answer.mem_deeds, or_and_right, exists_or, ih, onMessage_shutdown]
      simp

/-- When a shutdown comes no bytes have been written, and its own reply is waiting. -/
theorem Parsed.at_shutdown (h : Parsed wsHandler log) (hm : .shutdown ∈ log) :
    ∃ before after, log = before ++ .shutdown :: after ∧ replies before ≠ [] ∧ Wrap.written before = [] := by
  induction h with
  | nil => cases hm
  | @message log hlog app ctx payload ih =>
      rcases List.mem_append.mp hm with hm | hm
      · obtain ⟨before, after, rfl, hr, hw⟩ := ih hm
        exact ⟨before, after ++ (onMessage wsHandler app ctx payload).deeds ctx, by simp, hr, hw⟩
      · have hs : (onMessage wsHandler app ctx payload).shutdown = true := by simpa [Answer.mem_deeds] using hm
        have hne := onMessage_close wsHandler app payload ((onMessage_shutdown wsHandler app ctx payload).mp hs)
        refine ⟨log ++ [.reply ctx ((onMessage wsHandler app ctx payload).out.getD [])], [], ?_, ?_, ?_⟩
        · simp [Answer.deeds, hs]
        · simp [replies, Deed.replied, hne]
        · rw [written_append, hlog.written]
          rfl

theorem Shape.delivered_iff (h : Shape wsHandler log) :
    Delivered log ↔ ∀ ctx out, .reply ctx out ∈ log → ¬IsClose ctx := by
  obtain ⟨parsed, writes, rfl, hp, hw⟩ := h
  have hdeed : ∀ d, (∀ data, d ≠ .write data) → d ∈ parsed ++ writes → d ∈ parsed := by
    intro d hd hm
    rcases List.mem_append.mp hm with hm | hm
    · exact hm
    · obtain ⟨data, rfl⟩ := hw d hm
      exact absurd rfl (hd data)
  constructor
  · intro hdelivered ctx out hm hclose
    have hshut := hp.close_iff_shutdown.mp ⟨ctx, out, hdeed _ (fun _ => by simp) hm, hclose⟩
    obtain ⟨before, after, rfl, hr, hwritten⟩ := hp.at_shutdown hshut
    have hle := hdelivered before (after ++ writes) (by simp)
    rw [hwritten, List.prefix_nil] at hle
    exact hr hle
  · intro hnone before after he
    have hshut : .shutdown ∈ parsed := hdeed _ (fun _ => by simp) (by rw [he]; simp)
    obtain ⟨ctx, out, hm, hclose⟩ := hp.close_iff_shutdown.mpr hshut
    exact absurd hclose (hnone ctx out (List.mem_append_left _ hm))

end Logs

section Programs

variable {cfg : Config C (Context υ) Header Bytes} {wsHandler : WSHandler υ} {c : C} {α β : Type}

abbrev watched (cfg : Config C (Context υ) Header Bytes) (wsHandler : WSHandler υ) :
    Semantics (Op C Header Bytes) Res (Local C (Context υ) Header Bytes × List Deed) :=
  (semantics cfg).logging (deeds wsHandler)

def NoMessage (o : Op C Header Bytes) : Prop := ∀ c ctx payload, o ≠ .onMessage c ctx payload

def NoWrite (o : Op C Header Bytes) : Prop := ∀ c fd data, o ≠ .unixWrite c fd data

omit [DecidableEq C] in
theorem noMessage_outgoing {o : Op C Header Bytes} (h : Outgoing o) : NoMessage o := by
  rintro c ctx payload rfl
  exact h

omit [DecidableEq C] in
theorem noWrite_parsing {o : Op C Header Bytes} (h : Parsing c o) : NoWrite o := by
  rintro c fd data rfl
  exact h

/-- All operations but OnMessage log writes, if anything. -/
theorem keeps_shape {p : Prog C Header Bytes α} (hp : p.Uses NoMessage) :
    p.Keeps (watched cfg wsHandler) (fun _ _ => True) (fun s => Shape wsHandler s.2) := by
  intro s hs
  refine Always.of_uses hp (fun _ _ _ _ => trivial) ?_ hs
  rintro o ho ch ⟨L, log⟩ r ⟨L', _⟩ h hact
  obtain ⟨-, rfl⟩ := act_logging hact
  cases o
  case onMessage d ctx payload => exact absurd rfl (ho d ctx payload)
  case unixWrite d fd data =>
    cases ch with
    | count n => exact h.write _
    | error e => exact (List.append_nil log).symm ▸ h
  all_goals exact (List.append_nil log).symm ▸ h

theorem keeps_parsed {p : Prog C Header Bytes α} (hp : p.Uses NoWrite) :
    p.Keeps (watched cfg wsHandler) (fun _ _ => True) (fun s => Parsed wsHandler s.2) := by
  intro s hs
  refine Always.of_uses hp (fun _ _ _ _ => trivial) ?_ hs
  rintro o ho ch ⟨L, log⟩ r ⟨L', _⟩ h hact
  obtain ⟨-, rfl⟩ := act_logging hact
  cases o
  case onMessage d ctx payload => exact h.message _ _ _
  case unixWrite d fd data => exact absurd rfl (ho d fd data)
  all_goals exact (List.append_nil log).symm ▸ h

def InOrder (cfg : Config C (Context υ) Header Bytes) (wsHandler : WSHandler υ) (p : Prog C Header Bytes α) : Prop :=
  ∀ s, Parsed wsHandler s.2 → Always (watched cfg wsHandler) (fun _ _ => True) (fun _ s => Shape wsHandler s.2) p s

theorem InOrder.of_noMessage {p : Prog C Header Bytes α} (hp : p.Uses NoMessage) : InOrder cfg wsHandler p :=
  fun s hs => keeps_shape hp s hs.shape

theorem InOrder.after {p : Prog C Header Bytes α} {f : α → Prog C Header Bytes β} (hp : p.Uses NoWrite)
    (hf : ∀ a, InOrder cfg wsHandler (f a)) : InOrder cfg wsHandler (p >>= f) :=
  fun s hs => ((keeps_parsed hp s hs).mono fun a t ht => hf a t ht).bind

theorem InOrder.before {p : Prog C Header Bytes α} {f : α → Prog C Header Bytes β} (hp : InOrder cfg wsHandler p)
    (hf : ∀ a, (f a).Uses NoMessage) : InOrder cfg wsHandler (p >>= f) :=
  fun s hs => ((hp s hs).mono fun a t ht => keeps_shape (hf a) t ht).bind

omit [DecidableEq C] in
theorem noMessage_resetIfEmpty (b : Buffer) :
    (do resetIfEmpty c b; return false : Prog C Header Bytes Bool).Uses NoMessage := by
  refine ⟨nofun, ?_⟩
  intro empty
  cases empty with
  | true => exact ⟨nofun, fun _ => trivial⟩
  | false => trivial

theorem handleRead_inOrder (fuel : Nat) (fd : Fd) : InOrder cfg wsHandler (handleRead cfg fuel c fd) := by
  have hbuf : (call .packetBuf : Prog C Header Bytes _).Uses NoWrite := ⟨nofun, fun _ => trivial⟩
  refine .after hbuf ?_
  intro buf
  have hread : (call (.unixRead c (cfg.fd c) buf) : Prog C Header Bytes _).Uses NoWrite := ⟨nofun, fun _ => trivial⟩
  refine .after hread ?_
  rintro ⟨n, err⟩
  dsimp only
  split
  · split
    · exact .of_noMessage ((uses_close fd).mono fun _ => noMessage_outgoing)
    · exact .of_noMessage trivial
  · refine .after ((parses_parsePacket c fuel buf n.toNat).mono fun _ => noWrite_parsing) ?_
    intro tmp
    split
    · refine .of_noMessage ⟨nofun, ?_⟩
      intro data
      obtain ⟨k, hk, huses⟩ := uses_sendInLoop cfg c data
      have hsend : (sendInLoop cfg c data).Uses NoMessage := by
        rw [hk]
        exact ⟨nofun, fun r => (huses r).mono fun _ => noMessage_outgoing⟩
      exact hsend
    · exact .of_noMessage trivial

theorem handleReady_inOrder (fuel : Nat) (fd : Fd) (events : UInt32) :
    InOrder cfg wsHandler (handleReady cfg fuel c fd events) := by
  have hempty : (call (.isEmpty c .outBuffer) : Prog C Header Bytes _).Uses NoWrite := ⟨nofun, fun _ => trivial⟩
  have hclosed : ∀ (b : Buffer) (closed : Bool), (if closed = true then return true else do
      resetIfEmpty c b
      return false : Prog C Header Bytes Bool).Uses NoMessage := by
    intro b closed
    cases closed with
    | true => trivial
    | false => exact noMessage_resetIfEmpty b
  refine .after hempty ?_
  intro empty
  split
  · split
    · exact .of_noMessage (((uses_handleWrite fd).mono fun _ => noMessage_outgoing).bind (hclosed .outBuffer))
    · exact .of_noMessage trivial
  · split
    · exact (handleRead_inOrder fuel fd).before (hclosed .inBuffer)
    · exact .of_noMessage trivial

theorem handlerEvent_inOrder (fuel : Nat) (fd : Fd) (events : UInt32) :
    InOrder cfg wsHandler (handlerEvent cfg fuel fd events) := by
  have hlookup : (call (.lookup fd) : Prog C Header Bytes _).Uses NoWrite := ⟨nofun, fun _ => trivial⟩
  refine .after hlookup ?_
  intro s
  cases s with
  | none => exact .of_noMessage trivial
  | some c =>
      have hrest : InOrder cfg wsHandler (do
          if events &&& EventErr ≠ 0 then handleClose c fd
          else
            let closed ← handleReady cfg fuel c fd events
            if closed = false then call (.swapLengths c)) := by
        split
        · exact .of_noMessage ((uses_handleClose fd).mono fun _ => noMessage_outgoing)
        · refine (handleReady_inOrder fuel fd events).before ?_
          intro closed
          cases closed with
          | true => trivial
          | false => exact ⟨nofun, fun _ => trivial⟩
      have hmark : (call (.markActive c) : Prog C Header Bytes _).Uses NoWrite := ⟨nofun, fun _ => trivial⟩
      simp only [handleEvent]
      split
      · exact .after hmark fun _ => hrest
      · exact hrest

end Programs

def silent : WSHandler Unit := ⟨id, fun app _ => (app, .text, []), id⟩

def silentServer : Config Unit (Context Unit) Header Bytes :=
  server .little Chunking.noUpgrade Chunking.zeroScratch silent (fun _ => 7) 0 (fun _ n => n)

def upgraded : Local Unit (Context Unit) Header Bytes :=
  newLocal 32 (fun _ => newConnection silentServer ⟨some Chunking.zeroScratch, ()⟩ 0)

def Deed.answersClose : Deed → Bool
  | .reply (some header) _ => header.opCode == opClose
  | _ => false

theorem noClose_of_all {log : List Deed} (h : log.all (!·.answersClose) = true) :
    ∀ ctx out, .reply ctx out ∈ log → ¬IsClose ctx := by
  rintro _ out hm ⟨header, rfl, hclose⟩
  have hne := List.all_eq_true.mp h _ hm
  simp [Deed.answersClose, hclose] at hne

theorem ping_run : ∃ L₁ L log,
    Executes (semantics silentServer) (taskBody silentServer (.register ())) upgraded () L₁ ∧
    Executes (watched silentServer silent) (handlerEvent silentServer 2 7 EventRead) (L₁, []) () (L, log) ∧
    written log = [0x8a, 1, 42] ∧ log.all (!·.answersClose) = true :=
  ⟨_, _, _, executes_of_play (answering 4 (.error .EAGAIN) (.count 0)) rfl,
    executes_of_play (answering 20 (.bytes [0x89, 0x81, 0, 0, 0, 0, 42]) (.count 3)) rfl, rfl, rfl⟩

/-- In an event of a websocket connection, the replies up to each shutdown are with the kernel before it exactly if
none of the frames that were drained is a Close frame. -/
theorem close_reply_delivered (order : ByteOrder) (u : Decoder.Upgrader) (pooled : Scratch) (wsHandler : WSHandler υ)
    (fd : C → Fd) (idleTime : Int) (grow : Nat → Nat → Nat) (c : C) (fuel : Nat) (events : UInt32)
    (L L' : Local C (Context υ) Header Bytes) (log : List Deed)
    (he : Executes (watched (server order u pooled wsHandler fd idleTime grow) wsHandler)
      (handlerEvent (server order u pooled wsHandler fd idleTime grow) fuel (fd c) events) (L, []) () (L', log)) :
    Delivered log ↔ ∀ ctx out, .reply ctx out ∈ log → ¬IsClose ctx := by
  have hshape : Shape wsHandler log := (handlerEvent_inOrder fuel (fd c) events (L, []) .nil).post he
  exact hshape.delivered_iff

/-- A Ping is answered, and nothing is shut down. -/
theorem close_reply_delivered_ping : ∃ L₁ L log,
    Executes (semantics silentServer) (taskBody silentServer (.register ())) upgraded () L₁ ∧
    Executes (watched silentServer silent) (handlerEvent silentServer 2 7 EventRead) (L₁, []) () (L, log) ∧
    written log = [0x8a, 1, 42] ∧ Delivered log := by
  obtain ⟨L₁, L, log, hreg, he, hw, hall⟩ := ping_run
  exact ⟨L₁, L, log, hreg, he, hw, (close_reply_delivered .little Chunking.noUpgrade Chunking.zeroScratch silent
    (fun _ => 7) 0 (fun _ n => n) () 2 EventRead L₁ L log he).mpr (noClose_of_all hall)⟩

/-- An empty Close frame arrives alone. The write side is shut down before its reply is written; the kernel refuses the
write, and the connection is closed without a byte sent. -/
theorem close_reply_lost : ∃ L₁ L log,
    Executes (semantics silentServer) (taskBody silentServer (.register ())) upgraded () L₁ ∧
    Executes (watched silentServer silent) (handlerEvent silentServer 2 7 EventRead) (L₁, []) () (L, log) ∧
    replies log = [0x88, 0] ∧ .shutdown ∈ log ∧ (L.conns ()).accepted = [] ∧ ¬Delivered log := by
  refine ⟨_, _, _, executes_of_play (answering 4 (.error .EAGAIN) (.count 0)) rfl,
    executes_of_play (answering 26 (.bytes [0x88, 0x80, 0, 0, 0, 0]) (.error .other)) rfl, rfl, ?_, rfl, ?_⟩
  · exact List.mem_cons_of_mem _ List.mem_cons_self
  · intro h
    exact absurd (h [_] [] rfl) (by decide)

end Order

end Gev.Websocket.Wrap
