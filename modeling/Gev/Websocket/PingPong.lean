import Gev.Lib.Runs
import Gev.Websocket.Replies

namespace Gev.Websocket.PingPong

open Gev.Connection.State Gev.Lib Gev.Lib.RingBuffers Gev.Lib.Runs
open Gev.Websocket.Framing Gev.Websocket.Cipher Gev.Websocket.Control Gev.Websocket.Wrap
open Gev.Websocket.Decoder (WireFrame Upgrader unPacket_short unPacket_wire unPacket_part)

variable {υ : Type}

section Code

def packData (messageType : MessageType) (data : Bytes) : Bytes × Option HeaderError :=
  frameToBytes (match messageType with
    | .binary => newBinaryFrame data
    | .text => newTextFrame data)

variable (order : ByteOrder) (u : Upgrader) (pooled : Scratch) (wsHandler : WSHandler υ)

/-- The loop of handlerProtocol over the websocket plugin, with the replies one by one. -/
def serve : Nat → Context υ → RingBuffer UInt8 → List Bytes × Context υ × RingBuffer UInt8
  | 0, st, buffer => ([], st, buffer)
  | fuel + 1, st, buffer =>
      let (message, headerbuffer, buffer) := Decoder.unPacket order u pooled st.headerbuffer buffer
      if message.1.isSome ∨ message.2 ≠ [] then
        let answer := onMessage wsHandler st.app message.1 message.2
        let (replies, st, buffer) := serve fuel ⟨headerbuffer, answer.app⟩ buffer
        (answer.out.toList ++ replies, st, buffer)
      else ([], { st with headerbuffer := headerbuffer }, buffer)

end Code

/-- An upgraded connection and its peer. The wire holds all frames that the peer has sent, and the first delivered
bytes of them have reached the server; what is in flight to the peer are the replies of OnMessage and the frames the
application sends by itself. -/
structure State (υ : Type) where
  st : Context υ
  inBuffer : RingBuffer UInt8
  wire : List WireFrame
  delivered : Nat
  toPeer : List Bytes
  owed : Nat
  own : Nat
  sent : List Bytes

inductive Label
  | own (f : WireFrame)
  | pong (f : WireFrame)
  | deliver (n : Nat)
  | push (messageType : MessageType) (data : Bytes)
  | receive

def opCodeOf (out : Bytes) : Option UInt8 := out.head?.map (· &&& 0x0f)

def controls (sent : List Bytes) : Nat := sent.countP fun out => (opCodeOf out).any isControl

def stream (order : ByteOrder) (frames : List WireFrame) : Bytes := frames.flatMap (WireFrame.encode order)

section Machine

variable (order : ByteOrder) (u : Upgrader) (pooled : Scratch) (wsHandler : WSHandler υ)

/-- One step of either side. A delivery brings the next bytes of the stream, cut anywhere. The peer owes a Pong for
every Ping it has received, and sends it when it likes; what it sends beside that is its own. -/
def step (s : State υ) : Label → Option (State υ)
  | .own f => some { s with wire := s.wire ++ [f], own := s.own + 1 }
  | .pong f =>
      if 0 < s.owed ∧ f.header.opCode = opPong then
        some { s with wire := s.wire ++ [f], owed := s.owed - 1 }
      else none
  | .deliver n =>
      if s.delivered + n ≤ (stream order s.wire).length then
        let buffer := s.inBuffer.write (((stream order s.wire).drop s.delivered).take n)
        let (replies, st, buffer) := serve order u pooled wsHandler (buffer.length + 1) s.st buffer
        some { s with
          st := st
          inBuffer := buffer
          delivered := s.delivered + n
          toPeer := s.toPeer ++ replies
          sent := s.sent ++ replies }
      else none
  | .push messageType data =>
      if (data.length : Int) ≤ len64 then
        some { s with
          toPeer := s.toPeer ++ [(packData messageType data).1]
          sent := s.sent ++ [(packData messageType data).1] }
      else none
  | .receive => match s.toPeer with
    | [] => none
    | out :: rest =>
        some { s with toPeer := rest, owed := if opCodeOf out = some opPing then s.owed + 1 else s.owed }

def start (bts : Scratch) (app : υ) : State υ := ⟨⟨some bts, app⟩, .empty, [], 0, [], 0, 0, []⟩

end Machine

section Loop

variable {order : ByteOrder} {u : Upgrader} {pooled : Scratch} {wsHandler : WSHandler υ}

theorem serve_stop {fuel : Nat} {bts : Scratch} {app : υ} {buffer : RingBuffer UInt8}
    {state : Option Scratch × RingBuffer UInt8}
    (h : Decoder.unPacket order u pooled (some bts) buffer = ((none, []), state)) :
    serve order u pooled wsHandler (fuel + 1) ⟨some bts, app⟩ buffer = ([], ⟨state.1, app⟩, state.2) := by
  simp [serve, h]

theorem serve_deliver {fuel : Nat} {bts : Scratch} {app : υ} {buffer rest : RingBuffer UInt8} {header : Header}
    {payload : Bytes} {bts' : Option Scratch}
    (h : Decoder.unPacket order u pooled (some bts) buffer = ((some header, payload), bts', rest)) :
    serve order u pooled wsHandler (fuel + 1) ⟨some bts, app⟩ buffer =
      let answer := onMessage wsHandler app (some header) payload
      let after := serve order u pooled wsHandler fuel ⟨bts', answer.app⟩ rest
      (answer.out.toList ++ after.1, after.2) := by
  simp [serve, h]

end Loop

section Replies

theorem opCodeOf_newFrame {op : UInt8} (hop : op < 16) {p : Bytes} (hmax : (p.length : Int) ≤ len64) :
    opCodeOf (frameToBytes (newFrame op true p)).1 = some op := by
  have hv := Replies.newFrame_valid hop hmax
  obtain ⟨-, -, hlow⟩ := byte0_fields (newFrame op true p).header.fin hv.rsv hv.opCode
  rw [frameToBytes, writeHeader_eq hv]
  exact congrArg some hlow

theorem opCodeOf_packData (messageType : MessageType) {data : Bytes} (hmax : (data.length : Int) ≤ len64) :
    ∃ op, opCodeOf (packData messageType data).1 = some op ∧ isControl op = false := by
  cases messageType with
  | text => exact ⟨opText, opCodeOf_newFrame (by decide) hmax, rfl⟩
  | binary => exact ⟨opBinary, opCodeOf_newFrame (by decide) hmax, rfl⟩

theorem opCodeOf_handleClose (h : Header) (payload : Bytes) : opCodeOf (handleClose h payload).1 = some opClose := by
  have hbody : ∀ code reason,
      opCodeOf (frameToBytes (newCloseFrame (newCloseFrameBody code reason))).1 = some opClose := by
    intro code reason
    have hle := Replies.length_closeBody code reason
    apply opCodeOf_newFrame (by decide)
    simp only [len64, maxControlFramePayloadSize] at hle ⊢
    omega
  rw [handleClose]
  split
  · rfl
  · dsimp only
    split
    · exact hbody _ _
    · exact hbody _ _

variable {wsHandler : WSHandler υ}

/-- Only a Pong is answered with a Ping. -/
theorem onMessage_not_ping (hsize : ∀ app data, ((wsHandler.onMessage app data).2.2.length : Int) ≤ len64) (app : υ)
    {header : Header} {payload : Bytes} (hp : (payload.length : Int) ≤ len64) (hpong : header.opCode ≠ opPong) :
    ∀ out ∈ (onMessage wsHandler app (some header) payload).out, opCodeOf out ≠ some opPing := by
  have hdata : ∀ op, isControl op = false → op ≠ opPing := by
    rintro op hop rfl
    cases hop
  simp only [onMessage]
  split
  · split
    · simp [opCodeOf_handleClose, opClose, opPing]
    · split
      · have hping : opCodeOf (handlePing payload).1 = some opPong := opCodeOf_newFrame (by decide) hp
        simp [hping, opPong, opPing]
      · simp [opCodeOf]
  · split
    · obtain ⟨op, hop, hcontrol⟩ := opCodeOf_packData (wsHandler.onMessage app payload).2.1 (hsize app payload)
      rintro out ⟨rfl⟩
      change opCodeOf (packData _ _).1 ≠ _
      rw [hop]
      exact fun he => hdata op hcontrol (Option.some.inj he)
    · simp

end Replies

section Drain

variable {order : ByteOrder} {u : Upgrader} {pooled : Scratch} {wsHandler : WSHandler υ}

theorem controls_append (xs ys : List Bytes) : controls (xs ++ ys) = controls xs + controls ys := List.countP_append

theorem controls_toList (out : Option Bytes) : controls out.toList ≤ 1 := by
  refine Nat.le_trans List.countP_le_length ?_
  cases out with
  | none => exact Nat.zero_le 1
  | some out => exact Nat.le_refl 1

/-- After o bytes of the stream there are six bytes or more of a frame, but not all of its length field. -/
def LengthCut (order : ByteOrder) : List WireFrame → Nat → Prop
  | [], _ => False
  | f :: frames, o =>
      if o < (f.encode order).length then 6 ≤ o ∧ o < 2 + f.header.lengthBytes.length
      else LengthCut order frames (o - (f.encode order).length)

instance decidableLengthCut (order : ByteOrder) : ∀ frames o, Decidable (LengthCut order frames o)
  | [], _ => .isFalse id
  | f :: frames, o =>
      if h : o < (f.encode order).length then
        decidable_of_iff (6 ≤ o ∧ o < 2 + f.header.lengthBytes.length) (by rw [LengthCut, if_pos h])
      else
        have := decidableLengthCut order frames (o - (f.encode order).length)
        decidable_of_iff (LengthCut order frames (o - (f.encode order).length)) (by rw [LengthCut, if_neg h])

theorem stream_cons (f : WireFrame) (frames : List WireFrame) :
    stream order (f :: frames) = f.encode order ++ stream order frames := List.flatMap_cons

theorem stream_append (xs ys : List WireFrame) : stream order (xs ++ ys) = stream order xs ++ stream order ys :=
  List.flatMap_append

theorem lengthCut_append (xs ys : List WireFrame) (o : Nat) :
    LengthCut order (xs ++ ys) ((stream order xs).length + o) ↔ LengthCut order ys o := by
  induction xs with
  | nil => simp [stream]
  | cons f xs ih =>
      rw [List.cons_append, LengthCut, stream_cons, List.length_append, if_neg (by omega), ← ih]
      rw [show (f.encode order).length + (stream order xs).length + o - (f.encode order).length =
        (stream order xs).length + o by omega]

variable (order u pooled) in
/-- What a delivery comes to when the buffer holds the start of a stream without a Pong that is not cut inside a length
field: each frame that is taken is answered at most once, and never with a Ping; the rest stays. -/
theorem serve_stream (hsize : ∀ app data, ((wsHandler.onMessage app data).2.2.length : Int) ≤ len64)
    (frames : List WireFrame) (hpong : ∀ f ∈ frames, f.header.opCode ≠ opPong) {fuel o : Nat} (bts : Scratch) (app : υ)
    (ho : o ≤ (stream order frames).length) (hcut : ¬ LengthCut order frames o) (hfuel : o < fuel) :
    ∃ replies bts' app' taken left o', frames = taken ++ left ∧ o = (stream order taken).length + o' ∧
      controls replies ≤ taken.length ∧ (∀ out ∈ replies, opCodeOf out ≠ some opPing) ∧
      serve order u pooled wsHandler fuel ⟨some bts, app⟩ (.ofList ((stream order frames).take o)) =
        (replies, ⟨some bts', app'⟩, .ofList ((stream order left).take o')) := by
  have hlen : ((stream order frames).take o).length = o := List.length_take_of_le ho
  induction frames generalizing fuel o bts app with
  | nil =>
      obtain ⟨fuel, rfl⟩ : ∃ k, fuel = k + 1 := ⟨fuel - 1, by omega⟩
      refine ⟨[], bts, app, [], [], o, rfl, by simp [stream], Nat.le_refl 0, by simp, ?_⟩
      exact serve_stop (unPacket_short bts (by simp [stream]))
  | cons f frames ih =>
      obtain ⟨fuel, rfl⟩ : ∃ k, fuel = k + 1 := ⟨fuel - 1, by omega⟩
      -- Nothing is taken when UnPacket waits for more bytes.
      have hwait : ∀ now, Decoder.unPacket order u pooled (some bts) (.ofList ((stream order (f :: frames)).take o)) =
          ((none, []), some now, .ofList ((stream order (f :: frames)).take o)) →
          ∃ replies bts' app' taken left o', f :: frames = taken ++ left ∧ o = (stream order taken).length + o' ∧
            controls replies ≤ taken.length ∧ (∀ out ∈ replies, opCodeOf out ≠ some opPing) ∧
            serve order u pooled wsHandler (fuel + 1) ⟨some bts, app⟩ (.ofList ((stream order (f :: frames)).take o)) =
              (replies, ⟨some bts', app'⟩, .ofList ((stream order left).take o')) :=
        fun now hread => ⟨[], now, app, [], f :: frames, o, rfl, by simp [stream], Nat.le_refl 0, by simp,
          serve_stop hread⟩
      rcases Nat.lt_or_ge o 6 with hshort | h6
      · exact hwait bts (unPacket_short bts (by rw [hlen]; exact hshort))
      rw [LengthCut] at hcut
      by_cases hpart : o < (f.encode order).length
      · rw [if_pos hpart] at hcut
        have htake : (stream order (f :: frames)).take o = (f.encode order).take o := by
          rw [stream_cons, List.take_append_of_le_length (Nat.le_of_lt hpart)]
        obtain ⟨now, hread⟩ := unPacket_part order u pooled f bts h6 (by omega) hpart
        rw [htake] at hwait ⊢
        exact hwait now hread
      · rw [if_neg hpart] at hcut
        obtain ⟨k, rfl⟩ : ∃ k, o = (f.encode order).length + k := ⟨o - (f.encode order).length, by omega⟩
        rw [Nat.add_sub_cancel_left] at hcut
        have htake : (stream order (f :: frames)).take ((f.encode order).length + k) =
            f.encode order ++ (stream order frames).take k := by
          rw [stream_cons, List.take_length_add_append]
        rw [stream_cons, List.length_append] at ho
        rw [htake] at hlen ⊢
        obtain ⟨now, hread⟩ :=
          unPacket_wire order u pooled f bts ((stream order frames).take k) (by rw [hlen]; exact h6)
        have hp : (f.payload.length : Int) ≤ len64 := f.size ▸ f.valid.bounded
        have hfirst := onMessage_not_ping hsize app hp (hpong f List.mem_cons_self)
        have hsmall := f.length_encode order
        obtain ⟨replies, bts', app', taken, left, o', rfl, rfl, hcount, hping, hserve⟩ :=
          ih (fun g hg => hpong g (List.mem_cons_of_mem _ hg)) now
            (onMessage wsHandler app (some f.header) f.payload).app (by omega) hcut (show k < fuel by omega)
            (List.length_take_of_le (by omega))
        refine ⟨(onMessage wsHandler app (some f.header) f.payload).out.toList ++ replies, bts', app', f :: taken, left,
          o', rfl, by rw [stream_cons, List.length_append, Nat.add_assoc], ?_, ?_,
          by simp only [serve_deliver hread, hserve]⟩
        · have hone := controls_toList (onMessage wsHandler app (some f.header) f.payload).out
          rw [controls_append, List.length_cons]
          omega
        · intro out hout
          rcases List.mem_append.mp hout with hout | hout
          · exact hfirst out (Option.mem_toList.mp hout)
          · exact hping out hout

end Drain

section Runs

variable {order : ByteOrder} {u : Upgrader} {pooled : Scratch} {wsHandler : WSHandler υ}

/-- The peer's own frames are no Pongs, and no delivery ends inside a length field. -/
def Harmless (order : ByteOrder) (s : State υ) : Label → Prop
  | .own f => f.header.opCode ≠ opPong
  | .deliver n => ¬ LengthCut order s.wire (s.delivered + n)
  | _ => True

instance (order : ByteOrder) (s : State υ) (l : Label) : Decidable (Harmless order s l) := match l with
  | .own f => inferInstanceAs (Decidable (f.header.opCode ≠ opPong))
  | .deliver n => inferInstanceAs (Decidable (¬ LengthCut order s.wire (s.delivered + n)))
  | .pong _ | .push _ _ | .receive => .isTrue trivial

/-- What the server has not taken yet of the stream is in its buffer as far as it was delivered, every control frame
sent stands for a frame it has taken, and there is no Ping that could bring a Pong. -/
structure Quiet (order : ByteOrder) (s : State υ) : Prop where
  upgraded : ∃ bts, s.st.headerbuffer = some bts
  reading : ∃ taken left o, s.wire = taken ++ left ∧ s.delivered = (stream order taken).length + o ∧
    o ≤ (stream order left).length ∧ s.inBuffer = .ofList ((stream order left).take o) ∧
    controls s.sent ≤ taken.length
  wire : ∀ f ∈ s.wire, f.header.opCode ≠ opPong
  own : s.wire.length = s.own
  toPeer : ∀ out ∈ s.toPeer, opCodeOf out ≠ some opPing
  owed : s.owed = 0

theorem quiet_deliver (hsize : ∀ app data, ((wsHandler.onMessage app data).2.2.length : Int) ≤ len64) {s t : State υ}
    {n : Nat} (h : Quiet order s) (hcut : ¬ LengthCut order s.wire (s.delivered + n))
    (hstep : step order u pooled wsHandler s (.deliver n) = some t) : Quiet order t := by
  obtain ⟨⟨headerbuffer, app⟩, inBuffer, wire, delivered, toPeer, owed, own, sent⟩ := s
  obtain ⟨⟨bts, hbts⟩, ⟨taken, left, o, hwire, hdelivered, ho, hbuffer, hcount⟩, hpong, hown, hpeer, howed⟩ := h
  dsimp only at hbts hwire hdelivered hbuffer hcount hpong hown hpeer howed hcut
  subst hbts hbuffer hwire hdelivered
  simp only [step] at hstep
  split at hstep
  next hfit =>
    rw [Nat.add_assoc, lengthCut_append] at hcut
    rw [stream_append, List.length_append, Nat.add_assoc] at hfit
    have harrived : (stream order left).take o ++
        ((stream order (taken ++ left)).drop ((stream order taken).length + o)).take n =
        (stream order left).take (o + n) := by
      rw [stream_append, ← List.drop_drop, List.drop_left, List.take_add]
    have hlen : ((stream order left).take (o + n)).length = o + n := List.length_take_of_le (by omega)
    obtain ⟨replies, bts', app', more, left', o', rfl, ho', hreplies, hping, hserve⟩ :=
      serve_stream order u pooled hsize left (fun f hf => hpong f (List.mem_append_right _ hf)) bts app
        (show o + n ≤ _ by omega) hcut (Nat.lt_succ_self _)
    simp only [RingBuffer.write_ofList, harrived, RingBuffer.length, RingBuffer.data_ofList, hlen, hserve] at hstep
    cases hstep
    refine ⟨⟨bts', rfl⟩, ⟨taken ++ more, left', o', (List.append_assoc ..).symm, ?_, ?_, rfl, ?_⟩, hpong, hown, ?_,
      howed⟩
    · dsimp only
      rw [stream_append, List.length_append]
      omega
    · rw [stream_append, List.length_append] at hfit
      omega
    · rw [controls_append, List.length_append]
      omega
    · intro out hout
      rcases List.mem_append.mp hout with hout | hout
      · exact hpeer out hout
      · exact hping out hout
  next => cases hstep

theorem quiet_step (hsize : ∀ app data, ((wsHandler.onMessage app data).2.2.length : Int) ≤ len64) {s t : State υ}
    {l : Label} (h : Quiet order s) (hl : Harmless order s l) (hstep : step order u pooled wsHandler s l = some t) :
    Quiet order t := by
  cases l with
  | deliver n => exact quiet_deliver hsize h hl hstep
  | own f =>
      cases hstep
      obtain ⟨taken, left, o, hwire, hdelivered, ho, hbuffer, hcount⟩ := h.reading
      refine ⟨h.upgraded, ⟨taken, left ++ [f], o, ?_, hdelivered, ?_, ?_, hcount⟩, ?_, ?_, h.toPeer, h.owed⟩
      · rw [hwire, List.append_assoc]
      · rw [stream_append, List.length_append]
        omega
      · rw [hbuffer, stream_append, List.take_append_of_le_length ho]
      · intro g hg
        rcases List.mem_append.mp hg with hg | hg
        · exact h.wire g hg
        · exact List.mem_singleton.mp hg ▸ hl
      · rw [List.length_append, h.own, List.length_singleton]
  | pong f =>
      have howed := h.owed
      simp [step, howed] at hstep
  | push messageType data =>
      simp only [step] at hstep
      split at hstep
      next hdata =>
        cases hstep
        obtain ⟨op, hop, hcontrol⟩ := opCodeOf_packData messageType hdata
        obtain ⟨taken, left, o, hwire, hdelivered, ho, hbuffer, hcount⟩ := h.reading
        refine ⟨h.upgraded, ⟨taken, left, o, hwire, hdelivered, ho, hbuffer, ?_⟩, h.wire, h.own, ?_, h.owed⟩
        · have hnone : controls [(packData messageType data).1] = 0 := by simp [controls, hop, hcontrol]
          simp only [controls_append, hnone]
          omega
        · intro out hout
          rcases List.mem_append.mp hout with hout | hout
          · exact h.toPeer out hout
          · rw [List.mem_singleton.mp hout, hop]
            rintro ⟨rfl⟩
            cases hcontrol
      next _ => cases hstep
  | receive =>
      simp only [step] at hstep
      split at hstep
      next _ => cases hstep
      next out rest hpeer =>
        cases hstep
        have hout := h.toPeer out (hpeer ▸ List.mem_cons_self)
        exact ⟨h.upgraded, h.reading, h.wire, h.own, fun o ho => h.toPeer o (hpeer ▸ List.mem_cons_of_mem _ ho),
          (if_neg hout).trans h.owed⟩

def bare (op : UInt8) (hop : op < 16) : WireFrame where
  header := ⟨true, 0, op, true, fun _ => 0, 0⟩
  payload := []
  valid := ⟨show (0 : UInt8) < 8 by decide, hop, Int.le_refl 0, show 0 ≤ len64 by decide, nofun⟩
  size := rfl

end Runs

end Gev.Websocket.PingPong
