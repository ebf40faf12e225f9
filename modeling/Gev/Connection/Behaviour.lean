import Gev.Connection.Outward
import Gev.Connection.ReadPath

namespace Gev.Connection.Behaviour

open Lib.Atomic Lib.Slices Lib.RingBuffers State Code Reading Writing Outward
open ReadPath (Apart reply messages)

variable {C σ κ δ : Type}

/-- A connection as its codec and its callbacks see it: their state, and the bytes that are not consumed. -/
@[ext]
structure Peer (σ : Type) where
  user : σ
  unread : RingBuffer UInt8

/-- What can happen to it. A read brings bytes and comes to calls of OnMessage and to replies. -/
inductive Event (κ δ : Type)
  | connect
  | read (data : Bytes) (calls : List (Option κ × Bytes)) (replies : Bytes)
  | send (data : δ) (packet : Bytes)
  | close

/-- What a history shows of that: the callbacks, and what is given to the connection to be written. -/
inductive Sight (κ : Type)
  | connect
  | call (message : Option κ × Bytes)
  | give (data : Bytes)
  | close

def sight : Act κ → Option (Sight κ)
  | .onConnect => some .connect
  | .onMessage ctx data _ => some (.call (ctx, data))
  | .onClose => some .close
  | .sendInLoop data => some (.give data)
  | _ => none

def sights (x : Conn σ κ) : List (Sight κ) := x.history.filterMap sight

def Event.sights : Event κ δ → List (Sight κ)
  | .connect => [.connect]
  | .read _ calls replies => calls.map .call ++ if replies = [] then [] else [.give replies]
  | .send _ packet => [.give packet]
  | .close => [.close]

def Event.input : Event κ δ → Option Bytes
  | .read data _ _ => some data
  | _ => none

def Event.output : Event κ δ → Bytes
  | .read _ _ replies => replies
  | .send _ packet => packet
  | _ => []

def Event.calls : Event κ δ → List (Option κ × Bytes)
  | .read _ calls _ => calls
  | _ => []

def Event.replies : Event κ δ → Bytes
  | .read _ _ replies => replies
  | _ => []

def Event.sends : Event κ δ → Option δ
  | .send data _ => some data
  | _ => none

def Sight.given : Sight κ → Bytes
  | .give data => data
  | _ => []

def Sight.called : Sight κ → Option (Option κ × Bytes)
  | .call message => some message
  | _ => none

theorem messages_eq_called (x : Conn σ κ) : messages x = (sights x).filterMap Sight.called := by
  rw [messages, sights, List.filterMap_filterMap]
  congr 1
  funext a
  cases a <;> rfl

theorem calls_eq_called (e : Event κ δ) : e.sights.filterMap Sight.called = e.calls := by
  cases e with
  | connect | close | send => rfl
  | read data calls replies =>
      have hcalls : (calls.map Sight.call).filterMap Sight.called = calls := by
        rw [List.filterMap_map]
        exact List.filterMap_some
      rw [Event.sights, List.filterMap_append, hcalls]
      split <;> exact List.append_nil calls

theorem sent_eq_given (x : Conn σ κ) : sent x = (sights x).flatMap Sight.given := by
  have hacts (acts : List (Act κ)) :
      (acts.filterMap sendData).flatten = (acts.filterMap sight).flatMap Sight.given := by
    induction acts with
    | nil => rfl
    | cons a acts ih =>
        cases a <;> simp only [List.filterMap_cons, sendData, sight, List.flatten_cons, List.flatMap_cons, Sight.given,
          List.nil_append, ih]
  exact hacts x.history

theorem output_eq_given (e : Event κ δ) : e.sights.flatMap Sight.given = e.output := by
  cases e with
  | connect | close => rfl
  | send data packet => exact List.append_nil packet
  | read data calls replies =>
      have hcalls : (calls.map Sight.call).flatMap Sight.given = [] := by
        rw [List.flatMap_map]
        exact List.flatMap_eq_nil_iff.mpr fun _ _ => rfl
      rw [Event.sights, List.flatMap_append, hcalls, List.nil_append]
      split
      next hnil => exact hnil.symm
      next => exact List.append_nil replies

/-- Without Sends the output is what was replied. -/
theorem output_eq_replies {es : List (Event κ δ)} (h : es.filterMap Event.sends = []) :
    es.flatMap Event.output = es.flatMap Event.replies := by
  rw [List.filterMap_eq_nil_iff] at h
  apply List.flatMap_congr
  intro e he
  cases e with
  | connect | close | read => rfl
  | send data packet => exact absurd (h _ he) (Option.some_ne_none data)

section Reference

variable (cfg : Config C σ κ δ)

/-- The loop of handlerProtocol: UnPacket takes messages off the unread bytes, wherever the ring wraps, until nothing
comes, and what OnMessage returns for them is packed. -/
inductive Parses : Peer σ → List (Option κ × Bytes) → Bytes → Peer σ → Prop
  | stop {x : Peer σ} {u : Unpacked σ κ} {wrap : Nat} (hu : cfg.protocol.unPacket x.user wrap x.unread = u)
      (hnone : ¬(u.ctx.isSome ∨ u.out ≠ [])) : Parses x [] [] ⟨u.user, x.unread.advance u.consumed u.cursor⟩
  | message {x y : Peer σ} {u : Unpacked σ κ} {wrap : Nat} {m : σ × Option δ} {calls : List (Option κ × Bytes)}
      {replies : Bytes} (hu : cfg.protocol.unPacket x.user wrap x.unread = u) (hsome : u.ctx.isSome ∨ u.out ≠ [])
      (hm : cfg.callBack.onMessage u.user u.ctx u.out = m)
      (hrest : Parses ⟨m.1, x.unread.advance u.consumed u.cursor⟩ calls replies y) :
      Parses x ((u.ctx, u.out) :: calls) (reply cfg m.1 m.2 ++ replies) y

/-- What a connection keeps of a read. With nothing kept before, the bytes were parsed where they were read to, and a
virtual read that is pending there is forgotten. -/
def Peer.store (x y : Peer σ) : Peer σ := if x.unread.data = [] then ⟨y.user, .ofList y.unread.data⟩ else y

theorem Peer.store_of_nil {x : Peer σ} (h : x.unread.data = []) (y : Peer σ) :
    x.store y = ⟨y.user, .ofList y.unread.data⟩ := if_pos h

theorem Peer.store_of_ne {x : Peer σ} (h : x.unread.data ≠ []) (y : Peer σ) : x.store y = y := if_neg h

inductive Takes : Peer σ → Event κ δ → Peer σ → Prop
  | connect (x : Peer σ) : Takes x .connect { x with user := cfg.callBack.onConnect x.user }
  | read {x y : Peer σ} {data : Bytes} {calls : List (Option κ × Bytes)} {replies : Bytes}
      (h : Parses cfg { x with unread := x.unread.write data } calls replies y) :
      Takes x (.read data calls replies) (x.store y)
  | send (x : Peer σ) (data : δ) : Takes x (.send data (cfg.protocol.packet x.user data)) x
  | close (x : Peer σ) : Takes x .close { x with user := cfg.callBack.onClose x.user }

inductive Behaves (x : Peer σ) : List (Event κ δ) → Peer σ → Prop
  | start : Behaves x [] x
  | step {es : List (Event κ δ)} {y z : Peer σ} {e : Event κ δ} (h : Behaves x es y) (he : Takes cfg y e z) :
      Behaves x (es ++ [e]) z

variable {cfg}

theorem Behaves.append {x y z : Peer σ} {es es' : List (Event κ δ)} (h : Behaves cfg x es y)
    (h' : Behaves cfg y es' z) : Behaves cfg x (es ++ es') z := by
  induction h' with
  | start =>
      rw [List.append_nil]
      exact h
  | step _ he ih =>
      rw [← List.append_assoc]
      exact ih.step he

theorem Behaves.one {x y : Peer σ} {e : Event κ δ} (he : Takes cfg x e y) : Behaves cfg x [e] y :=
  Behaves.start.step he

end Reference

def peer (L : Local C σ κ δ) (c : C) : Peer σ := ⟨(L.conns c).user, (L.conns c).inBuffer⟩

variable {cfg : Config C σ κ δ} {c : C} {L L' L'' : Local C σ κ δ}

/-- From one state to another a connection of the loop goes through the given events, and no other connection through
any. -/
structure Moves (cfg : Config C σ κ δ) (c : C) (es : List (Event κ δ)) (L L' : Local C σ κ δ) : Prop where
  behaves : Behaves cfg (peer L c) es (peer L' c)
  sights : sights (L'.conns c) = sights (L.conns c) ++ es.flatMap Event.sights
  others : ∀ d, d ≠ c → L'.conns d = L.conns d
  packet : Valid L.heap L.packet → Valid L'.heap L'.packet

theorem Moves.refl (cfg : Config C σ κ δ) (c : C) (L : Local C σ κ δ) : Moves cfg c [] L L :=
  ⟨.start, (List.append_nil _).symm, fun _ _ => rfl, id⟩

theorem Moves.trans {es es' : List (Event κ δ)} (h : Moves cfg c es L L') (h' : Moves cfg c es' L' L'') :
    Moves cfg c (es ++ es') L L'' := by
  refine ⟨h.behaves.append h'.behaves, ?_, fun d hd => (h'.others d hd).trans (h.others d hd),
    fun hv => h'.packet (h.packet hv)⟩
  rw [h'.sights, h.sights, List.flatMap_append, List.append_assoc]

section Operations

variable [DecidableEq C]

omit [DecidableEq C] in
theorem sights_append {x y : Conn σ κ} (acts : List (Act κ)) (h : y.history = x.history ++ acts) :
    sights y = sights x ++ acts.filterMap sight := by
  rw [Behaviour.sights, h, List.filterMap_append]
  rfl

theorem moves_modify {f : Conn σ κ → Conn σ κ} {es : List (Event κ δ)} (acts : List (Act κ))
    (hconns : L'.conns = (L.modify c f).conns) (hpacket : Valid L.heap L.packet → Valid L'.heap L'.packet)
    (hhist : (f (L.conns c)).history = (L.conns c).history ++ acts)
    (hsights : acts.filterMap sight = es.flatMap Event.sights)
    (hb : Behaves cfg (peer L c) es ⟨(f (L.conns c)).user, (f (L.conns c)).inBuffer⟩) : Moves cfg c es L L' := by
  have hself : L'.conns c = f (L.conns c) := by rw [hconns, modify_self]
  have hpeer : peer L' c = ⟨(f (L.conns c)).user, (f (L.conns c)).inBuffer⟩ := by rw [peer, hself]
  refine ⟨hpeer ▸ hb, ?_, ?_, hpacket⟩
  · rw [hself, sights_append acts hhist, hsights]
  · intro d hd
    simp [hconns, Local.modify, hd]

/-- A change that shows neither in the history nor to codec and callbacks. -/
theorem moves_hidden {f : Conn σ κ → Conn σ κ} (acts : List (Act κ)) (hconns : L'.conns = (L.modify c f).conns)
    (hheap : L'.heap = L.heap) (hpacket : L'.packet = L.packet)
    (hhist : (f (L.conns c)).history = (L.conns c).history ++ acts) (hsights : acts.filterMap sight = [])
    (huser : (f (L.conns c)).user = (L.conns c).user) (hin : (f (L.conns c)).inBuffer = (L.conns c).inBuffer) :
    Moves cfg c [] L L' := by
  refine moves_modify acts hconns ?_ hhist hsights ?_
  · rw [hheap, hpacket]
    exact id
  · rw [huser, hin]
    exact .start

omit [DecidableEq C] in
theorem moves_same (hconns : L'.conns = L.conns) (hheap : L'.heap = L.heap) (hpacket : L'.packet = L.packet) :
    Moves cfg c [] L L' := by
  have hpeer : peer L' c = peer L c := by rw [peer, hconns, peer]
  refine ⟨hpeer ▸ .start, ?_, ?_, ?_⟩
  · rw [hconns]
    exact (List.append_nil _).symm
  · intro d _
    rw [hconns]
  · rw [hheap, hpacket]
    exact id

/-- The operations on a connection that neither its codec nor its callbacks notice. -/
def Hidden (c : C) : Op C κ δ → Prop
  | .connectedSet d _ | .markActive d | .stopTimer d | .isEmpty d _ | .peekAll d _ | .withData d _ | .swapLengths d
  | .putInPool d _ | .unixWrite d _ _ | .unixClose d _ | .epollCtl d _ _ _ | .sendInLoopFinish d => d = c
  | .write d b _ | .retrieve d b _ | .reset d b => d = c ∧ b = .outBuffer
  | .unPacket _ _ | .onConnect _ | .onMessage _ _ _ | .onClose _ | .sendInLoop _ _ | .append _ _
  | .unixRead _ _ _ => False
  | _ => True

theorem act_hidden {o : Op C κ δ} (ho : Hidden c o) {ch : (semantics cfg).Choice o} {r : Res o}
    (h : (semantics cfg).act o ch L = some (r, L')) : Moves cfg c [] L L' := by
  change act cfg o ch L = some (r, L') at h
  cases o <;> simp only [Hidden] at ho
  case connectedGet | packetBuf | contents | lookup | packet | compareAndSwap | wake | delete | dropSockets |
      addCount | appendTask =>
    obtain ⟨-, rfl⟩ := Prod.mk.inj (Option.some.inj h)
    exact moves_same rfl rfl rfl
  case diverge => cases h
  case range =>
    obtain ⟨-, -, rfl⟩ := act_range cfg h
    exact .refl cfg c L
  case insert =>
    obtain ⟨m, -, hr⟩ := Option.map_eq_some_iff.mp h
    cases hr
    exact moves_same rfl rfl rfl
  case connectedSet | markActive | stopTimer | withData =>
    subst ho
    cases h
    exact moves_hidden [] rfl rfl rfl (List.append_nil _).symm rfl rfl rfl
  case isEmpty b | peekAll b =>
    subst ho
    cases h
    refine moves_hidden (if b = .buffer then [] else [.touch b]) rfl rfl rfl rfl ?_ rfl rfl
    split <;> rfl
  case write | retrieve | reset =>
    obtain ⟨rfl, rfl⟩ := ho
    cases h
    exact moves_hidden [.touch .outBuffer] rfl rfl rfl rfl rfl rfl rfl
  case swapLengths =>
    subst ho
    cases h
    exact moves_hidden [.touch .inBuffer, .touch .outBuffer] rfl rfl rfl (by simp [Conn.touch]) rfl rfl rfl
  case putInPool b =>
    subst ho
    cases h
    exact moves_hidden [.put b] rfl rfl rfl rfl rfl rfl rfl
  case sendInLoopFinish =>
    subst ho
    cases h
    exact moves_hidden [.sendInLoopFinish] rfl rfl rfl rfl rfl rfl rfl
  case unixClose fd =>
    subst ho
    cases h
    exact moves_hidden (f := (·.note (.syscall .close fd))) [.syscall .close fd] rfl rfl rfl rfl rfl rfl rfl
  case unixWrite d fd data =>
    subst ho
    obtain ⟨n, -, -, -, rfl⟩ | ⟨e, -, -, rfl⟩ := act_unixWrite cfg h
    · exact moves_hidden [.syscall .write fd] rfl rfl rfl rfl rfl rfl rfl
    · exact moves_hidden [.syscall .write fd] rfl rfl rfl rfl rfl rfl rfl
  case epollCtl d op fd events =>
    subst ho
    obtain ⟨rfl, -, rfl⟩ | ⟨rfl, -, rfl⟩ := act_epollCtl cfg h
    · exact moves_hidden [.syscall (.epollCtl op false) fd] rfl rfl rfl rfl rfl rfl rfl
    · exact moves_hidden (f := (·.note (.syscall (.epollCtl op true) fd))) [.syscall (.epollCtl op true) fd] rfl rfl rfl
        rfl rfl rfl rfl

variable (cfg c L) in
theorem moves_onClose : Moves cfg c [.close] L
    (L.modify c fun x => { x.note .onClose with user := cfg.callBack.onClose x.user }) :=
  moves_modify [.onClose] rfl id rfl rfl (.one (.close _))

def Ends (c : C) (o : Op C κ δ) : Prop := Hidden c o ∨ o = .onClose c

omit [DecidableEq C] in
theorem ends_of_emits {o : Op C κ δ} (h : Emits c o) : Ends c o := by
  cases o <;> simp only [Emits] at h
  case onClose => exact .inr (by rw [h])
  case connectedSet | isEmpty | peekAll => exact .inl h.1
  all_goals first | exact .inl h | exact .inl trivial

theorem always_ends {α : Type} {p : Prog C κ δ α} (hp : p.Uses (Ends c)) (L : Local C σ κ δ) :
    Always (semantics cfg) (fun _ _ => True) (fun _ L' => ∃ n, Moves cfg c (List.replicate n .close) L L') p L := by
  refine Always.of_uses hp (fun _ _ _ _ => trivial) ?_ ⟨0, .refl cfg c L⟩
  rintro o ho ch L₁ r L₂ ⟨n, hm⟩ hact
  rcases ho with ho | rfl
  · exact ⟨n, by simpa using hm.trans (act_hidden ho hact)⟩
  · cases hact
    refine ⟨n + 1, ?_⟩
    rw [List.replicate_succ']
    exact hm.trans (moves_onClose cfg c L₁)

end Operations

section Loop

variable {b : Buffer} {x : Peer σ} {tmp : Slice} {acc : Bytes}

/-- Where the loop of handlerProtocol stands on a buffer, with the replies so far. While it works on the packet window,
the input buffer is empty. -/
structure Stands (c : C) (b : Buffer) (L : Local C σ κ δ) (x : Peer σ) (tmp : Slice) (acc : Bytes) : Prop where
  user : (L.conns c).user = x.user
  ring : L.ring c b = x.unread
  valid : Valid L.heap tmp
  replies : contents L.heap tmp = acc
  window : b = .buffer → Valid L.heap (L.conns c).buffer.slice ∧ Apart (L.conns c).buffer.slice tmp
  empty : b = .buffer → (L.conns c).inBuffer.data = []

structure Calls (c : C) (L L' : Local C σ κ δ) (calls : List (Option κ × Bytes)) : Prop where
  packet : L'.packet = L.packet
  valid : ∀ s, Valid L.heap s → Valid L'.heap s
  sights : sights (L'.conns c) = sights (L.conns c) ++ calls.map .call
  others : ∀ d, d ≠ c → L'.conns d = L.conns d

theorem Calls.refl (c : C) (L : Local C σ κ δ) : Calls c L L [] :=
  ⟨rfl, fun _ => id, (List.append_nil _).symm, fun _ _ => rfl⟩

theorem Calls.trans {calls calls' : List (Option κ × Bytes)} (h : Calls c L L' calls) (h' : Calls c L' L'' calls') :
    Calls c L L'' (calls ++ calls') := by
  refine ⟨h'.packet.trans h.packet, fun s hs => h'.valid s (h.valid s hs), ?_,
    fun d hd => (h'.others d hd).trans (h.others d hd)⟩
  rw [h'.sights, h.sights, List.map_append, List.append_assoc]

variable [DecidableEq C]

theorem calls_modify {f : Conn σ κ → Conn σ κ} (acts : List (Act κ)) {calls : List (Option κ × Bytes)}
    (hhist : (f (L.conns c)).history = (L.conns c).history ++ acts) (hcalls : acts.filterMap sight = calls.map .call) :
    Calls c L (L.modify c f) calls := by
  refine ⟨rfl, fun _ h => h, ?_, ?_⟩
  · rw [modify_self, sights_append acts hhist, hcalls]
  · intro d hd
    simp [Local.modify, hd]

theorem calls_touch (c : C) (b : Buffer) (L : Local C σ κ δ) : Calls c L (L.modify c (·.touch b)) [] := by
  refine calls_modify (if b = .buffer then [] else [.touch b]) rfl ?_
  split <;> rfl

theorem calls_withData (c : C) (s : Slice) (L : Local C σ κ δ) :
    Calls c L (L.modify c fun x => { x with buffer := ⟨s, 0, 0⟩ }) [] :=
  calls_modify [] (List.append_nil _).symm rfl

omit [DecidableEq C] in
theorem ring_consume (v : View) (h : Heap UInt8) (n k : Nat) :
    (⟨v.slice, v.start + n, k⟩ : View).ring h = (v.ring h).advance n k := by
  apply RingBuffer.ext
  · simp only [View.ring, RingBuffer.data_advance, List.drop_drop]
  · simp only [View.ring, RingBuffer.advance, RingBuffer.data_ofList, List.length_drop, Nat.sub_sub]

/-- UnPacket is shown the unread bytes, whichever buffer they are in. -/
theorem unPacket_stands (hb : b ≠ .outBuffer) (h : Stands c b L x tmp acc) {wrap : Nat} {r : Option κ × Bytes}
    (hact : act cfg (.unPacket c b) wrap L = some (r, L')) :
    ∃ u w, cfg.protocol.unPacket x.user w x.unread = u ∧ r = (u.ctx, u.out) ∧
      Stands c b L' ⟨u.user, x.unread.advance u.consumed u.cursor⟩ tmp acc ∧ Calls c L L' [] := by
  simp only [act, h.user, h.ring] at hact
  generalize hwrap : (if b = .buffer then x.unread.length else wrap) = w at hact
  generalize hu : cfg.protocol.unPacket x.user w x.unread = u at hact
  obtain ⟨hr, rfl⟩ := Prod.mk.inj (Option.some.inj hact)
  have hself := modify_self (c := c) L
    (fun x => { (x.touch b).consume b u.consumed u.cursor with user := u.user })
  have hring := h.ring
  refine ⟨u, w, hu, hr.symm, ⟨by rw [hself], ?_, h.valid, h.replies, ?_, ?_⟩, ?_⟩
  · cases b with
    | outBuffer => exact absurd rfl hb
    | inBuffer =>
        rw [Local.ring] at hring ⊢
        rw [hself, ← hring]
        rfl
    | buffer =>
        rw [Local.ring] at hring ⊢
        rw [hself, ← hring]
        exact ring_consume (L.conns c).buffer L.heap u.consumed u.cursor
  · rintro rfl
    rw [hself]
    exact h.window rfl
  · rintro rfl
    rw [hself]
    exact h.empty rfl
  · refine calls_modify (if b = .buffer then [] else [.touch b]) rfl ?_
    split <;> rfl

theorem onMessage_stands (h : Stands c b L x tmp acc) {ctx : Option κ} {data : Bytes} {r : Option δ}
    (hact : act cfg (.onMessage c ctx data) () L = some (r, L')) :
    r = (cfg.callBack.onMessage x.user ctx data).2 ∧
      Stands c b L' { x with user := (cfg.callBack.onMessage x.user ctx data).1 } tmp acc ∧
      Calls c L L' [(ctx, data)] := by
  simp only [act, h.user] at hact
  obtain ⟨hr, rfl⟩ := Prod.mk.inj (Option.some.inj hact)
  generalize cfg.callBack.onMessage x.user ctx data = m at hr ⊢
  have hself := modify_self (c := c) L
    (fun x => { x.note (.onMessage ctx data x.connected) with user := m.1 })
  refine ⟨hr.symm, ⟨by rw [hself], ?_, h.valid, h.replies, ?_, ?_⟩, ?_⟩
  · have hring := h.ring
    cases b <;> rw [Local.ring] at hring ⊢ <;> rw [hself] <;> exact hring
  · rw [hself]
    exact h.window
  · rw [hself]
    exact h.empty
  · exact calls_modify [.onMessage ctx data (L.conns c).connected] rfl rfl

/-- A reply is written behind the window that is being parsed, or into another array, so the unread bytes stay as they
are. -/
theorem append_stands (h : Stands c b L x tmp acc) {packed : Bytes} {r : Slice}
    (hact : act cfg (.append tmp packed) () L = some (r, L')) :
    Stands c b L' x r (acc ++ packed) ∧ Calls c L L' [] := by
  cases hact
  have hvalid := fun s hs => valid_append_frame cfg.grow (0 : UInt8) (t := s) h.valid hs packed
  refine ⟨⟨h.user, ?_, valid_append _ _ h.valid packed, ?_, ?_, h.empty⟩, ?_⟩
  · have hring := h.ring
    cases b with
    | inBuffer | outBuffer => exact hring
    | buffer =>
        obtain ⟨hv, hapart⟩ := h.window rfl
        rw [Local.ring, View.ring] at hring ⊢
        rw [contents_append_frame cfg.grow 0 h.valid hv (hapart.imp_right (Nat.le_add_right_of_le)) packed]
        exact hring
  · rw [contents_append _ _ h.valid packed, h.replies]
  · intro hb
    obtain ⟨hv, hapart⟩ := h.window hb
    refine ⟨hvalid _ hv, ?_⟩
    rcases append_place cfg.grow 0 L.heap tmp packed with ⟨harr, hoff, -⟩ | harr
    · rw [Apart, harr, hoff]
      exact hapart
    · left
      rw [harr]
      exact Nat.ne_of_lt hv.alloc
  · exact ⟨rfl, hvalid, (List.append_nil _).symm, fun _ _ => rfl⟩

/-- The loop of handlerProtocol parses the unread bytes and gathers the replies, whatever the environment does. -/
theorem handlerProtocol_parses (hb : b ≠ .outBuffer) (fuel : Nat) (h : Stands c b L x tmp acc) :
    Always (semantics cfg) (fun _ _ => True)
      (fun tmp' L' => ∃ calls replies y, Parses cfg x calls replies y ∧ Stands c b L' y tmp' (acc ++ replies) ∧
        Calls c L L' calls)
      (handlerProtocol c b fuel tmp) L := by
  induction fuel generalizing L x tmp acc with
  | zero => exact ⟨trivial, fun _ r => nomatch r⟩
  | succ fuel ih =>
      refine ⟨trivial, ?_⟩
      intro wrap r L₁ hact
      obtain ⟨u, w, hu, rfl, hs₁, hc₁⟩ := unPacket_stands hb h hact
      change Always _ _ _ (if u.ctx.isSome ∨ u.out ≠ [] then _ else _) _
      split
      next hsome =>
        refine ⟨trivial, ?_⟩
        intro ch answer L₂ hact
        obtain ⟨rfl, hs₂, hc₂⟩ := onMessage_stands hs₁ hact
        generalize hm : cfg.callBack.onMessage u.user u.ctx u.out = m at hs₂ ⊢
        obtain ⟨user, answer⟩ := m
        have hc := hc₁.trans hc₂
        cases answer with
        | none =>
            apply (ih hs₂).mono
            rintro tmp' L₃ ⟨calls, replies, y, hparses, hs₃, hc₃⟩
            exact ⟨_, _, y, .message hu hsome hm hparses, hs₃, hc.trans hc₃⟩
        | some data =>
            refine ⟨trivial, ?_⟩
            intro ch packed L₃ hact
            obtain ⟨rfl, rfl⟩ := Prod.mk.inj (Option.some.inj hact)
            refine ⟨trivial, ?_⟩
            intro ch tmp₁ L₃ hact
            obtain ⟨hs₃, hc₃⟩ := append_stands hs₂ hact
            rw [hs₂.user] at hs₃
            apply (ih hs₃).mono
            rintro tmp' L₄ ⟨calls, replies, y, hparses, hs₄, hc₄⟩
            refine ⟨_, _, y, .message hu hsome hm hparses, ?_, (hc.trans hc₃).trans hc₄⟩
            rwa [List.append_assoc] at hs₄
      next hnone => exact ⟨[], [], _, .stop hu hnone, by simpa using hs₁, hc₁⟩

end Loop

section Reading

variable {data : Bytes}

/-- The bytes of a read have been parsed; the replies are in a slice and have not been given to the connection yet. -/
structure Parsed (cfg : Config C σ κ δ) (c : C) (L L' : Local C σ κ δ) (data : Bytes)
    (calls : List (Option κ × Bytes)) (tmp : Slice) : Prop where
  takes : Takes cfg (peer L c) (.read data calls (contents L'.heap tmp)) (peer L' c)
  valid : Valid L'.heap tmp
  calls : Calls c L L' calls

variable [DecidableEq C]

omit [DecidableEq C] in
theorem eq_ofList_nil {r : RingBuffer UInt8} (h : r.data = []) : r = .ofList [] := by
  have hb := r.bounded
  rw [h] at hb
  exact RingBuffer.ext h (Nat.le_zero.mp hb)

variable (cfg) in
theorem write_inBuffer (h : act cfg (.write c .inBuffer data) () L = some ((), L')) :
    Calls c L L' [] ∧ L'.heap = L.heap ∧ peer L' c = ⟨(L.conns c).user, (L.conns c).inBuffer.write data⟩ := by
  obtain ⟨-, rfl⟩ := Prod.mk.inj (Option.some.inj h)
  refine ⟨calls_modify [.touch .inBuffer] rfl rfl, rfl, ?_⟩
  rw [peer, modify_self]
  rfl

/-- With bytes left from earlier reads the new ones are appended to them. -/
theorem parsePacket_appended (hv : Valid L.heap L.packet) (hne : (L.conns c).inBuffer.data ≠ [])
    (hbuf : contents L.heap (reslice L.packet 0 data.length) = data) (fuel : Nat) :
    Always (semantics cfg) (fun _ _ => True) (fun tmp L' => ∃ calls, Parsed cfg c L L' data calls tmp)
      (parsePacket fuel c L.packet data.length) L := by
  refine ⟨trivial, ?_⟩
  intro ch empty L₁ hact
  obtain ⟨rfl, rfl⟩ := Prod.mk.inj (Option.some.inj hact)
  have hempty : (L.ring c .inBuffer).isEmpty = false := by simpa [Local.ring, RingBuffer.isEmpty] using hne
  simp only [Program.bind]
  rw [hempty, if_neg (by simp)]
  refine ⟨trivial, ?_⟩
  intro ch content L₁ hact
  obtain ⟨rfl, rfl⟩ := Prod.mk.inj (Option.some.inj hact)
  have hheap : (L.modify c (·.touch .inBuffer)).heap = L.heap := rfl
  rw [hheap, hbuf]
  refine ⟨trivial, ?_⟩
  intro ch _ L₂ hact
  obtain ⟨hc₂, hheap, hpeer⟩ := write_inBuffer cfg hact
  have hc := (calls_touch c .inBuffer L).trans hc₂
  rw [modify_self] at hpeer
  have hs : Stands c .inBuffer L₂ ⟨(L.conns c).user, (L.conns c).inBuffer.write data⟩ (reslice L.packet 0 0) [] :=
    ⟨congrArg Peer.user hpeer, congrArg Peer.unread hpeer, hc.valid _ (valid_reslice hv le_rfl (Nat.zero_le _)),
      contents_reslice_self _ _ _, fun hb => absurd hb (by decide), fun hb => absurd hb (by decide)⟩
  apply (handlerProtocol_parses (by decide) fuel hs).mono
  rintro tmp L₃ ⟨calls, replies, y, hparses, hs₃, hc₃⟩
  rw [List.nil_append] at hs₃
  obtain rfl := hs₃.replies
  have hpeer₃ : peer L₃ c = (peer L c).store y := by
    rw [Peer.store_of_ne hne]
    exact Peer.ext hs₃.user hs₃.ring
  refine ⟨calls, ?_, hs₃.valid, hc.trans hc₃⟩
  rw [hpeer₃]
  exact .read hparses

/-- The window that WithData opens on the bytes that were read. -/
theorem stands_window (hv : Valid L.heap L.packet) (hnil : (L.conns c).inBuffer.data = [])
    (hn : data.length ≤ L.packet.len) (hbuf : contents L.heap (reslice L.packet 0 data.length) = data) :
    Stands c .buffer (L.modify c fun x => { x with buffer := ⟨reslice L.packet 0 data.length, 0, 0⟩ })
      ⟨(L.conns c).user, .ofList data⟩ (reslice L.packet data.length data.length) [] := by
  have hcap : data.length ≤ L.packet.cap := Nat.le_trans hn hv.fits
  have hself := modify_self (c := c) L (fun x => { x with buffer := ⟨reslice L.packet 0 data.length, 0, 0⟩ })
  refine ⟨by rw [hself], ?_, valid_reslice hv le_rfl hcap, contents_reslice_self _ _ _, fun _ => ⟨?_, ?_⟩, fun _ => ?_⟩
  · have hheap : (L.modify c fun x => { x with buffer := ⟨reslice L.packet 0 data.length, 0, 0⟩ }).heap = L.heap := rfl
    rw [Local.ring, hself, View.ring, hheap, hbuf]
    exact RingBuffer.ext rfl (Nat.zero_min _)
  · rw [hself]
    exact valid_reslice hv (Nat.zero_le _) hcap
  · rw [hself]
    exact .inr le_rfl
  · rw [hself]
    exact hnil

/-- With nothing left the new bytes are parsed where they were read to, and what remains of them is copied. -/
theorem parsePacket_inPlace (hv : Valid L.heap L.packet) (hnil : (L.conns c).inBuffer.data = [])
    (hn : data.length ≤ L.packet.len) (hbuf : contents L.heap (reslice L.packet 0 data.length) = data) (fuel : Nat) :
    Always (semantics cfg) (fun _ _ => True) (fun tmp L' => ∃ calls, Parsed cfg c L L' data calls tmp)
      (parsePacket fuel c L.packet data.length) L := by
  have hin := eq_ofList_nil hnil
  refine ⟨trivial, ?_⟩
  intro ch empty L₁ hact
  obtain ⟨rfl, rfl⟩ := Prod.mk.inj (Option.some.inj hact)
  have hempty : (L.ring c .inBuffer).isEmpty = true := (RingBuffer.isEmpty_iff _).mpr hnil
  simp only [Program.bind]
  rw [hempty, if_pos rfl]
  refine ⟨trivial, ?_⟩
  intro ch _ L₂ hact
  obtain ⟨-, rfl⟩ := Prod.mk.inj (Option.some.inj hact)
  have hc := (calls_touch c .inBuffer L).trans (calls_withData c (reslice L.packet 0 data.length) _)
  have hs := stands_window (L := L.modify c (·.touch .inBuffer)) (c := c) hv (by rwa [modify_self]) hn hbuf
  rw [modify_self] at hs
  apply Always.bind (p := handlerProtocol c .buffer fuel (reslice L.packet data.length data.length))
  apply (handlerProtocol_parses (by decide) fuel hs).mono
  rintro tmp L₃ ⟨calls, replies, y, hparses, hs₃, hc₃⟩
  rw [List.nil_append] at hs₃
  obtain rfl := hs₃.replies
  -- However the rest is kept, the connection is left with the unread bytes.
  have hparsed : ∀ L₄ : Local C σ κ δ, Calls c L₃ L₄ [] → L₄.heap = L₃.heap →
      peer L₄ c = ⟨y.user, .ofList y.unread.data⟩ → Parsed cfg c L L₄ data calls tmp := by
    intro L₄ hc₄ hheap₄ hpeer
    refine ⟨?_, hc₄.valid _ hs₃.valid, by simpa using (hc.trans hc₃).trans hc₄⟩
    rw [hheap₄, hpeer, ← Peer.store_of_nil (x := peer L c) hnil]
    refine .read ?_
    rw [show (peer L c).unread = .ofList [] from hin]
    exact hparses
  refine ⟨trivial, ?_⟩
  intro ch empty L₄ hact
  obtain ⟨rfl, rfl⟩ := Prod.mk.inj (Option.some.inj hact)
  rw [hs₃.ring]
  have hc₄ := calls_touch c .buffer L₃
  simp only [Program.bind]
  cases hrest : y.unread.isEmpty with
  | true =>
      rw [if_neg (by simp)]
      refine ⟨calls, hparsed _ hc₄ rfl ?_⟩
      rw [(RingBuffer.isEmpty_iff _).mp hrest, peer, modify_self]
      exact Peer.ext hs₃.user (eq_ofList_nil (hs₃.empty rfl))
  | false =>
      rw [if_pos rfl]
      refine ⟨trivial, ?_⟩
      intro wrap parts L₅ hact
      obtain ⟨rfl, rfl⟩ := Prod.mk.inj (Option.some.inj hact)
      -- WithData left the window in one piece, so that the first segment is all of it.
      have hring : (L₃.modify c (·.touch .buffer)).ring c .buffer = y.unread := by
        rw [← hs₃.ring, Local.ring, Local.ring, modify_self]
        rfl
      rw [if_pos rfl, hring]
      have hall : y.unread.data.take y.unread.length = y.unread.data := List.take_length
      refine ⟨trivial, ?_⟩
      intro ch _ L₆ hact
      obtain ⟨hc₆, hheap₆, hpeer⟩ := write_inBuffer cfg hact
      refine ⟨calls, hparsed L₆ ((hc₄.trans (calls_touch c .buffer _)).trans hc₆) hheap₆ ?_⟩
      rw [hpeer, modify_self, modify_self]
      refine Peer.ext hs₃.user ?_
      change (L₃.conns c).inBuffer.write (y.unread.data.take y.unread.length) = .ofList y.unread.data
      rw [eq_ofList_nil (hs₃.empty rfl), hall]
      rfl

end Reading

end Gev.Connection.Behaviour
