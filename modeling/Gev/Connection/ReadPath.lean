import Gev.Connection.Writing

namespace Gev.Connection.ReadPath

open Lib.Atomic Lib.Slices Lib.RingBuffers State Code Reading Writing

variable {C σ κ δ : Type} [DecidableEq C]

/-- A codec whose result depends only on the unread bytes and the connection's
own state, and which leaves no virtual cursor behind. -/
structure Plain (p : Protocol σ κ δ) : Prop where
  wrap : ∀ user m n buffer, p.unPacket user m buffer = p.unPacket user n buffer
  cursor : ∀ user n data, (p.unPacket user n (.ofList data)).cursor = 0

def message : Act κ → Option (Option κ × Bytes)
  | .onMessage ctx data _ => some (ctx, data)
  | _ => none

def messages (x : Conn σ κ) : List (Option κ × Bytes) := x.history.filterMap message

/-- What draining a buffer amounts to: the OnMessage calls and the bytes of the
replies, and the state and the unread bytes they leave. -/
structure Drained (σ κ : Type) where
  user : σ
  rest : Bytes
  calls : List (Option κ × Bytes)
  replies : Bytes

section Reference

variable (cfg : Config C σ κ δ)

def reply (user : σ) : Option δ → Bytes
  | some data => cfg.protocol.packet user data
  | none => []

def drain : Nat → σ → Bytes → Option (Drained σ κ)
  | 0, _, _ => none
  | fuel + 1, user, unread =>
      let u := cfg.protocol.unPacket user unread.length (.ofList unread)
      if u.ctx.isSome ∨ u.out ≠ [] then
        let m := cfg.callBack.onMessage u.user u.ctx u.out
        (drain fuel m.1 (unread.drop u.consumed)).map fun d =>
          ⟨d.user, d.rest, (u.ctx, u.out) :: d.calls, reply cfg m.1 m.2 ++ d.replies⟩
      else some ⟨u.user, unread.drop u.consumed, [], []⟩

/-- The plain read path: every chunk is appended to one buffer, which is then
drained. The result lists the replies chunk by chunk, the calls, and what is left. -/
def reference (fuel : Nat) : σ → Bytes → List Bytes → Option (List Bytes × List (Option κ × Bytes) × Bytes)
  | _, unread, [] => some ([], [], unread)
  | user, unread, chunk :: chunks => do
      let d ← drain cfg fuel user (unread ++ chunk)
      let (replies, calls, rest) ← reference fuel d.user d.rest chunks
      return (d.replies :: replies, d.calls ++ calls, rest)

end Reference

abbrev Policy (C σ κ δ : Type) := (o : Op C κ δ) → Local C σ κ δ → Choice o

section Evaluation

variable {cfg : Config C σ κ δ} {policy : Policy C σ κ δ}

theorem eval_call {α : Type} {o : Op C κ δ} {k : Res o → Prog C κ δ α} {L L' : Local C σ κ δ} {r : Res o}
    (h : act cfg o (policy o L) L = some (r, L')) :
    eval (semantics cfg) policy (call o >>= k) L = eval (semantics cfg) policy (k r) L' := by
  have hact : (semantics cfg).act o (policy o L) L = some (r, L') := h
  rw [call_bind, eval, hact]

/-- The replies are gathered behind the window that is being parsed, or in another array. -/
def Apart (window tmp : Slice) : Prop := window.arr ≠ tmp.arr ∨ window.off + window.len ≤ tmp.off

structure At (c : C) (b : Buffer) (L : Local C σ κ δ) (user : σ) (unread : Bytes) (tmp : Slice)
    (replies : Bytes) : Prop where
  user : (L.conns c).user = user
  ring : L.ring c b = .ofList unread
  valid : Valid L.heap tmp
  replies : contents L.heap tmp = replies
  window : b = .buffer → Valid L.heap (L.conns c).buffer.slice ∧ Apart (L.conns c).buffer.slice tmp

structure Kept (c : C) (b : Buffer) (L L' : Local C σ κ δ) (calls : List (Option κ × Bytes)) : Prop where
  packet : L'.packet = L.packet
  valid : ∀ s, Valid L.heap s → Valid L'.heap s
  inBuffer : b = .buffer → (L'.conns c).inBuffer = (L.conns c).inBuffer
  messages : messages (L'.conns c) = messages (L.conns c) ++ calls
  sent : sent (L'.conns c) = sent (L.conns c)

omit [DecidableEq C] in
theorem Kept.refl (c : C) (b : Buffer) (L : Local C σ κ δ) : Kept c b L L [] :=
  ⟨rfl, fun _ h => h, fun _ => rfl, (List.append_nil _).symm, rfl⟩

omit [DecidableEq C] in
theorem Kept.trans {c : C} {b : Buffer} {L L' L'' : Local C σ κ δ} {calls calls' : List (Option κ × Bytes)}
    (h : Kept c b L L' calls) (h' : Kept c b L' L'' calls') : Kept c b L L'' (calls ++ calls') := by
  refine ⟨h'.packet.trans h.packet, fun s hs => h'.valid s (h.valid s hs),
    fun hb => (h'.inBuffer hb).trans (h.inBuffer hb), ?_, h'.sent.trans h.sent⟩
  rw [h'.messages, h.messages, List.append_assoc]

end Evaluation

section Loop

variable {cfg : Config C σ κ δ} (policy : Policy C σ κ δ) {c : C} {b : Buffer} {L : Local C σ κ δ}
variable {user : σ} {unread acc : Bytes} {tmp : Slice}

theorem messages_append (x y : Conn σ κ) (acts : List (Act κ)) (h : y.history = x.history ++ acts) :
    messages y = messages x ++ acts.filterMap message := by
  simp [messages, h]

/-- A change of the connection that the loop may make. -/
theorem kept_modify {f : Conn σ κ → Conn σ κ} (acts : List (Act κ))
    (hhist : (f (L.conns c)).history = (L.conns c).history ++ acts)
    (hin : b = .buffer → (f (L.conns c)).inBuffer = (L.conns c).inBuffer)
    {calls : List (Option κ × Bytes)} (hcalls : acts.filterMap message = calls)
    (hsent : acts.filterMap sendData = []) : Kept c b L (L.modify c f) calls := by
  have hself : (L.modify c f).conns c = f (L.conns c) := modify_self L f
  refine ⟨rfl, fun _ h => h, ?_, ?_, ?_⟩
  · rw [hself]
    exact hin
  · rw [hself, messages_append _ _ acts hhist, hcalls]
  · rw [hself, sent_append _ _ acts hhist, hsent]
    simp

/-- UnPacket takes its bytes off the unread ones, whichever buffer they are in. -/
theorem unPacket_eval (hp : Plain cfg.protocol) (hb : b ≠ .outBuffer) (h : At c b L user unread tmp acc) :
    let u := cfg.protocol.unPacket user unread.length (.ofList unread)
    ∃ L', (∀ {α : Type} (k : Option κ × Bytes → Prog C κ δ α),
        eval (semantics cfg) policy (call (.unPacket c b) >>= k) L =
          eval (semantics cfg) policy (k (u.ctx, u.out)) L') ∧
      At c b L' u.user (unread.drop u.consumed) tmp acc ∧ Kept c b L L' [] := by
  intro u
  have hu : ∀ wrap, cfg.protocol.unPacket (L.conns c).user wrap (L.ring c b) = u := by
    intro wrap
    rw [h.user, h.ring]
    exact hp.wrap _ _ _ _
  have hcursor : u.cursor = 0 := hp.cursor _ _ _
  have hact : act cfg (.unPacket c b) (policy (.unPacket c b) L) L = some ((u.ctx, u.out),
      L.modify c fun x => { (x.touch b).consume b u.consumed u.cursor with user := u.user }) := by
    simp only [act, hu]
  refine ⟨_, fun k => eval_call hact, ?_, ?_⟩
  · have hself := modify_self (c := c) L
      (fun x => { (x.touch b).consume b u.consumed u.cursor with user := u.user })
    refine ⟨by rw [hself], ?_, h.valid, h.replies, ?_⟩
    · have hring := h.ring
      cases b with
      | outBuffer => exact absurd rfl hb
      | inBuffer =>
          rw [Local.ring] at hring ⊢
          rw [hself]
          simp only [Conn.consume, Conn.touch, hring, hcursor, if_true]
          exact RingBuffer.ext rfl (Nat.zero_min _)
      | buffer =>
          rw [Local.ring, View.ring] at hring ⊢
          rw [hself]
          simp only [Conn.consume, Conn.touch, hcursor, if_true]
          apply RingBuffer.ext
          · have hdata := congrArg RingBuffer.data hring
            simp only [RingBuffer.data_advance, RingBuffer.data_ofList] at hdata ⊢
            rw [← hdata, List.drop_drop]
            rfl
          · exact Nat.zero_min _
    · intro hbuf
      subst hbuf
      have hw := h.window rfl
      rw [hself]
      exact hw
  · refine kept_modify (if b = .buffer then [] else [.touch b]) rfl ?_ ?_ ?_
    · rintro rfl
      rfl
    · split <;> rfl
    · split <;> rfl

/-- OnMessage records the call and changes the connection's state. -/
theorem onMessage_eval (h : At c b L user unread tmp acc) (ctx : Option κ) (data : Bytes) :
    let m := cfg.callBack.onMessage user ctx data
    ∃ L', (∀ {α : Type} (k : Option δ → Prog C κ δ α),
        eval (semantics cfg) policy (call (.onMessage c ctx data) >>= k) L =
          eval (semantics cfg) policy (k m.2) L') ∧
      At c b L' m.1 unread tmp acc ∧ Kept c b L L' [(ctx, data)] := by
  intro m
  have hact : act cfg (.onMessage c ctx data) (policy (.onMessage c ctx data) L) L = some (m.2,
      L.modify c fun x => { x.note (.onMessage ctx data x.connected) with user := m.1 }) := by
    simp only [act, h.user]
    rfl
  have hself := modify_self (c := c) L
    (fun x => { x.note (.onMessage ctx data x.connected) with user := m.1 })
  refine ⟨_, fun k => eval_call hact, ⟨by rw [hself], ?_, h.valid, h.replies, ?_⟩, ?_⟩
  · have hring := h.ring
    cases b <;> rw [Local.ring] at hring ⊢ <;> rw [hself] <;> exact hring
  · rw [hself]
    exact h.window
  · exact kept_modify [.onMessage ctx data (L.conns c).connected] rfl (fun _ => rfl) rfl rfl

/-- A reply goes behind the window that is being parsed, or moves to a fresh
array, so the unread bytes stay as they are. -/
theorem append_eval (h : At c b L user unread tmp acc) (packed : Bytes) :
    ∃ tmp' L', (∀ {α : Type} (k : Slice → Prog C κ δ α),
        eval (semantics cfg) policy (call (.append tmp packed) >>= k) L =
          eval (semantics cfg) policy (k tmp') L') ∧
      At c b L' user unread tmp' (acc ++ packed) ∧ Kept c b L L' [] := by
  have hvalid := fun s hs => valid_append_frame cfg.grow (0 : UInt8) (t := s) h.valid hs packed
  refine ⟨_, _, fun k => eval_call rfl, ⟨h.user, ?_, valid_append _ _ h.valid packed, ?_, ?_⟩, ?_⟩
  · have hring := h.ring
    cases b with
    | inBuffer | outBuffer => exact hring
    | buffer =>
        obtain ⟨hv, hapart⟩ := h.window rfl
        rw [Local.ring, View.ring] at hring ⊢
        rw [contents_append_frame cfg.grow 0 h.valid hv (hapart.imp_right (Nat.le_add_right_of_le)) packed]
        exact hring
  · rw [contents_append _ _ h.valid packed, h.replies]
  · intro hb
    obtain ⟨hv, hapart⟩ := h.window hb
    refine ⟨hvalid _ hv, ?_⟩
    rcases append_place cfg.grow 0 L.heap tmp packed with ⟨harr, hoff, -⟩ | harr
    · rw [Apart, harr, hoff]
      exact hapart
    · left
      rw [harr]
      exact Nat.ne_of_lt hv.alloc
  · exact ⟨rfl, hvalid, fun _ => rfl, (List.append_nil _).symm, rfl⟩

def Drains (c : C) (b : Buffer) (L : Local C σ κ δ) (acc : Bytes) (d : Drained σ κ)
    (r : Slice × Local C σ κ δ) : Prop :=
  At c b r.2 d.user d.rest r.1 (acc ++ d.replies) ∧ Kept c b L r.2 d.calls

omit [DecidableEq C] in
/-- An iteration that made a call, followed by the rest of the loop. -/
theorem drains_continue {L' : Local C σ κ δ} {call : Option κ × Bytes} {answer acc' : Bytes}
    (hk : Kept c b L L' [call]) (hacc : acc' = acc ++ answer) {d : Option (Drained σ κ)}
    {r : Option (Slice × Local C σ κ δ)} (h : Option.Rel (Drains c b L' acc') d r) :
    Option.Rel (Drains c b L acc)
      (d.map fun d => ⟨d.user, d.rest, call :: d.calls, answer ++ d.replies⟩) r := by
  cases h with
  | none => exact .none
  | some h =>
      obtain ⟨hat, hkept⟩ := h
      refine .some ⟨?_, hk.trans hkept⟩
      rw [← List.append_assoc, ← hacc]
      exact hat

/-- The loop of handlerProtocol drains the buffer as the reference does, and
runs out of fuel exactly when the reference does. -/
theorem handlerProtocol_eval (hp : Plain cfg.protocol) (hb : b ≠ .outBuffer) (fuel : Nat)
    (h : At c b L user unread tmp acc) :
    Option.Rel (Drains c b L acc) (drain cfg fuel user unread)
      (eval (semantics cfg) policy (handlerProtocol c b fuel tmp) L) := by
  induction fuel generalizing L user unread tmp acc with
  | zero => exact .none
  | succ fuel ih =>
      obtain ⟨L₁, he, hat, hkept⟩ := unPacket_eval policy hp hb h
      rw [drain, handlerProtocol, he]
      dsimp only
      generalize cfg.protocol.unPacket user unread.length (.ofList unread) = u at *
      by_cases hmore : u.ctx.isSome ∨ u.out ≠ []
      · rw [if_pos hmore, if_pos hmore]
        obtain ⟨L₂, he₂, hat₂, hkept₂⟩ := onMessage_eval policy hat u.ctx u.out
        rw [he₂]
        generalize cfg.callBack.onMessage u.user u.ctx u.out = m at *
        have hcall := hkept.trans hkept₂
        obtain ⟨user', answer⟩ := m
        cases answer with
        | none => exact drains_continue hcall (List.append_nil acc).symm (ih hat₂)
        | some data =>
            dsimp only
            rw [eval_call rfl, hat₂.user]
            obtain ⟨tmp', L₃, he₃, hat₃, hkept₃⟩ := append_eval policy hat₂ (cfg.protocol.packet user' data)
            rw [he₃]
            exact drains_continue (hcall.trans hkept₃) rfl (ih hat₃)
      · rw [if_neg hmore, if_neg hmore]
        exact .some ⟨by simpa using hat, hkept⟩

end Loop

section Chunk

variable {cfg : Config C σ κ δ} (policy : Policy C σ κ δ) {c : C} {L : Local C σ κ δ}
variable {user : σ} {unread chunk : Bytes}

structure Ready (c : C) (L : Local C σ κ δ) (user : σ) (unread : Bytes) : Prop where
  user : (L.conns c).user = user
  inBuffer : (L.conns c).inBuffer = .ofList unread
  packet : Valid L.heap L.packet

/-- What the parsing of a chunk leaves, against the reference, with the bytes
that are in the input buffer so far. -/
structure Holds (c : C) (L : Local C σ κ δ) (d : Drained σ κ) (kept : Bytes) (r : Slice × Local C σ κ δ) : Prop where
  ready : Ready c r.2 d.user kept
  replies : contents r.2.heap r.1 = d.replies
  len : r.1.len = d.replies.length
  packet : r.2.packet = L.packet
  messages : messages (r.2.conns c) = messages (L.conns c) ++ d.calls
  sent : sent (r.2.conns c) = sent (L.conns c)

def Parsed (c : C) (L : Local C σ κ δ) (d : Drained σ κ) (r : Slice × Local C σ κ δ) : Prop :=
  Holds c L d d.rest r

structure Same (c : C) (L L' : Local C σ κ δ) : Prop where
  heap : L'.heap = L.heap
  packet : L'.packet = L.packet
  user : (L'.conns c).user = (L.conns c).user
  inBuffer : (L'.conns c).inBuffer = (L.conns c).inBuffer
  messages : messages (L'.conns c) = messages (L.conns c)
  sent : sent (L'.conns c) = sent (L.conns c)

theorem same_modify {f : Conn σ κ → Conn σ κ} (acts : List (Act κ))
    (hhist : (f (L.conns c)).history = (L.conns c).history ++ acts)
    (huser : (f (L.conns c)).user = (L.conns c).user)
    (hin : (f (L.conns c)).inBuffer = (L.conns c).inBuffer)
    (hcalls : acts.filterMap message = []) (hsent : acts.filterMap sendData = []) :
    Same c L (L.modify c f) := by
  have hself : (L.modify c f).conns c = f (L.conns c) := modify_self L f
  refine ⟨rfl, rfl, ?_, ?_, ?_, ?_⟩
  · rw [hself, huser]
  · rw [hself, hin]
  · rw [hself, messages_append _ _ acts hhist, hcalls, List.append_nil]
  · rw [hself, sent_append _ _ acts hhist, hsent]
    simp

theorem same_touch (b : Buffer) : Same c L (L.modify c (·.touch b)) := by
  refine same_modify (if b = .buffer then [] else [.touch b]) rfl rfl rfl ?_ ?_ <;> split <;> rfl

omit [DecidableEq C] in
theorem Same.trans {L' L'' : Local C σ κ δ} (h : Same c L L') (h' : Same c L' L'') : Same c L L'' :=
  ⟨h'.heap.trans h.heap, h'.packet.trans h.packet, h'.user.trans h.user, h'.inBuffer.trans h.inBuffer,
    h'.messages.trans h.messages, h'.sent.trans h.sent⟩

omit [DecidableEq C] in
theorem Ready.same {L' : Local C σ κ δ} (h : Ready c L user unread) (hs : Same c L L') :
    Ready c L' user unread := by
  refine ⟨hs.user.trans h.user, hs.inBuffer.trans h.inBuffer, ?_⟩
  rw [hs.heap, hs.packet]
  exact h.packet

variable (cfg) in
/-- Appending to the input buffer. -/
theorem write_inBuffer (h : Ready c L user unread) (data : Bytes) : ∃ L', (∀ {α : Type} (k : Unit → Prog C κ δ α),
      eval (semantics cfg) policy (call (.write c .inBuffer data) >>= k) L = eval (semantics cfg) policy (k ()) L') ∧
    Ready c L' user (unread ++ data) ∧ L'.heap = L.heap ∧ L'.packet = L.packet ∧
    messages (L'.conns c) = messages (L.conns c) ∧ sent (L'.conns c) = sent (L.conns c) := by
  have hself := modify_self (c := c) L
    (fun x => (x.touch .inBuffer).setRing .inBuffer ((L.ring c .inBuffer).write data))
  refine ⟨_, fun k => eval_call rfl, ⟨?_, ?_, h.packet⟩, rfl, rfl, ?_, ?_⟩
  · rw [hself]
    exact h.user
  · rw [hself]
    simp [Conn.setRing, Local.ring, h.inBuffer, RingBuffer.write, RingBuffer.ofList]
  · rw [hself, messages_append (L.conns c) _ [.touch .inBuffer] rfl]
    simp [message]
  · rw [hself, sent_append (L.conns c) _ [.touch .inBuffer] rfl]
    simp [sendData]

variable (cfg c L) in
theorem isEmpty_eval (b : Buffer) : ∃ L', (∀ {α : Type} (k : Bool → Prog C κ δ α),
      eval (semantics cfg) policy (call (.isEmpty c b) >>= k) L =
        eval (semantics cfg) policy (k (L.ring c b).isEmpty) L') ∧
    Same c L L' ∧ (L'.conns c).buffer = (L.conns c).buffer := by
  refine ⟨_, fun k => eval_call rfl, same_touch b, ?_⟩
  rw [modify_self]
  rfl

omit [DecidableEq C] in
theorem Drains.holds {b : Buffer} {L' : Local C σ κ δ} (hpacket : L'.packet = L.packet)
    (hvalid : Valid L'.heap L'.packet) (hmessages : messages (L'.conns c) = messages (L.conns c))
    (hsent : sent (L'.conns c) = sent (L.conns c)) {d : Drained σ κ} {r : Slice × Local C σ κ δ}
    (h : Drains c b L' [] d r) {kept : Bytes} (hin : (r.2.conns c).inBuffer = .ofList kept) :
    Holds c L d kept r := by
  obtain ⟨hat, hkept⟩ := h
  have hreplies : contents r.2.heap r.1 = d.replies := by simpa using hat.replies
  refine ⟨⟨hat.user, hin, ?_⟩, hreplies, ?_, hkept.packet.trans hpacket, ?_, hkept.sent.trans hsent⟩
  · rw [hkept.packet]
    exact hkept.valid _ hvalid
  · rw [← hreplies, length_contents hat.valid]
  · rw [hkept.messages, hmessages]

omit [DecidableEq C] in
theorem Holds.same {d : Drained σ κ} {kept : Bytes} {s : Slice} {L' L'' : Local C σ κ δ}
    (h : Holds c L d kept (s, L')) (hs : Same c L' L'') : Holds c L d kept (s, L'') := by
  refine ⟨h.ready.same hs, ?_, h.len, hs.packet.trans h.packet, hs.messages.trans h.messages,
    hs.sent.trans h.sent⟩
  rw [hs.heap]
  exact h.replies

/-- Bytes left over from earlier chunks: the chunk is appended to them. -/
theorem parsePacket_copied (hp : Plain cfg.protocol) (h : Ready c L user unread) (hne : unread ≠ [])
    (hbuf : contents L.heap (reslice L.packet 0 chunk.length) = chunk) (fuel : Nat) :
    Option.Rel (Parsed c L) (drain cfg fuel user (unread ++ chunk))
      (eval (semantics cfg) policy (parsePacket fuel c L.packet chunk.length) L) := by
  obtain ⟨L₁, he, hs, -⟩ := isEmpty_eval cfg policy c L .inBuffer
  have hempty : (L.ring c .inBuffer).isEmpty = false := by
    rw [Local.ring, h.inBuffer]
    simpa [RingBuffer.isEmpty] using hne
  rw [parsePacket, he, hempty]
  simp only [Bool.false_eq_true, if_false]
  rw [eval_call rfl, hs.heap, hbuf]
  obtain ⟨L₂, he₂, hready, hheap, hpacket, hmessages, hsent⟩ := write_inBuffer cfg policy (h.same hs) chunk
  rw [he₂, ← hs.packet, ← hpacket]
  have hat : At c .inBuffer L₂ user (unread ++ chunk) (reslice L₂.packet 0 0) [] :=
    ⟨hready.user, hready.inBuffer, valid_reslice hready.packet le_rfl (Nat.zero_le _),
      contents_reslice_self _ _ _, fun hb => by cases hb⟩
  have hloop := handlerProtocol_eval policy hp (by decide) fuel hat
  generalize drain cfg fuel user (unread ++ chunk) = d at hloop ⊢
  generalize eval (semantics cfg) policy _ L₂ = r at hloop ⊢
  cases hloop with
  | none => exact .none
  | some hd =>
      exact .some (hd.holds (hpacket.trans hs.packet) hready.packet (hmessages.trans hs.messages)
        (hsent.trans hs.sent) hd.1.ring)

/-- With an empty input buffer the chunk is parsed where it was read to, and
what remains of it is copied. -/
theorem parsePacket_inPlace (hp : Plain cfg.protocol) (h : Ready c L user []) (hn : chunk.length ≤ L.packet.len)
    (hbuf : contents L.heap (reslice L.packet 0 chunk.length) = chunk) (fuel : Nat) :
    Option.Rel (Parsed c L) (drain cfg fuel user chunk)
      (eval (semantics cfg) policy (parsePacket fuel c L.packet chunk.length) L) := by
  obtain ⟨L₁, he, hs, -⟩ := isEmpty_eval cfg policy c L .inBuffer
  have hempty : (L.ring c .inBuffer).isEmpty = true := by
    rw [Local.ring, h.inBuffer]
    rfl
  rw [parsePacket, he, hempty]
  simp only [if_true]
  rw [eval_call rfl, eval_bind]
  have hs := hs.trans (same_modify (f := fun x => { x with buffer := ⟨reslice L.packet 0 chunk.length, 0, 0⟩ })
    [] (List.append_nil _).symm rfl rfl rfl rfl)
  have hself := modify_self (c := c) L₁ (fun x => { x with buffer := ⟨reslice L.packet 0 chunk.length, 0, 0⟩ })
  generalize L₁.modify c (fun x => { x with buffer := ⟨reslice L.packet 0 chunk.length, 0, 0⟩ }) = L₂ at hs hself ⊢
  have hready := h.same hs
  have hv := h.packet
  have hcap : chunk.length ≤ L.packet.cap := Nat.le_trans hn hv.fits
  have hat : At c .buffer L₂ user chunk (reslice L.packet chunk.length chunk.length) [] := by
    refine ⟨hready.user, ?_, ?_, contents_reslice_self _ _ _, fun _ => ⟨?_, ?_⟩⟩
    · rw [Local.ring, hself, View.ring, hs.heap, hbuf]
      exact RingBuffer.ext rfl (Nat.zero_min _)
    · rw [hs.heap]
      exact valid_reslice hv le_rfl hcap
    · rw [hself, hs.heap]
      exact valid_reslice hv (Nat.zero_le _) hcap
    · rw [hself]
      exact .inr le_rfl
  have hloop := handlerProtocol_eval policy hp (by decide) fuel hat
  generalize drain cfg fuel user chunk = d at hloop ⊢
  generalize eval (semantics cfg) policy _ L₂ = r at hloop ⊢
  cases hloop with
  | none => exact .none
  | @some d r hd =>
      obtain ⟨tmp, L₃⟩ := r
      have hholds := hd.holds hs.packet hready.packet hs.messages hs.sent
        ((hd.2.inBuffer rfl).trans hready.inBuffer)
      dsimp only [Option.bind_some]
      obtain ⟨L₄, he₄, hs₄, hbuffer⟩ := isEmpty_eval cfg policy c L₃ .buffer
      rw [he₄, hd.1.ring]
      have hholds := hholds.same hs₄
      by_cases hrest : d.rest = []
      · rw [hrest]
        exact .some (by rw [Parsed, hrest]; exact hholds)
      · rw [show (RingBuffer.ofList d.rest).isEmpty = false by simpa [RingBuffer.isEmpty] using hrest]
        simp only [if_true]
        -- WithData left the window in one piece, so the first segment is all of it.
        have hring : L₄.ring c .buffer = .ofList d.rest := by
          rw [← hd.1.ring, Local.ring, Local.ring, hbuffer, hs₄.heap]
        rw [eval_call rfl, if_pos rfl, hring]
        have hholds := hholds.same (same_touch .buffer)
        obtain ⟨L₅, he₅, hready₅, hheap, hpacket, hmessages, hsent⟩ :=
          write_inBuffer cfg policy hholds.ready d.rest
        rw [show (RingBuffer.ofList d.rest).peekAll (RingBuffer.ofList d.rest).length = (d.rest, []) by
          simp [RingBuffer.peekAll, RingBuffer.length]]
        dsimp only
        rw [he₅]
        refine .some ⟨hready₅, ?_, hholds.len, hpacket.trans hholds.packet, hmessages.trans hholds.messages,
          hsent.trans hholds.sent⟩
        dsimp only
        rw [hheap]
        exact hholds.replies

theorem parsePacket_eval (hp : Plain cfg.protocol) (h : Ready c L user unread)
    (hn : chunk.length ≤ L.packet.len) (hbuf : contents L.heap (reslice L.packet 0 chunk.length) = chunk)
    (fuel : Nat) :
    Option.Rel (Parsed c L) (drain cfg fuel user (unread ++ chunk))
      (eval (semantics cfg) policy (parsePacket fuel c L.packet chunk.length) L) := by
  by_cases hne : unread = []
  · subst hne
    exact parsePacket_inPlace policy hp h hn hbuf fuel
  · exact parsePacket_copied policy hp h hne hbuf fuel

/-- With such a codec the environment has no say in the parsing of a packet. -/
theorem act_parsing (hp : Plain cfg.protocol) {o : Op C κ δ} (ho : Parsing c o) (ch ch' : Choice o)
    (L : Local C σ κ δ) : act cfg o ch L = act cfg o ch' L := by
  cases o <;> simp only [Parsing] at ho
  case peekAll d b =>
    obtain ⟨-, rfl⟩ := ho
    rfl
  case unPacket d b =>
    simp only [act]
    rw [hp.wrap]
  all_goals rfl

/-- Every execution of the parsing of a chunk ends as the reference does. -/
theorem parsePacket_always (hp : Plain cfg.protocol) (h : Ready c L user unread) (hn : chunk.length ≤ L.packet.len)
    (hbuf : contents L.heap (reslice L.packet 0 chunk.length) = chunk) (fuel : Nat) :
    Always (semantics cfg) (fun _ _ => True)
      (fun tmp L' => ∃ d, drain cfg fuel user (unread ++ chunk) = some d ∧ Parsed c L d (tmp, L'))
      (parsePacket fuel c L.packet chunk.length) L := by
  apply always_of_executes
  intro tmp L' he
  let policy : Policy C σ κ δ := fun o _ => Answers.choice ⟨0, 0, .error .EAGAIN, .error .EAGAIN, false, []⟩ o
  have hrel := parsePacket_eval policy hp h hn hbuf fuel
  rw [eval_of_executes (fun _ ho => act_parsing hp ho) policy (parses_parsePacket c fuel _ _) he] at hrel
  generalize drain cfg fuel user (unread ++ chunk) = d at hrel ⊢
  cases hrel with
  | some hd => exact ⟨_, rfl, hd⟩

end Chunk

section Reads

variable (cfg : Config C σ κ δ) (c : C)

/-- The environment hands out a chunk, takes what is written or part of it, and
answers epoll_ctl with a result that call can have. -/
structure Serves (policy : Policy C σ κ δ) (chunk : Bytes) : Prop where
  read : ∀ s L, policy (.unixRead c (cfg.fd c) s) L = .bytes chunk
  write : ∀ data L, policy (.unixWrite c (cfg.fd c) data) L = .error .EAGAIN ∨
    ∃ n, n ≤ data.length ∧ policy (.unixWrite c (cfg.fd c) data) L = .count n
  ctl : ∀ events L, (act cfg (.epollCtl c .mod (cfg.fd c) events)
    (policy (.epollCtl c .mod (cfg.fd c) events) L) L).isSome

variable {cfg c} {policy : Policy C σ κ δ} {chunk : Bytes} {L : Local C σ κ δ}

variable (cfg c policy L) in
theorem same_write_out (data : Bytes) : ∃ L', (∀ {α : Type} (k : Unit → Prog C κ δ α),
      eval (semantics cfg) policy (call (.write c .outBuffer data) >>= k) L =
        eval (semantics cfg) policy (k ()) L') ∧ Same c L L' :=
  ⟨_, fun _ => eval_call rfl, same_modify [.touch .outBuffer] rfl rfl rfl rfl rfl⟩

theorem same_epollMod (hs : Serves cfg c policy chunk) (events : UInt32) : ∃ ok L',
    (∀ {α : Type} (k : Bool → Prog C κ δ α),
      eval (semantics cfg) policy (call (.epollCtl c .mod (cfg.fd c) events) >>= k) L =
        eval (semantics cfg) policy (k ok) L') ∧ Same c L L' := by
  obtain ⟨⟨ok, L'⟩, hact⟩ := Option.isSome_iff_exists.mp (hs.ctl events L)
  refine ⟨ok, L', fun k => eval_call hact, ?_⟩
  generalize policy (.epollCtl c .mod (cfg.fd c) events) L = answer at hact
  have hnote : Same c L (L.modify c (·.note (.syscall (.epollCtl .mod answer) (cfg.fd c)))) :=
    same_modify _ rfl rfl rfl rfl rfl
  obtain ⟨rfl, -, rfl⟩ | ⟨rfl, -, rfl⟩ := act_epollCtl cfg hact
  · exact hnote
  · exact ⟨hnote.heap, hnote.packet, hnote.user, hnote.inBuffer, hnote.messages, hnote.sent⟩

theorem sendInLoopRest_eval (hs : Serves cfg c policy chunk) :
    ∃ L', eval (semantics cfg) policy (sendInLoopRest cfg c) L = some (false, L') ∧ Same c L L' := by
  obtain ⟨L₁, he, hsame, -⟩ := isEmpty_eval cfg policy c L .outBuffer
  rw [sendInLoopRest, he]
  cases (L.ring c .outBuffer).isEmpty with
  | true => exact ⟨L₁, rfl, hsame⟩
  | false =>
      obtain ⟨ok, L₂, he₂, hsame₂⟩ := same_epollMod (L := L₁) hs (readEvent ||| writeEvent)
      refine ⟨L₂, ?_, hsame.trans hsame₂⟩
      simp only [if_true, enableReadWrite]
      rw [he₂]
      rfl

theorem unixWrite_eval (hs : Serves cfg c policy chunk) (data : Bytes) :
    ∃ (r : Int × Option Errno) (L' : Local C σ κ δ),
    (∀ {α : Type} (k : Int × Option Errno → Prog C κ δ α),
      eval (semantics cfg) policy (call (.unixWrite c (cfg.fd c) data) >>= k) L =
        eval (semantics cfg) policy (k r) L') ∧ (r.2 = none ∨ r.2 = some .EAGAIN) ∧ Same c L L' := by
  have hnote : Same c L (L.modify c (·.note (.syscall .write (cfg.fd c)))) :=
    same_modify _ rfl rfl rfl rfl rfl
  rcases hs.write data L with hw | ⟨n, hn, hw⟩
  · refine ⟨(-1, some .EAGAIN), _, fun k => eval_call ?_, .inr rfl, hnote⟩
    rw [hw]
    rfl
  · refine ⟨(n, none), _, fun k => eval_call ?_, .inl rfl, hnote.trans
      (same_modify (f := fun x => { x with accepted := x.accepted ++ data.take n }) []
        (List.append_nil _).symm rfl rfl rfl rfl)⟩
    rw [hw]
    simp only [act, if_pos hn]

theorem sendInLoop_eval (hs : Serves cfg c policy chunk) (data : Bytes) :
    ∃ L', eval (semantics cfg) policy (sendInLoop cfg c data) L = some (false, L') ∧
      Same c (L.modify c (·.note (.sendInLoop data))) L' := by
  rw [sendInLoop, eval_call rfl]
  generalize L.modify c (·.note (.sendInLoop data)) = L₁
  obtain ⟨L₂, he₂, hsame₂, -⟩ := isEmpty_eval cfg policy c L₁ .outBuffer
  rw [he₂]
  cases (L₁.ring c .outBuffer).isEmpty with
  | false =>
      obtain ⟨L₃, he₃, hsame₃⟩ := same_write_out cfg c policy L₂ data
      refine ⟨L₃, ?_, hsame₂.trans hsame₃⟩
      simp only [if_true]
      rw [he₃]
      rfl
  | true =>
      obtain ⟨⟨n, err⟩, L₃, he₃, herr, hsame₃⟩ := unixWrite_eval (L := L₂) hs data
      simp only [Bool.true_eq_false, if_false]
      rw [he₃]
      have hgo : ¬(err ≠ none ∧ err ≠ some Errno.EAGAIN) := by
        rcases herr with rfl | rfl <;> simp
      dsimp only
      rw [if_neg hgo]
      have hsame := hsame₂.trans hsame₃
      by_cases hzero : n ≤ 0
      · obtain ⟨L₄, he₄, hsame₄⟩ := same_write_out cfg c policy L₃ data
        obtain ⟨L₅, he₅, hsame₅⟩ := sendInLoopRest_eval (L := L₄) hs
        rw [if_pos hzero, he₄]
        exact ⟨L₅, he₅, (hsame.trans hsame₄).trans hsame₅⟩
      · rw [if_neg hzero]
        by_cases hpart : n < data.length
        · obtain ⟨L₄, he₄, hsame₄⟩ := same_write_out cfg c policy L₃ (data.drop n.toNat)
          obtain ⟨L₅, he₅, hsame₅⟩ := sendInLoopRest_eval (L := L₄) hs
          rw [if_pos hpart, he₄]
          exact ⟨L₅, he₅, (hsame.trans hsame₄).trans hsame₅⟩
        · obtain ⟨L₅, he₅, hsame₅⟩ := sendInLoopRest_eval (L := L₃) hs
          rw [if_neg hpart]
          exact ⟨L₅, he₅, hsame.trans hsame₅⟩

def afterRead (c : C) (fd : Fd) (L : Local C σ κ δ) (chunk : Bytes) : Local C σ κ δ :=
  { L.modify c (·.note (.syscall .read fd)) with heap := fill L.heap L.packet chunk }

theorem ready_afterRead (fd : Fd) {user : σ} {unread : Bytes} (h : Ready c L user unread)
    (hn : chunk.length ≤ L.packet.len) : Ready c (afterRead c fd L chunk) user unread := by
  have hnote : Same c L (L.modify c (·.note (.syscall .read fd))) := same_modify _ rfl rfl rfl rfl rfl
  exact ⟨hnote.user.trans h.user, hnote.inBuffer.trans h.inBuffer, valid_fill h.packet h.packet hn⟩

variable (c chunk) in
theorem contents_afterRead (fd : Fd) (h : Valid L.heap L.packet) :
    contents (afterRead c fd L chunk).heap (reslice (afterRead c fd L chunk).packet 0 chunk.length) = chunk :=
  contents_fill h chunk

variable (c L chunk) in
theorem messages_afterRead (fd : Fd) : messages ((afterRead c fd L chunk).conns c) = messages (L.conns c) :=
  (same_modify (f := (·.note (.syscall .read fd))) _ rfl rfl rfl rfl rfl).messages

variable (c L chunk) in
theorem sent_afterRead (fd : Fd) : sent ((afterRead c fd L chunk).conns c) = sent (L.conns c) :=
  (same_modify (f := (·.note (.syscall .read fd))) _ rfl rfl rfl rfl rfl).sent

structure Round (c : C) (L : Local C σ κ δ) (d : Drained σ κ) (r : Bool × Local C σ κ δ) : Prop where
  ready : Ready c r.2 d.user d.rest
  packet : r.2.packet = L.packet
  messages : messages (r.2.conns c) = messages (L.conns c) ++ d.calls
  sent : sent (r.2.conns c) = sent (L.conns c) ++ d.replies

/-- A read of a chunk is the parsing of the chunk and the sending of the replies. -/
theorem handleRead_chunk (hread : ∀ s L, policy (.unixRead c (cfg.fd c) s) L = .bytes chunk) (hne : chunk ≠ [])
    (hn : chunk.length ≤ L.packet.len) (fuel : Nat) :
    eval (semantics cfg) policy (handleRead cfg fuel c (cfg.fd c)) L =
      (eval (semantics cfg) policy (parsePacket fuel c L.packet chunk.length) (afterRead c (cfg.fd c) L chunk)).bind
        fun r => eval (semantics cfg) policy (do
          if r.1.len ≠ 0 then
            let data ← call (.contents r.1)
            sendInLoop cfg c data
          else return false) r.2 := by
  have hact : act cfg (.unixRead c (cfg.fd c) L.packet) (policy (.unixRead c (cfg.fd c) L.packet) L) L =
      some (((chunk.length : Int), none), afterRead c (cfg.fd c) L chunk) := by
    rw [hread]
    simp only [act, if_pos hn]
    rfl
  have hpos : ¬((chunk.length : Int) = 0 ∨ (none : Option Errno) ≠ none) := by
    have := List.length_pos_iff.mpr hne
    simp
    omega
  rw [handleRead, eval_call rfl, eval_call hact]
  dsimp only
  rw [if_neg hpos, Int.toNat_natCast, eval_bind]

theorem handleRead_eval (hp : Plain cfg.protocol) (hs : Serves cfg c policy chunk) {user : σ} {unread : Bytes}
    (h : Ready c L user unread) (hne : chunk ≠ []) (hn : chunk.length ≤ L.packet.len) (fuel : Nat) :
    Option.Rel (fun d r => r.1 = false ∧ Round c L d r) (drain cfg fuel user (unread ++ chunk))
      (eval (semantics cfg) policy (handleRead cfg fuel c (cfg.fd c)) L) := by
  have hready : Ready c (afterRead c (cfg.fd c) L chunk) user unread := ready_afterRead (cfg.fd c) h hn
  have hbuf := contents_afterRead c chunk (cfg.fd c) h.packet
  have hpacket : (afterRead c (cfg.fd c) L chunk).packet = L.packet := rfl
  have hread := messages_afterRead c chunk L (cfg.fd c)
  have hread' := sent_afterRead c chunk L (cfg.fd c)
  rw [handleRead_chunk hs.read hne hn fuel]
  generalize afterRead c (cfg.fd c) L chunk = L₁ at *
  rw [← hpacket]
  have hparse := parsePacket_eval policy hp hready (hpacket ▸ hn) hbuf fuel
  generalize drain cfg fuel user (unread ++ chunk) = d at hparse ⊢
  generalize eval (semantics cfg) policy (parsePacket fuel c L₁.packet chunk.length) L₁ = r at hparse ⊢
  cases hparse with
  | none => exact .none
  | @some d r hd =>
      obtain ⟨tmp, L₂⟩ := r
      dsimp only [Option.bind_some]
      have hmessages : messages (L₂.conns c) = messages (L.conns c) ++ d.calls := by
        rw [hd.messages, hread]
      have hsent : sent (L₂.conns c) = sent (L.conns c) := by
        rw [hd.sent, hread']
      have hlen : tmp.len = d.replies.length := hd.len
      by_cases hreply : tmp.len ≠ 0
      · rw [if_pos hreply, eval_call rfl]
        obtain ⟨L₃, he, hsame⟩ := sendInLoop_eval (L := L₂) hs (contents L₂.heap tmp)
        rw [he]
        have hself := modify_self (c := c) L₂ (·.note (.sendInLoop (contents L₂.heap tmp)))
        have hready₃ : Ready c (L₂.modify c (·.note (.sendInLoop (contents L₂.heap tmp)))) d.user d.rest :=
          ⟨hself ▸ hd.ready.user, hself ▸ hd.ready.inBuffer, hd.ready.packet⟩
        refine .some ⟨rfl, hready₃.same hsame, hsame.packet.trans (hd.packet.trans hpacket), ?_, ?_⟩
        · rw [hsame.messages, hself, messages_append (L₂.conns c) _ [.sendInLoop (contents L₂.heap tmp)] rfl]
          exact (List.append_nil _).trans hmessages
        · rw [hsame.sent, hself, sent_append (L₂.conns c) _ [.sendInLoop (contents L₂.heap tmp)] rfl, hsent,
            show contents L₂.heap tmp = d.replies from hd.replies]
          simp [sendData]
      · rw [if_neg hreply]
        have hnil : d.replies = [] := by
          apply List.eq_nil_of_length_eq_zero
          omega
        refine .some ⟨rfl, hd.ready, hd.packet.trans hpacket, hmessages, ?_⟩
        rw [hnil, List.append_nil]
        exact hsent

omit [DecidableEq C] in
theorem Round.same {d : Drained σ κ} {closed : Bool} {L' L'' : Local C σ κ δ} (h : Round c L d (closed, L'))
    (hs : Same c L' L'') : Round c L d (closed, L'') :=
  ⟨h.ready.same hs, hs.packet.trans h.packet, hs.messages.trans h.messages, hs.sent.trans h.sent⟩

theorem readBranch_eval (hp : Plain cfg.protocol) (hs : Serves cfg c policy chunk) {user : σ} {unread : Bytes}
    (h : Ready c L user unread) (hne : chunk ≠ []) (hn : chunk.length ≤ L.packet.len) (fuel : Nat) :
    Option.Rel (Round c L) (drain cfg fuel user (unread ++ chunk))
      (eval (semantics cfg) policy (readBranch cfg fuel c (cfg.fd c)) L) := by
  rw [readBranch, eval_bind]
  have hread := handleRead_eval hp hs h hne hn fuel
  generalize drain cfg fuel user (unread ++ chunk) = d at hread ⊢
  generalize eval (semantics cfg) policy (handleRead cfg fuel c (cfg.fd c)) L = r at hread ⊢
  cases hread with
  | none => exact .none
  | @some d r hd =>
      obtain ⟨closed, L₁⟩ := r
      obtain ⟨hclosed, hround⟩ := hd
      dsimp only at hclosed
      subst hclosed
      dsimp only [Option.bind_some]
      obtain ⟨L₂, he, hsame, -⟩ := isEmpty_eval cfg policy c L₁ .inBuffer
      have hround := hround.same hsame
      simp only [Bool.false_eq_true, if_false, resetIfEmpty]
      rw [bind_assoc, he]
      cases hempty : (L₁.ring c .inBuffer).isEmpty with
      | false => exact .some hround
      | true =>
          simp only [if_true]
          have hnil : d.rest = [] := by
            have hin := hround.ready.inBuffer
            rw [Local.ring, ← hsame.inBuffer, hin] at hempty
            exact (RingBuffer.isEmpty_iff _).mp hempty
          have hself := modify_self (c := c) L₂ (fun x => (x.touch .inBuffer).setRing .inBuffer .empty)
          rw [eval_call rfl]
          refine .some ⟨⟨?_, ?_, hround.ready.packet⟩, hround.packet, ?_, ?_⟩
          · rw [hself]
            exact hround.ready.user
          · rw [hself, hnil]
            rfl
          · rw [hself, messages_append (L₂.conns c) _ [.touch .inBuffer] rfl]
            exact (List.append_nil _).trans hround.messages
          · rw [hself, sent_append (L₂.conns c) _ [.touch .inBuffer] rfl]
            exact (List.append_nil _).trans hround.sent

variable (cfg c) in
/-- The real read path over a list of chunks, with the bytes sent in answer to
each of them and the final state. -/
def readAll (fuel : Nat) (policy : Bytes → Policy C σ κ δ) :
    Local C σ κ δ → List Bytes → Option (List Bytes × Local C σ κ δ)
  | L, [] => some ([], L)
  | L, chunk :: chunks => do
      let (_, L₁) ← eval (semantics cfg) (policy chunk) (readBranch cfg fuel c (cfg.fd c)) L
      let (replies, L₂) ← readAll fuel policy L₁ chunks
      return ((sent (L₁.conns c)).drop (sent (L.conns c)).length :: replies, L₂)

theorem readAll_rel (hp : Plain cfg.protocol) (fuel : Nat) {policy : Bytes → Policy C σ κ δ}
    (hserve : ∀ chunk, Serves cfg c (policy chunk) chunk) {user : σ} {unread : Bytes} (h : Ready c L user unread)
    (chunks : List Bytes) (hchunks : ∀ chunk ∈ chunks, chunk ≠ [] ∧ chunk.length ≤ L.packet.len) :
    Option.Rel (fun ref r => r.1 = ref.1 ∧ messages (r.2.conns c) = messages (L.conns c) ++ ref.2.1 ∧
        (r.2.conns c).inBuffer.data = ref.2.2)
      (reference cfg fuel user unread chunks) (readAll cfg c fuel policy L chunks) := by
  induction chunks generalizing L user unread with
  | nil => exact .some ⟨rfl, (List.append_nil _).symm, by rw [h.inBuffer]; rfl⟩
  | cons chunk chunks ih =>
      obtain ⟨hne, hn⟩ := hchunks chunk List.mem_cons_self
      have hbranch := readBranch_eval hp (hserve chunk) h hne hn fuel
      rw [reference, readAll]
      generalize drain cfg fuel user (unread ++ chunk) = d at hbranch ⊢
      generalize eval (semantics cfg) (policy chunk) (readBranch cfg fuel c (cfg.fd c)) L = r at hbranch ⊢
      cases hbranch with
      | none => exact .none
      | @some d r hd =>
          obtain ⟨closed, L₁⟩ := r
          have hrest := ih hd.ready (fun x hx => by
            rw [hd.packet]
            exact hchunks x (List.mem_cons_of_mem chunk hx))
          simp only [Option.bind_eq_bind, Option.bind_some]
          generalize reference cfg fuel d.user d.rest chunks = ref at hrest ⊢
          generalize readAll cfg c fuel policy L₁ chunks = r at hrest ⊢
          cases hrest with
          | none => exact .none
          | @some ref r hr =>
              obtain ⟨hreplies, hcalls, hleft⟩ := hr
              refine .some ⟨?_, ?_, hleft⟩
              · rw [hd.sent, List.drop_left, hreplies]
              · rw [hcalls, hd.messages, List.append_assoc]

/-- The zero-copy read path makes the calls and the replies, chunk by chunk,
and leaves the unread bytes of the plain one; it runs out of fuel when that does. -/
theorem zero_copy_read_agrees (cfg : Config C σ κ δ) (hp : Plain cfg.protocol) (c : C) (fuel : Nat)
    (policy : Bytes → Policy C σ κ δ) (hserve : ∀ chunk, Serves cfg c (policy chunk) chunk)
    (L : Local C σ κ δ) (hpacket : Valid L.heap L.packet) (hcursor : (L.conns c).inBuffer.cursor = 0)
    (chunks : List Bytes) (hchunks : ∀ chunk ∈ chunks, chunk ≠ [] ∧ chunk.length ≤ L.packet.len) :
    (readAll cfg c fuel policy L chunks).map (fun r =>
        (r.1, (messages (r.2.conns c)).drop (messages (L.conns c)).length, (r.2.conns c).inBuffer.data)) =
      reference cfg fuel (L.conns c).user (L.conns c).inBuffer.data chunks := by
  have h : Ready c L (L.conns c).user (L.conns c).inBuffer.data :=
    ⟨rfl, RingBuffer.eq_ofList hcursor, hpacket⟩
  have hrel := readAll_rel hp fuel hserve h chunks hchunks
  generalize readAll cfg c fuel policy L chunks = r at hrel ⊢
  generalize reference cfg fuel _ _ chunks = ref at hrel ⊢
  cases hrel with
  | none => rfl
  | some hr =>
      obtain ⟨hreplies, hcalls, hrest⟩ := hr
      rw [Option.map_some, hreplies, hcalls, List.drop_left, hrest]

end Reads

/-- DefaultProtocol is such a codec: it takes everything, however the ring wraps. -/
theorem defaultProtocol_plain : Plain (defaultProtocol : Protocol σ κ Bytes) := by
  have hout : ∀ user n (buffer : RingBuffer UInt8),
      (defaultProtocol : Protocol σ κ Bytes).unPacket user n buffer = ⟨user, buffer.length, 0, none, buffer.data⟩ := by
    intro user n buffer
    have happend := buffer.peekAll_append n
    simp only [defaultProtocol]
    split
    next _ => rw [happend]
    next hnone =>
      rw [List.eq_nil_of_length_eq_zero (Nat.eq_zero_of_not_pos hnone), List.append_nil] at happend
      rw [happend]
  refine ⟨?_, ?_⟩
  · intro user m n buffer
    rw [hout, hout]
  · intro user n data
    rw [hout]

def pairs : Protocol Unit Unit Bytes where
  unPacket user _ buffer :=
    if 2 ≤ buffer.length then ⟨user, 2, 0, none, buffer.data.take 2⟩ else ⟨user, 0, 0, none, []⟩
  packet _ data := data

theorem pairs_plain : Plain pairs := by
  refine ⟨fun _ _ _ _ => rfl, ?_⟩
  intro user n data
  simp only [pairs]
  split <;> rfl

def pairsEcho : Config Unit Unit Unit Bytes where
  fd _ := 7
  idleTime := 0
  protocol := pairs
  callBack := ⟨id, fun user _ data => (user, some data), id⟩
  grow _ n := n

def pairsStart : Local Unit Unit Unit Bytes := newLocal 4 (fun _ => newConnection pairsEcho () 0)

def pairsPolicy (chunk : Bytes) : Policy Unit Unit Unit Bytes :=
  fun o _ => (⟨0, 0, .bytes chunk, .error .EAGAIN, false, []⟩ : Answers Unit).choice o

/-- Two messages cut in the middle of the second: one byte waits in the input
buffer, and the second chunk is appended to it. -/
theorem zero_copy_read_agrees_pairs :
    (readAll pairsEcho () 3 pairsPolicy pairsStart [[1, 2, 3], [4]]).map (fun r =>
        (r.1, (messages (r.2.conns ())).drop 0, (r.2.conns ()).inBuffer.data)) =
      some ([[1, 2], [3, 4]], [(none, [1, 2]), (none, [3, 4])], []) := by
  have hagree := zero_copy_read_agrees pairsEcho pairs_plain () 3 pairsPolicy
    (fun chunk => ⟨fun _ _ => rfl, fun _ _ => .inl rfl, fun _ _ => rfl⟩) pairsStart
    ⟨by decide, by decide, by decide⟩ rfl [[1, 2, 3], [4]] (by decide)
  exact hagree.trans rfl

end Gev.Connection.ReadPath
