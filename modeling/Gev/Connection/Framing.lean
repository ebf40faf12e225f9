import Gev.Connection.Behaviour
import Gev.Lib.Streams

namespace Gev.Connection.Framing

open Lib.RingBuffers State Behaviour
open Lib.Streams (Framing stream arrived unfinished exists_unfinished)
open ReadPath (reply)

variable {C σ κ δ μ : Type}

section Rounds

def oneRound (p : Protocol σ κ δ) (user : σ) (wrap : Nat) (buffer : RingBuffer UInt8) :
    Option (Option (Option κ × Bytes) × RingBuffer UInt8) :=
  let u := p.unPacket user wrap buffer
  some (if u.ctx.isSome ∨ u.out ≠ [] then some (u.ctx, u.out) else none, buffer.advance u.consumed u.cursor)

/-- A codec that takes whole messages off the front of a stream, wherever the ring wraps and whatever is kept for the
connection, which it leaves as it is. -/
structure Framed (p : Protocol σ κ δ) (encode : μ → Bytes) (view : μ → Option κ × Bytes) : Prop where
  framing : ∀ user wrap, Framing (oneRound p user wrap) RingBuffer.write .ofList encode view
  user : ∀ user wrap ms n, n ≤ (stream encode ms).length →
    (p.unPacket user wrap (.ofList ((stream encode ms).take n))).user = user

variable {p : Protocol σ κ δ} {user : σ} {wrap : Nat} {buffer rest : RingBuffer UInt8} {u : Unpacked σ κ}

theorem round_none (hu : p.unPacket user wrap buffer = u) (h : oneRound p user wrap buffer = some (none, rest)) :
    ¬(u.ctx.isSome ∨ u.out ≠ []) ∧ buffer.advance u.consumed u.cursor = rest := by
  simp only [oneRound, hu, Option.some.injEq, Prod.mk.injEq, ite_eq_right_iff, reduceCtorEq, imp_false] at h
  exact h

theorem round_some {message : Option κ × Bytes} (hu : p.unPacket user wrap buffer = u)
    (h : oneRound p user wrap buffer = some (some message, rest)) :
    (u.ctx.isSome ∨ u.out ≠ []) ∧ (u.ctx, u.out) = message ∧ buffer.advance u.consumed u.cursor = rest := by
  simp only [oneRound, hu, Option.some.injEq, Prod.mk.injEq] at h
  obtain ⟨hmessage, hrest⟩ := h
  split at hmessage
  next hsome => exact ⟨hsome, Option.some.inj hmessage, hrest⟩
  next => cases hmessage

end Rounds

/-- A handler that is given the messages one by one: the state it comes to, and the bytes of its replies. -/
def answer (cfg : Config C σ κ δ) : σ → List (Option κ × Bytes) → σ × Bytes
  | user, [] => (user, [])
  | user, message :: messages =>
      let m := cfg.callBack.onMessage user message.1 message.2
      let (user, replies) := answer cfg m.1 messages
      (user, reply cfg m.1 m.2 ++ replies)

variable {cfg : Config C σ κ δ} {encode : μ → Bytes} {view : μ → Option κ × Bytes}

theorem answer_append (user : σ) (messages more : List (Option κ × Bytes)) :
    answer cfg user (messages ++ more) =
      ((answer cfg (answer cfg user messages).1 more).1,
        (answer cfg user messages).2 ++ (answer cfg (answer cfg user messages).1 more).2) := by
  induction messages generalizing user with
  | nil => rfl
  | cons message messages ih => simp only [List.cons_append, answer, ih, List.append_assoc]

/-- Parsing a cut of a stream gives the messages that are complete, and the handler's replies to them. -/
theorem parses_take (hframed : Framed cfg.protocol encode view) {x y : Peer σ} {calls : List (Option κ × Bytes)}
    {replies : Bytes} (h : Parses cfg x calls replies y) {ms : List μ} {n : Nat} (hn : n ≤ (stream encode ms).length)
    (hx : x.unread = .ofList ((stream encode ms).take n)) :
    calls = (arrived encode ms n).map view ∧ y.unread = .ofList (unfinished encode ms n) ∧
      (y.user, replies) = answer cfg x.user calls := by
  induction h generalizing ms n with
  | @stop x u wrap hu hnone =>
      rw [hx] at hu
      have huser : u.user = x.user := hu ▸ hframed.user x.user wrap ms n hn
      rcases (hframed.framing x.user wrap).next_take ms hn with
        ⟨harrived, hunfinished, hround⟩ | ⟨_, _, _, -, -, -, hround⟩
      · obtain ⟨-, hrest⟩ := round_none hu hround
        rw [harrived, hunfinished, hx, hrest, huser]
        exact ⟨rfl, rfl, rfl⟩
      · exact absurd (round_some hu hround).1 hnone
  | @message x y u wrap m calls replies hu hsome hm _ ih =>
      rw [hx] at hu
      have huser : u.user = x.user := hu ▸ hframed.user x.user wrap ms n hn
      rcases (hframed.framing x.user wrap).next_take ms hn with
        ⟨-, -, hround⟩ | ⟨msg, rest, p, hp, harrived, hunfinished, hround⟩
      · exact absurd hsome (round_none hu hround).1
      · obtain ⟨-, hview, hrest⟩ := round_some hu hround
        obtain ⟨hcalls, hunread, hanswer⟩ := ih hp (by rw [hx, hrest])
        rw [harrived, hunfinished, List.map_cons, hview, ← hcalls]
        refine ⟨rfl, hunread, ?_⟩
        rw [huser] at hm
        rw [answer, ← hview, hm, ← hanswer]

/-- Reading a chunk of a stream. -/
theorem takes_chunk (hframed : Framed cfg.protocol encode view) {x y : Peer σ} {data : Bytes}
    {calls : List (Option κ × Bytes)} {replies : Bytes} (h : Takes cfg x (.read data calls replies) y) {ms : List μ}
    {xs : Bytes} (hx : x.unread = .ofList (unfinished encode ms xs.length))
    (hdata : xs ++ data <+: stream encode ms) :
    (arrived encode ms xs.length).map view ++ calls = (arrived encode ms (xs ++ data).length).map view ∧
      y.unread = .ofList (unfinished encode ms (xs ++ data).length) ∧ (y.user, replies) = answer cfg x.user calls := by
  obtain ⟨rest, p, hp, hbuffer, harrived, hunfinished⟩ := exists_unfinished encode hdata
  cases h with
  | @read y _ _ _ hparses =>
      have hwritten : x.unread.write data = .ofList ((stream encode rest).take p) := by
        rw [hx, RingBuffer.write_ofList, hbuffer]
      obtain ⟨hcalls, hunread, hanswer⟩ := parses_take hframed hparses hp hwritten
      have hstored : x.store y = y := by
        rw [Peer.store, hunread]
        exact ite_eq_right_iff.mpr fun _ => Peer.ext rfl hunread.symm
      rw [harrived, hunfinished, List.map_append, hcalls, hstored]
      exact ⟨rfl, hunread, hcalls ▸ hanswer⟩

def taken (es : List (Event κ δ)) : Bytes := (es.filterMap Event.input).flatten

theorem taken_concat (es : List (Event κ δ)) (e : Event κ δ) : taken (es ++ [e]) = taken es ++ e.input.getD [] := by
  cases e <;> simp [taken, Event.input]

/-- A connection whose input is a stream of messages, however it is cut: OnMessage is called with each message once it
is complete, and the rest is kept. -/
theorem behaves_stream (hframed : Framed cfg.protocol encode view) {x y : Peer σ} {es : List (Event κ δ)}
    (h : Behaves cfg x es y) (hx : x.unread = .empty) {ms : List μ} (hms : taken es <+: stream encode ms) :
    es.flatMap Event.calls = (arrived encode ms (taken es).length).map view ∧
      y.unread = .ofList (unfinished encode ms (taken es).length) := by
  induction h with
  | start =>
      have hnone : arrived encode ms 0 = [] := (hframed.framing x.user 0).arrived_zero ms
      rw [hx]
      simp only [taken, List.filterMap_nil, List.flatten_nil, List.length_nil, List.flatMap_nil, hnone, unfinished]
      exact ⟨rfl, rfl⟩
  | @step es y z e h he ih =>
      rw [taken_concat] at hms
      have hbefore := (List.prefix_append _ _).trans hms
      obtain ⟨hcalls, hunread⟩ := ih hbefore
      rw [taken_concat, List.flatMap_append, List.flatMap_singleton, hcalls]
      cases e with
      | read data calls replies =>
          obtain ⟨hall, hkept, -⟩ := takes_chunk hframed he hunread hms
          exact ⟨hall, hkept⟩
      | connect | send | close =>
          cases he
          simp only [Event.input, Event.calls, Option.getD_none, List.append_nil]
          exact ⟨trivial, hunread⟩

/-- If the callbacks keep the state when a connection opens and closes, it is answered as if the handler were given the
messages one by one. -/
theorem behaves_answer (hframed : Framed cfg.protocol encode view)
    (hconnect : ∀ user, cfg.callBack.onConnect user = user) (hclose : ∀ user, cfg.callBack.onClose user = user)
    {x y : Peer σ} {es : List (Event κ δ)} (h : Behaves cfg x es y) (hx : x.unread = .empty) {ms : List μ}
    (hms : taken es <+: stream encode ms) :
    (y.user, es.flatMap Event.replies) = answer cfg x.user (es.flatMap Event.calls) := by
  induction h with
  | start => rfl
  | @step es y z e h he ih =>
      rw [taken_concat] at hms
      have hbefore := (List.prefix_append _ _).trans hms
      obtain ⟨huser, hreplies⟩ := Prod.mk.inj (ih hbefore)
      rw [List.flatMap_append, List.flatMap_append, answer_append, ← huser, ← hreplies]
      cases e with
      | read data calls replies =>
          obtain ⟨-, -, hanswer⟩ := takes_chunk hframed he (behaves_stream hframed h hx hbefore).2 hms
          simp [Event.replies, Event.calls, ← hanswer]
      | connect | send | close =>
          cases he
          simp [Event.replies, Event.calls, answer, hconnect, hclose]

end Gev.Connection.Framing
