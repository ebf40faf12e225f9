import Gev.Connection.Output

namespace Gev.Connection.Session

open Lib.Atomic State Code Writing Output

variable {C σ κ δ : Type} [DecidableEq C] (cfg : Config C σ κ δ) (c : C)

/-- The states of a connection between its tasks and events: its registration
comes first, then queued sends and closes and readiness events in any order. -/
inductive Reaches (L₀ : Local C σ κ δ) : Local C σ κ δ → Prop
  | register {L : Local C σ κ δ} (he : Executes (semantics cfg) (taskBody cfg (.register c)) L₀ () L) :
      Reaches L₀ L
  | send {L L' : Local C σ κ δ} (data : δ) (finish : Bool) (h : Reaches L₀ L)
      (he : Executes (semantics cfg) (taskBody cfg (.send c data finish)) L () L') : Reaches L₀ L'
  | close {L L' : Local C σ κ δ} (h : Reaches L₀ L)
      (he : Executes (semantics cfg) (taskBody cfg (.close c)) L () L') : Reaches L₀ L'
  | event {L L' : Local C σ κ δ} (fuel : Nat) (events : UInt32) (h : Reaches L₀ L)
      (he : Executes (semantics cfg) (handlerEvent cfg fuel (cfg.fd c) events) L () L') : Reaches L₀ L'

variable {cfg c} {L₀ L L' : Local C σ κ δ}

omit [DecidableEq C] in
theorem settled_rebase {early : Prop} {closed : Bool} (h : Settled cfg c early L₀ closed L) :
    Settled cfg c early L closed L := by
  cases closed with
  | true => exact ⟨.refl cfg c L, h.2⟩
  | false =>
      obtain ⟨out, accepted, hf⟩ := h
      exact ⟨out, accepted, { hf with frame := .refl cfg c L }⟩

omit [DecidableEq C] in
theorem rest_rebase {early : Prop} (h : Rest cfg c early L₀ L) : Rest cfg c early L L := by
  obtain ⟨closed, hs⟩ := h
  exact ⟨closed, settled_rebase hs⟩

theorem rest_send {data : δ} {finish : Bool} (h : Rest cfg c False L L)
    (he : Executes (semantics cfg) (taskBody cfg (.send c data finish)) L () L') : Rest cfg c False L' L' := by
  obtain ⟨closed, hs⟩ := h
  cases closed with
  | true =>
      have hidle := sendTask_idle cfg (J := fun _ _ => True) data finish trivial hs.2.1.connected
      exact hidle.post he ▸ ⟨true, hs⟩
  | false => exact rest_rebase ((sendTask_ends data finish hs).post he)

theorem settled_close (h : Rest cfg c False L L)
    (he : Executes (semantics cfg) (taskBody cfg (.close c)) L () L') : Settled cfg c False L' true L' := by
  obtain ⟨closed, hs⟩ := h
  cases closed with
  | true =>
      have hidle := closeTask_idle cfg (J := fun _ _ => True) trivial hs.2.1.connected
      exact hidle.post he ▸ hs
  | false =>
      obtain ⟨out, accepted, hf⟩ := hs
      exact settled_rebase ((handleClose_settles hf (List.prefix_append _ _)).post he)

omit [DecidableEq C] in
/-- An event finds the connection open and in the map, or nothing at all. -/
theorem entry_of_rest (h : Rest cfg c False L L) :
    entry L (cfg.fd c) = none ∨ Open cfg c L L ∧ entry L (cfg.fd c) = some c := by
  obtain ⟨closed, hs⟩ := h
  cases closed with
  | true => exact .inl hs.2.2
  | false =>
      obtain ⟨out, accepted, hf⟩ := hs
      cases hentry : entry L (cfg.fd c) with
      | none => exact .inl rfl
      | some d => exact .inr ⟨⟨out, accepted, hf⟩, by rw [hf.own d hentry]⟩

theorem rest_event {fuel : Nat} {events : UInt32} (h : Rest cfg c False L L)
    (he : Executes (semantics cfg) (handlerEvent cfg fuel (cfg.fd c) events) L () L') : Rest cfg c False L' L' := by
  rcases entry_of_rest h with hentry | ⟨hopen, hentry⟩
  · have hidle := handlerEvent_idle cfg (J := fun _ _ => True) fuel (cfg.fd c) events trivial hentry
    exact hidle.post he ▸ h
  · exact rest_rebase ((handlerEvent_ends fuel events hopen hentry).post he)

omit [DecidableEq C] in
theorem open_of_rest (h : Rest cfg c False L L) (hconn : (L.conns c).connected = true) : Open cfg c L L := by
  obtain ⟨closed, hs⟩ := h
  cases closed with
  | true =>
      rw [hs.2.1.connected] at hconn
      cases hconn
  | false => exact hs

/-- Nothing reopens a connection. -/
theorem connected_before_send {data : δ} {finish : Bool} (hconn : (L'.conns c).connected = true)
    (he : Executes (semantics cfg) (taskBody cfg (.send c data finish)) L () L') : (L.conns c).connected = true := by
  cases h : (L.conns c).connected with
  | true => rfl
  | false =>
      have hidle := sendTask_idle cfg (J := fun _ _ => True) data finish trivial h
      rw [hidle.post he, h] at hconn
      exact hconn

theorem connected_before_event {fuel : Nat} {events : UInt32} (h : Rest cfg c False L L)
    (hconn : (L'.conns c).connected = true)
    (he : Executes (semantics cfg) (handlerEvent cfg fuel (cfg.fd c) events) L () L') :
    (L.conns c).connected = true := by
  rcases entry_of_rest h with hentry | ⟨hopen, -⟩
  · have hidle := handlerEvent_idle cfg (J := fun _ _ => True) fuel (cfg.fd c) events trivial hentry
    exact hidle.post he ▸ hconn
  · exact hopen.connected

theorem rest_register (hnew : New c L₀)
    (he : Executes (semantics cfg) (taskBody cfg (.register c)) L₀ () L) : Rest cfg c False L L :=
  rest_rebase ((register_ends (.refl cfg c L₀) hnew).post he)

theorem rest_of_reaches (hnew : New c L₀) (h : Reaches cfg c L₀ L) : Rest cfg c False L L := by
  induction h with
  | register he => exact rest_register hnew he
  | send data finish _ he ih => exact rest_send ih he
  | close _ he ih => exact ⟨true, settled_close ih he⟩
  | event fuel events _ he ih => exact rest_event ih he

def echo : Config Unit Unit Unit Bytes where
  fd _ := 7
  idleTime := 0
  protocol := defaultProtocol
  callBack := ⟨id, fun user _ data => (user, some data), id⟩
  grow _ n := n

def fresh : Local Unit Unit Unit Bytes := newLocal 8 (fun _ => newConnection echo () 0)

def answers (read : ReadResult) (write : WriteResult) : Answers Unit := ⟨0, 1, read, write, true, []⟩

def policy (a : Answers Unit) (o : Op Unit Unit Bytes) (_ : Local Unit Unit Unit Bytes) : Choice o := a.choice o

def answering (n : Nat) (read : ReadResult) (write : WriteResult) : List ((o : Op Unit κ δ) → Choice o) :=
  List.replicate n (answers read write).choice

theorem fresh_new : New () fresh := ⟨rfl, rfl, rfl, rfl⟩

/-- A send of four bytes of which one is taken at once, a write event that
finds the socket full, and one that takes a byte of each segment. -/
theorem fresh_reaches_backlog : ∃ L, Reaches echo () fresh L ∧ (L.conns ()).connected = true ∧
    (L.conns ()).accepted = [1, 2, 3] ∧ (L.conns ()).outBuffer.data = [4] ∧ EpollOk (L.conns ()) := by
  refine ⟨_, .event 0 EventWrite (.event 0 EventWrite (.send [1, 2, 3, 4] true (.register
    (executes_of_eval (policy (answers (.error .EAGAIN) (.count 0))) _ rfl))
    (executes_of_eval (policy (answers (.error .EAGAIN) (.count 1))) _ rfl))
    (executes_of_eval (policy (answers (.error .EAGAIN) (.error .EAGAIN))) _ rfl))
    (executes_of_eval (policy (answers (.error .EAGAIN) (.count 1))) _ rfl), rfl, rfl, rfl, ?_⟩
  rw [EpollOk]
  decide

/-- The bytes the kernel has accepted and the backlog are what was passed to
sendInLoop; after the close the kernel has seen an initial part of it. -/
theorem output_stream_integrity (cfg : Config C σ κ δ) (c : C) (L₀ L : Local C σ κ δ) (hnew : New c L₀)
    (h : Reaches cfg c L₀ L) :
    ((L.conns c).connected = true →
      (L.conns c).accepted ++ (L.conns c).outBuffer.data = sent (L.conns c)) ∧
    ((L.conns c).connected = false → (L.conns c).accepted <+: sent (L.conns c)) := by
  obtain ⟨closed, hs⟩ := rest_of_reaches hnew h
  cases closed with
  | true =>
      refine ⟨?_, fun _ => hs.2.1.stream⟩
      intro hconn
      rw [hs.2.1.connected] at hconn
      cases hconn
  | false =>
      obtain ⟨out, accepted, hf⟩ := hs
      refine ⟨?_, ?_⟩
      · intro _
        rw [hf.accepted, hf.out, hf.sent]
      · intro hconn
        rw [hf.connected] at hconn
        cases hconn

theorem output_stream_integrity_backlog : ∃ L, Reaches echo () fresh L ∧ (L.conns ()).connected = true ∧
    sent (L.conns ()) = [1, 2, 3] ++ [4] := by
  obtain ⟨L, h, hconn, hacc, hout, -⟩ := fresh_reaches_backlog
  refine ⟨L, h, hconn, ?_⟩
  rw [← (output_stream_integrity echo () fresh L fresh_new h).1 hconn, hacc, hout]

theorem interestFor_write (out : Bytes) : interestFor out &&& writeEvent ≠ 0 ↔ out ≠ [] := by
  by_cases h : out = []
  · simp [interestFor, h]
    decide
  · simp [interestFor, h]
    decide

/-- An open connection whose epoll_ctl calls succeeded waits for writability
exactly while it has a backlog. -/
theorem write_interest_tracks_backlog (cfg : Config C σ κ δ) (c : C) (L₀ L : Local C σ κ δ)
    (hnew : New c L₀) (h : Reaches cfg c L₀ L) (hok : EpollOk (L.conns c))
    (hconn : (L.conns c).connected = true) :
    ∃ events, L.interest (cfg.fd c) = some events ∧
      (events &&& writeEvent ≠ 0 ↔ (L.conns c).outBuffer.data ≠ []) := by
  obtain ⟨closed, hs⟩ := rest_of_reaches hnew h
  cases closed with
  | true =>
      rw [hs.2.1.connected] at hconn
      cases hconn
  | false =>
      obtain ⟨out, accepted, hf⟩ := hs
      refine ⟨interestFor out, hf.interest hok, ?_⟩
      rw [hf.out]
      exact interestFor_write out

theorem write_interest_tracks_backlog_armed : ∃ L, Reaches echo () fresh L ∧
    (L.conns ()).outBuffer.data = [4] ∧
    ∃ events, L.interest 7 = some events ∧ events &&& writeEvent ≠ 0 := by
  obtain ⟨L, h, hconn, -, hout, hok⟩ := fresh_reaches_backlog
  obtain ⟨events, hevents, hiff⟩ := write_interest_tracks_backlog echo () fresh L fresh_new h hok hconn
  refine ⟨L, h, hout, events, hevents, hiff.mpr ?_⟩
  rw [hout]
  simp

end Gev.Connection.Session
