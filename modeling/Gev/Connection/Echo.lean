import Gev.Connection.Outward
import Gev.Connection.ReadPath
import Gev.Connection.Session
import Gev.EventLoop.TaskQueue

namespace Gev.Connection.Echo

open Lib.Atomic Lib.Slices Lib.RingBuffers State Code Reading Writing Output ReadPath Outward
open Session (entry_of_rest rest_register rest_event rest_send settled_close open_of_rest connected_before_send
  connected_before_event answering)

inductive Mode
  | returning
  | sending
  deriving DecidableEq

/-- A handler that answers every message with its bytes. Its state lists the data it has passed to Send; OnMessage is
only called on a connected connection, so each of these calls has queued a task. -/
def echoHandler {κ : Type} (mode : Mode) : Handler (List Bytes) κ Bytes where
  onConnect := id
  onMessage sends _ data := match mode with
    | .returning => (sends, some data)
    | .sending => (sends ++ [data], none)
  onClose := id

def echoServer {C κ : Type} (mode : Mode) (fd : C → Fd) (idleTime : Int) (grow : Nat → Nat → Nat) :
    Config C (List Bytes) κ Bytes :=
  ⟨fd, idleTime, defaultProtocol, echoHandler mode, grow⟩

section Reading

variable {C σ κ δ : Type} [DecidableEq C] (cfg : Config C σ κ δ)

def received : (o : Op C κ δ) → Choice o → Bytes
  | .unixRead _ _ _, .bytes data => data
  | _, _ => []

abbrev recorded : Semantics (Op C κ δ) Res (Local C σ κ δ × Bytes) :=
  (semantics cfg).logging fun o ch _ => received o ch

end Reading

variable {C κ : Type} [DecidableEq C]

/-- The states of an echo connection between the steps of its loop, with the bytes read from its socket so far and the
number of its Send tasks that have been run. -/
inductive Reaches (cfg : Config C (List Bytes) κ Bytes) (c : C) (L₀ : Local C (List Bytes) κ Bytes) :
    Local C (List Bytes) κ Bytes → Bytes → Nat → Prop
  | register {L : Local C (List Bytes) κ Bytes}
      (he : Executes (semantics cfg) (taskBody cfg (.register c)) L₀ () L) : Reaches cfg c L₀ L [] 0
  | event {L L' : Local C (List Bytes) κ Bytes} {bytesRead bytesRead' : Bytes} {ran : Nat} (fuel : Nat)
      (events : UInt32) (h : Reaches cfg c L₀ L bytesRead ran)
      (he : Executes (recorded cfg) (handlerEvent cfg fuel (cfg.fd c) events) (L, bytesRead) () (L', bytesRead')) :
      Reaches cfg c L₀ L' bytesRead' ran
  | send {L L' : Local C (List Bytes) κ Bytes} {bytesRead : Bytes} {ran : Nat} (data : Bytes) (finish : Bool)
      (h : Reaches cfg c L₀ L bytesRead ran) (hnext : (L.conns c).user[ran]? = some data)
      (he : Executes (semantics cfg) (taskBody cfg (.send c data finish)) L () L') :
      Reaches cfg c L₀ L' bytesRead (ran + 1)
  | close {L L' : Local C (List Bytes) κ Bytes} {bytesRead : Bytes} {ran : Nat} (h : Reaches cfg c L₀ L bytesRead ran)
      (he : Executes (semantics cfg) (taskBody cfg (.close c)) L () L') : Reaches cfg c L₀ L' bytesRead ran

def queued (x : Conn (List Bytes) κ) (ran : Nat) : List Bytes := x.user.drop ran

structure Echoed (mode : Mode) (c : C) (ran : Nat) (s : Local C (List Bytes) κ Bytes × Bytes) : Prop where
  packet : Valid s.1.heap s.1.packet
  inBuffer : (s.1.conns c).inBuffer = .ofList []
  bound : ran ≤ (s.1.conns c).user.length
  stream : sent (s.1.conns c) ++ (queued (s.1.conns c) ran).flatten = s.2
  returning : mode = .returning → (s.1.conns c).user = []

section Keeping

variable {mode : Mode} {fd : C → Fd} {idleTime : Int} {grow : Nat → Nat → Nat} {c : C} {ran : Nat}
variable {L L' : Local C (List Bytes) κ Bytes} {bytesRead : Bytes}

omit [DecidableEq C] in
theorem Echoed.of_same (h : Echoed mode c ran (L, bytesRead)) (hpacket : Valid L'.heap L'.packet)
    (hin : (L'.conns c).inBuffer = .ofList []) (huser : (L'.conns c).user = (L.conns c).user)
    (hsent : sent (L'.conns c) = sent (L.conns c)) : Echoed mode c ran (L', bytesRead) := by
  refine ⟨hpacket, hin, huser ▸ h.bound, ?_, fun hm => huser.trans (h.returning hm)⟩
  rw [hsent, queued, huser]
  exact h.stream

omit [DecidableEq C] in
theorem outwardly_user (h : Outwardly (echoServer mode fd idleTime grow) c L L') :
    (L'.conns c).user = (L.conns c).user := h.conn.user id (fun _ => rfl) (fun _ => rfl)

omit [DecidableEq C] in
theorem Echoed.outwardly (h : Echoed mode c ran (L, bytesRead))
    (ho : Outwardly (echoServer mode fd idleTime grow) c L L') : Echoed mode c ran (L', bytesRead) :=
  h.of_same (ho.packet ▸ ho.heap ▸ h.packet) (ho.conn.inBuffer.trans h.inBuffer) (outwardly_user ho) ho.conn.sent

/-- A change that only shows in the history and the reported lengths, or empties the empty input buffer. -/
theorem Echoed.modify (h : Echoed mode c ran (L, bytesRead)) (d : C) {f : Conn (List Bytes) κ → Conn (List Bytes) κ}
    (hin : ∀ x, x.inBuffer = .ofList [] → (f x).inBuffer = .ofList []) (huser : ∀ x, (f x).user = x.user)
    (hsent : ∀ x, sent (f x) = sent x) : Echoed mode c ran (L.modify d f, bytesRead) := by
  by_cases hd : c = d
  · subst hd
    have hself := modify_self (c := c) L f
    exact h.of_same h.packet (hself ▸ hin _ h.inBuffer) (hself ▸ huser _) (hself ▸ hsent _)
  · have hother : (L.modify d f).conns c = L.conns c := Function.update_of_ne hd _ _
    exact h.of_same h.packet (hother ▸ h.inBuffer) (hother ▸ rfl) (hother ▸ rfl)

def Around (o : Op C κ Bytes) : Prop := Outgoing o ∨ (∃ d, o = .swapLengths d) ∨ ∃ d, o = .reset d .inBuffer

def Silent (o : Op C κ Bytes) : Prop := ∀ ch, received o ch = []

omit [DecidableEq C] in
theorem silent_outgoing {o : Op C κ Bytes} (h : Outgoing o) : Silent o := by
  intro ch
  cases o <;> first | rfl | cases h

omit [DecidableEq C] in
theorem silent_parsing {o : Op C κ Bytes} (h : Parsing c o) : Silent o := by
  intro ch
  cases o <;> first | rfl | cases h

omit [DecidableEq C] in
theorem silent_sendInLoop (cfg : Config C (List Bytes) κ Bytes) (data : Bytes) :
    (sendInLoop cfg c data).Uses Silent := by
  obtain ⟨k, hk, huses⟩ := uses_sendInLoop cfg c data
  rw [hk]
  exact ⟨fun _ => rfl, fun r => (huses r).mono fun _ => silent_outgoing⟩

theorem act_around {o : Op C κ Bytes} (ho : Around o) {ch : Choice o} {r : Res o}
    (h : Echoed mode c ran (L, bytesRead))
    (hact : act (echoServer mode fd idleTime grow) o ch L = some (r, L')) : Echoed mode c ran (L', bytesRead) := by
  rcases ho with ho | ⟨d, rfl⟩ | ⟨d, rfl⟩
  · exact h.outwardly (act_outwardly ho hact)
  · cases hact
    refine h.modify d (fun _ hx => hx) (fun _ => rfl) ?_
    intro x
    rw [sent_append x _ [.touch .inBuffer, .touch .outBuffer] (by simp [Conn.touch])]
    simp [sendData]
  · cases hact
    refine h.modify d (fun _ _ => rfl) (fun _ => rfl) ?_
    intro x
    rw [sent_append x _ [.touch .inBuffer] rfl]
    simp [sendData]

theorem keeps_around {α : Type} {p : Prog C κ Bytes α} (hp : p.Uses Around) :
    p.Keeps (recorded (echoServer mode fd idleTime grow)) (fun _ _ => True) (Echoed mode c ran) := by
  intro s hs
  refine Always.of_uses hp (fun _ _ _ _ => trivial) ?_ hs
  rintro o ho ch ⟨L, bytesRead⟩ r ⟨L', _⟩ h hact
  obtain ⟨hr, rfl⟩ := act_logging hact
  have hsilent : received o ch = [] := by
    rcases ho with ho | ⟨d, rfl⟩ | ⟨d, rfl⟩
    · exact silent_outgoing ho ch
    · rfl
    · rfl
  rw [hsilent, List.append_nil]
  exact act_around ho h hr

theorem keeps_outgoing {α : Type} {p : Prog C κ Bytes α} (hp : p.Uses Outgoing) :
    p.Keeps (recorded (echoServer mode fd idleTime grow)) (fun _ _ => True) (Echoed mode c ran) :=
  keeps_around (hp.mono fun _ => .inl)

end Keeping

section Reads

variable {mode : Mode} {fd : C → Fd} {idleTime : Int} {grow : Nat → Nat → Nat} {c : C} {ran : Nat}
variable {L L' : Local C (List Bytes) κ Bytes} {bytesRead data : Bytes}

def answered (mode : Mode) (sends : List Bytes) (data : Bytes) : List Bytes × Bytes := match mode with
  | .returning => (sends, data)
  | .sending => (sends ++ [data], [])

omit [DecidableEq C] in
/-- DefaultProtocol hands the whole chunk to OnMessage, in one call. -/
theorem drain_echo (hne : data ≠ []) {fuel : Nat} {sends : List Bytes} {d : Drained (List Bytes) κ}
    (h : drain (echoServer (C := C) mode fd idleTime grow) fuel sends data = some d) :
    d.rest = [] ∧ (d.user, d.replies) = answered mode sends data := by
  match fuel with
  | 0 => cases h
  | 1 => simp [drain, echoServer, defaultProtocol, RingBuffer.peekAll, hne] at h
  | fuel + 2 =>
      cases mode <;>
        simp [drain, echoServer, echoHandler, defaultProtocol, RingBuffer.peekAll, RingBuffer.length, reply,
          hne] at h <;>
        subst h <;> exact ⟨rfl, rfl⟩

omit [DecidableEq C] in
theorem Echoed.answer (h : Echoed mode c ran (L, bytesRead)) {sends : List Bytes} {replies : Bytes}
    (hanswer : (sends, replies) = answered mode (L.conns c).user data) (hready : Ready c L' sends [])
    (hsent : sent (L'.conns c) = sent (L.conns c) ++ replies) : Echoed mode c ran (L', bytesRead ++ data) := by
  have hstream := h.stream
  cases mode with
  | returning =>
      obtain ⟨rfl, rfl⟩ := Prod.mk.inj hanswer
      have huser : (L.conns c).user = [] := h.returning rfl
      refine ⟨hready.packet, hready.inBuffer, hready.user ▸ h.bound, ?_, fun _ => hready.user.trans huser⟩
      simp only [queued, huser, hready.user, List.drop_nil, List.flatten_nil, List.append_nil] at hstream ⊢
      rw [hsent, hstream]
  | sending =>
      obtain ⟨rfl, rfl⟩ := Prod.mk.inj hanswer
      refine ⟨hready.packet, hready.inBuffer, ?_, ?_, fun hm => by cases hm⟩
      · rw [hready.user, List.length_append]
        exact Nat.le_add_right_of_le h.bound
      · simp only [queued] at hstream ⊢
        rw [hsent, hready.user, List.drop_append_of_le_length h.bound, ← hstream]
        simp

theorem parse_echoed (h : Echoed mode c ran (L, bytesRead)) (hne : data ≠ []) (hn : data.length ≤ L.packet.len)
    (fuel : Nat) :
    Always (recorded (echoServer mode fd idleTime grow)) (fun _ _ => True) (fun _ => Echoed mode c ran) (do
      let replies ← parsePacket fuel c L.packet data.length
      if replies.len ≠ 0 then
        let data ← call (.contents replies)
        sendInLoop (echoServer mode fd idleTime grow) c data
      else return false) (afterRead c (fd c) L data, bytesRead ++ data) := by
  have hready : Ready c (afterRead c (fd c) L data) (L.conns c).user [] :=
    ready_afterRead (fd c) ⟨rfl, h.inBuffer, h.packet⟩ hn
  have hplain : Plain (echoServer mode fd idleTime grow : Config C _ κ _).protocol := defaultProtocol_plain
  have hparse := parsePacket_always hplain hready hn (contents_afterRead c data (fd c) h.packet) fuel
  apply Always.bind
  apply (hparse.logging (parses_parsePacket c fuel _ _) (fun _ ho ch _ => silent_parsing ho ch)).mono
  rintro replies ⟨L₂, _⟩ ⟨⟨d, hd, hparsed⟩, rfl⟩
  obtain ⟨hrest, hanswer⟩ := drain_echo hne hd
  have hready₂ : Ready c L₂ d.user [] := hrest ▸ hparsed.ready
  have hsent : sent (L₂.conns c) = sent (L.conns c) := hparsed.sent.trans (sent_afterRead c data L (fd c))
  have hlen : replies.len = d.replies.length := hparsed.len
  split
  next _ =>
    apply Always.silent_step trivial (fun _ => rfl)
    intro ch reply _ hact
    cases hact
    rw [show contents L₂.heap replies = d.replies from hparsed.replies]
    have hsend : Always (semantics (echoServer mode fd idleTime grow)) _ _ _ _ :=
      sendInLoop_outwardly (c := c) d.replies L₂
    apply (hsend.logging (A := Silent) (silent_sendInLoop _ _) (fun _ ho ch _ => ho ch)).mono
    rintro closed ⟨L₃, _⟩ ⟨ho, rfl⟩
    have hself := modify_self (c := c) L₂ (·.note (.sendInLoop d.replies))
    have hnoted : Ready c (L₂.modify c (·.note (.sendInLoop d.replies))) d.user [] :=
      ⟨hself ▸ hready₂.user, hself ▸ hready₂.inBuffer, hready₂.packet⟩
    refine (h.answer hanswer hnoted ?_).outwardly ho
    rw [hself, sent_sendInLoop, hsent]
  next hzero =>
    refine h.answer hanswer hready₂ ?_
    rw [hsent, List.eq_nil_of_length_eq_zero (l := d.replies) (by omega), List.append_nil]

/-- A read of any result keeps the books: what it brings is answered before it ends. -/
theorem handleRead_echoed (fuel : Nat) :
    (handleRead (echoServer mode fd idleTime grow) fuel c (fd c) : Prog C κ Bytes Bool).Keeps
      (recorded (echoServer mode fd idleTime grow)) (fun _ _ => True) (Echoed mode c ran) := by
  rintro ⟨L, bytesRead⟩ h
  apply Always.silent_step trivial (fun _ => rfl)
  intro ch buf _ hact
  cases hact
  apply Always.logging_step trivial
  intro ch r L₁ hact
  cases ch with
  | error e =>
      cases hact
      have hkeep : Echoed mode c ran (L.modify c (·.note (.syscall .read (fd c))), bytesRead ++ []) := by
        rw [List.append_nil]
        refine h.modify c (fun _ hx => hx) (fun _ => rfl) ?_
        intro x
        rw [sent_append x _ [.syscall .read (fd c)] rfl]
        simp [sendData]
      simp only [Program.bind]
      rw [if_pos (.inr (by simp))]
      split
      next _ => exact keeps_outgoing (uses_close (fd c)) _ hkeep
      next _ => exact hkeep
  | bytes data =>
      simp only [act] at hact
      split at hact <;> cases hact
      next hn =>
      simp only [Program.bind]
      by_cases hne : data = []
      · -- The peer has closed its side.
        subst hne
        rw [if_pos (.inl rfl), if_pos (by simp)]
        have hready := ready_afterRead (fd c) ⟨rfl, h.inBuffer, h.packet⟩ hn
        have hkeep : Echoed mode c ran (afterRead c (fd c) L [], bytesRead) :=
          h.of_same hready.packet hready.inBuffer hready.user (sent_afterRead c [] L (fd c))
        exact keeps_outgoing (uses_close (fd c)) _ ((List.append_nil bytesRead).symm ▸ hkeep)
      · rw [if_neg (by simpa using hne)]
        exact parse_echoed h hne hn fuel

omit [DecidableEq C] in
theorem resetIfEmpty_around {b : Buffer} (hb : b ≠ .buffer) :
    (do resetIfEmpty c b; return false : Prog C κ Bytes Bool).Uses Around := by
  refine ⟨.inl trivial, ?_⟩
  intro empty
  cases empty with
  | false => trivial
  | true =>
      refine ⟨?_, fun _ => trivial⟩
      cases b with
      | inBuffer => exact .inr (.inr ⟨c, rfl⟩)
      | outBuffer => exact .inl rfl
      | buffer => exact absurd rfl hb

theorem unlessClosed_echoed {p : Prog C κ Bytes Bool} {b : Buffer} (hb : b ≠ .buffer)
    (hp : p.Keeps (recorded (echoServer mode fd idleTime grow)) (fun _ _ => True) (Echoed mode c ran)) :
    (do
      let closed ← p
      if closed = true then return true
      else
        resetIfEmpty c b
        return false : Prog C κ Bytes Bool).Keeps
      (recorded (echoServer mode fd idleTime grow)) (fun _ _ => True) (Echoed mode c ran) := by
  refine hp.bind ?_
  intro closed
  cases closed with
  | true => exact .done true
  | false => exact keeps_around (resetIfEmpty_around hb)

theorem handleReady_echoed (fuel : Nat) (events : UInt32) :
    (handleReady (echoServer mode fd idleTime grow) fuel c (fd c) events : Prog C κ Bytes Bool).Keeps
      (recorded (echoServer mode fd idleTime grow)) (fun _ _ => True) (Echoed mode c ran) := by
  have hempty : (call (.isEmpty c .outBuffer) : Prog C κ Bytes Bool).Uses Outgoing := ⟨trivial, fun _ => trivial⟩
  refine (keeps_outgoing hempty).bind ?_
  intro empty
  cases empty with
  | false =>
      simp only [if_true]
      split
      next _ => exact unlessClosed_echoed (by decide) (keeps_outgoing (uses_handleWrite (fd c)))
      next _ => exact .done false
  | true =>
      simp only [Bool.true_eq_false, if_false]
      split
      next _ => exact unlessClosed_echoed (by decide) (handleRead_echoed fuel)
      next _ => exact .done false

theorem handleEvent_echoed (fuel : Nat) (events : UInt32) :
    (handleEvent (echoServer mode fd idleTime grow) fuel c (fd c) events : Prog C κ Bytes Unit).Keeps
      (recorded (echoServer mode fd idleTime grow)) (fun _ _ => True) (Echoed mode c ran) := by
  have hrest : (do
      if events &&& EventErr ≠ 0 then handleClose c (fd c)
      else
        let closed ← handleReady (echoServer mode fd idleTime grow) fuel c (fd c) events
        if closed = false then call (.swapLengths c) : Prog C κ Bytes Unit).Keeps
      (recorded (echoServer mode fd idleTime grow)) (fun _ _ => True) (Echoed mode c ran) := by
    split
    next _ => exact keeps_outgoing (uses_handleClose (fd c))
    next _ =>
      refine (handleReady_echoed fuel events).bind ?_
      intro closed
      cases closed with
      | true => exact .done ()
      | false => exact keeps_around ⟨.inr (.inl ⟨c, rfl⟩), fun _ => trivial⟩
  have hmark : (call (.markActive c) : Prog C κ Bytes Unit).Uses Outgoing := ⟨trivial, fun _ => trivial⟩
  simp only [handleEvent]
  split
  next _ => exact (keeps_outgoing hmark).bind fun _ => hrest
  next _ => exact hrest

end Reads

section Runs

variable {mode : Mode} {fd : C → Fd} {idleTime : Int} {grow : Nat → Nat → Nat} {c : C} {ran : Nat}
variable {L₀ L L' : Local C (List Bytes) κ Bytes} {bytesRead bytesRead' : Bytes}

theorem echoed_event {fuel : Nat} {events : UInt32}
    (hrest : Rest (echoServer mode fd idleTime grow) c False L L) (h : Echoed mode c ran (L, bytesRead))
    (he : Executes (recorded (echoServer mode fd idleTime grow))
      (handlerEvent (echoServer mode fd idleTime grow) fuel (fd c) events) (L, bytesRead) () (L', bytesRead')) :
    Echoed mode c ran (L', bytesRead') := by
  suffices halways : Always (recorded (echoServer mode fd idleTime grow)) (fun _ _ => True)
      (fun _ => Echoed mode c ran) (handlerEvent (echoServer mode fd idleTime grow) fuel (fd c) events)
      (L, bytesRead) from halways.post he
  apply Always.silent_step trivial (fun _ => rfl)
  intro ch s L₁ hact
  obtain ⟨hs, rfl⟩ := Prod.mk.inj (Option.some.inj hact)
  rcases entry_of_rest hrest with hentry | ⟨-, hentry⟩
  · cases hs.symm.trans hentry
    exact h
  · cases hs.symm.trans hentry
    exact handleEvent_echoed fuel events _ h

theorem echoed_send {data : Bytes} {finish : Bool} (hconn : (L.conns c).connected = true)
    (h : Echoed mode c ran (L, bytesRead)) (hnext : (L.conns c).user[ran]? = some data)
    (he : Executes (semantics (echoServer mode fd idleTime grow))
      (taskBody (echoServer mode fd idleTime grow) (.send c data finish)) L () L') :
    Echoed mode c (ran + 1) (L', bytesRead) := by
  have ho : Outwardly (echoServer mode fd idleTime grow) c (L.modify c (·.note (.sendInLoop data))) L' :=
    (sendTask_outwardly data finish hconn).post he
  have hself := modify_self (c := c) L (·.note (.sendInLoop data))
  obtain ⟨hlt, hget⟩ := List.getElem?_eq_some_iff.mp hnext
  have hnoted : Echoed mode c (ran + 1) (L.modify c (·.note (.sendInLoop data)), bytesRead) := by
    refine ⟨h.packet, hself ▸ h.inBuffer, hself ▸ hlt, ?_, hself ▸ h.returning⟩
    have hstream := h.stream
    simp only [queued, List.drop_eq_getElem_cons hlt, hget, List.flatten_cons] at hstream
    rw [hself, sent_sendInLoop, List.append_assoc]
    exact hstream
  exact hnoted.outwardly ho

theorem echoed_register (hnew : New c L₀) (hready : Ready c L₀ [] [])
    (he : Executes (semantics (echoServer mode fd idleTime grow))
      (taskBody (echoServer mode fd idleTime grow) (.register c)) L₀ () L) : Echoed mode c 0 (L, []) := by
  have h₀ : Echoed mode c 0 (L₀, []) := by
    refine ⟨hready.packet, hready.inBuffer, Nat.zero_le _, ?_, fun _ => hready.user⟩
    simp [sent, hnew.history, queued, hready.user]
  exact h₀.outwardly ((always_outwardly uses_register L₀).post he)

/-- The invariant of the runs: the books are in order while the connection is open. -/
theorem echoed_of_reaches (hnew : New c L₀) (hready : Ready c L₀ [] [])
    (h : Reaches (echoServer mode fd idleTime grow) c L₀ L bytesRead ran) :
    Rest (echoServer mode fd idleTime grow) c False L L ∧
      ((L.conns c).connected = true → Echoed mode c ran (L, bytesRead)) := by
  induction h with
  | register he => exact ⟨rest_register hnew he, fun _ => echoed_register hnew hready he⟩
  | event fuel events _ he ih =>
      refine ⟨rest_event ih.1 he.of_logging, ?_⟩
      intro hconn
      exact echoed_event ih.1 (ih.2 (connected_before_event ih.1 hconn he.of_logging)) he
  | send data finish _ hnext he ih =>
      refine ⟨rest_send ih.1 he, ?_⟩
      intro hconn
      have hbefore := connected_before_send hconn he
      exact echoed_send hbefore (ih.2 hbefore) hnext he
  | close _ he ih =>
      have hclosed := settled_close ih.1 he
      refine ⟨⟨true, hclosed⟩, ?_⟩
      intro hconn
      rw [hclosed.2.1.connected] at hconn
      cases hconn

section Queue

open EventLoop Lib.Runs

variable {G : Type}

abbrev LoopQueue (G C : Type) := Machine.State G (Task C Bytes)

/-- The data of the Sends to a connection among some tasks. -/
def sends (c : C) (ts : List (Task C Bytes)) : List Bytes := ts.filterMap fun
  | .send d data _ => if d = c then some data else none
  | _ => none

theorem sends_append (c : C) (ts us : List (Task C Bytes)) : sends c (ts ++ us) = sends c ts ++ sends c us :=
  List.filterMap_append

theorem sends_executed {m : LoopQueue G C} (h : TaskQueue.Invariant m) :
    sends c m.executed <+: sends c (TaskQueue.tasks m) := (TaskQueue.executed_initial h).filterMap _

theorem user_of_send {data : Bytes} {finish : Bool}
    (he : Executes (semantics (echoServer mode fd idleTime grow))
      (taskBody (echoServer mode fd idleTime grow) (.send c data finish)) L () L') :
    (L'.conns c).user = (L.conns c).user := by
  by_cases hconn : (L.conns c).connected = true
  · have ho : Outwardly (echoServer mode fd idleTime grow) c (L.modify c (·.note (.sendInLoop data))) L' :=
      (sendTask_outwardly data finish hconn).post he
    rw [outwardly_user ho, modify_self]
    rfl
  · have hidle : Always _ (fun _ _ => True) _ _ L :=
      sendTask_idle (echoServer mode fd idleTime grow) data finish trivial (eq_false_of_ne_true hconn)
    rw [hidle.post he]

variable [DecidableEq G] [Inhabited (Task C Bytes)]

/-- The same states beside the task queue of the loop. The Sends that OnMessage calls in an event are queued when the
event has been handled; a task that is run is the one that the queue gives out. -/
inductive Joins (growQueue : Nat → Nat → Nat) (cfg : Config C (List Bytes) κ Bytes) (c : C)
    (L₀ : Local C (List Bytes) κ Bytes) : LoopQueue G C → Local C (List Bytes) κ Bytes → Bytes → Prop
  | register {m : LoopQueue G C} {L : Local C (List Bytes) κ Bytes} {size : Nat}
      {ls : List (Machine.Label G (Task C Bytes))} (hm : run (Machine.step growQueue) (Machine.init size) ls = some m)
      (hnone : sends c (TaskQueue.tasks m) = [])
      (he : Executes (semantics cfg) (taskBody cfg (.register c)) L₀ () L) : Joins growQueue cfg c L₀ m L []
  | queue {m m' : LoopQueue G C} {L : Local C (List Bytes) κ Bytes} {bytesRead : Bytes}
      (l : Machine.Label G (Task C Bytes)) (h : Joins growQueue cfg c L₀ m L bytesRead)
      (hm : Machine.step growQueue m l = some m')
      (hsends : sends c (TaskQueue.tasks m') = sends c (TaskQueue.tasks m))
      (hran : sends c m'.executed = sends c m.executed) : Joins growQueue cfg c L₀ m' L bytesRead
  | event {m m' : LoopQueue G C} {L L' : Local C (List Bytes) κ Bytes} {bytesRead bytesRead' : Bytes}
      {ls : List (Machine.Label G (Task C Bytes))} (fuel : Nat) (events : UInt32)
      (h : Joins growQueue cfg c L₀ m L bytesRead)
      (he : Executes (recorded cfg) (handlerEvent cfg fuel (cfg.fd c) events) (L, bytesRead) () (L', bytesRead'))
      (hm : run (Machine.step growQueue) m ls = some m')
      (hsends : sends c (TaskQueue.tasks m') = (L'.conns c).user)
      (hran : sends c m'.executed = sends c m.executed) : Joins growQueue cfg c L₀ m' L' bytesRead'
  | send {m m' : LoopQueue G C} {L L' : Local C (List Bytes) κ Bytes} {bytesRead : Bytes} (data : Bytes)
      (finish : Bool) (h : Joins growQueue cfg c L₀ m L bytesRead)
      (hm : Machine.step growQueue m .runTask = some m')
      (htask : m'.executed = m.executed ++ [.send c data finish])
      (he : Executes (semantics cfg) (taskBody cfg (.send c data finish)) L () L') :
      Joins growQueue cfg c L₀ m' L' bytesRead
  | close {m m' : LoopQueue G C} {L L' : Local C (List Bytes) κ Bytes} {bytesRead : Bytes}
      (h : Joins growQueue cfg c L₀ m L bytesRead) (hm : Machine.step growQueue m .runTask = some m')
      (htask : m'.executed = m.executed ++ [.close c])
      (he : Executes (semantics cfg) (taskBody cfg (.close c)) L () L') : Joins growQueue cfg c L₀ m' L' bytesRead

/-- With a queue that gives out its tasks in order, the Send task that is run is the next one. -/
theorem reaches_of_joins {growQueue : Nat → Nat → Nat} {m : LoopQueue G C} (huser : (L₀.conns c).user = [])
    (h : Joins growQueue (echoServer mode fd idleTime grow) c L₀ m L bytesRead) :
    TaskQueue.Invariant m ∧ sends c (TaskQueue.tasks m) = (L.conns c).user ∧
      Reaches (echoServer mode fd idleTime grow) c L₀ L bytesRead (sends c m.executed).length := by
  induction h with
  | @register m L size ls hm hnone he =>
      have hinv := TaskQueue.reachable_invariant growQueue size hm
      have hran : sends c m.executed = [] := List.prefix_nil.mp (hnone ▸ sends_executed hinv)
      refine ⟨hinv, ?_, ?_⟩
      · rw [hnone, outwardly_user ((always_outwardly uses_register L₀).post he), huser]
      · rw [hran]
        exact .register he
  | queue l h hm hsends hran ih =>
      obtain ⟨hinv, hqueued, hreaches⟩ := ih
      refine ⟨TaskQueue.step_invariant growQueue _ _ _ hinv hm, hsends.trans hqueued, ?_⟩
      rw [hran]
      exact hreaches
  | event fuel events h he hm hsends hran ih =>
      obtain ⟨hinv, -, hreaches⟩ := ih
      refine ⟨run_invariant (TaskQueue.step_invariant growQueue) hinv hm, hsends, ?_⟩
      rw [hran]
      exact .event fuel events hreaches he
  | @send m m' L L' bytesRead data finish h hm htask he ih =>
      obtain ⟨hinv, hqueued, hreaches⟩ := ih
      have hinv' := TaskQueue.step_invariant growQueue _ _ _ hinv hm
      have htasks : TaskQueue.tasks m' = TaskQueue.tasks m := TaskQueue.tasks_of_step hm (by simp)
      have hsends : sends c m'.executed = sends c m.executed ++ [data] := by
        rw [htask, sends_append]
        simp [sends]
      have hnext : (L.conns c).user[(sends c m.executed).length]? = some data := by
        obtain ⟨rest, hrest⟩ := sends_executed (c := c) hinv'
        rw [htasks, hqueued, hsends] at hrest
        rw [← hrest]
        simp
      refine ⟨hinv', ?_, ?_⟩
      · rw [htasks, hqueued, user_of_send he]
      · rw [hsends, List.length_append]
        exact .send data finish hreaches hnext he
  | @close m m' L L' bytesRead h hm htask he ih =>
      obtain ⟨hinv, hqueued, hreaches⟩ := ih
      have htasks : TaskQueue.tasks m' = TaskQueue.tasks m := TaskQueue.tasks_of_step hm (by simp)
      have hsends : sends c m'.executed = sends c m.executed := by
        rw [htask, sends_append]
        simp [sends]
      refine ⟨TaskQueue.step_invariant growQueue _ _ _ hinv hm, ?_, ?_⟩
      · rw [htasks, hqueued, outwardly_user ((always_outwardly (uses_handleClose (fd c)) L).post he)]
      · rw [hsends]
        exact .close hreaches he

/-- The Sends under way are those that the queue still holds. -/
theorem queued_of_joins {growQueue : Nat → Nat → Nat} {m : LoopQueue G C} (huser : (L₀.conns c).user = [])
    (h : Joins growQueue (echoServer mode fd idleTime grow) c L₀ m L bytesRead) :
    queued (L.conns c) (sends c m.executed).length = sends c (TaskQueue.batch m ++ TaskQueue.queued m) := by
  obtain ⟨hinv, hqueued, -⟩ := reaches_of_joins huser h
  rw [queued, ← hqueued, ← hinv.order, List.append_assoc, sends_append, List.drop_left]

end Queue

/-- What the peer of an echo server has got and what is still under way to it is what it has sent. -/
theorem echo_end_to_end (mode : Mode) (fd : C → Fd) (idleTime : Int) (grow : Nat → Nat → Nat) (c : C)
    (L₀ L : Local C (List Bytes) κ Bytes) (bytesRead : Bytes) (ran : Nat) (hnew : New c L₀)
    (hready : Ready c L₀ [] []) (h : Reaches (echoServer mode fd idleTime grow) c L₀ L bytesRead ran)
    (hconn : (L.conns c).connected = true) :
    (L.conns c).accepted ++ (L.conns c).outBuffer.data ++ (queued (L.conns c) ran).flatten = bytesRead ∧
      (L.conns c).inBuffer.data = [] := by
  obtain ⟨hrest, hbooks⟩ := echoed_of_reaches hnew hready h
  obtain ⟨out, accepted, hf⟩ := open_of_rest hrest hconn
  have hechoed := hbooks hconn
  refine ⟨?_, by rw [hechoed.inBuffer]; rfl⟩
  rw [hf.accepted, hf.out, ← hf.sent]
  exact hechoed.stream

def sendingServer : Config Unit (List Bytes) Unit Bytes := echoServer .sending (fun _ => 7) 0 (fun _ n => n)

def newcomer : Local Unit (List Bytes) Unit Bytes := newLocal 8 (fun _ => newConnection sendingServer [] 0)

/-- Two chunks are read before the first of their Send tasks is run, of which the kernel takes one byte. -/
theorem newcomer_reaches : ∃ L, Reaches sendingServer () newcomer L [1, 2, 3] 1 ∧ (L.conns ()).connected = true ∧
    (L.conns ()).accepted = [1] ∧ (L.conns ()).outBuffer.data = [2] ∧ queued (L.conns ()) 1 = [[3]] := by
  refine ⟨_, .send [1, 2] false (.event 2 EventRead (.event 2 EventRead (.register
    (executes_of_play (answering 4 (.error .EAGAIN) (.count 0)) rfl))
    (executes_of_play (answering 13 (.bytes [1, 2]) (.count 0)) rfl))
    (executes_of_play (answering 13 (.bytes [3]) (.count 0)) rfl)) rfl
    (executes_of_play (answering 8 (.error .EAGAIN) (.count 1)) rfl), rfl, rfl, rfl, rfl⟩

theorem echo_end_to_end_newcomer : ∃ L, Reaches sendingServer () newcomer L [1, 2, 3] 1 ∧
    (L.conns ()).connected = true ∧ (L.conns ()).accepted ++ (L.conns ()).outBuffer.data ++
      (queued (L.conns ()) 1).flatten = [1, 2, 3] ∧ (L.conns ()).inBuffer.data = [] := by
  obtain ⟨L, h, hconn, -⟩ := newcomer_reaches
  exact ⟨L, h, hconn, echo_end_to_end .sending (fun _ => 7) 0 (fun _ n => n) () newcomer L [1, 2, 3] 1
    ⟨rfl, rfl, rfl, rfl⟩ ⟨rfl, rfl, by decide, by decide, by decide⟩ h hconn⟩

end Runs

end Gev.Connection.Echo
