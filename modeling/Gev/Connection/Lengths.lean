import Gev.Connection.Outward
import Gev.Connection.Session
import Gev.Lib.Runs

namespace Gev.Connection.Lengths

open Lib.Atomic Lib.Runs Lib.RingBuffers State Code Writing Output Session Outward

variable {C σ κ δ : Type} [DecidableEq C] (cfg : Config C σ κ δ) (c : C)

def readBufferLength (x : Conn σ κ) : Nat := x.inBufferLen

def writeBufferLength (x : Conn σ κ) : Nat := x.outBufferLen

/-- The reported lengths of an open connection are those of its buffers. -/
def Current (x : Conn σ κ) : Prop :=
  x.connected = true → writeBufferLength x = x.outBuffer.length ∧ readBufferLength x = x.inBuffer.length

inductive Work (δ : Type)
  | send (data : δ) (finish : Bool)
  | event (fuel : Nat) (events : UInt32)

def body : Work δ → Prog C κ δ Unit
  | .send data finish => taskBody cfg (.send c data finish)
  | .event fuel events => handlerEvent cfg fuel (cfg.fd c) events

abbrev Label (C κ δ : Type) := Work δ × List ((o : Op C κ δ) → Choice o)

def step (L : Local C σ κ δ) (l : Label C κ δ) : Option (Local C σ κ δ) :=
  (play (semantics cfg) l.2 (body cfg c l.1) L).map Prod.snd

/-- The kernel's answer to the write of a Send. It is the fifth operation of the task, behind the test of connected,
Packet, the call of sendInLoop and the test of outBuffer. -/
def answer (l : Label C κ δ) (packed : Bytes) : Option WriteResult :=
  l.2[4]?.map fun choice => choice (.unixWrite c (cfg.fd c) packed)

/-- The kernel takes all of the bytes, or it fails in a way that closes the connection. -/
def Clears (packed : Bytes) : WriteResult → Prop
  | .count n => n = packed.length
  | .error e => e ≠ .EAGAIN

/-- A Send on an open connection has nothing to send, or it finds outBuffer empty and the kernel takes all at once. -/
def Taken (L : Local C σ κ δ) (l : Label C κ δ) : Prop := match l.1 with
  | .send data _ => (L.conns c).connected = true →
      cfg.protocol.packet (L.conns c).user data = [] ∨ (L.conns c).outBuffer.data = [] ∧
        ∀ result ∈ answer cfg c l (cfg.protocol.packet (L.conns c).user data),
          Clears (cfg.protocol.packet (L.conns c).user data) result
  | .event _ _ => True

instance (packed : Bytes) (result : WriteResult) : Decidable (Clears packed result) := match result with
  | .count _ => inferInstanceAs (Decidable (_ = _))
  | .error _ => inferInstanceAs (Decidable (_ ≠ _))

instance (L : Local C σ κ δ) (l : Label C κ δ) : Decidable (Taken cfg c L l) := by
  unfold Taken
  cases l.1 <;> infer_instance

variable {cfg c} {L₀ L L' : Local C σ κ δ}

theorem current_of_closed {x : Conn σ κ} (h : x.connected = false) : Current x := by
  intro hconn
  rw [h] at hconn
  cases hconn

theorem executes_of_step {l : Label C κ δ} (h : step cfg c L l = some L') :
    Executes (semantics cfg) (body cfg c l.1) L () L' := by
  obtain ⟨⟨_, _⟩, hplay, rfl⟩ := Option.map_eq_some_iff.mp h
  exact executes_of_play l.2 hplay

section Register

def Registering : Op C κ δ → Prop
  | .onConnect _ | .insert _ _ | .epollCtl _ _ _ _ | .addCount _ | .delete _ => True
  | _ => False

theorem current_modify (d : C) {f : Conn σ κ → Conn σ κ} (hf : ∀ x, Current x → Current (f x))
    (h : Current (L.conns c)) : Current ((L.modify d f).conns c) := by
  by_cases hd : c = d
  · subst hd
    rw [modify_self]
    exact hf _ h
  · simp only [Local.modify, Function.update_of_ne hd]
    exact h

theorem act_current {o : Op C κ δ} (ho : Registering o) {ch : Choice o} {r : Res o} (h : Current (L.conns c))
    (hact : act cfg o ch L = some (r, L')) : Current (L'.conns c) := by
  cases o <;> simp only [Registering] at ho
  case onConnect d =>
    cases hact
    exact current_modify d (fun _ hx => hx) h
  case insert fd d =>
    obtain ⟨m, -, hm⟩ := Option.map_eq_some_iff.mp hact
    cases hm
    exact h
  case addCount | delete =>
    cases hact
    exact h
  case epollCtl d op fd events =>
    have hnote : Current ((L.modify d (·.note (.syscall (.epollCtl op ch) fd))).conns c) :=
      current_modify d (fun _ hx => hx) h
    obtain ⟨rfl, -, rfl⟩ | ⟨rfl, -, rfl⟩ := act_epollCtl cfg hact <;> exact hnote

theorem register_current (h : Current (L.conns c)) :
    Always (semantics cfg) (fun _ _ => True) (fun _ L' => Current (L'.conns c)) (taskBody cfg (.register c)) L := by
  have huses : (taskBody cfg (.register c)).Uses Registering := by
    refine ⟨trivial, fun _ => ⟨trivial, fun _ => ⟨trivial, ?_⟩⟩⟩
    intro ok
    cases ok with
    | true => exact ⟨trivial, fun _ => trivial⟩
    | false => exact ⟨trivial, fun _ => trivial⟩
  exact Always.of_uses huses (fun _ _ _ _ => trivial) (fun _ ho _ _ _ _ hs hact => act_current ho hs hact) h

end Register

section Event

theorem swapLengths_current {J : Op C κ δ → Local C σ κ δ → Prop} (hJ : J (.swapLengths c) L) :
    Always (semantics cfg) J (fun _ L' => Current (L'.conns c)) (call (.swapLengths c)) L := by
  refine ⟨hJ, ?_⟩
  intro ch r L₁ hact
  cases hact
  intro _
  rw [modify_self]
  exact ⟨rfl, rfl⟩

/-- An event refreshes both lengths unless it closes the connection. -/
theorem handlerEvent_current (fuel : Nat) (events : UInt32) (h : Open cfg c L₀ L) (he : entry L (cfg.fd c) = some c) :
    Ends cfg c False L₀ (fun _ L' => Current (L'.conns c)) (handlerEvent cfg fuel (cfg.fd c) events) L := by
  refine handlerEvent_of_swap (P := fun L' => Current (L'.conns c))
    (fun hs => current_of_closed hs.2.1.connected) ?_ fuel events h he
  rintro L₁ ⟨out, accepted, hf⟩
  exact swapLengths_current (hf.permitted (by simp [target]) (by simp))

theorem event_current {fuel : Nat} {events : UInt32} (hrest : Rest cfg c False L L) (h : Current (L.conns c))
    (he : Executes (semantics cfg) (handlerEvent cfg fuel (cfg.fd c) events) L () L') : Current (L'.conns c) := by
  rcases entry_of_rest hrest with hentry | ⟨hopen, hentry⟩
  · have hidle := handlerEvent_idle cfg (J := fun _ _ => True) fuel (cfg.fd c) events trivial hentry
    exact hidle.post he ▸ h
  · exact (handlerEvent_current fuel events hopen hentry).post he

end Event

section Send

/-- A Send task of an open connection that stays open: the input and both reported lengths are left alone, and the
backlog grows by what the kernel did not take. -/
theorem send_backlog {data : δ} {finish : Bool} (hopen : Open cfg c L L) (hopen' : Open cfg c L' L')
    (he : Executes (semantics cfg) (taskBody cfg (.send c data finish)) L () L') :
    (L'.conns c).inBuffer = (L.conns c).inBuffer ∧ (L'.conns c).inBufferLen = (L.conns c).inBufferLen ∧
    (L'.conns c).outBufferLen = (L.conns c).outBufferLen ∧
    (L'.conns c).accepted.length + (L'.conns c).outBuffer.length = (L.conns c).accepted.length +
      (L.conns c).outBuffer.length + (cfg.protocol.packet (L.conns c).user data).length := by
  have hout := ((sendTask_outwardly data finish hopen.connected).post he).conn
  rw [modify_self] at hout
  refine ⟨hout.inBuffer, hout.inBufferLen, hout.outBufferLen, ?_⟩
  obtain ⟨out, accepted, hf⟩ := hopen
  obtain ⟨out', accepted', hf'⟩ := hopen'
  have hsent := hout.sent
  rw [sent_sendInLoop, hf.sent, hf'.sent, ← hf.accepted, ← hf'.accepted, ← hf.out, ← hf'.out] at hsent
  simpa [Lib.RingBuffers.RingBuffer.length, Nat.add_assoc] using congrArg List.length hsent

def Behind : Op C κ δ → Prop
  | .isEmpty _ _ | .write _ _ _ | .epollCtl _ _ _ _ | .delete _ | .addCount _ | .onClose _ | .unixClose _ _
  | .putInPool _ _ | .stopTimer _ | .sendInLoopFinish _ => True
  | _ => False

def tallied (x : Conn σ κ) : Bytes × Bool := (x.accepted, x.connected)

theorem tallied_modify (d : C) {f : Conn σ κ → Conn σ κ} (hf : ∀ x, tallied (f x) = tallied x) :
    tallied ((L.modify d f).conns c) = tallied (L.conns c) := by
  by_cases hd : c = d
  · subst hd
    rw [modify_self]
    exact hf _
  · simp only [Local.modify, Function.update_of_ne hd]

theorem act_behind {o : Op C κ δ} (ho : Behind o) {ch : Choice o} {r : Res o} (hact : act cfg o ch L = some (r, L')) :
    tallied (L'.conns c) = tallied (L.conns c) := by
  cases o <;> simp only [Behind] at ho
  case isEmpty d b | write d b data | onClose d | putInPool d b | stopTimer d | sendInLoopFinish d =>
    cases hact
    exact tallied_modify d (fun _ => rfl)
  case unixClose d fd =>
    cases hact
    exact tallied_modify (L := L) d (f := (·.note (.syscall .close fd))) (fun _ => rfl)
  case addCount | delete =>
    cases hact
    rfl
  case epollCtl d op fd events =>
    have hnote : tallied ((L.modify d (·.note (.syscall (.epollCtl op ch) fd))).conns c) = tallied (L.conns c) :=
      tallied_modify d (fun _ => rfl)
    obtain ⟨rfl, -, rfl⟩ | ⟨rfl, -, rfl⟩ := act_epollCtl cfg hact <;> exact hnote

theorem tallied_of_uses {α : Type} {p : Prog C κ δ α} (hp : p.Uses Behind) {a : α}
    (he : Executes (semantics cfg) p L a L') : tallied (L'.conns c) = tallied (L.conns c) :=
  (Always.of_uses (J := fun _ _ => True) (P := fun L₁ => tallied (L₁.conns c) = tallied (L.conns c)) hp
    (fun _ _ _ _ => trivial) (fun _ ho _ _ _ _ hs hact => (act_behind ho hact).trans hs) rfl).post he

def Answered (x y : Conn σ κ) (packed : Bytes) : WriteResult → Prop
  | .count n => n ≤ packed.length ∧ tallied y = (x.accepted ++ packed.take n, true)
  | .error .EAGAIN => tallied y = (x.accepted, true)
  | .error .other => y.connected = false

omit [DecidableEq C] in
theorem finish_behind (finish : Bool) :
    (if finish then call (.sendInLoopFinish c) else pure () : Prog C κ δ Unit).Uses Behind := by
  cases finish with
  | true => exact ⟨trivial, fun _ => trivial⟩
  | false => trivial

omit [DecidableEq C] in
theorem sendInLoopRest_behind : (sendInLoopRest cfg c).Uses Behind := by
  refine ⟨trivial, ?_⟩
  intro empty
  cases empty with
  | true => trivial
  | false => exact ⟨trivial, fun _ => trivial⟩

omit [DecidableEq C] in
/-- What is not taken is stored behind the write. -/
theorem stored_behind (packed : Bytes) (n : Int) :
    (do if n ≤ 0 then call (.write c .outBuffer packed)
        else if n < packed.length then call (.write c .outBuffer (packed.drop n.toNat))
        sendInLoopRest cfg c : Prog C κ δ Bool).Uses Behind := by
  simp only [Bind.bind]
  split
  · exact ⟨trivial, fun _ => sendInLoopRest_behind⟩
  · split
    · exact ⟨trivial, fun _ => sendInLoopRest_behind⟩
    · exact sendInLoopRest_behind

theorem disconnected_of_uses {α : Type} {p : Prog C κ δ α} (hp : p.Uses Behind) (h : (L.conns c).connected = false) :
    Always (semantics cfg) (fun _ _ => True) (fun _ L' => (L'.conns c).connected = false) p L :=
  Always.of_uses hp (fun _ _ _ _ => trivial)
    (fun _ ho _ _ _ _ hs hact => (congrArg Prod.snd (act_behind ho hact)).trans hs) h

/-- handleClose leaves a connection that is not connected. -/
theorem handleClose_disconnects (fd : Fd) (h : (L.conns c).connected = true) :
    Always (semantics cfg) (fun _ _ => True) (fun _ L' => (L'.conns c).connected = false) (handleClose c fd) L := by
  refine ⟨trivial, ?_⟩
  intro ch r L₁ hact
  cases hact
  rw [h]
  refine ⟨trivial, ?_⟩
  intro ch r L₁ hact
  cases hact
  refine disconnected_of_uses ?_ (by rw [modify_self])
  exact ⟨trivial, fun _ => ⟨trivial, fun _ => ⟨trivial, fun _ => ⟨trivial, fun _ => ⟨trivial, fun _ =>
    ⟨trivial, fun _ => ⟨trivial, fun _ => ⟨trivial, fun _ => trivial⟩⟩⟩⟩⟩⟩⟩⟩

/-- A Send of an open connection that finds a backlog leaves the kernel alone; otherwise the kernel's answer to its
write decides. -/
def Outcome (x y : Conn σ κ) (packed : Bytes) (reply : Option WriteResult) : Prop :=
  (x.outBuffer.data ≠ [] ∧ tallied y = (x.accepted, true)) ∨
  (x.outBuffer.data = [] ∧ ∃ result, reply = some result ∧ Answered x y packed result)

theorem send_outcome {data : δ} {finish : Bool} {choices : List ((o : Op C κ δ) → Choice o)}
    (hconn : (L.conns c).connected = true) (hstep : step cfg c L (.send data finish, choices) = some L') :
    Outcome (L.conns c) (L'.conns c) (cfg.protocol.packet (L.conns c).user data)
      (answer cfg c (.send data finish, choices) (cfg.protocol.packet (L.conns c).user data)) := by
  obtain ⟨⟨_, _⟩, hplay, rfl⟩ := Option.map_eq_some_iff.mp hstep
  obtain ⟨_, choices, _, _, rfl, hact, hplay⟩ := play_step hplay
  cases hact
  rw [hconn] at hplay
  obtain ⟨_, choices, _, _, rfl, hact, hplay⟩ := play_step hplay
  cases hact
  obtain ⟨_, choices, _, _, rfl, hact, hplay⟩ := play_step hplay
  cases hact
  obtain ⟨_, choices, _, _, rfl, hact, hplay⟩ := play_step hplay
  cases hact
  generalize hL₁ : (L.modify c fun x => x.note (.sendInLoop (cfg.protocol.packet (L.conns c).user data))) = L₁ at hplay
  have hring : L₁.ring c .outBuffer = (L.conns c).outBuffer := by
    rw [← hL₁, Local.ring, modify_self]
    rfl
  have htallied : tallied ((L₁.modify c (·.touch .outBuffer)).conns c) = ((L.conns c).accepted, true) := by
    rw [modify_self, ← hL₁, modify_self, ← hconn]
    rfl
  rw [hring] at hplay
  by_cases hout : (L.conns c).outBuffer.data = []
  · rw [(RingBuffer.isEmpty_iff _).mpr hout] at hplay
    obtain ⟨choice, choices, r, L₂, rfl, hact, hplay⟩ := play_step hplay
    refine .inr ⟨hout, choice (.unixWrite c (cfg.fd c) (cfg.protocol.packet (L.conns c).user data)), rfl, ?_⟩
    have he := executes_of_play choices hplay
    obtain ⟨hacc, hopen⟩ := Prod.mk.inj htallied
    obtain ⟨n, hresult, hn, rfl, rfl⟩ | ⟨e, hresult, rfl, rfl⟩ := act_unixWrite cfg hact
    · rw [hresult]
      refine ⟨hn, ?_⟩
      refine (tallied_of_uses (Program.Uses.bind ?_ fun _ => finish_behind finish) he).trans ?_
      · simp only [Program.bind]
        rw [if_neg (by simp)]
        exact stored_behind _ _
      rw [modify_self]
      exact Prod.ext (congrArg (· ++ _) hacc) hopen
    · rw [hresult]
      cases e with
      | EAGAIN =>
          refine (tallied_of_uses (Program.Uses.bind ?_ fun _ => finish_behind finish) he).trans ?_
          · simp only [Program.bind]
            rw [if_neg (by simp)]
            exact stored_behind _ _
          rw [modify_self]
          exact htallied
      | other =>
          refine Always.post (J := fun _ _ => True) (Q := fun _ L' => (L'.conns c).connected = false) ?_ he
          refine Always.bind (Always.mono (Q := fun _ L' => (L'.conns c).connected = false) ?_
            fun _ _ hclosed => disconnected_of_uses (finish_behind finish) hclosed)
          simp only [Program.bind]
          rw [if_pos (by simp)]
          refine Always.bind (handleClose_disconnects _ ?_)
          rw [modify_self]
          exact hopen
  · have hfull : (L.conns c).outBuffer.isEmpty = false := by
      rw [Bool.eq_false_iff]
      exact fun h => hout ((RingBuffer.isEmpty_iff _).mp h)
    rw [hfull] at hplay
    refine .inl ⟨hout, ?_⟩
    rw [← htallied]
    refine tallied_of_uses ?_ (executes_of_play choices hplay)
    exact ⟨trivial, fun _ => finish_behind finish⟩

omit [DecidableEq C] in
/-- Only an error of the write closes the connection. -/
theorem clears_of_disconnected {x y : Conn σ κ} {packed : Bytes} {reply : Option WriteResult}
    (hy : y.connected = false) (h : Outcome x y packed reply) :
    x.outBuffer.data = [] ∧ ∀ result ∈ reply, Clears packed result := by
  have hopen : ∀ bytes, tallied y ≠ (bytes, true) := by
    intro bytes ht
    rw [(Prod.mk.inj ht).2] at hy
    cases hy
  obtain ⟨-, ht⟩ | ⟨hempty, result, rfl, hresult⟩ := h
  · exact absurd ht (hopen _)
  · refine ⟨hempty, ?_⟩
    simp only [Option.mem_def, Option.some.injEq, forall_eq']
    cases result with
    | count n => exact absurd hresult.2 (hopen _)
    | error e =>
        cases e with
        | EAGAIN => exact absurd hresult (hopen _)
        | other => simp [Clears]

omit [DecidableEq C] in
/-- The backlog keeps its length exactly if there is nothing to send or the kernel takes all at once. -/
theorem unchanged_iff {x y : Conn σ κ} {packed : Bytes} {reply : Option WriteResult} (hy : y.connected = true)
    (h : Outcome x y packed reply)
    (hlen : y.accepted.length + y.outBuffer.length = x.accepted.length + x.outBuffer.length + packed.length) :
    y.outBuffer.length = x.outBuffer.length ↔
      packed = [] ∨ x.outBuffer.data = [] ∧ ∀ result ∈ reply, Clears packed result := by
  rw [← List.length_eq_zero_iff (l := packed)]
  obtain ⟨hfull, ht⟩ | ⟨hempty, result, rfl, hresult⟩ := h
  · have hacc := (Prod.mk.inj ht).1
    rw [hacc] at hlen
    simp only [hfull, false_and, or_false]
    omega
  · simp only [hempty, true_and, Option.mem_def, Option.some.injEq, forall_eq']
    cases result with
    | count n =>
        obtain ⟨hn, ht⟩ := hresult
        have hacc := congrArg List.length (Prod.mk.inj ht).1
        rw [List.length_append, List.length_take] at hacc
        simp only [Clears]
        omega
    | error e =>
        cases e with
        | EAGAIN =>
            have hacc := (Prod.mk.inj hresult).1
            rw [hacc] at hlen
            simp only [Clears, ne_eq, not_true_eq_false, or_false]
            omega
        | other =>
            rw [hresult] at hy
            cases hy

end Send

theorem step_rest {l : Label C κ δ} (h : Rest cfg c False L L) (hstep : step cfg c L l = some L') :
    Rest cfg c False L' L' := by
  obtain ⟨work, choices⟩ := l
  cases work with
  | send data finish => exact rest_send h (executes_of_step hstep)
  | event fuel events => exact rest_event h (executes_of_step hstep)

/-- From a state with current lengths, a piece of work leaves them current just if it is no Send or one that the kernel
takes at once. -/
theorem step_current {l : Label C κ δ} (hrest : Rest cfg c False L L) (h : Current (L.conns c))
    (hstep : step cfg c L l = some L') : Current (L'.conns c) ↔ Taken cfg c L l := by
  obtain ⟨closed', hs'⟩ := step_rest hrest hstep
  obtain ⟨work, choices⟩ := l
  have he := executes_of_step hstep
  cases work with
  | event fuel events => exact iff_of_true (event_current hrest h he) trivial
  | send data finish =>
      by_cases hconn : (L.conns c).connected = true
      · have hcur := h hconn
        have hout := send_outcome hconn hstep
        simp only [Taken, forall_prop_of_true hconn]
        cases closed' with
        | true =>
            refine iff_of_true (current_of_closed hs'.2.1.connected) (.inr ?_)
            exact clears_of_disconnected hs'.2.1.connected hout
        | false =>
            obtain ⟨hin, hinLen, houtLen, hlen⟩ := send_backlog (open_of_rest hrest hconn) hs' he
            rw [← unchanged_iff hs'.connected hout hlen, Current, forall_prop_of_true hs'.connected, writeBufferLength,
              readBufferLength, hin, hinLen, houtLen]
            exact ⟨fun hc => hc.1.symm.trans hcur.1, fun hc => ⟨hcur.1.trans hc.symm, hcur.2⟩⟩
      · refine iff_of_true (current_of_closed ?_) (fun hc => absurd hc hconn)
        rw [Bool.eq_false_iff]
        exact fun hc => hconn (connected_before_send hc he)

/-- Both reported lengths are those of the buffers in every state of a run exactly if the kernel takes every Send of
it at once. -/
theorem lengths_current (cfg : Config C σ κ δ) (c : C) (L₀ L₁ L : Local C σ κ δ) (ls : List (Label C κ δ))
    (hnew : New c L₀) (hcur : Current (L₀.conns c))
    (hreg : Executes (semantics cfg) (taskBody cfg (.register c)) L₀ () L₁)
    (h : run (step cfg c) L₁ ls = some L) :
    (∀ ks L', ks <+: ls → run (step cfg c) L₁ ks = some L' → Current (L'.conns c)) ↔
      Meets (step cfg c) (Taken cfg c) L₁ ls := by
  have hrest : Rest cfg c False L₁ L₁ := rest_register hnew hreg
  have hcur₁ : Current (L₁.conns c) := (register_current hcur).post hreg
  have hvisit := visited_iff_meets (P := fun L => Rest cfg c False L L ∧ Current (L.conns c))
    (fun _ _ _ hs hstep => (and_iff_right (step_rest hs.1 hstep)).trans (step_current hs.1 hs.2 hstep))
    ⟨hrest, hcur₁⟩ h
  refine Iff.trans ?_ hvisit
  refine forall_congr' fun ks => forall_congr' fun L' => forall_congr' fun _ => forall_congr' fun hks => ?_
  exact (and_iff_right (run_invariant (fun _ _ _ => step_rest) hrest hks)).symm

def prompt : List (Label Unit Unit Bytes) :=
  [(.send [1, 2, 3] false, answering 6 (.error .EAGAIN) (.count 3)),
    (.event 2 EventRead, answering 22 (.bytes [4, 5]) (.count 1))]

theorem lengths_current_prompt : ∃ L₁ L,
    Executes (semantics echo) (taskBody echo (.register ())) fresh () L₁ ∧
    run (step echo ()) L₁ prompt = some L ∧ Meets (step echo ()) (Taken echo ()) L₁ prompt ∧
    (L.conns ()).connected = true ∧ (L.conns ()).outBuffer.data = [5] ∧ Current (L.conns ()) := by
  refine ⟨_, _, executes_of_play (answering 4 (.error .EAGAIN) (.count 0)) rfl, rfl, meets_of_check rfl, rfl, rfl, ?_⟩
  exact (lengths_current echo () fresh _ _ prompt fresh_new (fun _ => ⟨rfl, rfl⟩)
    (executes_of_play (answering 4 (.error .EAGAIN) (.count 0)) rfl) rfl).mpr (meets_of_check rfl) prompt _
    (List.prefix_refl _) rfl

/-- Of a Send of three bytes the kernel takes one. The other two wait in outBuffer, and WriteBufferLength is still 0. -/
theorem backlog_not_reported : ∃ L₁ L,
    Executes (semantics echo) (taskBody echo (.register ())) fresh () L₁ ∧
    run (step echo ()) L₁ [(.send [1, 2, 3] false, answering 8 (.error .EAGAIN) (.count 1))] = some L ∧
    (L.conns ()).connected = true ∧ (L.conns ()).outBuffer.length = 2 ∧ writeBufferLength (L.conns ()) = 0 :=
  ⟨_, _, executes_of_play (answering 4 (.error .EAGAIN) (.count 0)) rfl, rfl, rfl, rfl, rfl⟩

end Gev.Connection.Lengths
