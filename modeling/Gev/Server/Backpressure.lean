import Gev.Server.Delivery

namespace Gev.Server.Backpressure

open Lib.Atomic Lib.Runs Lib.Slices Lib.RingBuffers Connection.State Connection.Code Connection.Reading
open Connection.Writing Connection.Outward Connection.Traffic Connection.Tasks EventLoop Interleaving Effects Between
open Invariant Delivery

variable {Λ G C σ κ δ : Type}

section Accounting

/-- All bytes given to the connection before one of the reads among the acts are with the kernel. -/
def Settled (acts : List (Act κ)) (accepted : Bytes) : Prop :=
  ∀ before fd after, acts = before ++ .syscall .read fd :: after → (before.filterMap sendData).flatten <+: accepted

variable {acts new : List (Act κ)} {accepted accepted' : Bytes}

theorem Settled.mono (h : Settled acts accepted) (hle : accepted <+: accepted') : Settled acts accepted' :=
  fun before fd after he => (h before fd after he).trans hle

theorem Settled.append (h : Settled acts accepted) (hnew : ∀ fd, .syscall .read fd ∉ new) :
    Settled (acts ++ new) accepted := by
  intro before fd after he
  rcases List.append_eq_append_iff.mp he with ⟨xs, -, hxs⟩ | ⟨xs, hacts, hxs⟩
  · exact absurd (by simp [hxs]) (hnew fd)
  · cases xs with
    | nil =>
        subst hxs
        exact absurd List.mem_cons_self (hnew fd)
    | cons x xs =>
        cases hxs
        exact h before fd xs hacts

theorem Settled.read (h : Settled acts accepted) (hall : (acts.filterMap sendData).flatten <+: accepted) (fd : Fd) :
    Settled (acts ++ [.syscall .read fd]) accepted := by
  intro before fd' after he
  cases after using List.reverseRecOn with
  | nil =>
      obtain ⟨rfl, -⟩ := List.append_inj' he rfl
      exact hall
  | append_singleton after x =>
      rw [← List.cons_append, ← List.append_assoc] at he
      exact h before fd' after (List.append_inj' he rfl).1

theorem Settled.replies (h : Settled acts accepted) (hall : (acts.filterMap sendData).flatten <+: accepted) (fd : Fd)
    (replies : Option Bytes) : Settled (acts ++ readActs fd replies) accepted := by
  rw [readActs, ← List.singleton_append, ← List.append_assoc]
  apply (h.read hall fd).append
  cases replies <;> simp

theorem settled_history {x : Conn σ κ} (h : Settled (x.history.filter traffic) x.accepted) :
    Settled x.history x.accepted := by
  intro before fd after he
  rw [← filterMap_sendData]
  apply h _ fd (after.filter traffic)
  rw [he, List.filter_append, List.filter_cons_of_pos rfl]

end Accounting

variable [DecidableEq C] {cfg : Config C σ κ δ} {ts : List (Task C δ)} {L : Local C σ κ δ}

def Flushed (c : C) (_ : List (Task C δ)) (L : Local C σ κ δ) : Prop :=
  Settled ((L.conns c).history.filter traffic) (L.conns c).accepted

theorem flushed_event {early : Prop} {c : C} (hw : World cfg early ts L) (h : Flushed c ts L) (fuel : Nat) (fd : Fd)
    (events : UInt32) :
    Always (semantics cfg) (fun _ _ => True) (fun _ => Flushed c ts) (handlerEvent cfg fuel fd events) L := by
  apply (handlerEvent_event fuel fd events L).mono
  rintro _ L₁ (hg | ⟨hentry, hempty, replies, hg⟩)
  · rw [Flushed, hg.traffic, List.append_nil]
    exact h.mono hg.accepted
  · obtain ⟨rfl, ho⟩ := hw.entries fd c hentry
    have hall := (stream_of_world hw c).2 ho.connected
    rw [hempty, List.append_nil, sent, ← filterMap_sendData] at hall
    rw [Flushed, hg.traffic]
    exact (h.replies (hall ▸ List.prefix_refl _) _ replies).mono hg.accepted

theorem flushed_task {c : C} (h : Flushed c ts L) (t : Task C δ) :
    Always (semantics cfg) (fun _ _ => True) (fun _ => Flushed c (ts ++ [t])) (taskBody cfg t) L := by
  apply (taskBody_grown t L).mono
  rintro _ L₁ (⟨hg, -⟩ | ⟨data, finish, -, -, hg⟩)
  · rw [Flushed, hg.traffic, List.append_nil]
    exact h.mono hg.accepted
  · rw [Flushed, hg.traffic]
    apply Settled.mono _ hg.accepted
    apply h.append
    intro fd
    cases finish <;> simp [Entry.acts]

theorem flushed_lasting (S : Setup Λ C σ κ δ) (c : C) :
    Lasting S (World S.cfg (0 < S.cfg.idleTime)) (fun _ _ => True) (Flushed c) where
  event _ _ fd events hw h := flushed_event hw h S.fuel fd events
  task _ _ u _ h := flushed_task h u

section Reading

def reads : Op C κ δ → Option C
  | .unixRead c _ _ | .unPacket c _ | .onMessage c _ _ => some c
  | _ => none

/-- The operation takes no input of a connection that has a backlog. -/
def Unhurried (o : Op C κ δ) (L : Local C σ κ δ) : Prop :=
  ∀ c, reads o = some c → (L.conns c).outBuffer.data = []

omit [DecidableEq C] in
theorem unhurried_of_none {o : Op C κ δ} (ho : reads o = none) (L : Local C σ κ δ) : Unhurried o L := by
  intro c hc
  rw [ho] at hc
  cases hc

omit [DecidableEq C] in
theorem reads_of_calm {o : Op C κ δ} (ho : Calm o) : reads o = none := by
  cases o <;> first | rfl | cases ho

theorem unhurried_of_uses {α : Type} {p : Prog C κ δ α} (hp : p.Uses fun o => reads o = none) (L : Local C σ κ δ) :
    Always (semantics cfg) Unhurried (fun _ _ => True) p L :=
  Always.of_uses hp (fun _ L' ho _ => unhurried_of_none ho L') (fun _ _ _ _ _ _ _ _ => trivial) trivial

theorem unhurried_of_calm {α : Type} {p : Prog C κ δ α} (hp : p.Uses Calm) (L : Local C σ κ δ) :
    Always (semantics cfg) Unhurried (fun _ _ => True) p L :=
  unhurried_of_uses (hp.mono fun _ => reads_of_calm) L

omit [DecidableEq C] in
theorem unread_sendInLoop (c : C) (data : Bytes) : (sendInLoop cfg c data).Uses fun o => reads o = none := by
  obtain ⟨k, hk, hemits⟩ := emits_sendInLoop cfg c data
  rw [hk]
  exact ⟨rfl, fun r => (hemits r).mono fun _ ho => reads_of_calm (Emits.calm ho)⟩

theorem unhurried_handleRead {c : C} (hout : (L.conns c).outBuffer.data = []) (fuel : Nat) (fd : Fd) :
    Always (semantics cfg) Unhurried (fun _ _ => True) (handleRead cfg fuel c fd) L := by
  refine ⟨unhurried_of_none rfl L, ?_⟩
  intro ch buf L₁ hact
  cases hact
  refine ⟨?_, ?_⟩
  · rintro _ ⟨⟩
    exact hout
  rintro ch ⟨n, err⟩ L₁ hact
  have hout₁ : (L₁.conns c).outBuffer.data = [] := by
    obtain ⟨data, -, -, -, rfl⟩ | ⟨e, -, -, rfl⟩ := act_unixRead cfg hact
    · simpa [Local.modify, Conn.note] using hout
    · simpa [Local.modify, Conn.note] using hout
  simp only [Program.bind]
  split
  · split
    · exact unhurried_of_calm ((emits_close fd).mono fun _ => Emits.calm) L₁
    · trivial
  · apply Always.bind
    apply Always.mono (always_quietly cfg c (uses_parsePacket cfg c fuel _ n.toNat) ?_)
    · intro replies L₂ _
      split
      · refine ⟨unhurried_of_none rfl L₂, ?_⟩
        intro ch data L₃ hact
        exact unhurried_of_uses (unread_sendInLoop c data) L₃
      · trivial
    · intro o L₂ ho hq d hd
      have hdc : d = c := by
        cases o <;> simp only [reads, Option.some.injEq, reduceCtorEq] at hd <;> simp only [Quiet] at ho <;> grind
      rw [hdc, hq.outBuffer]
      exact hout₁

theorem unhurried_handleReady (c : C) (fuel : Nat) (fd : Fd) (events : UInt32) (L : Local C σ κ δ) :
    Always (semantics cfg) Unhurried (fun _ _ => True) (handleReady cfg fuel c fd events) L := by
  refine ⟨unhurried_of_none rfl L, ?_⟩
  intro ch empty L₁ hact
  obtain ⟨rfl, rfl⟩ := Prod.mk.inj (Option.some.inj hact)
  change Always _ _ _ (if (L.ring c .outBuffer).isEmpty = false then _ else _) _
  cases hempty : (L.ring c .outBuffer).isEmpty with
  | false =>
      rw [if_pos rfl]
      split
      · exact unhurried_of_calm (calm_writeBranch cfg c fd) _
      · trivial
  | true =>
      rw [if_neg (by simp)]
      split
      · apply Always.bind
        have hout : (L.conns c).outBuffer.data = [] := (RingBuffer.isEmpty_iff _).mp hempty
        apply Always.mono (unhurried_handleRead (by simpa [Local.modify, Conn.touch] using hout) fuel fd)
        intro closed L₂ _
        cases closed with
        | true => trivial
        | false => exact unhurried_of_calm (calm_tidy c .inBuffer) L₂
      · trivial

theorem unhurried_event (fuel : Nat) (fd : Fd) (events : UInt32) (L : Local C σ κ δ) :
    Always (semantics cfg) Unhurried (fun _ _ => True) (handlerEvent cfg fuel fd events) L := by
  refine ⟨unhurried_of_none rfl L, ?_⟩
  intro ch found L₁ hact
  cases found with
  | none => trivial
  | some c =>
      have hdispatch : ∀ L₁ : Local C σ κ δ,
          Always (semantics cfg) Unhurried (fun _ _ => True) (dispatch cfg fuel c fd events) L₁ := by
        intro L₁
        unfold dispatch
        split
        · exact unhurried_of_calm ((emits_handleClose fd).mono fun _ => Emits.calm) L₁
        · apply Always.bind
          apply (unhurried_handleReady c fuel fd events L₁).mono
          intro closed L₂ _
          cases closed with
          | true => trivial
          | false => exact unhurried_of_calm (p := call (.swapLengths c)) ⟨trivial, fun _ => trivial⟩ L₂
      change Always _ _ _ (handleEvent cfg fuel c fd events) L₁
      simp only [handleEvent]
      split
      · exact ⟨unhurried_of_none rfl L₁, fun _ _ L₂ _ => hdispatch L₂⟩
      · exact hdispatch L₁

omit [DecidableEq C] in
theorem unread_task (t : Task C δ) : (taskBody cfg t).Uses fun o => reads o = none := by
  cases t with
  | register c => exact (calm_register cfg c).mono fun _ => reads_of_calm
  | close c => exact (emits_handleClose (cfg.fd c)).mono fun _ ho => reads_of_calm (Emits.calm ho)
  | closing => exact (calm_closing cfg).mono fun _ => reads_of_calm
  | send c data finish =>
      refine ⟨rfl, ?_⟩
      intro connected
      cases connected with
      | false => trivial
      | true =>
          refine ⟨rfl, fun packed => ?_⟩
          apply Program.Uses.bind (unread_sendInLoop c packed)
          intro _
          cases finish with
          | true => exact ⟨rfl, fun _ => trivial⟩
          | false => trivial

theorem unhurried_lasting (S : Setup Λ C σ κ δ) : Lasting S (fun _ _ => True) Unhurried (fun _ _ => True) where
  event _ L fd events _ _ := unhurried_event S.fuel fd events L
  task _ L u _ _ := unhurried_of_uses (unread_task u) L

end Reading

variable [DecidableEq Λ] [DecidableEq G]

/-- A connection with a backlog is not read: no loop takes input of a connection whose output buffer holds bytes, so
whatever was given to the connection before one of its reads is with the kernel, and its backlog is part of what was
given to it since. -/
theorem reads_await_flush (S : Setup Λ C σ κ δ) (packetSize taskQueueSize : Nat) (conns : C → Conn σ κ)
    (hconns : ∀ c, ∃ user now, conns c = newConnection S.cfg user now) (ls : List (Label Λ G C δ))
    (s : Process Λ G C σ κ δ) (h : run (step S) (init packetSize taskQueueSize conns) ls = some s) :
    (∀ ℓ o k c, (s.loops ℓ).prog = .step o k → reads o = some c →
      ((s.loops ℓ).work.conns c).outBuffer.data = []) ∧
    (Meets (step S) Timely (init packetSize taskQueueSize conns) ls →
      ∀ c u, (s.loops (S.loopOf c)).prog = .done u → ∀ before fd after,
        (s.conn S c).history = before ++ .syscall .read fd :: after →
        (before.filterMap sendData).flatten <+: (s.conn S c).accepted ∧
        ((s.conn S c).connected = true →
          (s.conn S c).outBuffer.data <:+ (after.filterMap sendData).flatten)) := by
  refine ⟨?_, ?_⟩
  · intro ℓ o k c ho hreads
    exact (holds_of_run (unhurried_lasting S) trivial h).permits ho c hreads
  · intro hok c u hd before fd after hhist
    have hready : Meets (step S) (fun s _ => Ready (World S.cfg (0 < S.cfg.idleTime)) s)
        (init packetSize taskQueueSize conns) ls :=
      hok.imp (I := fun s => Inv S s) (fun _ _ _ hI htimely hstep => hI.step htimely (steps_of_step hstep))
        (fun _ _ hI _ _ _ hd => hI.world hd) (inv_init packetSize taskQueueSize hconns)
    have hinit : Flushed c ([] : List (Task C δ)) (newLocal packetSize conns) := by
      obtain ⟨user, now, hc⟩ := hconns c
      intro before fd after he
      simp [newLocal, hc, newConnection] at he
    have hflushed : Flushed c _ (s.loops (S.loopOf c)).work :=
      (holds_of_ready (flushed_lasting S c) hinit hready h).done hd
    have hbefore := settled_history hflushed before fd after hhist
    refine ⟨hbefore, ?_⟩
    intro hconn
    have hI : Inv S s := inv_of_run hconns hok h
    have hall := (stream_of_world (hI.world hd) c).2 hconn
    obtain ⟨xs, hxs⟩ := hbefore
    refine ⟨xs, ?_⟩
    change (s.conn S c).accepted ++ _ = sent (s.conn S c) at hall
    change _ = (s.conn S c).accepted at hxs
    rw [sent, hhist, List.filterMap_append, List.flatten_append, ← hxs, List.append_assoc] at hall
    exact List.append_cancel_left hall

/-- A message is read and answered; of a later Send the kernel takes the first byte only. -/
def backlogged : List LifeCycle.Step :=
  LifeCycle.registering ++ LifeCycle.runs [.poll [.socket 5 EventRead], .event] ++ LifeCycle.ops 20 true ++
    LifeCycle.runs [.endBatch] ++ [.send false 1 [8, 9] true, .go false] ++ LifeCycle.deliver false ++
    LifeCycle.ops 9 true ++ LifeCycle.runs [.endRun, .test]

theorem reads_await_flush_backlogged : ∃ s, run (step LifeCycle.sample) LifeCycle.sampleInit backlogged = some s ∧
    (s.conn LifeCycle.sample 1).outBuffer.data = [9] ∧ ∀ before fd after,
      (s.conn LifeCycle.sample 1).history = before ++ .syscall .read fd :: after →
      (before.filterMap sendData).flatten <+: (s.conn LifeCycle.sample 1).accepted ∧
      [9] <:+ (after.filterMap sendData).flatten := by
  have hrun : ∃ s, run (step LifeCycle.sample) LifeCycle.sampleInit backlogged = some s ∧
      (s.loops ()).prog = .done () ∧ (s.conn LifeCycle.sample 1).connected = true ∧
      (s.conn LifeCycle.sample 1).outBuffer.data = [9] := ⟨_, rfl, rfl, rfl, rfl⟩
  obtain ⟨s, hs, hd, hconn, hout⟩ := hrun
  have hok : Meets (step LifeCycle.sample) Timely LifeCycle.sampleInit backlogged :=
    timely_run (Int.le_refl 0) (fun _ => ⟨(), 0, rfl⟩) backlogged
  have hflush := (reads_await_flush LifeCycle.sample 8 4 _ (fun _ => ⟨(), 0, rfl⟩) backlogged s hs).2 hok 1 () hd
  refine ⟨s, hs, hout, ?_⟩
  intro before fd after hhist
  obtain ⟨hbefore, hbacklog⟩ := hflush before fd after hhist
  exact ⟨hbefore, hout ▸ hbacklog hconn⟩

end Gev.Server.Backpressure
