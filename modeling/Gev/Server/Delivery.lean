import Gev.Server.Between
import Gev.Server.LifeCycle
import Gev.Connection.Traffic

namespace Gev.Server.Delivery

open Lib.Atomic Lib.Runs Lib.Slices Connection.State Connection.Code Connection.Writing Connection.Traffic
open Connection.Tasks EventLoop Interleaving Effects Between Invariant

variable {Λ G C σ κ δ : Type} [DecidableEq C]

theorem ledger_lasting (S : Setup Λ C σ κ δ) (c : C) :
    Lasting S (fun _ _ => True) (fun _ _ => True) (Kept S.cfg c) where
  event _ _ fd events _ h := handlerEvent_keeps h S.fuel fd events
  task _ _ u _ h := taskBody_keeps h u

theorem ledger_init {cfg : Config C σ κ δ} (packetSize : Nat) {conns : C → Conn σ κ}
    (hconns : ∀ c, ∃ user now, conns c = newConnection cfg user now) (c : C) :
    Kept cfg c [] (newLocal packetSize conns) := by
  obtain ⟨user, now, hc⟩ := hconns c
  refine ⟨[], ?_, by simp, List.nil_prefix, fun _ => rfl⟩
  simp [newLocal, hc, newConnection]

section Calls

def task : Pc Λ C δ → Option (Task C δ)
  | .check _ u | .queue _ u => some u
  | _ => none

def underway (c : C) (pc : Pc Λ C δ) : List (δ × Bool) := ((task pc).bind (sendsTo c)).toList

variable [DecidableEq G]

def calls (g : G) (c : C) : Label Λ G C δ → Option (δ × Bool)
  | .send g' d data finish => if g' = g then sendsTo c (.send d data finish) else none
  | _ => none

def queuedBy (g : G) (c : C) (p : Machine.State G (Task C δ)) : List (δ × Bool) :=
  p.appended.filterMap fun x => if x.1 = some g then sendsTo c x.2 else none

theorem queuedBy_of_step {grow : Nat → Nat → Nat} {p q : Machine.State G (Task C δ)} {m : Machine.Label G (Task C δ)}
    (h : Machine.step grow p m = some q) (g : G) (c : C) :
    queuedBy g c q = queuedBy g c p ∨
      ∃ u, m = .append (some g) u ∧ queuedBy g c q = queuedBy g c p ++ (sendsTo c u).toList := by
  cases Machine.steps_of_step h with
  | swapped | notSwapped | wake | closeSet | closeWake => exact .inl rfl
  | loop _ hm => cases hm <;> exact .inl rfl
  | @append g' u =>
      by_cases hg : g' = some g
      · subst hg
        refine .inr ⟨u, rfl, ?_⟩
        cases hu : sendsTo c u <;> simp [queuedBy, Machine.State.append, hu]
      · left
        simp [queuedBy, Machine.State.append, hg]

variable {S : Setup Λ C σ κ δ} {s t : Process Λ G C σ κ δ} {l : Label Λ G C δ} [DecidableEq Λ]

theorem queuedBy_of_steps (h : Steps S s l t) (ℓ : Λ) (g : G) (c : C) :
    queuedBy g c (t.loops ℓ).poll = queuedBy g c (s.loops ℓ).poll ∨
      ∃ u, l = .go g ∧ s.pcs g = .queue ℓ u ∧
        queuedBy g c (t.loops ℓ).poll = queuedBy g c (s.loops ℓ).poll ++ (sendsTo c u).toList := by
  rcases poll_of_steps h ℓ with hp | ⟨m, hm, hd⟩
  · exact .inl (by rw [hp])
  · rcases queuedBy_of_step hm g c with hsame | ⟨u, rfl, happend⟩
    · exact .inl hsame
    · right
      cases hd with
      | append hg => exact ⟨u, rfl, hg, happend⟩
      | inQueue hm => rcases hm with hm | hm <;> cases hm
      | loop hc => cases hc
      | op _ hq => cases hq

/-- What a goroutine's next statement does with the task it is about to queue. -/
theorem underway_of_go {g : G} (h : go S s g = some t) (c : C) :
    ∃ pc, t.pcs = Function.update s.pcs g pc ∧
      (underway c pc).Sublist (underway c (s.pcs g)) ∧ ∀ ℓ u, s.pcs g = .queue ℓ u → underway c pc = [] := by
  unfold go at h
  split at h
  case h_1 => cases h
  case h_2 d u hg =>
    cases h
    refine ⟨_, rfl, ?_, by simp [hg]⟩
    rw [hg]
    split
    · exact List.Sublist.refl _
    · exact List.nil_sublist _
  case h_3 ℓ u hg =>
    obtain ⟨p, hp, rfl⟩ := Option.map_eq_some_iff.mp h
    exact ⟨_, rfl, List.nil_sublist _, fun _ _ _ => rfl⟩
  case h_4 ℓ u hg =>
    have hreturned : underway c (returned ℓ u) = [] := by cases u <;> rfl
    split at h
    · cases h
    · obtain ⟨p, hp, rfl⟩ := Option.map_eq_some_iff.mp h
      refine ⟨_, rfl, ?_, by simp [hg]⟩
      split
      · exact List.nil_sublist _
      · rw [hreturned]
        exact List.nil_sublist _
    · obtain ⟨p, hp, rfl⟩ := Option.map_eq_some_iff.mp h
      refine ⟨_, rfl, ?_, by simp [hg]⟩
      rw [hreturned]
      exact List.nil_sublist _
  case h_5 ℓ hg =>
    cases h
    exact ⟨_, rfl, List.nil_sublist _, fun _ _ _ => rfl⟩
  case h_6 ℓ hg =>
    cases h
    refine ⟨_, rfl, ?_, by simp [hg]⟩
    split <;> exact List.nil_sublist _
  case h_7 ℓ hg | h_8 ℓ hg =>
    obtain ⟨p, hp, rfl⟩ := Option.map_eq_some_iff.mp h
    exact ⟨_, rfl, List.nil_sublist _, fun _ _ _ => rfl⟩
  case h_9 ℓ hg =>
    split at h <;> cases h
    exact ⟨_, rfl, List.nil_sublist _, fun _ _ _ => rfl⟩

/-- A call other than Send brings no Send under way. -/
theorem underway_of_other (h : step S s l = some t) (hsend : ∀ g d data finish, l ≠ .send g d data finish)
    (hgo : ∀ g, l ≠ .go g) (g : G) (c : C) : t.pcs g = s.pcs g ∨ underway c (t.pcs g) = [] := by
  have hset : ∀ (g' : G) (pc : Pc Λ C δ), underway c pc = [] →
      Function.update s.pcs g' pc g = s.pcs g ∨ underway c (Function.update s.pcs g' pc g) = [] := by
    intro g' pc hpc
    by_cases hg : g = g'
    · subst hg
      exact .inr (by rwa [Function.update_self])
    · exact .inl (Function.update_of_ne hg _ _)
  cases l with
  | accept g' d =>
      simp only [step] at h
      split at h <;> try cases h
      split at h <;> cases h
      exact hset g' _ rfl
  | timer g' d now =>
      simp only [step] at h
      split at h <;> try cases h
      split at h <;> try cases h
      split at h <;> cases h
      · exact hset g' _ rfl
      · exact .inl rfl
  | send g' d data finish => exact absurd rfl (hsend g' d data finish)
  | close g' d =>
      simp only [step] at h
      split at h <;> try cases h
      split at h <;> cases h
      exact hset g' _ rfl
  | shutdownWrite g' d =>
      simp only [step] at h
      split at h <;> try cases h
      split at h <;> cases h
      exact .inl rfl
  | stop g' ℓ =>
      simp only [step] at h
      split at h <;> cases h
      exact hset g' _ rfl
  | go g' => exact absurd rfl (hgo g')
  | loop ℓ m =>
      simp only [step, loopControl] at h
      split at h <;> try cases h
      split at h <;> try cases h
      obtain ⟨p, hp, rfl⟩ := Option.map_eq_some_iff.mp h
      exact .inl rfl
  | op ℓ a =>
      simp only [step, Interleaving.perform] at h
      split at h <;> try cases h
      obtain ⟨r, hact, h⟩ := Option.bind_eq_some_iff.mp h
      obtain ⟨p, hp, rfl⟩ := Option.map_eq_some_iff.mp h
      exact .inl rfl

theorem call_order_step (h : step S s l = some t) (ℓ : Λ) (g : G) (c : C) :
    (queuedBy g c (t.loops ℓ).poll ++ underway c (t.pcs g)).Sublist
      (queuedBy g c (s.loops ℓ).poll ++ underway c (s.pcs g) ++ (calls g c l).toList) := by
  have hqueued := queuedBy_of_steps (steps_of_step h) ℓ g c
  by_cases hsend : ∃ g' d data finish, l = .send g' d data finish
  · obtain ⟨g', d, data, finish, rfl⟩ := hsend
    rw [hqueued.resolve_right (by simp), List.append_assoc]
    apply List.Sublist.append_left
    simp only [step] at h
    split at h <;> try cases h
    next hidle =>
      split at h <;> cases h
      by_cases hg : g' = g
      · subst hg
        simp [Process.setPc, underway, task, calls]
      · simp [Process.setPc, Ne.symm hg]
  · by_cases hgo : ∃ g', l = .go g'
    · obtain ⟨g', rfl⟩ := hgo
      obtain ⟨pc, hpcs, hsub, hqueue⟩ := underway_of_go h c
      by_cases hg : g' = g
      · subst hg
        rw [hpcs, Function.update_self]
        rcases hqueued with hsame | ⟨u, -, hpc, happend⟩
        · rw [hsame]
          exact (hsub.append_left _).trans (List.sublist_append_left _ _)
        · rw [happend, hqueue ℓ u hpc, hpc, List.append_nil]
          exact List.sublist_append_left _ _
      · rw [hqueued.resolve_right (by simp [hg]), hpcs, Function.update_of_ne (Ne.symm hg)]
        exact List.sublist_append_left _ _
    · simp only [not_exists] at hsend hgo
      rw [hqueued.resolve_right (by rintro ⟨u, rfl, -⟩; exact hgo g rfl)]
      rcases underway_of_other h hsend hgo g c with hpc | hnone
      · rw [hpc]
        exact List.sublist_append_left _ _
      · rw [hnone, List.append_nil, List.append_assoc]
        exact List.sublist_append_left _ _

/-- What a goroutine has queued for a connection, it has called Send with, in the same order. -/
theorem queued_in_call_order {packetSize taskQueueSize : Nat} {conns : C → Conn σ κ} {ls : List (Label Λ G C δ)}
    (h : run (step S) (init packetSize taskQueueSize conns) ls = some s) (ℓ : Λ) (g : G) (c : C) :
    (queuedBy g c (s.loops ℓ).poll).Sublist (ls.filterMap (calls g c)) := by
  have hI := run_invariant_past
    (I := fun past s => (queuedBy g c (s.loops ℓ).poll ++ underway c (s.pcs g)).Sublist (past.filterMap (calls g c)))
    ?_ (List.nil_sublist _) h
  · exact (List.sublist_append_left _ _).trans hI
  · intro past s l t hI hstep
    rw [List.filterMap_append]
    apply (call_order_step hstep ℓ g c).trans
    apply hI.append
    cases hl : calls g c l <;> simp [hl]

end Calls

omit [DecidableEq C] in
theorem sent_of_shown {x : Conn σ κ} {fd : Fd} {entries : List (Entry δ)}
    (h : x.history.filter traffic = entries.flatMap (Entry.acts fd)) : sent x = entries.flatMap Entry.bytes := by
  have hbytes : ∀ e : Entry δ, ((e.acts fd : List (Act κ)).filterMap sendData).flatten = e.bytes := by
    intro e
    cases e with
    | send data finish packet => cases finish <;> simp [Entry.acts, Entry.bytes, sendData]
    | read replies => cases replies <;> simp [Entry.acts, readActs, Entry.bytes, List.filterMap_cons, sendData]
  rw [sent, ← filterMap_sendData, h]
  clear h
  induction entries with
  | nil => rfl
  | cons e entries ih => simp [hbytes, ih]

omit [DecidableEq C] in
theorem stream_of_world {cfg : Config C σ κ δ} {early : Prop} {ts : List (Task C δ)} {L : Local C σ κ δ}
    (hw : World cfg early ts L) (c : C) : (L.conns c).accepted <+: sent (L.conns c) ∧
      ((L.conns c).connected = true → (L.conns c).accepted ++ (L.conns c).outBuffer.data = sent (L.conns c)) := by
  rcases hw.each c with hn | ⟨out, accepted, hf⟩ | hc
  · simp [hn.accepted, hn.out, sent, hn.history]
  · rw [hf.accepted, hf.out, hf.sent]
    exact ⟨List.prefix_append _ _, fun _ => rfl⟩
  · refine ⟨hc.stream, fun hconn => ?_⟩
    rw [hc.connected] at hconn
    cases hconn

variable [DecidableEq Λ] [DecidableEq G]

theorem inv_of_run {S : Setup Λ C σ κ δ} {packetSize taskQueueSize : Nat} {conns : C → Conn σ κ}
    (hconns : ∀ c, ∃ user now, conns c = newConnection S.cfg user now) {ls : List (Label Λ G C δ)}
    {s : Process Λ G C σ κ δ} (hok : Meets (step S) Timely (init packetSize taskQueueSize conns) ls)
    (h : run (step S) (init packetSize taskQueueSize conns) ls = some s) : Inv S s :=
  run_invariant_meets (I := fun s => Inv S s) (fun _ _ _ hI htimely hstep => hI.step htimely (steps_of_step hstep))
    (inv_init packetSize taskQueueSize hconns) hok h

/-- Without an idle timer every run is timely. -/
theorem timely_run {S : Setup Λ C σ κ δ} (hidle : S.cfg.idleTime ≤ 0) {packetSize taskQueueSize : Nat}
    {conns : C → Conn σ κ} (hconns : ∀ c, ∃ user now, conns c = newConnection S.cfg user now)
    (ls : List (Label Λ G C δ)) : Meets (step S) Timely (init packetSize taskQueueSize conns) ls := by
  refine Meets.imp (I := fun s => Inv S s) ?_ (fun s l hI _ => LifeCycle.timely_of_inv hI hidle l)
    (inv_init packetSize taskQueueSize hconns) (meets_trivial _ ls)
  intro s l t hI _ hstep
  exact hI.step (LifeCycle.timely_of_inv hI hidle l) (steps_of_step hstep)

/-- Between two tasks of its loop, the traffic of a connection consists of one packet with its hook for every Send
that has been run, in the order in which they were queued, and of the replies to each read. Nothing comes between the
bytes of one entry, and while the connection is open the kernel has all bytes but those that are still in its buffer.
A goroutine's Sends are queued in the order of its calls. -/
theorem sends_delivered (S : Setup Λ C σ κ δ) (packetSize taskQueueSize : Nat) (conns : C → Conn σ κ)
    (hconns : ∀ c, ∃ user now, conns c = newConnection S.cfg user now) (ls : List (Label Λ G C δ))
    (s : Process Λ G C σ κ δ) (hok : Meets (step S) Timely (init packetSize taskQueueSize conns) ls)
    (h : run (step S) (init packetSize taskQueueSize conns) ls = some s) (c : C) (u : Unit)
    (hd : (s.loops (S.loopOf c)).prog = .done u) :
    (∃ entries : List (Entry δ),
      (s.conn S c).history.filter traffic = entries.flatMap (Entry.acts (S.cfg.fd c)) ∧
      (∀ data finish packet, .send data finish packet ∈ entries →
        ∃ user, packet = S.cfg.protocol.packet user data) ∧
      entries.filterMap Entry.task <+: (pending s (S.loopOf c)).filterMap (sendsTo c) ∧
      (s.conn S c).accepted <+: entries.flatMap Entry.bytes ∧
      ((s.conn S c).connected = true →
        entries.filterMap Entry.task = (s.loops (S.loopOf c)).poll.executed.filterMap (sendsTo c) ∧
        (s.conn S c).accepted ++ (s.conn S c).outBuffer.data = entries.flatMap Entry.bytes)) ∧
    ∀ g, (queuedBy g c (s.loops (S.loopOf c)).poll).Sublist (ls.filterMap (calls g c)) := by
  have hI : Inv S s := inv_of_run hconns hok h
  obtain ⟨entries, hledger⟩ := (holds_of_run (ledger_lasting S c) (ledger_init packetSize hconns c) h).done hd
  obtain ⟨hpart, hall⟩ := stream_of_world (hI.world hd) c
  rw [sent_of_shown hledger.shown] at hpart hall
  have hexecuted := (TaskQueue.executed_initial (hI.queue (S.loopOf c))).filterMap (sendsTo c)
  exact ⟨⟨entries, hledger.shown, hledger.packed, hledger.begun.trans hexecuted, hpart,
    fun hconn => ⟨hledger.all hconn, hall hconn⟩⟩, fun g => queued_in_call_order h _ g c⟩

def sending : List LifeCycle.Step :=
  LifeCycle.registering ++ [.send false 1 [8] true, .go false] ++ LifeCycle.deliver false ++ LifeCycle.ops 7 true ++
    LifeCycle.runs [.endRun, .test]

theorem sends_delivered_sending : ∃ s, run (step LifeCycle.sample) LifeCycle.sampleInit sending = some s ∧
    ∃ entries : List (Entry Bytes), entries.filterMap Entry.task = [([8], true)] ∧
      (s.conn LifeCycle.sample 1).history.filter traffic = entries.flatMap (Entry.acts 5) ∧
      (s.conn LifeCycle.sample 1).accepted ++ (s.conn LifeCycle.sample 1).outBuffer.data =
        entries.flatMap Entry.bytes := by
  have hrun : ∃ s, run (step LifeCycle.sample) LifeCycle.sampleInit sending = some s ∧ (s.loops ()).prog = .done () ∧
      (s.conn LifeCycle.sample 1).connected = true ∧
      (s.loops ()).poll.executed.filterMap (sendsTo 1) = [([8], true)] := ⟨_, rfl, rfl, rfl, rfl⟩
  obtain ⟨s, hs, hd, hconn, hsends⟩ := hrun
  have hok : Meets (step LifeCycle.sample) Timely LifeCycle.sampleInit sending :=
    timely_run (Int.le_refl 0) (fun _ => ⟨(), 0, rfl⟩) sending
  obtain ⟨⟨entries, hshown, -, -, -, hall⟩, -⟩ :=
    sends_delivered LifeCycle.sample 8 4 _ (fun _ => ⟨(), 0, rfl⟩) sending s hok hs 1 () hd
  exact ⟨s, hs, entries, (hall hconn).1.trans hsends, hshown, (hall hconn).2⟩

end Gev.Server.Delivery
