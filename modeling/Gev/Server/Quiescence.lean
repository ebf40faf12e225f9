import Gev.Server.Delivery
import Gev.EventLoop.Wakeup

namespace Gev.Server.Quiescence

open Lib.Atomic Lib.Runs Connection.State Connection.Code Connection.History Connection.Writing Connection.Traffic
open Connection.Tasks EventLoop Interleaving Effects Between Invariant Delivery

variable {Λ G C σ κ δ : Type}

/-- No goroutine is inside a call or a handler, and every loop waits for events with its event descriptor at zero. -/
structure AtRest (s : Process Λ G C σ κ δ) : Prop where
  idle : ∀ g, s.pcs g = .idle
  done : ∀ ℓ, ∃ u, (s.loops ℓ).prog = .done u
  waiting : ∀ ℓ, (s.loops ℓ).poll.cursor = .wait
  unread : ∀ ℓ, (s.loops ℓ).poll.eventFd = 0

def isOnConnect : Act κ → Bool
  | .onConnect => true
  | _ => false

section Polling

variable [DecidableEq G] {τ : Type} [Inhabited τ]

/-- The loop goroutine is inside QueueInLoop only while it runs a handler or a task. -/
def Within (p : Machine.State G τ) : Prop := p.callers none ≠ .outside → p.cursor.handling = true

theorem within_of_step {grow : Nat → Nat → Nat} {p q : Machine.State G τ} {m : Machine.Label G τ} (hw : Within p)
    (h : Machine.step grow p m = some q) : Within q := by
  cases Machine.steps_of_step h with
  | @append g u hg hloop =>
      intro hq
      by_cases hnone : g = none
      · exact hloop hnone
      · exact hw (by simpa [Machine.State.append, Ne.symm hnone] using hq)
  | @swapped g hg _ | @notSwapped g hg _ | @wake g hg =>
      intro hq
      by_cases hnone : g = none
      · subst hnone
        exact hw (by simp [hg])
      · exact hw (by simpa [Machine.State.setCaller, Ne.symm hnone] using hq)
  | closeSet | closeWake => exact hw
  | loop hself hm =>
      intro hq
      have hsame : q.callers none = p.callers none := by cases hm <;> rfl
      exact absurd (hsame.trans hself) hq

/-- A goroutine gets inside QueueInLoop by its append. -/
theorem caller_of_step {grow : Nat → Nat → Nat} {p q : Machine.State G τ} {m : Machine.Label G τ} {g : G}
    (h : Machine.step grow p m = some q) (hp : p.callers (some g) = .outside) (hq : q.callers (some g) ≠ .outside) :
    ∃ u, m = .append (some g) u := by
  cases Machine.steps_of_step h with
  | @append g' u =>
      by_cases hg : g' = some g
      · exact ⟨u, by rw [hg]⟩
      · exact absurd hp (by simpa [Machine.State.append, Ne.symm hg] using hq)
  | @swapped g' hg' _ | @notSwapped g' hg' _ | @wake g' hg' =>
      by_cases hg : g' = some g
      · rw [hg, hp] at hg'
        cases hg'
      · exact absurd hp (by simpa [Machine.State.setCaller, Ne.symm hg] using hq)
  | closeSet | closeWake => exact absurd hp hq
  | loop _ hm => cases hm <;> exact absurd hp hq

end Polling

/-- Whoever is inside QueueInLoop is still to give its wake-up, and every accepted connection has its registration on
the way or in the queue. -/
structure Attended (S : Setup Λ C σ κ δ) (s : Process Λ G C σ κ δ) : Prop where
  wake : ∀ ℓ, Wakeup.Invariant (s.loops ℓ).poll
  within : ∀ ℓ, Within (s.loops ℓ).poll
  callers : ∀ ℓ g, (s.loops ℓ).poll.callers (some g) ≠ .outside → ∃ u, s.pcs g = .queued ℓ u
  registered : ∀ c, s.accepted c = true →
    (∃ g, s.pcs g = .queue (S.loopOf c) (.register c)) ∨ .register c ∈ pending s (S.loopOf c)

theorem attended_init (S : Setup Λ C σ κ δ) (packetSize taskQueueSize : Nat) (conns : C → Conn σ κ) :
    Attended S (init packetSize taskQueueSize conns : Process Λ G C σ κ δ) where
  wake _ := Wakeup.invariant_init taskQueueSize
  within _ h := absurd rfl h
  callers _ _ h := absurd rfl h
  registered _ h := by cases h

variable [DecidableEq C] [DecidableEq Λ] [DecidableEq G]
variable {S : Setup Λ C σ κ δ} {s t : Process Λ G C σ κ δ} {l : Label Λ G C δ}

omit [DecidableEq C] in
/-- A goroutine that stays inside QueueInLoop stays where it is. -/
theorem queued_of_go {g : G} {ℓ : Λ} {u : Task C δ} (h : go S s g = some t) (hg : s.pcs g = .queued ℓ u)
    (hcaller : (t.loops ℓ).poll.callers (some g) ≠ .outside) : t.pcs g = .queued ℓ u := by
  simp only [go, hg] at h
  have hpoll : ∀ p : Machine.State G (Task C δ), ((s.setPoll ℓ p).loops ℓ).poll = p := by
    intro p
    rw [Process.setPoll, loops_setLoop]
  split at h
  · cases h
  · obtain ⟨p, hp, rfl⟩ := Option.map_eq_some_iff.mp h
    change ((s.setPoll ℓ p).loops ℓ).poll.callers (some g) ≠ .outside at hcaller
    rw [hpoll] at hcaller
    have hwaking : p.callers (some g) = .waking := by
      cases Machine.steps_of_step hp with
      | swapped => simp [Machine.State.setCaller]
      | notSwapped => simp [Machine.State.setCaller] at hcaller
      | loop _ hm => cases hm
    simp [Process.setPc, hwaking]
  · obtain ⟨p, hp, rfl⟩ := Option.map_eq_some_iff.mp h
    change ((s.setPoll ℓ p).loops ℓ).poll.callers (some g) ≠ .outside at hcaller
    rw [hpoll] at hcaller
    cases Machine.steps_of_step hp with
    | wake => simp [Machine.State.setCaller] at hcaller
    | loop _ hm => cases hm

omit [DecidableEq C] [DecidableEq Λ] [DecidableEq G] in
theorem go_of_turns {g : G} {pc : Pc Λ C δ} (h : Turns s t g l pc) (hg : s.pcs g ≠ .idle) : l = .go g := by
  cases h with
  | start hidle => exact absurd hidle hg
  | enqueue | refuse | append | inQueue | swapCount | testRunning | refused | setRunning | wakePoller | waitDone => rfl

omit [DecidableEq C] [DecidableEq Λ] [DecidableEq G] in
/-- A goroutine that is about to queue a task does so next. -/
theorem pending_of_turns {g : G} {pc : Pc Λ C δ} {ℓ : Λ} {u : Task C δ} (h : Turns s t g l pc)
    (hg : s.pcs g = .queue ℓ u) : u ∈ pending t ℓ := by
  cases h with
  | append hq hp =>
      rw [hg] at hq
      cases hq
      exact hp
  | start hq | enqueue hq | refuse hq | inQueue hq | swapCount hq | testRunning hq | refused hq | setRunning hq
  | wakePoller hq | waitDone hq =>
      rw [hg] at hq
      cases hq

theorem Attended.step_callers (hA : Attended S s) (h : step S s l = some t) (ℓ : Λ) (g : G)
    (hcaller : (t.loops ℓ).poll.callers (some g) ≠ .outside) : ∃ u, t.pcs g = .queued ℓ u := by
  have hsteps := steps_of_step h
  by_cases hold : (s.loops ℓ).poll.callers (some g) = .outside
  · rcases poll_of_steps hsteps ℓ with hp | ⟨m, hm, hd⟩
    · exact absurd (hp ▸ hold) hcaller
    · obtain ⟨u, rfl⟩ := caller_of_step hm hold hcaller
      cases hd with
      | append hg ht => exact ⟨u, by rw [ht, Function.update_self]⟩
      | inQueue hm => rcases hm with hm | hm <;> cases hm
      | loop hc => cases hc
      | op _ hq => cases hq
  · obtain ⟨u, hg⟩ := hA.callers ℓ g hold
    by_cases hl : l = .go g
    · subst hl
      exact ⟨u, queued_of_go h hg hcaller⟩
    · rcases pcs_of_steps hsteps g with hsame | hturn
      · exact ⟨u, hsame.trans hg⟩
      · exact absurd (go_of_turns hturn (by simp [hg])) hl

theorem Attended.step_registered (hA : Attended S s) (h : Steps S s l t) (c : C) (hc : t.accepted c = true) :
    (∃ g, t.pcs g = .queue (S.loopOf c) (.register c)) ∨ .register c ∈ pending t (S.loopOf c) := by
  have hold : s.accepted c = true →
      (∃ g, t.pcs g = .queue (S.loopOf c) (.register c)) ∨ .register c ∈ pending t (S.loopOf c) := by
    intro hacc
    rcases hA.registered c hacc with ⟨g, hg⟩ | hp
    · rcases pcs_of_steps h g with hsame | hturn
      · exact .inl ⟨g, hsame.trans hg⟩
      · exact .inr (pending_of_turns hturn hg)
    · exact .inr (pending_mono h _ hp)
  cases h with
  | @accept g d =>
      by_cases hd : c = d
      · subst hd
        exact .inl ⟨g, by simp [Process.setPc]⟩
      · exact hold (by simpa [hd] using hc)
  | call | silent | stop | enqueue | refuse | append | inQueue | swapCount | testRunning | closePoller | waitDone
  | loop | op => exact hold hc

theorem Attended.step (hA : Attended S s) (h : Interleaving.step S s l = some t) : Attended S t where
  wake ℓ := by
    rcases poll_of_steps (steps_of_step h) ℓ with hp | ⟨m, hm, -⟩
    · rw [hp]
      exact hA.wake ℓ
    · exact Wakeup.step_invariant S.growQueue _ m _ (hA.wake ℓ) hm
  within ℓ := by
    rcases poll_of_steps (steps_of_step h) ℓ with hp | ⟨m, hm, -⟩
    · rw [hp]
      exact hA.within ℓ
    · exact within_of_step (hA.within ℓ) hm
  callers := hA.step_callers h
  registered := hA.step_registered (steps_of_step h)

section Announcing

variable {cfg : Config C σ κ δ} {ts : List (Task C δ)} {L : Local C σ κ δ}

def Announced (ts : List (Task C δ)) (L : Local C σ κ δ) : Prop :=
  ∀ c, .register c ∈ ts → .onConnect ∈ (L.conns c).history

omit [DecidableEq Λ] [DecidableEq G]

theorem Announced.always (h : Announced ts L) {α : Type} (p : Prog C κ δ α) :
    Always (semantics cfg) (fun _ _ => True) (fun _ => Announced ts) p L := by
  induction p generalizing L with
  | done a => exact h
  | step o k ih =>
      refine ⟨trivial, ?_⟩
      intro ch r L₁ hact
      apply ih
      intro c hc
      obtain ⟨acts, hacts, -⟩ := act_grows cfg hact c
      rw [hacts]
      exact List.mem_append_left _ (h c hc)

theorem Announced.task (h : Announced ts L) (u : Task C δ) :
    Always (semantics cfg) (fun _ _ => True) (fun _ => Announced (ts ++ [u])) (taskBody cfg u) L := by
  have hother : registers u = none → Announced (ts ++ [u]) L := by
    intro hu c hc
    rcases List.mem_append.mp hc with hc | hc
    · exact h c hc
    · cases List.mem_singleton.mp hc
      cases hu
  cases u with
  | send | close | closing => exact (hother rfl).always _
  | register d =>
      refine ⟨trivial, ?_⟩
      intro ch r L₁ hact
      cases hact
      apply Announced.always
      intro c hc
      by_cases hd : c = d
      · subst hd
        simp [Local.modify, Conn.note]
      · have hself : ((L.modify d fun x => { x.note .onConnect with user := cfg.callBack.onConnect x.user }).conns c) =
            L.conns c := Function.update_of_ne hd _ _
        rw [hself]
        exact h c (by simpa [hd] using hc)

theorem announced_lasting (S : Setup Λ C σ κ δ) : Lasting S (fun _ _ => True) (fun _ _ => True) Announced where
  event _ _ _ _ _ h := h.always _
  task _ _ u _ h := h.task u

/-- No history shows a second OnConnect. -/
theorem countP_onConnect {fd : Fd} {h : List (Act κ)} (hs : phase fd h ≠ .broken) :
    h.countP isOnConnect = if (phase fd h).met then 1 else 0 := by
  refine phase_induction (P := fun h p => h.countP isOnConnect = if p.met then 1 else 0) rfl ?_ hs
  intro h a p q hadv ih
  rw [List.countP_append, ih]
  cases hadv with
  | work ha =>
      cases a with
      | onConnect => exact ha.elim
      | onMessage | onClose | syscall | touch | put | sendInLoop | sendInLoopFinish => rfl
  | connect | leave | dismiss | onClose | close | putIn | putOut | hook | late => rfl

end Announcing

omit [DecidableEq Λ] [DecidableEq C] [DecidableEq G] in
/-- At rest the queues are empty. -/
theorem executed_of_rest (hA : Attended S s) (hrest : AtRest s) (ℓ : Λ) (hq : TaskQueue.Invariant (s.loops ℓ).poll) :
    (s.loops ℓ).poll.executed = pending s ℓ := by
  have hwait := hrest.waiting ℓ
  have hempty : (s.loops ℓ).poll.taskQueueW.len = 0 := by
    by_contra hne
    rcases (hA.wake ℓ).queue (Nat.pos_of_ne_zero hne) with hfd | ⟨g, hg⟩ | hcur
    · rw [hrest.unread ℓ] at hfd
      cases hfd
    · cases g with
      | none =>
          have hhandling := hA.within ℓ hg
          rw [hwait] at hhandling
          cases hhandling
      | some g =>
          obtain ⟨u, hu⟩ := hA.callers ℓ g hg
          rw [hrest.idle g] at hu
          cases hu
    · rw [hwait] at hcur
      exact hcur
  have hbatch : TaskQueue.batch (s.loops ℓ).poll = [] := TaskQueue.batch_eq_nil (by simp [hwait])
  have hqueued : TaskQueue.queued (s.loops ℓ).poll = [] := by
    rw [TaskQueue.queued, ← List.length_eq_zero_iff, Lib.Slices.length_contents hq.validW, hempty]
  rw [pending, ← hq.order, hbatch, hqueued, List.append_nil, List.append_nil]

/-- When a server has come to rest, no work has been lost on the way: every queued task has been run, every accepted
connection has been announced exactly once, and for an open connection all that was sent is with the kernel or waits in
its buffer, in which case the loop waits for the socket to become writable. -/
theorem at_rest_all_done (S : Setup Λ C σ κ δ) (packetSize taskQueueSize : Nat) (conns : C → Conn σ κ)
    (hconns : ∀ c, ∃ user now, conns c = newConnection S.cfg user now) (ls : List (Label Λ G C δ))
    (s : Process Λ G C σ κ δ) (hok : Meets (step S) Timely (init packetSize taskQueueSize conns) ls)
    (h : run (step S) (init packetSize taskQueueSize conns) ls = some s) (hrest : AtRest s) :
    (∀ ℓ, (s.loops ℓ).poll.executed = pending s ℓ) ∧
    (∀ c, s.accepted c = true → (s.conn S c).history.countP isOnConnect = 1) ∧
    ∀ c, s.accepted c = true → (s.conn S c).connected = true →
      (∃ entries : List (Entry δ),
        (s.conn S c).history.filter traffic = entries.flatMap (Entry.acts (S.cfg.fd c)) ∧
        entries.filterMap Entry.task = (pending s (S.loopOf c)).filterMap (sendsTo c) ∧
        (s.conn S c).accepted ++ (s.conn S c).outBuffer.data = entries.flatMap Entry.bytes) ∧
      (EpollOk (s.conn S c) → (s.loops (S.loopOf c)).work.interest (S.cfg.fd c) =
        some (interestFor (s.conn S c).outBuffer.data)) := by
  have hI : Inv S s := inv_of_run hconns hok h
  have hA : Attended S s := run_invariant (fun _ _ _ hA hstep => hA.step hstep)
    (attended_init S packetSize taskQueueSize conns) h
  have hexecuted : ∀ ℓ, (s.loops ℓ).poll.executed = pending s ℓ :=
    fun ℓ => executed_of_rest hA hrest ℓ (hI.queue ℓ)
  have hannounced : ∀ c, s.accepted c = true → .onConnect ∈ (s.conn S c).history := by
    intro c hc
    obtain ⟨u, hd⟩ := hrest.done (S.loopOf c)
    have hann := (holds_of_run (announced_lasting S) (fun _ hc => by cases hc) h).done hd
    rcases hA.registered c hc with ⟨g, hg⟩ | hp
    · rw [hrest.idle g] at hg
      cases hg
    · exact hann c (hexecuted (S.loopOf c) ▸ hp)
  refine ⟨hexecuted, ?_, ?_⟩
  · intro c hc
    have hsound := (hI.sound (S.loopOf c) c).ne_broken
    have hcount := countP_onConnect hsound
    rwa [if_pos ((met_iff hsound).mpr (hannounced c hc))] at hcount
  · intro c hc hconn
    obtain ⟨u, hd⟩ := hrest.done (S.loopOf c)
    have hw := hI.world hd
    obtain ⟨entries, hledger⟩ := (holds_of_run (ledger_lasting S c) (ledger_init packetSize hconns c) h).done hd
    have hstream := (stream_of_world hw c).2 hconn
    rw [sent_of_shown hledger.shown] at hstream
    refine ⟨⟨entries, hledger.shown, hexecuted (S.loopOf c) ▸ hledger.all hconn, hstream⟩, ?_⟩
    intro hepoll
    rcases hw.each c with hn | ⟨out, accepted, hf⟩ | hcl
    · have hmet := hannounced c hc
      rw [Process.conn, hn.history] at hmet
      cases hmet
    · rw [Process.conn, hf.out]
      exact hf.interest hepoll
    · rw [Process.conn, hcl.connected] at hconn
      cases hconn

theorem at_rest_all_done_sending : ∃ s, run (step LifeCycle.sample) LifeCycle.sampleInit sending = some s ∧
    AtRest s ∧ (s.conn LifeCycle.sample 1).connected = true ∧ (s.loops ()).poll.executed = pending s () ∧
    (s.conn LifeCycle.sample 1).history.countP isOnConnect = 1 ∧
    ((s.conn LifeCycle.sample 1).accepted ++ (s.conn LifeCycle.sample 1).outBuffer.data).length = 1 := by
  have hrun : ∃ s, run (step LifeCycle.sample) LifeCycle.sampleInit sending = some s ∧ AtRest s ∧
      s.accepted 1 = true ∧ (s.conn LifeCycle.sample 1).connected = true ∧
      ((s.conn LifeCycle.sample 1).accepted ++ (s.conn LifeCycle.sample 1).outBuffer.data).length = 1 := by
    refine ⟨_, rfl, ⟨?_, fun _ => ⟨(), rfl⟩, fun _ => rfl, fun _ => rfl⟩, rfl, rfl, rfl⟩
    intro g
    cases g <;> rfl
  obtain ⟨s, hs, hrest, hacc, hconn, hlength⟩ := hrun
  obtain ⟨hexecuted, hcount, -⟩ := at_rest_all_done LifeCycle.sample 8 4 _ (fun _ => ⟨(), 0, rfl⟩) sending s
    (timely_run (Int.le_refl 0) (fun _ => ⟨(), 0, rfl⟩) sending) hs hrest
  exact ⟨s, hs, hrest, hconn, hexecuted (), hcount 1 hacc, hlength⟩

end Gev.Server.Quiescence
