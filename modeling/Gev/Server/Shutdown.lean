import Gev.Server.LifeCycle

namespace Gev.Server.Shutdown

open Lib.Atomic Lib.Runs Connection.State Connection.Code Connection.History Connection.Writing
open Connection.Tasks EventLoop Interleaving Effects Invariant LifeCycle

variable {Λ G C σ κ δ : Type}

section Definitions

variable (S : Setup Λ C σ κ δ) (s : Process Λ G C σ κ δ)

/-- A task that must not be left behind: the closing task, or the close of a connection that is still open. -/
def needed (L : Local C σ κ δ) : Task C δ → Bool
  | .closing => true
  | .close c => (L.conns c).connected
  | _ => false

/-- When Poll returns, no such task waits in the queue. -/
def Drained : Label Λ G C δ → Prop
  | .loop ℓ .test => (s.loops ℓ).poll.running = false →
      ∀ u ∈ TaskQueue.queued (s.loops ℓ).poll, needed (s.loops ℓ).work u = false
  | _ => True

structure Halting : Prop where
  posted : ∀ ℓ, ∀ u ∈ (s.loops ℓ).work.posted, u ∈ pending s ℓ
  begun : ∀ g ℓ, begun (s.pcs g) = some ℓ → .closing ∈ pending s ℓ
  running : ∀ ℓ, (s.loops ℓ).poll.running = false → (s.loops ℓ).poll.cursor = .start ∨ .closing ∈ pending s ℓ
  exited : ∀ ℓ, (s.loops ℓ).poll.cursor = .exited → (∃ u, (s.loops ℓ).prog = .done u) ∧
    ∀ c, Registered S.cfg c (s.loops ℓ).work → phaseOf S.cfg c (s.loops ℓ).work = .dead true
  stopped : ∀ ℓ, s.stopped ℓ = true → (s.loops ℓ).poll.cursor = .exited

end Definitions

variable [DecidableEq C] {S : Setup Λ C σ κ δ} {s t : Process Λ G C σ κ δ} {l : Label Λ G C δ}

/-- At its exit a loop that leaves nothing behind has closed every connection that was registered in it. -/
theorem dead_of_exit (hI : Inv S s) (hH : Halting S s) {ℓ : Λ} {u : Unit} (hd : (s.loops ℓ).prog = .done u)
    (hcur : (s.loops ℓ).poll.cursor = .test) (hrun : (s.loops ℓ).poll.running = false)
    (hdrained : Drained s (.loop ℓ .test)) {c : C} (hreg : Registered S.cfg c (s.loops ℓ).work) :
    phaseOf S.cfg c (s.loops ℓ).work = .dead true := by
  have hleft := hdrained hrun
  have hw := hI.world hd
  have hmem : ∀ v, v ∈ pending s ℓ → v ∈ (s.loops ℓ).poll.executed ∨ v ∈ TaskQueue.queued (s.loops ℓ).poll := by
    intro v hv
    have hbatch : TaskQueue.batch (s.loops ℓ).poll = [] := TaskQueue.batch_eq_nil (by simp [hcur])
    simpa [hbatch] using (TaskQueue.mem_tasks (hI.queue ℓ)).mp hv
  have hpending : .closing ∈ pending s ℓ := (hH.running ℓ hrun).resolve_left (by simp [hcur])
  have hnone := hw.stopped ((hmem _ hpending).resolve_right (fun hq => by cases hleft _ hq))
  rcases hw.each c with hn | ⟨out, accepted, hf⟩ | hc
  · rw [Registered, hn.history] at hreg
    cases hreg
  · -- An open connection's close has been queued by the closing task, and can neither have run nor be waiting.
    have hconn := hf.connected
    rcases hmem _ (hH.posted ℓ _ (hf.posted hreg hnone)) with hex | hq
    · rw [(hw.ended c hex).connected] at hconn
      cases hconn
    · rw [show ((s.loops ℓ).work.conns c).connected = false from hleft _ hq] at hconn
      cases hconn
  · rcases hc.dead with hdead | ⟨hdead, -⟩
    · exact hdead
    · have hmet := met_of_registered (hw.sound c).ne_broken hreg
      rw [show phase (S.cfg.fd c) ((s.loops ℓ).work.conns c).history = _ from hdead] at hmet
      cases hmet

variable [DecidableEq Λ] [DecidableEq G]

theorem Halting.step_posted (hH : Halting S s) (h : Steps S s l t) (ℓ : Λ) :
    ∀ u ∈ (t.loops ℓ).work.posted, u ∈ pending t ℓ := by
  have hold : ∀ u ∈ (s.loops ℓ).work.posted, u ∈ pending t ℓ := fun u hu => pending_mono h ℓ (hH.posted ℓ u hu)
  rcases loop_of_steps h ℓ with ⟨hw, -, -⟩ | ⟨m, v, -, -, -, hw, -⟩ | ⟨a, o, k, r, -, -, hact, -, hp⟩
  · rwa [hw]
  · rwa [hw]
  · intro u hu
    rcases act_posted S.cfg hact with hpost | ⟨v, rfl, hpost⟩
    · exact hold u (hpost ▸ hu)
    · rw [hpost, List.mem_append, List.mem_singleton] at hu
      rcases hu with hu | rfl
      · exact hold u hu
      · rw [pending, (TaskQueue.tasks_of_append hp).1]
        exact List.mem_append_right _ (List.mem_singleton_self u)

theorem Halting.step_begun (hH : Halting S s) (h : Steps S s l t) (g : G) (ℓ : Λ)
    (hg : Effects.begun (t.pcs g) = some ℓ) :
    .closing ∈ pending t ℓ := by
  rcases pcs_of_steps h g with hsame | hturn
  · rw [hsame] at hg
    exact pending_mono h ℓ (hH.begun g ℓ hg)
  · rcases begun_of_turns hturn hg with hb | hp
    · exact pending_mono h ℓ (hH.begun g ℓ hb)
    · exact hp

theorem Halting.step_running (hH : Halting S s) (h : Steps S s l t) (ℓ : Λ) (hr : (t.loops ℓ).poll.running = false) :
    (t.loops ℓ).poll.cursor = .start ∨ .closing ∈ pending t ℓ := by
  rcases poll_of_steps h ℓ with hp | ⟨m, hm, hdrives⟩
  · rw [hp] at hr ⊢
    exact (hH.running ℓ hr).imp id (fun hc => pending_mono h ℓ hc)
  · rcases Machine.running_of_step hm hr with rfl | ⟨hrs, hstart⟩
    · right
      apply pending_mono h ℓ
      cases hdrives with
      | setRunning hg => exact hH.begun _ ℓ (by rw [hg]; rfl)
      | inQueue hq => rcases hq with hq | hq <;> cases hq
      | loop hc => cases hc
      | op _ hq => cases hq
    · exact (hH.running ℓ hrs).imp hstart (fun hc => pending_mono h ℓ hc)

/-- Once Poll has returned, nobody works for the loop any more. -/
theorem Halting.step_exited (hI : Inv S s) (hH : Halting S s) (hl : Drained s l) (h : Steps S s l t) (ℓ : Λ)
    (hx : (t.loops ℓ).poll.cursor = .exited) : (∃ u, (t.loops ℓ).prog = .done u) ∧
      ∀ c, Registered S.cfg c (t.loops ℓ).work → phaseOf S.cfg c (t.loops ℓ).work = .dead true := by
  have hdone : (s.loops ℓ).poll.cursor = .exited ∨
      l = .loop ℓ .test ∧ (s.loops ℓ).poll.cursor = .test ∧ (s.loops ℓ).poll.running = false := by
    rcases poll_of_steps h ℓ with hp | ⟨m, hm, hdrives⟩
    · exact .inl (hp ▸ hx)
    · rcases Machine.exited_of_step hm hx with hs | ⟨rfl, hcur, hrun⟩
      · exact .inl hs
      · right
        cases hdrives with
        | loop => exact ⟨rfl, hcur, hrun⟩
        | inQueue hq => rcases hq with hq | hq <;> cases hq
        | op _ hq => cases hq
  rcases hdone with hs | ⟨rfl, hcur, hrun⟩
  · obtain ⟨⟨u, hd⟩, hdead⟩ := hH.exited ℓ hs
    rcases loop_of_steps h ℓ with ⟨hw, hp, -⟩ | ⟨m, v, -, hc, hm, -, -⟩ | ⟨a, o, k, r, -, ho, -, -, -⟩
    · rw [hw, hp]
      exact ⟨⟨u, hd⟩, hdead⟩
    · generalize (t.loops ℓ).poll = p at hm
      cases Machine.steps_of_step hm with
      | append | swapped | notSwapped | wake | closeSet | closeWake => cases hc
      | loop _ hmoves => exact absurd hmoves (Machine.no_moves_exited hs)
    · rw [hd] at ho
      cases ho
  · cases h with
    | call | silent =>
        rw [show (s.loops ℓ).poll.cursor = .exited from hx] at hcur
        cases hcur
    | loop hd =>
        rw [loops_setLoop]
        exact ⟨⟨(), rfl⟩, fun c hreg => dead_of_exit hI hH hd hcur hrun hl hreg⟩

theorem Halting.step_stopped (hH : Halting S s) (h : Steps S s l t) (ℓ : Λ) (hs : t.stopped ℓ = true) :
    (t.loops ℓ).poll.cursor = .exited := by
  have hold : s.stopped ℓ = true → (t.loops ℓ).poll.cursor = .exited := by
    intro hs
    have hx := hH.stopped ℓ hs
    rcases poll_of_steps h ℓ with hp | ⟨m, hm, -⟩
    · rwa [hp]
    · exact Machine.stays_exited hm hx
  cases h with
  | @waitDone g m hg hx =>
      by_cases hm : ℓ = m
      · subst hm
        exact hx
      · exact hold (by simpa [hm] using hs)
  | accept | call | silent | stop | enqueue | refuse | append | inQueue | swapCount | testRunning | closePoller
  | loop | op => exact hold hs

theorem Halting.step (hI : Inv S s) (hH : Halting S s) (hl : Drained s l) (h : Steps S s l t) : Halting S t where
  posted := hH.step_posted h
  begun := hH.step_begun h
  running := hH.step_running h
  exited := step_exited hI hH hl h
  stopped := hH.step_stopped h

omit [DecidableEq Λ] [DecidableEq G] [DecidableEq C] in
theorem halting_init (packetSize taskQueueSize : Nat) (conns : C → Conn σ κ) :
    Halting S (init packetSize taskQueueSize conns : Process Λ G C σ κ δ) where
  posted _ u hu := by cases hu
  begun _ _ hg := by cases hg
  running _ _ := .inl rfl
  exited _ hx := by cases hx
  stopped _ hs := by cases hs

instance (s : Process Λ G C σ κ δ) (l : Label Λ G C δ) : Decidable (Timely s l) :=
  match l with
  | .op ℓ _ => match hp : (s.loops ℓ).prog with
    | .done _ => .isTrue fun o k ho => by rw [hp] at ho; cases ho
    | .step o _ => decidable_of_iff (admissible o (s.loops ℓ).work = true) ⟨fun h o' k ho => by
        rw [hp] at ho
        cases ho
        exact h, fun h => h o _ hp⟩
  | .accept .. | .timer .. | .send .. | .close .. | .shutdownWrite .. | .stop .. | .go .. | .loop .. => .isTrue trivial

instance (s : Process Λ G C σ κ δ) (l : Label Λ G C δ) : Decidable (Drained s l) :=
  match l with
  | .loop ℓ m => match m with
    | .test => inferInstanceAs (Decidable ((s.loops ℓ).poll.running = false →
        ∀ u ∈ TaskQueue.queued (s.loops ℓ).poll, needed (s.loops ℓ).work u = false))
    | .append .. | .compareAndSwap .. | .wake .. | .closeSet | .closeWake | .enter | .poll .. | .event | .endBatch
    | .setNeedWake | .swap | .runTask | .endRun => .isTrue trivial
  | .accept .. | .timer .. | .send .. | .close .. | .shutdownWrite .. | .stop .. | .go .. | .op .. => .isTrue trivial

/-- In every run in which no registration comes after its connection's close and every Poll that returns leaves neither
the closing task nor a close of an open connection behind, a Stop that has returned nil has had handleClose run for
every connection that was registered in its loop. -/
theorem graceful_stop (S : Setup Λ C σ κ δ) (packetSize taskQueueSize : Nat) (conns : C → Conn σ κ)
    (hconns : ∀ c, ∃ user now, conns c = newConnection S.cfg user now) (ls : List (Label Λ G C δ))
    (s : Process Λ G C σ κ δ)
    (hok : Meets (step S) (fun s l => Timely s l ∧ Drained s l) (init packetSize taskQueueSize conns) ls)
    (h : run (step S) (init packetSize taskQueueSize conns) ls = some s) (c : C)
    (hstop : s.stopped (S.loopOf c) = true)
    (hreg : .syscall (.epollCtl .add true) (S.cfg.fd c) ∈ (s.conn S c).history) :
    (s.conn S c).history.countP isOnClose = 1 ∧ .syscall .close (S.cfg.fd c) ∈ (s.conn S c).history := by
  have hinv : Inv S s ∧ Halting S s := by
    refine run_invariant_meets (I := fun s => Inv S s ∧ Halting S s) ?_
      ⟨inv_init packetSize taskQueueSize hconns, halting_init packetSize taskQueueSize conns⟩ hok h
    rintro s l t ⟨hI, hH⟩ ⟨htimely, hdrained⟩ hstep
    have hsteps := steps_of_step hstep
    exact ⟨hI.step htimely hsteps, Halting.step hI hH hdrained hsteps⟩
  exact closed_once_of_dead ((hinv.2.exited _ (hinv.2.stopped _ hstop)).2 c hreg)

theorem graceful_stop_orderly : ∃ s, run (step sample) sampleInit orderlyStop = some s ∧ s.stopped () = true ∧
    .syscall (.epollCtl .add true) 5 ∈ (s.conn sample 1).history ∧
    (s.conn sample 1).history.countP isOnClose = 1 ∧ .syscall .close 5 ∈ (s.conn sample 1).history := by
  have hrun : ∃ s, run (step sample) sampleInit orderlyStop = some s ∧ s.stopped () = true ∧
      .syscall (.epollCtl .add true) 5 ∈ (s.conn sample 1).history :=
    ⟨_, rfl, rfl, List.mem_of_getElem? (i := 1) rfl⟩
  obtain ⟨s, hs, hstop, hreg⟩ := hrun
  have hok : Meets (step sample) (fun s l => Timely s l ∧ Drained s l) sampleInit orderlyStop := meets_of_check rfl
  exact ⟨s, hs, hstop, hreg,
    graceful_stop sample 8 4 _ (fun _ => ⟨(), 0, rfl⟩) orderlyStop s hok hs 1 hstop hreg⟩

/-- Stop goes through before the loop gets to its tasks, which then finds running false behind the closing task. -/
def overtaking : List Step :=
  registering ++ [.stop false ()] ++ [.go false, .go false, .go false] ++
    [.go false, .go false, .go false, .go false] ++
    runs [.poll [.eventFd], .event, .endBatch, .setNeedWake, .swap, .runTask] ++ ops 6 true ++ runs [.endRun, .test] ++
    [.go false]

theorem stop_leaves_open : ∃ s, run (step sample) sampleInit overtaking = some s ∧ s.stopped () = true ∧
    .syscall (.epollCtl .add true) 5 ∈ (s.conn sample 1).history ∧
    (s.conn sample 1).history.countP isOnClose = 0 ∧ (s.conn sample 1).connected = true :=
  ⟨_, rfl, rfl, List.mem_of_getElem? (i := 1) rfl, rfl, rfl⟩

end Gev.Server.Shutdown
