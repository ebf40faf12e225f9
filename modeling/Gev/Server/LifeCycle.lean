import Gev.Server.Invariant

namespace Gev.Server.LifeCycle

open Lib.Atomic Lib.Runs Connection.State Connection.Code Connection.History Connection.Writing
open Connection.Output Connection.Tasks EventLoop Interleaving Invariant

variable {Λ G C σ κ δ : Type} [DecidableEq C]
variable {S : Setup Λ C σ κ δ} {s : Process Λ G C σ κ δ}

/-- Without an idle timer there is no early close, and so no late registration. -/
theorem timely_of_inv (hI : Inv S s) (hidle : S.cfg.idleTime ≤ 0) (l : Label Λ G C δ) : Timely s l := by
  cases l with
  | op ℓ a =>
      intro o k ho
      exact (hI.allowed ho).admitted.resolve_right (by omega)
  | accept | timer | send | close | shutdownWrite | stop | go | loop => trivial

theorem sound_of_inv (hI : Inv S s) (hidle : S.cfg.idleTime ≤ 0) (c : C) :
    (phase (S.cfg.fd c) (s.conn S c).history).Sound False := by
  have hs := hI.sound (S.loopOf c) c
  rwa [eq_false (show ¬ 0 < S.cfg.idleTime by omega)] at hs

theorem idle_elsewhere (hI : Inv S s) {ℓ : Λ} {c : C} (h : ℓ ≠ S.loopOf c) :
    ((s.loops ℓ).work.conns c).history = [] := by
  by_contra hne
  exact h (hI.accepted_of_known (hI.known hne)).1.symm

/-- Between two tasks or events a close that has begun is complete. -/
theorem closed_of_onClose (hI : Inv S s) (hidle : S.cfg.idleTime ≤ 0) {c : C} {u : Unit}
    (hd : (s.loops (S.loopOf c)).prog = .done u) (hc : .onClose ∈ (s.conn S c).history) :
    .syscall .close (S.cfg.fd c) ∈ (s.conn S c).history := by
  have hphase : phase (S.cfg.fd c) (s.conn S c).history = .new ∨ phase (S.cfg.fd c) (s.conn S c).history = .live ∨
      ∃ met, phase (S.cfg.fd c) (s.conn S c).history = .dead met := by
    rcases (hI.world hd).each c with hn | ho | hcl
    · exact .inl hn.phase
    · exact .inr (.inl ho.live)
    · exact .inr (.inr (hcl.dead.elim (fun h => ⟨true, h⟩) (fun h => ⟨false, h.1⟩)))
  rcases life_of_sound (sound_of_inv hI hidle c) with ⟨hnil, -⟩ | ⟨hnew, work, hooks, hl⟩
  · simp [hnil] at hc
  · rcases hphase with hp | hp | ⟨met, hp⟩
    · exact absurd hp hnew
    · rw [hp] at hl
      cases hl.complete (by simp [Phase.ended])
      have hbusy : .onClose ∈ work := by simpa [hl.eq, Phase.ended] using hc
      exact (hl.busy _ hbusy).elim
    · rw [hp] at hl
      simp [hl.eq, Phase.ended, ending]

/-- An echo server with one loop. The kernel gives every connection the same descriptor number. -/
def sample : Setup Unit Nat Unit Unit Bytes where
  cfg := ⟨fun _ => 5, 0, defaultProtocol, ⟨id, fun user _ data => (user, some data), id⟩, fun _ n => n⟩
  loopOf _ := ()
  growQueue _ n := n
  fuel := 2

abbrev Step := Label Unit Bool Nat Bytes

def sampleInit : Process Unit Bool Nat Unit Unit Bytes := init 8 4 fun _ => newConnection sample.cfg () 0

/-- The loop goroutine's next operations, when its system calls succeed as far as the flag says. -/
def ops (n : Nat) (ok : Bool) : List Step :=
  .replicate n (.op () ⟨0, 1, .bytes [7], if ok then .count 1 else .error .other, ok, [1]⟩)

def runs (ls : List (Machine.Label Bool (Task Nat Bytes))) : List Step := ls.map (.loop ())

/-- A goroutine carries out QueueInLoop and wakes the loop, which reads the event descriptor and swaps its queues. -/
def deliver (g : Bool) : List Step :=
  [.go g, .go g, .go g] ++ runs [.poll [.eventFd], .event, .endBatch, .setNeedWake, .swap, .runTask]

def registering : List Step :=
  runs [.enter] ++ [.accept true 1] ++ deliver true ++ ops 4 true ++ runs [.endRun, .test]

/-- A message is read and answered, OnMessage's caller sends, and the send finds the peer gone. -/
def talking : List Step :=
  registering ++ runs [.poll [.socket 5 EventRead], .event] ++ ops 9 true ++ [.send false 1 [8] true] ++ ops 11 true ++
    runs [.endBatch] ++ [.go false] ++ deliver false ++ ops 4 true ++ ops 12 false ++ runs [.endRun, .test]

/-- Stop waits while the loop runs the closing task and then the close it has queued. -/
def orderlyStop : List Step :=
  registering ++ [.stop false ()] ++ deliver false ++ ops 6 true ++ runs [.endRun, .test] ++
    runs [.poll [.eventFd], .event, .endBatch, .setNeedWake, .swap, .runTask] ++ ops 10 true ++ runs [.endRun, .test] ++
    [.go false, .go false, .go false, .go false] ++
    runs [.poll [.eventFd], .event, .endBatch, .setNeedWake, .swap, .endRun, .test] ++ [.go false]

variable [DecidableEq Λ] [DecidableEq G]

/-- The life of a connection of a server without idle timers, in every state of every run: what happens to it happens
in order, between two tasks its descriptor has been closed if OnClose was called, and only its own loop works on it. -/
theorem life_cycle (S : Setup Λ C σ κ δ) (hidle : S.cfg.idleTime ≤ 0) (packetSize taskQueueSize : Nat)
    (conns : C → Conn σ κ) (hconns : ∀ c, ∃ user now, conns c = newConnection S.cfg user now)
    (ls : List (Label Λ G C δ)) (s : Process Λ G C σ κ δ)
    (h : run (step S) (init packetSize taskQueueSize conns) ls = some s) (c : C) :
    (∀ past a future, (s.conn S c).history = past ++ a :: future → InOrder (S.cfg.fd c) past a) ∧
    (∀ u, (s.loops (S.loopOf c)).prog = .done u → .onClose ∈ (s.conn S c).history →
      .syscall .close (S.cfg.fd c) ∈ (s.conn S c).history) ∧
    ∀ ℓ, ℓ ≠ S.loopOf c → ((s.loops ℓ).work.conns c).history = [] := by
  have hI : Inv S s := run_invariant
    (fun s l t (hI : Inv S s) hstep => hI.step (timely_of_inv hI hidle l) (steps_of_step hstep))
    (inv_init packetSize taskQueueSize hconns) h
  refine ⟨?_, fun u hd hc => closed_of_onClose hI hidle hd hc, fun ℓ hℓ => idle_elsewhere hI hℓ⟩
  intro past a future hpast
  apply inOrder_of_sound future
  rw [← hpast]
  exact sound_of_inv hI hidle c

theorem life_cycle_talking : ∃ s, run (step sample) sampleInit talking = some s ∧
    (s.loops ()).prog = .done () ∧ .onClose ∈ (s.conn sample 1).history ∧
    .syscall .close 5 ∈ (s.conn sample 1).history ∧
    ∀ past a future, (s.conn sample 1).history = past ++ a :: future → InOrder 5 past a := by
  have hrun : ∃ s, run (step sample) sampleInit talking = some s ∧ (s.loops ()).prog = .done () ∧
      .onClose ∈ (s.conn sample 1).history := ⟨_, rfl, rfl, List.mem_of_getElem? (i := 18) rfl⟩
  obtain ⟨s, hs, hd, hc⟩ := hrun
  have hlife := life_cycle sample (Int.le_refl 0) 8 4 _ (fun _ => ⟨(), 0, rfl⟩) talking s hs 1
  exact ⟨s, hs, hd, hc, hlife.2.1 () hd hc, hlife.1⟩

end Gev.Server.LifeCycle
