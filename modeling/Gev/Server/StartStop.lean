import Gev.Server.Interleaving

namespace Gev.Server.StartStop

open Lib.Runs EventLoop

variable {n : Nat} {G τ : Type}

/-- The event loops of a server: none is the listener's, the others are the work loops. -/
abbrev LoopId (n : Nat) := Option (Fin n)

/-- The statements of Start: the goroutines are spawned one after the other, the listener's as the last. -/
inductive StartPc (n : Nat)
  | spawn (k : Nat)
  | setRunning
  | wait

inductive Stage
  | queue
  | queued
  | testRunning
  | setRunning
  | wake
  | waitDone

/-- The statements of Stop: at a stage of the Stop of one loop, with the loops that come after it. -/
inductive StopPc (n : Nat)
  | test
  | refused
  | setRunning
  | stopLoop (stage : Stage) (ℓ : LoopId n) (rest : List (LoopId n))
  | returned

structure Process (n : Nat) (G τ : Type) where
  polls : LoopId n → Machine.State G τ
  spawned : LoopId n → Bool
  running : Bool
  start : StartPc n
  stop : StopPc n

/-- The steps: of Start, of Stop (with the result of Wake, where it is called), and of a loop's own goroutine or of
other goroutines that queue tasks in the loop. -/
inductive Label (n : Nat) (G τ : Type)
  | start
  | stop (ok : Bool)
  | poll (ℓ : LoopId n) (l : Machine.Label G τ)

structure Setup (G τ : Type) where
  grow : Nat → Nat → Nat
  stopper : G
  closing : τ

variable [Inhabited τ]

def init (taskQueueSize : Nat) : Process n G τ where
  polls := fun _ => Machine.init taskQueueSize
  spawned := fun _ => false
  running := false
  start := .spawn 0
  stop := .test

def nextLoop : List (LoopId n) → StopPc n
  | [] => .returned
  | ℓ :: rest => .stopLoop .queue ℓ rest

def allLoops (n : Nat) : List (LoopId n) := none :: (List.finRange n).map some

def Process.setPoll (s : Process n G τ) (ℓ : LoopId n) (p : Machine.State G τ) : Process n G τ :=
  { s with polls := Function.update s.polls ℓ p }

variable [DecidableEq G] (S : Setup G τ)

/-- A loop's goroutine enters Poll once it is spawned, and only Stop closes pollers. -/
def allowed (s : Process n G τ) (ℓ : LoopId n) : Machine.Label G τ → Bool
  | .enter => s.spawned ℓ
  | .append g _ | .compareAndSwap g | .wake g => g ≠ some S.stopper
  | .closeSet | .closeWake => false
  | _ => true

def startStep (s : Process n G τ) : Option (Process n G τ) := match s.start with
  | .spawn k =>
      if h : k < n then
        some { s with spawned := Function.update s.spawned (some ⟨k, h⟩) true, start := .spawn (k + 1) }
      else some { s with spawned := Function.update s.spawned none true, start := .setRunning }
  | .setRunning => some { s with running := true, start := .wait }
  | .wait => none

def stopStep (s : Process n G τ) (ok : Bool) : Option (Process n G τ) := match s.stop with
  | .test => some { s with stop := if s.running then .setRunning else .refused }
  | .refused | .returned => none
  | .setRunning => some { s with running := false, stop := nextLoop (allLoops n) }
  | .stopLoop .queue ℓ rest =>
      (Machine.step S.grow (s.polls ℓ) (.append (some S.stopper) S.closing)).map fun p =>
        { s.setPoll ℓ p with stop := .stopLoop .queued ℓ rest }
  | .stopLoop .queued ℓ rest => match (s.polls ℓ).callers (some S.stopper) with
    | .outside => some { s with stop := .stopLoop .testRunning ℓ rest }
    | .appended =>
        (Machine.step S.grow (s.polls ℓ) (.compareAndSwap (some S.stopper))).map fun p => s.setPoll ℓ p
    | .waking => (Machine.step S.grow (s.polls ℓ) (.wake (some S.stopper))).map fun p => s.setPoll ℓ p
  | .stopLoop .testRunning ℓ rest =>
      -- ErrClosed is only logged.
      some { s with stop := if (s.polls ℓ).running then .stopLoop .setRunning ℓ rest else nextLoop rest }
  | .stopLoop .setRunning ℓ rest =>
      (Machine.step S.grow (s.polls ℓ) .closeSet).map fun p => { s.setPoll ℓ p with stop := .stopLoop .wake ℓ rest }
  | .stopLoop .wake ℓ rest =>
      if ok then
        (Machine.step S.grow (s.polls ℓ) .closeWake).map fun p =>
          { s.setPoll ℓ p with stop := .stopLoop .waitDone ℓ rest }
      else some { s with stop := nextLoop rest }
  | .stopLoop .waitDone ℓ rest =>
      if (s.polls ℓ).cursor = .exited then some { s with stop := nextLoop rest } else none

def step (s : Process n G τ) : Label n G τ → Option (Process n G τ)
  | .start => startStep s
  | .stop ok => stopStep S s ok
  | .poll ℓ l =>
      if allowed S s ℓ l then (Machine.step S.grow (s.polls ℓ) l).map fun p => s.setPoll ℓ p else none

/-- Stop finds every loop in its Poll, and can wake it. -/
def Entered (s : Process n G τ) : Label n G τ → Prop
  | .stop ok => match s.stop with
    | .stopLoop .testRunning ℓ _ => (s.polls ℓ).running = true
    | .stopLoop .wake _ _ => ok = true
    | _ => True
  | _ => True

def remaining : StopPc n → Option (List (LoopId n))
  | .test | .refused | .setRunning => none
  | .stopLoop _ ℓ rest => some (ℓ :: rest)
  | .returned => some []

def Stopped (s : Process n G τ) : Prop :=
  ∀ rest, remaining s.stop = some rest → ∀ ℓ, ℓ ∉ rest → (s.polls ℓ).cursor = .exited

variable {S} {s t : Process n G τ} {l : Label n G τ}

theorem exited_setPoll {m ℓ : LoopId n} {k : Machine.Label G τ} {p : Machine.State G τ}
    (hp : Machine.step S.grow (s.polls ℓ) k = some p) (hm : (s.polls m).cursor = .exited) :
    ((s.setPoll ℓ p).polls m).cursor = .exited := by
  by_cases h : m = ℓ
  · subst h
    simpa [Process.setPoll] using Machine.stays_exited hp hm
  · simpa [Process.setPoll, h] using hm

omit [Inhabited τ] [DecidableEq G] in
theorem remaining_nextLoop (rest : List (LoopId n)) : remaining (nextLoop rest) = some rest := by
  cases rest <;> rfl

omit [Inhabited τ] [DecidableEq G] in
theorem mem_allLoops (ℓ : LoopId n) : ℓ ∈ allLoops n := by
  cases ℓ with
  | none => exact List.mem_cons_self
  | some i => simp [allLoops]

/-- What a step of Stop does: one step of the poller of the loop it is at, or on to the next loop. -/
inductive Stops (S : Setup G τ) (s : Process n G τ) : Process n G τ → Prop
  | poller {ℓ : LoopId n} {k : Machine.Label G τ} {p : Machine.State G τ} {stop : StopPc n}
      (hp : Machine.step S.grow (s.polls ℓ) k = some p) (hr : remaining stop = remaining s.stop) :
      Stops S s { s.setPoll ℓ p with stop := stop }
  | stay {stop : StopPc n} (hr : remaining stop = remaining s.stop) : Stops S s { s with stop := stop }
  | begin : Stops S s { s with running := false, stop := nextLoop (allLoops n) }
  | next {ℓ : LoopId n} {rest : List (LoopId n)} (hr : remaining s.stop = some (ℓ :: rest))
      (hx : (s.polls ℓ).cursor = .exited) : Stops S s { s with stop := nextLoop rest }

theorem stops_of_stopStep {ok : Bool} (hok : Entered s (.stop ok)) (h : stopStep S s ok = some t) : Stops S s t := by
  unfold stopStep at h
  split at h
  case h_1 hs =>
    cases h
    apply Stops.stay
    rw [hs]
    split <;> rfl
  case h_2 | h_3 => cases h
  case h_4 =>
    cases h
    exact .begin
  case h_5 ℓ rest hs =>
    obtain ⟨p, hp, rfl⟩ := Option.map_eq_some_iff.mp h
    exact .poller hp (by rw [hs]; rfl)
  case h_6 ℓ rest hs =>
    split at h
    · cases h
      exact .stay (by rw [hs]; rfl)
    all_goals
      obtain ⟨p, hp, rfl⟩ := Option.map_eq_some_iff.mp h
      exact .poller hp (Eq.refl (remaining s.stop))
  case h_7 ℓ rest hs =>
    have hrun : (s.polls ℓ).running = true := by simpa [Entered, hs] using hok
    rw [if_pos hrun] at h
    cases h
    exact .stay (by rw [hs]; rfl)
  case h_8 ℓ rest hs =>
    obtain ⟨p, hp, rfl⟩ := Option.map_eq_some_iff.mp h
    exact .poller hp (by rw [hs]; rfl)
  case h_9 ℓ rest hs =>
    have htrue : ok = true := by simpa [Entered, hs] using hok
    rw [if_pos htrue] at h
    obtain ⟨p, hp, rfl⟩ := Option.map_eq_some_iff.mp h
    exact .poller hp (by rw [hs]; rfl)
  case h_10 ℓ rest hs =>
    split at h <;> cases h
    exact .next (by rw [hs]; rfl) ‹_›

theorem Stopped.step (hs : Stopped s) (hok : Entered s l) (h : StartStop.step S s l = some t) : Stopped t := by
  cases l with
  | start =>
      simp only [StartStop.step, startStep] at h
      split at h <;> try cases h
      · split at h <;> cases h <;> exact hs
      · exact hs
  | poll ℓ k =>
      simp only [StartStop.step] at h
      split at h <;> try cases h
      obtain ⟨p, hp, rfl⟩ := Option.map_eq_some_iff.mp h
      exact fun rest hrest m hm => exited_setPoll hp (hs rest hrest m hm)
  | stop ok =>
      intro rest hrest m hm
      cases stops_of_stopStep hok h with
      | poller hp hr =>
          rw [hr] at hrest
          exact exited_setPoll hp (hs rest hrest m hm)
      | stay hr =>
          rw [hr] at hrest
          exact hs rest hrest m hm
      | begin =>
          rw [remaining_nextLoop] at hrest
          cases hrest
          exact absurd (mem_allLoops m) hm
      | @next ℓ rest' hr hx =>
          rw [remaining_nextLoop] at hrest
          cases hrest
          by_cases hmℓ : m = ℓ
          · rwa [hmℓ]
          · exact hs _ hr m (by simp [hmℓ, hm])

/-- The Stop of a loop that has not entered Poll: its closing function is queued for no one, and Close gives up. -/
theorem stop_unrun {ℓ : LoopId n} {rest : List (LoopId n)} (hs : s.stop = .stopLoop .queue ℓ rest)
    (hrun : (s.polls ℓ).running = false) (hout : (s.polls ℓ).callers (some S.stopper) = .outside)
    (hinv : TaskQueue.Invariant (s.polls ℓ)) :
    ∃ ks p, run (stopStep S) s ks = some { s.setPoll ℓ p with stop := nextLoop rest } ∧ TaskQueue.Invariant p ∧
      p.running = false ∧ p.needWake = false ∧
      TaskQueue.queued p = TaskQueue.queued (s.polls ℓ) ++ [S.closing] := by
  have hqueued : TaskQueue.queued ((s.polls ℓ).append S.grow (some S.stopper) S.closing) =
      TaskQueue.queued (s.polls ℓ) ++ [S.closing] := Lib.Slices.contents_append S.grow default hinv.validW [S.closing]
  have happend := TaskQueue.append_invariant S.grow hinv (some S.stopper) S.closing
  generalize hm : (s.polls ℓ).append S.grow (some S.stopper) S.closing = m at hqueued happend
  have hcaller : m.callers (some S.stopper) = .appended := by simp [← hm, Machine.State.append]
  have hsame : m.running = false ∧ m.needWake = (s.polls ℓ).needWake := by simp [← hm, Machine.State.append, hrun]
  have hfirst : stopStep S s true = some { s.setPoll ℓ m with stop := .stopLoop .queued ℓ rest } := by
    simp [stopStep, hs, Machine.step, hout, hm]
  cases hn : (s.polls ℓ).needWake with
  | true =>
      refine ⟨List.replicate 5 true, { (m.setCaller (some S.stopper) .waking).setCaller (some S.stopper) .outside with
        needWake := false, eventFd := m.eventFd + 1 }, ?_, ?_, hsame.1, rfl, hqueued⟩
      · rw [List.replicate, run, hfirst]
        simp [List.replicate, run, stopStep, Process.setPoll, Machine.step, hcaller, hsame, hn,
          Machine.State.setCaller]
      · exact ⟨happend.validW, happend.validR, happend.apart, happend.spare, happend.bound, happend.order⟩
  | false =>
      refine ⟨List.replicate 4 true, m.setCaller (some S.stopper) .outside, ?_, ?_, hsame.1, hsame.2.trans hn, hqueued⟩
      · rw [List.replicate, run, hfirst]
        simp [List.replicate, run, stopStep, Process.setPoll, Machine.step, hcaller, hsame, hn,
          Machine.State.setCaller]
      · exact ⟨happend.validW, happend.validR, happend.apart, happend.spare, happend.bound, happend.order⟩

section Interleaving

open Connection.State
open Interleaving (Pc)

variable {Λ C σ κ δ : Type} [DecidableEq Λ]

def stopping (grow : Nat → Nat → Nat) (g : G) : Setup G (Task C δ) := ⟨grow, g, .closing⟩

/-- Where the Stop of one loop is, in the terms of a running server. -/
def stopPc (ℓ : LoopId n) (rest : List (LoopId n)) : Pc Λ C δ → StopPc n
  | .queue _ _ => .stopLoop .queue ℓ rest
  | .queued _ _ | .swapCount _ => .stopLoop .queued ℓ rest
  | .testRunning _ => .stopLoop .testRunning ℓ rest
  | .setRunning _ => .stopLoop .setRunning ℓ rest
  | .wakePoller _ => .stopLoop .wake ℓ rest
  | .waitDone _ => .stopLoop .waitDone ℓ rest
  | .idle | .check _ _ => nextLoop rest

/-- The goroutine is in the Stop of the given loop. -/
def InStop (ℓ : Λ) (pc : Pc Λ C δ) : Prop :=
  pc = .queue ℓ .closing ∨ pc = .queued ℓ .closing ∨ pc = .swapCount ℓ ∨ pc = .testRunning ℓ ∨ pc = .setRunning ℓ ∨
    pc = .wakePoller ℓ ∨ pc = .waitDone ℓ

/-- A goroutine of a running server in the Stop of a loop, beside the Stop of the server at this loop. -/
structure Beside (g : G) (ℓ : Λ) (m : LoopId n) (rest : List (LoopId n)) (s : Interleaving.Process Λ G C σ κ δ)
    (t : Process n G (Task C δ)) : Prop where
  poll : t.polls m = (s.loops ℓ).poll
  stop : t.stop = stopPc m rest (s.pcs g)
  outside : s.pcs g = .swapCount ℓ → (s.loops ℓ).poll.callers (some g) = .outside

variable {T : Interleaving.Setup Λ C σ κ δ} {u v : Interleaving.Process Λ G C σ κ δ} {g : G} {ℓ : Λ} {m : LoopId n}
  {rest : List (LoopId n)} {q : Process n G (Task C δ)}

theorem beside_poll {p : Machine.State G (Task C δ)} {pc : Pc Λ C δ}
    (hout : pc = .swapCount ℓ → p.callers (some g) = .outside) :
    Beside g ℓ m rest ((u.setPoll ℓ p).setPc g pc) { q.setPoll m p with stop := stopPc m rest pc } := by
  refine ⟨?_, ?_, ?_⟩
  · simp [Process.setPoll, Interleaving.Process.setPoll, Interleaving.Process.setPc, Interleaving.Process.setLoop]
  · simp [Interleaving.Process.setPc]
  · intro hpc
    simp only [Interleaving.Process.setPc, Function.update_self] at hpc
    simpa [Interleaving.Process.setPoll, Interleaving.Process.setPc, Interleaving.Process.setLoop] using hout hpc

theorem outside_of_swap {grow : Nat → Nat → Nat} {x p : Machine.State G (Task C δ)}
    (h : Machine.step grow x (.compareAndSwap (some g)) = some p) (hp : p.callers (some g) ≠ .waking) :
    p.callers (some g) = .outside := by
  cases Machine.steps_of_step h with
  | swapped => simp [Machine.State.setCaller] at hp
  | notSwapped => simp [Machine.State.setCaller]
  | loop _ hm => cases hm

theorem outside_of_wake {grow : Nat → Nat → Nat} {x p : Machine.State G (Task C δ)}
    (h : Machine.step grow x (.wake (some g)) = some p) : p.callers (some g) = .outside := by
  cases Machine.steps_of_step h with
  | wake => simp [Machine.State.setCaller]
  | loop _ hm => cases hm

/-- Each statement of EventLoop.Stop and Poller.Close in a running server is the one of the Stop modelled here. -/
theorem stop_matched (hb : Beside g ℓ m rest u q) (hpc : InStop ℓ (u.pcs g)) (h : Interleaving.go T u g = some v) :
    ∃ q', stopStep (stopping T.growQueue g) q true = some q' ∧ Beside g ℓ m rest v q' := by
  obtain ⟨hpoll, hstop, hout⟩ := hb
  unfold Interleaving.go at h
  rcases hpc with hpc | hpc | hpc | hpc | hpc | hpc | hpc <;> rw [hpc] at h hstop <;> dsimp only [stopPc] at h hstop
  · obtain ⟨p, hp, rfl⟩ := Option.map_eq_some_iff.mp h
    refine ⟨{ q.setPoll m p with stop := .stopLoop .queued m rest }, ?_, beside_poll (by simp)⟩
    simp [stopStep, hstop, hpoll, stopping, hp]
  · split at h
    next => cases h
    next hcaller =>
      obtain ⟨p, hp, rfl⟩ := Option.map_eq_some_iff.mp h
      refine ⟨{ q.setPoll m p with stop := .stopLoop .queued m rest }, ?_, ?_⟩
      · simp [stopStep, hstop, hpoll, stopping, hcaller, hp, Process.setPoll]
      · split
        next => exact beside_poll (by simp)
        next hnot => exact beside_poll fun _ => outside_of_swap hp hnot
    next hcaller =>
      obtain ⟨p, hp, rfl⟩ := Option.map_eq_some_iff.mp h
      refine ⟨{ q.setPoll m p with stop := .stopLoop .queued m rest }, ?_, beside_poll fun _ => outside_of_wake hp⟩
      simp [stopStep, hstop, hpoll, stopping, hcaller, hp, Process.setPoll]
  · cases h
    refine ⟨{ q with stop := .stopLoop .testRunning m rest }, ?_, ?_, ?_, ?_⟩
    · simp [stopStep, hstop, hpoll, stopping, hout hpc]
    · simpa [Interleaving.Process.setPc, Interleaving.Process.setLoop] using hpoll
    · simp [Interleaving.Process.setPc, stopPc]
    · simp [Interleaving.Process.setPc]
  · cases h
    refine ⟨{ q with stop := stopPc m rest (if (u.loops ℓ).poll.running then .setRunning ℓ else .idle : Pc Λ C δ) },
      ?_, hpoll, ?_, ?_⟩
    · cases hr : (u.loops ℓ).poll.running <;> simp [stopStep, hstop, hpoll, hr, stopPc]
    · simp [Interleaving.Process.setPc]
    · cases hr : (u.loops ℓ).poll.running <;> simp [Interleaving.Process.setPc]
  · obtain ⟨p, hp, rfl⟩ := Option.map_eq_some_iff.mp h
    refine ⟨{ q.setPoll m p with stop := .stopLoop .wake m rest }, ?_, beside_poll (by simp)⟩
    simp [stopStep, hstop, hpoll, stopping, hp]
  · obtain ⟨p, hp, rfl⟩ := Option.map_eq_some_iff.mp h
    refine ⟨{ q.setPoll m p with stop := .stopLoop .waitDone m rest }, ?_, beside_poll (by simp)⟩
    simp [stopStep, hstop, hpoll, stopping, hp]
  · split at h <;> cases h
    next hexited =>
      refine ⟨{ q with stop := nextLoop rest }, ?_, hpoll, ?_, ?_⟩
      · simp [stopStep, hstop, hpoll, hexited]
      · simp [Interleaving.Process.setPc, stopPc]
      · simp [Interleaving.Process.setPc]

end Interleaving

def sample : Setup Bool Unit := ⟨fun _ k => k, true, ()⟩

def starting : List (Label 1 Bool Unit) := [.start, .start, .start]

/-- A loop reads the event descriptor, runs the function that Stop queued and tests running. -/
def round (ℓ : LoopId 1) : List (Label 1 Bool Unit) :=
  [.poll [.eventFd], .event, .endBatch, .setNeedWake, .swap, .runTask, .endRun, .test].map (.poll ℓ)

def entering : List (Label 1 Bool Unit) :=
  starting ++ [.poll (some 0) .enter, .poll none .enter] ++ List.replicate 9 (.stop true) ++ round none ++
    List.replicate 8 (.stop true) ++ round (some 0) ++ [.stop true]

def overtaking : List (Label 1 Bool Unit) := starting ++ List.replicate 12 (.stop true)

instance (s : Process n G τ) (l : Label n G τ) : Decidable (Entered s l) := match l with
  | .stop ok => match h : s.stop with
    | .stopLoop .testRunning ℓ _ => decidable_of_iff ((s.polls ℓ).running = true) (by simp [Entered, h])
    | .stopLoop .wake _ _ => decidable_of_iff (ok = true) (by simp [Entered, h])
    | .stopLoop .queue _ _ | .stopLoop .queued _ _ | .stopLoop .setRunning _ _ | .stopLoop .waitDone _ _
    | .test | .refused | .setRunning | .returned => isTrue (by simp [Entered, h])
  | .start | .poll _ _ => inferInstanceAs (Decidable True)

/-- In every run in which Stop finds each poller running and can wake it, the Poll of every loop has returned once Stop
has: from there on it has no step left. -/
theorem stop_really_stops (S : Setup G τ) (taskQueueSize : Nat) (ls : List (Label n G τ)) (s : Process n G τ)
    (hok : Meets (step S) Entered (init taskQueueSize) ls) (h : run (step S) (init taskQueueSize) ls = some s)
    (hret : s.stop = .returned) (ℓ : LoopId n) :
    (s.polls ℓ).cursor = .exited ∧ ∀ l p, ¬ Machine.Moves (s.polls ℓ) l p := by
  have hstopped : Stopped s := run_invariant_meets (fun _ _ _ hs hok ht => Stopped.step hs hok ht)
    (fun rest hrest => by cases hrest) hok h
  have hx : (s.polls ℓ).cursor = .exited := hstopped [] (by rw [hret]; rfl) ℓ (by simp)
  exact ⟨hx, fun l p => Machine.no_moves_exited hx⟩

theorem stop_really_stops_entering : ∃ s, run (step sample) (init 4) entering = some s ∧ s.stop = .returned ∧
    (s.polls none).cursor = .exited ∧ (s.polls (some 0)).cursor = .exited := by
  have hrun : ∃ s, run (step sample) (init 4) entering = some s ∧ s.stop = .returned := ⟨_, rfl, rfl⟩
  obtain ⟨s, hs, hret⟩ := hrun
  have hok : Meets (step sample) Entered (init 4) entering := meets_of_check rfl
  exact ⟨s, hs, hret, (stop_really_stops sample 4 entering s hok hs hret none).1,
    (stop_really_stops sample 4 entering s hok hs hret (some 0)).1⟩

/-- Stop has returned, and afterwards the work loop enters Poll, handles events and waits for more. -/
theorem overtaken_loop_polls : ∃ s t, run (step sample) (init 4) overtaking = some s ∧ s.stop = .returned ∧
    run (step sample) s (.poll (some 0) .enter :: round (some 0)) = some t ∧
    (t.polls (some 0)).cursor = .wait ∧ (t.polls (some 0)).running = true :=
  ⟨_, _, rfl, rfl, rfl, rfl, rfl⟩

end Gev.Server.StartStop
