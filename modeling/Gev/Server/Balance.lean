import Gev.Lib.Spread
import Gev.Server.Assignment

namespace Gev.Server.Balance

open Lib.Runs Lib.Spread Connection.State Connection.Code Connection.Additions EventLoop Interleaving Assignment

variable {G C σ κ δ Q : Type} {k : Nat}

section Strategies

def roundRobin (k nextLoopIndex : Nat) : Move (Fin k) Nat :=
  if h : nextLoopIndex < k then .choose ⟨nextLoopIndex, h⟩ ((nextLoopIndex + 1) % k) else .panicked

/-- Where LeastConnection stands: before its first statement, at the test of its loop, or between the two reads of its
comparison. -/
inductive Scan (k : Nat)
  | entry
  | test (i : Nat) (l : Fin k)
  | compare (i l : Fin k) (n : Int)
  deriving DecidableEq

def Scan.next (i : Nat) (l : Fin k) : Move (Fin k) (Scan k) :=
  if h : i < k then .read ⟨i, h⟩ (.compare ⟨i, h⟩ l) else .choose l .entry

def leastConnection : Scan k → Move (Fin k) (Scan k)
  | .entry => if h : 0 < k then Scan.next 1 ⟨0, h⟩ else .panicked
  | .test i l => Scan.next i l
  | .compare i l n => .read l fun m => .test (i + 1) (if n < m then i else l)

end Strategies

def accepted (es : List (Event (Fin k) G C δ)) : List C := es.filterMap fun
  | .accept c => some c
  | _ => none

variable [DecidableEq G] [DecidableEq C] {S : Setup (Fin k) C σ κ δ} {listener : G}

theorem assigned_of_run {move : Q → Move (Fin k) Q} {s t : State (Fin k) G C σ κ δ Q} {es : List (Event (Fin k) G C δ)}
    (h : run (Assignment.step S move listener) s es = some t) :
    t.assigned = s.assigned ++ (accepted es).map S.loopOf := by
  induction es generalizing s with
  | nil =>
      cases h
      exact (List.append_nil _).symm
  | cons e es ih =>
      obtain ⟨u, hu, hrest⟩ := run_cons h
      rw [ih hrest]
      cases moves_of_step hu with
      | read => rfl
      | accept => simp [accepted]
      | other => rfl

section Sample

def sample (loopOf : Nat → Fin 2) : Setup (Fin 2) Nat Unit Unit Bytes where
  cfg := ⟨id, 0, defaultProtocol, ⟨id, fun user _ data => (user, some data), id⟩, fun _ n => n⟩
  loopOf := loopOf
  growQueue _ n := n
  fuel := 2

def sampleStart {Q : Type} (first : Q) : State (Fin 2) Unit Nat Unit Unit Bytes Q :=
  start first 8 4 fun _ => newConnection (sample fun _ => 0).cfg () 0

abbrev Step := Event (Fin 2) Unit Nat Bytes

def loops (ℓ : Fin 2) (ls : List (Machine.Label Unit (Task Nat Bytes))) : List Step :=
  ls.map fun l => .other (.loop ℓ l)

def entering : List Step := loops 0 [.enter] ++ loops 1 [.enter]

/-- The listener makes a connection and queues its registration, which takes a step more if it has to wake the loop. -/
def queueing (c : Nat) (wake : Bool) : List Step := .accept c :: .replicate (if wake then 3 else 2) (.other (.go ()))

/-- A loop that has been woken takes its queue over, runs a number of registrations and waits again. -/
def registering (ℓ : Fin 2) (n : Nat) : List Step :=
  loops ℓ [.poll [.eventFd], .event, .endBatch, .setNeedWake, .swap] ++
    (List.replicate n (loops ℓ [.runTask] ++
      .replicate 4 (.other (.op ℓ ⟨0, 1, .bytes [7], .count 1, true, []⟩)))).flatten ++ loops ℓ [.endRun, .test]

def calmly (S : Setup (Fin k) C σ κ δ) (s : State (Fin k) G C σ κ δ Q) : Event (Fin k) G C δ → Bool
  | .other (.op ℓ a) => match (s.process.loops ℓ).prog with
    | .done _ => true
    | .step o _ => match o, act S.cfg o (a.choice o) (s.process.loops ℓ).work with
      | .addCount n, _ => n == 1
      | .epollCtl _ .add _ _, some (ok, _) => ok
      | _, _ => true
  | .other (.go g) => match s.process.pcs g with
    | .swapCount _ => false
    | _ => true
  | _ => true

omit [DecidableEq G] in
theorem calm_of_calmly {s : State (Fin k) G C σ κ δ Q} {e : Event (Fin k) G C δ} (h : calmly S s e = true) :
    Calm S s e := by
  cases e with
  | read | accept => trivial
  | other l =>
      cases l with
      | op ℓ a =>
          intro o f r L ho hact
          simp only [calmly, ho, hact] at h
          cases o with
          | addCount n => exact eq_of_beq h
          | epollCtl c op fd events =>
              cases op with
              | add => exact h
              | mod | del => trivial
          | _ => trivial
      | go g =>
          intro ℓ hg
          simp [calmly, hg] at h
      | accept | timer | send | close | shutdownWrite | stop | loop => trivial

def drainedly (p : Process (Fin k) Unit C σ κ δ) : Bool :=
  (queuing (p.pcs ())).isNone && (List.finRange k).all fun ℓ => (match (p.loops ℓ).prog with
    | .done _ => true
    | .step _ _ => false) &&
    (TaskQueue.batch (p.loops ℓ).poll ++ TaskQueue.queued (p.loops ℓ).poll).all fun t => !registration t

omit [DecidableEq C] in
theorem drained_of_drainedly {p : Process (Fin k) Unit C σ κ δ} (h : drainedly p = true) : Drained p := by
  simp only [drainedly, Bool.and_eq_true, List.all_eq_true, Bool.not_eq_true', Option.isNone_iff_eq_none] at h
  refine ⟨fun _ => h.1, ?_⟩
  intro ℓ
  obtain ⟨hprog, hqueues⟩ := h.2 ℓ (List.mem_finRange ℓ)
  refine ⟨?_, hqueues⟩
  split at hprog
  next u hu => exact ⟨u, hu⟩
  next => cases hprog

end Sample

section RoundRobin

structure Turn (s : State (Fin k) G C σ κ δ Nat) : Prop where
  index : s.strategy = s.assigned.length % k
  cyclic : Cyclic s.assigned

theorem Turn.step {s t : State (Fin k) G C σ κ δ Nat} {e : Event (Fin k) G C δ} (h : Turn s)
    (hstep : Assignment.step S (roundRobin k) listener s e = some t) : Turn t := by
  cases moves_of_step hstep with
  | @read ℓ f hm =>
      simp only [roundRobin] at hm
      split at hm <;> cases hm
  | @accept c next p hm hp =>
      simp only [roundRobin] at hm
      split at hm
      next hlt =>
        obtain ⟨hloop, rfl⟩ := Move.choose.inj hm
        refine ⟨?_, cyclic_concat h.cyclic ?_⟩
        · rw [List.length_append, List.length_singleton, h.index, Nat.mod_add_mod]
        · rw [← hloop, ← h.index]
      next => cases hm
  | other => exact ⟨h.index, h.cyclic⟩

/-- Connections are dealt out in turn, and the index stays in range. Once all registrations of an undisturbed run have
run, each loop has its share. -/
theorem round_robin_distribution (hk : 1 ≤ k) (S : Setup (Fin k) C σ κ δ) (listener : G)
    (packetSize taskQueueSize : Nat) (conns : C → Conn σ κ) (es : List (Event (Fin k) G C δ))
    (s : State (Fin k) G C σ κ δ Nat)
    (hrun : run (Assignment.step S (roundRobin k) listener) (start 0 packetSize taskQueueSize conns) es = some s) :
    (∀ (i : Nat) c, (accepted es)[i]? = some c → (S.loopOf c : Nat) = i % k) ∧ s.strategy < k ∧
    (Meets (Assignment.step S (roundRobin k) listener) (Calm S) (start 0 packetSize taskQueueSize conns) es →
      Drained s.process →
      ∀ j : Fin k, (s.process.loops j).connCunt = (((accepted es).length + k - 1 - j) / k : Nat)) := by
  have hstart : Turn (start 0 packetSize taskQueueSize conns : State (Fin k) G C σ κ δ Nat) :=
    ⟨(Nat.zero_mod k).symm, fun i a ha => by simp [start] at ha⟩
  have hturn : Turn s := run_invariant (fun _ _ _ h hstep => h.step hstep) hstart hrun
  have hassigned : s.assigned = (accepted es).map S.loopOf := assigned_of_run hrun
  refine ⟨?_, ?_, ?_⟩
  · intro i c hc
    apply hturn.cyclic i
    rw [hassigned, List.getElem?_map, hc]
    rfl
  · rw [hturn.index]
    exact Nat.mod_lt _ hk
  · intro hcalm hd j
    rw [count_of_drained hrun hcalm hd, count_cyclic hturn.cyclic, hassigned, List.length_map]

def dealing : List Step :=
  entering ++ queueing 0 true ++ queueing 1 true ++ registering 1 1 ++ queueing 2 false ++ registering 0 2

theorem round_robin_distribution_dealing : ∃ s,
    run (Assignment.step (sample fun c => Fin.ofNat 2 c) (roundRobin 2) ()) (sampleStart 0) dealing = some s ∧
    (s.process.loops 0).connCunt = 2 ∧ (s.process.loops 1).connCunt = 1 ∧ s.strategy < 2 := by
  have hrun : ∃ s, run (Assignment.step (sample fun c => Fin.ofNat 2 c) (roundRobin 2) ()) (sampleStart 0) dealing =
      some s ∧ Drained s.process := ⟨_, rfl, drained_of_drainedly rfl⟩
  obtain ⟨s, hs, hd⟩ := hrun
  have hcalm : Meets (Assignment.step (sample fun c => Fin.ofNat 2 c) (roundRobin 2) ())
      (fun s e => calmly (sample fun c => Fin.ofNat 2 c) s e = true) (sampleStart 0) dealing := meets_of_check rfl
  have hdistribution := round_robin_distribution (by decide) (sample fun c => Fin.ofNat 2 c) () 8 4 _ dealing s hs
  have hcounts := hdistribution.2.2 (hcalm.mono fun _ _ => calm_of_calmly) hd
  exact ⟨s, hs, hcounts 0, hcounts 1, hdistribution.2.1⟩

end RoundRobin

section LeastConnection

/-- What a scan has found, if the counts it has read were those of all connections so far. -/
def Scan.Sound (xs : List (Fin k)) : Scan k → Prop
  | .entry => True
  | .test i l => ∀ j : Fin k, (j : Nat) < i → xs.count l ≤ xs.count j
  | .compare i l n => (∀ j : Fin k, (j : Nat) < i → xs.count l ≤ xs.count j) ∧ n = xs.count i

theorem sound_next {xs : List (Fin k)} {i : Nat} {l ℓ : Fin k} {f : Int → Scan k} (h : Scan.Sound xs (.test i l))
    (hm : Scan.next i l = .read ℓ f) : (f (xs.count ℓ)).Sound xs := by
  unfold Scan.next at hm
  split at hm
  next hi =>
    obtain ⟨rfl, rfl⟩ := Move.read.inj hm
    exact ⟨h, rfl⟩
  next => cases hm

theorem sound_first (xs : List (Fin k)) (h : 0 < k) : Scan.Sound xs (.test 1 ⟨0, h⟩) := by
  intro j hj
  have hzero : j = ⟨0, h⟩ := Fin.ext (Nat.lt_one_iff.mp hj)
  rw [hzero]

/-- A read of the number of connections a loop has been given. -/
theorem sound_read {xs : List (Fin k)} {q : Scan k} {ℓ : Fin k} {f : Int → Scan k} (h : q.Sound xs)
    (hm : leastConnection q = .read ℓ f) : (f (xs.count ℓ)).Sound xs := by
  cases q with
  | entry =>
      simp only [leastConnection] at hm
      split at hm
      next hk => exact sound_next (sound_first xs hk) hm
      next => cases hm
  | test i l => exact sound_next h hm
  | compare i l n =>
      obtain ⟨hprev, rfl⟩ := h
      obtain ⟨rfl, rfl⟩ := Move.read.inj hm
      intro j hj
      rcases Nat.lt_or_eq_of_le (Nat.le_of_lt_succ hj) with hlt | heq
      · have hj := hprev j hlt
        split <;> omega
      · rw [show j = i from Fin.ext heq]
        split <;> omega

theorem next_least {xs : List (Fin k)} {i : Nat} {l ℓ : Fin k} {q : Scan k} (h : Scan.Sound xs (.test i l))
    (hm : Scan.next i l = .choose ℓ q) : Least xs ℓ ∧ q = .entry := by
  unfold Scan.next at hm
  split at hm
  next => cases hm
  next hi =>
    obtain ⟨rfl, rfl⟩ := Move.choose.inj hm
    exact ⟨fun j => h j (Nat.lt_of_lt_of_le j.isLt (Nat.le_of_not_lt hi)), rfl⟩

theorem choice_least {xs : List (Fin k)} {q next : Scan k} {ℓ : Fin k} (h : q.Sound xs)
    (hm : leastConnection q = .choose ℓ next) : Least xs ℓ ∧ next = .entry := by
  cases q with
  | entry =>
      simp only [leastConnection] at hm
      split at hm
      next hk => exact next_least (sound_first xs hk) hm
      next => cases hm
  | test i l => exact next_least h hm
  | compare i l n => cases hm

/-- An undisturbed step, and LeastConnection reads a count only when all registrations so far have run. -/
def Settled (S : Setup (Fin k) C σ κ δ) (s : State (Fin k) G C σ κ δ (Scan k)) (e : Event (Fin k) G C δ) : Prop :=
  Calm S s e ∧ (e = .read → Drained s.process)

structure Fair (listener : G) (s : State (Fin k) G C σ κ δ (Scan k)) : Prop where
  placed : Placed listener s
  sound : s.strategy.Sound s.assigned
  even : Even s.assigned

theorem Fair.step {s t : State (Fin k) G C σ κ δ (Scan k)} {e : Event (Fin k) G C δ} (h : Fair listener s)
    (hok : Settled S s e) (hstep : Assignment.step S leastConnection listener s e = some t) : Fair listener t := by
  have hplaced : Placed listener t := h.placed.step hok.1 hstep
  cases moves_of_step hstep with
  | @read ℓ f hm =>
      have hcount : (s.process.loops ℓ).connCunt = s.assigned.count ℓ := by
        rw [h.placed.assigned]
        exact h.placed.regular.drained (hok.2 rfl) ℓ
      refine ⟨hplaced, ?_, h.even⟩
      change (f (s.process.loops ℓ).connCunt).Sound s.assigned
      rw [hcount]
      exact sound_read h.sound hm
  | @accept c next p hm hp =>
      obtain ⟨hleast, rfl⟩ := choice_least h.sound hm
      exact ⟨hplaced, trivial, (even_concat h.even _).mpr hleast⟩
  | other => exact ⟨hplaced, h.sound, h.even⟩

/-- In an undisturbed run in which all earlier registrations have run whenever LeastConnection reads a count, the counts
of the loops differ by at most one when all registrations have run. -/
theorem least_connection_balanced (S : Setup (Fin k) C σ κ δ) (listener : G) (packetSize taskQueueSize : Nat)
    (conns : C → Conn σ κ) (es : List (Event (Fin k) G C δ)) (s : State (Fin k) G C σ κ δ (Scan k))
    (hrun : run (Assignment.step S leastConnection listener) (start .entry packetSize taskQueueSize conns) es = some s)
    (hok : Meets (Assignment.step S leastConnection listener) (Settled S)
      (start .entry packetSize taskQueueSize conns) es)
    (hd : Drained s.process) (a b : Fin k) : (s.process.loops a).connCunt ≤ (s.process.loops b).connCunt + 1 := by
  have hstart : Fair listener (start .entry packetSize taskQueueSize conns : State (Fin k) G C σ κ δ (Scan k)) :=
    ⟨placed_start _ packetSize taskQueueSize conns, trivial, even_nil⟩
  have hfair : Fair listener s := run_invariant_meets (fun _ _ _ h hok hstep => h.step hok hstep) hstart hok hrun
  have heven := hfair.even a b
  have hcount := count_of_drained hrun (hok.mono fun _ _ h => h.1) hd
  rw [hcount a, hcount b]
  omega

def settledly (S : Setup (Fin k) C σ κ δ) (s : State (Fin k) Unit C σ κ δ (Scan k)) : Event (Fin k) Unit C δ → Bool
  | .read => drainedly s.process
  | .accept c => calmly S s (.accept c)
  | .other l => calmly S s (.other l)

theorem settled_of_settledly {s : State (Fin k) Unit C σ κ δ (Scan k)} {e : Event (Fin k) Unit C δ}
    (h : settledly S s e = true) : Settled S s e := by
  cases e with
  | read => exact ⟨trivial, fun _ => drained_of_drainedly h⟩
  | accept c => exact ⟨trivial, fun hread => absurd hread (by simp)⟩
  | other l => exact ⟨calm_of_calmly h, fun hread => absurd hread (by simp)⟩

def spaced : List Step :=
  entering ++ [.read, .read] ++ queueing 0 true ++ registering 0 1 ++ [.read, .read] ++ queueing 1 true ++
    registering 1 1

theorem least_connection_balanced_spaced : ∃ s,
    run (Assignment.step (sample fun c => Fin.ofNat 2 c) leastConnection ()) (sampleStart .entry) spaced = some s ∧
    (s.process.loops 1).connCunt = 1 ∧
    ∀ a b, (s.process.loops a).connCunt ≤ (s.process.loops b).connCunt + 1 := by
  have hrun : ∃ s,
      run (Assignment.step (sample fun c => Fin.ofNat 2 c) leastConnection ()) (sampleStart .entry) spaced = some s ∧
      (s.process.loops 1).connCunt = 1 ∧ Drained s.process := ⟨_, rfl, rfl, drained_of_drainedly rfl⟩
  obtain ⟨s, hs, hone, hd⟩ := hrun
  have hok : Meets (Assignment.step (sample fun c => Fin.ofNat 2 c) leastConnection ())
      (fun s e => settledly (sample fun c => Fin.ofNat 2 c) s e = true) (sampleStart .entry) spaced :=
    meets_of_check rfl
  have hbalanced := least_connection_balanced (sample fun c => Fin.ofNat 2 c) () 8 4 _ spaced s hs
    (hok.mono fun _ _ => settled_of_settledly) hd
  exact ⟨s, hs, hone, hbalanced⟩

def burst : List Step :=
  entering ++ [.read, .read] ++ queueing 0 true ++ [.read, .read] ++ queueing 1 false ++ registering 0 2

/-- Both choices read counts of 0, and both connections go to the first loop. -/
theorem burst_unbalanced : ∃ s,
    run (Assignment.step (sample fun _ => 0) leastConnection ()) (sampleStart .entry) burst = some s ∧
    Meets (Assignment.step (sample fun _ => 0) leastConnection ()) (Calm (sample fun _ => 0)) (sampleStart .entry)
      burst ∧
    Drained s.process ∧ (s.process.loops 0).connCunt = 2 ∧ (s.process.loops 1).connCunt = 0 := by
  have hcalm : Meets (Assignment.step (sample fun _ => 0) leastConnection ())
      (fun s e => calmly (sample fun _ => 0) s e = true) (sampleStart .entry) burst := meets_of_check rfl
  exact ⟨_, rfl, hcalm.mono fun _ _ => calm_of_calmly, drained_of_drainedly rfl, rfl, rfl⟩

end LeastConnection

end Gev.Server.Balance
