import Gev.Connection.Additions
import Gev.Server.Count

namespace Gev.Server.Assignment

open Lib.Atomic Lib.Runs Connection.State Connection.Code Connection.Additions EventLoop Interleaving Effects
open Gev.Server.Count (unmoved_setPoll)

variable {Λ G C σ κ δ Q : Type}

/-- What a LoadBalanceStrategy does next: it reads the ConnectionCount of a loop, or it returns a loop and is left in
some state for its next call. An index out of range panics. -/
inductive Move (Λ Q : Type)
  | read (ℓ : Λ) (k : Int → Q)
  | choose (ℓ : Λ) (next : Q)
  | panicked

structure State (Λ G C σ κ δ Q : Type) where
  process : Process Λ G C σ κ δ
  strategy : Q
  assigned : List Λ

/-- The steps: the strategy reads a count, handleNewConnection makes a connection with the loop it is given and goes on
to queue its registration, or something else happens in the server. -/
inductive Event (Λ G C δ : Type)
  | read
  | accept (c : C)
  | other (l : Label Λ G C δ)

section Machine

variable [DecidableEq Λ] [DecidableEq G] [DecidableEq C]
variable (S : Setup Λ C σ κ δ) (move : Q → Move Λ Q) (listener : G)

def step (s : State Λ G C σ κ δ Q) : Event Λ G C δ → Option (State Λ G C σ κ δ Q)
  | .read => match s.process.pcs listener, move s.strategy with
    | .idle, .read ℓ k => some { s with strategy := k (s.process.loops ℓ).connCunt }
    | _, _ => none
  | .accept c => match move s.strategy with
    | .choose ℓ next =>
        if S.loopOf c = ℓ then
          (Interleaving.step S s.process (.accept listener c)).map fun p => ⟨p, next, s.assigned ++ [ℓ]⟩
        else none
    | _ => none
  | .other (.accept _ _) => none
  | .other l => (Interleaving.step S s.process l).map fun p => { s with process := p }

def start (first : Q) (packetSize taskQueueSize : Nat) (conns : C → Conn σ κ) : State Λ G C σ κ δ Q :=
  ⟨init packetSize taskQueueSize conns, first, []⟩

end Machine

/-- No connection is taken off a count, no Stop resets one, and the poller refuses no connection. -/
def Undisturbed [DecidableEq C] (S : Setup Λ C σ κ δ) (p : Process Λ G C σ κ δ) : Label Λ G C δ → Prop
  | .op ℓ a => ∀ o k r L, (p.loops ℓ).prog = .step o k →
      act S.cfg o (a.choice o) (p.loops ℓ).work = some (r, L) → Admitted o r
  | .go g => ∀ ℓ, p.pcs g ≠ .swapCount ℓ
  | _ => True

def Calm [DecidableEq C] (S : Setup Λ C σ κ δ) (s : State Λ G C σ κ δ Q) : Event Λ G C δ → Prop
  | .other l => Undisturbed S s.process l
  | _ => True

def queuing : Pc Λ C δ → Option Λ
  | .queue ℓ (.register _) => some ℓ
  | _ => none

/-- All registrations have run: none is on its way to a queue or waits in one, and no loop is in the middle of one. -/
def Drained (p : Process Λ G C σ κ δ) : Prop :=
  (∀ g, queuing (p.pcs g) = none) ∧ ∀ ℓ, (∃ u, (p.loops ℓ).prog = .done u) ∧
    ∀ t ∈ TaskQueue.batch (p.loops ℓ).poll ++ TaskQueue.queued (p.loops ℓ).poll, registration t = false

section Counts

variable {S : Setup Λ C σ κ δ} {s t : Process Λ G C σ κ δ} {l : Label Λ G C δ}

/-- What a loop has counted are the registrations it has run, but for what is left of the last one. -/
def Counted (x : Loop G C σ κ δ) : Prop :=
  ∃ n, Adds x.prog n ∧ x.connCunt + n = x.poll.executed.countP registration

theorem Counted.still {x y : Loop G C σ κ δ} (h : Counted x) (hs : Still x y) (hc : y.connCunt = x.connCunt) :
    Counted y := by
  obtain ⟨n, hadds, hcount⟩ := h
  obtain ⟨-, hprog, hexecuted⟩ := hs
  exact ⟨n, hprog ▸ hadds, by rw [hc, hexecuted, hcount]⟩

theorem Counted.moved [DecidableEq G] {x y : Loop G C σ κ δ} {m : Machine.Label G (Task C δ)} {u : Unit}
    (h : Counted x) (hd : x.prog = .done u) (hm : Machine.step S.growQueue x.poll m = some y.poll)
    (hprog : y.prog = entered S x.poll m) (hc : y.connCunt = x.connCunt) (hcontrol : control m = true) : Counted y := by
  obtain ⟨n, hadds, hcount⟩ := h
  rw [hd] at hadds
  obtain rfl : n = 0 := hadds
  rw [Counted, hprog, hc]
  generalize y.poll = p at hm
  cases Machine.steps_of_step hm with
  | append | swapped | notSwapped | wake | closeSet | closeWake => cases hcontrol
  | loop hself hm =>
      cases hm with
      | enter | poll | endBatch | setNeedWake | swap | endRun | test => exact ⟨0, rfl, hcount⟩
      | readEventFd hcur =>
          simp only [entered, hcur]
          exact ⟨0, rfl, hcount⟩
      | socket hcur =>
          simp only [entered, hcur]
          exact ⟨0, adds_of_plain (plain_handlerEvent S.cfg _ S.fuel _), hcount⟩
      | @runTask i n v hcur hi hv =>
          simp only [entered, hcur, hv]
          refine ⟨_, adds_taskBody S.cfg v, ?_⟩
          rw [List.countP_append, List.countP_singleton]
          omega

theorem countEffect_admitted {n : Int} {o : Op C κ δ} {r : Res o} (h : Admitted o r) :
    countEffect n o = n + gain o := by
  cases o with
  | addCount k =>
      obtain rfl : k = 1 := h
      rfl
  | _ => exact (Int.add_zero n).symm

theorem Counted.performed {x y : Loop G C σ κ δ} {o : Op C κ δ} {k : Res o → Prog C κ δ Unit} {r : Res o}
    (h : Counted x) (ho : x.prog = .step o k) (hr : Admitted o r) (hprog : y.prog = k r)
    (hexecuted : y.poll.executed = x.poll.executed) (hc : y.connCunt = countEffect x.connCunt o) : Counted y := by
  obtain ⟨n, hadds, hcount⟩ := h
  rw [ho] at hadds
  obtain ⟨hle, hrest⟩ := hadds.2 r hr
  refine ⟨n - gain o, hprog ▸ hrest, ?_⟩
  rw [hc, hexecuted, countEffect_admitted hr]
  omega

variable [DecidableEq Λ] [DecidableEq G] [DecidableEq C]

theorem Counted.step {ℓ : Λ} (hc : Counted (s.loops ℓ)) (hok : Undisturbed S s l) (h : Steps S s l t) :
    Counted (t.loops ℓ) := by
  cases h with
  | accept | call | silent | stop | enqueue | refuse | testRunning | waitDone => exact hc
  | @append g m u p hg hp =>
      exact hc.still (still_setLoop s { s.loops m with poll := p } ⟨rfl, rfl, (TaskQueue.tasks_of_append hp).2⟩ ℓ)
        (unmoved_setPoll s m p ℓ).connCunt
  | @inQueue g m u k p pc hg hm hp =>
      refine hc.still (still_setLoop s { s.loops m with poll := p } ⟨rfl, rfl, TaskQueue.executed_of_step hp ?_⟩ ℓ)
        (unmoved_setPoll s m p ℓ).connCunt
      rcases hm with rfl | rfl <;> simp
  | @swapCount g m hg => exact absurd hg (hok m)
  | @closePoller g m k p pc hg hp =>
      refine hc.still (still_setLoop s { s.loops m with poll := p } ⟨rfl, rfl, TaskQueue.executed_of_step hp ?_⟩ ℓ)
        (unmoved_setPoll s m p ℓ).connCunt
      rcases hg with ⟨-, rfl, -⟩ | ⟨-, rfl, -⟩ <;> simp
  | @loop m k p u hd hcontrol hp =>
      by_cases hℓ : ℓ = m
      · subst hℓ
        rw [loops_setLoop]
        exact hc.moved hd hp rfl rfl hcontrol
      · rwa [loops_setLoop_ne s _ hℓ]
  | @op m a o k r work p ho hact hp =>
      by_cases hℓ : ℓ = m
      · subst hℓ
        change Counted ((s.setLoop ℓ _).loops ℓ)
        rw [loops_setLoop]
        exact hc.performed ho (hok o k r work ho hact) rfl (executed_of_pollEffect hp) rfl
      · change Counted ((s.setLoop m _).loops ℓ)
        rwa [loops_setLoop_ne s _ hℓ]

end Counts

section Places

variable {S : Setup Λ C σ κ δ} {s t : Process Λ G C σ κ δ} {l : Label Λ G C δ}

/-- The registrations a loop has been given, and the one that the listener is about to give it. -/
def given [DecidableEq Λ] (listener : G) (s : Process Λ G C σ κ δ) (ℓ : Λ) : Nat :=
  (pending s ℓ).countP registration + if queuing (s.pcs listener) = some ℓ then 1 else 0

def misplaced : Pc Λ C δ → Bool
  | .check _ u => registration u
  | _ => false

structure Fits (listener g : G) (pc : Pc Λ C δ) : Prop where
  check : misplaced pc = false
  queue : queuing pc ≠ none → g = listener

structure Regular (listener : G) (s : Process Λ G C σ κ δ) : Prop where
  queue : ∀ ℓ, TaskQueue.Invariant (s.loops ℓ).poll
  counted : ∀ ℓ, Counted (s.loops ℓ)
  pcs : ∀ g, Fits listener g (s.pcs g)

theorem queuing_queue {ℓ : Λ} {u : Task C δ} (h : registration u = false) : queuing (.queue ℓ u) = none := by
  cases u with
  | register => cases h
  | send | close | closing => rfl

theorem queuing_returned (ℓ : Λ) (u : Task C δ) : queuing (returned ℓ u) = none := by
  cases u <;> rfl

theorem registration_of_callable {c : C} {u : Task C δ} (h : Callable S s c u) : registration u = false := by
  rcases h with ⟨data, finish, rfl, -⟩ | ⟨rfl, -⟩ <;> rfl

variable [DecidableEq Λ]

/-- A loop is given more tasks, or none. -/
theorem pending_setLoop (s : Process Λ G C σ κ δ) {m : Λ} (x : Loop G C σ κ δ) {us : List (Task C δ)}
    (h : TaskQueue.tasks x.poll = pending s m ++ us) (ℓ : Λ) :
    pending (s.setLoop m x) ℓ = pending s ℓ ++ if ℓ = m then us else [] := by
  by_cases hℓ : ℓ = m
  · subst hℓ
    rw [pending, loops_setLoop, if_pos rfl]
    exact h
  · rw [pending, loops_setLoop_ne s _ hℓ, if_neg hℓ, List.append_nil, pending]

theorem registrations_setLoop (s : Process Λ G C σ κ δ) {m : Λ} (x : Loop G C σ κ δ) {us : List (Task C δ)}
    (h : TaskQueue.tasks x.poll = pending s m ++ us) (hus : us.countP registration = 0) (ℓ : Λ) :
    (pending (s.setLoop m x) ℓ).countP registration = (pending s ℓ).countP registration := by
  rw [pending_setLoop s x h, List.countP_append]
  split
  · rw [hus, Nat.add_zero]
  · rfl

variable [DecidableEq G] {listener : G}

/-- A goroutine moves, and neither before nor after it is about to queue a registration. -/
theorem given_turn {g : G} {pc : Pc Λ C δ} {ℓ : Λ}
    (hpending : (pending t ℓ).countP registration = (pending s ℓ).countP registration)
    (ht : t.pcs = Function.update s.pcs g pc) (hs : queuing (s.pcs g) = none) (hpc : queuing pc = none) :
    given listener t ℓ = given listener s ℓ := by
  have hsame : queuing (t.pcs listener) = queuing (s.pcs listener) := by
    rw [ht]
    by_cases hg : listener = g
    · rw [hg, Function.update_self, hs, hpc]
    · rw [Function.update_of_ne hg]
  rw [given, given, hpending, hsame]

/-- An append moves a registration from the listener to the loop's tasks. -/
theorem given_append (hR : Regular listener s) {g : G} {m : Λ} {u : Task C δ} {p : Machine.State G (Task C δ)}
    (hg : s.pcs g = .queue m u) (hp : TaskQueue.tasks p = pending s m ++ [u]) (ℓ : Λ) :
    given listener ((s.setPoll m p).setPc g (.queued m u)) ℓ = given listener s ℓ := by
  have hcount : (pending (s.setPoll m p) ℓ).countP registration =
      (pending s ℓ).countP registration + if ℓ = m then [u].countP registration else 0 := by
    rw [Process.setPoll, pending_setLoop s _ hp, List.countP_append]
    split <;> rfl
  have hafter : ∀ a, queuing (((s.setPoll m p).setPc g (.queued m u)).pcs a) =
      if a = g then none else queuing (s.pcs a) := by
    intro a
    by_cases ha : a = g
    · rw [if_pos ha, ha]
      simp [Process.setPc, queuing]
    · rw [if_neg ha]
      simp [Process.setPc, Process.setPoll, Process.setLoop, ha]
  rw [given, given, hafter]
  change (pending (s.setPoll m p) ℓ).countP registration + _ = _
  rw [hcount]
  cases hu : registration u with
  | false =>
      have hnone : queuing (s.pcs g) = none := hg ▸ queuing_queue hu
      have hsame : (if listener = g then none else queuing (s.pcs listener)) = queuing (s.pcs listener) := by
        split
        next hlg => rw [hlg, hnone]
        next => rfl
      simp [hsame, hu]
  | true =>
      have hsome : queuing (s.pcs g) = some m := by
        cases u with
        | register c => rw [hg]; rfl
        | send | close | closing => cases hu
      obtain rfl := (hR.pcs g).queue (by rw [hsome]; exact Option.some_ne_none m)
      simp [hu, hsome, eq_comm]

variable [DecidableEq C]

theorem given_step (hR : Regular listener s) (hl : ∀ g c, l ≠ .accept g c) (h : Steps S s l t) (ℓ : Λ) :
    given listener t ℓ = given listener s ℓ := by
  -- What the poller does beside an append leaves the tasks alone.
  have hpoll : ∀ {m : Λ} {k : Machine.Label G (Task C δ)} {p : Machine.State G (Task C δ)},
      Machine.step S.growQueue (s.loops m).poll k = some p → (∀ g u, k ≠ .append g u) →
      TaskQueue.tasks p = pending s m ++ [] := by
    intro m k p hp hk
    rw [List.append_nil]
    exact TaskQueue.tasks_of_step hp hk
  cases h with
  | accept => exact absurd rfl (hl _ _)
  | silent => rfl
  | call hg | stop hg | refuse hg | waitDone hg => exact given_turn rfl rfl (by rw [hg]; rfl) rfl
  | @enqueue g c u hg =>
      have hu : misplaced (.check c u : Pc Λ C δ) = false := hg ▸ (hR.pcs g).check
      exact given_turn rfl rfl (by rw [hg]; rfl) (queuing_queue hu)
  | append hg hp => exact given_append hR hg (TaskQueue.tasks_of_append hp).1 ℓ
  | @inQueue g m u k p pc hg hm hp hpc =>
      have hk : ∀ g u, k ≠ .append g u := by rcases hm with rfl | rfl <;> simp
      refine given_turn (registrations_setLoop s _ (hpoll hp hk) rfl ℓ) rfl (by rw [hg]; rfl) ?_
      rcases hpc with rfl | rfl
      · rfl
      · exact queuing_returned m u
  | @swapCount g m hg =>
      exact given_turn (registrations_setLoop s { s.loops m with connCunt := 0 } (List.append_nil _).symm rfl ℓ) rfl
        (by rw [hg]; rfl) rfl
  | @testRunning g m pc hg hpc =>
      refine given_turn rfl rfl (by rw [hg]; rfl) ?_
      rcases hpc with ⟨rfl, -⟩ | ⟨rfl, -⟩ <;> rfl
  | @closePoller g m k p pc hg hp =>
      rcases hg with ⟨hg, rfl, rfl⟩ | ⟨hg, rfl, rfl⟩
      · exact given_turn (registrations_setLoop s _ (hpoll hp (by simp)) rfl ℓ) rfl (by rw [hg]; rfl) rfl
      · exact given_turn (registrations_setLoop s _ (hpoll hp (by simp)) rfl ℓ) rfl (by rw [hg]; rfl) rfl
  | @loop m k p u hd hc hp =>
      have hk : ∀ g u, k ≠ .append g u := by
        rintro g u rfl
        cases hc
      exact congrArg (· + _) (registrations_setLoop s _ (hpoll hp hk) rfl ℓ)
  | @op m a o k r work p ho hact hp =>
      have htasks : ∃ us, TaskQueue.tasks p = pending s m ++ us ∧ us.countP registration = 0 := by
        rcases poll_of_effect hp with ⟨rfl, -⟩ | ⟨k, hk, hq⟩
        · exact ⟨[], (List.append_nil _).symm, rfl⟩
        · cases hq with
          | append u =>
              obtain ⟨n, hadds, -⟩ := hR.counted m
              rw [ho] at hadds
              have hu : registration u = false := by
                cases u with
                | register c => exact absurd rfl (hadds.1 c)
                | send | close | closing => rfl
              exact ⟨[u], (TaskQueue.tasks_of_append hk).1, by simp [hu]⟩
          | compareAndSwap => exact ⟨[], hpoll hk (by simp), rfl⟩
          | wake => exact ⟨[], hpoll hk (by simp), rfl⟩
      obtain ⟨us, htasks, hus⟩ := htasks
      exact congrArg (· + _) (registrations_setLoop s _ htasks hus ℓ)

omit [DecidableEq Λ] [DecidableEq C] in
theorem fits_update {pcs : G → Pc Λ C δ} (h : ∀ g, Fits listener g (pcs g)) {g : G} {pc : Pc Λ C δ}
    (hg : Fits listener g pc) (a : G) : Fits listener a (Function.update pcs g pc a) :=
  (Function.forall_update_iff pcs (fun a pc => Fits listener a pc)).mpr ⟨hg, fun a _ => h a⟩ a

theorem fits_step (hR : Regular listener s) (hl : ∀ g c, l = .accept g c → g = listener) (h : Steps S s l t) (g : G) :
    Fits listener g (t.pcs g) := by
  -- The points behind the append of QueueInLoop, and those of Stop.
  have hfree : ∀ {a : G} {pc : Pc Λ C δ}, misplaced pc = false → queuing pc = none → Fits listener a pc :=
    fun hcheck hqueue => ⟨hcheck, fun hne => absurd hqueue hne⟩
  cases h with
  | silent | loop | op => exact hR.pcs g
  | accept => exact fits_update hR.pcs ⟨rfl, fun _ => hl _ _ rfl⟩ g
  | @call a c u l _ ht =>
      have hu : misplaced (.check c u : Pc Λ C δ) = false := registration_of_callable ht
      exact fits_update hR.pcs (hfree hu rfl) g
  | @enqueue a c u hg =>
      have hu : misplaced (.check c u : Pc Λ C δ) = false := hg ▸ (hR.pcs a).check
      exact fits_update hR.pcs (hfree rfl (queuing_queue hu)) g
  | stop | refuse | append | swapCount | waitDone => exact fits_update hR.pcs (hfree rfl rfl) g
  | @inQueue a m u k p pc _ _ _ hpc =>
      rcases hpc with rfl | rfl
      · exact fits_update hR.pcs (hfree rfl rfl) g
      · exact fits_update hR.pcs (hfree (by cases u <;> rfl) (queuing_returned m u)) g
  | testRunning _ hpc => rcases hpc with ⟨rfl, -⟩ | ⟨rfl, -⟩ <;> exact fits_update hR.pcs (hfree rfl rfl) g
  | closePoller hg => rcases hg with ⟨-, -, rfl⟩ | ⟨-, -, rfl⟩ <;> exact fits_update hR.pcs (hfree rfl rfl) g

theorem Regular.step (hR : Regular listener s) (hok : Undisturbed S s l) (hl : ∀ g c, l = .accept g c → g = listener)
    (h : Steps S s l t) : Regular listener t where
  queue := by
    intro ℓ
    rcases poll_of_steps h ℓ with hp | ⟨m, hm, -⟩
    · rw [hp]
      exact hR.queue ℓ
    · exact TaskQueue.step_invariant _ _ m _ (hR.queue ℓ) hm
  counted := fun ℓ => (hR.counted ℓ).step hok h
  pcs := fits_step hR hl h

omit [DecidableEq Λ] [DecidableEq G] [DecidableEq C] in
theorem regular_init (listener : G) (packetSize taskQueueSize : Nat) (conns : C → Conn σ κ) :
    Regular listener (init packetSize taskQueueSize conns : Process Λ G C σ κ δ) where
  queue := fun _ => TaskQueue.invariant_init taskQueueSize
  counted := fun _ => ⟨0, rfl, rfl⟩
  pcs := fun _ => ⟨rfl, fun h => absurd rfl h⟩

omit [DecidableEq G] [DecidableEq C] in
/-- When all registrations have run, the count of a loop is the number of registrations it was given. -/
theorem Regular.drained (hR : Regular listener s) (hd : Drained s) (ℓ : Λ) :
    (s.loops ℓ).connCunt = given listener s ℓ := by
  obtain ⟨⟨u, hprog⟩, hqueues⟩ := hd.2 ℓ
  obtain ⟨n, hadds, hcount⟩ := hR.counted ℓ
  rw [hprog] at hadds
  obtain rfl : n = 0 := hadds
  have horder := (hR.queue ℓ).order
  have hrest : (TaskQueue.batch (s.loops ℓ).poll ++ TaskQueue.queued (s.loops ℓ).poll).countP registration = 0 := by
    rw [List.countP_eq_zero]
    intro t ht
    rw [hqueues t ht]
    exact Bool.false_ne_true
  rw [given, hd.1 listener, pending, ← horder, List.append_assoc, List.countP_append, hrest]
  simpa using hcount

end Places

section Runs

variable [DecidableEq Λ] [DecidableEq G] [DecidableEq C]
variable {S : Setup Λ C σ κ δ} {move : Q → Move Λ Q} {listener : G}

structure Placed (listener : G) (s : State Λ G C σ κ δ Q) : Prop where
  regular : Regular listener s.process
  assigned : ∀ ℓ, s.assigned.count ℓ = given listener s.process ℓ

omit [DecidableEq G] [DecidableEq C] in
theorem placed_start (first : Q) (packetSize taskQueueSize : Nat) (conns : C → Conn σ κ) :
    Placed listener (start first packetSize taskQueueSize conns : State Λ G C σ κ δ Q) where
  regular := regular_init listener packetSize taskQueueSize conns
  assigned := fun _ => rfl

inductive Moves (S : Setup Λ C σ κ δ) (move : Q → Move Λ Q) (listener : G) (s : State Λ G C σ κ δ Q) :
    Event Λ G C δ → State Λ G C σ κ δ Q → Prop
  | read {ℓ : Λ} {k : Int → Q} (hm : move s.strategy = .read ℓ k) :
      Moves S move listener s .read { s with strategy := k (s.process.loops ℓ).connCunt }
  | accept {c : C} {next : Q} {p : Process Λ G C σ κ δ} (hm : move s.strategy = .choose (S.loopOf c) next)
      (hp : Interleaving.step S s.process (.accept listener c) = some p) :
      Moves S move listener s (.accept c) ⟨p, next, s.assigned ++ [S.loopOf c]⟩
  | other {l : Label Λ G C δ} {p : Process Λ G C σ κ δ} (hl : ∀ g c, l ≠ .accept g c)
      (hp : Interleaving.step S s.process l = some p) : Moves S move listener s (.other l) { s with process := p }

theorem moves_of_step {s t : State Λ G C σ κ δ Q} {e : Event Λ G C δ} (h : step S move listener s e = some t) :
    Moves S move listener s e t := by
  cases e with
  | read =>
      simp only [step] at h
      split at h
      next hm =>
        cases h
        exact .read hm
      next => cases h
  | accept c =>
      simp only [step] at h
      split at h
      next ℓ next hm =>
        split at h
        next hℓ =>
          subst hℓ
          obtain ⟨p, hp, rfl⟩ := Option.map_eq_some_iff.mp h
          exact .accept hm hp
        next => cases h
      next => cases h
  | other l =>
      cases l with
      | accept => cases h
      | timer | send | close | shutdownWrite | stop | go | loop | op =>
          obtain ⟨p, hp, rfl⟩ := Option.map_eq_some_iff.mp h
          exact .other nofun hp

theorem given_accept {p q : Process Λ G C σ κ δ} {c : C} (h : Interleaving.step S p (.accept listener c) = some q)
    (ℓ : Λ) : given listener q ℓ = given listener p ℓ + if S.loopOf c = ℓ then 1 else 0 := by
  simp only [Interleaving.step] at h
  split at h
  next hidle =>
    split at h
    next =>
      cases h
      simp [given, Process.setPc, pending, queuing, hidle]
    next => cases h
  next => cases h

theorem Placed.step {s t : State Λ G C σ κ δ Q} {e : Event Λ G C δ} (h : Placed listener s) (hok : Calm S s e)
    (hstep : Assignment.step S move listener s e = some t) : Placed listener t := by
  cases moves_of_step hstep with
  | read => exact ⟨h.regular, h.assigned⟩
  | @accept c next p hm hp =>
      have hquiet : Undisturbed S s.process (.accept listener c) := trivial
      refine ⟨h.regular.step hquiet ?_ (steps_of_step hp), ?_⟩
      · rintro g c ⟨rfl, rfl⟩
        rfl
      · intro ℓ
        rw [given_accept hp, ← h.assigned, List.count_append, List.count_singleton]
        simp
  | @other l p hl hp =>
      refine ⟨h.regular.step hok (fun g c he => absurd he (hl g c)) (steps_of_step hp), ?_⟩
      intro ℓ
      rw [given_step h.regular hl (steps_of_step hp)]
      exact h.assigned ℓ

/-- In every undisturbed run, once all registrations have run the count of each loop is the number of times it was
chosen. -/
theorem count_of_drained {first : Q} {packetSize taskQueueSize : Nat} {conns : C → Conn σ κ}
    {es : List (Event Λ G C δ)} {s : State Λ G C σ κ δ Q}
    (hrun : run (Assignment.step S move listener) (start first packetSize taskQueueSize conns) es = some s)
    (hok : Meets (Assignment.step S move listener) (Calm S) (start first packetSize taskQueueSize conns) es)
    (hd : Drained s.process) (ℓ : Λ) : (s.process.loops ℓ).connCunt = s.assigned.count ℓ := by
  have hplaced : Placed listener s := run_invariant_meets (fun _ _ _ h hok hstep => h.step hok hstep)
    (placed_start first packetSize taskQueueSize conns) hok hrun
  rw [hplaced.assigned]
  exact hplaced.regular.drained hd ℓ

end Runs

end Gev.Server.Assignment
