import Gev.Server.Effects
import Gev.Connection.Tasks

namespace Gev.Server.Invariant

open Lib.Atomic Lib.Slices Lib.Runs Connection.State Connection.Code Connection.History Connection.Writing
open Connection.Output Connection.Tasks EventLoop Interleaving Effects

variable {Λ G C σ κ δ : Type}

theorem announced_iff {x : Conn σ κ} : announced x = true ↔ Act.onConnect ∈ x.history := by
  rw [announced, List.any_eq_true]
  constructor
  · rintro ⟨a, ha, hm⟩
    cases a <;> first | exact ha | cases hm
  · intro h
    exact ⟨.onConnect, h, rfl⟩

def registers : Task C δ → Option C
  | .register c => some c
  | _ => none

section Definitions

variable (S : Setup Λ C σ κ δ) (s : Process Λ G C σ κ δ)

def Valid (ℓ : Λ) : Task C δ → Prop
  | .register c => S.loopOf c = ℓ ∧ s.accepted c = true
  | .send c _ _ => S.loopOf c = ℓ ∧ .onConnect ∈ (s.conn S c).history
  | .close c => S.loopOf c = ℓ ∧ s.accepted c = true ∧ (.onConnect ∈ (s.conn S c).history ∨ 0 < S.cfg.idleTime)
  | .closing => True

def ValidPc : Pc Λ C δ → Prop
  | .check c t => Valid S s (S.loopOf c) t ∧ registers t = none
  | .queue ℓ t => Valid S s ℓ t
  | _ => True

def closedFd (x : Conn σ κ) : Prop := ∃ f, .syscall .close f ∈ x.history

/-- No registration comes after its connection was closed. Only an idle timer can bring that about. -/
def Timely : Label Λ G C δ → Prop
  | .op ℓ _ => ∀ o k, (s.loops ℓ).prog = .step o k → admissible o (s.loops ℓ).work = true
  | _ => True

variable [DecidableEq C]

structure Inv : Prop where
  queue : ∀ ℓ, TaskQueue.Invariant (s.loops ℓ).poll
  runs : ∀ ℓ, Runs S.cfg (0 < S.cfg.idleTime) (s.loops ℓ).poll.executed (s.loops ℓ).prog (s.loops ℓ).work
  tasks : ∀ ℓ, ∀ t ∈ pending s ℓ, Valid S s ℓ t
  calls : ∀ g, ValidPc S s (s.pcs g)
  first : ∀ g ℓ c, s.pcs g = .queue ℓ (.register c) →
    .register c ∉ pending s ℓ ∧ ∀ g', s.pcs g' = .queue ℓ (.register c) → g' = g
  once : ∀ ℓ, ((pending s ℓ).filterMap registers).Nodup
  owned : ∀ c, s.accepted c = true → (¬ closedFd (s.conn S c) ↔ s.owner (S.cfg.fd c) = some c)

end Definitions

variable {S : Setup Λ C σ κ δ} {s t : Process Λ G C σ κ δ} {l : Label Λ G C δ}
variable [DecidableEq Λ] [DecidableEq G] [DecidableEq C]

theorem met_of_steps (h : Steps S s l t) {c : C} (hc : .onConnect ∈ (s.conn S c).history) :
    .onConnect ∈ (t.conn S c).history := by
  obtain ⟨acts, hacts, -⟩ := history_of_steps h c
  rw [hacts]
  exact List.mem_append_left _ hc

theorem Valid.mono (h : Steps S s l t) {ℓ : Λ} {u : Task C δ} (hu : Valid S s ℓ u) : Valid S t ℓ u := by
  cases u with
  | register c => exact ⟨hu.1, accepted_of_steps h hu.2⟩
  | send c data finish => exact ⟨hu.1, met_of_steps h hu.2⟩
  | close c => exact ⟨hu.1, accepted_of_steps h hu.2.1, hu.2.2.imp (met_of_steps h) id⟩
  | closing => trivial

section Reading

variable {ℓ : Λ} {c : C}

omit [DecidableEq Λ] [DecidableEq G]

theorem Inv.world (hI : Inv S s) {u : Unit} (hd : (s.loops ℓ).prog = .done u) :
    World S.cfg (0 < S.cfg.idleTime) (s.loops ℓ).poll.executed (s.loops ℓ).work := by
  have hr := hI.runs ℓ
  rw [hd] at hr
  exact hr

theorem Inv.allowed (hI : Inv S s) {o : Op C κ δ} {k : Res o → Prog C κ δ Unit} (ho : (s.loops ℓ).prog = .step o k) :
    Allowed S.cfg (0 < S.cfg.idleTime) (s.loops ℓ).poll.executed o (s.loops ℓ).work := by
  have hr := hI.runs ℓ
  rw [ho] at hr
  exact hr.1

theorem Inv.sound (hI : Inv S s) (ℓ : Λ) (c : C) :
    (phaseOf S.cfg c (s.loops ℓ).work).Sound (0 < S.cfg.idleTime) := by
  cases hp : (s.loops ℓ).prog with
  | done u => exact (hI.world hp).sound c
  | step o k => exact (hI.allowed hp).sound c

theorem Inv.known (hI : Inv S s) (h : ((s.loops ℓ).work.conns c).history ≠ []) :
    Known (s.loops ℓ).poll.executed c := by
  cases hp : (s.loops ℓ).prog with
  | done u => exact (hI.world hp).known c h
  | step o k => exact (hI.allowed hp).known c h

theorem Inv.accepted_of_known (hI : Inv S s) (h : Known (s.loops ℓ).poll.executed c) :
    S.loopOf c = ℓ ∧ s.accepted c = true := by
  rcases h with h | h
  · exact hI.tasks ℓ _ ((TaskQueue.mem_tasks (hI.queue ℓ)).mpr (.inl h))
  · have hv := hI.tasks ℓ _ ((TaskQueue.mem_tasks (hI.queue ℓ)).mpr (.inl h))
    exact ⟨hv.1, hv.2.1⟩

/-- As long as a connection has not closed its descriptor, the descriptor is its own. -/
theorem Inv.owner_iff (hI : Inv S s) (hc : s.accepted c = true) :
    (phaseOf S.cfg c (s.loops (S.loopOf c)).work).FdOpen ↔ s.owner (S.cfg.fd c) = some c := by
  rw [← hI.owned c hc, phaseOf, fdOpen_iff (hI.sound (S.loopOf c) c).ne_broken, closedFd, not_exists]
  rfl

theorem Inv.apart (hI : Inv S s) {early : Prop} (hw : World S.cfg early (s.loops ℓ).poll.executed (s.loops ℓ).work)
    (hℓ : S.loopOf c = ℓ) (hc : s.accepted c = true) (hopen : (phaseOf S.cfg c (s.loops ℓ).work).FdOpen) :
    Apart S.cfg c (s.loops ℓ).work := by
  intro d hd ho hfd
  obtain ⟨hℓd, hacc⟩ := hI.accepted_of_known (.inl (hw.started d ho.met))
  have hopen_d : (phaseOf S.cfg d (s.loops (S.loopOf d)).work).FdOpen := by
    rw [hℓd, ho.live]
    trivial
  have howner := (hI.owner_iff hacc).mp hopen_d
  subst hℓ
  rw [hfd, (hI.owner_iff hc).mp hopen] at howner
  exact hd (Option.some.inj howner).symm

omit [DecidableEq C] in
/-- A connection that is still connected between two tasks has its descriptor open. -/
theorem fdOpen_of_connected {L : Local C σ κ δ} {early : Prop} {ts : List (Task C δ)}
    (hw : World S.cfg early ts L) (hc : (L.conns c).connected = true) : (phaseOf S.cfg c L).FdOpen := by
  rcases hw.each c with hn | ho | hd
  · rw [hn.phase]
    trivial
  · rw [ho.live]
    trivial
  · rw [hd.connected] at hc
    cases hc

def MetBy (s : Process Λ G C σ κ δ) (ℓ : Λ) (early : Prop) : Task C δ → Prop
  | .close c => .onConnect ∈ ((s.loops ℓ).work.conns c).history ∨ early
  | _ => True

theorem Inv.task_runs (hI : Inv S s) {early : Prop} {ts : List (Task C δ)} (hts : ts = (s.loops ℓ).poll.executed)
    (hw : World S.cfg early ts (s.loops ℓ).work) {u : Task C δ} (hu : Valid S s ℓ u) (hmet : MetBy s ℓ early u)
    (hfirst : ∀ c, u = .register c → .register c ∉ ts) :
    Runs S.cfg early (ts ++ [u]) (taskBody S.cfg u) (s.loops ℓ).work := by
  subst hts
  cases u with
  | register c =>
      exact register_runs hw (fun hconn => hI.apart hw hu.1 hu.2 (fdOpen_of_connected hw hconn)) (hfirst c rfl)
  | send c data finish =>
      obtain ⟨rfl, hon⟩ := hu
      refine send_runs hw (fun ho => ?_) hon data finish
      have hacc := (hI.accepted_of_known (.inl (hw.started c hon))).2
      exact hI.apart hw rfl hacc (fdOpen_of_connected hw ho.connected)
  | close c =>
      obtain ⟨rfl, hacc, -⟩ := hu
      exact close_runs hw (fun hconn => hI.apart hw rfl hacc (fdOpen_of_connected hw hconn)) hmet
  | closing => exact closing_runs hw

end Reading

omit [DecidableEq Λ] in
/-- A handler or task is entered with the world in order. -/
theorem Inv.entered_runs (hI : Inv S s) {early : Prop} {ℓ : Λ} {m : Machine.Label G (Task C δ)}
    {p : Machine.State G (Task C δ)} (hw : World S.cfg early (s.loops ℓ).poll.executed (s.loops ℓ).work)
    (hmet : ∀ u rest, TaskQueue.batch (s.loops ℓ).poll = u :: rest → MetBy s ℓ early u) (hc : control m = true)
    (hp : Machine.step S.growQueue (s.loops ℓ).poll m = some p) :
    Runs S.cfg early p.executed (entered S (s.loops ℓ).poll m) (s.loops ℓ).work := by
  cases Machine.steps_of_step hp with
  | append | swapped | notSwapped | wake | closeSet | closeWake => cases hc
  | loop hself hm =>
      cases hm with
      | enter | poll | endBatch | setNeedWake | swap | endRun | test => exact hw
      | readEventFd hcur =>
          simp only [entered, hcur]
          exact hw
      | socket hcur =>
          simp only [entered, hcur]
          apply event_runs hw
          intro c ho
          obtain ⟨hℓ, hacc⟩ := hI.accepted_of_known (.inl (hw.started c ho.met))
          exact hI.apart hw hℓ hacc (fdOpen_of_connected hw ho.connected)
      | @runTask i n v hcur hi hv =>
          simp only [entered, hcur, hv]
          have hbatch : TaskQueue.batch (s.loops ℓ).poll = v :: (contents (s.loops ℓ).poll.heap
              (s.loops ℓ).poll.taskQueueR).drop (i + 1) := by
            obtain ⟨hlt, hget⟩ := List.getElem?_eq_some_iff.mp hv
            rw [TaskQueue.batch, hcur]
            simp only
            rw [List.drop_eq_getElem_cons hlt, hget]
          have hmem : v ∈ pending s ℓ := by
            apply (TaskQueue.mem_tasks (hI.queue ℓ)).mpr
            rw [hbatch]
            exact .inr (.inl List.mem_cons_self)
          apply hI.task_runs rfl hw (hI.tasks ℓ v hmem) (hmet v _ hbatch)
          rintro c rfl hex
          have honce := hI.once ℓ
          rw [pending, ← (hI.queue ℓ).order, hbatch, List.append_assoc, List.filterMap_append] at honce
          have hdis := List.disjoint_of_nodup_append honce
          exact hdis (List.mem_filterMap.mpr ⟨_, hex, rfl⟩) (List.mem_filterMap.mpr ⟨.register c, by simp, rfl⟩)

theorem Inv.step_runs_of (hI : Inv S s) {early : Prop} {ℓ : Λ}
    (hr : Runs S.cfg early (s.loops ℓ).poll.executed (s.loops ℓ).prog (s.loops ℓ).work)
    (hmet : ∀ v, (s.loops ℓ).prog = .done v → ∀ u rest, TaskQueue.batch (s.loops ℓ).poll = u :: rest →
      MetBy s ℓ early u) (hl : Timely s l) (h : Steps S s l t) :
    Runs S.cfg early (t.loops ℓ).poll.executed (t.loops ℓ).prog (t.loops ℓ).work := by
  rcases loop_of_steps h ℓ with ⟨hw, hp, he⟩ | ⟨m, v, hd, hc, hp, hw, he⟩ | ⟨a, o, k, r, rfl, ho, hact, hp, he⟩
  · rw [hw, hp, he]
    exact hr
  · rw [hd] at hr
    rw [hw, he]
    exact hI.entered_runs hr (hmet v hd) hc hp
  · rw [hp, executed_of_pollEffect he]
    rw [ho] at hr
    exact hr.2 (a.choice o) r (t.loops ℓ).work ((if_pos (hl o k ho)).trans hact)

theorem Inv.step_runs (hI : Inv S s) (hl : Timely s l) (h : Steps S s l t) (ℓ : Λ) :
    Runs S.cfg (0 < S.cfg.idleTime) (t.loops ℓ).poll.executed (t.loops ℓ).prog (t.loops ℓ).work := by
  refine hI.step_runs_of (hI.runs ℓ) ?_ hl h
  intro v hd u rest hbatch
  have hu : Valid S s ℓ u := by
    apply hI.tasks
    apply (TaskQueue.mem_tasks (hI.queue ℓ)).mpr
    rw [hbatch]
    exact .inr (.inl List.mem_cons_self)
  cases u with
  | close c =>
      obtain ⟨rfl, -, hmet⟩ := hu
      exact hmet
  | register | send | closing => trivial

omit [DecidableEq Λ] [DecidableEq G] in
/-- A task that the loop goroutine queues is a close of a connection of its own. -/
theorem Inv.posts (hI : Inv S s) {ℓ : Λ} {u : Task C δ} {k : Res (.appendTask u) → Prog C κ δ Unit}
    (ho : (s.loops ℓ).prog = .step (.appendTask u) k) : Valid S s ℓ u ∧ registers u = none := by
  obtain ⟨c, rfl, hk, hmet⟩ := (hI.allowed ho).posts u rfl
  obtain ⟨rfl, hacc⟩ := hI.accepted_of_known hk
  exact ⟨⟨rfl, hacc, .inl hmet⟩, rfl⟩

theorem Inv.step_tasks (hI : Inv S s) (h : Steps S s l t) (ℓ : Λ) : ∀ u ∈ pending t ℓ, Valid S t ℓ u := by
  intro u hu
  apply Valid.mono h
  rcases pending_of_steps h ℓ with hp | ⟨v, hp, hfrom⟩
  · exact hI.tasks ℓ u (hp ▸ hu)
  · rw [hp, List.mem_append, List.mem_singleton] at hu
    rcases hu with hu | rfl
    · exact hI.tasks ℓ u hu
    · rcases hfrom with ⟨g, hg, -⟩ | ⟨a, k, -, ho⟩
      · have hv := hI.calls g
        rw [hg] at hv
        exact hv
      · exact (hI.posts ho).1

theorem ValidPc.mono (h : Steps S s l t) {pc : Pc Λ C δ} (hpc : ValidPc S s pc) : ValidPc S t pc := by
  cases pc with
  | check c u => exact ⟨hpc.1.mono h, hpc.2⟩
  | queue ℓ u => exact Valid.mono h hpc
  | idle | queued | swapCount | testRunning | setRunning | wakePoller | waitDone => trivial

omit [DecidableEq Λ] [DecidableEq G] [DecidableEq C] in
theorem validPc_returned (ℓ : Λ) (u : Task C δ) : ValidPc S s (returned ℓ u) := by
  cases u <;> trivial

/-- The one goroutine that moved, if any, and where to. -/
theorem Inv.step_pc (hI : Inv S s) (h : Steps S s l t) :
    t.pcs = s.pcs ∨ ∃ g pc, t.pcs = Function.update s.pcs g pc ∧ ValidPc S t pc ∧
      ∀ ℓ c, pc = .queue ℓ (.register c) → l = .accept g c ∧ ℓ = S.loopOf c ∧ s.accepted c = false := by
  have hmono : ∀ pc, ValidPc S s pc → ValidPc S t pc := fun _ => ValidPc.mono h
  cases h with
  | silent | loop | op => exact .inl rfl
  | @accept g c hg hnew hfree =>
      refine .inr ⟨g, _, rfl, ⟨rfl, by simp⟩, ?_⟩
      intro ℓ d hd
      cases hd
      exact ⟨rfl, rfl, hnew⟩
  | @call g c u l hg hu =>
      refine .inr ⟨g, _, rfl, ?_, by simp⟩
      rcases hu with ⟨data, finish, rfl, ha⟩ | ⟨rfl, ha⟩
      · exact ⟨⟨rfl, announced_iff.mp ha⟩, rfl⟩
      · rcases ha with ha | ⟨hidle, hacc⟩
        · have hmet := announced_iff.mp ha
          have hacc := (hI.accepted_of_known (hI.known (List.ne_nil_of_mem hmet))).2
          exact ⟨⟨rfl, hacc, .inl hmet⟩, rfl⟩
        · exact ⟨⟨rfl, hacc, .inr hidle⟩, rfl⟩
  | @stop g ℓ hg => exact .inr ⟨g, _, rfl, trivial, by simp⟩
  | @enqueue g c u hg =>
      have hv := hI.calls g
      rw [hg] at hv
      refine .inr ⟨g, _, rfl, hmono (.queue (S.loopOf c) u) hv.1, ?_⟩
      intro ℓ d hd
      cases hd
      exact absurd hv.2 (by simp [registers])
  | @refuse g c u hg => exact .inr ⟨g, _, rfl, trivial, by simp⟩
  | @append g ℓ u p hg hp => exact .inr ⟨g, _, rfl, trivial, by simp⟩
  | @inQueue g ℓ u m p pc hg hm hp hpc =>
      refine .inr ⟨g, pc, rfl, ?_, ?_⟩
      · rcases hpc with rfl | rfl
        · trivial
        · exact validPc_returned ℓ u
      · intro ℓ' c hc
        rcases hpc with rfl | rfl
        · cases hc
        · cases u <;> cases hc
  | @swapCount g ℓ hg => exact .inr ⟨g, _, rfl, trivial, by simp⟩
  | @testRunning g ℓ pc hg hpc =>
      refine .inr ⟨g, pc, rfl, ?_, ?_⟩
      · rcases hpc with ⟨rfl, -⟩ | ⟨rfl, -⟩ <;> trivial
      · rcases hpc with ⟨rfl, -⟩ | ⟨rfl, -⟩ <;> simp
  | @closePoller g ℓ m p pc hg hp =>
      refine .inr ⟨g, pc, rfl, ?_, ?_⟩
      · rcases hg with ⟨-, -, rfl⟩ | ⟨-, -, rfl⟩ <;> trivial
      · rcases hg with ⟨-, -, rfl⟩ | ⟨-, -, rfl⟩ <;> simp
  | @waitDone g ℓ hg hx => exact .inr ⟨g, _, rfl, trivial, by simp⟩

theorem Inv.step_calls (hI : Inv S s) (h : Steps S s l t) (g : G) : ValidPc S t (t.pcs g) := by
  have hold := ValidPc.mono h (hI.calls g)
  rcases hI.step_pc h with hp | ⟨g₀, pc, hp, hv, -⟩
  · rwa [hp]
  · rw [hp]
    by_cases hg : g = g₀
    · subst hg
      rwa [Function.update_self]
    · rwa [Function.update_of_ne hg]

/-- The task appended in a step is no registration, unless it comes from the one goroutine that was about to queue it.
-/
theorem Inv.step_register (hI : Inv S s) (h : Steps S s l t) {ℓ : Λ} {c : C} (hc : .register c ∈ pending t ℓ) :
    .register c ∈ pending s ℓ ∨ ∃ g, s.pcs g = .queue ℓ (.register c) ∧
      t.pcs = Function.update s.pcs g (.queued ℓ (.register c)) := by
  rcases pending_of_steps h ℓ with hp | ⟨u, hp, hfrom⟩
  · exact .inl (hp ▸ hc)
  · rw [hp, List.mem_append, List.mem_singleton] at hc
    rcases hc with hc | rfl
    · exact .inl hc
    · rcases hfrom with hg | ⟨a, k, -, ho⟩
      · exact .inr hg
      · exact absurd (hI.posts ho).2 (by simp [registers])

theorem Inv.step_first (hI : Inv S s) (h : Steps S s l t) (g : G) (ℓ : Λ) (c : C)
    (hg : t.pcs g = .queue ℓ (.register c)) :
    .register c ∉ pending t ℓ ∧ ∀ g', t.pcs g' = .queue ℓ (.register c) → g' = g := by
  -- Either the goroutine has just accepted the connection, or it stood there before.
  by_cases hacc : s.accepted c = false
  · have hnot : ∀ g', s.pcs g' ≠ .queue ℓ (.register c) := by
      intro g' hg'
      have hv := hI.calls g'
      rw [hg'] at hv
      simp [hv.2] at hacc
    constructor
    · intro hc
      rcases hI.step_register h hc with hc | ⟨g', hg', -⟩
      · have hv := hI.tasks ℓ _ hc
        simp [hv.2] at hacc
      · exact hnot g' hg'
    · intro g' hg'
      rcases hI.step_pc h with hp | ⟨g₀, pc, hp, -, -⟩
      · exact absurd (hp ▸ hg) (hnot g)
      · have hmoved : ∀ g₁, t.pcs g₁ = .queue ℓ (.register c) → g₁ = g₀ := by
          intro g₁ hg₁
          by_contra hne
          rw [hp, Function.update_of_ne hne] at hg₁
          exact hnot g₁ hg₁
        rw [hmoved g hg, hmoved g' hg']
  · have hold : ∀ g', t.pcs g' = .queue ℓ (.register c) → s.pcs g' = .queue ℓ (.register c) := by
      intro g' hg'
      rcases hI.step_pc h with hp | ⟨g₀, pc, hp, -, hpc⟩
      · rwa [hp] at hg'
      · by_cases hne : g' = g₀
        · subst hne
          rw [hp, Function.update_self] at hg'
          exact absurd (hpc ℓ c hg').2.2 hacc
        · rwa [hp, Function.update_of_ne hne] at hg'
    obtain ⟨hnone, huniq⟩ := hI.first g ℓ c (hold g hg)
    constructor
    · intro hc
      rcases hI.step_register h hc with hc | ⟨g', hg', hp⟩
      · exact hnone hc
      · cases huniq g' hg'
        rw [hp, Function.update_self] at hg
        cases hg
    · intro g' hg'
      exact huniq g' (hold g' hg')

theorem Inv.step_once (hI : Inv S s) (h : Steps S s l t) (ℓ : Λ) : ((pending t ℓ).filterMap registers).Nodup := by
  rcases pending_of_steps h ℓ with hp | ⟨u, hp, hfrom⟩
  · rw [hp]
    exact hI.once ℓ
  · rw [hp, List.filterMap_append]
    cases hu : registers u with
    | none => simpa [hu] using hI.once ℓ
    | some c =>
        have hreg : u = .register c := by
          cases u <;> simp [registers] at hu
          rw [hu]
        subst hreg
        rcases hfrom with ⟨g, hg, -⟩ | ⟨a, k, -, ho⟩
        · have hnot := (hI.first g ℓ c hg).1
          apply List.Nodup.append (hI.once ℓ) (by simp [registers])
          intro d hd hd'
          obtain ⟨v, hv, hvd⟩ := List.mem_filterMap.mp hd
          have hdc : d = c := by simpa [registers] using hd'
          subst hdc
          cases v <;> simp [registers] at hvd
          subst hvd
          exact hnot hv
        · exact absurd (hI.posts ho).2 (by simp [registers])

theorem closedFd_of_steps (h : Steps S s l t) {c : C}
    (hne : ∀ a f k, l = .op (S.loopOf c) a → (s.loops (S.loopOf c)).prog ≠ .step (.unixClose c f) k) :
    closedFd (t.conn S c) ↔ closedFd (s.conn S c) := by
  obtain ⟨acts, hacts, hclose⟩ := history_of_steps h c
  constructor
  · rintro ⟨f, hf⟩
    rw [hacts, List.mem_append] at hf
    rcases hf with hf | hf
    · exact ⟨f, hf⟩
    · obtain ⟨a, k, hl, ho⟩ := hclose f hf
      exact absurd ho (hne a f k hl)
  · rintro ⟨f, hf⟩
    exact ⟨f, hacts ▸ List.mem_append_left _ hf⟩

omit [DecidableEq Λ] [DecidableEq G] in
theorem Inv.fresh (hI : Inv S s) {c : C} (hc : s.accepted c = false) : ¬ closedFd (s.conn S c) := by
  rintro ⟨f, hf⟩
  have hacc := (hI.accepted_of_known (hI.known (List.ne_nil_of_mem hf))).2
  rw [hc] at hacc
  cases hacc

/-- The close of a descriptor takes it from its connection and from nobody else. -/
theorem Inv.close_owned (hI : Inv S s) {ℓ : Λ} {a : Answers C} {d : C} {fd : Fd}
    {k : Res (.unixClose d fd) → Prog C κ δ Unit} (ho : (s.loops ℓ).prog = .step (.unixClose d fd) k)
    (h : Steps S s (.op ℓ a) t) (hconn : closedFd (t.conn S d)) (howner : t.owner = Function.update s.owner fd none)
    {c : C} (hc : s.accepted c = true) : ¬ closedFd (t.conn S c) ↔ t.owner (S.cfg.fd c) = some c := by
  obtain ⟨rfl, hk, hopen⟩ := (hI.allowed ho).target d fd rfl
  obtain ⟨rfl, hacc⟩ := hI.accepted_of_known hk
  have hd : s.owner (S.cfg.fd d) = some d := (hI.owner_iff hacc).mp (hopen.mp rfl)
  by_cases hcd : c = d
  · subst hcd
    simp [hconn, howner]
  · have hsame : closedFd (t.conn S c) ↔ closedFd (s.conn S c) := by
      apply closedFd_of_steps h
      intro a' f k' hl ho'
      rw [← (Label.op.inj hl).1, ho] at ho'
      cases ho'
      exact hcd rfl
    rw [hsame, hI.owned c hc, howner]
    by_cases hfd : S.cfg.fd c = S.cfg.fd d
    · rw [hfd, hd, Function.update_self]
      simp [Ne.symm hcd]
    · rw [Function.update_of_ne hfd]

theorem Inv.step_owned (hI : Inv S s) (h : Steps S s l t) (c : C) (hc : t.accepted c = true) :
    ¬ closedFd (t.conn S c) ↔ t.owner (S.cfg.fd c) = some c := by
  have hsteps := h
  cases h with
  | @accept g d hg hnew hfree =>
      rw [closedFd_of_steps hsteps (by simp)]
      by_cases hcd : c = d
      · subst hcd
        simpa using hI.fresh hnew
      · have hacc : s.accepted c = true := by simpa [hcd] using hc
        rw [hI.owned c hacc]
        by_cases hfd : S.cfg.fd c = S.cfg.fd d
        · simp [hfd, hfree, Ne.symm hcd]
        · simp [hfd]
  | @op ℓ a o k r work p ho hact hp =>
      by_cases hclose : ∃ d fd, o = .unixClose d fd
      · obtain ⟨d, fd, rfl⟩ := hclose
        apply hI.close_owned ho hsteps _ rfl hc
        obtain ⟨rfl, hk, -⟩ := (hI.allowed ho).target d fd rfl
        obtain ⟨rfl, -⟩ := hI.accepted_of_known hk
        refine ⟨S.cfg.fd d, ?_⟩
        change _ ∈ (((s.setLoop (S.loopOf d) _).loops (S.loopOf d)).work.conns d).history
        rw [loops_setLoop]
        cases hact
        simp [setInterest, Local.modify, Conn.note]
      · rw [closedFd_of_steps hsteps, hI.owned c hc]
        · change _ ↔ ownerEffect s.owner o (S.cfg.fd c) = some c
          have howner : ownerEffect s.owner o = s.owner := by
            cases o <;> first | rfl | exact absurd ⟨_, _, rfl⟩ hclose
          rw [howner]
        · intro a' f k' hl ho'
          cases hl
          rw [ho] at ho'
          cases ho'
          exact hclose ⟨c, f, rfl⟩
  | call _ _ hl =>
      rw [closedFd_of_steps hsteps (fun a f k he => absurd he (hl _ _))]
      exact hI.owned c hc
  | silent hl => exact hI.owned c hc
  | stop | enqueue | refuse | append | inQueue | swapCount | testRunning | closePoller | waitDone | loop =>
      rw [closedFd_of_steps hsteps (by simp)]
      exact hI.owned c hc

theorem Inv.step (hI : Inv S s) (hl : Timely s l) (h : Steps S s l t) : Inv S t where
  queue ℓ := by
    rcases poll_of_steps h ℓ with hp | ⟨m, hm, -⟩
    · rw [hp]
      exact hI.queue ℓ
    · exact TaskQueue.step_invariant S.growQueue _ m _ (hI.queue ℓ) hm
  runs := hI.step_runs hl h
  tasks := hI.step_tasks h
  calls := hI.step_calls h
  first := hI.step_first h
  once := hI.step_once h
  owned := hI.step_owned h

omit [DecidableEq C] in
theorem world_init (cfg : Config C σ κ δ) (early : Prop) (packetSize : Nat) {conns : C → Conn σ κ}
    (hconns : ∀ c, ∃ user now, conns c = newConnection cfg user now) :
    World cfg early [] (newLocal packetSize conns) := by
  have hhist : ∀ c, (conns c).history = [] := by
    intro c
    obtain ⟨user, now, hc⟩ := hconns c
    rw [hc]
    rfl
  constructor
  case each =>
    intro c
    obtain ⟨user, now, hc⟩ := hconns c
    refine .inl ⟨?_, hhist c, ?_, ?_⟩ <;> simp [newLocal, hc, newConnection]
  case entries =>
    intro fd c he
    cases he
  case known => exact fun c hne => absurd (hhist c) hne
  case started =>
    intro c hon
    simp [newLocal, hhist] at hon
  case ended => simp
  case stopped => simp

omit [DecidableEq Λ] [DecidableEq G] in
theorem inv_init (packetSize taskQueueSize : Nat) {conns : C → Conn σ κ}
    (hconns : ∀ c, ∃ user now, conns c = newConnection S.cfg user now) :
    Inv S (init packetSize taskQueueSize conns : Process Λ G C σ κ δ) := by
  have hnil : ∀ ℓ : Λ, pending (init packetSize taskQueueSize conns : Process Λ G C σ κ δ) ℓ = [] := fun _ => rfl
  constructor
  case queue => exact fun _ => TaskQueue.invariant_init taskQueueSize
  case runs => exact fun _ => world_init S.cfg _ packetSize hconns
  case tasks => simp [hnil]
  case calls => exact fun _ => trivial
  case first =>
    intro g ℓ c hg
    cases hg
  case once => simp [hnil]
  case owned =>
    intro c hc
    cases hc

end Gev.Server.Invariant
