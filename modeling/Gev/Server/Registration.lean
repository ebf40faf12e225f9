import Gev.Server.LifeCycle

namespace Gev.Server.Registration

open Lib.Atomic Lib.Runs Connection.State Connection.Code Connection.History Connection.Writing
open Connection.Tasks EventLoop Interleaving Effects Invariant LifeCycle

variable {Λ G C σ κ δ : Type}

def Queued (s : Process Λ G C σ κ δ) : Label Λ G C δ → Prop
  | .go g => ∀ ℓ c, s.pcs g = .queue ℓ (.close c) → .register c ∈ pending s ℓ
  | _ => True

/-- In a list of tasks every close has the registration of its connection before it. -/
def Behind (ts : List (Task C δ)) : Prop :=
  ∀ before after c, ts = before ++ .close c :: after → .register c ∈ before

theorem Behind.nil : Behind ([] : List (Task C δ)) := by
  intro before after c h
  simp at h

theorem Behind.concat {ts : List (Task C δ)} (h : Behind ts) {u : Task C δ}
    (hu : ∀ c, u = .close c → .register c ∈ ts) : Behind (ts ++ [u]) := by
  intro before after c hsplit
  cases after using List.reverseRecOn with
  | nil =>
      obtain ⟨rfl, hc⟩ := List.append_inj' hsplit rfl
      exact hu c (List.singleton_inj.mp hc)
  | append_singleton after v =>
      rw [← List.cons_append, ← List.append_assoc] at hsplit
      exact h before after c (List.append_inj' hsplit rfl).1

theorem Behind.of_append {ts us : List (Task C δ)} (h : Behind (ts ++ us)) : Behind ts := by
  rintro before after c rfl
  exact h before (after ++ us) c (by simp)

theorem Behind.mem {ts : List (Task C δ)} (h : Behind ts) {c : C} (hc : .close c ∈ ts) : .register c ∈ ts := by
  obtain ⟨before, after, rfl⟩ := List.append_of_mem hc
  exact List.mem_append_left _ (h before after c rfl)

variable [DecidableEq C]

structure Ordered (S : Setup Λ C σ κ δ) (s : Process Λ G C σ κ δ) : Prop where
  inv : Inv S s
  runs : ∀ ℓ, Runs S.cfg False (s.loops ℓ).poll.executed (s.loops ℓ).prog (s.loops ℓ).work
  behind : ∀ ℓ, Behind (pending s ℓ)
  called : ∀ ℓ c, .register c ∈ (s.loops ℓ).poll.executed →
    .onConnect ∈ ((s.loops ℓ).work.conns c).history ∨ ∃ k, (s.loops ℓ).prog = .step (.onConnect c) k

variable {S : Setup Λ C σ κ δ} {s t : Process Λ G C σ κ δ} {l : Label Λ G C δ}

theorem Ordered.allowed (hO : Ordered S s) {ℓ : Λ} {o : Op C κ δ} {k : Res o → Prog C κ δ Unit}
    (ho : (s.loops ℓ).prog = .step o k) : Allowed S.cfg False (s.loops ℓ).poll.executed o (s.loops ℓ).work := by
  have hr := hO.runs ℓ
  rw [ho] at hr
  exact hr.1

theorem Ordered.timely (hO : Ordered S s) (l : Label Λ G C δ) : Timely s l := by
  cases l with
  | op ℓ a =>
      intro o k ho
      exact (hO.allowed ho).admitted.resolve_right id
  | accept | timer | send | close | shutdownWrite | stop | go | loop => trivial

theorem Ordered.sound (hO : Ordered S s) (c : C) : (phase (S.cfg.fd c) (s.conn S c).history).Sound False := by
  cases hp : (s.loops (S.loopOf c)).prog with
  | done u =>
      have hr := hO.runs (S.loopOf c)
      rw [hp] at hr
      exact World.sound hr c
  | step o k => exact (hO.allowed hp).sound c

theorem executed_append (hO : Ordered S s) (ℓ : Λ) : ∃ us, pending s ℓ = (s.loops ℓ).poll.executed ++ us ∧
    ∀ u rest, TaskQueue.batch (s.loops ℓ).poll = u :: rest → ∃ vs, us = u :: vs := by
  refine ⟨_, ((hO.inv.queue ℓ).order).symm.trans (List.append_assoc _ _ _), ?_⟩
  intro u rest hbatch
  rw [hbatch]
  exact ⟨_, rfl⟩

/-- A close that is about to run finds OnConnect called. -/
theorem Ordered.met (hO : Ordered S s) {ℓ : Λ} {v : Unit} (hd : (s.loops ℓ).prog = .done v) {u : Task C δ}
    {rest : List (Task C δ)} (hbatch : TaskQueue.batch (s.loops ℓ).poll = u :: rest) : MetBy s ℓ False u := by
  cases u with
  | close c =>
      obtain ⟨us, hsplit, hhead⟩ := executed_append hO ℓ
      obtain ⟨vs, rfl⟩ := hhead _ rest hbatch
      left
      apply (hO.called ℓ c (hO.behind ℓ _ vs c hsplit)).resolve_right
      rintro ⟨k, hk⟩
      rw [hd] at hk
      cases hk
  | register | send | closing => trivial

variable [DecidableEq Λ] [DecidableEq G]

theorem Ordered.step_behind (hO : Ordered S s) (hl : Queued s l) (h : Steps S s l t) (ℓ : Λ) :
    Behind (pending t ℓ) := by
  rcases poll_of_steps h ℓ with hp | ⟨m, hm, hd⟩
  · rw [pending, hp]
    exact hO.behind ℓ
  · by_cases happ : ∃ g u, m = .append g u
    · obtain ⟨g, u, rfl⟩ := happ
      rw [pending, (TaskQueue.tasks_of_append hm).1]
      apply (hO.behind ℓ).concat
      rintro c rfl
      cases hd with
      | append hg => exact hl ℓ c hg
      | inQueue hm => rcases hm with hm | hm <;> cases hm
      | loop hc => cases hc
      | op ho hq =>
          cases hq
          obtain ⟨d, hcd, hk, -⟩ := (hO.allowed ho).posts _ rfl
          cases hcd
          obtain ⟨us, hsplit, -⟩ := executed_append hO ℓ
          have hex := hO.behind ℓ
          rw [hsplit] at hex
          change _ ∈ pending s ℓ
          rw [hsplit]
          exact List.mem_append_left us (hk.elim id hex.of_append.mem)
    · rw [pending, TaskQueue.tasks_of_step hm (fun g u he => happ ⟨g, u, he⟩)]
      exact hO.behind ℓ

theorem Ordered.step_called (hO : Ordered S s) (h : Steps S s l t) (ℓ : Λ) (c : C)
    (hc : .register c ∈ (t.loops ℓ).poll.executed) :
    .onConnect ∈ ((t.loops ℓ).work.conns c).history ∨ ∃ k, (t.loops ℓ).prog = .step (.onConnect c) k := by
  rcases loop_of_steps h ℓ with ⟨hw, hp, he⟩ | ⟨m, v, hd, hcon, hp, hw, he⟩ | ⟨a, o, k, r, rfl, ho, hact, hp, he⟩
  · rw [hw, hp]
    rw [he] at hc
    exact hO.called ℓ c hc
  · rw [hw, he]
    have hold : .register c ∈ (s.loops ℓ).poll.executed → .onConnect ∈ ((s.loops ℓ).work.conns c).history := by
      intro hex
      apply (hO.called ℓ c hex).resolve_right
      rintro ⟨k, hk⟩
      rw [hd] at hk
      cases hk
    by_cases hm : m = .runTask
    · subst hm
      generalize (t.loops ℓ).poll = p at hp hc
      cases Machine.steps_of_step hp with
      | loop _ hmoves =>
          cases hmoves with
          | @runTask i n u hcur hi hu =>
              rcases List.mem_append.mp hc with hc | hc
              · exact .inl (hold hc)
              · cases List.mem_singleton.mp hc
                simp only [entered, hcur, hu]
                exact .inr ⟨_, rfl⟩
    · rw [TaskQueue.executed_of_step hp hm] at hc
      exact .inl (hold hc)
  · rw [executed_of_pollEffect he] at hc
    left
    rcases hO.called ℓ c hc with hon | ⟨k', hk'⟩
    · obtain ⟨acts, hacts, -⟩ := act_grows S.cfg hact c
      rw [hacts]
      exact List.mem_append_left _ hon
    · rw [ho] at hk'
      cases hk'
      generalize (t.loops ℓ).work = L at hact ⊢
      cases hact
      simp [Local.modify, Conn.note]

theorem Ordered.step (hO : Ordered S s) (hl : Queued s l) (h : Steps S s l t) : Ordered S t where
  inv := hO.inv.step (hO.timely l) h
  runs := fun ℓ => hO.inv.step_runs_of (hO.runs ℓ) (fun _ hd _ _ hbatch => hO.met hd hbatch) (hO.timely l) h
  behind := hO.step_behind hl h
  called := hO.step_called h

omit [DecidableEq Λ] [DecidableEq G] in
theorem ordered_init (packetSize taskQueueSize : Nat) {conns : C → Conn σ κ}
    (hconns : ∀ c, ∃ user now, conns c = newConnection S.cfg user now) :
    Ordered S (init packetSize taskQueueSize conns : Process Λ G C σ κ δ) where
  inv := inv_init packetSize taskQueueSize hconns
  runs := fun _ => world_init S.cfg False packetSize hconns
  behind := fun _ => .nil
  called := by
    intro ℓ c hc
    cases hc

def idling : Setup Unit Nat Unit Unit Bytes := { sample with cfg := { sample.cfg with idleTime := 1000000000 } }

def idlingInit : Process Unit Bool Nat Unit Unit Bytes := init 8 4 fun _ => newConnection idling.cfg () 0

def expiring : List Step :=
  registering ++ [.timer false 1 1000000000, .go false] ++ deliver false ++ ops 10 true ++ runs [.endRun, .test]

def inTurn (s : Process Unit Bool Nat Unit Unit Bytes) : Step → Bool
  | .go g => match s.pcs g with
    | .queue ℓ (.close c) => decide (.register c ∈ pending s ℓ)
    | _ => true
  | _ => true

theorem queued_of_inTurn {s : Process Unit Bool Nat Unit Unit Bytes} {l : Step} (h : inTurn s l = true) :
    Queued s l := by
  cases l with
  | go g =>
      intro ℓ c hg
      simpa [inTurn, hg] using h
  | accept | timer | send | close | shutdownWrite | stop | loop | op => trivial

/-- In every run in which each close is queued behind its registration, no handleClose runs before the registration,
no OnClose comes before OnConnect, and the descriptor that AddSocketAndEnableRead gives to epoll is the connection's
own. -/
theorem registration_before_close (S : Setup Λ C σ κ δ) (packetSize taskQueueSize : Nat) (conns : C → Conn σ κ)
    (hconns : ∀ c, ∃ user now, conns c = newConnection S.cfg user now) (ls : List (Label Λ G C δ))
    (s : Process Λ G C σ κ δ) (hok : Meets (step S) Queued (init packetSize taskQueueSize conns) ls)
    (h : run (step S) (init packetSize taskQueueSize conns) ls = some s) :
    (∀ ℓ c before after, (s.loops ℓ).poll.executed = before ++ .close c :: after → .register c ∈ before) ∧
    (∀ c past future, (s.conn S c).history = past ++ .onClose :: future → .onConnect ∈ past) ∧
    ∀ ℓ c fd events k, (s.loops ℓ).prog = .step (.epollCtl c .add fd events) k →
      s.owner fd = some c ∧ .syscall .close fd ∉ (s.conn S c).history := by
  have hO : Ordered S s := run_invariant_meets (I := Ordered S)
    (fun _ _ _ hO hl ht => hO.step hl (steps_of_step ht)) (ordered_init packetSize taskQueueSize hconns) hok h
  refine ⟨?_, ?_, ?_⟩
  · intro ℓ c before after hsplit
    obtain ⟨us, hpending, -⟩ := executed_append hO ℓ
    have hbehind := hO.behind ℓ
    rw [hpending] at hbehind
    exact hbehind.of_append before after c hsplit
  · intro c past future hsplit
    have hs := hO.sound c
    rw [hsplit] at hs
    exact (inOrder_of_sound future hs).1
  · intro ℓ c fd events k ho
    obtain ⟨rfl, hk, hopen⟩ := (hO.allowed ho).target c fd rfl
    obtain ⟨rfl, hacc⟩ := hO.inv.accepted_of_known hk
    have hfd := hopen.mp ((hO.allowed ho).admitted.resolve_right id)
    exact ⟨(hO.inv.owner_iff hacc).mp hfd, (fdOpen_iff (hO.sound c).ne_broken).mp hfd _⟩

theorem registration_before_close_expiring : ∃ s, run (step idling) idlingInit expiring = some s ∧
    (s.loops ()).poll.executed = [.register 1, .close 1] ∧
    ∀ past future, (s.conn idling 1).history = past ++ .onClose :: future → .onConnect ∈ past := by
  have hrun : ∃ s, run (step idling) idlingInit expiring = some s ∧
      (s.loops ()).poll.executed = [.register 1, .close 1] := ⟨_, rfl, rfl⟩
  obtain ⟨s, hs, hex⟩ := hrun
  have hok : Meets (step idling) (fun s l => inTurn s l = true) idlingInit expiring := meets_of_check rfl
  have hfirst := registration_before_close idling 8 4 _ (fun _ => ⟨(), 0, rfl⟩) expiring s
    (hok.mono fun _ _ => queued_of_inTurn) hs
  exact ⟨s, hs, hex, hfirst.2.1 1⟩

def overtaken : List Step :=
  runs [.enter] ++ [.accept true 1, .timer false 1 1000000000, .go false] ++ deliver false ++ ops 10 false ++
    runs [.endRun, .test] ++ deliver true ++ ops 2 true

theorem close_before_registration : ∃ s k, run (step idling) idlingInit overtaken = some s ∧
    (s.loops ()).poll.executed = [.close 1, .register 1] ∧
    (s.conn idling 1).history = [.syscall (.epollCtl .del false) 5, .onClose, .syscall .close 5, .put .inBuffer,
      .put .outBuffer, .onConnect] ∧
    (s.loops ()).prog = .step (.epollCtl 1 .add 5 readEvent) k :=
  ⟨_, _, rfl, rfl, rfl, rfl⟩

end Gev.Server.Registration
