import Gev.Server.Interleaving
import Gev.Connection.History

namespace Gev.Server.Effects

open Lib.Atomic Connection.State Connection.Code Connection.History EventLoop Interleaving

variable {Λ G C σ κ δ : Type} {S : Setup Λ C σ κ δ} {s t : Process Λ G C σ κ δ} {l : Label Λ G C δ}

def pending (s : Process Λ G C σ κ δ) (ℓ : Λ) : List (Task C δ) := TaskQueue.tasks (s.loops ℓ).poll

section Loops

variable [DecidableEq Λ] [DecidableEq G] [DecidableEq C]

omit [DecidableEq G] [DecidableEq C] in
theorem loops_setLoop (s : Process Λ G C σ κ δ) (ℓ : Λ) (x : Loop G C σ κ δ) : (s.setLoop ℓ x).loops ℓ = x := by
  simp [Process.setLoop]

omit [DecidableEq G] [DecidableEq C] in
theorem loops_setLoop_ne (s : Process Λ G C σ κ δ) {ℓ m : Λ} (x : Loop G C σ κ δ) (h : m ≠ ℓ) :
    (s.setLoop ℓ x).loops m = s.loops m := by
  simp [Process.setLoop, h]

def Still (x y : Loop G C σ κ δ) : Prop :=
  y.work = x.work ∧ y.prog = x.prog ∧ y.poll.executed = x.poll.executed

omit [DecidableEq G] [DecidableEq C] in
theorem still_setLoop (s : Process Λ G C σ κ δ) {ℓ : Λ} (x : Loop G C σ κ δ) (h : Still (s.loops ℓ) x) (m : Λ) :
    Still (s.loops m) ((s.setLoop ℓ x).loops m) := by
  by_cases hm : m = ℓ
  · subst hm
    rwa [loops_setLoop]
  · rw [loops_setLoop_ne s x hm]
    exact ⟨rfl, rfl, rfl⟩

inductive Queues : Op C κ δ → Machine.Label G (Task C δ) → Prop
  | append (u : Task C δ) : Queues (.appendTask u) (.append none u)
  | compareAndSwap : Queues .compareAndSwap (.compareAndSwap none)
  | wake : Queues .wake (.wake none)

omit [DecidableEq Λ] [DecidableEq C] in
theorem poll_of_effect {p q : Machine.State G (Task C δ)} {b : Bool} {o : Op C κ δ}
    (h : pollEffect S p b o = some q) :
    (q = p ∧ ∀ u, o ≠ .appendTask u) ∨ ∃ m, Machine.step S.growQueue p m = some q ∧ Queues o m := by
  cases o
  case appendTask u => exact .inr ⟨.append none u, h, .append u⟩
  case compareAndSwap =>
    simp only [pollEffect] at h
    split at h
    · exact .inr ⟨_, h, .compareAndSwap⟩
    · cases h
  case wake => exact .inr ⟨.wake none, h, .wake⟩
  all_goals
    cases h
    exact .inl ⟨rfl, by simp⟩

omit [DecidableEq Λ] [DecidableEq C] in
theorem executed_of_pollEffect {p q : Machine.State G (Task C δ)} {b : Bool} {o : Op C κ δ}
    (h : pollEffect S p b o = some q) : q.executed = p.executed := by
  rcases poll_of_effect h with ⟨rfl, -⟩ | ⟨m, hm, hq⟩
  · rfl
  · apply TaskQueue.executed_of_step hm
    rintro rfl
    cases hq

/-- What a step does to a loop, by whether it is a step of its goroutine. -/
theorem loop_of_steps (h : Steps S s l t) (ℓ : Λ) :
    Still (s.loops ℓ) (t.loops ℓ) ∨
      (∃ m u, (s.loops ℓ).prog = .done u ∧ control m = true ∧
        Machine.step S.growQueue (s.loops ℓ).poll m = some (t.loops ℓ).poll ∧
        (t.loops ℓ).work = (s.loops ℓ).work ∧ (t.loops ℓ).prog = entered S (s.loops ℓ).poll m) ∨
      (∃ a o k r, l = .op ℓ a ∧ (s.loops ℓ).prog = .step o k ∧
        act S.cfg o (a.choice o) (s.loops ℓ).work = some (r, (t.loops ℓ).work) ∧ (t.loops ℓ).prog = k r ∧
        pollEffect S (s.loops ℓ).poll a.ok o = some (t.loops ℓ).poll) := by
  cases h with
  | accept | call | silent | stop | enqueue | refuse | testRunning | waitDone => exact .inl ⟨rfl, rfl, rfl⟩
  | @append g ℓ₀ u p hg hp =>
      exact .inl (still_setLoop s { s.loops ℓ₀ with poll := p } ⟨rfl, rfl, (TaskQueue.tasks_of_append hp).2⟩ ℓ)
  | @inQueue g ℓ₀ u m p pc hg hm hp =>
      refine .inl (still_setLoop s { s.loops ℓ₀ with poll := p } ⟨rfl, rfl, TaskQueue.executed_of_step hp ?_⟩ ℓ)
      rcases hm with rfl | rfl <;> simp
  | @swapCount g ℓ₀ hg => exact .inl (still_setLoop s { s.loops ℓ₀ with connCunt := 0 } ⟨rfl, rfl, rfl⟩ ℓ)
  | @closePoller g ℓ₀ m p pc hg hp =>
      refine .inl (still_setLoop s { s.loops ℓ₀ with poll := p } ⟨rfl, rfl, TaskQueue.executed_of_step hp ?_⟩ ℓ)
      rcases hg with ⟨-, rfl, -⟩ | ⟨-, rfl, -⟩ <;> simp
  | @loop ℓ₀ m p u hd hc hp =>
      by_cases hℓ : ℓ = ℓ₀
      · subst hℓ
        rw [loops_setLoop]
        exact .inr (.inl ⟨m, u, hd, hc, hp, rfl, rfl⟩)
      · rw [loops_setLoop_ne s _ hℓ]
        exact .inl ⟨rfl, rfl, rfl⟩
  | @op ℓ₀ a o k r work p ho hact hp =>
      by_cases hℓ : ℓ = ℓ₀
      · subst hℓ
        right
        right
        refine ⟨a, o, k, r, rfl, ho, ?_⟩
        change _ = some (r, ((s.setLoop ℓ _).loops ℓ).work) ∧ ((s.setLoop ℓ _).loops ℓ).prog = _ ∧
          _ = some ((s.setLoop ℓ _).loops ℓ).poll
        rw [loops_setLoop]
        exact ⟨hact, rfl, hp⟩
      · left
        change Still (s.loops ℓ) ((s.setLoop ℓ₀ _).loops ℓ)
        rw [loops_setLoop_ne s _ hℓ]
        exact ⟨rfl, rfl, rfl⟩

inductive Drives (s : Process Λ G C σ κ δ) (t : Process Λ G C σ κ δ) (ℓ : Λ) :
    Label Λ G C δ → Machine.Label G (Task C δ) → Prop
  | append {g : G} {u : Task C δ} (hg : s.pcs g = .queue ℓ u)
      (ht : t.pcs = Function.update s.pcs g (.queued ℓ u)) : Drives s t ℓ (.go g) (.append (some g) u)
  | inQueue {g : G} {m : Machine.Label G (Task C δ)} (hm : m = .compareAndSwap (some g) ∨ m = .wake (some g)) :
      Drives s t ℓ (.go g) m
  | setRunning {g : G} (hg : s.pcs g = .setRunning ℓ) : Drives s t ℓ (.go g) .closeSet
  | wakePoller {g : G} : Drives s t ℓ (.go g) .closeWake
  | loop {m : Machine.Label G (Task C δ)} (hc : control m = true) : Drives s t ℓ (.loop ℓ m) m
  | op {a : Answers C} {o : Op C κ δ} {k : Res o → Prog C κ δ Unit} {m : Machine.Label G (Task C δ)}
      (ho : (s.loops ℓ).prog = .step o k) (hq : Queues o m) : Drives s t ℓ (.op ℓ a) m

theorem poll_of_steps (h : Steps S s l t) (ℓ : Λ) :
    (t.loops ℓ).poll = (s.loops ℓ).poll ∨
      ∃ m, Machine.step S.growQueue (s.loops ℓ).poll m = some (t.loops ℓ).poll ∧ Drives s t ℓ l m := by
  have hset : ∀ (ℓ₀ : Λ) (p : Machine.State G (Task C δ)),
      (ℓ = ℓ₀ ∧ ((s.setPoll ℓ₀ p).loops ℓ).poll = p) ∨ ((s.setPoll ℓ₀ p).loops ℓ).poll = (s.loops ℓ).poll := by
    intro ℓ₀ p
    by_cases hℓ : ℓ = ℓ₀
    · subst hℓ
      exact .inl ⟨rfl, by rw [Process.setPoll, loops_setLoop]⟩
    · exact .inr (by rw [Process.setPoll, loops_setLoop_ne s _ hℓ])
  cases h with
  | accept | call | silent | stop | enqueue | refuse | testRunning | waitDone => exact .inl rfl
  | @append g ℓ₀ u p hg hp =>
      rcases hset ℓ₀ p with ⟨rfl, hpoll⟩ | hpoll
      · exact .inr ⟨_, hp.trans (congrArg some hpoll.symm), .append hg rfl⟩
      · exact .inl hpoll
  | @inQueue g ℓ₀ u m p pc hg hm hp =>
      rcases hset ℓ₀ p with ⟨rfl, hpoll⟩ | hpoll
      · exact .inr ⟨m, hp.trans (congrArg some hpoll.symm), .inQueue hm⟩
      · exact .inl hpoll
  | @swapCount g ℓ₀ hg =>
      left
      change ((s.setLoop ℓ₀ _).loops ℓ).poll = _
      by_cases hℓ : ℓ = ℓ₀
      · subst hℓ
        rw [loops_setLoop]
      · rw [loops_setLoop_ne s _ hℓ]
  | @closePoller g ℓ₀ m p pc hg hp =>
      rcases hset ℓ₀ p with ⟨rfl, hpoll⟩ | hpoll
      · refine .inr ⟨m, hp.trans (congrArg some hpoll.symm), ?_⟩
        rcases hg with ⟨hg, rfl, -⟩ | ⟨hg, rfl, -⟩
        · exact .setRunning hg
        · exact .wakePoller
      · exact .inl hpoll
  | @loop ℓ₀ m p u hd hc hp =>
      by_cases hℓ : ℓ = ℓ₀
      · subst hℓ
        rw [loops_setLoop]
        exact .inr ⟨m, hp, .loop hc⟩
      · rw [loops_setLoop_ne s _ hℓ]
        exact .inl rfl
  | @op ℓ₀ a o k r work p ho hact hp =>
      by_cases hℓ : ℓ = ℓ₀
      · subst hℓ
        have hpoll : ((s.setLoop ℓ ⟨p, work, k r, countEffect (s.loops ℓ).connCunt o⟩).loops ℓ).poll = p := by
          rw [loops_setLoop]
        rcases poll_of_effect hp with ⟨rfl, -⟩ | ⟨m, hm, hq⟩
        · exact .inl hpoll
        · exact .inr ⟨m, hm.trans (congrArg some hpoll.symm), .op ho hq⟩
      · left
        change ((s.setLoop ℓ₀ _).loops ℓ).poll = _
        rw [loops_setLoop_ne s _ hℓ]

theorem pending_of_steps (h : Steps S s l t) (ℓ : Λ) :
    pending t ℓ = pending s ℓ ∨
      ∃ u, pending t ℓ = pending s ℓ ++ [u] ∧
        ((∃ g, s.pcs g = .queue ℓ u ∧ t.pcs = Function.update s.pcs g (.queued ℓ u)) ∨
          ∃ a k, l = .op ℓ a ∧ (s.loops ℓ).prog = .step (.appendTask u) k) := by
  rcases poll_of_steps h ℓ with hp | ⟨m, hm, hd⟩
  · exact .inl (by rw [pending, hp, pending])
  · by_cases hu : ∃ g u, m = .append g u
    · obtain ⟨g, u, rfl⟩ := hu
      refine .inr ⟨u, (TaskQueue.tasks_of_append hm).1, ?_⟩
      cases hd with
      | append hg ht => exact .inl ⟨_, hg, ht⟩
      | inQueue hm => rcases hm with hm | hm <;> cases hm
      | loop hc => cases hc
      | op ho hq =>
          cases hq
          exact .inr ⟨_, _, rfl, ho⟩
    · left
      exact TaskQueue.tasks_of_step hm (fun g u he => hu ⟨g, u, he⟩)

theorem pending_mono (h : Steps S s l t) (ℓ : Λ) : pending s ℓ ⊆ pending t ℓ := by
  rcases pending_of_steps h ℓ with hp | ⟨u, hp, -⟩ <;> rw [hp]
  · exact List.Subset.refl _
  · exact List.subset_append_left _ _

theorem history_of_steps (h : Steps S s l t) (c : C) :
    ∃ acts, (t.conn S c).history = (s.conn S c).history ++ acts ∧
      ∀ f, Act.syscall .close f ∈ acts →
        ∃ a k, l = .op (S.loopOf c) a ∧ (s.loops (S.loopOf c)).prog = .step (.unixClose c f) k := by
  rcases loop_of_steps h (S.loopOf c) with hs | ⟨m, u, -, -, -, hw, -⟩ | ⟨a, o, k, r, rfl, ho, hact, -, -⟩
  · exact ⟨[], by rw [Process.conn, hs.1, List.append_nil]; rfl, by simp⟩
  · exact ⟨[], by rw [Process.conn, hw, List.append_nil]; rfl, by simp⟩
  · obtain ⟨acts, hacts, hclose⟩ := act_grows S.cfg hact c
    refine ⟨acts, hacts, ?_⟩
    intro f hf
    cases hclose f hf
    exact ⟨a, k, rfl, ho⟩

theorem accepted_of_steps (h : Steps S s l t) {c : C} (hc : s.accepted c = true) : t.accepted c = true := by
  cases h with
  | @accept g d =>
      by_cases hd : c = d
      · subst hd
        simp
      · simpa [hd] using hc
  | call | silent | stop | enqueue | refuse | append | inQueue | swapCount | testRunning | closePoller | waitDone
  | loop | op => exact hc

def begun : Pc Λ C δ → Option Λ
  | .queued ℓ .closing | .swapCount ℓ | .testRunning ℓ | .setRunning ℓ | .wakePoller ℓ | .waitDone ℓ => some ℓ
  | _ => none

inductive Turns (s t : Process Λ G C σ κ δ) (g : G) : Label Λ G C δ → Pc Λ C δ → Prop
  | start {l : Label Λ G C δ} {pc : Pc Λ C δ} (hg : s.pcs g = .idle) (hpc : begun pc = none) : Turns s t g l pc
  | enqueue {c : C} {u : Task C δ} {ℓ : Λ} (hg : s.pcs g = .check c u) : Turns s t g (.go g) (.queue ℓ u)
  | refuse {c : C} {u : Task C δ} (hg : s.pcs g = .check c u) : Turns s t g (.go g) .idle
  | append {ℓ : Λ} {u : Task C δ} (hg : s.pcs g = .queue ℓ u)
      (hp : u ∈ pending t ℓ) : Turns s t g (.go g) (.queued ℓ u)
  | inQueue {ℓ : Λ} {u : Task C δ} {pc : Pc Λ C δ} (hg : s.pcs g = .queued ℓ u)
      (hpc : pc = .queued ℓ u ∨ pc = returned ℓ u) : Turns s t g (.go g) pc
  | swapCount {ℓ : Λ} (hg : s.pcs g = .swapCount ℓ) : Turns s t g (.go g) (.testRunning ℓ)
  | testRunning {ℓ : Λ} (hg : s.pcs g = .testRunning ℓ) : Turns s t g (.go g) (.setRunning ℓ)
  | refused {ℓ : Λ} (hg : s.pcs g = .testRunning ℓ) (hr : (s.loops ℓ).poll.running = false) : Turns s t g (.go g) .idle
  | setRunning {ℓ : Λ} (hg : s.pcs g = .setRunning ℓ) : Turns s t g (.go g) (.wakePoller ℓ)
  | wakePoller {ℓ : Λ} (hg : s.pcs g = .wakePoller ℓ) : Turns s t g (.go g) (.waitDone ℓ)
  | waitDone {ℓ : Λ} (hg : s.pcs g = .waitDone ℓ) : Turns s t g (.go g) .idle

theorem pcs_of_steps (h : Steps S s l t) (g : G) : t.pcs g = s.pcs g ∨ Turns s t g l (t.pcs g) := by
  have hset : ∀ (g₀ : G) (pc : Pc Λ C δ),
      (g = g₀ ∧ Function.update s.pcs g₀ pc g = pc) ∨ Function.update s.pcs g₀ pc g = s.pcs g := by
    intro g₀ pc
    by_cases hg : g = g₀
    · subst hg
      exact .inl ⟨rfl, Function.update_self ..⟩
    · exact .inr (Function.update_of_ne hg ..)
  have hmove : ∀ (g₀ : G) (pc : Pc Λ C δ), t.pcs = Function.update s.pcs g₀ pc → Turns s t g₀ l pc →
      t.pcs g = s.pcs g ∨ Turns s t g l (t.pcs g) := by
    intro g₀ pc ht hturn
    rcases hset g₀ pc with ⟨rfl, hpc⟩ | hpc
    · right
      rwa [ht, hpc]
    · left
      rw [ht, hpc]
  cases h with
  | silent | loop | op => exact .inl rfl
  | accept hg | call hg | stop hg => exact hmove _ _ rfl (.start hg rfl)
  | enqueue hg => exact hmove _ _ rfl (.enqueue hg)
  | refuse hg => exact hmove _ _ rfl (.refuse hg)
  | @append g₀ ℓ u p hg hp =>
      refine hmove _ _ rfl (.append hg ?_)
      have hpoll : ((s.setPoll ℓ p).loops ℓ).poll = p := by rw [Process.setPoll, loops_setLoop]
      change u ∈ TaskQueue.tasks ((s.setPoll ℓ p).loops ℓ).poll
      rw [hpoll, (TaskQueue.tasks_of_append hp).1]
      exact List.mem_append_right _ (List.mem_singleton_self u)
  | inQueue hg _ _ hpc => exact hmove _ _ rfl (.inQueue hg hpc)
  | swapCount hg => exact hmove _ _ rfl (.swapCount hg)
  | testRunning hg hpc =>
      rcases hpc with ⟨rfl, -⟩ | ⟨rfl, hr⟩
      · exact hmove _ _ rfl (.testRunning hg)
      · exact hmove _ _ rfl (.refused hg hr)
  | closePoller hg =>
      rcases hg with ⟨hg, -, rfl⟩ | ⟨hg, -, rfl⟩
      · exact hmove _ _ rfl (.setRunning hg)
      · exact hmove _ _ rfl (.wakePoller hg)
  | waitDone hg => exact hmove _ _ rfl (.waitDone hg)

omit [DecidableEq Λ] [DecidableEq G] [DecidableEq C] in
/-- A goroutine that is stopping a loop was doing so before, unless it is just behind its append. -/
theorem begun_of_turns {g : G} {pc : Pc Λ C δ} {ℓ : Λ} (h : Turns s t g l pc) (hpc : begun pc = some ℓ) :
    begun (s.pcs g) = some ℓ ∨ .closing ∈ pending t ℓ := by
  cases h with
  | start _ hnone =>
      rw [hnone] at hpc
      cases hpc
  | enqueue | refuse | refused | waitDone => cases hpc
  | @append m u hg hp =>
      cases u with
      | closing =>
          cases hpc
          exact .inr hp
      | register | send | close => cases hpc
  | @inQueue m u pc hg hnext =>
      left
      rw [hg]
      rcases hnext with rfl | rfl
      · exact hpc
      · cases u <;> exact hpc
  | swapCount hg | testRunning hg | setRunning hg | wakePoller hg =>
      left
      rw [hg]
      exact hpc

end Loops

end Gev.Server.Effects
