import Gev.EventLoop.Machine
import Mathlib.Tactic.Common

namespace Gev.EventLoop.TaskQueue

open Machine Lib.Runs Lib.Slices

variable {G τ : Type} [DecidableEq G] [Inhabited τ]

def batch (s : State G τ) : List τ := match s.cursor with
  | .run i _ => (contents s.heap s.taskQueueR).drop i
  | _ => []

def queued (s : State G τ) : List τ := contents s.heap s.taskQueueW

def tasks (s : State G τ) : List τ := s.appended.map Prod.snd

/-- The two queues never share a backing array, so an append by a task of the
running batch cannot reach the cells the batch is read from. -/
structure Invariant (s : State G τ) : Prop where
  validW : Valid s.heap s.taskQueueW
  validR : Valid s.heap s.taskQueueR
  apart : s.taskQueueW.arr ≠ s.taskQueueR.arr
  spare : (∀ i n, s.cursor ≠ .run i n) → s.taskQueueR.len = 0
  bound : ∀ i n, s.cursor = .run i n → n = s.taskQueueR.len
  order : s.executed ++ batch s ++ queued s = tasks s

omit [DecidableEq G] in
theorem invariant_init (n : Nat) : Invariant (init n : State G τ) := by
  have hw : Valid (make ([] : Heap τ) default 0 n).2 (make ([] : Heap τ) default 0 n).1 :=
    valid_make _ _ (Nat.zero_le n)
  refine ⟨valid_alloc hw _, valid_make _ _ (Nat.zero_le n), ?_, fun _ => rfl, ?_, ?_⟩
  · simp [init, make]
  · intro i m hc
    simp [init] at hc
  · simp [init, batch, queued, tasks, contents, make]

omit [DecidableEq G] [Inhabited τ] in
/-- Between two batches nothing is left of the last one. -/
theorem batch_eq_nil {s : State G τ} (h : ∀ i n, s.cursor ≠ .run i n) : batch s = [] := by
  unfold batch
  split
  next i n hc => exact absurd hc (h i n)
  next => rfl

theorem append_invariant (grow : Nat → Nat → Nat) {s : State G τ} (h : Invariant s)
    (g : Option G) (t : τ) : Invariant (s.append grow g t) := by
  have hread : contents (s.append grow g t).heap s.taskQueueR = contents s.heap s.taskQueueR :=
    contents_append_frame grow default h.validW h.validR (.inl h.apart.symm) [t]
  refine ⟨valid_append grow default h.validW [t], valid_append_frame grow default h.validW h.validR [t],
    ?_, h.spare, h.bound, ?_⟩
  · rcases append_place grow default s.heap s.taskQueueW [t] with ⟨ha, -, -⟩ | ha
    · exact fun he => h.apart (ha.symm.trans he)
    · intro he
      have hr := h.validR.alloc
      exact Nat.lt_irrefl s.heap.length ((ha.symm.trans he) ▸ hr)
  · have hb : batch (s.append grow g t) = batch s := by
      unfold batch
      rw [← hread]
      rfl
    have hq : queued (s.append grow g t) = queued s ++ [t] := contents_append grow default h.validW [t]
    have ht : tasks (s.append grow g t) = tasks s ++ [t] := by simp [tasks, State.append]
    rw [hb, hq, ht, ← h.order]
    simp [State.append]

omit [DecidableEq G] [Inhabited τ] in
theorem moves_invariant {s t : State G τ} {l : Label G τ} (h : Invariant s) (hm : Moves s l t) :
    Invariant t := by
  cases hm with
  | swap hc =>
      have hn : ∀ i n, s.cursor ≠ .run i n := by simp [hc]
      have hlen := h.spare hn
      have horder := h.order
      rw [batch_eq_nil hn, List.append_nil] at horder
      refine ⟨h.validR, h.validW, h.apart.symm, fun hr => absurd rfl (hr 0 _), ?_, ?_⟩
      · intro i n he
        cases he
        rfl
      · simpa [batch, queued, contents, hlen, tasks] using horder
  | @runTask i n task hc hi ht =>
      obtain ⟨hlt, hget⟩ := List.getElem?_eq_some_iff.mp ht
      refine ⟨h.validW, h.validR, h.apart, fun hr => absurd rfl (hr (i + 1) n), ?_, ?_⟩
      · intro j m he
        cases he
        exact h.bound i n hc
      · have horder := h.order
        rw [show batch s = (contents s.heap s.taskQueueR).drop i by simp [batch, hc],
          List.drop_eq_getElem_cons hlt, hget] at horder
        simpa [batch, queued, tasks] using horder
  | @endRun i n hc hi =>
      have hn := h.bound i n hc
      have hv := h.validR
      refine ⟨h.validW, ⟨hv.alloc, by simpa [reslice] using hv.bound, Nat.zero_le _⟩, h.apart, ?_, ?_, ?_⟩
      · intro _
        simp [reslice]
      · intro j m he
        cases he
      · have horder := h.order
        rw [show batch s = [] by
          simp only [batch, hc, List.drop_eq_nil_iff, length_contents hv]
          omega] at horder
        exact horder
  | enter hc | poll hc | socket hc | readEventFd hc | setNeedWake hc =>
      have hn : ∀ i n, s.cursor ≠ .run i n := by simp [hc]
      refine ⟨h.validW, h.validR, h.apart, fun _ => h.spare hn, by simp, ?_⟩
      have horder := h.order
      rw [batch_eq_nil hn] at horder
      exact horder
  | endBatch hc | test hc =>
      have hn : ∀ i n, s.cursor ≠ .run i n := by simp [hc]
      refine ⟨h.validW, h.validR, h.apart, fun _ => h.spare hn, ?_, ?_⟩
      · intro i n he
        dsimp only at he
        split at he <;> cases he
      · have horder := h.order
        rw [batch_eq_nil hn] at horder
        rw [batch_eq_nil (by intro i n he; dsimp only at he; split at he <;> cases he)]
        exact horder

theorem step_invariant (grow : Nat → Nat → Nat) (s : State G τ) (l : Label G τ) (t : State G τ)
    (h : Invariant s) (ht : step grow s l = some t) : Invariant t := by
  cases steps_of_step ht with
  | append => exact append_invariant grow h _ _
  | swapped | notSwapped | wake | closeSet | closeWake =>
      exact ⟨h.validW, h.validR, h.apart, h.spare, h.bound, h.order⟩
  | loop _ hm => exact moves_invariant h hm

theorem reachable_invariant (grow : Nat → Nat → Nat) (size : Nat) {ls : List (Label G τ)}
    {s : State G τ} (h : run (step grow) (init size) ls = some s) : Invariant s :=
  run_invariant (step_invariant grow) (invariant_init size) h

theorem tasks_of_append {grow : Nat → Nat → Nat} {s t : State G τ} {g : Option G} {u : τ}
    (h : step grow s (.append g u) = some t) : tasks t = tasks s ++ [u] ∧ t.executed = s.executed := by
  cases steps_of_step h with
  | append => simp [tasks, State.append]
  | loop _ hm => cases hm

theorem tasks_of_step {grow : Nat → Nat → Nat} {s t : State G τ} {l : Label G τ} (h : step grow s l = some t)
    (hl : ∀ g u, l ≠ .append g u) : tasks t = tasks s := by
  cases steps_of_step h with
  | append => exact absurd rfl (hl _ _)
  | swapped | notSwapped | wake | closeSet | closeWake => rfl
  | loop _ hm => cases hm <;> rfl

theorem executed_of_step {grow : Nat → Nat → Nat} {s t : State G τ} {l : Label G τ} (h : step grow s l = some t)
    (hl : l ≠ .runTask) : t.executed = s.executed := by
  cases steps_of_step h with
  | append | swapped | notSwapped | wake | closeSet | closeWake => rfl
  | loop _ hm => cases hm <;> first | rfl | exact absurd rfl hl

omit [DecidableEq G] [Inhabited τ] in
theorem mem_tasks {s : State G τ} (h : Invariant s) {t : τ} :
    t ∈ tasks s ↔ t ∈ s.executed ∨ t ∈ batch s ∨ t ∈ queued s := by
  rw [← h.order, List.mem_append, List.mem_append, or_assoc]

omit [DecidableEq G] [Inhabited τ] in
theorem executed_initial {s : State G τ} (h : Invariant s) : s.executed <+: tasks s :=
  ⟨batch s ++ queued s, by rw [← List.append_assoc, h.order]⟩

omit [DecidableEq G] [Inhabited τ] in
theorem executed_get {s : State G τ} (h : Invariant s) {i : Nat} (hi : i < s.executed.length) :
    s.executed[i]? = s.appended[i]?.map Prod.snd := by
  obtain ⟨rest, hrest⟩ := executed_initial h
  rw [← List.getElem?_map, ← show s.executed ++ rest = s.appended.map Prod.snd from hrest,
    List.getElem?_append_left hi]

/-- The queue keeps every task, once and in the order of the locked appends.
A goroutine's tasks run in the order in which it queued them, and the data of
the Send tasks run so far are an initial part of the data queued. -/
theorem tasks_exactly_once_in_order (grow : Nat → Nat → Nat) (size : Nat) (ls : List (Label G τ))
    (s : State G τ) (h : run (step grow) (init size) ls = some s) :
    s.executed ++ batch s ++ queued s = s.appended.map Prod.snd ∧
    (∀ i, i < s.executed.length → s.executed[i]? = s.appended[i]?.map Prod.snd) ∧
    (∀ (g : Option G) (i j : Nat) (a b : τ), i < j → s.appended[i]? = some (g, a) →
      s.appended[j]? = some (g, b) → j < s.executed.length →
      s.executed[i]? = some a ∧ s.executed[j]? = some b) ∧
    ∀ data : τ → Option (List UInt8),
      s.executed.filterMap data <+: (s.appended.map Prod.snd).filterMap data := by
  have hinv := reachable_invariant grow size h
  refine ⟨hinv.order, fun i hi => executed_get hinv hi, ?_, ?_⟩
  · intro g i j a b hij ha hb hj
    rw [executed_get hinv (Nat.lt_trans hij hj), executed_get hinv hj, ha, hb]
    exact ⟨rfl, rfl⟩
  · intro data
    exact (executed_initial hinv).filterMap data

/-- A task is queued by a task while a batch of two runs, and both queues have had to grow. -/
def growing : List (Label Unit Nat) :=
  [.enter, .append (some ()) 1, .compareAndSwap (some ()), .wake (some ()), .append (some ()) 2,
    .compareAndSwap (some ()), .poll [.eventFd], .event, .endBatch, .setNeedWake, .swap, .runTask,
    .append none 3, .compareAndSwap none, .wake none]

theorem tasks_exactly_once_in_order_growing : ∃ s, run (step fun _ n => n) (init 1) growing = some s ∧
    s.executed = [1] ∧ batch s = [2] ∧ queued s = [3] ∧
    s.executed ++ batch s ++ queued s = s.appended.map Prod.snd :=
  ⟨_, rfl, rfl, rfl, rfl, (tasks_exactly_once_in_order (fun _ n => n) 1 growing _ rfl).1⟩

end Gev.EventLoop.TaskQueue
