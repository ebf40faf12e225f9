import Gev.EventLoop.Machine
import Mathlib.Tactic.Common

namespace Gev.EventLoop.Wakeup

open Machine Lib.Runs Lib.Slices

variable {G τ : Type} [DecidableEq G] [Inhabited τ]

def BeforeSet : Cursor → Prop
  | .batch _ wake => wake = true
  | .setNeedWake => True
  | _ => False

def BeforeSwap : Cursor → Prop
  | .batch _ wake => wake = true
  | .setNeedWake | .swap => True
  | _ => False

def Running : Cursor → Prop
  | .run _ _ => True
  | _ => False

/-- A lowered flag is matched by a wake-up on its way: already counted, still
to be written, or read by a loop that has not raised the flag again. -/
def FlagCovered (s : State G τ) : Prop :=
  s.needWake = false → 0 < s.eventFd ∨ (∃ g, s.callers g = .waking) ∨ BeforeSet s.cursor

def QueueCovered (s : State G τ) : Prop :=
  0 < s.taskQueueW.len → 0 < s.eventFd ∨ (∃ g, s.callers g ≠ .outside) ∨ BeforeSwap s.cursor

structure Invariant (s : State G τ) : Prop where
  flag : FlagCovered s
  queue : QueueCovered s
  spare : ¬ Running s.cursor → s.taskQueueR.len = 0

theorem BeforeSet.beforeSwap {c : Cursor} (h : BeforeSet c) : BeforeSwap c := by
  cases c <;> simp_all [BeforeSet, BeforeSwap]

omit [DecidableEq G] in
theorem invariant_init (n : Nat) : Invariant (init n : State G τ) := by
  refine ⟨?_, ?_, ?_⟩
  · intro h; simp [init] at h
  · intro h; simp [init, make] at h
  · intro _; simp [init, make]

theorem append_invariant (grow : Nat → Nat → Nat) {s : State G τ} (h : Invariant s)
    (g : Option G) (t : τ) (hg : s.callers g = .outside) : Invariant (s.append grow g t) := by
  refine ⟨?_, ?_, h.spare⟩
  · intro hn
    rcases h.flag hn with he | ⟨k, hk⟩ | hc
    · exact .inl he
    · have hne : k ≠ g := by rintro rfl; simp [hg] at hk
      exact .inr (.inl ⟨k, by simpa [State.append, hne] using hk⟩)
    · exact .inr (.inr hc)
  · intro _
    exact .inr (.inl ⟨g, by simp [State.append]⟩)

omit [Inhabited τ] in
/-- A swap that fails found the flag down already, so the wake-up of whoever
lowered it covers the task that was just appended. -/
theorem notSwapped_invariant {s : State G τ} (h : Invariant s) (g : Option G)
    (hg : s.callers g = .appended) (hn : s.needWake = false) : Invariant (s.setCaller g .outside) := by
  have hwaking : (∃ k, s.callers k = .waking) → ∃ k, (s.setCaller g .outside).callers k = .waking := by
    rintro ⟨k, hk⟩
    have hne : k ≠ g := by rintro rfl; simp [hg] at hk
    exact ⟨k, by simpa [State.setCaller, hne] using hk⟩
  refine ⟨fun _ => ?_, fun _ => ?_, h.spare⟩
  · rcases h.flag hn with he | hk | hc
    · exact .inl he
    · exact .inr (.inl (hwaking hk))
    · exact .inr (.inr hc)
  · rcases h.flag hn with he | hk | hc
    · exact .inl he
    · obtain ⟨k, hk⟩ := hwaking hk
      exact .inr (.inl ⟨k, by simp [hk]⟩)
    · exact .inr (.inr hc.beforeSwap)

omit [DecidableEq G] [Inhabited τ] in
theorem wake_invariant {s : State G τ} (h : Invariant s) (callers : Option G → Caller) :
    Invariant { s with callers := callers, eventFd := s.eventFd + 1 } :=
  ⟨fun _ => .inl (Nat.succ_pos _), fun _ => .inl (Nat.succ_pos _), h.spare⟩

omit [DecidableEq G] [Inhabited τ] in
/-- A step that leaves the flag, the counter and the producers' queue alone
and gives up neither stretch of the loop body. -/
theorem move_invariant {s t : State G τ} (h : Invariant s) (hn : t.needWake = s.needWake)
    (he : t.eventFd = s.eventFd) (hk : t.callers = s.callers) (hw : t.taskQueueW = s.taskQueueW)
    (hset : BeforeSet s.cursor → BeforeSet t.cursor)
    (hswap : BeforeSwap s.cursor → BeforeSwap t.cursor)
    (hspare : ¬ Running t.cursor → t.taskQueueR.len = 0) : Invariant t := by
  refine ⟨fun hf => ?_, fun hq => ?_, hspare⟩
  · rw [he, hk]
    exact (h.flag (hn ▸ hf)).imp_right (Or.imp_right hset)
  · rw [he, hk]
    exact (h.queue (hw ▸ hq)).imp_right (Or.imp_right hswap)

omit [DecidableEq G] [Inhabited τ] in
theorem moves_invariant {s t : State G τ} {l : Label G τ} (h : Invariant s) (hm : Moves s l t) :
    Invariant t := by
  cases hm with
  | enter hc | poll hc | test hc =>
      exact move_invariant h rfl rfl rfl rfl (by simp [hc, BeforeSet]) (by simp [hc, BeforeSwap])
        (fun _ => h.spare (by simp [hc, Running]))
  | socket hc =>
      exact move_invariant h rfl rfl rfl rfl (by simp [hc, BeforeSet]) (by simp [hc, BeforeSwap])
        (fun _ => h.spare (by simp [hc, Running]))
  | readEventFd hc =>
      exact ⟨fun _ => .inr (.inr rfl), fun _ => .inr (.inr rfl),
        fun _ => h.spare (by simp [hc, Running])⟩
  | @endBatch wake hc =>
      refine move_invariant h rfl rfl rfl rfl ?_ ?_ (fun _ => h.spare (by simp [hc, Running]))
      · cases wake <;> simp [hc, BeforeSet]
      · cases wake <;> simp [hc, BeforeSwap]
  | setNeedWake hc =>
      exact ⟨fun hn => by simp at hn, fun _ => .inr (.inr trivial),
        fun _ => h.spare (by simp [hc, Running])⟩
  | swap hc =>
      -- The queue handed to the producers is the spare one, which is empty.
      have hspare := h.spare (by simp [hc, Running])
      refine ⟨fun hn => ?_, fun hq => ?_, fun hr => absurd trivial hr⟩
      · exact (h.flag hn).imp_right (Or.imp_right (by simp [hc, BeforeSet]))
      · simp [hspare] at hq
  | runTask hc =>
      exact move_invariant h rfl rfl rfl rfl (by simp [hc, BeforeSet]) (by simp [hc, BeforeSwap])
        (fun hr => absurd trivial hr)
  | endRun hc =>
      exact move_invariant h rfl rfl rfl rfl (by simp [hc, BeforeSet]) (by simp [hc, BeforeSwap])
        (fun _ => by simp [reslice])

theorem step_invariant (grow : Nat → Nat → Nat) (s : State G τ) (l : Label G τ) (t : State G τ)
    (h : Invariant s) (ht : step grow s l = some t) : Invariant t := by
  cases steps_of_step ht with
  | append hg => exact append_invariant grow h _ _ hg
  | @swapped g hg hn =>
      refine ⟨fun _ => .inr (.inl ⟨g, ?_⟩), fun _ => .inr (.inl ⟨g, ?_⟩), h.spare⟩ <;>
        simp [State.setCaller]
  | notSwapped hg hn => exact notSwapped_invariant h _ hg hn
  | wake | closeWake => exact wake_invariant h _
  | closeSet => exact ⟨h.flag, h.queue, h.spare⟩
  | loop _ hm => exact moves_invariant h hm

/-- No lost wake-up: whatever the interleaving, a task that waits in the
queue has a wake-up on its way. -/
theorem no_lost_wakeup (grow : Nat → Nat → Nat) (size : Nat) (ls : List (Label G τ)) (s : State G τ)
    (h : run (step grow) (init size) ls = some s) (hq : 0 < s.taskQueueW.len) :
    0 < s.eventFd ∨ (∃ g, s.callers g ≠ .outside) ∨ BeforeSwap s.cursor :=
  (run_invariant (step_invariant grow) (invariant_init size) h).queue hq

/-- One producer's wake-up has been read, and a second task arrives before the swap. -/
def secondTask : List (Label Bool Nat) :=
  [.enter, .append (some true) 1, .compareAndSwap (some true), .wake (some true), .poll [.eventFd], .event,
    .append (some false) 2, .compareAndSwap (some false)]

theorem no_lost_wakeup_second_task : ∃ s, run (step fun _ n => n) (init 1) secondTask = some s ∧
    s.taskQueueW.len = 2 ∧ (0 < s.eventFd ∨ (∃ g, s.callers g ≠ .outside) ∨ BeforeSwap s.cursor) :=
  ⟨_, rfl, rfl, no_lost_wakeup (fun _ n => n) 1 secondTask _ rfl (by decide)⟩

end Gev.EventLoop.Wakeup
