import Gev.EventLoop.Wakeup
import Gev.EventLoop.TaskQueue
import Gev.Poller.Kqueue

namespace Gev.Poller.KqueueLoop

open Lib.Runs Lib.Slices Connection.State Connection.Code EventLoop EventLoop.Machine
open Kqueue (Filter)

def EV_ENABLE : UInt16 := 0x4

def EV_ERROR : UInt16 := 0x4000

def EV_EOF : UInt16 := 0x8000

structure Report where
  ident : Nat
  filter : Option Filter
  flags : UInt16
  deriving DecidableEq

def rEvents (e : Report) : UInt32 :=
  (if e.flags &&& EV_ERROR ≠ 0 ∨ e.flags &&& EV_EOF ≠ 0 then EventErr else 0) |||
  (if e.filter = some .write ∧ e.flags &&& EV_ENABLE ≠ 0 then EventWrite else 0) |||
  (if e.filter = some .read ∧ e.flags &&& EV_ENABLE ≠ 0 then EventRead else 0)

/-- What Poll takes a report for; any one with ident 0 is a wake-up. -/
def pollEvent (e : Report) : PollEvent := if e.ident ≠ 0 then .socket e.ident (rEvents e) else .eventFd

/-- An event loop over kqueue. It has the queues and the program points of the one over epoll, whose event descriptor is
not used. The flag triggered is the kernel's state of the user event, tsp says that Kevent is called with the zero
timeout, n and size are the number of events reported and the length of the slice for them. -/
structure State (G τ : Type) where
  loop : Machine.State G τ
  triggered : Bool
  tsp : Bool
  n : Nat
  size : Nat

/-- The steps in which the pollers differ, and the others. A poll has an error other than EINTR, or reports events;
EINTR reports none. -/
inductive Label (G τ : Type)
  | loop (l : Machine.Label G τ)
  | wake (g : Option G)
  | closeWake
  | poll (events : Option (List Report))

variable {G τ : Type} [DecidableEq G] [Inhabited τ]

def waitEventsBegin : Nat := 1024

def init (taskQueueSize : Nat) : State G τ := ⟨Machine.init taskQueueSize, false, false, 0, waitEventsBegin⟩

def isUser (e : Report) : Bool := e.filter = none

/-- What the kernel may report: the user event has ident 0, and is reported at most once, after it was triggered. -/
def reportable (s : State G τ) (events : List Report) : Prop :=
  events.length ≤ s.size ∧ events.countP isUser ≤ 1 ∧ (∀ e ∈ events, isUser e = true → e.ident = 0) ∧
    (events.any isUser = true → s.triggered = true)

instance decidableReportable (s : State G τ) (events : List Report) : Decidable (reportable s events) :=
  inferInstanceAs (Decidable (_ ∧ _ ∧ _ ∧ _))

def State.report (s : State G τ) (events : List Report) : State G τ :=
  { s with
    loop := { s.loop with cursor := .batch (events.map pollEvent) false }
    triggered := s.triggered && !events.any isUser
    tsp := true
    n := events.length }

def State.poll (s : State G τ) : Option (List Report) → Option (State G τ)
  | none => some s
  | some events =>
      if reportable s events then
        if events = [] then some { s with n := 0, tsp := false }
        else some (s.report events)
      else none

/-- The loop has come to another point; when it comes back to Kevent, the slice may have been too short. -/
def State.after (s : State G τ) (m : Machine.State G τ) : State G τ :=
  { s with
    loop := m
    size :=
      if s.loop.cursor ≠ .start ∧ s.loop.cursor ≠ .wait ∧ m.cursor = .wait ∧ s.n = s.size then s.n * 2 else s.size }

def common : Machine.Label G τ → Bool
  | .wake _ | .closeWake | .poll _ => false
  | _ => true

/-- Wake sets NOTE_TRIGGER. -/
def step (grow : Nat → Nat → Nat) (s : State G τ) : Label G τ → Option (State G τ)
  | .loop l => if common l then (Machine.step grow s.loop l).map s.after else none
  | .wake g =>
      if s.loop.callers g = .waking then some { s with loop := s.loop.setCaller g .outside, triggered := true }
      else none
  | .closeWake => some { s with triggered := true }
  | .poll events => if s.loop.callers none = .outside ∧ s.loop.cursor = .wait then s.poll events else none

section Simulation

/-- What is left of a batch as epoll would report it: the first wake-up stands for the event descriptor, and another one
does nothing. -/
def collapse : Bool → List PollEvent → List PollEvent
  | _, [] => []
  | wake, .socket fd events :: rest => .socket fd events :: collapse wake rest
  | wake, .eventFd :: rest => if wake then collapse true rest else .eventFd :: collapse true rest

def view : Cursor → Cursor
  | .batch rest wake => .batch (collapse wake rest) wake
  | c => c

def Reported : Cursor → Prop
  | .batch rest wake => wake = false ∧ .eventFd ∈ rest
  | _ => False

def Pending (s : State G τ) : Prop := s.triggered = true ∨ Reported s.loop.cursor

def onEpoll (m : Machine.State G τ) (eventFd : Nat) : Machine.State G τ :=
  { m with eventFd := eventFd, cursor := view m.cursor }

/-- The same loop over epoll, with its event descriptor above zero exactly while a wake-up is pending. -/
def Matches (s : State G τ) (m : Machine.State G τ) : Prop :=
  ∃ eventFd, m = onEpoll s.loop eventFd ∧ (0 < eventFd ↔ Pending s)

theorem count_collapse (events : List PollEvent) (wake : Bool) :
    (collapse wake events).count .eventFd ≤ if wake then 0 else 1 := by
  induction events generalizing wake with
  | nil => simp [collapse]
  | cons e rest ih =>
      cases e with
      | socket fd bits => simpa [collapse] using ih wake
      | eventFd =>
          have hrest := ih true
          cases wake <;> simpa [collapse] using hrest

theorem mem_collapse (events : List PollEvent) : .eventFd ∈ collapse false events ↔ .eventFd ∈ events := by
  induction events with
  | nil => simp [collapse]
  | cons e rest ih => cases e <;> simp [collapse, ih]

theorem collapse_ne_nil {events : List PollEvent} (h : events ≠ []) : collapse false events ≠ [] := by
  cases events with
  | nil => exact absurd rfl h
  | cons e rest => cases e <;> simp [collapse]

theorem handling_view (c : Cursor) : (view c).handling = c.handling := by cases c <;> rfl

variable {grow : Nat → Nat → Nat} {s t : State G τ} {fd : Nat}

/-- A wake-up that the loop over epoll has still to be given. -/
theorem matches_wake (grow : Nat → Nat → Nat) (t : State G τ) :
    ∃ ms v, run (Machine.step grow) (onEpoll t.loop 0) ms = some v ∧ Matches t v := by
  by_cases hp : Pending t
  · exact ⟨[.closeWake], onEpoll t.loop 1, rfl, 1, rfl, by simp [hp]⟩
  · exact ⟨[], onEpoll t.loop 0, rfl, 0, rfl, by simp [hp]⟩

theorem matches_step (m : Machine.Label G τ) (after : Nat) (hp : 0 < after ↔ Pending t)
    (h : Machine.step grow (onEpoll s.loop fd) m = some (onEpoll t.loop after)) :
    ∃ ms v, run (Machine.step grow) (onEpoll s.loop fd) ms = some v ∧ Matches t v :=
  ⟨[m], onEpoll t.loop after, by simp [run, h], after, rfl, hp⟩

/-- A report with an ident 0 that no one has triggered is a wake-up too many. -/
theorem report_simulated (hp : 0 < fd ↔ Pending s) {events : List Report} (hself : s.loop.callers none = .outside)
    (hc : s.loop.cursor = .wait) (hne : events ≠ []) (hrep : reportable s events) :
    ∃ ms v, run (Machine.step grow) (onEpoll s.loop fd) ms = some v ∧ Matches (s.report events) v := by
  have hpoll : ∀ fd', (.eventFd ∈ events.map pollEvent → 0 < fd') →
      Machine.step grow (onEpoll s.loop fd') (.poll (collapse false (events.map pollEvent))) =
        some (onEpoll (s.report events).loop fd') := by
    intro fd' hfd
    refine (if_pos hself).trans ?_
    simp only [Machine.loopStep, onEpoll, hc, view]
    exact if_pos ⟨collapse_ne_nil (by simpa using hne), count_collapse _ false,
      fun hm => hfd ((mem_collapse _).mp hm)⟩
  by_cases hzero : .eventFd ∈ events.map pollEvent
  · have hpend : Pending (s.report events) := .inr ⟨rfl, hzero⟩
    refine ⟨[.closeWake, .poll (collapse false (events.map pollEvent))], _, ?_, fd + 1, rfl, by simp [hpend]⟩
    have hwake : Machine.step grow (onEpoll s.loop fd) .closeWake = some (onEpoll s.loop (fd + 1)) := rfl
    simp [run, hwake, hpoll (fd + 1) fun _ => Nat.succ_pos fd]
  · have huser : events.any isUser = false := by
      rw [List.any_eq_false]
      intro e he hu
      refine hzero (List.mem_map.mpr ⟨e, he, ?_⟩)
      simp [pollEvent, hrep.2.2.1 e he hu]
    refine matches_step _ fd ?_ (hpoll fd fun h => absurd h hzero)
    rw [hp]
    simp [Pending, State.report, huser, Reported, hzero, hc]

theorem same_simulated (hp : 0 < fd ↔ Pending s) {l : Machine.Label G τ} {m : Machine.State G τ}
    (hstep : Machine.step grow (onEpoll s.loop fd) l = some (onEpoll m fd))
    (hreported : Reported m.cursor ↔ Reported s.loop.cursor) :
    ∃ ms v, run (Machine.step grow) (onEpoll s.loop fd) ms = some v ∧ Matches (s.after m) v := by
  refine matches_step (t := s.after m) l fd ?_ hstep
  rw [hp]
  exact or_congr_right hreported.symm

/-- The event of ident 0 is a step of the loop over epoll the first time it comes in a batch. -/
theorem readEventFd_simulated (hp : 0 < fd ↔ Pending s) {rest : List PollEvent} {wake : Bool}
    (hself : s.loop.callers none = .outside) (hc : s.loop.cursor = .batch (.eventFd :: rest) wake) :
    ∃ ms v, run (Machine.step grow) (onEpoll s.loop fd) ms = some v ∧
      Matches (s.after { s.loop with eventFd := 0, cursor := .batch rest true }) v := by
  cases wake with
  | true =>
      refine ⟨[], _, rfl, fd, ?_, ?_⟩
      · simp [onEpoll, hc, view, collapse, State.after]
      · rw [hp]
        simp [Pending, State.after, hc, Reported]
  | false =>
      have hread : Machine.step grow (onEpoll s.loop fd) .event =
          some (onEpoll { s.loop with eventFd := 0, cursor := .batch rest true } 0) :=
        (if_pos hself).trans (by simp [Machine.loopStep, onEpoll, hc, view, collapse])
      obtain ⟨ms, v, hms, hv⟩ :=
        matches_wake grow (s.after { s.loop with eventFd := 0, cursor := .batch rest true })
      refine ⟨.event :: ms, v, ?_, hv⟩
      rw [run, hread]
      exact hms

theorem moves_simulated (hp : 0 < fd ↔ Pending s) {l : Machine.Label G τ} (hl : common l = true)
    (hself : s.loop.callers none = .outside) {m : Machine.State G τ} (h : Machine.Moves s.loop l m) :
    ∃ ms v, run (Machine.step grow) (onEpoll s.loop fd) ms = some v ∧ Matches (s.after m) v := by
  cases h with
  | poll => cases hl
  | readEventFd hc => exact readEventFd_simulated hp hself hc
  | enter hc =>
      refine same_simulated hp (l := .enter) ((if_pos hself).trans ?_) (by simp [hc, Reported])
      simp [Machine.loopStep, onEpoll, hc, view]
  | socket hc =>
      refine same_simulated hp (l := .event) ((if_pos hself).trans ?_) (by simp [hc, Reported])
      simp [Machine.loopStep, onEpoll, hc, view, collapse]
  | @endBatch wake hc =>
      refine same_simulated hp (l := .endBatch) ((if_pos hself).trans ?_) ?_
      · cases wake <;> simp [Machine.loopStep, onEpoll, hc, view, collapse]
      · cases wake <;> simp [hc, Reported]
  | setNeedWake hc =>
      refine same_simulated hp (l := .setNeedWake) ((if_pos hself).trans ?_) (by simp [hc, Reported])
      simp [Machine.loopStep, onEpoll, hc, view]
  | swap hc =>
      refine same_simulated hp (l := .swap) ((if_pos hself).trans ?_) (by simp [hc, Reported])
      simp [Machine.loopStep, onEpoll, hc, view]
  | runTask hc hi ht =>
      refine same_simulated hp (l := .runTask) ((if_pos hself).trans ?_) (by simp [hc, Reported])
      simp [Machine.loopStep, onEpoll, hc, view, hi, ht]
  | endRun hc hi =>
      refine same_simulated hp (l := .endRun) ((if_pos hself).trans ?_) (by simp [hc, Reported])
      simp [Machine.loopStep, onEpoll, hc, view, Nat.not_lt.mpr hi]
  | test hc =>
      refine same_simulated hp (l := .test) ((if_pos hself).trans ?_) ?_
      · cases hr : s.loop.running <;> simp [Machine.loopStep, onEpoll, hc, view, hr]
      · cases hr : s.loop.running <;> simp [hc, Reported]

/-- What the two loops have in common is a step of both, but for a wake-up that comes a second time in a batch. -/
theorem common_simulated (hp : 0 < fd ↔ Pending s) {l : Machine.Label G τ} (hl : common l = true)
    {m : Machine.State G τ} (h : Machine.step grow s.loop l = some m) :
    ∃ ms v, run (Machine.step grow) (onEpoll s.loop fd) ms = some v ∧ Matches (s.after m) v := by
  cases steps_of_step h with
  | wake | closeWake => cases hl
  | @append g t hg hloop =>
      refine same_simulated hp (l := .append g t) (if_pos ⟨hg, fun hnone => ?_⟩) Iff.rfl
      exact (handling_view s.loop.cursor).trans (hloop hnone)
  | @swapped g hg hn => exact same_simulated hp (l := .compareAndSwap g) ((if_pos hg).trans (if_pos hn)) Iff.rfl
  | @notSwapped g hg hn =>
      refine same_simulated hp (l := .compareAndSwap g) ((if_pos hg).trans (if_neg ?_)) Iff.rfl
      simp [onEpoll, hn]
  | closeSet => exact same_simulated hp (l := .closeSet) rfl Iff.rfl
  | loop hself hm => exact moves_simulated hp hl hself hm

/-- A step over kqueue is a few steps over epoll. -/
theorem step_simulated (s : State G τ) (l : Label G τ) (t : State G τ) (m : Machine.State G τ) (hm : Matches s m)
    (h : step grow s l = some t) : ∃ ms v, run (Machine.step grow) m ms = some v ∧ Matches t v := by
  obtain ⟨fd, rfl, hp⟩ := hm
  cases l with
  | loop l =>
      simp only [step] at h
      split at h <;> try cases h
      next hl =>
        obtain ⟨m, hm, rfl⟩ := Option.map_eq_some_iff.mp h
        exact common_simulated hp hl hm
  | wake g =>
      simp only [step] at h
      split at h <;> cases h
      next hg => exact matches_step (.wake g) (fd + 1) (by simp [Pending]) (if_pos hg)
  | closeWake =>
      cases h
      exact matches_step .closeWake (fd + 1) (by simp [Pending]) rfl
  | poll events =>
      simp only [step] at h
      split at h <;> try cases h
      next hgo =>
        cases events with
        | none =>
            cases h
            exact ⟨[], _, rfl, fd, rfl, hp⟩
        | some events =>
            simp only [State.poll] at h
            split at h <;> try cases h
            next hrep =>
              split at h <;> cases h
              next => exact ⟨[], _, rfl, fd, rfl, hp⟩
              next hne => exact report_simulated hp hgo.1 hgo.2 hne hrep

end Simulation

omit [DecidableEq G] [Inhabited τ] in
theorem batch_onEpoll (m : Machine.State G τ) (fd : Nat) : TaskQueue.batch (onEpoll m fd) = TaskQueue.batch m := by
  unfold TaskQueue.batch
  cases hc : m.cursor <;> simp [onEpoll, hc, view]

/-- Every run over kqueue is matched step by step by one of the loop over epoll. The tasks are kept once and run in the
order of the locked appends, and a task that waits in the queue has a wake-up on its way. -/
theorem kqueue_refines_epoll (grow : Nat → Nat → Nat) (size : Nat) (ls : List (Label G τ)) (s : State G τ)
    (h : run (step grow) (init size) ls = some s) :
    (∃ mss : List (List (Machine.Label G τ)), mss.length = ls.length ∧ ∀ n ≤ ls.length,
      ∃ x m, run (step grow) (init size) (ls.take n) = some x ∧
        run (Machine.step grow) (Machine.init size) (mss.take n).flatten = some m ∧ Matches x m) ∧
    s.loop.executed ++ TaskQueue.batch s.loop ++ contents s.loop.heap s.loop.taskQueueW =
      s.loop.appended.map Prod.snd ∧
    (0 < s.loop.taskQueueW.len →
      Pending s ∨ (∃ g, s.loop.callers g ≠ .outside) ∨ Wakeup.BeforeSwap (view s.loop.cursor)) := by
  have hinit : Matches (init size : State G τ) (Machine.init size) :=
    ⟨0, rfl, by simp [Pending, init, Machine.init, Reported]⟩
  obtain ⟨mss, hlength, hall⟩ := run_simulates step_simulated hinit h
  obtain ⟨x, m, hx, hm, fd, rfl, hp⟩ := hall ls.length (Nat.le_refl _)
  rw [List.take_length, h] at hx
  cases hx
  refine ⟨⟨mss, hlength, hall⟩, ?_, ?_⟩
  · have horder := (TaskQueue.reachable_invariant grow size hm).order
    rwa [batch_onEpoll] at horder
  · intro hq
    rw [← hp]
    exact (run_invariant (Wakeup.step_invariant grow) (Wakeup.invariant_init size) hm).queue hq

/-- The trigger is cleared by its report, and a task that comes in while the report is handled triggers anew. -/
def secondTrigger : List (Label Bool Nat) :=
  [.loop .enter, .loop (.append (some true) 1), .loop (.compareAndSwap (some true)), .wake (some true),
    .poll (some [⟨0, none, 0⟩, ⟨7, some .read, EV_ENABLE⟩]), .loop .event, .closeWake, .loop .event, .loop .endBatch,
    .loop .setNeedWake, .loop (.append (some false) 2), .loop (.compareAndSwap (some false)), .loop .swap,
    .loop .runTask, .loop (.append none 3)]

theorem kqueue_refines_epoll_second_trigger : ∃ s, run (step fun _ n => n) (init 1) secondTrigger = some s ∧
    s.triggered = true ∧ s.loop.executed = [1] ∧ TaskQueue.batch s.loop = [2] ∧
    s.loop.executed ++ TaskQueue.batch s.loop ++ contents s.loop.heap s.loop.taskQueueW =
      s.loop.appended.map Prod.snd :=
  ⟨_, rfl, rfl, rfl, rfl, (kqueue_refines_epoll (fun _ n => n) 1 secondTrigger _ rfl).2.1⟩

end Gev.Poller.KqueueLoop
