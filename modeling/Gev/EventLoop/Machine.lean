import Gev.Lib.Slices
import Gev.Lib.Runs
import Mathlib.Logic.Function.Basic

namespace Gev.EventLoop.Machine

open Lib.Slices

/-- Where a goroutine stands in QueueInLoop: outside, between the locked
append and the compare-and-swap of needWake, or between a successful swap and
the write to the event descriptor. -/
inductive Caller
  | outside
  | appended
  | waking
  deriving DecidableEq

/-- What EpollWait reports: the event descriptor, or a socket with its bits. -/
inductive PollEvent
  | eventFd
  | socket (fd : Nat) (events : UInt32)
  deriving DecidableEq

/-- The program point of Poll, handlerEvent(-1, 0) and doPendingFunc. -/
inductive Cursor
  | start
  | wait
  | batch (rest : List PollEvent) (wake : Bool)
  | setNeedWake
  | swap
  | run (i length : Nat)
  | test
  | exited
  deriving DecidableEq

/-- One event loop with its poller. The caller none is the loop goroutine
itself, which may call QueueInLoop from a task or an event handler. The last
two fields are ghosts: the order of the locked appends, and of the calls. -/
structure State (G τ : Type) where
  heap : Heap τ
  taskQueueW : Slice
  taskQueueR : Slice
  needWake : Bool
  eventFd : Nat
  running : Bool
  cursor : Cursor
  callers : Option G → Caller
  appended : List (Option G × τ)
  executed : List τ

inductive Label (G τ : Type)
  | append (g : Option G) (t : τ)
  | compareAndSwap (g : Option G)
  | wake (g : Option G)
  | closeSet
  | closeWake
  | enter
  | poll (events : List PollEvent)
  | event
  | endBatch
  | setNeedWake
  | swap
  | runTask
  | endRun
  | test

variable {G τ : Type} [DecidableEq G] [Inhabited τ]

def init (taskQueueSize : Nat) : State G τ :=
  let w := make [] default 0 taskQueueSize
  let r := make w.2 default 0 taskQueueSize
  { heap := r.2, taskQueueW := w.1, taskQueueR := r.1, needWake := true, eventFd := 0,
    running := false, cursor := .start, callers := fun _ => .outside, appended := [], executed := [] }

/-- The loop goroutine runs handler code, which is where it may call QueueInLoop. -/
def Cursor.handling : Cursor → Bool
  | .batch _ _ | .run _ _ => true
  | _ => false

def State.setCaller (s : State G τ) (g : Option G) (c : Caller) : State G τ :=
  { s with callers := Function.update s.callers g c }

/-- The locked append of QueueInLoop. -/
def State.append (grow : Nat → Nat → Nat) (s : State G τ) (g : Option G) (t : τ) : State G τ :=
  let w := Lib.Slices.append grow default s.heap s.taskQueueW [t]
  { s with
    heap := w.2
    taskQueueW := w.1
    callers := Function.update s.callers g .appended
    appended := s.appended ++ [(g, t)] }

/-- The loop goroutine's own steps. Each needs it to be outside QueueInLoop. -/
def loopStep (s : State G τ) : Label G τ → Option (State G τ)
  | .enter => match s.cursor with
    | .start => some { s with running := true, cursor := .wait }
    | _ => none
  | .poll events => match s.cursor with
    | .wait =>
        -- The event descriptor is level-triggered and reported at most once in a batch.
        if events ≠ [] ∧ events.count .eventFd ≤ 1 ∧ (.eventFd ∈ events → 0 < s.eventFd) then
          some { s with cursor := .batch events false }
        else none
    | _ => none
  | .event => match s.cursor with
    | .batch (.socket _ _ :: rest) wake => some { s with cursor := .batch rest wake }
    | .batch (.eventFd :: rest) _ => some { s with eventFd := 0, cursor := .batch rest true }
    | _ => none
  | .endBatch => match s.cursor with
    | .batch [] wake => some { s with cursor := if wake then .setNeedWake else .wait }
    | _ => none
  | .setNeedWake => match s.cursor with
    | .setNeedWake => some { s with needWake := true, cursor := .swap }
    | _ => none
  | .swap => match s.cursor with
    | .swap => some { s with
        taskQueueW := s.taskQueueR
        taskQueueR := s.taskQueueW
        cursor := .run 0 s.taskQueueW.len }
    | _ => none
  | .runTask => match s.cursor with
    | .run i length =>
        if i < length then
          (contents s.heap s.taskQueueR)[i]?.map (fun t =>
            { s with executed := s.executed ++ [t], cursor := .run (i + 1) length })
        else none
    | _ => none
  | .endRun => match s.cursor with
    | .run i length =>
        if i < length then none
        else some { s with taskQueueR := reslice s.taskQueueR 0 0, cursor := .test }
    | _ => none
  | .test => match s.cursor with
    | .test => some { s with cursor := if s.running then .wait else .exited }
    | _ => none
  | _ => none

def step (grow : Nat → Nat → Nat) (s : State G τ) (l : Label G τ) : Option (State G τ) :=
  match l with
  | .append g t =>
      if s.callers g = .outside ∧ (g = none → s.cursor.handling) then some (s.append grow g t) else none
  | .compareAndSwap g =>
      if s.callers g = .appended then
        if s.needWake then some { s.setCaller g .waking with needWake := false }
        else some (s.setCaller g .outside)
      else none
  | .wake g =>
      if s.callers g = .waking then some { s.setCaller g .outside with eventFd := s.eventFd + 1 }
      else none
  | .closeSet => some { s with running := false }
  | .closeWake => some { s with eventFd := s.eventFd + 1 }
  | l => if s.callers none = .outside then loopStep s l else none

/-- The loop goroutine's steps by case, with the program point of each. -/
inductive Moves (s : State G τ) : Label G τ → State G τ → Prop
  | enter (hc : s.cursor = .start) : Moves s .enter { s with running := true, cursor := .wait }
  | poll {events : List PollEvent} (hc : s.cursor = .wait) (hfd : .eventFd ∈ events → 0 < s.eventFd) :
      Moves s (.poll events) { s with cursor := .batch events false }
  | socket {fd : Nat} {events : UInt32} {rest : List PollEvent} {wake : Bool}
      (hc : s.cursor = .batch (.socket fd events :: rest) wake) :
      Moves s .event { s with cursor := .batch rest wake }
  | readEventFd {rest : List PollEvent} {wake : Bool} (hc : s.cursor = .batch (.eventFd :: rest) wake) :
      Moves s .event { s with eventFd := 0, cursor := .batch rest true }
  | endBatch {wake : Bool} (hc : s.cursor = .batch [] wake) :
      Moves s .endBatch { s with cursor := if wake then .setNeedWake else .wait }
  | setNeedWake (hc : s.cursor = .setNeedWake) :
      Moves s .setNeedWake { s with needWake := true, cursor := .swap }
  | swap (hc : s.cursor = .swap) :
      Moves s .swap { s with
        taskQueueW := s.taskQueueR
        taskQueueR := s.taskQueueW
        cursor := .run 0 s.taskQueueW.len }
  | runTask {i length : Nat} {t : τ} (hc : s.cursor = .run i length) (hi : i < length)
      (ht : (contents s.heap s.taskQueueR)[i]? = some t) :
      Moves s .runTask { s with executed := s.executed ++ [t], cursor := .run (i + 1) length }
  | endRun {i length : Nat} (hc : s.cursor = .run i length) (hi : length ≤ i) :
      Moves s .endRun { s with taskQueueR := reslice s.taskQueueR 0 0, cursor := .test }
  | test (hc : s.cursor = .test) :
      Moves s .test { s with cursor := if s.running then .wait else .exited }

omit [DecidableEq G] [Inhabited τ] in
theorem moves_of_loopStep {s t : State G τ} {l : Label G τ} (h : loopStep s l = some t) : Moves s l t := by
  cases l with
  | enter =>
      simp only [loopStep] at h
      split at h <;> cases h
      exact .enter ‹_›
  | poll events =>
      simp only [loopStep] at h
      split at h <;> try cases h
      split at h <;> cases h
      rename_i hc hev
      exact .poll hc hev.2.2
  | event =>
      simp only [loopStep] at h
      split at h <;> cases h
      · exact .socket ‹_›
      · exact .readEventFd ‹_›
  | endBatch =>
      simp only [loopStep] at h
      split at h <;> cases h
      exact .endBatch ‹_›
  | setNeedWake =>
      simp only [loopStep] at h
      split at h <;> cases h
      exact .setNeedWake ‹_›
  | swap =>
      simp only [loopStep] at h
      split at h <;> cases h
      exact .swap ‹_›
  | runTask =>
      simp only [loopStep] at h
      split at h <;> try cases h
      rename_i i length hc
      split at h <;> try cases h
      obtain ⟨task, htask, rfl⟩ := Option.map_eq_some_iff.mp h
      exact .runTask hc ‹_› htask
  | endRun =>
      simp only [loopStep] at h
      split at h <;> try cases h
      rename_i i length hc
      split at h <;> cases h
      exact .endRun hc (Nat.le_of_not_lt ‹_›)
  | test =>
      simp only [loopStep] at h
      split at h <;> cases h
      exact .test ‹_›
  | append | compareAndSwap | wake | closeSet | closeWake => cases h

/-- Every step by case: the three stages of QueueInLoop, the two of
Poller.Close, and the loop goroutine's own. -/
inductive Steps (grow : Nat → Nat → Nat) (s : State G τ) : Label G τ → State G τ → Prop
  | append {g : Option G} {t : τ} (hg : s.callers g = .outside) (hloop : g = none → s.cursor.handling) :
      Steps grow s (.append g t) (s.append grow g t)
  | swapped {g : Option G} (hg : s.callers g = .appended) (hn : s.needWake = true) :
      Steps grow s (.compareAndSwap g) { s.setCaller g .waking with needWake := false }
  | notSwapped {g : Option G} (hg : s.callers g = .appended) (hn : s.needWake = false) :
      Steps grow s (.compareAndSwap g) (s.setCaller g .outside)
  | wake {g : Option G} (hg : s.callers g = .waking) :
      Steps grow s (.wake g) { s.setCaller g .outside with eventFd := s.eventFd + 1 }
  | closeSet : Steps grow s .closeSet { s with running := false }
  | closeWake : Steps grow s .closeWake { s with eventFd := s.eventFd + 1 }
  | loop {l : Label G τ} {t : State G τ} (hself : s.callers none = .outside) (h : Moves s l t) :
      Steps grow s l t

theorem steps_of_step {grow : Nat → Nat → Nat} {s t : State G τ} {l : Label G τ}
    (h : step grow s l = some t) : Steps grow s l t := by
  cases l with
  | append g task =>
      simp only [step] at h
      split at h <;> cases h
      rename_i hg
      exact .append hg.1 hg.2
  | compareAndSwap g =>
      simp only [step] at h
      split at h <;> try cases h
      split at h <;> cases h
      · exact .swapped ‹_› ‹_›
      · exact .notSwapped ‹_› (eq_false_of_ne_true ‹_›)
  | wake g =>
      simp only [step] at h
      split at h <;> cases h
      exact .wake ‹_›
  | closeSet => cases h; exact .closeSet
  | closeWake => cases h; exact .closeWake
  | enter | poll | event | endBatch | setNeedWake | swap | runTask | endRun | test =>
      simp only [step] at h
      split at h <;> try cases h
      exact .loop ‹_› (moves_of_loopStep h)

/-- Poll returns only from the test of running behind a batch of tasks. -/
theorem exited_of_step {grow : Nat → Nat → Nat} {s t : State G τ} {l : Label G τ} (h : step grow s l = some t)
    (ht : t.cursor = .exited) : s.cursor = .exited ∨ l = .test ∧ s.cursor = .test ∧ s.running = false := by
  cases steps_of_step h with
  | append | swapped | notSwapped | wake | closeSet | closeWake => exact .inl ht
  | loop _ hm =>
      cases hm with
      | enter | poll | socket | readEventFd | setNeedWake | swap | runTask | endRun => cases ht
      | endBatch =>
          dsimp only at ht
          split at ht <;> cases ht
      | test hc =>
          right
          refine ⟨rfl, hc, ?_⟩
          cases hr : s.running with
          | true => simp [hr] at ht
          | false => rfl

omit [DecidableEq G] [Inhabited τ] in
theorem no_moves_exited {s t : State G τ} {l : Label G τ} (hs : s.cursor = .exited) : ¬ Moves s l t := by
  intro hm
  cases hm <;> simp_all

theorem stays_exited {grow : Nat → Nat → Nat} {s t : State G τ} {l : Label G τ} (h : step grow s l = some t)
    (hs : s.cursor = .exited) : t.cursor = .exited := by
  cases steps_of_step h with
  | append | swapped | notSwapped | wake | closeSet | closeWake => exact hs
  | loop _ hm => exact absurd hm (no_moves_exited hs)

/-- Only Poller.Close takes the flag back once Poll has set it. -/
theorem running_of_step {grow : Nat → Nat → Nat} {s t : State G τ} {l : Label G τ} (h : step grow s l = some t)
    (ht : t.running = false) : l = .closeSet ∨ s.running = false ∧ (s.cursor = .start → t.cursor = .start) := by
  cases steps_of_step h with
  | closeSet => exact .inl rfl
  | append | swapped | notSwapped | wake | closeWake => exact .inr ⟨ht, id⟩
  | loop _ hm =>
      cases hm with
      | enter => cases ht
      | poll hc | socket hc | readEventFd hc | endBatch hc | setNeedWake hc | swap hc | runTask hc | endRun hc
      | test hc =>
          refine .inr ⟨ht, fun hstart => ?_⟩
          rw [hc] at hstart
          cases hstart

end Gev.EventLoop.Machine
