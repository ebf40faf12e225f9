import Gev.Connection.IdleTimer
import Mathlib.Logic.Function.Basic

namespace Gev.Connection.Watchdog

open Lib.Runs
open IdleTimer (second unix)

section Code

/-- Where the function of a fired timer stands: before time.Now, before it reads activeTime, before the test of Close
and its QueueInLoop, before its own test of connected, before AfterFunc and before it stores the new timer. -/
inductive Point
  | now
  | activeTime (now : Int)
  | close
  | queue
  | test (d : Int)
  | arm (d : Int)
  | store (timer : Nat)
  deriving DecidableEq

/-- A timer of a connection. It is over when it has been stopped and when its function has returned. -/
inductive Watch
  | armed (due : Int)
  | running (point : Point)
  | ended
  deriving DecidableEq

/-- Where the loop stands in handleClose: before it sets connected, before it loads the timer, and before Stop. -/
inductive Closing
  | outside
  | set
  | load
  | stop (timer : Nat)
  deriving DecidableEq

/-- The timers of a connection in the order in which they were made, and what is done to them. The flag created says
that NewConnection has returned, closes counts the calls of handleClose in the queue of the loop, and late is a ghost:
the firings since connected was set to false. -/
structure State where
  now : Int
  connected : Bool
  activeTime : Int
  watch : Nat → Watch
  next : Nat
  timer : Option Nat
  created : Bool
  closes : Nat
  closing : Closing
  late : Nat

variable (idleTime : Int)

/-- NewConnection with an idle time, before it stores the timer that AfterFunc has returned. -/
def newConnection (now : Int) : State where
  now := now
  connected := true
  activeTime := unix now
  watch := Function.update (fun _ => .ended) 0 (.armed (now + idleTime))
  next := 1
  timer := none
  created := false
  closes := 0
  closing := .outside
  late := 0

def State.set (s : State) (i : Nat) (w : Watch) : State := { s with watch := Function.update s.watch i w }

def closeTimeoutConn (s : State) (i : Nat) : Point → State
  | .now => s.set i (.running (.activeTime s.now))
  | .activeTime now =>
      let intervals := now - s.activeTime * second
      s.set i (.running (if intervals ≥ idleTime then .close else .test (idleTime - intervals)))
  | .close => s.set i (if s.connected then .running .queue else .ended)
  | .queue => { s.set i .ended with closes := s.closes + 1 }
  | .test d => s.set i (if s.connected then .running (.arm d) else .ended)
  | .arm d => { (s.set s.next (.armed (s.now + d))).set i (.running (.store s.next)) with next := s.next + 1 }
  | .store timer => { s.set i .ended with timer := some timer }

def Watch.stop : Watch → Watch
  | .armed _ => .ended
  | .running point => .running point
  | .ended => .ended

def handleClose (s : State) : Closing → Option State
  | .outside => none
  | .set => some { s with connected := false, closing := .load }
  | .load => some { s with closing := s.timer.elim .outside .stop }
  | .stop timer => some { s.set timer (s.watch timer).stop with closing := .outside }

/-- Time passes; NewConnection stores the timer; HandleEvent stores a time it has read; a timer that is due fires; its
function takes a step; any goroutine has Close queue a call of handleClose; the loop calls handleClose, from its queue
or from an event; it takes a step in it. A timer may fire, and the call that its function queues may run, before
NewConnection has stored it. -/
inductive Label
  | tick (now : Int)
  | created
  | event (now : Int)
  | fire (i : Nat)
  | go (i : Nat)
  | close
  | handleClose (queued : Bool)
  | loop

def step (s : State) : Label → Option State
  | .tick now => if s.now ≤ now then some { s with now := now } else none
  | .created => if s.created = false then some { s with created := true, timer := some 0 } else none
  | .event now =>
      if s.created = true ∧ s.closing = .outside ∧ now ≤ s.now then some { s with activeTime := unix now } else none
  | .fire i => match s.watch i with
      | .armed due =>
          if due ≤ s.now then
            some { s.set i (.running .now) with late := if s.connected then s.late else s.late + 1 }
          else none
      | .running _ | .ended => none
  | .go i => match s.watch i with
      | .running point => some (closeTimeoutConn idleTime s i point)
      | .armed _ | .ended => none
  | .close => if s.created = true then some { s with closes := s.closes + 1 } else none
  | .handleClose queued =>
      if s.closing = .outside ∧ (queued = true → 0 < s.closes) ∧ (queued = false → s.created = true) then
        some { s with
          closes := if queued then s.closes - 1 else s.closes
          closing := if s.connected then .set else .outside }
      else none
  | .loop => handleClose s s.closing

end Code

/-- A timer that will still fire, or whose function has not come to its decision. -/
def Live : Watch → Prop
  | .armed _ => True
  | .running (.store _) => False
  | .running _ => True
  | .ended => False

def owed : Watch → Nat
  | .armed _ => 1
  | .running (.arm _) => 1
  | .running _ => 0
  | .ended => 0

/-- Only the last timer is alive. While the connection is open it is, or a close is on its way; after that there is at
most one firing more. -/
structure Inv (s : State) : Prop where
  pos : 0 < s.next
  alone : ∀ i, i + 1 ≠ s.next → ¬ Live (s.watch i)
  kept : s.connected = true → Live (s.watch (s.next - 1)) ∨ 0 < s.closes ∨ s.closing = .set
  late : s.late + (if s.connected then 0 else owed (s.watch (s.next - 1))) ≤ if s.connected then 0 else 1
  closing : s.closing = .outside ∨ (s.closing = .set ∧ s.connected = true) ∨ s.connected = false

variable {idleTime : Int} {s t : State} {i : Nat} {w : Watch}

theorem Inv.last (hI : Inv s) (h : Live (s.watch i)) : i = s.next - 1 := by
  by_contra hne
  exact hI.alone i (by have := hI.pos; omega) h

theorem owed_le (w : Watch) : owed w ≤ 1 := by
  cases w with
  | armed due => exact Nat.le_refl 1
  | ended => exact Nat.zero_le 1
  | running point => cases point <;> simp [owed]

theorem inv_new (idleTime now : Int) : Inv (newConnection idleTime now) := by
  refine ⟨Nat.one_pos, ?_, ?_, ?_, .inl rfl⟩
  · intro i hi
    have hne : i ≠ 0 := fun h => hi (by rw [h]; rfl)
    simp [newConnection, Function.update_of_ne hne, Live]
  · intro _
    exact .inl (by simp [newConnection, Live])
  · simp [newConnection]

/-- A step of the last timer. -/
theorem Inv.replace (hI : Inv s) (hi : i = s.next - 1) (hnext : t.next = s.next)
    (hw : t.watch = Function.update s.watch i w)
    (hkept : t.connected = true → Live w ∨ 0 < t.closes ∨ t.closing = .set)
    (hlate : t.late + (if t.connected then 0 else owed w) ≤ if t.connected then 0 else 1)
    (hclosing : t.closing = .outside ∨ (t.closing = .set ∧ t.connected = true) ∨ t.connected = false) : Inv t := by
  have hlast : t.watch (t.next - 1) = w := by rw [hw, hnext, ← hi, Function.update_self]
  refine ⟨hnext ▸ hI.pos, ?_, ?_, ?_, hclosing⟩
  · intro j hj
    have hne : j ≠ i := by
      have := hI.pos
      omega
    rw [hw, Function.update_of_ne hne]
    exact hI.alone j (hnext ▸ hj)
  · rw [hlast]
    exact hkept
  · rw [hlast]
    exact hlate

/-- A timer whose function has come to its decision returns. -/
theorem Inv.retire (hI : Inv s) (hi : ¬ Live (s.watch i)) (timer : Option Nat) :
    Inv { s.set i .ended with timer := timer } := by
  by_cases hlast : i = s.next - 1
  · refine hI.replace hlast rfl rfl ?_ ?_ hI.closing
    · intro hc
      rcases hI.kept hc with hlive | hrest
      · exact absurd (hlast ▸ hlive) hi
      · exact .inr hrest
    · have hlate := hI.late
      have howed : owed .ended = 0 := rfl
      simp only [State.set, howed]
      split at hlate <;> simp_all
      omega
  · have hsame : (s.set i .ended).watch (s.next - 1) = s.watch (s.next - 1) :=
      Function.update_of_ne (Ne.symm hlast) _ _
    refine ⟨hI.pos, ?_, ?_, ?_, hI.closing⟩
    · intro j hj
      by_cases hji : j = i
      · rw [hji]
        simp [State.set, Live]
      · simp only [State.set, Function.update_of_ne hji]
        exact hI.alone j hj
    · intro hc
      exact hsame ▸ hI.kept hc
    · exact hsame ▸ hI.late

theorem Inv.arm (hI : Inv s) {d : Int} (hw : s.watch i = .running (.arm d)) :
    Inv (closeTimeoutConn idleTime s i (.arm d)) := by
  have hlast : i = s.next - 1 := hI.last (by rw [hw]; trivial)
  have hne : s.next ≠ i := by
    have := hI.pos
    omega
  have hnew : (closeTimeoutConn idleTime s i (.arm d)).watch s.next = .armed (s.now + d) := by
    simp [closeTimeoutConn, State.set, Function.update_of_ne hne]
  refine ⟨Nat.succ_pos _, ?_, fun _ => .inl ?_, ?_, hI.closing⟩
  · intro j hj
    have hjn : j ≠ s.next := fun h => hj (by rw [h]; rfl)
    by_cases hji : j = i
    · rw [hji]
      simp [closeTimeoutConn, State.set, Live]
    · simp only [closeTimeoutConn, State.set, Function.update_of_ne hji, Function.update_of_ne hjn]
      exact hI.alone j (by omega)
  · change Live ((closeTimeoutConn idleTime s i (.arm d)).watch s.next)
    rw [hnew]
    trivial
  · change s.late + (if s.connected then 0 else owed ((closeTimeoutConn idleTime s i (.arm d)).watch s.next)) ≤ _
    have hlate := hI.late
    rw [← hlast, hw] at hlate
    rw [hnew]
    exact hlate

/-- A step between the firing and the decision. -/
theorem Inv.decide (hI : Inv s) {point : Point} (hw : s.watch i = .running point) (hlive : Live (.running point))
    (closes : Nat) (hkept : s.connected = true → Live w ∨ 0 < closes) (howed : s.connected = false → owed w = 0) :
    Inv { s.set i w with closes := closes } := by
  refine hI.replace (hI.last (hw ▸ hlive)) rfl rfl (fun hc => ?_) ?_ hI.closing
  · rcases hkept hc with h | h
    · exact .inl h
    · exact .inr (.inl h)
  · have hlate := hI.late
    change s.late + (if s.connected then 0 else owed w) ≤ if s.connected then 0 else 1
    cases hc : s.connected with
    | true =>
        rw [hc] at hlate
        exact hlate
    | false =>
        rw [hc, if_neg Bool.false_ne_true, if_neg Bool.false_ne_true] at hlate
        rw [howed hc]
        exact Nat.le_trans (Nat.le_add_right _ _) hlate

/-- A step of closeTimeoutConn. -/
theorem Inv.go (hI : Inv s) {point : Point} (hw : s.watch i = .running point) :
    Inv (closeTimeoutConn idleTime s i point) := by
  cases point with
  | arm d => exact hI.arm hw
  | store timer => exact hI.retire (by rw [hw]; exact id) _
  | now => exact hI.decide hw trivial s.closes (fun _ => .inl trivial) (fun _ => rfl)
  | activeTime now =>
      apply hI.decide hw trivial s.closes
      · intro _
        split <;> exact .inl trivial
      · intro _
        split <;> rfl
  | close =>
      apply hI.decide hw trivial s.closes
      · intro hc
        rw [hc]
        exact .inl trivial
      · intro hc
        rw [hc]
        rfl
  | queue => exact hI.decide hw trivial (s.closes + 1) (fun _ => .inr (Nat.succ_pos _)) (fun _ => rfl)
  | test d =>
      apply hI.decide hw trivial s.closes
      · intro hc
        rw [hc]
        exact .inl trivial
      · intro hc
        rw [hc]
        rfl

/-- A timer fires. -/
theorem Inv.fire (hI : Inv s) {due : Int} (hw : s.watch i = .armed due) :
    Inv { s.set i (.running .now) with late := if s.connected then s.late else s.late + 1 } := by
  have hlast : i = s.next - 1 := hI.last (by rw [hw]; trivial)
  refine hI.replace hlast rfl rfl (fun _ => .inl trivial) ?_ hI.closing
  have hlate := hI.late
  rw [← hlast, hw] at hlate
  change (if s.connected then s.late else s.late + 1) + (if s.connected then 0 else 0) ≤ if s.connected then 0 else 1
  cases hc : s.connected with
  | true =>
      rw [hc] at hlate
      exact hlate
  | false =>
      rw [hc] at hlate
      exact hlate

/-- A step of handleClose. -/
theorem Inv.loop (hI : Inv s) (h : handleClose s s.closing = some t) : Inv t := by
  have hlate := hI.late
  cases hclosing : s.closing with
  | outside =>
      rw [hclosing] at h
      cases h
  | set =>
      rw [hclosing] at h
      cases h
      refine ⟨hI.pos, hI.alone, fun h => absurd h Bool.false_ne_true, ?_, .inr (.inr rfl)⟩
      have howed := owed_le (s.watch (s.next - 1))
      change s.late + owed (s.watch (s.next - 1)) ≤ 1
      split at hlate <;> omega
  | load =>
      rw [hclosing] at h
      cases h
      have hc : s.connected = false := by simpa [hclosing] using hI.closing
      exact ⟨hI.pos, hI.alone, fun h => absurd (hc.symm.trans h) Bool.false_ne_true, hlate, .inr (.inr hc)⟩
  | stop timer =>
      rw [hclosing] at h
      have hc : s.connected = false := by simpa [hclosing] using hI.closing
      have hopen : ¬ s.connected = true := by simp [hc]
      cases h
      cases hw : s.watch timer with
      | armed due =>
          refine hI.replace (hI.last (by rw [hw]; trivial)) rfl rfl (fun h => absurd h hopen) ?_ (.inl rfl)
          change s.late + (if s.connected then 0 else 0) ≤ if s.connected then 0 else 1
          rw [if_neg hopen, if_neg hopen] at hlate ⊢
          omega
      | running | ended =>
          have hsame : Function.update s.watch timer (s.watch timer) = s.watch := Function.update_eq_self ..
          rw [hw] at hsame
          simp only [State.set, Watch.stop, hsame]
          exact ⟨hI.pos, hI.alone, fun h => absurd h hopen, hlate, .inl rfl⟩

theorem Inv.step {l : Label} (hI : Inv s) (h : step idleTime s l = some t) : Inv t := by
  cases l with
  | tick now | created | event now =>
      simp only [Watchdog.step] at h
      split at h <;> cases h
      exact ⟨hI.pos, hI.alone, hI.kept, hI.late, hI.closing⟩
  | fire i =>
      simp only [Watchdog.step] at h
      split at h
      next due hw =>
        split at h <;> cases h
        exact hI.fire hw
      all_goals cases h
  | go i =>
      simp only [Watchdog.step] at h
      split at h
      next point hw =>
        cases h
        exact hI.go hw
      all_goals cases h
  | close =>
      simp only [Watchdog.step] at h
      split at h <;> cases h
      exact ⟨hI.pos, hI.alone, fun _ => .inr (.inl (Nat.succ_pos _)), hI.late, hI.closing⟩
  | handleClose queued =>
      simp only [Watchdog.step] at h
      split at h <;> cases h
      refine ⟨hI.pos, hI.alone, ?_, hI.late, ?_⟩
      · intro hc
        exact .inr (.inr (if_pos hc))
      · cases hc : s.connected with
        | true => exact .inr (.inl ⟨rfl, rfl⟩)
        | false => exact .inl rfl
  | loop => exact hI.loop h

/-- The timer of a connection as the atomic model has it, given by the time it is due. -/
def State.view (s : State) (lastEvent : Int) : IdleTimer.State where
  now := s.now
  connected := s.connected
  activeTime := s.activeTime
  timer := match s.watch (s.next - 1) with
    | .armed due => some due
    | .running _ | .ended => none
  lastEvent := lastEvent

/-- A firing whose function nothing disturbs is a firing of the atomic model. -/
theorem fire_undisturbed {due : Int} (lastEvent : Int) (hpos : 0 < s.next) (hw : s.watch (s.next - 1) = .armed due)
    (hdue : due ≤ s.now) : ∃ n,
    (run (step idleTime) s (.fire (s.next - 1) :: List.replicate n (.go (s.next - 1)))).map (·.view lastEvent) =
      IdleTimer.step idleTime (s.view lastEvent) (.fire s.now) := by
  have hne : s.next ≠ s.next - 1 := by omega
  have hnow : s.now ≤ s.now ∧ due ≤ s.now := ⟨Int.le_refl _, hdue⟩
  have hatomic : IdleTimer.step idleTime (s.view lastEvent) (.fire s.now) = some { s.view lastEvent with
      timer := IdleTimer.rearmed s.now (IdleTimer.closeTimeoutConn idleTime (s.view lastEvent) s.now) } := by
    simp only [IdleTimer.step, State.view, hw, Option.bind_some, if_pos hnow]
  rw [hatomic]
  simp only [IdleTimer.closeTimeoutConn, State.view]
  -- The function of the timer takes as many steps as its branch has operations.
  by_cases hidle : s.now - s.activeTime * second ≥ idleTime
  · by_cases hc : s.connected = true
    · refine ⟨4, ?_⟩
      simp [run, step, List.replicate, hw, hdue, closeTimeoutConn, State.set, hidle, hc, IdleTimer.rearmed]
    · refine ⟨3, ?_⟩
      simp [run, step, List.replicate, hw, hdue, closeTimeoutConn, State.set, hidle, hc, IdleTimer.rearmed]
  · by_cases hc : s.connected = true
    · refine ⟨5, ?_⟩
      simp [run, step, List.replicate, hw, hdue, closeTimeoutConn, State.set, hidle, hc, IdleTimer.rearmed,
        Function.update_of_ne hne]
    · refine ⟨3, ?_⟩
      simp [run, step, List.replicate, hw, hdue, closeTimeoutConn, State.set, hidle, hc, IdleTimer.rearmed]

/-- The idle timer under every interleaving of timers that fire, of their functions, of HandleEvent, Close and
handleClose. There are never two timers that are alive. While the connection is open the watch over it is kept: a timer
is alive, or a call of handleClose is queued or under way. After it has been closed there is at most one firing more. -/
theorem watch_kept (idleTime now : Int) (ls : List Label) (s : State)
    (h : run (step idleTime) (newConnection idleTime now) ls = some s) :
    (∀ i j, Live (s.watch i) → Live (s.watch j) → i = j) ∧
    (s.connected = true → (∃ i, Live (s.watch i)) ∨ 0 < s.closes ∨ s.closing = .set) ∧ s.late ≤ 1 := by
  have hI : Inv s := run_invariant (fun _ _ _ hI hstep => hI.step hstep) (inv_new idleTime now) h
  refine ⟨?_, ?_, ?_⟩
  · intro i j hi hj
    rw [hI.last hi, hI.last hj]
  · intro hc
    rcases hI.kept hc with hlive | hrest
    · exact .inl ⟨_, hlive⟩
    · exact .inr hrest
  · have hlate := hI.late
    split at hlate <;> omega

/-- Two seconds of idle time. The function of the first timer finds an event one second ago and arms another one; before
it stores that, the connection is closed. The loop stops the first timer, which has fired, and the other one fires
later. -/
def overtaken : List Label :=
  [.created, .tick second, .event second, .tick (2 * second), .fire 0, .go 0, .go 0, .go 0, .go 0, .handleClose false,
    .loop, .loop, .loop, .tick (3 * second), .fire 1]

theorem watch_kept_overtaken :
    ∃ s, run (step (2 * second)) (newConnection (2 * second) 0) overtaken = some s ∧ s.connected = false ∧
      s.late = 1 ∧ Live (s.watch 1) ∧ ∀ i, Live (s.watch i) → i = 1 := by
  have hrun : ∃ s, run (step (2 * second)) (newConnection (2 * second) 0) overtaken = some s ∧ s.connected = false ∧
      s.late = 1 ∧ s.watch 1 = .running .now := ⟨_, rfl, rfl, rfl, rfl⟩
  obtain ⟨s, hs, hclosed, hlate, hw⟩ := hrun
  have hlive : Live (s.watch 1) := by
    rw [hw]
    trivial
  obtain ⟨halone, -⟩ := watch_kept (2 * second) 0 overtaken s hs
  exact ⟨s, hs, hclosed, hlate, hlive, fun i hi => halone i 1 hi hlive⟩

end Gev.Connection.Watchdog
