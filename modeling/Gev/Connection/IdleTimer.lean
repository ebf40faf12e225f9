import Gev.Lib.Runs

namespace Gev.Connection.IdleTimer

open Lib.Runs

def second : Int := 1000000000

def unix (t : Int) : Int := t / second

/-- What the idle timer works with. The timer is given by the time it is due; lastEvent is a ghost, the exact time of
the last HandleEvent or of the creation. -/
structure State where
  now : Int
  connected : Bool
  activeTime : Int
  timer : Option Int
  lastEvent : Int

section Code

variable (idleTime : Int)

def newConnection (now : Int) : State where
  now := now
  connected := true
  activeTime := if idleTime > 0 then unix now else 0
  timer := if idleTime > 0 then some (now + idleTime) else none
  lastEvent := now

def handleEvent (s : State) (now : Int) : State :=
  { s with now := now, activeTime := if idleTime > 0 then unix now else s.activeTime, lastEvent := now }

inductive Decision
  | close
  | afterFunc (d : Int)
  | nothing
  deriving DecidableEq

def closeTimeoutConn (s : State) (now : Int) : Decision :=
  let intervals := now - s.activeTime * second
  if intervals ≥ idleTime then .close
  else if s.connected then .afterFunc (idleTime - intervals)
  else .nothing

def rearmed (now : Int) : Decision → Option Int
  | .afterFunc d => some (now + d)
  | .close | .nothing => none

/-- The steps, each at its time. A timer does not fire before it is due; the Stop of handleClose may come too late. -/
inductive Label
  | event (now : Int)
  | fire (now : Int)
  | handleClose (now : Int) (stopped : Bool)

def step (s : State) : Label → Option State
  | .event now => if s.now ≤ now then some (handleEvent idleTime s now) else none
  | .fire now => s.timer.bind fun due =>
      if s.now ≤ now ∧ due ≤ now then
        some { s with now := now, timer := rearmed now (closeTimeoutConn idleTime s now) }
      else none
  | .handleClose now stopped =>
      if s.now ≤ now then
        some { s with now := now, connected := false, timer := if stopped then none else s.timer }
      else none

end Code

variable {idleTime : Int} {s t : State} {l : Label}

/-- A firing that decides to close comes at least the idle time after the last event. -/
def NotEarly (idleTime : Int) (s : State) : Label → Prop
  | .fire now => closeTimeoutConn idleTime s now = .close → s.lastEvent + idleTime ≤ now
  | _ => True

/-- No firing falls between the idle time behind the last event's second and the idle time behind the event itself. -/
def Clear (idleTime : Int) (s : State) : Label → Prop
  | .fire now => now < unix s.lastEvent * second + idleTime ∨ s.lastEvent + idleTime ≤ now
  | _ => True

instance (s : State) (l : Label) : Decidable (Clear idleTime s l) := match l with
  | .fire _ => inferInstanceAs (Decidable (_ ∨ _))
  | .event _ | .handleClose _ _ => inferInstanceAs (Decidable True)

structure Stored (idleTime : Int) (s : State) : Prop where
  second : 0 < idleTime → s.activeTime = unix s.lastEvent
  armed : s.timer ≠ none → 0 < idleTime

theorem stored_new (idleTime now : Int) : Stored idleTime (newConnection idleTime now) := by
  constructor
  · intro h
    exact if_pos h
  · intro h
    apply Decidable.of_not_not
    intro hi
    exact h (if_neg hi)

theorem Stored.step (hs : Stored idleTime s) (h : step idleTime s l = some t) : Stored idleTime t := by
  cases l with
  | event now =>
      simp only [IdleTimer.step] at h
      split at h <;> cases h
      exact ⟨fun hi => if_pos hi, hs.armed⟩
  | fire now =>
      obtain ⟨due, hdue, h⟩ := Option.bind_eq_some_iff.mp h
      split at h <;> cases h
      exact ⟨hs.second, fun _ => hs.armed (by simp [hdue])⟩
  | handleClose now stopped =>
      simp only [IdleTimer.step] at h
      split at h <;> cases h
      refine ⟨hs.second, ?_⟩
      intro hne
      apply hs.armed
      intro hnone
      cases stopped <;> simp [hnone] at hne

theorem lt_unix_add (now : Int) : now < unix now * second + second := by
  simp only [unix, second]
  omega

theorem close_iff (idleTime : Int) (s : State) (now : Int) :
    closeTimeoutConn idleTime s now = .close ↔ s.activeTime * second + idleTime ≤ now := by
  simp only [closeTimeoutConn]
  split
  · simp only [true_iff]
    omega
  · split <;> simp only [reduceCtorEq, false_iff] <;> omega

theorem notEarly_iff_clear (hs : Stored idleTime s) (h : step idleTime s l = some t) :
    NotEarly idleTime s l ↔ Clear idleTime s l := by
  cases l with
  | fire now =>
      obtain ⟨due, hdue, -⟩ := Option.bind_eq_some_iff.mp h
      have hactive := hs.second (hs.armed (by simp [hdue]))
      simp only [NotEarly, Clear, close_iff, hactive]
      omega
  | event | handleClose => exact Iff.rfl

/-- The rounding does not add up: a decision to close is early by less than a second. -/
def NearlyIdle (idleTime : Int) (s : State) : Label → Prop
  | .fire now => closeTimeoutConn idleTime s now = .close → s.lastEvent + idleTime < now + second
  | _ => True

theorem early_by_less_than_second (idleTime created : Int) (ls : List Label) (s : State)
    (h : run (step idleTime) (newConnection idleTime created) ls = some s) :
    Meets (step idleTime) (NearlyIdle idleTime) (newConnection idleTime created) ls := by
  have htrue : Meets (step idleTime) (fun _ _ => True) (newConnection idleTime created) ls := meets_trivial _ ls
  refine (meets_congr (I := Stored idleTime) (fun _ _ _ hs _ ht => hs.step ht) ?_
    (stored_new idleTime created) h).mpr htrue
  intro s l t hs ht
  refine iff_true_intro ?_
  cases l with
  | fire now =>
      obtain ⟨due, hdue, -⟩ := Option.bind_eq_some_iff.mp ht
      have hactive := hs.second (hs.armed (by simp [hdue]))
      have hlt := lt_unix_add s.lastEvent
      simp only [NearlyIdle, close_iff, hactive]
      omega
  | event | handleClose => trivial

/-- In a run of events and firings, no decision to close comes before the idle time is over if and only if no firing
falls into the part of a second that was cut off from the time of the last event. -/
theorem idle_timeout (idleTime created : Int) (ls : List Label) (s : State)
    (h : run (step idleTime) (newConnection idleTime created) ls = some s) :
    Meets (step idleTime) (NotEarly idleTime) (newConnection idleTime created) ls ↔
      Meets (step idleTime) (Clear idleTime) (newConnection idleTime created) ls :=
  meets_congr (I := Stored idleTime) (fun _ _ _ hs _ ht => hs.step ht) (fun _ _ _ hs ht => notEarly_iff_clear hs ht)
    (stored_new idleTime created) h

/-- Two seconds of idle time: a firing after two seconds finds an event one second ago and arms the timer anew. -/
theorem idle_timeout_rearmed :
    (∃ s, run (step (2 * second)) (newConnection (2 * second) 0)
      [.event second, .fire (2 * second), .fire (3 * second)] = some s) ∧
    Meets (step (2 * second)) (NotEarly (2 * second)) (newConnection (2 * second) 0)
      [.event second, .fire (2 * second), .fire (3 * second)] := by
  have hrun : ∃ s, run (step (2 * second)) (newConnection (2 * second) 0)
      [.event second, .fire (2 * second), .fire (3 * second)] = some s := ⟨_, rfl⟩
  refine ⟨hrun, ?_⟩
  obtain ⟨s, hs⟩ := hrun
  exact (idle_timeout (2 * second) 0 _ s hs).mpr (meets_of_check rfl)

/-- One second of idle time: the connection has had an event after 0.9 s and is closed after one second. -/
theorem closed_after_tenth : ∃ s t, run (step second) (newConnection second 0) [.event 900000000] = some s ∧
    step second s (.fire second) = some t ∧ closeTimeoutConn second s second = .close ∧
    s.lastEvent = 900000000 ∧ second - s.lastEvent = 100000000 :=
  ⟨_, _, rfl, rfl, rfl, rfl, rfl⟩

end Gev.Connection.IdleTimer
