import Gev.Connection.Intake
import Gev.Server.Delivery

namespace Gev.Server.Refinement

open Lib.Atomic Lib.Runs Lib.Slices Lib.RingBuffers Connection.State Connection.Code Connection.Writing
open Connection.Behaviour Connection.Intake EventLoop Interleaving Between Invariant Delivery
open Connection.Traffic (sendsTo)

variable {Λ G C σ κ δ : Type}

variable [DecidableEq C]

theorem lived_recording (S : Setup Λ C σ κ δ) (x : Peer σ) (c : C) : Recording S intake (Lived S.cfg x c) where
  event := by
    intro ts L log fd events h
    apply (handlerEvent_serves c h.1 S.fuel fd events log).mono
    rintro _ s ⟨d, hs⟩
    simpa using h.serves hs
  task := by
    intro ts L log u h
    apply (taskBody_serves c u L log).mono
    rintro _ s ⟨d, hs⟩
    exact h.serves hs

theorem lived_init {cfg : Config C σ κ δ} (packetSize : Nat) {conns : C → Conn σ κ} {c : C} {user : σ} {now : Int}
    (hc : conns c = newConnection cfg user now) :
    Lived cfg ⟨user, .empty⟩ c [] (newLocal packetSize conns) [] := by
  refine ⟨⟨by simp [newLocal], by simp [newLocal, array], Nat.le_refl _⟩, [], ?_, ?_, rfl, List.nil_sublist _⟩
  · have hpeer : peer (newLocal packetSize conns : Local C σ κ δ) c = ⟨user, .empty⟩ := by
      simp [peer, newLocal, hc, newConnection]
    rw [hpeer]
    exact .start
  · simp [newLocal, hc, newConnection, sights]

/-- The kernel has taken a first part of the output, and while the connection is open the rest is its backlog. -/
theorem output_of_lives {S : Setup Λ C σ κ δ} {s : Process Λ G C σ κ δ} (hI : Inv S s) {c : C} {u : Unit}
    (hd : (s.loops (S.loopOf c)).prog = .done u) {x : Peer σ} {ts : List (Task C δ)} {log : List (C × Bytes)}
    {es : List (Event κ δ)} (hes : Lives S.cfg x c ts (s.loops (S.loopOf c)).work log es) :
    (s.conn S c).accepted <+: es.flatMap Event.output ∧
      ((s.conn S c).connected = true →
        (s.conn S c).accepted ++ (s.conn S c).outBuffer.data = es.flatMap Event.output) := by
  have hsent : sent (s.conn S c) = es.flatMap Event.output := by
    have hsights : sights (s.conn S c) = es.flatMap Event.sights := hes.sights
    rw [sent_eq_given, hsights, List.flatMap_assoc]
    simp only [output_eq_given]
  rw [← hsent]
  exact stream_of_world (hI.world hd) c

variable [DecidableEq Λ] [DecidableEq G]

/-- The bytes that the kernel delivers for a connection in the course of a run, read by read. -/
def delivered (S : Setup Λ C σ κ δ) (c : C) (s : Process Λ G C σ κ δ) (ls : List (Label Λ G C δ)) : List Bytes :=
  received c (logged (step S) (noted intake (S.loopOf c)) s ls)

theorem lives_of_run {S : Setup Λ C σ κ δ} {packetSize taskQueueSize : Nat} {conns : C → Conn σ κ}
    {ls : List (Label Λ G C δ)} {s : Process Λ G C σ κ δ}
    (h : run (step S) (init packetSize taskQueueSize conns) ls = some s) {c : C} {user : σ} {now : Int}
    (hc : conns c = newConnection S.cfg user now) {u : Unit} (hd : (s.loops (S.loopOf c)).prog = .done u) :
    ∃ es, Lives S.cfg ⟨user, .empty⟩ c (s.loops (S.loopOf c)).poll.executed (s.loops (S.loopOf c)).work
      (logged (step S) (noted intake (S.loopOf c)) (init packetSize taskQueueSize conns) ls) es := by
  have hr := recorded_of_run (lived_recording S ⟨user, .empty⟩ c) (S.loopOf c) (lived_init packetSize hc) h
  rw [Recorded, hd] at hr
  exact hr.2

/-- Every connection of a running server is a sequential machine. Whatever the loops, the callers and the kernel do, and
however its buffers lie, between two events of its loop there are events of the machine that begin with the new
connection, take in the bytes the kernel has delivered for it, hand on Sends that were queued, and give the calls and
packets in its history; the kernel has taken a first part of their output, and while it is open the rest is its
backlog. -/
theorem connections_behave (S : Setup Λ C σ κ δ) (packetSize taskQueueSize : Nat) (conns : C → Conn σ κ)
    (hconns : ∀ c, ∃ user now, conns c = newConnection S.cfg user now) (ls : List (Label Λ G C δ))
    (s : Process Λ G C σ κ δ) (h : run (step S) (init packetSize taskQueueSize conns) ls = some s) (c : C) (u : Unit)
    (hd : (s.loops (S.loopOf c)).prog = .done u) :
    ∃ es, Behaves S.cfg ⟨(conns c).user, .empty⟩ es ⟨(s.conn S c).user, (s.conn S c).inBuffer⟩ ∧
      sights (s.conn S c) = es.flatMap Event.sights ∧
      delivered S c (init packetSize taskQueueSize conns) ls = es.filterMap Event.input ∧
      (es.filterMap Event.sends).Sublist
        (((s.loops (S.loopOf c)).poll.executed.filterMap (sendsTo c)).map Prod.fst) ∧
      (Meets (step S) Timely (init packetSize taskQueueSize conns) ls →
        (s.conn S c).accepted <+: es.flatMap Event.output ∧
        ((s.conn S c).connected = true →
          (s.conn S c).accepted ++ (s.conn S c).outBuffer.data = es.flatMap Event.output)) := by
  obtain ⟨user, now, hc⟩ := hconns c
  obtain ⟨es, hes⟩ := lives_of_run h hc hd
  have huser : (conns c).user = user := by rw [hc]; rfl
  refine ⟨es, huser ▸ hes.behaves, hes.sights, hes.input, hes.sends, ?_⟩
  intro hok
  exact output_of_lives (inv_of_run hconns hok h) hd hes

/-- A message is read and answered; the packet of a later Send is refused by the kernel, and the connection closes. -/
theorem connections_behave_talking :
    ∃ s es, run (step LifeCycle.sample) LifeCycle.sampleInit LifeCycle.talking = some s ∧
    Behaves LifeCycle.sample.cfg ⟨(), .empty⟩ es ⟨(), (s.conn LifeCycle.sample 1).inBuffer⟩ ∧
    es.filterMap Event.input = [[7]] ∧
    es.flatMap Event.sights = [.connect, .call (none, [7]), .give [7], .give [8], .close] ∧
    (s.conn LifeCycle.sample 1).accepted = [7] ∧ [7] <+: es.flatMap Event.output := by
  have hrun : ∃ s, run (step LifeCycle.sample) LifeCycle.sampleInit LifeCycle.talking = some s ∧
      (s.loops ()).prog = .done () ∧ delivered LifeCycle.sample 1 LifeCycle.sampleInit LifeCycle.talking = [[7]] ∧
      sights (s.conn LifeCycle.sample 1) = [.connect, .call (none, [7]), .give [7], .give [8], .close] ∧
      (s.conn LifeCycle.sample 1).accepted = [7] := ⟨_, rfl, rfl, rfl, rfl, rfl⟩
  obtain ⟨s, hs, hd, hin, hsights, hacc⟩ := hrun
  obtain ⟨es, hb, hes, hread, -, hout⟩ := connections_behave LifeCycle.sample 8 4 _ (fun _ => ⟨(), 0, rfl⟩)
    LifeCycle.talking s hs 1 () hd
  have hok : Meets (step LifeCycle.sample) Timely LifeCycle.sampleInit LifeCycle.talking :=
    timely_run (Int.le_refl 0) (fun _ => ⟨(), 0, rfl⟩) LifeCycle.talking
  exact ⟨s, es, hs, hb, hread.symm.trans hin, hes.symm.trans hsights, hacc, hacc ▸ (hout hok).1⟩

end Gev.Server.Refinement
