import Gev.Connection.WindowsWriter
import Gev.Connection.Code

namespace Gev.Connection.WindowsStreams

open Lib.Atomic Lib.Threads Lib.Slices Lib.RingBuffers Lib.Runs WindowsLoops WindowsWriter
open State (Bytes)

variable {G σ κ δ : Type}

section Reader

def Intake (x : Conn σ δ) : Prop := x.received.flatten = x.consumed ++ x.inBuffer.data

def ReaderJ : Op κ δ → Conn σ δ → Prop
  | .unPacket, x => Intake x
  | o, _ => ¬ OfWriter o

theorem readerJ_of_plain {o : Op κ δ} (ho : Plain o) (x : Conn σ δ) : ReaderJ o x := by
  cases o <;> first | exact ho.1 | exact absurd trivial ho.2

variable {cfg : Config σ κ δ} {x y : Conn σ δ}

theorem Intake.beside (h : Intake x) (hxy : Beside x y) : Intake y := by
  rw [Intake, hxy.received, hxy.consumed, hxy.inBuffer]
  exact h

theorem reader_plain {α : Type} {p : Prog κ δ α} (hp : p.Uses Plain) (hx : Intake x) :
    Always (among (semantics cfg) Beside) ReaderJ (fun _ => Intake) p x :=
  always_among_uses hp (fun _ y ho _ => readerJ_of_plain ho y) (fun _ _ => Intake.beside)
    (fun _ ho _ _ _ _ hy hact => hy.beside (act_beside ho.2 hact)) hx

theorem Intake.unPacket {ch : (semantics cfg).Choice .unPacket} {r : Res (.unPacket : Op κ δ)} (hx : Intake x)
    (h : (semantics cfg).act .unPacket ch x = some (r, y)) : Intake y := by
  cases h
  rw [Intake, List.append_assoc, RingBuffer.data_advance, List.take_append_drop]
  exact hx

theorem reader_handlerProtocol (fuel : Nat) (tmpBuffer : Bytes) (cap : Nat) (hx : Intake x) :
    Always (among (semantics cfg) Beside) ReaderJ (fun _ => Intake) (handlerProtocol cfg fuel tmpBuffer cap) x := by
  induction fuel generalizing tmpBuffer cap x with
  | zero =>
      apply always_among_step id
      intro _ _ _ r
      cases r
  | succ fuel ih =>
      apply always_among_step (J := ReaderJ) (o := .unPacket) hx
      rintro x₁ hx₁ ch ⟨ctx, receivedData⟩ y hact
      have hnext : Intake y := (hx.beside hx₁).unPacket hact
      simp only [Program.bind]
      split
      · apply always_among_step id
        intro x₂ hx₂ ch sendData z hact
        have hintake : Intake z := by
          have h := hnext.beside hx₂
          cases hact
          exact h
        cases sendData with
        | none => exact ih tmpBuffer cap hintake
        | some d =>
            apply always_among_step id
            intro x₃ hx₃ ch packed w hact
            have hpacked : Intake w := by
              have h := hintake.beside hx₃
              cases hact
              exact h
            exact ih _ _ hpacked
      · exact hnext

variable (cfg) in
theorem plain_readEnd (cap : Nat) : (readEnd cfg cap : Prog κ δ Resume).Uses Plain := by
  unfold readEnd
  split
  · exact ⟨⟨id, id⟩, fun _ => ⟨⟨id, id⟩, fun _ => trivial⟩⟩
  · exact ⟨⟨id, id⟩, fun _ => trivial⟩

theorem reader_readRest (inject : Bytes → δ) (fuel cap : Nat) {data : Bytes}
    (hx : x.received.flatten = x.consumed ++ x.inBuffer.data ++ data) :
    Always (among (semantics cfg) Beside) ReaderJ (fun _ => Intake) (readRest cfg inject fuel cap data) x := by
  apply always_among_step id
  intro x₁ hx₁ ch r y hact
  cases hact
  have hintake : Intake { x₁ with inBuffer := x₁.inBuffer.write data } := by
    rw [Intake, RingBuffer.data_write, ← List.append_assoc, hx₁.received, hx₁.consumed, hx₁.inBuffer]
    exact hx
  apply Always.bind (p := handlerProtocol cfg fuel [] cap)
  apply (reader_handlerProtocol fuel [] cap hintake).mono
  rintro ⟨buf, cap⟩ y hy
  refine reader_plain ?_ hy
  change (if buf.length ≠ 0 then _ else _ : Prog κ δ Resume).Uses Plain
  split
  · exact (plain_send _ _).bind fun _ => plain_readEnd cfg cap
  · exact plain_readEnd cfg cap

theorem reader_readLoop (inject : Bytes → δ) (fuel len cap : Nat) (hx : Intake x) :
    Always (among (semantics cfg) Beside) ReaderJ (fun a y => a ≠ .returned → Intake y)
      (readLoop cfg inject fuel len cap) x := by
  apply always_among_step id
  intro x₁ hx₁ ch dying y hact
  cases hact
  have hintake := hx.beside hx₁
  cases hd : x₁.dying with
  | true => exact fun h => absurd rfl h
  | false =>
      apply always_among_step id
      rintro x₂ hx₂ ch ⟨data, err⟩ y hact
      have hintake₂ := hintake.beside hx₂
      change act cfg (.connRead len) ch x₂ = _ at hact
      simp only [act] at hact
      split at hact <;> cases hact
      cases herr : ch.err with
      | true =>
          apply Always.bind (p := close)
          apply (reader_plain plain_close (by simpa [herr] using hintake₂)).mono
          exact fun _ _ _ h => absurd rfl h
      | false =>
          refine (reader_readRest inject fuel cap ?_).mono fun _ _ hy _ => hy
          by_cases hdata : ch.data = []
          · simpa [hdata, Intake] using hintake₂
          · simpa [hdata] using congrArg (· ++ ch.data) hintake₂

end Reader

section System

variable {cfg : Config σ κ δ}

theorem unread_runTasks (i rest : Nat) : (runTasks i rest : Prog κ δ Unit).Uses fun o => ¬ OfReader o := by
  have hread : ∀ o : Op κ δ, OffQueue o → ¬ OfReader o := by
    intro o ho
    cases o
    case packet queued data => cases queued <;> first | exact id | cases ho
    all_goals first | exact id | cases ho
  induction rest generalizing i with
  | zero => trivial
  | succ rest ih => exact ⟨id, fun t => ((offQueue_runTask t).mono hread).bind fun _ => ih (i + 1)⟩

variable (cfg) in
theorem unread_writeLoop : (writeLoop cfg : Prog κ δ Resume).Uses fun o => ¬ OfReader o := by
  have hread : ∀ o : Op κ δ, Emits o → ¬ OfReader o := by
    intro o ho
    cases o <;> first | exact id | cases ho
  refine ⟨id, ?_⟩
  intro dying
  cases dying with
  | true => trivial
  | false =>
      refine ⟨id, fun length => ?_⟩
      refine Program.Uses.bind (p := do runTasks 0 length; call .resetQueue) ?_ fun _ => (emits_flush cfg).mono hread
      exact (unread_runTasks 0 length).bind fun _ => ⟨id, fun _ => trivial⟩

def Rely : Thread G → Conn σ δ → Conn σ δ → Prop
  | .reader => Beside
  | .writer => Aside
  | .user _ => fun _ _ => True

def Permits : Thread G → Op κ δ → Conn σ δ → Prop
  | .reader => ReaderJ
  | .writer => fun o x => (QueueJ o x ∧ StreamJ o x) ∧ ¬ OfReader o
  | .user _ => fun o _ => Plain o

def Result (cfg : Config σ κ δ) : Thread G → Resume → Conn σ δ → Prop
  | .reader => fun a x => a ≠ .returned → Intake x
  | .writer => fun a x => a = .write → Spare x ∧ Stream x ∧ Kept cfg x.started x
  | .user _ => fun _ _ => True

theorem relies (cfg : Config σ κ δ) (i : Thread G) :
    Relies (Rely i) (Permits i : Op κ δ → Conn σ δ → Prop) (Result cfg i) := by
  cases i with
  | reader =>
      refine ⟨Beside.refl, fun _ _ _ => Beside.trans, ?_, fun _ _ _ h hxy ha => (h ha).beside hxy⟩
      intro o x y hJ hxy
      cases o <;> first | exact Intake.beside hJ hxy | exact hJ
  | writer =>
      refine ⟨Aside.refl, fun _ _ _ => Aside.trans, ?_, ?_⟩
      · rintro o x y ⟨⟨hqueue, hstream⟩, hread⟩ hxy
        refine ⟨⟨?_, ?_⟩, hread⟩
        · cases o <;> first | exact Tail.aside hqueue hxy | trivial
        · cases o
          case connWrite data =>
            refine ⟨hxy.failed.trans hstream.1, ?_⟩
            rw [hxy.written, hxy.sent]
            exact hstream.2
          all_goals trivial
      · intro a x y h hxy ha
        obtain ⟨hspare, hstream, hkept⟩ := h ha
        exact ⟨hspare.aside hxy, hstream.aside hxy, kept_aside hkept hxy⟩
  | user g => exact ⟨fun _ => trivial, fun _ _ _ _ _ => trivial, fun _ _ _ h _ => h, fun _ _ _ _ _ => trivial⟩

variable {x y : Conn σ δ}

/-- A goroutine's operation is one that the others rely on. -/
theorem relied {i j : Thread G} {o : Op κ δ} {ch : (semantics cfg).Choice o} {r : Res o} (hp : Permits i o x)
    (h : (semantics cfg).act o ch x = some (r, y)) (hj : j ≠ i) : Rely j x y := by
  cases j with
  | user g => trivial
  | reader =>
      apply act_beside _ h
      cases i with
      | reader => exact absurd rfl hj
      | writer => exact hp.2
      | user g => exact hp.2
  | writer =>
      apply act_aside _ h
      cases i with
      | writer => exact absurd rfl hj
      | user g => exact hp.1
      | reader => cases o <;> first | exact hp | exact id

structure Inv (cfg : Config σ κ δ) (s : System G σ κ δ) : Prop where
  threads : ∀ i, Always (among (semantics cfg) (Rely i)) (Permits i) (Result cfg i) (s.prog i) s.conn
  written : s.conn.written <+: sent s.conn
  started : s.conn.started <+: s.conn.appended

/-- What has been written and which functions have been started stays in order. -/
theorem act_inOrder {i : Thread G} {o : Op κ δ} {ch : (semantics cfg).Choice o} {r : Res o} (hp : Permits i o x)
    (h : (semantics cfg).act o ch x = some (r, y)) (hwritten : x.written <+: sent x)
    (hstarted : x.started <+: x.appended) : y.written <+: sent y ∧ y.started <+: y.appended := by
  by_cases hw : OfWriter o
  · have hpermits : QueueJ o x ∧ StreamJ o x := by
      cases i with
      | writer => exact hp.1
      | user g => exact absurd hw hp.1
      | reader => cases o <;> first | exact absurd hw hp | cases hw
    change act cfg o ch x = some (r, y) at h
    cases o
    case connWrite data =>
      simp only [act] at h
      split at h <;> cases h
      obtain ⟨-, hnext⟩ := hpermits.2
      exact ⟨((List.prefix_append_right_inj _).mpr (List.take_prefix _ _)).trans hnext, hstarted⟩
    case task j =>
      obtain ⟨t, ht, hact⟩ := Option.map_eq_some_iff.mp h
      cases hact
      obtain ⟨hlt, hget⟩ := List.getElem?_eq_some_iff.mp ht
      have htail : Tail j x := hpermits.1
      rw [Tail, List.drop_eq_getElem_cons hlt, hget] at htail
      refine ⟨hwritten, ?_⟩
      rw [← htail]
      simp
    case sendInLoop data =>
      cases h
      refine ⟨hwritten.trans ?_, hstarted⟩
      simp [sent]
    case packet queued data =>
      cases queued with
      | false => cases hw
      | true =>
          cases h
          exact ⟨hwritten, hstarted⟩
    case swapQueues | resetQueue | outWrite | outRetrieve =>
      cases h
      exact ⟨hwritten, hstarted⟩
    all_goals cases hw
  · have haside := act_aside hw h
    obtain ⟨new, -, happended⟩ := haside.queued
    refine ⟨?_, ?_⟩
    · rw [haside.written, haside.sent]
      exact hwritten
    · rw [haside.started, happended]
      exact hstarted.trans (List.prefix_append _ _)

variable [DecidableEq G] {s t : System G σ κ δ} {inject : Bytes → δ} {fuel : Nat} {l : Label G δ}

theorem Inv.set (h : Inv cfg s) (i : Thread G) {p : Prog κ δ Resume}
    (hp : Always (among (semantics cfg) (Rely i)) (Permits i) (Result cfg i) p s.conn) : Inv cfg (s.set i p) := by
  refine ⟨?_, h.written, h.started⟩
  intro j
  by_cases hj : j = i
  · subst hj
    simpa [System.set] using hp
  · simpa [System.set, hj] using h.threads j

omit [DecidableEq G] in
theorem user_plain (g : G) {α : Type} {p : Prog κ δ α} (hp : p.Uses Plain) (x : Conn σ δ) :
    Always (among (semantics cfg) (Rely (.user g))) (Permits (.user g)) (fun _ _ => True)
      (do let _ ← p; return .returned : Prog κ δ Resume) x :=
  always_among_uses (P := fun _ => True) (hp.bind fun _ => trivial) (fun _ _ ho _ => ho) (fun _ _ _ _ => trivial)
    (fun _ _ _ _ _ _ _ _ => trivial) trivial

omit [DecidableEq G] in
theorem writer_writeLoop (hspare : Spare x) (hstream : Stream x) (hkept : Kept cfg x.started x) :
    Always (among (semantics cfg) (Rely (.writer : Thread G))) (Permits (.writer : Thread G))
      (Result cfg (.writer : Thread G)) (writeLoop cfg) x := by
  have hread : Always (among (semantics cfg) Aside) (fun o _ => ¬ OfReader o) (fun _ _ => True) (writeLoop cfg) x :=
    always_among_uses (P := fun _ => True) (unread_writeLoop cfg) (fun _ _ ho _ => ho) (fun _ _ _ _ => trivial)
      (fun _ _ _ _ _ _ _ _ => trivial) trivial
  have hall := always_and (always_and (queue_writeLoop hspare) (stream_writeLoop hstream))
    (always_and hread (kept_writeLoop hkept))
  apply (hall.weaken fun o x h => ⟨h.1, h.2.1⟩).mono
  rintro a y ⟨⟨hy, hy'⟩, -, hy''⟩ ha
  exact ⟨hy, hy' ha, hy''⟩

theorem inv_step (h : Inv cfg s) (hstep : step cfg inject fuel s l = some t) : Inv cfg t := by
  unfold step at hstep
  split at hstep
  · cases hstep
  split at hstep
  case h_1 i a =>
    split at hstep
    · cases hstep
    next o k hi =>
      obtain ⟨⟨r, y⟩, hact, rfl⟩ := Option.map_eq_some_iff.mp hstep
      have hp := h.threads i
      rw [hi] at hp
      obtain ⟨hwritten, hstarted⟩ := act_inOrder hp.1 hact h.written h.started
      exact ⟨relies_step (relies cfg) h.threads hi hact fun j hj => relied hp.1 hact hj, hwritten, hstarted⟩
  case h_2 i =>
    split at hstep
    next len cap hi =>
      cases hstep
      apply h.set
      have hp := h.threads .reader
      rw [hi] at hp
      exact reader_readLoop inject fuel len cap (hp (by simp))
    next hi =>
      cases hstep
      apply h.set
      have hp := h.threads .writer
      rw [hi] at hp
      obtain ⟨hspare, hstream, hkept⟩ := hp rfl
      exact writer_writeLoop hspare hstream hkept
    · cases hstep
  case h_3 g data finish =>
    split at hstep <;> cases hstep
    exact h.set _ (user_plain g (plain_send data finish) _)
  case h_4 g =>
    split at hstep <;> cases hstep
    exact h.set _ (user_plain g plain_close _)

omit [DecidableEq G] in
theorem inv_init (user : σ) (now : Int) : Inv cfg (init cfg user now : System G σ κ δ) := by
  refine ⟨?_, List.nil_prefix, List.nil_prefix⟩
  intro i
  cases i with
  | reader => exact fun _ => rfl
  | writer => exact fun _ => ⟨⟨rfl, rfl⟩, .inl ⟨rfl, rfl⟩, [], List.Sublist.refl _, .nil, fun _ => rfl, rfl⟩
  | user g => trivial

end System

/-- A connection of server_std.go under every interleaving of its two loops with calls of Send and Close and with every
error. The bytes written are an initial part of what was passed to sendInLoop, and after a failed Write there is no
other. The queued functions are started once and in order. UnPacket is shown what was read and not consumed. Between
two iterations of writeLoop no queued function is lost, unless a Write has failed all bytes but those of the buffer have
been written, and what was passed to sendInLoop are packets of the functions started, of all while the connection is
open. -/
theorem loops_keep_streams (cfg : Config σ κ δ) [DecidableEq G] (inject : Bytes → δ) (fuel : Nat) (user : σ)
    (now : Int) (ls : List (Label G δ)) (s : System G σ κ δ)
    (h : run (step cfg inject fuel) (init cfg user now) ls = some s) :
    s.conn.written <+: sent s.conn ∧ s.conn.started <+: s.conn.appended ∧
    (∀ data k, s.prog .writer = .step (.connWrite data) k →
      s.conn.failed = false ∧ s.conn.written ++ data <+: sent s.conn) ∧
    (∀ k, s.prog .reader = .step .unPacket k → s.conn.received.flatten = s.conn.consumed ++ s.conn.inBuffer.data) ∧
    (s.prog .writer = .done .write →
      s.conn.started ++ s.conn.taskQueueW = s.conn.appended ∧
      (s.conn.failed = false → s.conn.written ++ s.conn.outBuffer.data = sent s.conn) ∧
      ∃ kept, kept.Sublist s.conn.started ∧ List.Forall₂ (Packed cfg) kept s.conn.passed ∧
        (s.conn.connected = true → kept = s.conn.started)) := by
  have hinv := run_invariant (I := fun s => Inv cfg s) (fun _ _ _ hI hstep => inv_step hI hstep) (inv_init user now) h
  refine ⟨hinv.written, hinv.started, ?_, ?_, ?_⟩
  · intro data k hw
    have hp := hinv.threads .writer
    rw [hw] at hp
    exact hp.1.1.2
  · intro k hr
    have hp := hinv.threads .reader
    rw [hr] at hp
    exact hp.1
  · intro hw
    have hp := hinv.threads .writer
    rw [hw] at hp
    obtain ⟨hspare, hstream, kept, hsub, hpacked, hall, -⟩ := hp rfl
    refine ⟨?_, ?_, kept, hsub, hpacked, hall⟩
    · have htail := hspare.tail
      simpa [Tail, hspare.taskQueueR] using htail
    · intro hf
      rcases hstream with howes | ⟨hfailed, -, -⟩
      · exact howes.sent
      · rw [hf] at hfailed
        cases hfailed

def sample : Config Unit Unit Bytes :=
  ⟨0, .keeping Code.defaultProtocol, ⟨id, fun user _ data => (user, some data), id⟩, fun _ n => n⟩

def ops (i : Thread Unit) (count n : Nat) (err : Bool) : List (Label Unit Bytes) :=
  .replicate count (.op i ⟨9, 0, [], n, err⟩)

/-- Of two bytes the first Write takes one and the next one none; then the connection is closed between the Send and
its function. -/
def closing : List (Label Unit Bytes) :=
  [.send () [1, 2] false] ++ ops (.user ()) 2 0 false ++ [.turn .writer] ++ ops .writer 9 1 false ++
    ops .writer 6 0 false ++ [.send () [3] true] ++ ops (.user ()) 2 0 false ++ [.close ()] ++
    ops (.user ()) 3 0 false ++ [.turn .reader] ++ ops .reader 1 0 false

theorem loops_keep_streams_closing : ∃ s, run (step sample id 2) (init sample () 0) closing = some s ∧
    s.prog .writer = .done .write ∧ s.conn.taskQueueW = [([3], true)] ∧ s.conn.written = [1] ∧
    s.conn.written ++ s.conn.outBuffer.data = sent s.conn ∧
    s.conn.started ++ [([3], true)] = s.conn.appended := by
  have hrun : ∃ s, run (step sample id 2) (init sample () 0) closing = some s ∧ s.prog .writer = .done .write ∧
      s.conn.taskQueueW = [([3], true)] ∧ s.conn.written = [1] ∧ s.conn.failed = false := ⟨_, rfl, rfl, rfl, rfl, rfl⟩
  obtain ⟨s, hs, hw, hqueue, hwritten, hf⟩ := hrun
  obtain ⟨-, -, -, -, hturn⟩ := loops_keep_streams sample id 2 () 0 closing s hs
  obtain ⟨htasks, hstream, -⟩ := hturn hw
  exact ⟨s, hs, hw, hqueue, hwritten, hstream hf, hqueue ▸ htasks⟩

end Gev.Connection.WindowsStreams
