import Gev.Connection.WindowsLoops
import Gev.Lib.Threads

namespace Gev.Connection.WindowsWriter

open Lib.Atomic Lib.Threads Lib.Slices Lib.RingBuffers Lib.Runs WindowsLoops
open State (Bytes)

variable {G σ κ δ : Type}

def sent (x : Conn σ δ) : Bytes := x.passed.flatten

section Interference

def OfWriter : Op κ δ → Prop
  | .connWrite _ | .packet true _ | .swapQueues | .task _ | .resetQueue | .sendInLoop _ | .outWrite _
  | .outRetrieve _ => True
  | _ => False

def OfReader : Op κ δ → Prop
  | .connRead _ | .inWrite _ | .unPacket | .onMessage _ _ | .packet false _ => True
  | _ => False

structure Aside (x y : Conn σ δ) : Prop where
  outBuffer : y.outBuffer = x.outBuffer
  taskQueueR : y.taskQueueR = x.taskQueueR
  written : y.written = x.written
  failed : y.failed = x.failed
  started : y.started = x.started
  passed : y.passed = x.passed
  repacked : y.repacked = x.repacked
  connected : y.connected = true → x.connected = true
  queued : ∃ new, y.taskQueueW = x.taskQueueW ++ new ∧ y.appended = x.appended ++ new

structure Beside (x y : Conn σ δ) : Prop where
  inBuffer : y.inBuffer = x.inBuffer
  received : y.received = x.received
  consumed : y.consumed = x.consumed
  returned : y.returned = x.returned
  packed : y.packed = x.packed

theorem Aside.refl (x : Conn σ δ) : Aside x x := ⟨rfl, rfl, rfl, rfl, rfl, rfl, rfl, id, [], by simp, by simp⟩

theorem Aside.trans {x y z : Conn σ δ} (h : Aside x y) (h' : Aside y z) : Aside x z := by
  obtain ⟨new, hw, ha⟩ := h.queued
  obtain ⟨new', hw', ha'⟩ := h'.queued
  refine ⟨h'.outBuffer.trans h.outBuffer, h'.taskQueueR.trans h.taskQueueR, h'.written.trans h.written,
    h'.failed.trans h.failed, h'.started.trans h.started, h'.passed.trans h.passed,
    h'.repacked.trans h.repacked, fun hc => h.connected (h'.connected hc), new ++ new', ?_, ?_⟩
  · rw [hw', hw, List.append_assoc]
  · rw [ha', ha, List.append_assoc]

theorem Beside.refl (x : Conn σ δ) : Beside x x := ⟨rfl, rfl, rfl, rfl, rfl⟩

theorem Beside.trans {x y z : Conn σ δ} (h : Beside x y) (h' : Beside y z) : Beside x z :=
  ⟨h'.inBuffer.trans h.inBuffer, h'.received.trans h.received, h'.consumed.trans h.consumed,
    h'.returned.trans h.returned, h'.packed.trans h.packed⟩

theorem Aside.sent {x y : Conn σ δ} (h : Aside x y) : sent y = sent x := congrArg List.flatten h.passed

variable {cfg : Config σ κ δ} {x y : Conn σ δ}

theorem act_aside {o : Op κ δ} (ho : ¬ OfWriter o) {a : (semantics cfg).Choice o} {r : Res o}
    (h : (semantics cfg).act o a x = some (r, y)) : Aside x y := by
  change act cfg o a x = some (r, y) at h
  have hsame : ∀ z : Conn σ δ, z.outBuffer = x.outBuffer → z.taskQueueR = x.taskQueueR → z.written = x.written →
      z.failed = x.failed → z.started = x.started → z.passed = x.passed → z.repacked = x.repacked →
      (z.connected = true → x.connected = true) → z.taskQueueW = x.taskQueueW → z.appended = x.appended →
      Aside x z :=
    fun z h₁ h₂ h₃ h₄ h₅ h₆ h₇ h₈ h₉ h₁₀ => ⟨h₁, h₂, h₃, h₄, h₅, h₆, h₇, h₈, [], by simp [h₉], by simp [h₁₀]⟩
  cases o
  case connWrite | swapQueues | task | resetQueue | sendInLoop | outWrite | outRetrieve => exact absurd trivial ho
  case diverge => cases h
  case connRead size =>
    simp only [act] at h
    split at h <;> cases h
    split <;> exact hsame _ rfl rfl rfl rfl rfl rfl rfl id rfl rfl
  case closeDying =>
    cases h
    split <;> exact hsame _ rfl rfl rfl rfl rfl rfl rfl id rfl rfl
  case connectedSet =>
    cases h
    exact hsame _ rfl rfl rfl rfl rfl rfl rfl (by simp) rfl rfl
  case appendTask t =>
    cases h
    exact ⟨rfl, rfl, rfl, rfl, rfl, rfl, rfl, id, [t], rfl, rfl⟩
  case packet queued data =>
    cases queued with
    | true => exact absurd trivial ho
    | false =>
        cases h
        exact hsame _ rfl rfl rfl rfl rfl rfl rfl id rfl rfl
  case dying | connectedGet | onClose | stopTimer | connClose | inWrite | unPacket | onMessage |
      sendInLoopFinish | outIsEmpty | outPeekAll | markActive | storeInBufferLen | storeOutBufferLen =>
    cases h
    exact hsame _ rfl rfl rfl rfl rfl rfl rfl id rfl rfl

theorem act_beside {o : Op κ δ} (ho : ¬ OfReader o) {a : (semantics cfg).Choice o} {r : Res o}
    (h : (semantics cfg).act o a x = some (r, y)) : Beside x y := by
  change act cfg o a x = some (r, y) at h
  cases o
  case connRead | inWrite | unPacket | onMessage => exact absurd trivial ho
  case diverge => cases h
  case connWrite data =>
    simp only [act] at h
    split at h <;> cases h
    exact ⟨rfl, rfl, rfl, rfl, rfl⟩
  case task i =>
    obtain ⟨t, -, ht⟩ := Option.map_eq_some_iff.mp h
    cases ht
    exact ⟨rfl, rfl, rfl, rfl, rfl⟩
  case closeDying =>
    cases h
    split <;> exact ⟨rfl, rfl, rfl, rfl, rfl⟩
  case packet queued data =>
    cases queued with
    | false => exact absurd trivial ho
    | true =>
        cases h
        exact ⟨rfl, rfl, rfl, rfl, rfl⟩
  case dying | connectedGet | connectedSet | onClose | stopTimer | connClose | appendTask | swapQueues | resetQueue |
      sendInLoop | sendInLoopFinish | outIsEmpty | outWrite | outPeekAll | outRetrieve | markActive |
      storeInBufferLen | storeOutBufferLen =>
    cases h
    exact ⟨rfl, rfl, rfl, rfl, rfl⟩

/-- Operations of no goroutine in particular keep what the writing one has established. -/
theorem always_plain {α : Type} {p : Prog κ δ α} {J : Op κ δ → Conn σ δ → Prop} {P : Conn σ δ → Prop}
    (hp : p.Uses fun o => ¬ OfWriter o) (hJ : ∀ o x, ¬ OfWriter o → J o x) (hP : ∀ x y, P x → Aside x y → P y)
    (hx : P x) : Always (among (semantics cfg) Aside) J (fun _ => P) p x :=
  always_among_uses hp (fun o x ho _ => hJ o x ho) hP (fun _ ho _ _ _ _ hs hact => hP _ _ hs (act_aside ho hact)) hx

end Interference

section Close

def Plain (o : Op κ δ) : Prop := ¬ OfWriter o ∧ ¬ OfReader o

theorem plain_close : (close : Prog κ δ Unit).Uses Plain := by
  refine ⟨⟨id, id⟩, ?_⟩
  intro connected
  cases connected with
  | false => trivial
  | true =>
      refine ⟨⟨id, id⟩, fun _ => ⟨⟨id, id⟩, fun _ => ⟨⟨id, id⟩, fun _ => ?_⟩⟩⟩
      exact ⟨⟨id, id⟩, fun _ => ⟨⟨id, id⟩, fun _ => trivial⟩⟩

theorem plain_send (data : δ) (finish : Bool) : (send data finish : Prog κ δ Bool).Uses Plain := by
  refine ⟨⟨id, id⟩, ?_⟩
  intro connected
  cases connected with
  | false => trivial
  | true => exact ⟨⟨id, id⟩, fun _ => trivial⟩

variable {cfg : Config σ κ δ} {x : Conn σ δ} {J : Op κ δ → Conn σ δ → Prop} {P : Conn σ δ → Prop}

/-- When Close returns, the connection is closed, whoever did it. -/
theorem close_closes (hJ : ∀ o x, ¬ OfWriter o → J o x) (hP : ∀ x y, P x → Aside x y → P y) (hx : P x) :
    Always (among (semantics cfg) Aside) J (fun _ y => P y ∧ y.connected = false) close x := by
  have hstable : ∀ y z : Conn σ δ, P y ∧ y.connected = false → Aside y z → P z ∧ z.connected = false := by
    rintro y z ⟨hy, hc⟩ hyz
    exact ⟨hP y z hy hyz, Bool.eq_false_iff.mpr fun hz => by simp [hyz.connected hz] at hc⟩
  apply always_among_step (hJ _ _ id)
  rintro x₁ hx₁ ch connected y hact
  cases hact
  have hP₁ := hP x x₁ hx hx₁
  cases hc : x₁.connected with
  | false => exact ⟨hP₁, hc⟩
  | true =>
      apply always_among_step (hJ _ _ id)
      intro x₂ hx₂ ch r y hact
      have hP₂ := hP _ _ (hP x₁ x₂ hP₁ hx₂) (act_aside id hact)
      apply always_among_step (hJ _ _ id)
      intro x₃ hx₃ ch r z hact
      have hP₃ := hP _ _ (hP _ x₃ hP₂ hx₃) (act_aside id hact)
      cases hact
      refine always_plain ?_ hJ hstable ⟨hP₃, rfl⟩
      exact ⟨id, fun _ => ⟨id, fun _ => ⟨id, fun _ => trivial⟩⟩⟩

end Close

section Queue

/-- The functions queued are those started, those of the running batch from the given index on, and those that wait. -/
def Tail (i : Nat) (x : Conn σ δ) : Prop := x.started ++ x.taskQueueR.drop i ++ x.taskQueueW = x.appended

def QueueJ : Op κ δ → Conn σ δ → Prop
  | .task i, x => Tail i x
  | _, _ => True

structure Spare (x : Conn σ δ) : Prop where
  taskQueueR : x.taskQueueR = []
  tail : Tail 0 x

def OffQueue : Op κ δ → Prop
  | .swapQueues | .task _ | .resetQueue | .connRead _ | .inWrite _ | .unPacket | .onMessage _ _ | .packet false _ =>
      False
  | _ => True

/-- The operations of sendInLoop behind its call, and of writing what is in the buffer. -/
def Emits : Op κ δ → Prop
  | .sendInLoop _ | .packet _ _ => False
  | o => OffQueue o

theorem Tail.aside {i : Nat} {x y : Conn σ δ} (h : Tail i x) (hxy : Aside x y) : Tail i y := by
  obtain ⟨new, hw, ha⟩ := hxy.queued
  rw [Tail, hxy.started, hxy.taskQueueR, hw, ha, ← List.append_assoc]
  exact congrArg (· ++ new) h

variable {cfg : Config σ κ δ} {x y : Conn σ δ}

theorem act_offQueue {o : Op κ δ} (ho : OffQueue o) {a : (semantics cfg).Choice o} {r : Res o}
    (h : (semantics cfg).act o a x = some (r, y)) {i : Nat} (hx : Tail i x) :
    Tail i y ∧ y.taskQueueR = x.taskQueueR := by
  by_cases hw : OfWriter o
  · change act cfg o a x = some (r, y) at h
    cases o
    case swapQueues | task | resetQueue | connRead | inWrite | unPacket | onMessage => cases ho
    case connWrite data =>
      simp only [act] at h
      split at h <;> cases h
      exact ⟨hx, rfl⟩
    case packet queued data =>
      cases queued with
      | false => cases ho
      | true =>
          cases h
          exact ⟨hx, rfl⟩
    case sendInLoop | outWrite | outRetrieve =>
      cases h
      exact ⟨hx, rfl⟩
    all_goals cases hw
  · exact ⟨hx.aside (act_aside hw h), (act_aside hw h).taskQueueR⟩

theorem always_offQueue {α : Type} {p : Prog κ δ α} (hp : p.Uses OffQueue) {i : Nat} {batch : List (Queued δ)}
    (hx : Tail i x ∧ x.taskQueueR = batch) :
    Always (among (semantics cfg) Aside) QueueJ (fun _ y => Tail i y ∧ y.taskQueueR = batch) p x := by
  refine always_among_uses hp ?_ ?_ ?_ hx
  · intro o y ho _
    cases o <;> trivial
  · rintro y z ⟨hy, hb⟩ hyz
    exact ⟨hy.aside hyz, hyz.taskQueueR.trans hb⟩
  · rintro o ho ch y r z ⟨hy, hb⟩ hact
    obtain ⟨hz, he⟩ := act_offQueue ho hact hy
    exact ⟨hz, he.trans hb⟩

theorem emits_of_plain {o : Op κ δ} (ho : Plain o) : Emits o := by
  cases o
  case packet queued data => cases queued <;> first | exact absurd trivial ho.1 | exact absurd trivial ho.2
  all_goals first | trivial | exact absurd trivial ho.1 | exact absurd trivial ho.2

theorem Emits.offQueue {o : Op κ δ} (ho : Emits o) : OffQueue o := by
  cases o <;> trivial

theorem emits_closing {α : Type} (a : α) : (do close; return a : Prog κ δ α).Uses Emits :=
  (plain_close.mono fun _ => emits_of_plain).bind fun _ => trivial

theorem emits_sendInLoop (data : Bytes) :
    ∃ k, (sendInLoop data : Prog κ δ Bool) = .step (.sendInLoop data) k ∧ ∀ r, (k r).Uses Emits := by
  refine ⟨_, rfl, fun _ => ⟨trivial, ?_⟩⟩
  intro empty
  cases empty with
  | false => exact ⟨trivial, fun _ => trivial⟩
  | true =>
      refine ⟨trivial, ?_⟩
      rintro ⟨n, err⟩
      cases err with
      | true => exact emits_closing true
      | false =>
          simp only [Program.bind, Bool.false_eq_true, if_false]
          split
          · exact ⟨trivial, fun _ => trivial⟩
          · split
            · exact ⟨trivial, fun _ => trivial⟩
            · trivial

theorem offQueue_runTask (t : Queued δ) : (runTask t : Prog κ δ Unit).Uses OffQueue := by
  refine ⟨trivial, ?_⟩
  intro connected
  cases connected with
  | false => trivial
  | true =>
      refine ⟨trivial, fun packed => ?_⟩
      obtain ⟨k, hk, hemits⟩ := emits_sendInLoop (κ := κ) (δ := δ) packed
      refine Program.Uses.bind (p := sendInLoop packed) ?_ ?_
      · rw [hk]
        exact ⟨trivial, fun r => (hemits r).mono fun _ => Emits.offQueue⟩
      · intro _
        obtain ⟨data, finish⟩ := t
        cases finish with
        | true => exact ⟨trivial, fun _ => trivial⟩
        | false => trivial

theorem queue_runTasks (i rest : Nat) {batch : List (Queued δ)} (hx : Tail i x ∧ x.taskQueueR = batch) :
    Always (among (semantics cfg) Aside) QueueJ (fun _ y => Tail (i + rest) y ∧ y.taskQueueR = batch)
      (runTasks i rest) x := by
  induction rest generalizing i x with
  | zero => exact hx
  | succ rest ih =>
      apply always_among_step (J := QueueJ) (o := .task i) hx.1
      intro x₁ hx₁ ch t y hact
      have hx₁' : Tail i x₁ := hx.1.aside hx₁
      obtain ⟨u, hu, hact⟩ := Option.map_eq_some_iff.mp hact
      cases hact
      obtain ⟨hlt, hget⟩ := List.getElem?_eq_some_iff.mp hu
      have hnext : Tail (i + 1) { x₁ with started := x₁.started ++ [t] } := by
        rw [Tail, List.drop_eq_getElem_cons hlt, hget] at hx₁'
        simpa [Tail] using hx₁'
      apply Always.bind (p := runTask t)
      apply (always_offQueue (offQueue_runTask t) ⟨hnext, hx₁.taskQueueR.trans hx.2⟩).mono
      intro _ z hz
      rw [show i + (rest + 1) = i + 1 + rest by omega]
      exact ih (i + 1) hz

theorem Spare.aside (h : Spare x) (hxy : Aside x y) : Spare y :=
  ⟨hxy.taskQueueR.trans h.taskQueueR, h.tail.aside hxy⟩

theorem queue_doPendingFunc (hx : Spare x) :
    Always (among (semantics cfg) Aside) QueueJ (fun _ => Spare) doPendingFunc x := by
  apply always_among_step trivial
  intro x₁ hx₁ ch length y hact
  cases hact
  have hspare := hx.aside hx₁
  have hswapped : Tail 0 { x₁ with taskQueueW := x₁.taskQueueR, taskQueueR := x₁.taskQueueW } := by
    have htail := hspare.tail
    simpa [Tail, hspare.taskQueueR] using htail
  apply Always.bind (p := runTasks 0 x₁.taskQueueW.length)
  apply (queue_runTasks 0 x₁.taskQueueW.length ⟨hswapped, rfl⟩).mono
  rintro _ y ⟨hy, hbatch⟩
  apply always_among_step trivial
  intro y₁ hy₁ ch r z hact
  cases hact
  have hdone := hy.aside hy₁
  rw [Nat.zero_add, Tail, hy₁.taskQueueR, hbatch, List.drop_length, List.append_nil] at hdone
  exact ⟨rfl, by simpa [Tail] using hdone⟩

variable (cfg) in
theorem emits_writeEnd : (writeEnd cfg : Prog κ δ Resume).Uses Emits := by
  unfold writeEnd
  split
  · exact ⟨trivial, fun _ => ⟨trivial, fun _ => trivial⟩⟩
  · exact ⟨trivial, fun _ => trivial⟩

variable (cfg) in
theorem emits_flush : (flush cfg : Prog κ δ Resume).Uses Emits := by
  refine ⟨trivial, ?_⟩
  intro empty
  cases empty with
  | true => trivial
  | false =>
      refine ⟨trivial, ?_⟩
      rintro ⟨first, last⟩
      refine ⟨trivial, ?_⟩
      rintro ⟨n, err⟩
      cases err with
      | true => exact emits_closing Resume.returned
      | false =>
          refine ⟨trivial, fun _ => ?_⟩
          simp only [Program.bind]
          split
          · refine ⟨trivial, ?_⟩
            rintro ⟨m, err⟩
            cases err with
            | true => exact emits_closing Resume.returned
            | false => exact ⟨trivial, fun _ => emits_writeEnd cfg⟩
          · exact emits_writeEnd cfg

theorem queue_writeLoop (hx : Spare x) :
    Always (among (semantics cfg) Aside) QueueJ (fun _ => Spare) (writeLoop cfg) x := by
  apply always_among_step trivial
  intro x₁ hx₁ ch dying y hact
  cases hact
  have hspare := hx.aside hx₁
  cases hd : x₁.dying with
  | true => exact hspare
  | false =>
      apply Always.bind (p := doPendingFunc)
      apply (queue_doPendingFunc hspare).mono
      intro _ y hy
      apply (always_offQueue ((emits_flush cfg).mono fun _ => Emits.offQueue) ⟨hy.tail, hy.taskQueueR⟩).mono
      exact fun _ z hz => ⟨hz.2, hz.1⟩

end Queue

section Stream

structure Owes (data : Bytes) (x : Conn σ δ) : Prop where
  failed : x.failed = false
  sent : x.written ++ data = sent x

/-- Between two functions of the queue: what is not written is in the buffer, or the connection has been closed with an
empty buffer because of a failed Write. -/
def Stream (x : Conn σ δ) : Prop :=
  Owes x.outBuffer.data x ∨ x.failed = true ∧ x.connected = false ∧ x.outBuffer.data = []

def StreamJ : Op κ δ → Conn σ δ → Prop
  | .connWrite data, x => x.failed = false ∧ x.written ++ data <+: sent x
  | _, _ => True

theorem streamJ_of_plain {o : Op κ δ} (ho : ¬ OfWriter o) (x : Conn σ δ) : StreamJ o x := by
  cases o <;> first | trivial | exact absurd trivial ho

variable {cfg : Config σ κ δ} {x y : Conn σ δ} {data : Bytes}

theorem Owes.same (h : Owes data x) (hw : y.written = x.written) (hf : y.failed = x.failed)
    (hp : y.passed = x.passed) : Owes data y := by
  refine ⟨hf.trans h.failed, ?_⟩
  rw [hw]
  exact h.sent.trans (congrArg List.flatten hp.symm)

theorem Owes.aside (h : Owes data x) (hxy : Aside x y) : Owes data y := h.same hxy.written hxy.failed hxy.passed

theorem Stream.same (h : Stream x) (ho : y.outBuffer = x.outBuffer) (hw : y.written = x.written)
    (hf : y.failed = x.failed) (hp : y.passed = x.passed) (hc : y.connected = true → x.connected = true) :
    Stream y := by
  rcases h with h | ⟨hfailed, hclosed, hout⟩
  · left
    rw [ho]
    exact h.same hw hf hp
  · right
    refine ⟨hf.trans hfailed, Bool.eq_false_iff.mpr fun hy => ?_, ho ▸ hout⟩
    rw [hc hy] at hclosed
    cases hclosed

theorem Stream.aside (h : Stream x) (hxy : Aside x y) : Stream y :=
  h.same hxy.outBuffer hxy.written hxy.failed hxy.passed hxy.connected

theorem stream_connWrite {α : Type} {k : Nat × Bool → Prog κ δ α} {Q : α → Conn σ δ → Prop} {rest : Bytes}
    (hx : Owes (data ++ rest) x)
    (herr : ∀ n y, y.outBuffer = x.outBuffer → y.failed = true →
      Always (among (semantics cfg) Aside) StreamJ Q (k (n, true)) y)
    (hok : ∀ n y, n ≤ data.length → y.outBuffer = x.outBuffer → Owes (data.drop n ++ rest) y →
      Always (among (semantics cfg) Aside) StreamJ Q (k (n, false)) y) :
    Always (among (semantics cfg) Aside) StreamJ Q (.step (.connWrite data) k) x := by
  apply always_among_step
  · refine ⟨hx.failed, rest, ?_⟩
    rw [List.append_assoc]
    exact hx.sent
  · rintro x₁ hx₁ ch ⟨n, err⟩ y hact
    change act cfg (.connWrite data) ch x₁ = _ at hact
    simp only [act] at hact
    split at hact <;> cases hact
    next hn =>
      have howes := hx.aside hx₁
      cases herr' : ch.err with
      | true => exact herr ch.n _ hx₁.outBuffer (by simp)
      | false =>
          refine hok ch.n _ hn.1 hx₁.outBuffer ⟨by simpa using howes.failed, ?_⟩
          rw [List.append_assoc, ← List.append_assoc _ _ rest, List.take_append_drop]
          exact howes.sent

theorem stream_sendInLoop (hx : Owes x.outBuffer.data x) (data : Bytes) :
    Always (among (semantics cfg) Aside) StreamJ (fun _ => Stream) (sendInLoop data) x := by
  apply always_among_step trivial
  intro x₁ hx₁ ch r y hact
  cases hact
  have howes : Owes (x₁.outBuffer.data ++ data) { x₁ with passed := x₁.passed ++ [data] } := by
    have h := hx.aside hx₁
    rw [← hx₁.outBuffer] at h
    refine ⟨h.failed, ?_⟩
    rw [← List.append_assoc]
    exact (congrArg (· ++ data) h.sent).trans (by simp [sent])
  apply always_among_step trivial
  intro x₂ hx₂ ch empty y hact
  cases hact
  have howes₂ := howes.aside hx₂
  rw [← hx₂.outBuffer] at howes₂
  cases hempty : x₂.outBuffer.isEmpty with
  | false =>
      apply always_among_step trivial
      intro x₃ hx₃ ch r y hact
      cases hact
      left
      have howes₃ := howes₂.aside hx₃
      rw [← hx₃.outBuffer] at howes₃
      exact ⟨howes₃.failed, howes₃.sent⟩
  | true =>
      have hout : x₂.outBuffer.data = [] := (RingBuffer.isEmpty_iff _).mp hempty
      rw [hout, List.nil_append, ← List.append_nil data] at howes₂
      apply stream_connWrite howes₂
      · intro n y hy hfailed
        apply Always.bind (p := close)
        apply (close_closes (P := fun z => z.failed = true ∧ z.outBuffer.data = [])
          (fun _ z ho => streamJ_of_plain ho z) ?_ ⟨hfailed, hy ▸ hout⟩).mono
        · rintro _ z ⟨⟨hf, ho⟩, hc⟩
          exact .inr ⟨hf, hc, ho⟩
        · rintro z w ⟨hf, ho⟩ hzw
          exact ⟨hzw.failed.trans hf, hzw.outBuffer ▸ ho⟩
      · intro n y hn hy howes
        rw [← hy] at hout
        have hwrite : ∀ rest, Owes rest y → Always (among (semantics cfg) Aside) StreamJ (fun _ => Stream)
            (do call (.outWrite rest); return false : Prog κ δ Bool) y := by
          intro rest hrest
          apply always_among_step trivial
          intro y₁ hy₁ ch r z hact
          cases hact
          left
          have h := hrest.aside hy₁
          refine ⟨h.failed, ?_⟩
          rw [RingBuffer.data_write, hy₁.outBuffer, hout, List.nil_append]
          exact h.sent
        rw [List.append_nil] at howes
        simp only [Program.bind, Bool.false_eq_true, if_false]
        split
        next hzero =>
          subst hzero
          exact hwrite data howes
        next hpos =>
          split
          next => exact hwrite _ howes
          next hall =>
            left
            rw [hout]
            rwa [List.drop_eq_nil_of_le (Nat.le_of_not_lt hall)] at howes

theorem stream_runTask (hx : Stream x) (t : Queued δ) :
    Always (among (semantics cfg) Aside) StreamJ (fun _ => Stream) (runTask t) x := by
  apply always_among_step trivial
  intro x₁ hx₁ ch connected y hact
  cases hact
  have hstream := hx.aside hx₁
  cases hc : x₁.connected with
  | false => exact hstream
  | true =>
      have howes : Owes x₁.outBuffer.data x₁ := by
        refine hstream.resolve_right ?_
        rintro ⟨-, hclosed, -⟩
        rw [hc] at hclosed
        cases hclosed
      apply always_among_step trivial
      intro x₂ hx₂ ch packed y hact
      cases hact
      have howes₂ := howes.aside hx₂
      rw [← hx₂.outBuffer] at howes₂
      apply Always.bind (p := sendInLoop _)
      refine (stream_sendInLoop ?_ _).mono ?_
      · exact howes₂.same rfl rfl rfl
      intro _ z hz
      obtain ⟨data, finish⟩ := t
      cases finish with
      | false => exact hz
      | true =>
          exact always_plain (p := call (.sendInLoopFinish data)) ⟨id, fun _ => trivial⟩
            (fun _ z ho => streamJ_of_plain ho z) (fun _ _ => Stream.aside) hz

theorem stream_runTasks (i rest : Nat) (hx : Stream x) :
    Always (among (semantics cfg) Aside) StreamJ (fun _ => Stream) (runTasks i rest) x := by
  induction rest generalizing i x with
  | zero => exact hx
  | succ rest ih =>
      apply always_among_step trivial
      intro x₁ hx₁ ch t y hact
      have hstream := hx.aside hx₁
      obtain ⟨u, -, hact⟩ := Option.map_eq_some_iff.mp hact
      cases hact
      apply Always.bind (p := runTask t)
      refine (stream_runTask ?_ t).mono fun _ z hz => ih (i + 1) hz
      exact hstream.same rfl rfl rfl rfl id

theorem stream_doPendingFunc (hx : Stream x) :
    Always (among (semantics cfg) Aside) StreamJ (fun _ => Stream) doPendingFunc x := by
  apply always_among_step trivial
  intro x₁ hx₁ ch length y hact
  cases hact
  have hstream := hx.aside hx₁
  apply Always.bind (p := runTasks 0 x₁.taskQueueW.length)
  refine (stream_runTasks 0 _ ?_).mono ?_
  · exact hstream.same rfl rfl rfl rfl id
  intro _ y hy
  apply always_among_step trivial
  intro y₁ hy₁ ch r z hact
  cases hact
  exact (hy.aside hy₁).same rfl rfl rfl rfl id

def AtTurn (P : Conn σ δ → Prop) (a : Resume) (x : Conn σ δ) : Prop := a = .write → P x

theorem stream_writeEnd (hx : Stream x) :
    Always (among (semantics cfg) Aside) StreamJ (AtTurn Stream) (writeEnd cfg) x := by
  have hplain : (writeEnd cfg : Prog κ δ Resume).Uses fun o => ¬ OfWriter o := by
    unfold writeEnd
    split
    · exact ⟨id, fun _ => ⟨id, fun _ => trivial⟩⟩
    · exact ⟨id, fun _ => trivial⟩
  apply (always_plain hplain (fun _ z ho => streamJ_of_plain ho z) (fun _ _ => Stream.aside) hx).mono
  exact fun _ _ hz _ => hz

theorem stream_closing (x : Conn σ δ) :
    Always (among (semantics cfg) Aside) StreamJ (AtTurn Stream) (do close; return .returned : Prog κ δ Resume) x := by
  apply Always.bind (p := close)
  apply (always_plain (P := fun _ => True) (plain_close.mono fun _ ho => ho.1) (fun _ z ho => streamJ_of_plain ho z)
    (fun _ _ _ _ => trivial) trivial).mono
  exact fun _ _ _ h => by cases h

theorem stream_outRetrieve {k : Unit → Prog κ δ Resume} {first rest : Bytes} {n : Nat} (hn : n ≤ first.length)
    (hout : x.outBuffer.data = first ++ rest) (hx : Owes (first.drop n ++ rest) x)
    (h : ∀ y, y.outBuffer.data = first.drop n ++ rest → Owes y.outBuffer.data y →
      Always (among (semantics cfg) Aside) StreamJ (AtTurn Stream) (k ()) y) :
    Always (among (semantics cfg) Aside) StreamJ (AtTurn Stream) (.step (.outRetrieve n) k) x := by
  apply always_among_step trivial
  intro x₁ hx₁ ch r y hact
  cases hact
  have hdata : (x₁.outBuffer.retrieve n).data = first.drop n ++ rest := by
    rw [RingBuffer.data_retrieve, hx₁.outBuffer, hout, List.drop_append_of_le_length hn]
  apply h _ hdata
  rw [hdata]
  exact (hx.aside hx₁).same rfl rfl rfl

theorem stream_flush (hx : Stream x) :
    Always (among (semantics cfg) Aside) StreamJ (AtTurn Stream) (flush cfg) x := by
  apply always_among_step trivial
  intro x₁ hx₁ ch empty y hact
  cases hact
  have hstream := hx.aside hx₁
  cases hempty : x₁.outBuffer.isEmpty with
  | true => exact fun _ => hstream
  | false =>
      have howes : Owes x₁.outBuffer.data x₁ := by
        refine hstream.resolve_right ?_
        rintro ⟨-, -, hnil⟩
        rw [(RingBuffer.isEmpty_iff _).mpr hnil] at hempty
        cases hempty
      apply always_among_step trivial
      rintro x₂ hx₂ ch ⟨first, last⟩ y hact
      obtain ⟨hpeek, rfl⟩ := Prod.mk.inj (Option.some.inj hact)
      have hout : x₂.outBuffer.data = first ++ last := by
        rw [← RingBuffer.peekAll_append x₂.outBuffer ch.wrap, hpeek]
      have howes₂ := howes.aside hx₂
      rw [← hx₂.outBuffer, hout] at howes₂
      apply stream_connWrite howes₂
      · exact fun _ y _ _ => stream_closing y
      · intro n y hn hy howes
        apply stream_outRetrieve hn (by rw [hy, hout]) howes
        intro z hz howes
        simp only [Program.bind]
        split
        next hlast =>
          have hfirst : first.drop n = [] := List.drop_eq_nil_of_le (Nat.le_of_eq hlast.1.symm)
          rw [hfirst, List.nil_append] at hz
          rw [hz, ← List.append_nil last] at howes
          apply stream_connWrite howes
          · exact fun _ w _ _ => stream_closing w
          · intro m w hm hw howes
            apply stream_outRetrieve hm (by rw [hw, hz, List.append_nil]) howes
            exact fun v _ hv => stream_writeEnd (.inl hv)
        next => exact stream_writeEnd (.inl howes)

theorem stream_writeLoop (hx : Stream x) :
    Always (among (semantics cfg) Aside) StreamJ (AtTurn Stream) (writeLoop cfg) x := by
  apply always_among_step trivial
  intro x₁ hx₁ ch dying y hact
  cases hact
  have hstream := hx.aside hx₁
  cases hd : x₁.dying with
  | true => exact fun _ => hstream
  | false =>
      apply Always.bind (p := doPendingFunc)
      apply (stream_doPendingFunc hstream).mono
      exact fun _ y hy => stream_flush hy

end Stream

section Kept

def Packed (cfg : Config σ κ δ) (t : Queued δ) (packet : Bytes) : Prop :=
  ∃ user, packet = (cfg.protocol.packet user t.1).2

/-- The slices passed to sendInLoop are packets of some of the given functions, and of all while the connection is
open. Packet has been called once for each of them. -/
def Kept (cfg : Config σ κ δ) (started : List (Queued δ)) (x : Conn σ δ) : Prop :=
  ∃ kept, kept.Sublist started ∧ List.Forall₂ (Packed cfg) kept x.passed ∧ (x.connected = true → kept = started) ∧
    x.repacked = kept.map Prod.fst

variable {cfg : Config σ κ δ} {x y : Conn σ δ} {started : List (Queued δ)}

theorem Kept.same (h : Kept cfg started x) (hp : y.passed = x.passed) (hr : y.repacked = x.repacked)
    (hc : y.connected = true → x.connected = true) : Kept cfg started y := by
  obtain ⟨kept, hsub, hpacked, hall, hrepacked⟩ := h
  exact ⟨kept, hsub, hp ▸ hpacked, fun hy => hall (hc hy), hr.trans hrepacked⟩

theorem Kept.aside (h : Kept cfg started x) (hxy : Aside x y) : Kept cfg started y :=
  h.same hxy.passed hxy.repacked hxy.connected

theorem kept_aside (h : Kept cfg x.started x) (hxy : Aside x y) : Kept cfg y.started y := by
  rw [hxy.started]
  exact h.aside hxy

theorem always_emits {α : Type} {p : Prog κ δ α} (hp : p.Uses Emits) (hx : Kept cfg x.started x) :
    Always (among (semantics cfg) Aside) (fun _ _ => True) (fun _ y => Kept cfg y.started y) p x := by
  refine always_among_uses hp (fun _ _ _ _ => trivial) (fun _ _ => kept_aside) ?_ hx
  intro o ho ch y r z hy hact
  by_cases hw : OfWriter o
  · change act cfg o ch y = some (r, z) at hact
    cases o
    case swapQueues | task | resetQueue | sendInLoop | packet => cases ho
    case connWrite data =>
      simp only [act] at hact
      split at hact <;> cases hact
      exact hy
    case outWrite | outRetrieve =>
      cases hact
      exact hy
    all_goals cases hw
  · exact kept_aside hy (act_aside hw hact)

theorem kept_runTask (t : Queued δ) (hx : Kept cfg started x) (hs : x.started = started ++ [t]) :
    Always (among (semantics cfg) Aside) (fun _ _ => True) (fun _ y => Kept cfg y.started y) (runTask t) x := by
  apply always_among_step trivial
  intro x₁ hx₁ ch connected y hact
  cases hact
  have hkept := hx.aside hx₁
  have hs₁ := hx₁.started.trans hs
  cases hc : x₁.connected with
  | false =>
      obtain ⟨kept, hsub, hpacked, -, hrepacked⟩ := hkept
      refine ⟨kept, ?_, hpacked, ?_, hrepacked⟩
      · rw [hs₁]
        exact hsub.trans (List.sublist_append_left _ _)
      · intro hopen
        rw [hc] at hopen
        cases hopen
  | true =>
      apply always_among_step trivial
      intro x₂ hx₂ ch packed y hact
      cases hact
      obtain ⟨kept, hsub, hpacked, hall, hrepacked⟩ := hkept.aside hx₂
      have hs₂ := hx₂.started.trans hs₁
      obtain ⟨k, hk, hemits⟩ := emits_sendInLoop (κ := κ) (δ := δ) (cfg.protocol.packet x₂.user t.1).2
      apply Always.bind (p := sendInLoop _)
      rw [hk]
      apply always_among_step trivial
      intro x₃ hx₃ ch r y hact
      cases hact
      have hs₃ := hx₃.started.trans hs₂
      refine (always_emits (hemits ()) ⟨kept ++ [t], ?_, ?_, ?_, ?_⟩).mono ?_
      · rw [hs₃]
        exact hsub.append_right _
      · rw [hx₃.passed]
        exact List.rel_append hpacked (.cons ⟨_, rfl⟩ .nil)
      · intro hopen
        rw [hs₃, hall (hx₃.connected hopen)]
      · rw [hx₃.repacked, List.map_append]
        exact congrArg (· ++ [t.1]) hrepacked
      · intro _ z hz
        obtain ⟨data, finish⟩ := t
        cases finish with
        | false => exact hz
        | true => exact always_emits (p := call (.sendInLoopFinish data)) ⟨trivial, fun _ => trivial⟩ hz

theorem kept_runTasks (i rest : Nat) (hx : Kept cfg x.started x) :
    Always (among (semantics cfg) Aside) (fun _ _ => True) (fun _ y => Kept cfg y.started y) (runTasks i rest) x := by
  induction rest generalizing i x with
  | zero => exact hx
  | succ rest ih =>
      apply always_among_step trivial
      intro x₁ hx₁ ch t y hact
      have hkept := hx.aside hx₁
      obtain ⟨u, -, hact⟩ := Option.map_eq_some_iff.mp hact
      cases hact
      apply Always.bind (p := runTask t)
      refine (kept_runTask t ?_ rfl).mono fun _ z hz => ih (i + 1) hz
      rw [hx₁.started]
      exact hkept.same rfl rfl id

theorem kept_writeLoop (hx : Kept cfg x.started x) :
    Always (among (semantics cfg) Aside) (fun _ _ => True) (fun _ y => Kept cfg y.started y) (writeLoop cfg) x := by
  apply always_among_step trivial
  intro x₁ hx₁ ch dying y hact
  cases hact
  have hkept := kept_aside hx hx₁
  cases hd : x₁.dying with
  | true => exact hkept
  | false =>
      apply always_among_step trivial
      intro x₂ hx₂ ch length y hact
      cases hact
      have hkept₂ := kept_aside hkept hx₂
      apply Always.bind (p := do runTasks 0 x₂.taskQueueW.length; call .resetQueue)
      apply Always.bind (p := runTasks 0 x₂.taskQueueW.length)
      refine (kept_runTasks 0 _ ?_).mono ?_
      · exact hkept₂
      intro _ z hz
      apply always_among_step trivial
      intro z₁ hz₁ ch r w hact
      cases hact
      have hkept₃ := kept_aside hz hz₁
      exact always_emits (emits_flush cfg) (hkept₃.same rfl rfl id)

end Kept

end Gev.Connection.WindowsWriter
