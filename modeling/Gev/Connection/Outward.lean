import Gev.Connection.Writing

namespace Gev.Connection.Outward

open Lib.Atomic Lib.Slices Lib.RingBuffers State Code Writing

variable {C σ κ δ : Type} [DecidableEq C] (cfg : Config C σ κ δ) (c : C)

/-- The operations by which connections are registered, write, change their interest and close. -/
def Outgoing : Op C κ δ → Prop
  | .connectedGet _ | .connectedSet _ _ | .markActive _ | .stopTimer _ | .isEmpty _ _ | .putInPool _ _ | .packet _ _
  | .unixWrite _ _ _ | .unixClose _ _ | .epollCtl _ _ _ _ | .onClose _ | .sendInLoopFinish _ | .delete _
  | .addCount _ | .insert _ _ | .onConnect _ => True
  | .peekAll _ b | .write _ b _ | .retrieve _ b _ | .reset _ b => b = .outBuffer
  | _ => False

/-- The operations among them by which one connection writes, changes its interest and closes. -/
def Emits : Op C κ δ → Prop
  | .connectedGet d | .stopTimer d | .putInPool d _ | .unixWrite d _ _ | .unixClose d _ | .epollCtl d _ _ _
  | .onClose d => d = c
  | .connectedSet d b => d = c ∧ b = false
  | .isEmpty d b | .peekAll d b | .write d b _ | .retrieve d b _ | .reset d b => d = c ∧ b = .outBuffer
  | .delete _ | .addCount _ => True
  | _ => False

/-- What they leave alone of a connection: its input, the lengths it reports, what it was given to send, and of its own
state whatever OnConnect and OnClose do not change. -/
structure Aside (x y : Conn σ κ) : Prop where
  inBuffer : y.inBuffer = x.inBuffer
  inBufferLen : y.inBufferLen = x.inBufferLen
  outBufferLen : y.outBufferLen = x.outBufferLen
  sent : sent y = sent x
  user : ∀ {β : Type} (f : σ → β), (∀ u, f (cfg.callBack.onConnect u) = f u) →
    (∀ u, f (cfg.callBack.onClose u) = f u) → f y.user = f x.user

structure Outwardly (L L' : Local C σ κ δ) : Prop where
  conn : Aside cfg (L.conns c) (L'.conns c)
  packet : L'.packet = L.packet
  heap : L'.heap = L.heap

variable {cfg c}

omit [DecidableEq C] in
theorem Aside.refl (x : Conn σ κ) : Aside cfg x x := ⟨rfl, rfl, rfl, rfl, fun _ _ _ => rfl⟩

omit [DecidableEq C] in
theorem Aside.trans {x y z : Conn σ κ} (h : Aside cfg x y) (h' : Aside cfg y z) : Aside cfg x z :=
  ⟨h'.inBuffer.trans h.inBuffer, h'.inBufferLen.trans h.inBufferLen, h'.outBufferLen.trans h.outBufferLen,
    h'.sent.trans h.sent, fun f hf hf' => (h'.user f hf hf').trans (h.user f hf hf')⟩

omit [DecidableEq C] in
theorem Outwardly.refl (L : Local C σ κ δ) : Outwardly cfg c L L := ⟨.refl _, rfl, rfl⟩

omit [DecidableEq C] in
theorem Outwardly.trans {L L' L'' : Local C σ κ δ} (h : Outwardly cfg c L L') (h' : Outwardly cfg c L' L'') :
    Outwardly cfg c L L'' :=
  ⟨h.conn.trans h'.conn, h'.packet.trans h.packet, h'.heap.trans h.heap⟩

omit [DecidableEq C] in
/-- An entry in the history that is no send. -/
theorem aside_note (x : Conn σ κ) {a : Act κ} (ha : sendData a = none) : Aside cfg x (x.note a) := by
  refine ⟨rfl, rfl, rfl, ?_, fun _ _ _ => rfl⟩
  rw [sent_append x _ [a] rfl]
  simp [ha]

omit [DecidableEq C] in
theorem aside_touch (x : Conn σ κ) (b : Buffer) : Aside cfg x (x.touch b) := by
  refine ⟨rfl, rfl, rfl, ?_, fun _ _ _ => rfl⟩
  rw [sent_append x _ _ rfl]
  split <;> simp [List.filterMap_cons, sendData]

theorem outwardly_modify (L : Local C σ κ δ) (d : C) {f : Conn σ κ → Conn σ κ}
    (hf : ∀ x, Aside cfg x (f x)) : Outwardly cfg c L (L.modify d f) := by
  refine ⟨?_, rfl, rfl⟩
  by_cases h : c = d
  · subst h
    rw [modify_self]
    exact hf _
  · simp only [Local.modify, Function.update_of_ne h]
    exact .refl _

theorem noted (L : Local C σ κ δ) (d : C) {a : Act κ} (ha : sendData a = none) :
    Outwardly cfg c L (L.modify d (·.note a)) :=
  outwardly_modify L d (fun x => aside_note x ha)

theorem act_outwardly {o : Op C κ δ} (ho : Outgoing o) {ch : Choice o} {L L' : Local C σ κ δ} {r : Res o}
    (h : act cfg o ch L = some (r, L')) : Outwardly cfg c L L' := by
  cases o <;> simp only [Outgoing] at ho
  case connectedGet | packet =>
    cases h
    exact .refl L
  case connectedSet d b | markActive d | stopTimer d =>
    cases h
    exact outwardly_modify L d (fun x => ⟨rfl, rfl, rfl, rfl, fun _ _ _ => rfl⟩)
  case putInPool d b | sendInLoopFinish d =>
    cases h
    exact noted L d rfl
  case isEmpty d b | peekAll d b =>
    cases h
    exact outwardly_modify L d (fun x => aside_touch x b)
  case write d b data | retrieve d b n | reset d b =>
    subst ho
    cases h
    exact outwardly_modify L d (fun x =>
      (aside_touch x .outBuffer).trans ⟨rfl, rfl, rfl, rfl, fun _ _ _ => rfl⟩)
  case onClose d =>
    cases h
    exact outwardly_modify L d
      (fun x => (aside_note x (a := .onClose) rfl).trans ⟨rfl, rfl, rfl, rfl, fun f _ hf => hf _⟩)
  case onConnect d =>
    cases h
    exact outwardly_modify L d
      (fun x => (aside_note x (a := .onConnect) rfl).trans ⟨rfl, rfl, rfl, rfl, fun f hf _ => hf _⟩)
  case insert fd d =>
    obtain ⟨m, -, hm⟩ := Option.map_eq_some_iff.mp h
    cases hm
    exact ⟨.refl _, rfl, rfl⟩
  case unixClose d fd =>
    cases h
    have hm : Outwardly cfg c L _ := noted L d (a := .syscall .close fd) rfl
    exact ⟨hm.conn, hm.packet, hm.heap⟩
  case delete | addCount =>
    cases h
    exact ⟨.refl _, rfl, rfl⟩
  case unixWrite d fd data =>
    obtain ⟨n, -, -, -, rfl⟩ | ⟨e, -, -, rfl⟩ := act_unixWrite cfg h
    · exact outwardly_modify L d
        (fun x => (aside_note x (a := .syscall .write fd) rfl).trans ⟨rfl, rfl, rfl, rfl, fun _ _ _ => rfl⟩)
    · exact noted L d (a := .syscall .write fd) rfl
  case epollCtl d op fd events =>
    have hm : Outwardly cfg c L _ := noted L d (a := .syscall (.epollCtl op ch) fd) rfl
    obtain ⟨rfl, -, rfl⟩ | ⟨rfl, -, rfl⟩ := act_epollCtl cfg h
    · exact hm
    · exact hm.trans ⟨.refl _, rfl, rfl⟩

theorem always_outwardly {α : Type} {p : Prog C κ δ α} (hp : p.Uses Outgoing) (L : Local C σ κ δ) :
    Always (semantics cfg) (fun _ _ => True) (fun _ => Outwardly cfg c L) p L :=
  Always.of_uses hp (fun _ _ _ _ => trivial) (fun _ ho _ _ _ _ hq h => hq.trans (act_outwardly ho h)) (.refl L)

section Programs

omit [DecidableEq C]

theorem Emits.outgoing {o : Op C κ δ} (h : Emits c o) : Outgoing o := by
  cases o <;> simp only [Emits] at h <;> first | trivial | exact h.2

theorem emits_handleClose (fd : Fd) : (handleClose c fd : Prog C κ δ Unit).Uses (Emits c) := by
  refine ⟨rfl, ?_⟩
  intro connected
  cases connected with
  | true =>
      exact ⟨⟨rfl, rfl⟩, fun _ => ⟨rfl, fun _ => ⟨trivial, fun _ => ⟨trivial, fun _ => ⟨rfl, fun _ =>
        ⟨rfl, fun _ => ⟨rfl, fun _ => ⟨rfl, fun _ => ⟨rfl, fun _ => trivial⟩⟩⟩⟩⟩⟩⟩⟩⟩
  | false => trivial

theorem emits_close (fd : Fd) : (do handleClose c fd; return true : Prog C κ δ Bool).Uses (Emits c) :=
  (emits_handleClose fd).bind fun _ => trivial

theorem emits_sendInLoopRest : (sendInLoopRest cfg c).Uses (Emits c) := by
  refine ⟨⟨rfl, rfl⟩, ?_⟩
  intro empty
  cases empty with
  | true => trivial
  | false => exact ⟨rfl, fun _ => trivial⟩

theorem emits_handleWriteRest (fd : Fd) : (handleWriteRest c fd : Prog C κ δ Bool).Uses (Emits c) := by
  refine ⟨⟨rfl, rfl⟩, ?_⟩
  intro empty
  cases empty with
  | true => exact ⟨rfl, fun _ => trivial⟩
  | false => trivial

variable (cfg c) in
/-- The part of sendInLoop behind its entry. -/
theorem emits_sendInLoop (data : Bytes) :
    ∃ k, sendInLoop cfg c data = .step (.sendInLoop c data) k ∧ ∀ r, (k r).Uses (Emits c) := by
  refine ⟨_, rfl, ?_⟩
  intro _
  refine ⟨⟨rfl, rfl⟩, ?_⟩
  intro empty
  cases empty with
  | false => exact ⟨⟨rfl, rfl⟩, fun _ => trivial⟩
  | true =>
      refine ⟨rfl, ?_⟩
      rintro ⟨n, err⟩
      simp only [Program.bind]
      split
      · exact emits_close (cfg.fd c)
      · split
        · exact ⟨⟨rfl, rfl⟩, fun _ => emits_sendInLoopRest⟩
        · split
          · exact ⟨⟨rfl, rfl⟩, fun _ => emits_sendInLoopRest⟩
          · exact emits_sendInLoopRest

theorem emits_handleWrite (fd : Fd) : (handleWrite cfg c fd).Uses (Emits c) := by
  refine ⟨⟨rfl, rfl⟩, ?_⟩
  rintro ⟨first, last⟩
  refine ⟨rfl, ?_⟩
  rintro ⟨n, err⟩
  simp only [Program.bind]
  split
  · split
    · trivial
    · exact emits_close fd
  · refine ⟨⟨rfl, rfl⟩, fun _ => ?_⟩
    split
    · refine ⟨rfl, ?_⟩
      rintro ⟨m, err⟩
      simp only [Program.bind]
      split
      · split
        · trivial
        · exact emits_close fd
      · exact ⟨⟨rfl, rfl⟩, fun _ => emits_handleWriteRest fd⟩
    · exact emits_handleWriteRest fd

theorem uses_handleClose (fd : Fd) : (handleClose c fd : Prog C κ δ Unit).Uses Outgoing :=
  (emits_handleClose fd).mono fun _ => Emits.outgoing

theorem uses_close (fd : Fd) : (do handleClose c fd; return true : Prog C κ δ Bool).Uses Outgoing :=
  (emits_close fd).mono fun _ => Emits.outgoing

variable (cfg c) in
theorem uses_sendInLoop (data : Bytes) :
    ∃ k, sendInLoop cfg c data = .step (.sendInLoop c data) k ∧ ∀ r, (k r).Uses Outgoing := by
  obtain ⟨k, hk, hemits⟩ := emits_sendInLoop cfg c data
  exact ⟨k, hk, fun r => (hemits r).mono fun _ => Emits.outgoing⟩

theorem uses_handleWrite (fd : Fd) : (handleWrite cfg c fd).Uses Outgoing :=
  (emits_handleWrite fd).mono fun _ => Emits.outgoing

theorem uses_register : (taskBody cfg (.register c)).Uses Outgoing := by
  refine ⟨trivial, fun _ => ⟨trivial, fun _ => ⟨trivial, ?_⟩⟩⟩
  intro ok
  cases ok with
  | true => exact ⟨trivial, fun _ => trivial⟩
  | false => exact ⟨trivial, fun _ => trivial⟩

end Programs

/-- sendInLoop is its entry in the history and outgoing operations. -/
theorem sendInLoop_outwardly (data : Bytes) (L : Local C σ κ δ) :
    Always (semantics cfg) (fun _ _ => True) (fun _ => Outwardly cfg c (L.modify c (·.note (.sendInLoop data))))
      (sendInLoop cfg c data) L := by
  obtain ⟨k, hk, huses⟩ := uses_sendInLoop cfg c data
  rw [hk]
  refine ⟨trivial, ?_⟩
  intro ch r L₁ hact
  cases hact
  exact always_outwardly (huses _) _

theorem sendTask_outwardly (data : δ) (finish : Bool) {L : Local C σ κ δ} (hconn : (L.conns c).connected = true) :
    Always (semantics cfg) (fun _ _ => True)
      (fun _ => Outwardly cfg c
        (L.modify c (·.note (.sendInLoop (cfg.protocol.packet (L.conns c).user data)))))
      (taskBody cfg (.send c data finish)) L := by
  refine ⟨trivial, ?_⟩
  intro ch r L₁ hact
  cases hact
  rw [hconn]
  refine ⟨trivial, ?_⟩
  intro ch packed L₁ hact
  cases hact
  refine Always.bind (p := sendInLoop cfg c _) ((sendInLoop_outwardly _ L).mono ?_)
  intro closed L₁ h₁
  cases finish with
  | true =>
      have hfinish : (call (.sendInLoopFinish c) : Prog C κ δ Unit).Uses Outgoing := ⟨trivial, fun _ => trivial⟩
      exact (always_outwardly hfinish L₁).mono (fun _ _ h₂ => h₁.trans h₂)
  | false => exact h₁

theorem sent_sendInLoop (x : Conn σ κ) (data : Bytes) : sent (x.note (.sendInLoop data)) = sent x ++ data := by
  rw [sent_append x _ [.sendInLoop data] rfl]
  simp [sendData]

end Gev.Connection.Outward
