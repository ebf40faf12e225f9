import Gev.Connection.Outward

namespace Gev.Connection.Traffic

open Lib.Atomic Lib.Slices Lib.RingBuffers State Code Reading Writing Outward

variable {C σ κ δ : Type}

/-- The acts by which data enter and leave a connection, and the hook of a Send. -/
def traffic : Act κ → Bool
  | .sendInLoop _ | .sendInLoopFinish | .syscall .read _ => true
  | _ => false

theorem filterMap_sendData (acts : List (Act κ)) :
    (acts.filter traffic).filterMap sendData = acts.filterMap sendData := by
  rw [List.filterMap_filter]
  congr 1
  funext a
  cases a <;> first | rfl | simp [sendData]

/-- An occasion on which a connection is sent to or read from: a queued Send with the packet made of its data, or a
read with the replies to what it brought. -/
inductive Entry (δ : Type)
  | send (data : δ) (finish : Bool) (packet : Bytes)
  | read (replies : Option Bytes)

def readActs (fd : Fd) (replies : Option Bytes) : List (Act κ) :=
  .syscall .read fd :: (replies.map Act.sendInLoop).toList

def Entry.acts (fd : Fd) : Entry δ → List (Act κ)
  | .send _ finish packet => .sendInLoop packet :: if finish then [.sendInLoopFinish] else []
  | .read replies => readActs fd replies

def Entry.bytes : Entry δ → Bytes
  | .send _ _ packet => packet
  | .read replies => replies.getD []

def Entry.task : Entry δ → Option (δ × Bool)
  | .send data finish _ => some (data, finish)
  | .read _ => none

def sendsTo [DecidableEq C] (c : C) : Task C δ → Option (δ × Bool)
  | .send d data finish => if d = c then some (data, finish) else none
  | _ => none

/-- The operations that leave a connection's traffic as it is and do not reopen it. -/
def Silent (c : C) : Op C κ δ → Prop
  | .sendInLoop d _ | .sendInLoopFinish d | .unixRead d _ _ => d ≠ c
  | .connectedSet _ b => b = false
  | _ => True

/-- The operations among them that do no more to any connection and take no data in. -/
def Calm : Op C κ δ → Prop
  | .sendInLoop _ _ | .sendInLoopFinish _ | .unixRead _ _ _ | .unPacket _ _ | .onMessage _ _ _ => False
  | .connectedSet _ b => b = false
  | _ => True

structure Grown (c : C) (acts : List (Act κ)) (L L' : Local C σ κ δ) : Prop where
  traffic : (L'.conns c).history.filter traffic = (L.conns c).history.filter traffic ++ acts
  connected : (L'.conns c).connected = true → (L.conns c).connected = true
  accepted : (L.conns c).accepted <+: (L'.conns c).accepted

theorem Grown.refl (c : C) (L : Local C σ κ δ) : Grown c [] L L := ⟨(List.append_nil _).symm, id, List.prefix_refl _⟩

theorem Grown.trans {c : C} {acts acts' : List (Act κ)} {L L' L'' : Local C σ κ δ} (h : Grown c acts L L')
    (h' : Grown c acts' L' L'') : Grown c (acts ++ acts') L L'' := by
  refine ⟨?_, fun hc => h.connected (h'.connected hc), h.accepted.trans h'.accepted⟩
  rw [h'.traffic, h.traffic, List.append_assoc]

variable [DecidableEq C] {c : C}

theorem grown_modify {L L' : Local C σ κ δ} {f : Conn σ κ → Conn σ κ} (acts : List (Act κ))
    (h : L'.conns = (L.modify c f).conns) (hf : (f (L.conns c)).history = (L.conns c).history ++ acts)
    (hconn : (f (L.conns c)).connected = true → (L.conns c).connected = true)
    (hacc : (L.conns c).accepted <+: (f (L.conns c)).accepted) : Grown c (acts.filter traffic) L L' := by
  have hself : L'.conns c = f (L.conns c) := by rw [h, modify_self]
  refine ⟨?_, ?_, ?_⟩
  · rw [hself, hf, List.filter_append]
  · rw [hself]
    exact hconn
  · rw [hself]
    exact hacc

theorem grown_note {L L' : Local C σ κ δ} (a : Act κ) (h : L'.conns = (L.modify c (·.note a)).conns) :
    Grown c ([a].filter traffic) L L' :=
  grown_modify [a] h rfl id (List.prefix_refl _)

omit [DecidableEq C] in
theorem silent_same {L L' : Local C σ κ δ} (h : L'.conns c = L.conns c) : Grown c [] L L' := by
  refine ⟨?_, ?_, ?_⟩
  · rw [h, List.append_nil]
  · rw [h]
    exact id
  · exact congrArg Conn.accepted h ▸ List.prefix_refl _

theorem silent_modify {L L' : Local C σ κ δ} (d : C) {f : Conn σ κ → Conn σ κ} (acts : List (Act κ))
    (h : L'.conns = (L.modify d f).conns) (hf : (f (L.conns d)).history = (L.conns d).history ++ acts)
    (hconn : (f (L.conns d)).connected = true → (L.conns d).connected = true)
    (hacc : (L.conns d).accepted <+: (f (L.conns d)).accepted) (hacts : d ≠ c ∨ acts.filter traffic = []) :
    Grown c [] L L' := by
  by_cases hd : d = c
  · subst hd
    have hg := grown_modify acts h hf hconn hacc
    rwa [hacts.resolve_left (fun hne => hne rfl)] at hg
  · exact silent_same (by simp [h, Local.modify, Ne.symm hd])

theorem silent_note {L L' : Local C σ κ δ} (d : C) (a : Act κ) (h : L'.conns = (L.modify d (·.note a)).conns)
    (ha : d ≠ c ∨ traffic a = false) : Grown c [] L L' :=
  silent_modify d [a] h rfl id (List.prefix_refl _) (ha.imp id fun ha => by simp [ha])

theorem act_silent (cfg : Config C σ κ δ) {o : Op C κ δ} (ho : Silent c o) {ch : Choice o} {L L' : Local C σ κ δ}
    {r : Res o} (h : act cfg o ch L = some (r, L')) : Grown c [] L L' := by
  cases o
  case connectedGet | packetBuf | contents | lookup | packet | compareAndSwap | wake | delete | dropSockets |
      addCount | appendTask | append =>
    obtain ⟨-, rfl⟩ := Prod.mk.inj (Option.some.inj h)
    exact silent_same rfl
  case diverge => cases h
  case range =>
    obtain ⟨-, -, rfl⟩ := act_range cfg h
    exact silent_same rfl
  case insert =>
    obtain ⟨m, -, hr⟩ := Option.map_eq_some_iff.mp h
    cases hr
    exact silent_same rfl
  case connectedSet d b =>
    cases (show b = false from ho)
    cases h
    exact silent_modify d [] rfl (List.append_nil _).symm (by simp) (List.prefix_refl _) (.inr rfl)
  case markActive d | stopTimer d | withData d _ =>
    cases h
    exact silent_modify d [] rfl (List.append_nil _).symm id (List.prefix_refl _) (.inr rfl)
  case isEmpty d b | peekAll d b | write d b _ | retrieve d b _ | reset d b | unPacket d b =>
    cases h
    refine silent_modify d (if b = .buffer then [] else [.touch b]) rfl rfl id (List.prefix_refl _) (.inr ?_)
    split <;> rfl
  case swapLengths d =>
    cases h
    exact silent_modify d [.touch .inBuffer, .touch .outBuffer] rfl (by simp [Conn.touch]) id (List.prefix_refl _)
      (.inr rfl)
  case putInPool d b =>
    cases h
    exact silent_note d (.put b) rfl (.inr rfl)
  case onConnect d =>
    cases h
    exact silent_modify d [.onConnect] rfl rfl id (List.prefix_refl _) (.inr rfl)
  case onMessage d ctx data =>
    cases h
    exact silent_modify d [.onMessage ctx data (L.conns d).connected] rfl rfl id (List.prefix_refl _) (.inr rfl)
  case onClose d =>
    cases h
    exact silent_modify d [.onClose] rfl rfl id (List.prefix_refl _) (.inr rfl)
  case sendInLoop d data =>
    cases h
    exact silent_note d (.sendInLoop data) rfl (.inl ho)
  case sendInLoopFinish d =>
    cases h
    exact silent_note d .sendInLoopFinish rfl (.inl ho)
  case unixClose d fd =>
    cases h
    exact silent_note d (.syscall .close fd) rfl (.inr rfl)
  case unixRead d fd s =>
    obtain ⟨data, -, -, -, rfl⟩ | ⟨e, -, -, rfl⟩ := act_unixRead cfg h
    · exact silent_note d (.syscall .read fd) rfl (.inl ho)
    · exact silent_note d (.syscall .read fd) rfl (.inl ho)
  case unixWrite d fd data =>
    obtain ⟨n, -, -, -, rfl⟩ | ⟨e, -, -, rfl⟩ := act_unixWrite cfg h
    · exact silent_modify d [.syscall .write fd] rfl rfl id (List.prefix_append _ _) (.inr rfl)
    · exact silent_note d (.syscall .write fd) rfl (.inr rfl)
  case epollCtl d op fd events =>
    obtain ⟨rfl, -, rfl⟩ | ⟨rfl, -, rfl⟩ := act_epollCtl cfg h
    · exact silent_note d (.syscall (.epollCtl op false) fd) rfl (.inr rfl)
    · exact silent_note d (.syscall (.epollCtl op true) fd) rfl (.inr rfl)

section Programs

omit [DecidableEq C]

theorem Calm.silent {o : Op C κ δ} (h : Calm o) : Silent c o := by
  cases o <;> first | exact h | cases h

theorem Emits.calm {d : C} {o : Op C κ δ} (h : Emits d o) : Calm o := by
  cases o <;> simp only [Emits] at h <;> first | trivial | exact h.2

theorem Emits.silent {d : C} {o : Op C κ δ} (h : Emits d o) : Silent c o :=
  Calm.silent (Emits.calm h)

theorem Parsing.silent {d : C} {o : Op C κ δ} (h : Parsing d o) : Silent c o := by
  cases o <;> simp only [Parsing] at h <;> trivial

variable (cfg : Config C σ κ δ)

theorem calm_resetIfEmpty (d : C) (b : Buffer) : (resetIfEmpty d b : Prog C κ δ Unit).Uses Calm := by
  refine ⟨trivial, ?_⟩
  intro empty
  cases empty with
  | true => exact ⟨trivial, fun _ => trivial⟩
  | false => trivial

theorem calm_tidy (d : C) (b : Buffer) : (do resetIfEmpty d b; return false : Prog C κ δ Bool).Uses Calm :=
  (calm_resetIfEmpty d b).bind fun _ => trivial

theorem calm_writeBranch (d : C) (fd : Fd) : (writeBranch cfg d fd).Uses Calm := by
  apply Program.Uses.bind ((emits_handleWrite fd).mono fun _ => Emits.calm)
  intro closed
  cases closed with
  | true => trivial
  | false => exact calm_tidy d .outBuffer

theorem calm_register (d : C) : (taskBody cfg (.register d)).Uses Calm := by
  refine ⟨trivial, fun _ => ⟨trivial, fun _ => ⟨trivial, ?_⟩⟩⟩
  intro ok
  cases ok with
  | true => exact ⟨trivial, fun _ => trivial⟩
  | false => exact ⟨trivial, fun _ => trivial⟩

theorem calm_closeAll (ds : List C) : (closeAll ds : Prog C κ δ Unit).Uses Calm := by
  induction ds with
  | nil => trivial
  | cons d ds ih =>
      refine ⟨trivial, ?_⟩
      intro connected
      cases connected with
      | false => exact ih
      | true =>
          refine ⟨trivial, fun _ => ⟨trivial, ?_⟩⟩
          intro swapped
          cases swapped with
          | true => exact ⟨trivial, fun _ => ih⟩
          | false => exact ih

theorem calm_closing : (taskBody cfg .closing).Uses Calm :=
  ⟨trivial, fun ds => (calm_closeAll ds).bind fun _ => ⟨trivial, fun _ => trivial⟩⟩

theorem silent_sendInLoop {d : C} (hd : d ≠ c) (data : Bytes) : (sendInLoop cfg d data).Uses (Silent c) := by
  obtain ⟨k, hk, hemits⟩ := emits_sendInLoop cfg d data
  rw [hk]
  exact ⟨hd, fun r => (hemits r).mono fun _ => Emits.silent⟩

theorem silent_sendTask {d : C} (hd : d ≠ c) (data : δ) (finish : Bool) :
    (taskBody cfg (.send d data finish)).Uses (Silent c) := by
  refine ⟨trivial, ?_⟩
  intro connected
  cases connected with
  | false => trivial
  | true =>
      refine ⟨trivial, fun packed => ?_⟩
      apply Program.Uses.bind (silent_sendInLoop cfg hd packed)
      intro _
      cases finish with
      | true => exact ⟨hd, fun _ => trivial⟩
      | false => trivial

theorem silent_handleRead {d : C} (hd : d ≠ c) (fuel : Nat) (fd : Fd) :
    (handleRead cfg fuel d fd).Uses (Silent c) := by
  refine ⟨trivial, fun buf => ⟨hd, ?_⟩⟩
  rintro ⟨n, err⟩
  simp only [Program.bind]
  split
  · split
    · exact (emits_close fd).mono fun _ => Emits.silent
    · trivial
  · apply Program.Uses.bind ((parses_parsePacket d fuel buf n.toNat).mono fun _ => Parsing.silent)
    intro replies
    split
    · exact ⟨trivial, fun data => silent_sendInLoop cfg hd data⟩
    · trivial

theorem silent_handleReady {d : C} (hd : d ≠ c) (fuel : Nat) (fd : Fd) (events : UInt32) :
    (handleReady cfg fuel d fd events).Uses (Silent c) := by
  refine ⟨trivial, fun empty => ?_⟩
  simp only [Program.bind]
  split
  · split
    · exact (calm_writeBranch cfg d fd).mono fun _ => Calm.silent
    · trivial
  · split
    · apply Program.Uses.bind (silent_handleRead cfg hd fuel fd)
      intro closed
      cases closed with
      | true => trivial
      | false => exact (calm_tidy d .inBuffer).mono fun _ => Calm.silent
    · trivial

def dispatch (fuel : Nat) (d : C) (fd : Fd) (events : UInt32) : Prog C κ δ Unit := do
  if events &&& EventErr ≠ 0 then handleClose d fd
  else
    let closed ← handleReady cfg fuel d fd events
    if closed = false then call (.swapLengths d)

theorem silent_dispatch {d : C} (hd : d ≠ c) (fuel : Nat) (fd : Fd) (events : UInt32) :
    (dispatch cfg fuel d fd events).Uses (Silent c) := by
  unfold dispatch
  split
  · exact (emits_handleClose fd).mono fun _ => Emits.silent
  · apply Program.Uses.bind (silent_handleReady cfg hd fuel fd events)
    intro closed
    cases closed with
    | true => trivial
    | false => exact ⟨trivial, fun _ => trivial⟩

end Programs

section Adding

theorem always_silent (cfg : Config C σ κ δ) {α : Type} {p : Prog C κ δ α} (hp : p.Uses (Silent c))
    (L : Local C σ κ δ) : Always (semantics cfg) (fun _ _ => True) (fun _ => Grown c [] L) p L := by
  refine Always.of_uses hp (fun _ _ _ _ => trivial) ?_ (.refl c L)
  intro o ho ch L₁ r L₂ hg hact
  exact hg.trans (act_silent cfg ho hact)

/-- Wherever it starts, a program adds traffic of the given form to the connection. -/
def Adds (cfg : Config C σ κ δ) (c : C) (P : List (Act κ) → Prop) {α : Type} (p : Prog C κ δ α) : Prop :=
  ∀ L, Always (semantics cfg) (fun _ _ => True) (fun _ L' => ∃ acts, P acts ∧ Grown c acts L L') p L

variable {cfg : Config C σ κ δ} {P : List (Act κ) → Prop} {α β : Type} {p : Prog C κ δ α} {f : α → Prog C κ δ β}

theorem Adds.of_silent (hp : p.Uses (Silent c)) (hnil : P []) : Adds cfg c P p :=
  fun L => (always_silent cfg hp L).mono fun _ _ hg => ⟨[], hnil, hg⟩

theorem Adds.of_bind (hp : p.Uses (Silent c)) (hf : ∀ a, Adds cfg c P (f a)) : Adds cfg c P (p >>= f) := by
  intro L
  apply Always.bind
  apply (always_silent cfg hp L).mono
  intro a L₁ hg
  apply (hf a L₁).mono
  rintro _ L₂ ⟨acts, hP, hg'⟩
  exact ⟨acts, hP, hg.trans hg'⟩

theorem adds_sendInLoop (data : Bytes) : Adds cfg c (· = [.sendInLoop data]) (sendInLoop cfg c data) := by
  intro L
  obtain ⟨k, hk, hemits⟩ := emits_sendInLoop cfg c data
  rw [hk]
  refine ⟨trivial, ?_⟩
  intro ch r L₁ hact
  cases hact
  apply (always_silent cfg ((hemits ()).mono fun _ => Emits.silent) _).mono
  intro _ L₂ hg
  exact ⟨_, rfl, (grown_note (.sendInLoop data) rfl).trans hg⟩

variable (cfg) in
theorem grown_unixRead {fd : Fd} {buf : Slice} {result : ReadResult} {r : Int × Option Errno} {L L' : Local C σ κ δ}
    (h : act cfg (.unixRead c fd buf) result L = some (r, L')) : Grown c [.syscall .read fd] L L' := by
  obtain ⟨data, -, -, -, rfl⟩ | ⟨e, -, -, rfl⟩ := act_unixRead cfg h
  · exact grown_note (.syscall .read fd) rfl
  · exact grown_note (.syscall .read fd) rfl

theorem adds_handleRead (fuel : Nat) (fd : Fd) :
    Adds cfg c (fun acts => ∃ replies, acts = readActs (cfg.fd c) replies) (handleRead cfg fuel c fd) := by
  apply Adds.of_bind (p := call .packetBuf) ⟨trivial, fun _ => trivial⟩
  intro buf L
  refine ⟨trivial, ?_⟩
  rintro ch ⟨n, err⟩ L₁ hact
  have hread := grown_unixRead cfg hact
  suffices hrest : Adds cfg c (fun acts => ∃ replies : Option Bytes, acts = (replies.map Act.sendInLoop).toList)
      (if n = 0 ∨ err ≠ none then
        if err ≠ some .EAGAIN then do
          handleClose c fd
          return true
        else return false
      else do
        let replies ← parsePacket fuel c buf n.toNat
        if replies.len ≠ 0 then
          let data ← call (.contents replies)
          sendInLoop cfg c data
        else return false) by
    apply (hrest L₁).mono
    rintro _ L₂ ⟨_, ⟨replies, rfl⟩, hg⟩
    exact ⟨_, ⟨replies, rfl⟩, hread.trans hg⟩
  split
  · split
    · exact .of_silent ((emits_close fd).mono fun _ => Emits.silent) ⟨none, rfl⟩
    · exact .of_silent trivial ⟨none, rfl⟩
  · apply Adds.of_bind ((parses_parsePacket c fuel buf n.toNat).mono fun _ => Parsing.silent)
    intro replies
    split
    · apply Adds.of_bind (p := call (.contents replies)) ⟨trivial, fun _ => trivial⟩
      intro data L₂
      apply (adds_sendInLoop data L₂).mono
      rintro _ L₃ ⟨_, rfl, hg⟩
      exact ⟨_, ⟨some data, rfl⟩, hg⟩
    · exact .of_silent trivial ⟨none, rfl⟩

def Reads (cfg : Config C σ κ δ) (c : C) (L L' : Local C σ κ δ) : Prop :=
  (L.conns c).outBuffer.data = [] ∧ ∃ replies, Grown c (readActs (cfg.fd c) replies) L L'

def Event (cfg : Config C σ κ δ) (c : C) (L L' : Local C σ κ δ) : Prop := Grown c [] L L' ∨ Reads cfg c L L'

omit [DecidableEq C] in
theorem Event.trans {L L' L'' : Local C σ κ δ} (h : Event cfg c L L') (hg : Grown c [] L' L'') : Event cfg c L L'' := by
  rcases h with h | ⟨hout, replies, h⟩
  · exact .inl (h.trans hg)
  · exact .inr ⟨hout, replies, by simpa using h.trans hg⟩

theorem handleReady_event (fuel : Nat) (fd : Fd) (events : UInt32) (L : Local C σ κ δ) :
    Always (semantics cfg) (fun _ _ => True) (fun _ => Event cfg c L) (handleReady cfg fuel c fd events) L := by
  refine ⟨trivial, ?_⟩
  intro ch empty L₁ hact
  obtain ⟨rfl, rfl⟩ := Prod.mk.inj (Option.some.inj hact)
  have hfirst : Grown c [] L (L.modify c (·.touch .outBuffer)) :=
    silent_modify c [.touch .outBuffer] rfl rfl id (List.prefix_refl _) (.inr rfl)
  change Always _ _ _ (if (L.ring c .outBuffer).isEmpty = false then _ else _) _
  cases hempty : (L.ring c .outBuffer).isEmpty with
  | false =>
      rw [if_pos rfl]
      split
      · apply (always_silent cfg ((calm_writeBranch cfg c fd).mono fun _ => Calm.silent) _).mono
        exact fun _ _ hg => .inl (hfirst.trans hg)
      · exact .inl hfirst
  | true =>
      rw [if_neg (by simp)]
      split
      · apply Always.bind
        apply (adds_handleRead fuel fd _).mono
        rintro closed L₂ ⟨_, ⟨replies, rfl⟩, hg⟩
        have hevent : Event cfg c L L₂ := .inr ⟨(RingBuffer.isEmpty_iff _).mp hempty, replies, hfirst.trans hg⟩
        cases closed with
        | true => exact hevent
        | false =>
            apply (always_silent cfg ((calm_tidy c .inBuffer).mono fun _ => Calm.silent) L₂).mono
            exact fun _ _ hg => hevent.trans hg
      · exact .inl hfirst

theorem dispatch_event (fuel : Nat) (fd : Fd) (events : UInt32) (L : Local C σ κ δ) :
    Always (semantics cfg) (fun _ _ => True) (fun _ => Event cfg c L) (dispatch cfg fuel c fd events) L := by
  unfold dispatch
  split
  · exact (always_silent cfg ((emits_handleClose fd).mono fun _ => Emits.silent) L).mono fun _ _ => .inl
  · apply Always.bind
    apply (handleReady_event fuel fd events L).mono
    intro closed L₁ hevent
    cases closed with
    | true => exact hevent
    | false =>
        apply (always_silent cfg (p := call (.swapLengths c)) ⟨trivial, fun _ => trivial⟩ L₁).mono
        exact fun _ _ hg => hevent.trans hg

theorem handlerEvent_event (fuel : Nat) (fd : Fd) (events : UInt32) (L : Local C σ κ δ) :
    Always (semantics cfg) (fun _ _ => True) (fun _ L' => Grown c [] L L' ∨ entry L fd = some c ∧ Reads cfg c L L')
      (handlerEvent cfg fuel fd events) L := by
  refine ⟨trivial, ?_⟩
  intro ch found L₁ hact
  obtain ⟨hfound, rfl⟩ := Prod.mk.inj (Option.some.inj hact)
  cases found with
  | none => exact .inl (.refl c L)
  | some d =>
      change Always _ _ _ (handleEvent cfg fuel d fd events) L
      have hdispatch : ∀ L₁ : Local C σ κ δ, Grown c [] L L₁ → (L₁.conns c).outBuffer = (L.conns c).outBuffer →
          Always (semantics cfg) (fun _ _ => True)
            (fun _ L' => Grown c [] L L' ∨ entry L fd = some c ∧ Reads cfg c L L')
            (dispatch cfg fuel d fd events) L₁ := by
        intro L₁ hg hout
        by_cases hd : d = c
        · subst hd
          apply (dispatch_event fuel fd events L₁).mono
          rintro _ L₂ (hg' | ⟨hempty, replies, hg'⟩)
          · exact .inl (hg.trans hg')
          · exact .inr ⟨hfound, hout ▸ hempty, replies, hg.trans hg'⟩
        · exact (always_silent cfg (silent_dispatch cfg hd fuel fd events) L₁).mono fun _ _ hg' => .inl (hg.trans hg')
      simp only [handleEvent]
      split
      · refine ⟨trivial, ?_⟩
        intro now r L₁ hact
        cases hact
        apply hdispatch
        · exact silent_modify d [] rfl (List.append_nil _).symm id (List.prefix_refl _) (.inr rfl)
        · by_cases hd : c = d
          · subst hd
            simp [Local.modify]
          · simp [Local.modify, hd]
      · exact hdispatch L (.refl c L) rfl

theorem adds_sendTask (data : δ) (finish : Bool) {L : Local C σ κ δ} (hconn : (L.conns c).connected = true) :
    Always (semantics cfg) (fun _ _ => True)
      (fun _ => Grown c ((Entry.send data finish (cfg.protocol.packet (L.conns c).user data)).acts (cfg.fd c)) L)
      (taskBody cfg (.send c data finish)) L := by
  refine ⟨trivial, ?_⟩
  intro ch r L₁ hact
  cases hact
  rw [hconn]
  refine ⟨trivial, ?_⟩
  intro ch packed L₁ hact
  cases hact
  refine Always.bind (p := sendInLoop cfg c _) ((adds_sendInLoop _ L).mono ?_)
  rintro _ L₁ ⟨_, rfl, hg⟩
  cases finish with
  | false => exact hg
  | true =>
      refine ⟨trivial, ?_⟩
      intro ch r L₂ hact
      cases hact
      exact hg.trans (grown_note .sendInLoopFinish rfl)

/-- What a task does to a connection's traffic. -/
theorem taskBody_grown (t : Task C δ) (L : Local C σ κ δ) :
    Always (semantics cfg) (fun _ _ => True)
      (fun _ L' => Grown c [] L L' ∧ (sendsTo c t = none ∨ (L.conns c).connected = false) ∨
        ∃ data finish, sendsTo c t = some (data, finish) ∧ (L.conns c).connected = true ∧
          Grown c ((Entry.send data finish (cfg.protocol.packet (L.conns c).user data)).acts (cfg.fd c)) L L')
      (taskBody cfg t) L := by
  have hsilent : (taskBody cfg t).Uses (Silent c) → sendsTo c t = none → Always (semantics cfg) (fun _ _ => True)
      (fun _ L' => Grown c [] L L' ∧ (sendsTo c t = none ∨ (L.conns c).connected = false)) (taskBody cfg t) L :=
    fun huses hnone => (always_silent cfg huses L).mono fun _ _ hg => ⟨hg, .inl hnone⟩
  cases t with
  | register d => exact (hsilent ((calm_register cfg d).mono fun _ => Calm.silent) rfl).mono fun _ _ => .inl
  | close d => exact (hsilent ((emits_handleClose (cfg.fd d)).mono fun _ => Emits.silent) rfl).mono fun _ _ => .inl
  | closing => exact (hsilent ((calm_closing cfg).mono fun _ => Calm.silent) rfl).mono fun _ _ => .inl
  | send d data finish =>
      by_cases hd : d = c
      · subst hd
        cases hconn : (L.conns d).connected with
        | true =>
            apply (adds_sendTask data finish hconn).mono
            intro _ L₁ hg
            exact .inr ⟨data, finish, by simp [sendsTo], rfl, hg⟩
        | false =>
            refine ⟨trivial, ?_⟩
            intro ch r L₁ hact
            cases hact
            rw [hconn]
            exact .inl ⟨.refl d L, .inr rfl⟩
      · exact (hsilent (silent_sendTask cfg hd data finish) (by simp [sendsTo, hd])).mono fun _ _ => .inl

end Adding

section Ledger

variable {cfg : Config C σ κ δ} {ts us : List (Task C δ)} {L L' : Local C σ κ δ}

/-- The entries a connection's traffic consists of, after the given tasks of its loop: while it is open there is one
for every Send among them, in order, and afterwards for a first part of them. -/
structure Ledger (cfg : Config C σ κ δ) (c : C) (ts : List (Task C δ)) (L : Local C σ κ δ)
    (entries : List (Entry δ)) : Prop where
  shown : (L.conns c).history.filter traffic = entries.flatMap (Entry.acts (cfg.fd c))
  packed : ∀ data finish packet, .send data finish packet ∈ entries → ∃ user, packet = cfg.protocol.packet user data
  begun : entries.filterMap Entry.task <+: ts.filterMap (sendsTo c)
  all : (L.conns c).connected = true → entries.filterMap Entry.task = ts.filterMap (sendsTo c)

def Kept (cfg : Config C σ κ δ) (c : C) (ts : List (Task C δ)) (L : Local C σ κ δ) : Prop :=
  ∃ entries, Ledger cfg c ts L entries

theorem Ledger.extend {entries : List (Entry δ)} (h : Ledger cfg c ts L entries) (new : List (Entry δ))
    (hg : Grown c (new.flatMap (Entry.acts (cfg.fd c))) L L')
    (hpacked : ∀ data finish packet, .send data finish packet ∈ new → ∃ user, packet = cfg.protocol.packet user data)
    (htasks : new.filterMap Entry.task = us.filterMap (sendsTo c))
    (hconn : (L.conns c).connected = true ∨ us.filterMap (sendsTo c) = []) :
    Ledger cfg c (ts ++ us) L' (entries ++ new) := by
  refine ⟨?_, ?_, ?_, ?_⟩
  · rw [hg.traffic, h.shown, List.flatMap_append]
  · intro data finish packet hm
    rcases List.mem_append.mp hm with hm | hm
    · exact h.packed data finish packet hm
    · exact hpacked data finish packet hm
  · rw [List.filterMap_append, List.filterMap_append, htasks]
    rcases hconn with hconn | hnone
    · exact h.all hconn ▸ List.prefix_refl _
    · rw [hnone, List.append_nil, List.append_nil]
      exact h.begun
  · intro hc
    rw [List.filterMap_append, List.filterMap_append, htasks, h.all (hg.connected hc)]

/-- Tasks that find the connection closed. -/
theorem Ledger.skip {entries : List (Entry δ)} (h : Ledger cfg c ts L entries) (hg : Grown c [] L L')
    (hconn : (L.conns c).connected = false) (us : List (Task C δ)) : Ledger cfg c (ts ++ us) L' entries := by
  refine ⟨?_, h.packed, ?_, ?_⟩
  · rw [hg.traffic, List.append_nil]
    exact h.shown
  · rw [List.filterMap_append]
    exact h.begun.trans (List.prefix_append _ _)
  · intro hc
    rw [hg.connected hc] at hconn
    cases hconn

theorem Kept.silent (h : Kept cfg c ts L) (hg : Grown c [] L L') (hus : us.filterMap (sendsTo c) = []) :
    Kept cfg c (ts ++ us) L' := by
  obtain ⟨entries, h⟩ := h
  exact ⟨_, h.extend [] hg (by simp) hus.symm (.inr hus)⟩

theorem handlerEvent_keeps (h : Kept cfg c ts L) (fuel : Nat) (fd : Fd) (events : UInt32) :
    Always (semantics cfg) (fun _ _ => True) (fun _ => Kept cfg c ts) (handlerEvent cfg fuel fd events) L := by
  apply (handlerEvent_event fuel fd events L).mono
  rintro _ L₁ (hg | ⟨-, -, replies, hg⟩)
  · rw [← List.append_nil ts]
    exact h.silent hg rfl
  · obtain ⟨entries, h⟩ := h
    rw [← List.append_nil ts]
    exact ⟨_, h.extend [.read replies] (by simpa [Entry.acts] using hg) (by simp) rfl (.inr rfl)⟩

theorem taskBody_keeps (h : Kept cfg c ts L) (t : Task C δ) :
    Always (semantics cfg) (fun _ _ => True) (fun _ => Kept cfg c (ts ++ [t])) (taskBody cfg t) L := by
  apply (taskBody_grown t L).mono
  rintro _ L₁ (⟨hg, hnone | hclosed⟩ | ⟨data, finish, ht, hconn, hg⟩)
  · exact h.silent hg (by simp [hnone])
  · obtain ⟨entries, h⟩ := h
    exact ⟨entries, h.skip hg hclosed _⟩
  · obtain ⟨entries, h⟩ := h
    refine ⟨_, h.extend [.send data finish (cfg.protocol.packet (L.conns c).user data)] ?_ ?_ ?_ (.inl hconn)⟩
    · simpa using hg
    · intro data' finish' packet hm
      cases List.mem_singleton.mp hm
      exact ⟨_, rfl⟩
    · simp [ht, Entry.task]

end Ledger

end Gev.Connection.Traffic
