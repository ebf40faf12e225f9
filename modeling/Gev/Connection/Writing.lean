import Gev.Connection.Reading
import Gev.Connection.History

namespace Gev.Connection.Writing

open Lib.Atomic Lib.Slices Lib.RingBuffers State Code Reading History

variable {C σ κ δ : Type}

def sendData : Act κ → Option Bytes
  | .sendInLoop data => some data
  | _ => none

def sent (x : Conn σ κ) : Bytes := (x.history.filterMap sendData).flatten

def succeeded : Act κ → Bool
  | .syscall (.epollCtl _ ok) _ => ok
  | _ => true

/-- No epoll_ctl call made for the connection has failed. -/
def EpollOk (x : Conn σ κ) : Prop := ∀ a ∈ x.history, succeeded a = true

def entry (L : Local C σ κ δ) (fd : Fd) : Option C := L.sockets.bind (·.lookup fd)

def interestFor (out : Bytes) : UInt32 := if out = [] then readEvent else readEvent ||| writeEvent

/-- The descriptor a system call of the loop goroutine is aimed at, and for which connection. -/
def target : Op C κ δ → Option (C × Fd)
  | .unixRead c fd _ | .unixWrite c fd _ | .unixClose c fd | .epollCtl c _ fd _ => some (c, fd)
  | _ => none

/-- A registration is expected to find its connection open. -/
def admissible : Op C κ δ → Local C σ κ δ → Bool
  | .epollCtl c .add _ _, L => (L.conns c).connected
  | _, _ => true

variable (cfg : Config C σ κ δ) (c : C)

def phaseOf (L : Local C σ κ δ) : Phase := phase (cfg.fd c) (L.conns c).history

def Registered (L : Local C σ κ δ) : Prop :=
  .syscall (.epollCtl .add true) (cfg.fd c) ∈ (L.conns c).history

structure Frame (L L' : Local C σ κ δ) : Prop where
  others : ∀ d, d ≠ c → L'.conns d = L.conns d
  isSome : L'.sockets.isSome = L.sockets.isSome
  entry : ∀ fd, fd ≠ cfg.fd c → entry L' fd = entry L fd
  interest : ∀ fd, fd ≠ cfg.fd c → L'.interest fd = L.interest fd
  posted : L'.posted = L.posted

structure Permitted (early : Prop) (L₀ : Local C σ κ δ) (o : Op C κ δ) (L : Local C σ κ δ) : Prop where
  frame : Frame cfg c L₀ L
  sound : (phaseOf cfg c L).Sound early
  target : ∀ d fd, target o = some (d, fd) → d = c ∧ fd = cfg.fd c ∧ (phaseOf cfg c L).FdOpen
  admitted : admissible o L = true
  posts : ∀ t, o ≠ .appendTask t

/-- An open connection with its backlog, the bytes accepted by the kernel, the
bytes passed to sendInLoop and the registered interest. -/
structure Facts (L₀ L : Local C σ κ δ) (out accepted sentSoFar : Bytes) (events : UInt32) : Prop where
  frame : Frame cfg c L₀ L
  connected : (L.conns c).connected = true
  live : phaseOf cfg c L = .live
  own : ∀ d, entry L (cfg.fd c) = some d → d = c
  listed : Registered cfg c L → L.sockets.isSome → entry L (cfg.fd c) = some c
  posted : Registered cfg c L → L.sockets = none → .close c ∈ L.posted
  out : (L.conns c).outBuffer.data = out
  accepted : (L.conns c).accepted = accepted
  sent : sent (L.conns c) = sentSoFar
  interest : EpollOk (L.conns c) → L.interest (cfg.fd c) = some events

/-- An open connection whose stream is in order and whose interest fits its backlog. -/
def Open (L₀ L : Local C σ κ δ) : Prop :=
  ∃ out accepted, Facts cfg c L₀ L out accepted (accepted ++ out) (interestFor out)

structure Closed (early : Prop) (L : Local C σ κ δ) : Prop where
  connected : (L.conns c).connected = false
  dead : phaseOf cfg c L = .dead true ∨ phaseOf cfg c L = .dead false ∧ early
  stream : (L.conns c).accepted <+: sent (L.conns c)

abbrev Ends [DecidableEq C] {α : Type} (early : Prop) (L₀ : Local C σ κ δ) (Q : α → Local C σ κ δ → Prop)
    (p : Prog C κ δ α) (L : Local C σ κ δ) : Prop :=
  Always (semantics cfg) (Permitted cfg c early L₀) Q p L

theorem Frame.refl (L : Local C σ κ δ) : Frame cfg c L L :=
  ⟨fun _ _ => rfl, rfl, fun _ _ => rfl, fun _ _ => rfl, rfl⟩

variable {cfg c}

theorem Frame.trans {L L' L'' : Local C σ κ δ} (h : Frame cfg c L L') (h' : Frame cfg c L' L'') :
    Frame cfg c L L'' :=
  ⟨fun d hd => (h'.others d hd).trans (h.others d hd), h'.isSome.trans h.isSome,
    fun fd hfd => (h'.entry fd hfd).trans (h.entry fd hfd),
    fun fd hfd => (h'.interest fd hfd).trans (h.interest fd hfd), h'.posted.trans h.posted⟩

theorem Frame.setInterest {L₀ L : Local C σ κ δ} (h : Frame cfg c L₀ L) (events : Option UInt32) :
    Frame cfg c L₀ (setInterest L (cfg.fd c) events) := by
  refine ⟨h.others, h.isSome, h.entry, ?_, h.posted⟩
  intro fd hfd
  rw [← h.interest fd hfd]
  simp [State.setInterest, hfd]

theorem Frame.insert {L₀ L : Local C σ κ δ} (h : Frame cfg c L₀ L) {m : AList (fun _ : Fd => C)}
    (hm : L.sockets = some m) : Frame cfg c L₀ { L with sockets := some (m.insert (cfg.fd c) c) } := by
  refine ⟨h.others, ?_, ?_, h.interest, h.posted⟩
  · rw [← h.isSome, hm]
    rfl
  · intro fd hfd
    rw [← h.entry fd hfd, Writing.entry, Writing.entry, hm]
    exact AList.lookup_insert_ne hfd

theorem Frame.delete {L₀ L : Local C σ κ δ} (h : Frame cfg c L₀ L) :
    Frame cfg c L₀ { L with sockets := L.sockets.map (·.erase (cfg.fd c)) } := by
  refine ⟨h.others, ?_, ?_, h.interest, h.posted⟩
  · rw [← h.isSome]
    simp
  · intro fd hfd
    rw [← h.entry fd hfd]
    cases hs : L.sockets with
    | none => simp [Writing.entry, hs]
    | some m => simp [Writing.entry, hs, AList.lookup_erase_ne hfd]

theorem Frame.count {L₀ L : Local C σ κ δ} (h : Frame cfg c L₀ L) (n : Int) :
    Frame cfg c L₀ { L with counted := n } := ⟨h.others, h.isSome, h.entry, h.interest, h.posted⟩

theorem entry_delete (L : Local C σ κ δ) (fd : Fd) :
    entry { L with sockets := L.sockets.map (·.erase fd) } fd = none := by
  cases hs : L.sockets with
  | none => simp [entry]
  | some m => simp [entry]

theorem frame_of_quietly {L L' : Local C σ κ δ} (h : Quietly cfg c L L') : Frame cfg c L L' := by
  refine ⟨h.others, by rw [h.sockets], ?_, ?_, h.posted⟩
  · intro fd _
    rw [entry, h.sockets, entry]
  · intro fd _
    rw [h.interest]

theorem sent_append (x y : Conn σ κ) (acts : List (Act κ)) (h : y.history = x.history ++ acts) :
    sent y = sent x ++ (acts.filterMap sendData).flatten := by
  simp [sent, h]

theorem EpollOk.of_append {x y : Conn σ κ} {acts : List (Act κ)} (h : y.history = x.history ++ acts)
    (hy : EpollOk y) : EpollOk x := by
  intro a ha
  apply hy
  rw [h]
  exact List.mem_append_left acts ha

/-- What an open connection may add to its history between registration and close. -/
def Ordinary (fd : Fd) (a : Act κ) : Prop := Busy fd a ∧ ∀ f, a ≠ .syscall (.epollCtl .add true) f

theorem live_append {fd : Fd} {h acts : List (Act κ)} (hl : phase fd h = .live)
    (ha : ∀ a ∈ acts, Busy fd a) : phase fd (h ++ acts) = .live := by
  rw [phase_append, hl]
  induction acts with
  | nil => rfl
  | cons a acts ih =>
      have hb : Busy fd a := ha a List.mem_cons_self
      have hn : Phase.live.next fd a = .live := by
        cases a <;> first | exact hb.elim | simp_all [Busy, Phase.next]
      rw [List.foldl_cons, hn]
      exact ih (fun b hb => ha b (List.mem_cons_of_mem a hb))

section Steps

variable {early : Prop} {L₀ L : Local C σ κ δ} {out accepted snt : Bytes} {events : UInt32}

theorem Facts.permitted (h : Facts cfg c L₀ L out accepted snt events) {o : Op C κ δ}
    (ho : ∀ d fd, target o = some (d, fd) → d = c ∧ fd = cfg.fd c) (hp : ∀ t, o ≠ .appendTask t) :
    Permitted cfg c early L₀ o L := by
  refine ⟨h.frame, ?_, ?_, ?_, hp⟩
  · rw [h.live]
    trivial
  · intro d fd ht
    obtain ⟨hd, hfd⟩ := ho d fd ht
    refine ⟨hd, hfd, ?_⟩
    rw [h.live]
    trivial
  · unfold admissible
    split
    next d fd _ =>
      rw [(ho d fd rfl).1]
      exact h.connected
    next => rfl

/-- A state reached by ordinary acts of the connection. -/
theorem Facts.evolve (h : Facts cfg c L₀ L out accepted snt events) {L' : Local C σ κ δ}
    (acts : List (Act κ)) {out' accepted' : Bytes} (hframe : Frame cfg c L L')
    (hentrys : L'.sockets = L.sockets) (hinterest : L'.interest = L.interest)
    (hhist : (L'.conns c).history = (L.conns c).history ++ acts) (hacts : ∀ a ∈ acts, Ordinary (cfg.fd c) a)
    (hconn : (L'.conns c).connected = (L.conns c).connected)
    (hout : (L'.conns c).outBuffer.data = out') (hacc : (L'.conns c).accepted = accepted') :
    Facts cfg c L₀ L' out' accepted' (snt ++ (acts.filterMap sendData).flatten) events := by
  have hreg : Registered cfg c L' → Registered cfg c L := by
    intro hr
    rw [Registered, hhist, List.mem_append] at hr
    rcases hr with hr | hr
    · exact hr
    · exact absurd rfl ((hacts _ hr).2 (cfg.fd c))
  have hentry : ∀ fd, entry L' fd = entry L fd := fun fd => by
    rw [entry, hentrys, entry]
  refine ⟨h.frame.trans hframe, hconn.trans h.connected, ?_, ?_, ?_, ?_, hout, hacc, ?_, ?_⟩
  · rw [phaseOf, hhist]
    exact live_append h.live (fun a ha => (hacts a ha).1)
  · intro d hd
    exact h.own d (hentry _ ▸ hd)
  · intro hr hs
    rw [hentry]
    exact h.listed (hreg hr) (hentrys ▸ hs)
  · intro hr hs
    rw [hframe.posted]
    exact h.posted (hreg hr) (hentrys ▸ hs)
  · rw [sent_append _ _ acts hhist, h.sent]
  · intro hok
    rw [hinterest]
    exact h.interest (hok.of_append hhist)

theorem Facts.quietly {L' : Local C σ κ δ} (h : Facts cfg c L₀ L out accepted snt events)
    (hq : Quietly cfg c L L') : Facts cfg c L₀ L' out accepted snt events := by
  obtain ⟨acts, hacts, hquiet⟩ := hq.history
  rw [h.connected] at hquiet
  have hord : ∀ a ∈ acts, Ordinary (cfg.fd c) a ∧ sendData a = none := by
    intro a ha
    have hqa := hquiet a ha
    cases a with
    | touch | sendInLoopFinish => exact ⟨⟨trivial, by simp⟩, rfl⟩
    | onMessage ctx data b => exact ⟨⟨hqa, by simp⟩, rfl⟩
    | syscall call fd =>
        cases call with
        | read => exact ⟨⟨⟨hqa, by simp⟩, by simp⟩, rfl⟩
        | write | shutdown | epollCtl | close => exact hqa.elim
    | onConnect | onClose | put | sendInLoop => exact hqa.elim
  have hnone : acts.filterMap sendData = [] := List.filterMap_eq_nil_iff.mpr (fun a ha => (hord a ha).2)
  have hf := h.evolve acts (frame_of_quietly hq) hq.sockets hq.interest hacts
    (fun a ha => (hord a ha).1) hq.connected (hq.outBuffer ▸ h.out) (hq.accepted.trans h.accepted)
  rwa [hnone, List.flatten_nil, List.append_nil] at hf

variable [DecidableEq C]

theorem frame_modify (L : Local C σ κ δ) (f : Conn σ κ → Conn σ κ) : Frame cfg c L (L.modify c f) := by
  refine ⟨?_, rfl, fun _ _ => rfl, fun _ _ => rfl, rfl⟩
  intro d hd
  simp [Local.modify, hd]

theorem modify_self (L : Local C σ κ δ) (f : Conn σ κ → Conn σ κ) :
    (L.modify c f).conns c = f (L.conns c) := by simp [Local.modify]

theorem Facts.modify (h : Facts cfg c L₀ L out accepted snt events) {f : Conn σ κ → Conn σ κ}
    (acts : List (Act κ)) {out' accepted' : Bytes}
    (hhist : (f (L.conns c)).history = (L.conns c).history ++ acts) (hacts : ∀ a ∈ acts, Ordinary (cfg.fd c) a)
    (hconn : (f (L.conns c)).connected = (L.conns c).connected)
    (hout : (f (L.conns c)).outBuffer.data = out') (hacc : (f (L.conns c)).accepted = accepted') :
    Facts cfg c L₀ (L.modify c f) out' accepted' (snt ++ (acts.filterMap sendData).flatten) events := by
  apply h.evolve acts (frame_modify L f) rfl rfl _ hacts <;> rw [modify_self] <;> assumption

/-- The same for acts among which there is no send. -/
theorem Facts.modify' (h : Facts cfg c L₀ L out accepted snt events) {f : Conn σ κ → Conn σ κ}
    (acts : List (Act κ)) {out' accepted' : Bytes}
    (hhist : (f (L.conns c)).history = (L.conns c).history ++ acts) (hacts : ∀ a ∈ acts, Ordinary (cfg.fd c) a)
    (hconn : (f (L.conns c)).connected = (L.conns c).connected)
    (hout : (f (L.conns c)).outBuffer.data = out') (hacc : (f (L.conns c)).accepted = accepted')
    (hnone : acts.filterMap sendData = []) : Facts cfg c L₀ (L.modify c f) out' accepted' snt events := by
  have hf := h.modify acts hhist hacts hconn hout hacc
  rwa [hnone, List.flatten_nil, List.append_nil] at hf

theorem Facts.setRing (h : Facts cfg c L₀ L out accepted snt events) {ring : RingBuffer UInt8} {out' : Bytes}
    (hring : ring.data = out') :
    Facts cfg c L₀ (L.modify c fun x => (x.touch .outBuffer).setRing .outBuffer ring) out' accepted snt events :=
  h.modify' [.touch .outBuffer] rfl (by simp [Ordinary, Busy]) rfl hring h.accepted rfl

variable {α : Type} {Q : α → Local C σ κ δ → Prop}

theorem isEmpty_step (h : Facts cfg c L₀ L out accepted snt events) {k : Bool → Prog C κ δ α}
    (hk : ∀ L', Facts cfg c L₀ L' out accepted snt events → Ends cfg c early L₀ Q (k out.isEmpty) L') :
    Ends cfg c early L₀ Q (call (.isEmpty c .outBuffer) >>= k) L := by
  refine ⟨h.permitted (by simp [target]) (by simp), ?_⟩
  intro ch r L' hact
  have hf := h.quietly (act_quietly cfg c (show Quiet cfg c (.isEmpty c .outBuffer) from rfl) hact)
  obtain ⟨rfl, -⟩ := Prod.mk.inj (Option.some.inj hact)
  have he : (L.ring c .outBuffer).isEmpty = out.isEmpty := by
    rw [← h.out]
    rfl
  rw [he]
  exact hk L' hf

theorem sendInLoop_step (h : Facts cfg c L₀ L out accepted snt events) (data : Bytes)
    {k : Unit → Prog C κ δ α}
    (hk : ∀ L', Facts cfg c L₀ L' out accepted (snt ++ data) events → Ends cfg c early L₀ Q (k ()) L') :
    Ends cfg c early L₀ Q (call (.sendInLoop c data) >>= k) L := by
  refine ⟨h.permitted (by simp [target]) (by simp), ?_⟩
  intro ch r L' hact
  obtain ⟨-, rfl⟩ := Prod.mk.inj (Option.some.inj hact)
  apply hk
  have hf := h.modify (f := (·.note (.sendInLoop data))) [.sendInLoop data] rfl
    (by simp [Ordinary, Busy]) rfl h.out h.accepted
  simpa [sendData] using hf

theorem write_step (h : Facts cfg c L₀ L out accepted snt events) (data : Bytes)
    {k : Unit → Prog C κ δ α}
    (hk : ∀ L', Facts cfg c L₀ L' (out ++ data) accepted snt events → Ends cfg c early L₀ Q (k ()) L') :
    Ends cfg c early L₀ Q (call (.write c .outBuffer data) >>= k) L := by
  refine ⟨h.permitted (by simp [target]) (by simp), ?_⟩
  intro ch r L' hact
  obtain ⟨-, rfl⟩ := Prod.mk.inj (Option.some.inj hact)
  apply hk
  apply h.setRing
  rw [← h.out]
  rfl

theorem retrieve_step (h : Facts cfg c L₀ L out accepted snt events) (n : Nat)
    {k : Unit → Prog C κ δ α}
    (hk : ∀ L', Facts cfg c L₀ L' (out.drop n) accepted snt events → Ends cfg c early L₀ Q (k ()) L') :
    Ends cfg c early L₀ Q (call (.retrieve c .outBuffer n) >>= k) L := by
  refine ⟨h.permitted (by simp [target]) (by simp), ?_⟩
  intro ch r L' hact
  obtain ⟨-, rfl⟩ := Prod.mk.inj (Option.some.inj hact)
  apply hk
  apply h.setRing
  rw [← h.out]
  rfl

theorem reset_step (h : Facts cfg c L₀ L [] accepted snt events) {k : Unit → Prog C κ δ α}
    (hk : ∀ L', Facts cfg c L₀ L' [] accepted snt events → Ends cfg c early L₀ Q (k ()) L') :
    Ends cfg c early L₀ Q (call (.reset c .outBuffer) >>= k) L := by
  refine ⟨h.permitted (by simp [target]) (by simp), ?_⟩
  intro ch r L' hact
  obtain ⟨-, rfl⟩ := Prod.mk.inj (Option.some.inj hact)
  exact hk _ (h.setRing rfl)

theorem peekAll_step (h : Facts cfg c L₀ L out accepted snt events) {k : Bytes × Bytes → Prog C κ δ α}
    (hk : ∀ L' first last, Facts cfg c L₀ L' out accepted snt events → first ++ last = out →
      Ends cfg c early L₀ Q (k (first, last)) L') :
    Ends cfg c early L₀ Q (call (.peekAll c .outBuffer) >>= k) L := by
  refine ⟨h.permitted (by simp [target]) (by simp), ?_⟩
  intro wrap r L' hact
  have hf := h.quietly (act_quietly cfg c (show Quiet cfg c (.peekAll c .outBuffer) from rfl) hact)
  obtain ⟨rfl, -⟩ := Prod.mk.inj (Option.some.inj hact)
  apply hk L' _ _ hf
  rw [← h.out]
  exact RingBuffer.peekAll_append _ _

/-- A write to the socket takes any initial part of the data, or fails. -/
theorem unixWrite_step (h : Facts cfg c L₀ L out accepted snt events) (data : Bytes)
    {k : Int × Option Errno → Prog C κ δ α}
    (hcount : ∀ L' (n : Nat), n ≤ data.length →
      Facts cfg c L₀ L' out (accepted ++ data.take n) snt events → Ends cfg c early L₀ Q (k (n, none)) L')
    (herror : ∀ L' e, Facts cfg c L₀ L' out accepted snt events → Ends cfg c early L₀ Q (k (-1, some e)) L') :
    Ends cfg c early L₀ Q (call (.unixWrite c (cfg.fd c) data) >>= k) L := by
  refine ⟨h.permitted (by simp [target]) (by simp), ?_⟩
  intro result r L' hact
  have hwrite : ∀ a ∈ [(.syscall .write (cfg.fd c) : Act κ)], Ordinary (cfg.fd c) a := by simp [Ordinary, Busy]
  obtain ⟨n, -, hn, rfl, rfl⟩ | ⟨e, -, rfl, rfl⟩ := act_unixWrite cfg hact
  · refine hcount _ n hn (h.modify' [.syscall .write (cfg.fd c)] rfl hwrite rfl h.out ?_ rfl)
    rw [← h.accepted]
  · exact herror _ e (h.modify' [.syscall .write (cfg.fd c)] rfl hwrite rfl h.out h.accepted rfl)

/-- After a change of interest the new one is registered, unless the call
failed, which the history then shows. -/
theorem epollMod_step (h : Facts cfg c L₀ L out accepted snt events) (new : UInt32)
    {k : Bool → Prog C κ δ α}
    (hk : ∀ L' ok, Facts cfg c L₀ L' out accepted snt new → Ends cfg c early L₀ Q (k ok) L') :
    Ends cfg c early L₀ Q (call (.epollCtl c .mod (cfg.fd c) new) >>= k) L := by
  refine ⟨h.permitted (by simp [target]) (by simp), ?_⟩
  intro ok r L' hact
  apply hk
  have hord : ∀ a ∈ ([.syscall (.epollCtl .mod ok) (cfg.fd c)] : List (Act κ)), Ordinary (cfg.fd c) a := by
    intro a ha
    cases List.mem_singleton.mp ha
    exact ⟨⟨rfl, by simp⟩, by rintro f ⟨⟩⟩
  have hnote : Facts cfg c L₀ (L.modify c (·.note (.syscall (.epollCtl .mod ok) (cfg.fd c))))
      out accepted snt events := h.modify' _ rfl hord rfl h.out h.accepted rfl
  obtain ⟨rfl, -, rfl⟩ | ⟨rfl, -, rfl⟩ := act_epollCtl cfg hact
  · refine { hnote with interest := ?_ }
    intro hok
    have hm : Act.syscall (.epollCtl .mod false) (cfg.fd c) ∈ ((L.modify c (·.note
        (.syscall (.epollCtl .mod false) (cfg.fd c)))).conns c).history := by
      simp [Local.modify, Conn.note]
    exact absurd (hok _ hm) (by simp [succeeded])
  · refine ⟨hnote.frame.setInterest _, hnote.connected, hnote.live, hnote.own, hnote.listed, hnote.posted,
      hnote.out, hnote.accepted, hnote.sent, ?_⟩
    intro _
    simp [setInterest]

/-- Code that only reads, parses and calls back keeps all facts. -/
theorem quiet_ends (h : Facts cfg c L₀ L out accepted snt events) {β : Type} {p : Prog C κ δ β}
    (hp : p.Uses (Quiet cfg c)) {k : β → Prog C κ δ α}
    (hk : ∀ r L', Facts cfg c L₀ L' out accepted snt events → Ends cfg c early L₀ Q (k r) L') :
    Ends cfg c early L₀ Q (p >>= k) L := by
  apply Always.bind
  have hall := always_quietly cfg c hp (L := L) (J := Permitted cfg c early L₀) ?_
  · apply hall.mono
    intro r L' hq
    exact hk r L' (h.quietly hq)
  · intro o L' ho hq
    apply (h.quietly hq).permitted
    · intro d fd ht
      cases o <;> simp only [Quiet] at ho <;> cases ht
      exact ho
    · rintro t rfl
      exact ho

theorem quiet_step (h : Facts cfg c L₀ L out accepted snt events) (o : Op C κ δ) (ho : Quiet cfg c o)
    {k : Res o → Prog C κ δ α}
    (hk : ∀ r L', Facts cfg c L₀ L' out accepted snt events → Ends cfg c early L₀ Q (k r) L') :
    Ends cfg c early L₀ Q (call o >>= k) L :=
  quiet_ends h (p := call o) ⟨ho, fun _ => trivial⟩ hk

end Steps

section Close

variable [DecidableEq C] {early : Prop} {L₀ L : Local C σ κ δ} {p : Phase}

structure Closing (cfg : Config C σ κ δ) (c : C) (L₀ L : Local C σ κ δ) (p : Phase) : Prop where
  frame : Frame cfg c L₀ L
  connected : (L.conns c).connected = false
  phase : phaseOf cfg c L = p
  stream : (L.conns c).accepted <+: sent (L.conns c)

omit [DecidableEq C] in
theorem Closing.permitted (h : Closing cfg c L₀ L p) (hs : p.Sound early) {o : Op C κ δ}
    (ho : ∀ d fd, target o = some (d, fd) → d = c ∧ fd = cfg.fd c ∧ p.FdOpen)
    (ha : admissible o L = true) (hp : ∀ t, o ≠ .appendTask t) : Permitted cfg c early L₀ o L :=
  ⟨h.frame, h.phase ▸ hs, h.phase ▸ ho, ha, hp⟩

theorem Closing.modify (h : Closing cfg c L₀ L p) (f : Conn σ κ → Conn σ κ) (acts : List (Act κ))
    (hhist : (f (L.conns c)).history = (L.conns c).history ++ acts)
    (hconn : (f (L.conns c)).connected = (L.conns c).connected)
    (hacc : (f (L.conns c)).accepted = (L.conns c).accepted) :
    Closing cfg c L₀ (L.modify c f) (acts.foldl (Phase.next (cfg.fd c)) p) := by
  have hself : (L.modify c f).conns c = f (L.conns c) := modify_self L f
  refine ⟨h.frame.trans (frame_modify L f), ?_, ?_, ?_⟩
  · rw [hself, hconn]
    exact h.connected
  · rw [phaseOf, hself, hhist, phase_append, ← h.phase]
    rfl
  · rw [hself, hacc, sent_append _ _ acts hhist]
    exact h.stream.trans (List.prefix_append _ _)

omit [DecidableEq C] in
theorem Closing.setInterest (h : Closing cfg c L₀ L p) (events : Option UInt32) :
    Closing cfg c L₀ (setInterest L (cfg.fd c) events) p :=
  ⟨h.frame.setInterest events, h.connected, h.phase, h.stream⟩

/-- The phases handleClose goes through from an open connection, or from one
that has not been registered. -/
theorem closing_path (fd : Fd) (hp : p = .live ∨ p = .new ∧ early) :
    ∃ q, (∀ ok, p.next fd (.syscall (.epollCtl .del ok) fd : Act κ) = q) ∧ p.FdOpen ∧
      p.Sound early ∧ q.Sound early ∧ q.next fd (.onClose : Act κ) = .closing p.met ∧ (p.met = true ∨ early) := by
  rcases hp with rfl | ⟨rfl, he⟩
  · exact ⟨.live, by simp [Phase.next], trivial, trivial, trivial, rfl, .inl rfl⟩
  · exact ⟨.leaving, by simp [Phase.next], trivial, trivial, he, rfl, .inr he⟩

theorem handleClose_ends (hframe : Frame cfg c L₀ L) (hconn : (L.conns c).connected = true)
    (hphase : phaseOf cfg c L = .live ∨ phaseOf cfg c L = .new ∧ early)
    (hstream : (L.conns c).accepted <+: sent (L.conns c)) :
    Ends cfg c early L₀ (fun _ L' => (Frame cfg c L₀ L' ∧ Closed cfg c early L' ∧ entry L' (cfg.fd c) = none) ∧
      phaseOf cfg c L' = .dead (phaseOf cfg c L).met) (handleClose c (cfg.fd c)) L := by
  obtain ⟨q, hdel, hopen, hsound, hsoundq, hon, hmet⟩ := closing_path (cfg.fd c) hphase
  refine ⟨⟨hframe, hsound, by simp [target], rfl, by simp⟩, ?_⟩
  intro ch r L₁ hact
  cases hact
  rw [hconn]
  refine ⟨⟨hframe, hsound, by simp [target], rfl, by simp⟩, ?_⟩
  intro ch r L₁ hact
  cases hact
  have hc : Closing cfg c L₀ (L.modify c fun x => { x with connected := false }) (phaseOf cfg c L) := by
    refine ⟨hframe.trans (frame_modify L _), ?_, ?_, ?_⟩
    · rw [modify_self]
    · rw [phaseOf, modify_self]
      rfl
    · rw [modify_self]
      exact hstream
  refine ⟨hc.permitted hsound (by simpa [target] using hopen) rfl (by simp), ?_⟩
  intro (ok : Bool) r L₁ hact
  have hc : Closing cfg c L₀ L₁ q := by
    have hnote := hc.modify (·.note (.syscall (.epollCtl .del ok) (cfg.fd c))) _ rfl rfl rfl
    rw [List.foldl_cons, hdel, List.foldl_nil] at hnote
    obtain ⟨rfl, -, rfl⟩ | ⟨rfl, -, rfl⟩ := act_epollCtl cfg hact
    · exact hnote
    · exact hnote.setInterest _
  refine ⟨hc.permitted hsoundq (by simp [target]) rfl (by simp), ?_⟩
  intro ch r L₂ hact
  cases hact
  have hnone := entry_delete L₁ (cfg.fd c)
  have hc : Closing cfg c L₀ _ q := ⟨hc.frame.delete, hc.connected, hc.phase, hc.stream⟩
  refine ⟨hc.permitted hsoundq (by simp [target]) rfl (by simp), ?_⟩
  intro ch r L₂ hact
  cases hact
  -- From here on only the history and the kernel's table change.
  have hc : Closing cfg c L₀ _ q := ⟨hc.frame.count (L₁.counted + -1), hc.connected, hc.phase, hc.stream⟩
  refine ⟨hc.permitted hsoundq (by simp [target]) rfl (by simp), ?_⟩
  intro ch r L₂ hact
  cases hact
  have hc := hc.modify (fun x => { x.note .onClose with user := cfg.callBack.onClose x.user })
    [.onClose] rfl rfl rfl
  rw [List.foldl_cons, List.foldl_nil, hon] at hc
  refine ⟨hc.permitted hmet (by simp [target, Phase.FdOpen]) rfl (by simp), ?_⟩
  intro ch r L₂ hact
  cases hact
  have hc := (hc.modify (·.note (.syscall .close (cfg.fd c))) _ rfl rfl rfl).setInterest none
  rw [List.foldl_cons, List.foldl_nil, Phase.next, if_pos rfl] at hc
  refine ⟨hc.permitted hmet (by simp [target]) rfl (by simp), ?_⟩
  intro ch r L₂ hact
  cases hact
  have hc := hc.modify (·.note (.put .inBuffer)) _ rfl rfl rfl
  refine ⟨hc.permitted hmet (by simp [target]) rfl (by simp), ?_⟩
  intro ch r L₂ hact
  cases hact
  have hc := hc.modify (·.note (.put .outBuffer)) _ rfl rfl rfl
  refine ⟨hc.permitted hmet (by simp [target]) rfl (by simp), ?_⟩
  intro ch r L₂ hact
  cases hact
  have hc := hc.modify (fun x => { x with timer := false }) [] (List.append_nil _).symm rfl rfl
  refine ⟨⟨hc.frame, ⟨hc.connected, ?_, hc.stream⟩, hnone⟩, hc.phase⟩
  rw [hc.phase]
  cases hm : (phaseOf cfg c L).met with
  | true => exact .inl rfl
  | false => exact .inr ⟨rfl, hmet.resolve_left (by simp [hm])⟩

end Close

section Standing

variable {early : Prop} {L₀ L L' : Local C σ κ δ}

theorem Open.self (h : Open cfg c L₀ L) : Open cfg c L L := by
  obtain ⟨out, accepted, hf⟩ := h
  exact ⟨out, accepted, { hf with frame := .refl cfg c L }⟩

theorem Open.live (h : Open cfg c L₀ L) : phaseOf cfg c L = .live := by
  obtain ⟨out, accepted, hf⟩ := h
  exact hf.live

theorem Open.connected (h : Open cfg c L₀ L) : (L.conns c).connected = true := by
  obtain ⟨out, accepted, hf⟩ := h
  exact hf.connected

theorem Open.met (h : Open cfg c L₀ L) : .onConnect ∈ (L.conns c).history := by
  have hlive : phase (cfg.fd c) (L.conns c).history = .live := h.live
  apply (met_iff (by rw [hlive]; simp)).mp
  rw [hlive]
  rfl

theorem Closed.sound (h : Closed cfg c early L) : (phaseOf cfg c L).Sound early := by
  rcases h.dead with hd | ⟨hd, he⟩
  · rw [hd]
    exact .inl rfl
  · rw [hd]
    exact .inr he

/-- Work on one connection leaves another open one open if their descriptors differ. -/
theorem Open.frame {d : C} (h : Open cfg d L L) (hframe : Frame cfg c L L') (hd : d ≠ c)
    (hfd : cfg.fd d ≠ cfg.fd c) : Open cfg d L' L' := by
  obtain ⟨out, accepted, hf⟩ := h
  have hconn := hframe.others d hd
  have hentry := hframe.entry _ hfd
  have hsome := hframe.isSome
  have hreg : Registered cfg d L' ↔ Registered cfg d L := by rw [Registered, hconn, Registered]
  refine ⟨out, accepted, .refl cfg d L', ?_, ?_, ?_, ?_, ?_, ?_, ?_, ?_, ?_⟩
  · rw [hconn]
    exact hf.connected
  · rw [phaseOf, hconn]
    exact hf.live
  · intro e he
    exact hf.own e (hentry ▸ he)
  · intro hr hs
    rw [hentry]
    exact hf.listed (hreg.mp hr) (hsome ▸ hs)
  · intro hr hs
    rw [hframe.posted]
    apply hf.posted (hreg.mp hr)
    rw [hs] at hsome
    simpa using hsome.symm
  · rw [hconn]
    exact hf.out
  · rw [hconn]
    exact hf.accepted
  · rw [hconn]
    exact hf.sent
  · rw [hconn, hframe.interest _ hfd]
    exact hf.interest

theorem Closed.frame {d : C} (h : Closed cfg d early L) (hframe : Frame cfg c L L') (hd : d ≠ c) :
    Closed cfg d early L' := by
  have hconn := hframe.others d hd
  refine ⟨hconn ▸ h.connected, ?_, hconn ▸ h.stream⟩
  rw [phaseOf, hconn]
  exact h.dead

end Standing

end Gev.Connection.Writing
