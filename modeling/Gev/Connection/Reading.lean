import Gev.Connection.Code

namespace Gev.Connection.Reading

open Lib.Atomic Lib.Slices Lib.RingBuffers State Code

variable {C σ κ δ : Type} [DecidableEq C] (cfg : Config C σ κ δ) (c : C)

/-- The operations by which a connection reads, parses and calls back: they
leave its backlog and registration and every other connection alone. -/
def Quiet : Op C κ δ → Prop
  | .connectedGet d | .markActive d | .isEmpty d _ | .peekAll d _ | .withData d _ | .swapLengths d
  | .packet d _ | .onMessage d _ _ | .sendInLoopFinish d => d = c
  | .write d b _ | .reset d b | .unPacket d b => d = c ∧ b ≠ .outBuffer
  | .unixRead d fd _ => d = c ∧ fd = cfg.fd c
  | .packetBuf | .append _ _ | .contents _ | .diverge => True
  | _ => False

def Parsing : Op C κ δ → Prop
  | .isEmpty d _ | .withData d _ | .packet d _ | .onMessage d _ _ => d = c
  | .peekAll d b => d = c ∧ b = .buffer
  | .write d b _ | .unPacket d b => d = c ∧ b ≠ .outBuffer
  | .append _ _ | .contents _ | .diverge => True
  | _ => False

def QuietAct (connected : Bool) : Act κ → Prop
  | .touch _ | .sendInLoopFinish => True
  | .onMessage _ _ b => b = connected
  | .syscall .read fd => fd = cfg.fd c
  | _ => False

structure Quietly (L L' : Local C σ κ δ) : Prop where
  sockets : L'.sockets = L.sockets
  interest : L'.interest = L.interest
  posted : L'.posted = L.posted
  others : ∀ d, d ≠ c → L'.conns d = L.conns d
  connected : (L'.conns c).connected = (L.conns c).connected
  outBuffer : (L'.conns c).outBuffer = (L.conns c).outBuffer
  accepted : (L'.conns c).accepted = (L.conns c).accepted
  history : ∃ acts, (L'.conns c).history = (L.conns c).history ++ acts ∧
    ∀ a ∈ acts, QuietAct cfg c (L.conns c).connected a

omit [DecidableEq C] in
theorem Quietly.refl (L : Local C σ κ δ) : Quietly cfg c L L :=
  ⟨rfl, rfl, rfl, fun _ _ => rfl, rfl, rfl, rfl, [], by simp, by simp⟩

omit [DecidableEq C] in
theorem Quietly.trans {L L' L'' : Local C σ κ δ} (h : Quietly cfg c L L') (h' : Quietly cfg c L' L'') :
    Quietly cfg c L L'' := by
  obtain ⟨acts, he, ha⟩ := h.history
  obtain ⟨acts', he', ha'⟩ := h'.history
  refine ⟨h'.sockets.trans h.sockets, h'.interest.trans h.interest, h'.posted.trans h.posted,
    fun d hd => (h'.others d hd).trans (h.others d hd), h'.connected.trans h.connected,
    h'.outBuffer.trans h.outBuffer, h'.accepted.trans h.accepted, acts ++ acts', ?_, ?_⟩
  · rw [he', he, List.append_assoc]
  · intro a hm
    rcases List.mem_append.mp hm with hm | hm
    · exact ha a hm
    · exact h.connected ▸ ha' a hm

omit [DecidableEq C] in
theorem Quietly.withHeap {L L' : Local C σ κ δ} (h : Quietly cfg c L L') (heap : Heap UInt8) :
    Quietly cfg c L { L' with heap := heap } :=
  ⟨h.sockets, h.interest, h.posted, h.others, h.connected, h.outBuffer, h.accepted, h.history⟩

theorem quietly_modify (L : Local C σ κ δ) (f : Conn σ κ → Conn σ κ)
    (hconn : (f (L.conns c)).connected = (L.conns c).connected)
    (hout : (f (L.conns c)).outBuffer = (L.conns c).outBuffer)
    (hacc : (f (L.conns c)).accepted = (L.conns c).accepted)
    (hhist : ∃ acts, (f (L.conns c)).history = (L.conns c).history ++ acts ∧
      ∀ a ∈ acts, QuietAct cfg c (L.conns c).connected a) :
    Quietly cfg c L (L.modify c f) := by
  refine ⟨rfl, rfl, rfl, ?_, ?_, ?_, ?_, ?_⟩
  · intro d hd
    simp [Local.modify, hd]
  · simpa [Local.modify] using hconn
  · simpa [Local.modify] using hout
  · simpa [Local.modify] using hacc
  · simpa [Local.modify] using hhist

omit [DecidableEq C] in
theorem touch_quiet (x : Conn σ κ) (b : Buffer) : ∃ acts, (x.touch b).history = x.history ++ acts ∧
    ∀ a ∈ acts, QuietAct cfg c x.connected a := by
  refine ⟨_, rfl, ?_⟩
  split <;> simp [QuietAct]

omit [DecidableEq C] in
theorem note_quiet (x : Conn σ κ) (a : Act κ) (ha : QuietAct cfg c x.connected a) :
    ∃ acts, (x.note a).history = x.history ++ acts ∧ ∀ b ∈ acts, QuietAct cfg c x.connected b :=
  ⟨[a], rfl, by simpa using ha⟩

/-- The inversion of the quiet operations: every result they can have keeps
what the other parts of the loop rely on. -/
theorem act_quietly {o : Op C κ δ} (ho : Quiet cfg c o) {ch : (semantics cfg).Choice o}
    {L L' : Local C σ κ δ} {r : Res o} (h : (semantics cfg).act o ch L = some (r, L')) :
    Quietly cfg c L L' := by
  change act cfg o ch L = some (r, L') at h
  cases o <;> simp only [Quiet] at ho
  case connectedGet | packet | packetBuf | contents =>
    obtain ⟨-, rfl⟩ := Prod.mk.inj (Option.some.inj h)
    exact .refl cfg _ L
  case diverge => cases h
  case append s data =>
    obtain ⟨-, rfl⟩ := Prod.mk.inj (Option.some.inj h)
    exact (Quietly.refl cfg c L).withHeap cfg c _
  case markActive | withData =>
    subst ho
    obtain ⟨-, rfl⟩ := Prod.mk.inj (Option.some.inj h)
    exact quietly_modify cfg _ L _ rfl rfl rfl ⟨[], by simp, by simp⟩
  case isEmpty b | peekAll b =>
    subst ho
    obtain ⟨-, rfl⟩ := Prod.mk.inj (Option.some.inj h)
    exact quietly_modify cfg _ L _ rfl rfl rfl (touch_quiet cfg _ _ b)
  case write b data | reset b | unPacket b =>
    obtain ⟨rfl, hb⟩ := ho
    obtain ⟨-, rfl⟩ := Prod.mk.inj (Option.some.inj h)
    exact quietly_modify cfg _ L _ rfl (if_neg hb) rfl (touch_quiet cfg _ _ b)
  case swapLengths =>
    subst ho
    obtain ⟨-, rfl⟩ := Prod.mk.inj (Option.some.inj h)
    refine quietly_modify cfg _ L _ rfl rfl rfl ⟨[.touch .inBuffer, .touch .outBuffer], ?_, ?_⟩
    · simp [Conn.touch]
    · simp [QuietAct]
  case onMessage ctx data =>
    subst ho
    obtain ⟨-, rfl⟩ := Prod.mk.inj (Option.some.inj h)
    exact quietly_modify cfg _ L _ rfl rfl rfl (note_quiet cfg _ _ _ rfl)
  case sendInLoopFinish =>
    subst ho
    obtain ⟨-, rfl⟩ := Prod.mk.inj (Option.some.inj h)
    exact quietly_modify cfg _ L _ rfl rfl rfl (note_quiet cfg _ _ _ trivial)
  case unixRead d fd s =>
    obtain ⟨rfl, rfl⟩ := ho
    have hnote := quietly_modify cfg d L (·.note (.syscall .read (cfg.fd d)))
      rfl rfl rfl (note_quiet cfg _ _ _ rfl)
    obtain ⟨data, -, -, -, rfl⟩ | ⟨e, -, -, rfl⟩ := act_unixRead cfg h
    · exact hnote.withHeap cfg _ _
    · exact hnote

theorem always_quietly {α : Type} {p : Prog C κ δ α} (hp : p.Uses (Quiet cfg c)) {L : Local C σ κ δ}
    {J : Op C κ δ → Local C σ κ δ → Prop} (hJ : ∀ o L', Quiet cfg c o → Quietly cfg c L L' → J o L') :
    Always (semantics cfg) J (fun _ => Quietly cfg c L) p L :=
  Always.of_uses hp hJ (fun _ ho _ _ _ _ hq h => hq.trans cfg c (act_quietly cfg c ho h)) (.refl cfg c L)

omit [DecidableEq C] in
theorem parses_handlerProtocol (b : Buffer) (hb : b ≠ .outBuffer) (fuel : Nat) (tmpBuffer : Slice) :
    (handlerProtocol c b fuel tmpBuffer : Prog C κ δ Slice).Uses (Parsing c) := by
  induction fuel generalizing tmpBuffer with
  | zero => exact ⟨trivial, fun r => nomatch r⟩
  | succ fuel ih =>
      rw [handlerProtocol, call_bind]
      refine ⟨⟨rfl, hb⟩, ?_⟩
      rintro ⟨ctx, receivedData⟩
      dsimp only
      split
      next _ =>
        refine ⟨rfl, ?_⟩
        intro sendData
        cases sendData with
        | none => exact ih tmpBuffer
        | some d => exact ⟨rfl, fun packed => ⟨trivial, fun s => ih s⟩⟩
      next _ => trivial

omit [DecidableEq C] in
theorem parses_parsePacket (fuel : Nat) (buf : Slice) (n : Nat) :
    (parsePacket fuel c buf n : Prog C κ δ Slice).Uses (Parsing c) := by
  refine ⟨rfl, ?_⟩
  intro empty
  cases empty with
  | true =>
      refine ⟨rfl, fun _ => ?_⟩
      apply Program.Uses.bind (parses_handlerProtocol c .buffer (by decide) fuel _)
      intro replies
      refine ⟨rfl, ?_⟩
      intro empty
      cases empty with
      | true => trivial
      | false => exact ⟨⟨rfl, rfl⟩, fun _ => ⟨⟨rfl, by decide⟩, fun _ => trivial⟩⟩
  | false =>
      exact ⟨trivial, fun _ => ⟨⟨rfl, by decide⟩, fun _ =>
        parses_handlerProtocol c .inBuffer (by decide) fuel _⟩⟩

omit [DecidableEq C] in
theorem Parsing.quiet {o : Op C κ δ} (h : Parsing c o) : Quiet cfg c o := by
  cases o <;> simp only [Parsing] at h <;> first | exact h | exact h.1

omit [DecidableEq C] in
theorem uses_parsePacket (fuel : Nat) (buf : Slice) (n : Nat) :
    (parsePacket fuel c buf n : Prog C κ δ Slice).Uses (Quiet cfg c) :=
  (parses_parsePacket c fuel buf n).mono fun _ => Parsing.quiet cfg c

end Gev.Connection.Reading
