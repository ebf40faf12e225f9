import Gev.Connection.Writing

namespace Gev.Connection.Output

open Lib.Atomic Lib.Slices Lib.RingBuffers State Code Reading History Writing

variable {C σ κ δ : Type} [DecidableEq C] {cfg : Config C σ κ δ} {c : C} {early : Prop}
variable {L₀ L : Local C σ κ δ} {out accepted snt : Bytes} {events : UInt32}

variable (cfg c early L₀) in
/-- What holds after a function that reports whether it closed the connection. -/
def Settled : Bool → Local C σ κ δ → Prop
  | true, L => Frame cfg c L₀ L ∧ Closed cfg c early L ∧ entry L (cfg.fd c) = none
  | false, L => Open cfg c L₀ L

theorem handleClose_settles (h : Facts cfg c L₀ L out accepted snt events) (hpre : accepted <+: snt) :
    Ends cfg c early L₀ (fun _ => Settled cfg c early L₀ true) (handleClose c (cfg.fd c)) L := by
  apply (handleClose_ends h.frame h.connected (.inl h.live) (h.accepted ▸ h.sent ▸ hpre)).mono
  intro _ L₁ hs
  exact hs.1

theorem close_ends (h : Facts cfg c L₀ L out accepted snt events) (hpre : accepted <+: snt) :
    Ends cfg c early L₀ (Settled cfg c early L₀) (do handleClose c (cfg.fd c); return true) L :=
  Always.bind (handleClose_settles h hpre)

theorem sendInLoopRest_ends (h : Facts cfg c L₀ L out accepted (accepted ++ out) readEvent) :
    Ends cfg c early L₀ (Settled cfg c early L₀) (sendInLoopRest cfg c) L := by
  apply isEmpty_step h
  intro L₁ hf
  by_cases hout : out = []
  · rw [show out.isEmpty = true by simpa using hout]
    exact ⟨out, accepted, by simpa [interestFor, hout] using hf⟩
  · rw [show out.isEmpty = false by simpa using hout]
    apply epollMod_step hf
    intro L₂ ok hf
    exact ⟨out, accepted, by simpa [interestFor, hout] using hf⟩

theorem sendInLoop_ends (h : Open cfg c L₀ L) (data : Bytes) :
    Ends cfg c early L₀ (Settled cfg c early L₀) (sendInLoop cfg c data) L := by
  obtain ⟨out, accepted, hf⟩ := h
  simp only [sendInLoop]
  apply sendInLoop_step hf
  intro L₁ hf
  apply isEmpty_step hf
  intro L₁ hf
  by_cases hout : out = []
  · subst hout
    simp only [List.append_nil, interestFor, if_true] at hf
    apply unixWrite_step hf
    · intro L₂ n hn hf
      dsimp only
      rw [if_neg (by simp)]
      -- A write that took nothing, a part or all leaves the rest to the backlog.
      by_cases h0 : n = 0
      · subst h0
        rw [if_pos (by simp)]
        apply write_step hf
        intro L₃ hf
        rw [List.take_zero, List.append_nil, List.nil_append] at hf
        exact sendInLoopRest_ends hf
      · rw [if_neg (by omega)]
        by_cases hpart : n < data.length
        · rw [if_pos (by omega)]
          apply write_step hf
          intro L₃ hf
          have hall : accepted ++ data.take n ++ data.drop n = accepted ++ data := by
            rw [List.append_assoc, List.take_append_drop]
          rw [List.nil_append, Int.toNat_natCast, ← hall] at hf
          exact sendInLoopRest_ends hf
        · rw [if_neg (by omega)]
          rw [List.take_of_length_le (by omega)] at hf
          apply sendInLoopRest_ends
          rw [List.append_nil]
          exact hf
    · intro L₂ e hf
      dsimp only
      cases e with
      | EAGAIN =>
          rw [if_neg (by simp), if_pos (by simp)]
          apply write_step hf
          intro L₃ hf
          exact sendInLoopRest_ends hf
      | other =>
          rw [if_pos (by simp)]
          exact close_ends hf (List.prefix_append _ _)
  · rw [show out.isEmpty = false by simpa using hout]
    apply write_step hf
    intro L₁ hf
    refine ⟨out ++ data, accepted, ?_⟩
    simpa [interestFor, hout] using hf

theorem interestFor_eq {a b : Bytes} (ha : a ≠ []) (hb : b ≠ []) : interestFor a = interestFor b := by
  rw [interestFor, if_neg ha, interestFor, if_neg hb]

theorem handleWriteRest_ends {back : Bytes} (hback : back ≠ [])
    (h : Facts cfg c L₀ L out accepted (accepted ++ out) (interestFor back)) :
    Ends cfg c early L₀ (Settled cfg c early L₀) (handleWriteRest c (cfg.fd c)) L := by
  apply isEmpty_step h
  intro L₁ hf
  by_cases he : out = []
  · rw [show out.isEmpty = true by simpa using he]
    apply epollMod_step hf
    intro L₂ ok hf
    exact ⟨out, accepted, by simpa [interestFor, he] using hf⟩
  · rw [show out.isEmpty = false by simpa using he]
    exact ⟨out, accepted, interestFor_eq hback he ▸ hf⟩

/-- What follows a failed write of handleWrite. -/
theorem handleWrite_error_ends {back : Bytes} (hback : back ≠ []) (hout : out ≠ []) (e : Errno)
    (h : Facts cfg c L₀ L out accepted (accepted ++ out) (interestFor back)) :
    Ends cfg c early L₀ (Settled cfg c early L₀) (if some e = some Errno.EAGAIN then return false
      else do handleClose c (cfg.fd c); return true) L := by
  cases e with
  | EAGAIN =>
      rw [if_pos rfl]
      exact ⟨out, accepted, interestFor_eq hback hout ▸ h⟩
  | other =>
      rw [if_neg (by simp)]
      exact close_ends h (List.prefix_append _ _)

theorem handleWrite_ends (hout : out ≠ [])
    (h : Facts cfg c L₀ L out accepted (accepted ++ out) (interestFor out)) :
    Ends cfg c early L₀ (Settled cfg c early L₀) (handleWrite cfg c (cfg.fd c)) L := by
  simp only [handleWrite]
  apply peekAll_step h
  intro L₁ first last hf hsplit
  apply unixWrite_step hf
  · intro L₂ n hn hf
    dsimp only at hn hf ⊢
    rw [if_neg (by simp)]
    apply retrieve_step hf
    intro L₃ hf
    have hrest : accepted ++ first.take n ++ out.drop n = accepted ++ out := by
      rw [← hsplit, List.drop_append_of_le_length hn, List.append_assoc, ← List.append_assoc (first.take n),
        List.take_append_drop]
    rw [Int.toNat_natCast, ← hrest] at hf
    by_cases hboth : (n : Int) = first.length ∧ 0 < last.length
    · rw [if_pos hboth]
      have hlast : out.drop n = last := by
        rw [← hsplit, show n = first.length by omega, List.drop_left]
      have hne : last ≠ [] := List.ne_nil_of_length_pos hboth.2
      rw [hlast] at hf
      apply unixWrite_step hf
      · intro L₄ m hm hf
        dsimp only
        rw [if_neg (by simp)]
        apply retrieve_step hf
        intro L₅ hf
        have hall : accepted ++ first.take n ++ last.take m ++ last.drop m =
            accepted ++ first.take n ++ last := by
          rw [List.append_assoc _ (last.take m), List.take_append_drop]
        rw [Int.toNat_natCast, ← hall] at hf
        exact handleWriteRest_ends hout hf
      · intro L₄ e hf
        dsimp only
        rw [if_pos (by simp)]
        exact handleWrite_error_ends hout hne e hf
    · rw [if_neg hboth]
      exact handleWriteRest_ends hout hf
  · intro L₂ e hf
    dsimp only
    rw [if_pos (by simp)]
    exact handleWrite_error_ends hout hout e hf

theorem handleRead_ends (fuel : Nat) (h : Open cfg c L₀ L) :
    Ends cfg c early L₀ (Settled cfg c early L₀) (handleRead cfg fuel c (cfg.fd c)) L := by
  obtain ⟨out, accepted, hf⟩ := h
  simp only [handleRead]
  apply quiet_step hf .packetBuf trivial
  intro buf L₁ hf
  apply quiet_step hf (.unixRead c (cfg.fd c) buf) ⟨rfl, rfl⟩
  rintro ⟨n, err⟩ L₂ hf
  dsimp only
  by_cases hend : n = 0 ∨ err ≠ none
  · rw [if_pos hend]
    by_cases hagain : err ≠ some .EAGAIN
    · rw [if_pos hagain]
      exact close_ends hf (List.prefix_append _ _)
    · rw [if_neg hagain]
      exact ⟨out, accepted, hf⟩
  · rw [if_neg hend]
    apply quiet_ends hf (uses_parsePacket cfg c fuel buf n.toNat)
    intro replies L₃ hf
    by_cases hlen : replies.len ≠ 0
    · rw [if_pos hlen]
      apply quiet_step hf (.contents replies) trivial
      intro data L₄ hf
      exact sendInLoop_ends ⟨out, accepted, hf⟩ data
    · rw [if_neg hlen]
      exact ⟨out, accepted, hf⟩

theorem resetIfEmpty_out_ends (h : Open cfg c L₀ L) :
    Ends cfg c early L₀ (Settled cfg c early L₀) (do resetIfEmpty c .outBuffer; return false) L := by
  obtain ⟨out, accepted, hf⟩ := h
  apply isEmpty_step hf
  intro L₁ hf
  by_cases he : out = []
  · subst he
    apply reset_step hf
    intro L₂ hf
    exact ⟨[], accepted, hf⟩
  · rw [show out.isEmpty = false by simpa using he]
    exact ⟨out, accepted, hf⟩

theorem resetIfEmpty_in_ends (h : Open cfg c L₀ L) :
    Ends cfg c early L₀ (Settled cfg c early L₀) (do resetIfEmpty c .inBuffer; return false) L := by
  obtain ⟨out, accepted, hf⟩ := h
  apply quiet_step hf (.isEmpty c .inBuffer) rfl
  intro empty L₁ hf
  cases empty with
  | true =>
      apply quiet_step hf (.reset c .inBuffer) ⟨rfl, by decide⟩
      intro _ L₂ hf
      exact ⟨out, accepted, hf⟩
  | false => exact ⟨out, accepted, hf⟩

/-- The two branches of HandleEvent share their end. -/
theorem unlessClosed_ends {p q : Prog C κ δ Bool} (hp : Ends cfg c early L₀ (Settled cfg c early L₀) p L)
    (hq : ∀ L', Open cfg c L₀ L' → Ends cfg c early L₀ (Settled cfg c early L₀) q L') :
    Ends cfg c early L₀ (Settled cfg c early L₀)
      (do let closed ← p; if closed = true then return true else q) L := by
  apply Always.bind
  apply hp.mono
  intro closed L₁ hs
  cases closed with
  | true => exact hs
  | false => exact hq L₁ hs

theorem handleReady_ends (fuel : Nat) (events : UInt32) (h : Open cfg c L₀ L) :
    Ends cfg c early L₀ (Settled cfg c early L₀) (handleReady cfg fuel c (cfg.fd c) events) L := by
  obtain ⟨out, accepted, hf⟩ := h
  simp only [handleReady]
  apply isEmpty_step hf
  intro L₁ hf
  by_cases hout : out = []
  · rw [show out.isEmpty = true by simpa using hout, if_neg (by simp)]
    split
    next _ => exact unlessClosed_ends (handleRead_ends fuel ⟨out, accepted, hf⟩) (fun L' => resetIfEmpty_in_ends)
    next _ => exact ⟨out, accepted, hf⟩
  · rw [show out.isEmpty = false by simpa using hout, if_pos rfl]
    split
    next _ => exact unlessClosed_ends (handleWrite_ends hout hf) (fun L' => resetIfEmpty_out_ends)
    next _ => exact ⟨out, accepted, hf⟩

variable (cfg c early L₀) in
def Rest (L : Local C σ κ δ) : Prop := ∃ closed, Settled cfg c early L₀ closed L

section Event

variable {P : Local C σ κ δ → Prop} (hclosed : ∀ {L}, Settled cfg c early L₀ true L → P L)
  (hswap : ∀ {L}, Open cfg c L₀ L → Ends cfg c early L₀ (fun _ => P) (call (.swapLengths c)) L)

include hclosed hswap

/-- What holds of a closed connection, and of an open one whose lengths have been swapped, holds after an event. -/
theorem dispatch_of_swap (fuel : Nat) (events : UInt32) (h : Open cfg c L₀ L) :
    Ends cfg c early L₀ (fun _ => P) (do
      if events &&& EventErr ≠ 0 then handleClose c (cfg.fd c)
      else
        let closed ← handleReady cfg fuel c (cfg.fd c) events
        if closed = false then call (.swapLengths c)) L := by
  split
  next _ =>
    obtain ⟨out, accepted, hf⟩ := h
    apply (handleClose_settles hf (List.prefix_append _ _)).mono
    intro _ L₁ hs
    exact hclosed hs
  next _ =>
    apply Always.bind
    apply (handleReady_ends fuel events h).mono
    intro closed L₁ hs
    cases closed with
    | true => exact hclosed hs
    | false => exact hswap hs

theorem handleEvent_of_swap (fuel : Nat) (events : UInt32) (h : Open cfg c L₀ L) :
    Ends cfg c early L₀ (fun _ => P) (handleEvent cfg fuel c (cfg.fd c) events) L := by
  simp only [handleEvent]
  split
  next _ =>
    obtain ⟨out, accepted, hf⟩ := h
    apply quiet_step hf (.markActive c) rfl
    intro _ L₁ hf
    exact dispatch_of_swap hclosed hswap fuel events ⟨out, accepted, hf⟩
  next _ => exact dispatch_of_swap hclosed hswap fuel events h

theorem handlerEvent_of_swap (fuel : Nat) (events : UInt32) (h : Open cfg c L₀ L)
    (he : entry L (cfg.fd c) = some c) :
    Ends cfg c early L₀ (fun _ => P) (handlerEvent cfg fuel (cfg.fd c) events) L := by
  obtain ⟨out, accepted, hf⟩ := h
  refine ⟨hf.permitted (by simp [target]) (by simp), ?_⟩
  intro ch r L₁ hact
  obtain ⟨hr, rfl⟩ := Prod.mk.inj (Option.some.inj hact)
  cases hr.symm.trans he
  exact handleEvent_of_swap hclosed hswap fuel events ⟨out, accepted, hf⟩

end Event

theorem handlerEvent_ends (fuel : Nat) (events : UInt32) (h : Open cfg c L₀ L)
    (he : entry L (cfg.fd c) = some c) :
    Ends cfg c early L₀ (fun _ => Rest cfg c early L₀) (handlerEvent cfg fuel (cfg.fd c) events) L := by
  refine handlerEvent_of_swap (fun hs => ⟨true, hs⟩) ?_ fuel events h he
  rintro L₁ ⟨out, accepted, hf⟩
  apply quiet_step hf (.swapLengths c) rfl (k := .done)
  intro _ L₂ hf
  exact ⟨false, out, accepted, hf⟩

section Idle

variable (cfg) {J : Op C κ δ → Local C σ κ δ → Prop}

/-- An event of a descriptor that is not in the map is dropped. -/
theorem handlerEvent_idle (fuel : Nat) (fd : Fd) (events : UInt32) (hJ : J (.lookup fd) L)
    (he : entry L fd = none) :
    Always (semantics cfg) J (fun _ L' => L' = L) (handlerEvent cfg fuel fd events) L := by
  refine ⟨hJ, ?_⟩
  intro ch r L₁ hact
  obtain ⟨hr, rfl⟩ := Prod.mk.inj (Option.some.inj hact)
  cases hr.symm.trans he
  rfl

/-- Tasks of a closed connection find the flag down. -/
theorem sendTask_idle (data : δ) (finish : Bool) (hJ : J (.connectedGet c) L)
    (hconn : (L.conns c).connected = false) :
    Always (semantics cfg) J (fun _ L' => L' = L) (taskBody cfg (.send c data finish)) L := by
  refine ⟨hJ, ?_⟩
  intro ch r L₁ hact
  cases hact
  rw [hconn]
  rfl

theorem closeTask_idle (hJ : J (.connectedGet c) L) (hconn : (L.conns c).connected = false) :
    Always (semantics cfg) J (fun _ L' => L' = L) (taskBody cfg (.close c)) L := by
  refine ⟨hJ, ?_⟩
  intro ch r L₁ hact
  cases hact
  rw [hconn]
  rfl

end Idle

theorem closed_note_finish (h : Closed cfg c early L) :
    Closed cfg c early (L.modify c (·.note .sendInLoopFinish)) := by
  have hself := modify_self (c := c) L (·.note .sendInLoopFinish)
  have hphase : phaseOf cfg c (L.modify c (·.note .sendInLoopFinish)) =
      (phaseOf cfg c L).next (cfg.fd c) (.sendInLoopFinish : Act κ) := by
    rw [phaseOf, hself]
    exact phase_concat _ _ _
  refine ⟨hself ▸ h.connected, ?_, ?_⟩
  · rw [hphase]
    rcases h.dead with hd | ⟨hd, he⟩
    · exact .inl (by rw [hd]; rfl)
    · exact .inr ⟨by rw [hd]; rfl, he⟩
  · rw [hself, sent_append (L.conns c) _ [.sendInLoopFinish] rfl]
    exact h.stream.trans (List.prefix_append _ _)

/-- The hook of a Send runs even when the write closed the connection. -/
theorem sendInLoopFinish_ends {closed : Bool} (h : Settled cfg c early L₀ closed L) :
    Ends cfg c early L₀ (fun _ => Rest cfg c early L₀) (call (.sendInLoopFinish c)) L := by
  cases closed with
  | false =>
      obtain ⟨out, accepted, hf⟩ := h
      apply quiet_step hf (.sendInLoopFinish c) rfl (k := .done)
      intro _ L₁ hf
      exact ⟨false, out, accepted, hf⟩
  | true =>
      obtain ⟨hframe, hclosed, hentry⟩ := h
      refine ⟨⟨hframe, ?_, by simp [target], rfl, by simp⟩, ?_⟩
      · rcases hclosed.dead with hd | ⟨hd, he⟩
        · rw [hd]
          exact .inl rfl
        · rw [hd]
          exact .inr he
      · intro ch r L₁ hact
        cases hact
        exact ⟨true, hframe.trans (frame_modify L _), closed_note_finish hclosed, hentry⟩

theorem sendTask_ends (data : δ) (finish : Bool) (h : Open cfg c L₀ L) :
    Ends cfg c early L₀ (fun _ => Rest cfg c early L₀) (taskBody cfg (.send c data finish)) L := by
  obtain ⟨out, accepted, hf⟩ := h
  refine ⟨hf.permitted (by simp [target]) (by simp), ?_⟩
  intro ch r L₁ hact
  cases hact
  rw [hf.connected]
  apply quiet_step hf (.packet c data) rfl
  intro packed L₁ hf
  apply Always.bind
  apply (sendInLoop_ends ⟨out, accepted, hf⟩ packed).mono
  intro closed L₂ hs
  cases finish with
  | true => exact sendInLoopFinish_ends hs
  | false => exact ⟨closed, hs⟩

section Register

variable (cfg c) in
structure New (L : Local C σ κ δ) : Prop where
  connected : (L.conns c).connected = true
  history : (L.conns c).history = []
  out : (L.conns c).outBuffer.data = []
  accepted : (L.conns c).accepted = []

omit [DecidableEq C] in
theorem New.phase (h : New c L) : phaseOf cfg c L = .new := by
  rw [phaseOf, h.history]
  rfl

omit [DecidableEq C] in
theorem New.frame {d : C} {L' : Local C σ κ δ} (h : New d L) (hframe : Frame cfg c L L') (hd : d ≠ c) : New d L' := by
  have hconn := hframe.others d hd
  exact ⟨hconn ▸ h.connected, hconn ▸ h.history, hconn ▸ h.out, hconn ▸ h.accepted⟩

omit [DecidableEq C] in
/-- A connection is open after its registration, whether epoll_ctl succeeded or not. -/
theorem open_of_registration {ok : Bool} (hframe : Frame cfg c L₀ L) (hconn : (L.conns c).connected = true)
    (hhist : (L.conns c).history = [.onConnect, .syscall (.epollCtl .add ok) (cfg.fd c)])
    (hout : (L.conns c).outBuffer.data = []) (hacc : (L.conns c).accepted = []) (hsome : L.sockets.isSome)
    (hentry : entry L (cfg.fd c) = if ok then some c else none)
    (hinterest : ok = true → L.interest (cfg.fd c) = some readEvent) : Open cfg c L₀ L := by
  refine ⟨[], [], hframe, hconn, ?_, ?_, ?_, ?_, hout, hacc, ?_, ?_⟩
  · rw [phaseOf, hhist]
    simp [phase, Phase.next]
  · intro d hd
    rw [hentry] at hd
    split at hd <;> cases hd
    rfl
  · intro hr _
    rw [Registered, hhist] at hr
    have hok : ok = true := by simpa [eq_comm] using hr
    rw [hentry, if_pos hok]
  · intro _ hs
    rw [hs] at hsome
    cases hsome
  · simp [sent, hhist, List.filterMap_cons, sendData]
  · intro hok
    apply hinterest
    have hm : Act.syscall (.epollCtl .add ok) (cfg.fd c) ∈ (L.conns c).history := by
      rw [hhist]
      simp
    exact hok _ hm

theorem register_ends (hframe : Frame cfg c L₀ L) (h : New c L) :
    Ends cfg c early L₀ (fun _ => Rest cfg c early L₀) (taskBody cfg (.register c)) L := by
  have hnew : phaseOf cfg c L = .new := by rw [phaseOf, h.history]; rfl
  refine ⟨⟨hframe, hnew ▸ trivial, by simp [target], rfl, by simp⟩, ?_⟩
  intro ch r L₁ hact
  cases hact
  have hself := modify_self (c := c) L (fun x => { x.note .onConnect with user := cfg.callBack.onConnect x.user })
  have hframe := hframe.trans
    (frame_modify L (fun x => { x.note .onConnect with user := cfg.callBack.onConnect x.user }))
  generalize L.modify c _ = L₁ at hself hframe
  have hhist : (L₁.conns c).history = [.onConnect] := by rw [hself]; simp [Conn.note, h.history]
  have hlive : phaseOf cfg c L₁ = .live := by rw [phaseOf, hhist]; rfl
  refine ⟨⟨hframe, hlive ▸ trivial, by simp [target], rfl, by simp⟩, ?_⟩
  intro ch r L₂ hact
  obtain ⟨m, hm, hr⟩ := Option.map_eq_some_iff.mp hact
  cases hr
  have hframe := hframe.insert hm
  have hconn₁ : (L₁.conns c).connected = true := hself ▸ h.connected
  refine ⟨⟨hframe, hlive ▸ trivial, ?_, hconn₁, by simp⟩, ?_⟩
  · intro d fd ht
    cases ht
    exact ⟨rfl, rfl, hlive ▸ trivial⟩
  intro (ok : Bool) r L₃ hact
  have hself₂ := modify_self (c := c) { L₁ with sockets := some (m.insert (cfg.fd c) c) }
    (·.note (.syscall (.epollCtl .add ok) (cfg.fd c)))
  have hframe := hframe.trans (frame_modify _ (·.note (.syscall (.epollCtl .add ok) (cfg.fd c))))
  generalize hL₂ : Local.modify _ c (·.note (.syscall (.epollCtl .add ok) (cfg.fd c))) = L₂ at hself₂ hframe
  have hhist₂ : (L₂.conns c).history = [.onConnect, .syscall (.epollCtl .add ok) (cfg.fd c)] := by
    rw [hself₂]
    simp [Conn.note, hhist]
  have hlive₂ : phaseOf cfg c L₂ = .live := by
    rw [phaseOf, hhist₂]
    simp [phase, Phase.next]
  have hconn : (L₂.conns c).connected = true := hself₂ ▸ hself ▸ h.connected
  have hout : (L₂.conns c).outBuffer.data = [] := hself₂ ▸ hself ▸ h.out
  have hacc : (L₂.conns c).accepted = [] := hself₂ ▸ hself ▸ h.accepted
  have hsockets : L₂.sockets = some (m.insert (cfg.fd c) c) := by rw [← hL₂]; rfl
  obtain ⟨rfl, rfl, rfl⟩ | ⟨rfl, rfl, rfl⟩ := act_epollCtl cfg hact
  · rw [hL₂]
    refine ⟨⟨hframe, hlive₂ ▸ trivial, by simp [target], rfl, by simp⟩, ?_⟩
    intro ch r L₄ hact
    cases hact
    refine ⟨false, open_of_registration hframe.delete hconn hhist₂ hout hacc ?_ (entry_delete _ _) ?_⟩
    · simp [hsockets]
    · simp
  · rw [hL₂]
    have hframe := hframe.setInterest (some readEvent)
    refine ⟨⟨hframe, ?_, by simp [target], rfl, by simp⟩, ?_⟩
    · rw [show phaseOf cfg c (setInterest L₂ _ _) = .live from hlive₂]
      trivial
    · intro ch r L₄ hact
      cases hact
      refine ⟨false, open_of_registration (hframe.count _) hconn hhist₂ hout hacc ?_ ?_ ?_⟩
      · simp [setInterest, hsockets]
      · simp [entry, setInterest, hsockets]
      · intro _
        simp [setInterest]

end Register

end Gev.Connection.Output
