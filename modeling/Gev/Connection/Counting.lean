import Gev.Connection.Code

namespace Gev.Connection.Counting

open Lib.Atomic Lib.Slices State Code

variable {C σ κ δ : Type}

def entries (L : Local C σ κ δ) : Nat := (values L.sockets).length

def surplus (L : Local C σ κ δ) : Int := L.counted - entries L

/-- An update of the map does what its caller takes for granted: what is
inserted is new, and what is deleted is there, unless the map is gone. -/
def found : Op C κ δ → Local C σ κ δ → Bool
  | .insert fd _, L => (L.sockets.bind (·.lookup fd)).isNone
  | .delete fd, L => L.sockets.isNone || (L.sockets.bind (·.lookup fd)).isSome
  | _, _ => true

/-- The operations before which map and count may be apart: one of the two has been updated, or is about to be. -/
def midUpdate : Op C κ δ → Bool
  | .epollCtl _ .add _ _ | .delete _ | .addCount _ => true
  | _ => false

def calm : Op C κ δ → Bool
  | .insert _ _ | .delete _ | .addCount _ => false
  | _ => true

def Level (b : Int) (L : Local C σ κ δ) : Prop := L.sockets.isSome → surplus L = b

def Steady (b : Int) (o : Op C κ δ) (L : Local C σ κ δ) : Prop := midUpdate o = false → Level b L

theorem steady_mid {b : Int} {o : Op C κ δ} (h : midUpdate o = true) (L : Local C σ κ δ) : Steady b o L := by
  intro hmid
  rw [h] at hmid
  cases hmid

variable [DecidableEq C] {cfg : Config C σ κ δ} {b : Int}

abbrev Balances (cfg : Config C σ κ δ) (b : Int) {α : Type} (p : Prog C κ δ α) : Prop :=
  p.Keeps ((semantics cfg).assuming fun o L => found o L = true) (Steady b) (Level b)

/-- A calm operation drops the map or leaves map and count as they are. -/
theorem act_calm {o : Op C κ δ} (ho : calm o = true) {ch : Choice o} {L L' : Local C σ κ δ} {r : Res o}
    (h : act cfg o ch L = some (r, L')) :
    o = .dropSockets ∧ L'.sockets = none ∧ L'.counted = L.counted ∨
      o ≠ .dropSockets ∧ L'.sockets = L.sockets ∧ L'.counted = L.counted := by
  cases o
  case insert | delete | addCount => cases ho
  case dropSockets =>
    obtain ⟨-, rfl⟩ := Prod.mk.inj (Option.some.inj h)
    exact .inl ⟨rfl, rfl, rfl⟩
  case diverge => cases h
  case range =>
    obtain ⟨-, -, rfl⟩ := act_range cfg h
    exact .inr ⟨by simp, rfl, rfl⟩
  case unixRead =>
    obtain ⟨-, -, -, -, rfl⟩ | ⟨-, -, -, rfl⟩ := act_unixRead cfg h <;> exact .inr ⟨by simp, rfl, rfl⟩
  case unixWrite =>
    obtain ⟨-, -, -, -, rfl⟩ | ⟨-, -, -, rfl⟩ := act_unixWrite cfg h <;> exact .inr ⟨by simp, rfl, rfl⟩
  case epollCtl c op fd events =>
    obtain ⟨-, -, rfl⟩ | ⟨-, -, rfl⟩ := act_epollCtl cfg h <;> exact .inr ⟨by simp, rfl, rfl⟩
  all_goals
    obtain ⟨-, rfl⟩ := Prod.mk.inj (Option.some.inj h)
    exact .inr ⟨by simp, rfl, rfl⟩

inductive Tally (L : Local C σ κ δ) : Op C κ δ → Local C σ κ δ → Prop
  | same {o : Op C κ δ} {L' : Local C σ κ δ} (ho : calm o = true) (hd : o ≠ .dropSockets)
      (hs : L'.sockets = L.sockets) (hc : L'.counted = L.counted) : Tally L o L'
  | drop {L' : Local C σ κ δ} (hs : L'.sockets = none) (hc : L'.counted = L.counted) : Tally L .dropSockets L'
  | update {o : Op C κ δ} {L' : Local C σ κ δ} (ho : calm o = false) (hn : ∀ n, o ≠ .addCount n)
      (hs : L'.sockets.isSome = L.sockets.isSome) (hc : L'.counted = L.counted) : Tally L o L'
  | add {n : Int} {L' : Local C σ κ δ} (hs : L'.sockets = L.sockets) (hc : L'.counted = L.counted + n) :
      Tally L (.addCount n) L'

theorem act_tally {o : Op C κ δ} {ch : Choice o} {L L' : Local C σ κ δ} {r : Res o}
    (h : act cfg o ch L = some (r, L')) : Tally L o L' := by
  by_cases ho : calm o = true
  · rcases act_calm ho h with ⟨rfl, hs, hc⟩ | ⟨hd, hs, hc⟩
    · exact .drop hs hc
    · exact .same ho hd hs hc
  · cases o
    case insert fd c =>
      obtain ⟨m, hm, hr⟩ := Option.map_eq_some_iff.mp h
      cases hr
      exact .update rfl (by simp) (by simp [hm]) rfl
    case delete fd =>
      cases h
      exact .update rfl (by simp) (by simp) rfl
    case addCount n =>
      cases h
      exact .add rfl rfl
    all_goals exact absurd rfl ho

omit [DecidableEq C] in
theorem level_of_eq {L L' : Local C σ κ δ} (h : Level b L) (hs : L'.sockets = L.sockets) (hc : L'.counted = L.counted) :
    Level b L' := by
  intro hsome
  rw [surplus, entries, hs, hc]
  exact h (hs ▸ hsome)

theorem balances_calm {o : Op C κ δ} {α : Type} {k : Res o → Prog C κ δ α} (ho : calm o = true)
    (hk : ∀ r, Balances cfg b (k r)) : Balances cfg b (call o >>= k) := by
  refine Program.Keeps.step (fun L hL _ => hL) ?_ hk
  intro ch L r L' hL hact
  simp only [Semantics.assuming] at hact
  split at hact
  · rcases act_calm ho hact with ⟨-, hnone, -⟩ | ⟨-, hs, hc⟩
    · intro hsome
      rw [hnone] at hsome
      cases hsome
    · exact level_of_eq hL hs hc
  · cases hact

theorem balances_call {o : Op C κ δ} (ho : calm o = true) : Balances cfg b (call o) :=
  balances_calm ho (fun r => .done r)

section Updates

variable {L : Local C σ κ δ}

omit [DecidableEq C]

theorem level_addCount (h : Level b L) (n : Int) : Level (b + n) { L with counted := L.counted + n } := by
  intro hsome
  have hb := h hsome
  simp only [surplus, entries] at hb ⊢
  omega

theorem level_insert {m : AList (fun _ : Fd => C)} {fd : Fd} (h : Level b L) (hm : L.sockets = some m)
    (hnew : m.lookup fd = none) (c : C) : Level (b - 1) { L with sockets := some (m.insert fd c) } := by
  intro _
  have hb := h (by simp [hm])
  have hlen : (m.insert fd c).entries.length = m.entries.length + 1 := by
    rw [AList.entries_insert_of_notMem (AList.lookup_eq_none.mp hnew), List.length_cons]
  simp only [surplus, entries, values, hm, List.length_map, hlen] at hb ⊢
  omega

theorem level_delete {fd : Fd} (h : Level b L) (hold : found (.delete fd : Op C κ δ) L = true) :
    Level (b + 1) { L with sockets := L.sockets.map (·.erase fd) } := by
  intro hsome
  cases hm : L.sockets with
  | none => simp [hm] at hsome
  | some m =>
      have hmem : fd ∈ m.keys := AList.lookup_isSome.mp (by simpa [found, hm] using hold)
      have hkeys : (m.erase fd).keys.length + 1 = m.keys.length := by
        rw [AList.keys_erase, List.length_erase_of_mem hmem]
        have hpos := List.length_pos_of_mem hmem
        omega
      have hlen : (m.erase fd).entries.length + 1 = m.entries.length := by
        simpa [AList.keys, List.keys] using hkeys
      have hb := h (by simp [hm])
      simp only [surplus, entries, values, hm, Option.map_some, List.length_map] at hb ⊢
      omega

end Updates

/-- Before a mid-update operation nothing is promised; it goes on from where it leaves off, if it finds what it
expects. -/
theorem always_mid {o : Op C κ δ} {α : Type} {k : Res o → Prog C κ δ α} {L : Local C σ κ δ}
    {Q : α → Local C σ κ δ → Prop}
    (ho : midUpdate o = true) (hk : found o L = true → ∀ ch r L', act cfg o ch L = some (r, L') →
      Always ((semantics cfg).assuming fun o L => found o L = true) (Steady b) Q (k r) L') :
    Always ((semantics cfg).assuming fun o L => found o L = true) (Steady b) Q (call o >>= k) L := by
  refine ⟨steady_mid ho L, ?_⟩
  intro ch r L' hact
  simp only [Semantics.assuming] at hact
  split at hact
  · exact hk ‹_› ch r L' hact
  · cases hact

/-- Deleting an entry and taking one off the count go together. -/
theorem deleteFdInLoop_balances (c : C) (fd : Fd) : Balances cfg b (deleteFdInLoop c fd : Prog C κ δ Unit) := by
  refine balances_calm rfl fun _ => ?_
  intro L hL
  refine always_mid rfl fun hfound ch r L₁ hact => ?_
  cases hact
  refine always_mid rfl fun _ ch r L₂ hact => ?_
  cases hact
  have hlevel := level_addCount (level_delete hL hfound) (-1)
  rwa [Int.add_neg_cancel_right] at hlevel

/-- So do inserting one and adding one to the count; if the poller refuses, the entry goes again. -/
theorem addSocketAndEnableRead_balances (c : C) (fd : Fd) :
    Balances cfg b (addSocketAndEnableRead c fd : Prog C κ δ Bool) := by
  intro L hL
  refine ⟨fun _ => hL, ?_⟩
  intro ch r L₁ hact
  simp only [Semantics.assuming] at hact
  split at hact
  · rename_i hfound
    obtain ⟨m, hm, hr⟩ := Option.map_eq_some_iff.mp hact
    cases hr
    have hnew : m.lookup fd = none := by simpa [found, hm] using hfound
    have hinserted := level_insert hL hm hnew c
    generalize { L with sockets := some (m.insert fd c) } = L₁ at hinserted
    refine always_mid rfl fun _ ch ok L₂ hact => ?_
    have hadded : Level (b - 1) L₂ := by
      rcases act_calm rfl hact with ⟨hdrop, -⟩ | ⟨-, hs, hc⟩
      · cases hdrop
      · exact level_of_eq hinserted hs hc
    cases (ok : Bool) with
    | true =>
        refine always_mid rfl fun _ ch r L₃ hact => ?_
        cases hact
        have hlevel := level_addCount hadded 1
        rwa [Int.sub_add_cancel] at hlevel
    | false =>
        refine always_mid rfl fun hfound ch r L₃ hact => ?_
        cases hact
        have hlevel := level_delete hadded hfound
        rwa [Int.sub_add_cancel] at hlevel
  · cases hact

section Programs

variable (cfg)

theorem handleClose_balances (c : C) (fd : Fd) : Balances cfg b (handleClose c fd : Prog C κ δ Unit) := by
  refine balances_calm rfl fun connected => ?_
  split
  · refine balances_calm rfl fun _ => (deleteFdInLoop_balances c fd).bind fun _ => ?_
    refine balances_calm rfl fun _ => balances_calm rfl fun _ => ?_
    exact balances_calm rfl fun _ => balances_calm rfl fun _ => balances_call rfl
  · exact .done ()

theorem sendInLoopRest_balances (c : C) : Balances cfg b (sendInLoopRest cfg c) := by
  refine balances_calm rfl fun empty => ?_
  split
  · exact balances_calm rfl fun _ => .done false
  · exact .done false

theorem sendInLoop_balances (c : C) (data : Bytes) : Balances cfg b (sendInLoop cfg c data) := by
  refine balances_calm rfl fun _ => balances_calm rfl fun empty => ?_
  split
  · exact balances_calm rfl fun _ => .done false
  · refine balances_calm rfl fun ⟨n, err⟩ => ?_
    dsimp only
    split
    · exact (handleClose_balances cfg c _).bind fun _ => .done true
    · split
      · exact balances_calm rfl fun _ => sendInLoopRest_balances cfg c
      · split
        · exact balances_calm rfl fun _ => sendInLoopRest_balances cfg c
        · exact sendInLoopRest_balances cfg c

theorem handleWriteRest_balances (c : C) (fd : Fd) : Balances cfg b (handleWriteRest c fd : Prog C κ δ Bool) := by
  refine balances_calm rfl fun empty => ?_
  split
  · exact balances_calm rfl fun _ => .done false
  · exact .done false

/-- The error branch that handleWrite has twice. -/
theorem writeError_balances (c : C) (fd : Fd) (err : Option Errno) : Balances cfg b
    (if err = some .EAGAIN then return false else do handleClose c fd; return true : Prog C κ δ Bool) := by
  split
  · exact .done false
  · exact (handleClose_balances cfg c fd).bind fun _ => .done true

theorem handleWrite_balances (c : C) (fd : Fd) : Balances cfg b (handleWrite cfg c fd) := by
  refine balances_calm rfl fun ⟨first, last⟩ => balances_calm rfl fun ⟨n, err⟩ => ?_
  dsimp only
  split
  · exact writeError_balances cfg c fd err
  · refine balances_calm rfl fun _ => ?_
    split
    · refine balances_calm rfl fun ⟨n, err⟩ => ?_
      dsimp only
      split
      · exact writeError_balances cfg c fd err
      · exact balances_calm rfl fun _ => handleWriteRest_balances cfg c fd
    · exact handleWriteRest_balances cfg c fd

theorem handlerProtocol_balances (c : C) (buf : Buffer) (fuel : Nat) (tmp : Slice) :
    Balances cfg b (handlerProtocol c buf fuel tmp : Prog C κ δ Slice) := by
  induction fuel generalizing tmp with
  | zero => exact balances_calm rfl fun r => nomatch r
  | succ fuel ih =>
      refine balances_calm rfl fun ⟨ctx, data⟩ => ?_
      dsimp only
      split
      · refine balances_calm rfl fun sendData => ?_
        cases (sendData : Option δ) with
        | some d => exact balances_calm rfl fun _ => balances_calm rfl fun tmp => ih tmp
        | none => exact ih tmp
      · exact .done tmp

theorem parsePacket_balances (fuel : Nat) (c : C) (buf : Slice) (n : Nat) :
    Balances cfg b (parsePacket fuel c buf n : Prog C κ δ Slice) := by
  refine balances_calm rfl fun empty => ?_
  split
  · refine balances_calm rfl fun _ => (handlerProtocol_balances cfg c .buffer fuel _).bind fun replies => ?_
    refine balances_calm rfl fun empty => ?_
    split
    · exact balances_calm rfl fun _ => balances_calm rfl fun _ => .done replies
    · exact .done replies
  · exact balances_calm rfl fun _ => balances_calm rfl fun _ => handlerProtocol_balances cfg c .inBuffer fuel _

theorem handleRead_balances (fuel : Nat) (c : C) (fd : Fd) : Balances cfg b (handleRead cfg fuel c fd) := by
  refine balances_calm rfl fun buf => balances_calm rfl fun ⟨n, err⟩ => ?_
  dsimp only
  split
  · split
    · exact (handleClose_balances cfg c fd).bind fun _ => .done true
    · exact .done false
  · refine (parsePacket_balances cfg fuel c buf _).bind fun replies => ?_
    split
    · exact balances_calm rfl fun data => sendInLoop_balances cfg c data
    · exact .done false

theorem resetIfEmpty_balances (c : C) (buf : Buffer) : Balances cfg b (resetIfEmpty c buf : Prog C κ δ Unit) := by
  refine balances_calm rfl fun empty => ?_
  split
  · exact balances_call rfl
  · exact .done ()

theorem handleReady_balances (fuel : Nat) (c : C) (fd : Fd) (events : UInt32) :
    Balances cfg b (handleReady cfg fuel c fd events) := by
  refine balances_calm rfl fun empty => ?_
  split
  · split
    · refine (handleWrite_balances cfg c fd).bind fun closed => ?_
      split
      · exact .done true
      · exact (resetIfEmpty_balances cfg c _).bind fun _ => .done false
    · exact .done false
  · split
    · refine (handleRead_balances cfg fuel c fd).bind fun closed => ?_
      split
      · exact .done true
      · exact (resetIfEmpty_balances cfg c _).bind fun _ => .done false
    · exact .done false

theorem handleEvent_balances (fuel : Nat) (c : C) (fd : Fd) (events : UInt32) :
    Balances cfg b (handleEvent cfg fuel c fd events) := by
  have hrest : Balances cfg b (do
      if events &&& EventErr ≠ 0 then handleClose c fd
      else
        let closed ← handleReady cfg fuel c fd events
        if closed = false then call (.swapLengths c) : Prog C κ δ Unit) := by
    split
    · exact handleClose_balances cfg c fd
    · refine (handleReady_balances cfg fuel c fd events).bind fun closed => ?_
      split
      · exact balances_call rfl
      · exact .done ()
  simp only [handleEvent]
  split
  · exact balances_calm rfl fun _ => hrest
  · exact hrest

theorem handlerEvent_balances (fuel : Nat) (fd : Fd) (events : UInt32) :
    Balances cfg b (handlerEvent cfg fuel fd events) := by
  refine balances_calm rfl fun s => ?_
  cases (s : Option C) with
  | some c => exact handleEvent_balances cfg fuel c fd events
  | none => exact .done ()

theorem closeAll_balances (cs : List C) : Balances cfg b (closeAll cs : Prog C κ δ Unit) := by
  induction cs with
  | nil => exact .done ()
  | cons c cs ih =>
      refine Program.Keeps.bind ?_ fun _ => ih
      refine balances_calm rfl fun connected => ?_
      split
      · refine Program.Keeps.bind ?_ fun _ => .done true
        refine balances_calm rfl fun _ => balances_calm rfl fun swapped => ?_
        split
        · exact balances_call rfl
        · exact .done ()
      · exact .done false

theorem taskBody_balances (u : Task C δ) : Balances cfg b (taskBody cfg u) := by
  cases u with
  | register c =>
      exact balances_calm rfl fun _ => (addSocketAndEnableRead_balances c _).bind fun _ => .done ()
  | send c data finish =>
      refine balances_calm rfl fun connected => ?_
      split
      · refine balances_calm rfl fun packed => (sendInLoop_balances cfg c packed).bind fun _ => ?_
        split
        · exact balances_call rfl
        · exact .done ()
      · exact .done ()
  | close c => exact handleClose_balances cfg c _
  | closing =>
      exact balances_calm rfl fun cs => (closeAll_balances cfg cs).bind fun _ => balances_call rfl

end Programs

end Gev.Connection.Counting
