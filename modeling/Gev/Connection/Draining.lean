import Gev.Connection.ReadPath

namespace Gev.Connection.Draining

open Lib.Atomic Lib.Slices Lib.RingBuffers State Code Reading Writing ReadPath

variable {C σ κ δ : Type} [DecidableEq C]

/-- Every call of UnPacket that returns something takes bytes off the buffer. -/
def Shrinks (p : Protocol σ κ δ) : Prop :=
  ∀ user wrap buffer, let u := p.unPacket user wrap buffer
    u.ctx.isSome ∨ u.out ≠ [] → (buffer.advance u.consumed u.cursor).length < buffer.length

structure Placed (c : C) (b : Buffer) (L : Local C σ κ δ) (tmp : Slice) : Prop where
  tmp : Valid L.heap tmp
  window : b = .buffer → Valid L.heap (L.conns c).buffer.slice

variable {cfg : Config C σ κ δ} (policy : Policy C σ κ δ) {c : C} {b : Buffer} {L : Local C σ κ δ} {tmp : Slice}

/-- UnPacket is shown the buffer as it is, and moves it on by what it consumes. -/
theorem unPacket_round (hb : b ≠ .outBuffer) (h : Placed c b L tmp) :
    ∃ wrap L', let u := cfg.protocol.unPacket (L.conns c).user wrap (L.ring c b)
      (∀ {α : Type} (k : Option κ × Bytes → Prog C κ δ α),
        eval (semantics cfg) policy (call (.unPacket c b) >>= k) L =
          eval (semantics cfg) policy (k (u.ctx, u.out)) L') ∧
      (L'.ring c b).length = ((L.ring c b).advance u.consumed u.cursor).length ∧
      Placed c b L' tmp ∧ Kept c b L L' [] := by
  refine ⟨_, _, fun k => eval_call rfl, ?_, ⟨h.tmp, ?_⟩, ?_⟩
  · cases b with
    | outBuffer => exact absurd rfl hb
    | inBuffer =>
        rw [Local.ring, modify_self]
        rfl
    | buffer =>
        rw [Local.ring, modify_self]
        simp only [Conn.consume, Conn.touch, if_true, Local.ring, View.ring, RingBuffer.length, RingBuffer.data_advance,
          List.drop_drop]
        rfl
  · rintro rfl
    rw [modify_self]
    exact h.window rfl
  · refine kept_modify (if b = .buffer then [] else [.touch b]) rfl ?_ ?_ ?_
    · rintro rfl
      rfl
    · split <;> rfl
    · split <;> rfl

theorem onMessage_round (h : Placed c b L tmp) (ctx : Option κ) (data : Bytes) :
    ∃ answer L', (∀ {α : Type} (k : Option δ → Prog C κ δ α),
        eval (semantics cfg) policy (call (.onMessage c ctx data) >>= k) L =
          eval (semantics cfg) policy (k answer) L') ∧
      L'.ring c b = L.ring c b ∧ Placed c b L' tmp ∧ Kept c b L L' [(ctx, data)] := by
  refine ⟨_, _, fun k => eval_call rfl, ?_, ⟨h.tmp, ?_⟩, ?_⟩
  · cases b <;> rw [Local.ring, modify_self] <;> rfl
  · rw [modify_self]
    exact h.window
  · exact kept_modify [.onMessage ctx data (L.conns c).connected] rfl (fun _ => rfl) rfl rfl

/-- A reply may be written into the array of the window that is being parsed, but does not change how long it is. -/
theorem append_round (h : Placed c b L tmp) (packed : Bytes) :
    ∃ tmp' L', (∀ {α : Type} (k : Slice → Prog C κ δ α),
        eval (semantics cfg) policy (call (.append tmp packed) >>= k) L =
          eval (semantics cfg) policy (k tmp') L') ∧
      (L'.ring c b).length = (L.ring c b).length ∧ Placed c b L' tmp' ∧ Kept c b L L' [] := by
  have hvalid := fun s hs => valid_append_frame cfg.grow (0 : UInt8) (t := s) h.tmp hs packed
  refine ⟨_, _, fun k => eval_call rfl, ?_, ⟨valid_append _ _ h.tmp packed, fun hb => hvalid _ (h.window hb)⟩, ?_⟩
  · cases b with
    | inBuffer | outBuffer => rfl
    | buffer =>
        have hw := h.window rfl
        simp only [Local.ring, View.ring, RingBuffer.length, RingBuffer.data_advance, RingBuffer.data_ofList,
          List.length_drop, length_contents hw, length_contents (hvalid _ hw)]
  · exact ⟨rfl, hvalid, fun _ => rfl, (List.append_nil _).symm, rfl⟩

/-- With more rounds than there are unread bytes the loop of handlerProtocol ends, after at most as many calls of
OnMessage. -/
theorem handlerProtocol_drains (hp : Shrinks cfg.protocol) (hb : b ≠ .outBuffer) {fuel : Nat} (h : Placed c b L tmp)
    (hf : (L.ring c b).length < fuel) :
    ∃ r calls, eval (semantics cfg) policy (handlerProtocol c b fuel tmp) L = some r ∧
      Kept c b L r.2 calls ∧ calls.length ≤ (L.ring c b).length := by
  induction fuel generalizing L tmp with
  | zero => exact absurd hf (Nat.not_lt_zero _)
  | succ fuel ih =>
      obtain ⟨wrap, L₁, he, hring, hplaced, hkept⟩ := unPacket_round policy hb h
      have hless := hp (L.conns c).user wrap (L.ring c b)
      rw [handlerProtocol, he]
      dsimp only at hring hless ⊢
      generalize cfg.protocol.unPacket (L.conns c).user wrap (L.ring c b) = u at *
      by_cases hmore : u.ctx.isSome ∨ u.out ≠ []
      · rw [if_pos hmore]
        obtain ⟨answer, L₂, he₂, hring₂, hplaced₂, hkept₂⟩ := onMessage_round policy hplaced u.ctx u.out
        have hlt : (L₂.ring c b).length < (L.ring c b).length := by
          rw [hring₂, hring]
          exact hless hmore
        have hcall := hkept.trans hkept₂
        rw [he₂]
        cases answer with
        | none =>
            obtain ⟨r, calls, hr, hrest, hcount⟩ := ih hplaced₂ (by omega)
            refine ⟨r, _, hr, hcall.trans hrest, ?_⟩
            simp only [List.nil_append, List.singleton_append, List.length_cons]
            omega
        | some data =>
            dsimp only
            rw [eval_call rfl]
            obtain ⟨tmp', L₃, he₃, hring₃, hplaced₃, hkept₃⟩ :=
              append_round policy hplaced₂ (cfg.protocol.packet (L₂.conns c).user data)
            obtain ⟨r, calls, hr, hrest, hcount⟩ := ih hplaced₃ (by omega)
            rw [he₃]
            refine ⟨r, _, hr, (hcall.trans hkept₃).trans hrest, ?_⟩
            simp only [List.nil_append, List.singleton_append, List.append_nil, List.length_cons]
            omega
      · rw [if_neg hmore]
        exact ⟨_, [], rfl, hkept, Nat.zero_le _⟩

end Gev.Connection.Draining
