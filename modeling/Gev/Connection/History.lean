import Gev.Connection.State
import Mathlib.Data.List.Induction

namespace Gev.Connection.History

open State

variable {κ : Type}

/-- The stages of a connection's life, as its history shows them. The flag
says whether OnConnect came before the close: an idle timer may close a
connection whose registration has not run yet, and then that comes late. -/
inductive Phase
  | new
  | leaving
  | live
  | closing (met : Bool)
  | closed (met : Bool)
  | returned (met : Bool)
  | dead (met : Bool)
  | late
  | broken
  deriving DecidableEq

def Phase.next (fd : Fd) : Phase → Act κ → Phase
  | .new, .onConnect => .live
  | .new, .syscall (.epollCtl .del _) f => if f = fd then .leaving else .broken
  | .leaving, .onClose => .closing false
  | .live, .onMessage _ _ connected => if connected then .live else .broken
  | .live, .touch _ => .live
  | .live, .sendInLoop _ => .live
  | .live, .sendInLoopFinish => .live
  | .live, .syscall call f => if f = fd ∧ call ≠ .close then .live else .broken
  | .live, .onClose => .closing true
  | .closing met, .syscall .close f => if f = fd then .closed met else .broken
  | .closed met, .put .inBuffer => .returned met
  | .returned met, .put .outBuffer => .dead met
  | .dead met, .sendInLoopFinish => .dead met
  | .dead false, .onConnect => .late
  | _, _ => .broken

def phase (fd : Fd) (h : List (Act κ)) : Phase := h.foldl (Phase.next fd) .new

/-- What may be seen of a connection. Only an idle timer makes the early phases possible. -/
def Phase.Sound (early : Prop) : Phase → Prop
  | .broken => False
  | .leaving | .late => early
  | .closing met | .closed met | .returned met | .dead met => met = true ∨ early
  | .new | .live => True

def Phase.FdOpen : Phase → Prop
  | .new | .leaving | .live | .closing _ => True
  | _ => False

theorem phase_append (fd : Fd) (h acts : List (Act κ)) :
    phase fd (h ++ acts) = acts.foldl (Phase.next fd) (phase fd h) := List.foldl_append

theorem phase_concat (fd : Fd) (h : List (Act κ)) (a : Act κ) :
    phase fd (h ++ [a]) = (phase fd h).next fd a := phase_append fd h [a]

def Busy (fd : Fd) : Act κ → Prop
  | .touch _ | .sendInLoop _ | .sendInLoopFinish => True
  | .onMessage _ _ connected => connected = true
  | .syscall call f => f = fd ∧ call ≠ .close
  | _ => False

inductive Advances (fd : Fd) : Phase → Act κ → Phase → Prop
  | connect : Advances fd .new .onConnect .live
  | leave (ok : Bool) : Advances fd .new (.syscall (.epollCtl .del ok) fd) .leaving
  | dismiss : Advances fd .leaving .onClose (.closing false)
  | work {a : Act κ} (ha : Busy fd a) : Advances fd .live a .live
  | onClose : Advances fd .live .onClose (.closing true)
  | close (met : Bool) : Advances fd (.closing met) (.syscall .close fd) (.closed met)
  | putIn (met : Bool) : Advances fd (.closed met) (.put .inBuffer) (.returned met)
  | putOut (met : Bool) : Advances fd (.returned met) (.put .outBuffer) (.dead met)
  | hook (met : Bool) : Advances fd (.dead met) .sendInLoopFinish (.dead met)
  | late : Advances fd (.dead false) .onConnect .late

theorem advances_of_next {fd : Fd} {p : Phase} {a : Act κ} (h : p.next fd a ≠ .broken) :
    Advances fd p a (p.next fd a) := by
  unfold Phase.next at h ⊢
  split at h
  case h_1 => exact .connect
  case h_2 =>
    split at h
    · subst_vars
      rw [if_pos rfl]
      exact .leave _
    · exact absurd rfl h
  case h_3 => exact .dismiss
  case h_4 =>
    split at h
    · rw [if_pos ‹_›]
      exact .work ‹_›
    · exact absurd rfl h
  case h_5 | h_6 | h_7 => exact .work trivial
  case h_8 =>
    split at h
    · rw [if_pos ‹_›]
      exact .work ‹_›
    · exact absurd rfl h
  case h_9 => exact .onClose
  case h_10 =>
    split at h
    · subst_vars
      rw [if_pos rfl]
      exact .close _
    · exact absurd rfl h
  case h_11 => exact .putIn _
  case h_12 => exact .putOut _
  case h_13 => exact .hook _
  case h_14 => exact .late
  case h_15 => exact absurd rfl h

theorem ne_broken_of_next {fd : Fd} {p : Phase} {a : Act κ} (h : p.next fd a ≠ .broken) : p ≠ .broken := by
  rintro rfl
  exact h rfl

theorem Phase.Sound.ne_broken {early : Prop} {p : Phase} (h : p.Sound early) : p ≠ .broken := by
  rintro rfl
  exact h

theorem sound_of_next {early : Prop} {fd : Fd} {p : Phase} {a : Act κ} (h : (p.next fd a).Sound early) :
    p.Sound early := by
  have hadv := advances_of_next h.ne_broken
  generalize p.next fd a = q at h hadv
  cases hadv with
  | late => exact .inr h
  | dismiss => exact h.resolve_left (by simp)
  | connect | leave | work | onClose => trivial
  | close | putIn | putOut | hook => exact h

/-- What the first history has, and every transition keeps, all unbroken histories have. -/
theorem phase_induction {fd : Fd} {P : List (Act κ) → Phase → Prop} (hnil : P [] .new)
    (hstep : ∀ {h a p q}, Advances fd p a q → P h p → P (h ++ [a]) q) {h : List (Act κ)}
    (hs : phase fd h ≠ .broken) : P h (phase fd h) := by
  induction h using List.reverseRecOn with
  | nil => exact hnil
  | append_singleton h a ih =>
      rw [phase_concat] at hs ⊢
      exact hstep (advances_of_next hs) (ih (ne_broken_of_next hs))

/-- The descriptor is open until the history shows its close. -/
theorem fdOpen_iff {fd : Fd} {h : List (Act κ)} (hs : phase fd h ≠ .broken) :
    (phase fd h).FdOpen ↔ ∀ f, Act.syscall .close f ∉ h := by
  refine phase_induction (P := fun h p => p.FdOpen ↔ ∀ f, Act.syscall .close f ∉ h) (by simp [Phase.FdOpen]) ?_ hs
  intro h a p q hadv ih
  simp only [List.mem_append, List.mem_singleton, not_or, forall_and, ← ih]
  cases hadv with
  | work ha =>
      have hne : ∀ f, Act.syscall .close f ≠ a := by
        rintro f rfl
        exact ha.2 rfl
      simp [Phase.FdOpen, hne]
  | connect | leave | dismiss | onClose | close | putIn | putOut | hook | late => simp [Phase.FdOpen]

def Phase.met : Phase → Bool
  | .live | .late => true
  | .closing met | .closed met | .returned met | .dead met => met
  | .new | .leaving | .broken => false

theorem met_iff {fd : Fd} {h : List (Act κ)} (hs : phase fd h ≠ .broken) :
    (phase fd h).met = true ↔ Act.onConnect ∈ h := by
  refine phase_induction (P := fun h p => p.met = true ↔ Act.onConnect ∈ h) (by simp [Phase.met]) ?_ hs
  intro h a p q hadv ih
  rw [List.mem_append, ← ih, List.mem_singleton]
  cases hadv with
  | work ha =>
      have hne : Act.onConnect ≠ a := by
        rintro rfl
        exact ha
      simp [Phase.met, hne]
  | connect | leave | dismiss | onClose | close | putIn | putOut | hook | late => simp [Phase.met]

section Growth

variable {C σ δ : Type} [DecidableEq C]

def Grows (o : Op C κ δ) (L L' : Local C σ κ δ) : Prop :=
  ∀ c, ∃ acts, (L'.conns c).history = (L.conns c).history ++ acts ∧
    ∀ f, Act.syscall .close f ∈ acts → o = .unixClose c f

omit [DecidableEq C] in
theorem grows_same {o : Op C κ δ} {L L' : Local C σ κ δ} (h : L'.conns = L.conns) : Grows o L L' :=
  fun c => ⟨[], by simp [h], by simp⟩

theorem grows_modify {o : Op C κ δ} {L L' : Local C σ κ δ} {d : C} {f : Conn σ κ → Conn σ κ} (acts : List (Act κ))
    (h : L'.conns = (L.modify d f).conns) (hf : (f (L.conns d)).history = (L.conns d).history ++ acts)
    (hacts : ∀ f, Act.syscall .close f ∈ acts → o = .unixClose d f) : Grows o L L' := by
  intro c
  by_cases hc : c = d
  · subst hc
    exact ⟨acts, by simp [h, Local.modify, hf], hacts⟩
  · exact ⟨[], by simp [h, Local.modify, hc], by simp⟩

theorem grows_note {o : Op C κ δ} {L L' : Local C σ κ δ} (d : C) (a : Act κ)
    (h : L'.conns = (L.modify d (·.note a)).conns) (ha : ∀ f, a = .syscall .close f → o = .unixClose d f) :
    Grows o L L' :=
  grows_modify [a] h rfl (fun f hf => ha f (List.mem_singleton.mp hf).symm)

theorem act_grows (cfg : Config C σ κ δ) {o : Op C κ δ} {ch : Choice o} {L L' : Local C σ κ δ} {r : Res o}
    (h : act cfg o ch L = some (r, L')) : Grows o L L' := by
  cases o
  case connectedGet | packetBuf | contents | lookup | packet | compareAndSwap | wake | delete | dropSockets |
      addCount | appendTask | append =>
    obtain ⟨-, rfl⟩ := Prod.mk.inj (Option.some.inj h)
    exact grows_same rfl
  case diverge => cases h
  case range =>
    obtain ⟨-, -, rfl⟩ := act_range cfg h
    exact grows_same rfl
  case insert =>
    obtain ⟨m, -, hr⟩ := Option.map_eq_some_iff.mp h
    cases hr
    exact grows_same rfl
  case connectedSet | markActive | stopTimer | withData =>
    obtain ⟨-, rfl⟩ := Prod.mk.inj (Option.some.inj h)
    exact grows_modify [] rfl (List.append_nil _).symm (by simp)
  case isEmpty b | peekAll b | write b _ | retrieve b _ | reset b | unPacket b =>
    obtain ⟨-, rfl⟩ := Prod.mk.inj (Option.some.inj h)
    refine grows_modify (if b = .buffer then [] else [.touch b]) rfl rfl ?_
    intro f hf
    split at hf <;> simp at hf
  case swapLengths =>
    obtain ⟨-, rfl⟩ := Prod.mk.inj (Option.some.inj h)
    exact grows_modify [.touch .inBuffer, .touch .outBuffer] rfl (by simp [Conn.touch]) (by simp)
  case putInPool c b =>
    obtain ⟨-, rfl⟩ := Prod.mk.inj (Option.some.inj h)
    exact grows_note c (.put b) rfl (by simp)
  case onConnect =>
    obtain ⟨-, rfl⟩ := Prod.mk.inj (Option.some.inj h)
    exact grows_modify [.onConnect] rfl rfl (by simp)
  case onMessage c ctx data =>
    obtain ⟨-, rfl⟩ := Prod.mk.inj (Option.some.inj h)
    exact grows_modify [.onMessage ctx data (L.conns c).connected] rfl rfl (by simp)
  case onClose =>
    obtain ⟨-, rfl⟩ := Prod.mk.inj (Option.some.inj h)
    exact grows_modify [.onClose] rfl rfl (by simp)
  case sendInLoop c data =>
    obtain ⟨-, rfl⟩ := Prod.mk.inj (Option.some.inj h)
    exact grows_note c (.sendInLoop data) rfl (by simp)
  case sendInLoopFinish c =>
    obtain ⟨-, rfl⟩ := Prod.mk.inj (Option.some.inj h)
    exact grows_note c .sendInLoopFinish rfl (by simp)
  case unixClose c fd =>
    obtain ⟨-, rfl⟩ := Prod.mk.inj (Option.some.inj h)
    exact grows_note c (.syscall .close fd) rfl (by simp)
  case unixRead c fd s =>
    obtain ⟨data, -, -, -, rfl⟩ | ⟨e, -, -, rfl⟩ := act_unixRead cfg h
    · exact grows_note c (.syscall .read fd) rfl (by simp)
    · exact grows_note c (.syscall .read fd) rfl (by simp)
  case unixWrite c fd data =>
    obtain ⟨n, -, -, -, rfl⟩ | ⟨e, -, -, rfl⟩ := act_unixWrite cfg h
    · exact grows_modify [.syscall .write fd] rfl rfl (by simp)
    · exact grows_note c (.syscall .write fd) rfl (by simp)
  case epollCtl c op fd events =>
    obtain ⟨rfl, -, rfl⟩ | ⟨rfl, -, rfl⟩ := act_epollCtl cfg h
    · exact grows_note c (.syscall (.epollCtl op false) fd) rfl (by simp)
    · exact grows_note c (.syscall (.epollCtl op true) fd) rfl (by simp)

/-- The loop goroutine's own record of the tasks it has queued. -/
theorem act_posted (cfg : Config C σ κ δ) {o : Op C κ δ} {ch : Choice o} {L L' : Local C σ κ δ} {r : Res o}
    (h : act cfg o ch L = some (r, L')) :
    L'.posted = L.posted ∨ ∃ u, o = .appendTask u ∧ L'.posted = L.posted ++ [u] := by
  cases o
  case appendTask u =>
    obtain ⟨-, rfl⟩ := Prod.mk.inj (Option.some.inj h)
    exact .inr ⟨u, rfl, rfl⟩
  case diverge => cases h
  case range =>
    obtain ⟨-, -, rfl⟩ := act_range cfg h
    exact .inl rfl
  case insert =>
    obtain ⟨m, -, hr⟩ := Option.map_eq_some_iff.mp h
    cases hr
    exact .inl rfl
  case unixRead => obtain ⟨-, -, -, -, rfl⟩ | ⟨-, -, -, rfl⟩ := act_unixRead cfg h <;> exact .inl rfl
  case unixWrite => obtain ⟨-, -, -, -, rfl⟩ | ⟨-, -, -, rfl⟩ := act_unixWrite cfg h <;> exact .inl rfl
  case epollCtl c op fd events =>
    obtain ⟨-, -, rfl⟩ | ⟨-, -, rfl⟩ := act_epollCtl cfg h <;> exact .inl rfl
  all_goals
    obtain ⟨-, rfl⟩ := Prod.mk.inj (Option.some.inj h)
    exact .inl rfl

end Growth

/-- Only a connection that has been announced is ever registered. -/
theorem met_of_registered {fd f : Fd} {h : List (Act κ)} {ok : Bool} (hs : phase fd h ≠ .broken)
    (hr : Act.syscall (.epollCtl .add ok) f ∈ h) : (phase fd h).met = true := by
  refine phase_induction (P := fun h p => .syscall (.epollCtl .add ok) f ∈ h → p.met = true) nofun ?_ hs hr
  intro h a p q hadv ih hr
  rcases List.mem_append.mp hr with hr | hr
  · have hmet := ih hr
    cases hadv with
    | work | connect | onClose | late => rfl
    | leave | dismiss => cases hmet
    | close | putIn | putOut | hook => exact hmet
  · cases List.mem_singleton.mp hr
    cases hadv
    rfl

def ending (fd : Fd) : List (Act κ) :=
  [.onClose, .syscall .close fd, .put .inBuffer, .put .outBuffer]

def Phase.ended : Phase → Nat
  | .closing _ => 1
  | .closed _ => 2
  | .returned _ => 3
  | .dead _ => 4
  | _ => 0

/-- A life: OnConnect, work, the close as far as it has got, and behind a
complete one only the hooks of sends that ran into it. -/
structure Life (fd : Fd) (h : List (Act κ)) (n : Nat) (work hooks : List (Act κ)) : Prop where
  eq : h = .onConnect :: (work ++ ((ending fd).take n ++ hooks))
  busy : ∀ a ∈ work, Busy fd a
  finish : ∀ a ∈ hooks, a = .sendInLoopFinish
  complete : n < 4 → hooks = []

theorem Life.work {fd : Fd} {h work hooks : List (Act κ)} (hl : Life fd h 0 work hooks) {a : Act κ}
    (ha : Busy fd a) : Life fd (h ++ [a]) 0 (work ++ [a]) [] := by
  refine ⟨?_, ?_, by simp, fun _ => rfl⟩
  · rw [hl.eq, hl.complete (by omega)]
    simp
  · intro b hb
    rcases List.mem_append.mp hb with hb | hb
    · exact hl.busy b hb
    · exact List.mem_singleton.mp hb ▸ ha

theorem Life.close {fd : Fd} {h work hooks : List (Act κ)} {n : Nat} (hl : Life fd h n work hooks)
    {a : Act κ} (ha : (ending fd)[n]? = some a) : Life fd (h ++ [a]) (n + 1) work [] := by
  have hn : n < 4 := (List.getElem?_eq_some_iff.mp ha).1
  refine ⟨?_, hl.busy, by simp, fun _ => rfl⟩
  rw [hl.eq, hl.complete hn, List.take_add_one, ha]
  simp

theorem Life.hook {fd : Fd} {h work hooks : List (Act κ)} (hl : Life fd h 4 work hooks) :
    Life fd (h ++ [.sendInLoopFinish]) 4 work (hooks ++ [.sendInLoopFinish]) := by
  refine ⟨?_, hl.busy, ?_, fun hn => absurd hn (by omega)⟩
  · rw [hl.eq]
    simp
  · intro b hb
    rcases List.mem_append.mp hb with hb | hb
    · exact hl.finish b hb
    · exact List.mem_singleton.mp hb

theorem life_of_sound {fd : Fd} {h : List (Act κ)} (hs : (phase fd h).Sound False) :
    (h = [] ∧ phase fd h = .new) ∨
      (phase fd h ≠ .new ∧ ∃ work hooks, Life fd h (phase fd h).ended work hooks) := by
  induction h using List.reverseRecOn with
  | nil => exact .inl ⟨rfl, rfl⟩
  | append_singleton h a ih =>
      rw [phase_concat] at hs ⊢
      right
      have hprev := ih (sound_of_next hs)
      have hadv := advances_of_next hs.ne_broken
      generalize (phase fd h).next fd a = q at hs hadv
      generalize phase fd h = p at hprev hadv
      cases hadv with
      | connect =>
          obtain ⟨rfl, -⟩ | ⟨hne, -⟩ := hprev
          · exact ⟨by simp, [], [], by simp [Phase.ended], by simp, by simp, fun _ => rfl⟩
          · exact absurd rfl hne
      | leave | dismiss | late => simp [Phase.Sound] at hs
      | work ha =>
          obtain ⟨-, hp⟩ | ⟨-, work, hooks, hl⟩ := hprev
          · cases hp
          · exact ⟨by simp, _, _, hl.work ha⟩
      | onClose | close | putIn | putOut =>
          obtain ⟨-, hp⟩ | ⟨-, work, hooks, hl⟩ := hprev
          · cases hp
          · exact ⟨by simp, _, _, hl.close rfl⟩
      | hook =>
          obtain ⟨-, hp⟩ | ⟨-, work, hooks, hl⟩ := hprev
          · cases hp
          · exact ⟨by simp, _, _, hl.hook⟩

def isOnClose : Act κ → Bool
  | .onClose => true
  | _ => false

/-- A connection that has been through its close has had OnClose called once and its descriptor closed. -/
theorem closed_once_of_dead {fd : Fd} {h : List (Act κ)} (hd : phase fd h = .dead true) :
    h.countP isOnClose = 1 ∧ .syscall .close fd ∈ h := by
  have hs : (phase fd h).Sound False := by
    rw [hd]
    exact .inl rfl
  rcases life_of_sound hs with ⟨-, hnew⟩ | ⟨-, work, hooks, hl⟩
  · rw [hd] at hnew
    cases hnew
  · rw [hd] at hl
    have hwork : work.countP isOnClose = 0 := by
      rw [List.countP_eq_zero]
      intro a ha hc
      cases a with
      | onClose => exact hl.busy _ ha
      | onConnect | onMessage | syscall | touch | put | sendInLoop | sendInLoopFinish => cases hc
    have hhooks : hooks.countP isOnClose = 0 := by
      rw [List.countP_eq_zero]
      intro a ha
      simp [hl.finish a ha, isOnClose]
    rw [hl.eq]
    constructor
    · simp [Phase.ended, ending, List.countP_cons, List.countP_append, hwork, hhooks, isOnClose]
    · simp [Phase.ended, ending]

theorem sound_of_append {early : Prop} {fd : Fd} {h : List (Act κ)} (acts : List (Act κ))
    (hs : (phase fd (h ++ acts)).Sound early) : (phase fd h).Sound early := by
  induction acts using List.reverseRecOn with
  | nil => simpa using hs
  | append_singleton acts a ih =>
      rw [← List.append_assoc, phase_concat] at hs
      exact ih (sound_of_next hs)

def callback : Act κ → Bool
  | .onConnect | .onMessage _ _ _ | .onClose => true
  | _ => false

/-- What must have happened, and what not, when something happens to a connection. -/
def InOrder (fd : Fd) (past : List (Act κ)) : Act κ → Prop
  | .onConnect => ∀ a ∈ past, callback a = false
  | .onMessage _ _ connected => .onConnect ∈ past ∧ .onClose ∉ past ∧ connected = true
  | .onClose => .onConnect ∈ past ∧ .onClose ∉ past
  | .syscall .close f => f = fd ∧ past.getLast? = some .onClose ∧ ∀ f, .syscall .close f ∉ past
  | .put b | .touch b => .put b ∉ past
  | _ => True

theorem inOrder_of_busy {fd : Fd} {past work : List (Act κ)} (hl : Life fd past 0 work []) {a : Act κ}
    (ha : Busy fd a) : InOrder fd past a := by
  have hpast : ∀ b ∈ past, b = .onConnect ∨ Busy fd b := by
    intro b hb
    rw [hl.eq] at hb
    simp only [List.take_zero, List.append_nil, List.mem_cons] at hb
    exact hb.imp id (hl.busy b)
  have hput : ∀ b, .put b ∉ past := by
    intro b hb
    rcases hpast _ hb with h | h <;> cases h
  cases a with
  | onMessage ctx data connected =>
      refine ⟨by simp [hl.eq], ?_, ha⟩
      intro hc
      rcases hpast _ hc with h | h <;> cases h
  | touch b => exact hput b
  | syscall call f =>
      cases call with
      | close => exact absurd rfl ha.2
      | read | write | shutdown | epollCtl => trivial
  | sendInLoop | sendInLoopFinish => trivial
  | onConnect | onClose | put => exact ha.elim

theorem inOrder_of_sound {fd : Fd} {past : List (Act κ)} {a : Act κ} (future : List (Act κ))
    (hs : (phase fd (past ++ a :: future)).Sound False) : InOrder fd past a := by
  have hnext : ((phase fd past).next fd a).Sound False := by
    rw [← phase_concat]
    apply sound_of_append future
    simpa using hs
  have hlife := life_of_sound (sound_of_next hnext)
  have hadv := advances_of_next hnext.ne_broken
  generalize (phase fd past).next fd a = q at hnext hadv
  generalize phase fd past = p at hlife hadv
  cases hadv with
  | connect =>
      obtain ⟨rfl, -⟩ | ⟨hne, -⟩ := hlife
      · simp [InOrder]
      · exact absurd rfl hne
  | leave | dismiss | late => simp [Phase.Sound] at hnext
  | work ha =>
      obtain ⟨-, hp⟩ | ⟨-, work, hooks, hl⟩ := hlife
      · cases hp
      · cases hl.complete (by simp [Phase.ended])
        exact inOrder_of_busy hl ha
  | onClose | close | putIn | putOut =>
      obtain ⟨-, hp⟩ | ⟨-, work, hooks, hl⟩ := hlife
      · cases hp
      · cases hl.complete (by simp [Phase.ended])
        have hnoClose : .onClose ∉ work := fun hm => hl.busy _ hm
        have hnoSyscall : ∀ f, .syscall .close f ∉ work := fun f hm => (hl.busy _ hm).2 rfl
        have hnoPut : ∀ b, .put b ∉ work := fun b hm => hl.busy _ hm
        simp [hl.eq, InOrder, Phase.ended, ending, hnoClose, hnoSyscall, hnoPut, List.getLast?_cons]
  | hook => trivial

end Gev.Connection.History
