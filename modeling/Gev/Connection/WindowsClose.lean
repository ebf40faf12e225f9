import Gev.Lib.Runs
import Mathlib.Data.List.Nodup
import Mathlib.Logic.Function.Basic

namespace Gev.Connection.WindowsClose

open Gev.Lib.Runs

/-- Where a call of Close stands. One that finds the connection closed skips everything; one that closes the channel a
second time panics. -/
inductive Point
  | get
  | closeDying
  | setConnected
  | onClose
  | stopTimer
  | closeConn
  | finished
  | skipped
  | panicked
  deriving DecidableEq

/-- A connection and the calls of Close on it, any number of them. The two lists are the calls that have executed
close(dying) and OnClose, in that order; a timer that is stored may be running. -/
structure State (G : Type) where
  point : G → Point
  connected : Bool
  dying : Bool
  timer : Option Bool
  connClosed : Bool
  closes : List G
  onCloses : List G

variable {G : Type} [DecidableEq G]

def State.goto (s : State G) (g : G) (p : Point) : State G := { s with point := Function.update s.point g p }

/-- The next statement of one call. A panic is not taken to stop the others. -/
def step (s : State G) (g : G) : Option (State G) :=
  match s.point g with
  | .get => some (s.goto g (if s.connected then .closeDying else .skipped))
  | .closeDying =>
      if s.dying then some { s.goto g .panicked with closes := s.closes ++ [g] }
      else some { s.goto g .setConnected with dying := true, closes := s.closes ++ [g] }
  | .setConnected => some { s.goto g .onClose with connected := false }
  | .onClose => some { s.goto g .stopTimer with onCloses := s.onCloses ++ [g] }
  | .stopTimer => some { s.goto g .closeConn with timer := s.timer.map fun _ => false }
  | .closeConn => some { s.goto g .finished with connClosed := true }
  | .finished | .skipped | .panicked => none

def newConnection (timer : Option Bool) : State G := ⟨fun _ => .get, true, false, timer, false, [], []⟩

namespace Point

def entered : Point → Bool
  | .get | .skipped => false
  | _ => true

def between : Point → Bool
  | .closeDying | .setConnected => true
  | _ => false

def closedDying : Point → Bool
  | .get | .skipped | .closeDying => false
  | _ => true

def closer : Point → Bool
  | .setConnected | .onClose | .stopTimer | .closeConn | .finished => true
  | _ => false

def calledOnClose : Point → Bool
  | .stopTimer | .closeConn | .finished => true
  | _ => false

theorem entered_of_closedDying {p : Point} (h : p.closedDying = true) : p.entered = true := by
  cases p <;> first | rfl | cases h

theorem closedDying_of_entered {p : Point} (h : p.entered = true) (hne : p ≠ .closeDying) : p.closedDying = true := by
  cases p with
  | closeDying => exact absurd rfl hne
  | get | skipped => cases h
  | setConnected | onClose | stopTimer | closeConn | finished | panicked => rfl

theorem entered_of_between {p : Point} (h : p.between = true) : p.entered = true := by
  cases p <;> first | rfl | cases h

theorem closer_of_calledOnClose {p : Point} (h : p.calledOnClose = true) : p.closer = true := by
  cases p <;> first | rfl | cases h

end Point

def AtMostOne (q : Point → Bool) (point : G → Point) : Prop :=
  ∀ a b, q (point a) = true → q (point b) = true → a = b

section Updates

variable {q : Point → Bool} {point : G → Point} {g : G} {p : Point} {log : List G}

theorem mem_update (h : ∀ a, a ∈ log ↔ q (point a) = true) (hp : q p = q (point g)) (a : G) :
    a ∈ log ↔ q (Function.update point g p a) = true := by
  rw [h a]
  by_cases ha : a = g
  · rw [ha, Function.update_self, hp]
  · rw [Function.update_of_ne ha]

theorem mem_update_new (h : ∀ a, a ∈ log ↔ q (point a) = true) (hp : q p = true) (a : G) :
    a ∈ log ++ [g] ↔ q (Function.update point g p a) = true := by
  rw [List.mem_append, List.mem_singleton]
  by_cases ha : a = g
  · rw [ha, Function.update_self]
    exact iff_of_true (.inr rfl) hp
  · rw [Function.update_of_ne ha, h a, or_iff_left ha]

omit [DecidableEq G] in
theorem nodup_append_new (h : ∀ a, a ∈ log ↔ q (point a) = true) (hlog : log.Nodup) (hg : q (point g) = false) :
    (log ++ [g]).Nodup := by
  rw [← List.concat_eq_append]
  apply hlog.concat
  rw [h g, hg]
  exact Bool.false_ne_true

omit [DecidableEq G] in
theorem length_le_one_iff (h : ∀ a, a ∈ log ↔ q (point a) = true) (hlog : log.Nodup) :
    log.length ≤ 1 ↔ AtMostOne q point := by
  simp only [AtMostOne, ← h]
  match log, hlog with
  | [], _ => exact iff_of_true (Nat.zero_le 1) nofun
  | [c], _ =>
      refine iff_of_true (Nat.le_refl 1) ?_
      intro a b ha hb
      rw [List.mem_singleton.mp ha, List.mem_singleton.mp hb]
  | c :: d :: rest, hlog =>
      refine iff_of_false (by simp) ?_
      intro hone
      have hcd := hone c d List.mem_cons_self (List.mem_cons_of_mem _ List.mem_cons_self)
      exact (List.nodup_cons.mp hlog).1 (hcd ▸ List.mem_cons_self)

theorem atMostOne_update (h : AtMostOne q point) (hp : q p = true → q (point g) = true ∨ ∀ a, q (point a) = false) :
    AtMostOne q (Function.update point g p) := by
  have hold : ∀ a, q (Function.update point g p a) = true → a = g ∨ q (point a) = true := by
    intro a ha
    by_cases hag : a = g
    · exact .inl hag
    · rw [Function.update_of_ne hag] at ha
      exact .inr ha
  intro a b ha hb
  rcases hold a ha with rfl | ha'
  · rcases hold b hb with rfl | hb'
    · rfl
    · rw [Function.update_self] at ha
      rcases hp ha with hg | hnone
      · exact h _ _ hg hb'
      · rw [hnone b] at hb'
        cases hb'
  · rcases hold b hb with rfl | hb'
    · rw [Function.update_self] at hb
      rcases hp hb with hg | hnone
      · exact h _ _ ha' hg
      · rw [hnone a] at ha'
        cases ha'
    · exact h _ _ ha' hb'

end Updates

/-- What holds in every state: the two lists say which calls have come how far, and one call closed the channel. -/
structure Recorded (s : State G) : Prop where
  closes : ∀ g, g ∈ s.closes ↔ (s.point g).closedDying = true
  closes_nodup : s.closes.Nodup
  onCloses : ∀ g, g ∈ s.onCloses ↔ (s.point g).calledOnClose = true
  onCloses_nodup : s.onCloses.Nodup
  closer : AtMostOne Point.closer s.point
  open_closer : s.dying = false → ∀ g, (s.point g).closer = false
  closed : s.dying = true → s.closes ≠ []

omit [DecidableEq G] in
theorem recorded_new (timer : Option Bool) : Recorded (newConnection timer : State G) where
  closes := by simp [newConnection, Point.closedDying]
  closes_nodup := List.nodup_nil
  onCloses := by simp [newConnection, Point.calledOnClose]
  onCloses_nodup := List.nodup_nil
  closer := nofun
  open_closer := fun _ _ => rfl
  closed := nofun

variable {s t : State G} {g : G} {p : Point}

theorem point_goto (s : State G) (g : G) (p : Point) : (s.goto g p).point = Function.update s.point g p := rfl

/-- A call that moves on to a point where it is no more the closer than before. -/
theorem Recorded.closer_goto (h : Recorded s) (hp : p.closer = true → (s.point g).closer = true) :
    AtMostOne Point.closer (s.goto g p).point ∧ (s.dying = false → ∀ a, ((s.goto g p).point a).closer = false) := by
  refine ⟨atMostOne_update h.closer fun hcloser => .inl (hp hcloser), ?_⟩
  intro hd a
  by_cases ha : a = g
  · have hg := h.open_closer hd g
    rw [ha, point_goto, Function.update_self]
    cases hc : p.closer with
    | false => rfl
    | true => rw [hp hc] at hg; cases hg
  · rw [point_goto, Function.update_of_ne ha, h.open_closer hd a]

/-- A call moves on without closing the channel or calling OnClose. -/
theorem Recorded.moved (h : Recorded s) (hpoint : t.point = Function.update s.point g p) (hdying : t.dying = s.dying)
    (hcloses : t.closes = s.closes) (honCloses : t.onCloses = s.onCloses)
    (hp : (p.closedDying, p.calledOnClose, p.closer) =
      ((s.point g).closedDying, (s.point g).calledOnClose, (s.point g).closer)) : Recorded t := by
  obtain ⟨point, connected, dying, timer, connClosed, closes, onCloses⟩ := t
  dsimp only at hpoint hdying hcloses honCloses
  subst hpoint hdying hcloses honCloses
  obtain ⟨hclosed, hrest⟩ := Prod.mk.inj hp
  obtain ⟨hcalled, hcloser⟩ := Prod.mk.inj hrest
  obtain ⟨hone, hnone⟩ := h.closer_goto (g := g) fun hc => hcloser ▸ hc
  exact ⟨mem_update h.closes hclosed, h.closes_nodup, mem_update h.onCloses hcalled, h.onCloses_nodup, hone, hnone,
    h.closed⟩

theorem recorded_closeDying (h : Recorded s) (hp : s.point g = .closeDying) (hstep : step s g = some t) :
    Recorded t := by
  have hnew : (s.closes ++ [g]).Nodup := nodup_append_new h.closes h.closes_nodup (by rw [hp]; rfl)
  simp only [step, hp] at hstep
  split at hstep
  next hd =>
    cases hstep
    obtain ⟨hone, hnone⟩ := h.closer_goto (g := g) (p := .panicked) nofun
    exact ⟨mem_update_new h.closes rfl, hnew, mem_update h.onCloses (by rw [hp]; rfl), h.onCloses_nodup, hone, hnone,
      by simp⟩
  next hd =>
    cases hstep
    have hone : AtMostOne Point.closer (s.goto g .setConnected).point :=
      atMostOne_update h.closer fun _ => .inr (h.open_closer (Bool.eq_false_iff.mpr hd))
    exact ⟨mem_update_new h.closes rfl, hnew, mem_update h.onCloses (by rw [hp]; rfl), h.onCloses_nodup, hone, nofun,
      by simp⟩

theorem recorded_step (h : Recorded s) (hstep : step s g = some t) : Recorded t := by
  cases hp : s.point g with
  | closeDying => exact recorded_closeDying h hp hstep
  | get =>
      simp only [step, hp] at hstep
      cases hstep
      exact h.moved rfl rfl rfl rfl (by rw [hp]; split <;> rfl)
  | onClose =>
      simp only [step, hp] at hstep
      cases hstep
      obtain ⟨hone, hnone⟩ := h.closer_goto (g := g) (p := .stopTimer) (by rw [hp]; exact id)
      exact ⟨mem_update h.closes (by rw [hp]; rfl), h.closes_nodup, mem_update_new h.onCloses rfl,
        nodup_append_new h.onCloses h.onCloses_nodup (by rw [hp]; rfl), hone, hnone, h.closed⟩
  | setConnected | stopTimer | closeConn =>
      simp only [step, hp] at hstep
      cases hstep
      exact h.moved rfl rfl rfl rfl (by rw [hp]; rfl)
  | finished | skipped | panicked =>
      simp only [step, hp] at hstep
      cases hstep

omit [DecidableEq G] in
/-- In every state OnClose has been called at most once, by the call that closed the channel. -/
theorem Recorded.onCloses_le (h : Recorded s) : s.onCloses.length ≤ 1 := by
  rw [length_le_one_iff h.onCloses h.onCloses_nodup]
  intro a b ha hb
  exact h.closer a b (Point.closer_of_calledOnClose ha) (Point.closer_of_calledOnClose hb)

/-- A Get does not find the connection open while another call is between its Get and its Set. -/
def Alone (s : State G) (g : G) : Prop :=
  s.point g = .get → s.connected = true → ∀ a, (s.point a).between = false

def Begun (s : State G) (g : G) : Prop := s.point g ≠ .get

structure Single (s : State G) : Prop where
  recorded : Recorded s
  entered : AtMostOne Point.entered s.point
  between : s.connected = true → ∀ g, (s.point g).entered = true → (s.point g).between = true

omit [DecidableEq G] in
theorem single_new (timer : Option Bool) : Single (newConnection timer : State G) :=
  ⟨recorded_new timer, nofun, nofun⟩

omit [DecidableEq G] in
theorem Single.closes_le (h : Single s) : s.closes.length ≤ 1 ∧ s.onCloses.length ≤ 1 := by
  refine ⟨?_, h.recorded.onCloses_le⟩
  rw [length_le_one_iff h.recorded.closes h.recorded.closes_nodup]
  intro a b ha hb
  exact h.entered a b (Point.entered_of_closedDying ha) (Point.entered_of_closedDying hb)

/-- A call that has entered stays so. -/
theorem step_point (hstep : step s g = some t) :
    ∃ p, t.point = Function.update s.point g p ∧ ((s.point g).entered = true → p.entered = true) := by
  cases hp : s.point g with
  | closeDying =>
      simp only [step, hp] at hstep
      split at hstep <;> cases hstep <;> exact ⟨_, rfl, fun _ => rfl⟩
  | get =>
      simp only [step, hp] at hstep
      cases hstep
      exact ⟨_, rfl, nofun⟩
  | setConnected | onClose | stopTimer | closeConn =>
      simp only [step, hp] at hstep
      cases hstep
      exact ⟨_, rfl, fun _ => rfl⟩
  | finished | skipped | panicked =>
      simp only [step, hp] at hstep
      cases hstep

theorem entered_step (hstep : step s g = some t) {a : G} (ha : (s.point a).entered = true) :
    (t.point a).entered = true := by
  obtain ⟨p, hpoint, hp⟩ := step_point hstep
  rw [hpoint]
  by_cases hag : a = g
  · subst hag
    rw [Function.update_self]
    exact hp ha
  · rwa [Function.update_of_ne hag]

omit [DecidableEq G] in
/-- The only call inside finds the channel open. -/
theorem Single.not_dying (h : Single s) (hp : s.point g = .closeDying) : s.dying = false := by
  cases hd : s.dying with
  | false => rfl
  | true =>
      obtain ⟨c, hc⟩ := List.exists_mem_of_ne_nil _ (h.recorded.closed hd)
      have hclosed := (h.recorded.closes c).mp hc
      have heq : c = g := h.entered c g (Point.entered_of_closedDying hclosed) (by rw [hp]; rfl)
      rw [heq, hp] at hclosed
      cases hclosed

theorem single_step (h : Single s) (halone : Alone s g) (hstep : step s g = some t) : Single t := by
  have hrecorded := recorded_step h.recorded hstep
  -- Behind its Set the call that is inside has left the connection closed.
  have hleft : (s.point g).entered = true → (s.point g).between = false → s.connected = false := by
    intro he hb
    cases hc : s.connected with
    | false => rfl
    | true =>
        rw [h.between hc g he] at hb
        cases hb
  cases hp : s.point g with
  | get =>
      simp only [step, hp] at hstep
      cases hstep
      cases hc : s.connected with
      | true =>
          have hnone : ∀ a, (s.point a).entered = false := by
            intro a
            have hout := halone hp hc a
            cases ha : (s.point a).entered with
            | false => rfl
            | true => exact (hout.symm.trans (h.between hc a ha)).symm
          rw [hc] at hrecorded
          refine ⟨hrecorded, atMostOne_update h.entered fun _ => .inr hnone, ?_⟩
          intro _
          refine (Function.forall_update_iff s.point (fun _ p => p.entered = true → p.between = true)).mpr
            ⟨fun _ => rfl, ?_⟩
          intro a _ ha
          rw [hnone a] at ha
          cases ha
      | false =>
          rw [hc] at hrecorded
          exact ⟨hrecorded, atMostOne_update h.entered nofun, fun hc' => absurd (hc.symm.trans hc') nofun⟩
  | closeDying =>
      simp only [step, hp, h.not_dying hp] at hstep
      cases hstep
      refine ⟨hrecorded, atMostOne_update h.entered fun _ => .inl (by rw [hp]; rfl), ?_⟩
      intro hc
      exact (Function.forall_update_iff s.point (fun _ p => p.entered = true → p.between = true)).mpr
        ⟨fun _ => rfl, fun a _ => h.between hc a⟩
  | setConnected =>
      simp only [step, hp] at hstep
      cases hstep
      exact ⟨hrecorded, atMostOne_update h.entered fun _ => .inl (by rw [hp]; rfl), nofun⟩
  | onClose | stopTimer | closeConn =>
      have hc := hleft (by rw [hp]; rfl) (by rw [hp]; rfl)
      simp only [step, hp] at hstep
      cases hstep
      refine ⟨hrecorded, atMostOne_update h.entered fun _ => .inl (by rw [hp]; rfl), ?_⟩
      intro hc'
      exact absurd hc' (by simp [State.goto, hc])
  | finished | skipped | panicked =>
      simp only [step, hp] at hstep
      cases hstep

/-- If only one call is inside at the end of a run, none ever entered beside another. -/
theorem meets_of_atMostOne {ls : List G} (hrun : run step s ls = some t) (h : AtMostOne Point.entered t.point) :
    Meets step Alone s ls := by
  induction ls generalizing s with
  | nil => trivial
  | cons g ls ih =>
      obtain ⟨v, hv, hrest⟩ := run_cons hrun
      refine ⟨?_, fun w hw => ih (Option.some.inj (hv.symm.trans hw) ▸ hrest)⟩
      intro hp hc a
      cases hb : (s.point a).between with
      | false => rfl
      | true =>
          -- Both calls are inside from here to the end of the run.
          have hlast : ∀ c, (v.point c).entered = true → (t.point c).entered = true := fun c hc =>
            run_invariant (fun _ _ _ hI hstep => entered_step hstep hI) hc hrest
          have ha := hlast a (entered_step hv (Point.entered_of_between hb))
          have hg : (v.point g).entered = true := by
            simp only [step, hp, hc] at hv
            cases hv
            rw [point_goto, Function.update_self]
            rfl
          rw [h a g ha (hlast g hg), hp] at hb
          cases hb

/-- A call that is inside can go on to its close(dying), while the others wait. -/
theorem reaches_closedDying (a : G) (ha : (s.point a).entered = true) :
    ∃ ks t, Meets step Begun s ks ∧ run step s ks = some t ∧ (t.point a).closedDying = true ∧
      ∀ b, b ≠ a → t.point b = s.point b := by
  by_cases hp : s.point a = .closeDying
  · have hstep : ∃ t p, step s a = some t ∧ t.point = Function.update s.point a p ∧ p.closedDying = true := by
      simp only [step, hp]
      split
      · exact ⟨_, .panicked, rfl, rfl, rfl⟩
      · exact ⟨_, .setConnected, rfl, rfl, rfl⟩
    obtain ⟨t, p, ht, hpoint, hclosed⟩ := hstep
    refine ⟨[a], t, ⟨?_, fun _ _ => trivial⟩, by rw [run, ht]; rfl, ?_, ?_⟩
    · rw [Begun, hp]
      decide
    · rw [hpoint, Function.update_self, hclosed]
    · intro b hb
      rw [hpoint, Function.update_of_ne hb]
  · exact ⟨[], s, trivial, rfl, Point.closedDying_of_entered ha hp, fun _ _ => rfl⟩

/-- Two calls inside can both execute their close(dying). -/
theorem atMostOne_of_closes_le (h : Recorded s)
    (hle : ∀ ks t, Meets step Begun s ks → run step s ks = some t → t.closes.length ≤ 1) :
    AtMostOne Point.entered s.point := by
  intro a b ha hb
  by_contra hab
  obtain ⟨ks, t, hks, hrun, hclosed, hrest⟩ := reaches_closedDying a ha
  have hb' : (t.point b).entered = true := by
    rw [hrest b (Ne.symm hab)]
    exact hb
  obtain ⟨ls, u, hls, hrun', hclosed', hrest'⟩ := reaches_closedDying b hb'
  have hall : run step s (ks ++ ls) = some u := (run_append hrun ls).trans hrun'
  have hu : Recorded u := run_invariant (fun _ _ _ hI hstep => recorded_step hI hstep) h hall
  have hone := (length_le_one_iff hu.closes hu.closes_nodup).mp (hle _ u (hks.append hrun hls) hall)
  exact hab (hone a b (by rw [hrest' a hab]; exact hclosed) hclosed')

/-- However the calls that have begun go on, the channel is closed and OnClose is called at most once, exactly if no
Get of the run found the connection open while another call was between its Get and its Set. -/
theorem single_close (timer : Option Bool) (ls : List G) (s : State G)
    (hrun : run step (newConnection timer) ls = some s) :
    (∀ ks t, Meets step Begun s ks → run step s ks = some t → t.closes.length ≤ 1 ∧ t.onCloses.length ≤ 1) ↔
      Meets step Alone (newConnection timer) ls := by
  constructor
  · intro h
    have hs : Recorded s := run_invariant (fun _ _ _ hI hstep => recorded_step hI hstep) (recorded_new timer) hrun
    exact meets_of_atMostOne hrun (atMostOne_of_closes_le hs fun ks t hks ht => (h ks t hks ht).1)
  · intro h ks t hks ht
    have hstep : ∀ (s : State G) g t, Single s → Alone s g → step s g = some t → Single t := fun _ _ _ => single_step
    have hs : Single s := run_invariant_meets hstep (single_new timer) h hrun
    have halone : Meets step Alone s ks := hks.mono fun _ _ hbegun hget => absurd hget hbegun
    exact (run_invariant_meets hstep hs halone ht).closes_le

instance (s : State (Fin 2)) (g : Fin 2) : Decidable (Alone s g) :=
  inferInstanceAs (Decidable (s.point g = .get → s.connected = true → ∀ a, (s.point a).between = false))

/-- The second call comes when the first has executed its Set, and skips everything. -/
theorem single_close_later : ∃ s : State (Fin 2),
    run step (newConnection (some true)) [0, 0, 0, 1, 0, 0, 0] = some s ∧
    s.point 0 = .finished ∧ s.point 1 = .skipped ∧
    ∀ ks t, Meets step Begun s ks → run step s ks = some t → t.closes.length ≤ 1 ∧ t.onCloses.length ≤ 1 :=
  ⟨_, rfl, rfl, rfl, (single_close (some true) [0, 0, 0, 1, 0, 0, 0] _ rfl).mpr (meets_of_check rfl)⟩

/-- Both calls find the connection open; the second one panics. -/
theorem closed_twice : ∃ s : State (Fin 2),
    run step (newConnection none) [0, 1, 0, 1] = some s ∧ s.point 1 = .panicked ∧ s.closes = [0, 1] :=
  ⟨_, rfl, rfl, rfl⟩

end Gev.Connection.WindowsClose
