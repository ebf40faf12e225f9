import Gev.Server.Effects

namespace Gev.Server.Between

open Lib.Atomic Lib.Runs Connection.State Connection.Code EventLoop Interleaving Effects

variable {Λ G C σ κ δ : Type} [DecidableEq C] {S : Setup Λ C σ κ δ} {s t : Process Λ G C σ κ δ} {l : Label Λ G C δ}
variable {J : Op C κ δ → Local C σ κ δ → Prop} {R K : List (Task C δ) → Local C σ κ δ → Prop}

/-- From a state with a property R, every event and every task performs only permitted operations and maintains what is
known of the connections after the tasks run so far. -/
structure Lasting (S : Setup Λ C σ κ δ) (R : List (Task C δ) → Local C σ κ δ → Prop)
    (J : Op C κ δ → Local C σ κ δ → Prop) (K : List (Task C δ) → Local C σ κ δ → Prop) : Prop where
  event : ∀ ts L fd events, R ts L → K ts L →
    Always (semantics S.cfg) J (fun _ => K ts) (handlerEvent S.cfg S.fuel fd events) L
  task : ∀ ts L u, R ts L → K ts L → Always (semantics S.cfg) J (fun _ => K (ts ++ [u])) (taskBody S.cfg u) L

def Ready (R : List (Task C δ) → Local C σ κ δ → Prop) (s : Process Λ G C σ κ δ) : Prop :=
  ∀ ℓ u, (s.loops ℓ).prog = .done u → R (s.loops ℓ).poll.executed (s.loops ℓ).work

def Holds (S : Setup Λ C σ κ δ) (J : Op C κ δ → Local C σ κ δ → Prop) (K : List (Task C δ) → Local C σ κ δ → Prop)
    (s : Process Λ G C σ κ δ) : Prop :=
  ∀ ℓ, Always (semantics S.cfg) J (fun _ => K (s.loops ℓ).poll.executed) (s.loops ℓ).prog (s.loops ℓ).work

theorem Holds.done (h : Holds S J K s) {ℓ : Λ} {u : Unit} (hd : (s.loops ℓ).prog = .done u) :
    K (s.loops ℓ).poll.executed (s.loops ℓ).work := by
  have hℓ := h ℓ
  rw [hd] at hℓ
  exact hℓ

theorem Holds.permits (h : Holds S J K s) {ℓ : Λ} {o : Op C κ δ} {k : Res o → Prog C κ δ Unit}
    (ho : (s.loops ℓ).prog = .step o k) : J o (s.loops ℓ).work := by
  have hℓ := h ℓ
  rw [ho] at hℓ
  exact hℓ.1

variable [DecidableEq G]

omit [DecidableEq C] in
/-- What a step of the poller leads into, and what it adds to the tasks that were run. -/
theorem entered_cases (S : Setup Λ C σ κ δ) {p q : Machine.State G (Task C δ)} {m : Machine.Label G (Task C δ)}
    (hc : control m = true) (hm : Machine.step S.growQueue p m = some q) :
    (entered S p m = .done () ∧ q.executed = p.executed) ∨
      (∃ fd events, entered S p m = handlerEvent S.cfg S.fuel fd events ∧ q.executed = p.executed) ∨
      ∃ u, entered S p m = taskBody S.cfg u ∧ q.executed = p.executed ++ [u] := by
  cases Machine.steps_of_step hm with
  | append | swapped | notSwapped | wake | closeSet | closeWake => cases hc
  | loop _ hmove =>
      cases hmove with
      | enter | poll | endBatch | setNeedWake | swap | endRun | test => exact .inl ⟨rfl, rfl⟩
      | readEventFd hcur => exact .inl ⟨by simp only [entered, hcur], rfl⟩
      | @socket fd events rest wake hcur => exact .inr (.inl ⟨fd, events, by simp only [entered, hcur], rfl⟩)
      | @runTask i length u hcur _ hv => exact .inr (.inr ⟨u, by simp only [entered, hcur, hv], rfl⟩)

theorem Lasting.entered (hK : Lasting S R J K) {p q : Machine.State G (Task C δ)} {m : Machine.Label G (Task C δ)}
    {L : Local C σ κ δ} (hR : R p.executed L) (h : K p.executed L) (hc : control m = true)
    (hm : Machine.step S.growQueue p m = some q) :
    Always (semantics S.cfg) J (fun _ => K q.executed) (entered S p m) L := by
  rcases entered_cases S hc hm with ⟨hp, he⟩ | ⟨fd, events, hp, he⟩ | ⟨u, hp, he⟩ <;> rw [hp, he]
  · exact h
  · exact hK.event _ L fd events hR h
  · exact hK.task _ L u hR h

variable [DecidableEq Λ]

theorem Holds.step (hK : Lasting S R J K) (hs : Holds S J K s) (hR : Ready R s) (h : Steps S s l t) :
    Holds S J K t := by
  intro ℓ
  have hℓ := hs ℓ
  rcases loop_of_steps h ℓ with ⟨hw, hp, he⟩ | ⟨m, u, hd, hc, hm, hw, hp⟩ | ⟨a, o, k, r, -, ho, hact, hp, he⟩
  · rw [hw, hp, he]
    exact hℓ
  · rw [hd] at hℓ
    rw [hw, hp]
    exact hK.entered (hR ℓ u hd) hℓ hc hm
  · rw [ho] at hℓ
    rw [hp, executed_of_pollEffect he]
    exact hℓ.2 _ _ _ hact

/-- What holds at the start and is maintained by events and tasks holds in every state of every run. -/
theorem holds_of_ready (hK : Lasting S R J K) {packetSize taskQueueSize : Nat} {conns : C → Conn σ κ}
    (hinit : K [] (newLocal packetSize conns)) {ls : List (Label Λ G C δ)}
    (hready : Meets (step S) (fun s _ => Ready R s) (init packetSize taskQueueSize conns) ls)
    (h : run (step S) (init packetSize taskQueueSize conns) ls = some s) : Holds S J K s := by
  have hstart : Holds S J K (init packetSize taskQueueSize conns : Process Λ G C σ κ δ) := fun _ => hinit
  exact run_invariant_meets (fun _ _ _ hs hR hstep => hs.step hK hR (steps_of_step hstep)) hstart hready h

theorem holds_of_run (hK : Lasting S (fun _ _ => True) J K) {packetSize taskQueueSize : Nat} {conns : C → Conn σ κ}
    (hinit : K [] (newLocal packetSize conns)) {ls : List (Label Λ G C δ)}
    (h : run (step S) (init packetSize taskQueueSize conns) ls = some s) : Holds S J K s :=
  holds_of_ready hK hinit ((meets_trivial _ ls).mono fun _ _ _ _ _ _ => trivial) h

section Logged

variable {E : Type} {note : (o : Op C κ δ) → Choice o → Local C σ κ δ → List E}
variable {K : List (Task C δ) → Local C σ κ δ → List E → Prop}

def noted (note : (o : Op C κ δ) → Choice o → Local C σ κ δ → List E) (ℓ : Λ) (s : Process Λ G C σ κ δ) :
    Label Λ G C δ → List E
  | .op m a => if m = ℓ then (match (s.loops ℓ).prog with
    | .done _ => []
    | .step o _ => note o (a.choice o) (s.loops ℓ).work) else []
  | _ => []

structure Recording (S : Setup Λ C σ κ δ) (note : (o : Op C κ δ) → Choice o → Local C σ κ δ → List E)
    (K : List (Task C δ) → Local C σ κ δ → List E → Prop) : Prop where
  event : ∀ ts L log fd events, K ts L log → Always ((semantics S.cfg).logging note) (fun _ _ => True)
    (fun _ x => K ts x.1 x.2) (handlerEvent S.cfg S.fuel fd events) (L, log)
  task : ∀ ts L log u, K ts L log → Always ((semantics S.cfg).logging note) (fun _ _ => True)
    (fun _ x => K (ts ++ [u]) x.1 x.2) (taskBody S.cfg u) (L, log)

def Recorded (S : Setup Λ C σ κ δ) (note : (o : Op C κ δ) → Choice o → Local C σ κ δ → List E)
    (K : List (Task C δ) → Local C σ κ δ → List E → Prop) (ℓ : Λ) (s : Process Λ G C σ κ δ) (log : List E) : Prop :=
  Always ((semantics S.cfg).logging note) (fun _ _ => True) (fun _ x => K (s.loops ℓ).poll.executed x.1 x.2)
    (s.loops ℓ).prog ((s.loops ℓ).work, log)

theorem op_of_steps {ℓ : Λ} {a : Answers C} (h : Steps S s (.op ℓ a) t) :
    ∃ o k r, (s.loops ℓ).prog = .step o k ∧ act S.cfg o (a.choice o) (s.loops ℓ).work = some (r, (t.loops ℓ).work) ∧
      (t.loops ℓ).prog = k r ∧ (t.loops ℓ).poll.executed = (s.loops ℓ).poll.executed := by
  cases h with
  | call _ _ hl => exact absurd rfl (hl ℓ a)
  | silent hl => exact absurd rfl (hl ℓ a)
  | @op _ _ o k r work p ho hact hp =>
      refine ⟨o, k, r, ho, ?_⟩
      change act _ _ _ _ = some (r, ((s.setLoop ℓ _).loops ℓ).work) ∧ ((s.setLoop ℓ _).loops ℓ).prog = _ ∧
        ((s.setLoop ℓ _).loops ℓ).poll.executed = _
      rw [loops_setLoop]
      exact ⟨hact, rfl, executed_of_pollEffect hp⟩

theorem Recorded.step (hK : Recording S note K) {ℓ : Λ} {log : List E} (hs : Recorded S note K ℓ s log)
    (h : Steps S s l t) : Recorded S note K ℓ t (log ++ noted note ℓ s l) := by
  by_cases hl : ∃ a, l = .op ℓ a
  · obtain ⟨a, rfl⟩ := hl
    obtain ⟨o, k, r, ho, hact, hp, he⟩ := op_of_steps h
    rw [Recorded, ho] at hs
    rw [Recorded, hp, he, noted, if_pos rfl, ho]
    apply hs.2 (a.choice o) r
    simp only [Semantics.logging, hact, Option.map_some]
  · have hnone : noted note ℓ s l = [] := by
      cases l with
      | op m a =>
          refine if_neg ?_
          rintro rfl
          exact hl ⟨a, rfl⟩
      | accept | timer | send | close | shutdownWrite | stop | go | loop => rfl
    rw [hnone, List.append_nil]
    rcases loop_of_steps h ℓ with ⟨hw, hp, he⟩ | ⟨m, u, hd, hc, hm, hw, hp⟩ | ⟨a, -, -, -, ha, -⟩
    · rw [Recorded, hw, hp, he]
      exact hs
    · rw [Recorded, hd] at hs
      rw [Recorded, hw, hp]
      rcases entered_cases S hc hm with ⟨hq, he⟩ | ⟨fd, events, hq, he⟩ | ⟨v, hq, he⟩ <;> rw [hq, he]
      · exact hs
      · exact hK.event _ _ _ fd events hs
      · exact hK.task _ _ _ v hs
    · exact absurd ⟨a, ha⟩ hl

theorem recorded_of_run (hK : Recording S note K) {packetSize taskQueueSize : Nat} {conns : C → Conn σ κ} (ℓ : Λ)
    (hinit : K [] (newLocal packetSize conns) []) {ls : List (Label Λ G C δ)}
    (h : run (Interleaving.step S) (init packetSize taskQueueSize conns) ls = some s) :
    Recorded S note K ℓ s (logged (Interleaving.step S) (noted note ℓ) (init packetSize taskQueueSize conns) ls) :=
  run_invariant_logged (I := Recorded S note K ℓ) (fun _ _ _ _ hs hstep => hs.step hK (steps_of_step hstep)) hinit h

end Logged

end Gev.Server.Between
