import Gev.Server.LifeCycle
import Gev.Connection.Counting

namespace Gev.Server.Count

open Lib.Atomic Lib.Runs Connection.State Connection.Code Connection.Counting EventLoop Interleaving Effects LifeCycle

variable {Λ G C σ κ δ : Type}

def stopping : Pc Λ C δ → Option Λ
  | .queue ℓ .closing | .queued ℓ .closing | .swapCount ℓ | .testRunning ℓ | .setRunning ℓ | .wakePoller ℓ
  | .waitDone ℓ => some ℓ
  | _ => none

def beforeSwap : Pc Λ C δ → Option Λ
  | .queue ℓ .closing | .queued ℓ .closing | .swapCount ℓ => some ℓ
  | _ => none

section Definitions

variable (S : Setup Λ C σ κ δ) (s : Process Λ G C σ κ δ)

def ResetAhead (ℓ : Λ) : Prop := ∃ g, beforeSwap (s.pcs g) = some ℓ

/-- An operation does not upset the count: the map is updated as its code expects and not while a reset of the count is
waiting for the map to be dropped, and what is counted without a map, or dropped with entries in it, is reset later. -/
def Proper (ℓ : Λ) (o : Op C κ δ) : Prop :=
  found o (s.loops ℓ).work = true ∧ (s.owed ℓ = true → calm o = true) ∧ match o with
    | .addCount _ => (s.loops ℓ).work.sockets = none → ResetAhead s ℓ
    | .dropSockets => s.owed ℓ = false → 0 < entries (s.loops ℓ).work → ResetAhead s ℓ
    | _ => True

/-- The conditions on a run. The Swap of Stop does not fall into an update of map and count, and a Stop whose Swap met
entries in the map does not return before the map is dropped. -/
def Accounted : Label Λ G C δ → Prop
  | .op ℓ _ => ∀ o k, (s.loops ℓ).prog = .step o k → Proper s ℓ o
  | .go g => match s.pcs g with
    | .swapCount ℓ => ∀ o k, (s.loops ℓ).prog = .step o k → midUpdate o = false
    | .testRunning ℓ => s.owed ℓ = true → (s.loops ℓ).poll.running = true
    | .waitDone ℓ => s.owed ℓ = false
    | _ => True
  | _ => True

structure Balanced (ℓ : Λ) (b : Int) [DecidableEq C] : Prop where
  runs : Always ((semantics S.cfg).assuming fun o L => found o L = true) (Steady b) (fun _ => Level b)
    (s.loops ℓ).prog (s.loops ℓ).work
  level : s.owed ℓ = false → (s.loops ℓ).work.sockets.isSome → (s.loops ℓ).connCunt + b = (s.loops ℓ).work.counted
  gone : s.owed ℓ = false → (s.loops ℓ).work.sockets = none → (s.loops ℓ).connCunt = 0 ∨ ResetAhead s ℓ
  owed : s.owed ℓ = true → (s.loops ℓ).work.sockets.isSome ∧ (s.loops ℓ).connCunt = 0 ∧
    ∃ g, stopping (s.pcs g) = some ℓ

end Definitions

variable [DecidableEq C] {S : Setup Λ C σ κ δ} {s t : Process Λ G C σ κ δ} {l : Label Λ G C δ} {ℓ : Λ} {b : Int}

/-- Between two tasks, and outside Stop, the count is the number of entries. -/
theorem Balanced.count (hB : Balanced S s ℓ b) {u : Unit} (hd : (s.loops ℓ).prog = .done u)
    (hno : ∀ g, stopping (s.pcs g) ≠ some ℓ) : (s.loops ℓ).connCunt = entries (s.loops ℓ).work := by
  have howed : s.owed ℓ = false := by
    cases ho : s.owed ℓ with
    | false => rfl
    | true =>
        obtain ⟨-, -, g, hg⟩ := hB.owed ho
        exact absurd hg (hno g)
  cases hs : (s.loops ℓ).work.sockets with
  | none =>
      rcases hB.gone howed hs with hzero | ⟨g, hg⟩
      · simp [hzero, entries, values, hs]
      · refine absurd ?_ (hno g)
        cases hpc : s.pcs g with
        | queue m v | queued m v =>
            rw [hpc] at hg
            cases v <;> exact hg
        | swapCount m =>
            rw [hpc] at hg
            exact hg
        | idle | check | testRunning | setRunning | wakePoller | waitDone =>
            rw [hpc] at hg
            cases hg
  | some m =>
      have hsome : (s.loops ℓ).work.sockets.isSome := by simp [hs]
      have hruns := hB.runs
      rw [hd] at hruns
      have hlevel : surplus (s.loops ℓ).work = b := hruns hsome
      have hcount := hB.level howed hsome
      rw [surplus] at hlevel
      omega

omit [DecidableEq C] in
theorem exists_update [DecidableEq G] {f : Pc Λ C δ → Option Λ} {g₀ : G} {pc : Pc Λ C δ}
    (hpc : f (s.pcs g₀) = some ℓ → f pc = some ℓ) (h : ∃ g, f (s.pcs g) = some ℓ) :
    ∃ g, f (Function.update s.pcs g₀ pc g) = some ℓ := by
  obtain ⟨g, hg⟩ := h
  by_cases hne : g = g₀
  · subst hne
    exact ⟨g, by rw [Function.update_self]; exact hpc hg⟩
  · exact ⟨g, by rw [Function.update_of_ne hne]; exact hg⟩

/-- A step that leaves the loop's work and count alone. -/
theorem Balanced.quiet (hB : Balanced S s ℓ b) (hw : (t.loops ℓ).work = (s.loops ℓ).work)
    (hp : (t.loops ℓ).prog = (s.loops ℓ).prog) (hc : (t.loops ℓ).connCunt = (s.loops ℓ).connCunt)
    (ho : t.owed ℓ = s.owed ℓ) (hbefore : ResetAhead s ℓ → ResetAhead t ℓ)
    (hstop : s.owed ℓ = true → (∃ g, stopping (s.pcs g) = some ℓ) → ∃ g, stopping (t.pcs g) = some ℓ) :
    Balanced S t ℓ b where
  runs := by
    rw [hw, hp]
    exact hB.runs
  level := by
    rw [hw, hc, ho]
    exact hB.level
  gone := by
    rw [hw, hc, ho]
    exact fun howed hs => (hB.gone howed hs).imp id hbefore
  owed := by
    rw [hw, hc, ho]
    intro howed
    obtain ⟨hsome, hzero, hg⟩ := hB.owed howed
    exact ⟨hsome, hzero, hstop howed hg⟩

/-- What Stop finds when its Swap does not fall into an update. -/
theorem Balanced.settled (hB : Balanced S s ℓ b)
    (hmid : ∀ o k, (s.loops ℓ).prog = .step o k → midUpdate o = false) : Level b (s.loops ℓ).work := by
  have hruns := hB.runs
  cases hp : (s.loops ℓ).prog with
  | done u =>
      rw [hp] at hruns
      exact hruns
  | step o k =>
      rw [hp] at hruns
      exact hruns.1 (hmid o k hp)

theorem Balanced.reset (hB : Balanced S s ℓ b) (hmid : ∀ o k, (s.loops ℓ).prog = .step o k → midUpdate o = false)
    (hw : (t.loops ℓ).work = (s.loops ℓ).work) (hp : (t.loops ℓ).prog = (s.loops ℓ).prog)
    (hc : (t.loops ℓ).connCunt = 0) (ho : t.owed ℓ = !(values (s.loops ℓ).work.sockets).isEmpty)
    (hstop : ∃ g, stopping (t.pcs g) = some ℓ) : Balanced S t ℓ b where
  runs := by
    rw [hw, hp]
    exact hB.runs
  level := by
    rw [hw, hc, ho]
    intro howed hsome
    have hlevel := hB.settled hmid hsome
    have hempty : entries (s.loops ℓ).work = 0 := by simpa [entries] using howed
    rw [surplus, hempty] at hlevel
    omega
  gone := fun _ _ => .inl hc
  owed := by
    rw [hw, hc, ho]
    intro howed
    refine ⟨?_, rfl, hstop⟩
    cases hs : (s.loops ℓ).work.sockets with
    | none => simp [hs, values] at howed
    | some m => rfl

/-- The map is dropped with nothing left of the count, unless a Stop has yet to reset it. -/
theorem Balanced.dropped (hB : Balanced S s ℓ b) {k : Res .dropSockets → Prog C κ δ Unit}
    (ho : (s.loops ℓ).prog = .step .dropSockets k)
    (hreset : s.owed ℓ = false → 0 < entries (s.loops ℓ).work → ResetAhead s ℓ) :
    (s.loops ℓ).connCunt = 0 ∨ ResetAhead s ℓ := by
  cases hw : s.owed ℓ with
  | true => exact .inl (hB.owed hw).2.1
  | false =>
      cases hm : (s.loops ℓ).work.sockets with
      | none => exact hB.gone hw hm
      | some m =>
          have hsome : (s.loops ℓ).work.sockets.isSome := by simp [hm]
          rcases Nat.eq_zero_or_pos (entries (s.loops ℓ).work) with hzero | hpos
          · have hmid : ∀ o k, (s.loops ℓ).prog = .step o k → midUpdate o = false := by
              intro o k' hp
              rw [ho] at hp
              cases hp
              rfl
            have hlevel := hB.settled hmid hsome
            have hcount := hB.level hw hsome
            rw [surplus, hzero] at hlevel
            left
            omega
          · exact .inr (hreset hw hpos)

variable [DecidableEq Λ]

omit [DecidableEq C] in
theorem owedEffect_calm {owed : Λ → Bool} {o : Op C κ δ} (h : o ≠ .dropSockets) : owedEffect owed ℓ o = owed := by
  cases o <;> first | rfl | exact absurd rfl h

omit [DecidableEq C] [DecidableEq Λ] in
theorem countEffect_other {n : Int} {o : Op C κ δ} (h : ∀ k, o ≠ .addCount k) : countEffect n o = n := by
  cases o <;> first | rfl | exact absurd rfl (h _)

/-- The loop goroutine's own step. Count and surplus move together as long as there is a map. -/
theorem Balanced.perform (hB : Balanced S s ℓ b) {o : Op C κ δ} {k : Res o → Prog C κ δ Unit} {ch : Choice o}
    {r : Res o}
    {work : Local C σ κ δ} {p : Machine.State G (Task C δ)} (ho : (s.loops ℓ).prog = .step o k)
    (hproper : Proper s ℓ o) (hact : act S.cfg o ch (s.loops ℓ).work = some (r, work))
    (hloop : t.loops ℓ = ⟨p, work, k r, countEffect (s.loops ℓ).connCunt o⟩)
    (howed : t.owed ℓ = owedEffect s.owed ℓ o ℓ) (hpcs : t.pcs = s.pcs) : Balanced S t ℓ b := by
  obtain ⟨hfound, hcalm, hreset⟩ := hproper
  have hahead : ResetAhead t ℓ ↔ ResetAhead s ℓ := by rw [ResetAhead, hpcs, ResetAhead]
  have hruns := hB.runs
  rw [ho] at hruns
  have hrest : Always ((semantics S.cfg).assuming fun o L => found o L = true) (Steady b) (fun _ => Level b)
      (t.loops ℓ).prog (t.loops ℓ).work := by
    rw [hloop]
    exact hruns.2 ch r work ((if_pos hfound).trans hact)
  have hfree : calm o = false → s.owed ℓ = false := by
    intro hc
    cases hw : s.owed ℓ with
    | false => rfl
    | true => exact (hcalm hw).symm.trans hc
  cases act_tally hact with
  | same hc hd hs hcount =>
      have hn : ∀ n, o ≠ .addCount n := by
        rintro n rfl
        cases hc
      rw [owedEffect_calm hd] at howed
      rw [countEffect_other hn] at hloop
      refine ⟨hrest, ?_, ?_, ?_⟩ <;> rw [hloop, howed] <;> dsimp only <;> rw [hs]
      · rw [hcount]
        exact hB.level
      · rw [hahead]
        exact hB.gone
      · rw [hpcs]
        exact hB.owed
  | update hc hn hs hcount =>
      have hd : o ≠ .dropSockets := by
        rintro rfl
        cases hc
      rw [owedEffect_calm hd, hfree hc] at howed
      rw [countEffect_other hn] at hloop
      refine ⟨hrest, ?_, ?_, ?_⟩ <;> rw [hloop, howed] <;> dsimp only
      · rw [hs, hcount]
        exact fun _ => hB.level (hfree hc)
      · rw [hahead, ← Option.isNone_iff_eq_none, ← Option.not_isSome, hs]
        intro _ hnone
        exact hB.gone (hfree hc) (by simpa using hnone)
      · exact fun hw => by cases hw
  | @add n _ hs hcount =>
      rw [owedEffect_calm (by simp), hfree rfl] at howed
      refine ⟨hrest, ?_, ?_, ?_⟩ <;> rw [hloop, howed] <;> dsimp only [countEffect] <;> rw [hs]
      · intro _ hsome
        have hlevel := hB.level (hfree rfl) hsome
        omega
      · rw [hahead]
        exact fun _ hnone => .inr (hreset hnone)
      · exact fun hw => by cases hw
  | drop hs hcount =>
      have hnone : t.owed ℓ = false := by simp [howed, owedEffect]
      refine ⟨hrest, ?_, ?_, ?_⟩ <;> rw [hloop, hnone] <;> dsimp only [countEffect] <;> rw [hs]
      · exact fun _ hsome => by cases hsome
      · rw [hahead]
        exact fun _ _ => hB.dropped ho hreset
      · exact fun hw => by cases hw

omit [DecidableEq Λ] in
theorem entered_balances (p : Machine.State G (Task C δ)) (m : Machine.Label G (Task C δ)) :
    Balances S.cfg b (entered S p m) := by
  unfold entered
  split
  · exact handlerEvent_balances S.cfg S.fuel _ _
  · split
    · exact taskBody_balances S.cfg _
    · exact .done ()
  · exact .done ()

structure Unmoved (x y : Loop G C σ κ δ) : Prop where
  work : y.work = x.work
  prog : y.prog = x.prog
  connCunt : y.connCunt = x.connCunt

omit [DecidableEq C] in
theorem unmoved_setPoll (s : Process Λ G C σ κ δ) (m : Λ) (p : Machine.State G (Task C δ)) (ℓ : Λ) :
    Unmoved (s.loops ℓ) ((s.setPoll m p).loops ℓ) := by
  by_cases hℓ : ℓ = m
  · subst hℓ
    rw [Process.setPoll, loops_setLoop]
    exact ⟨rfl, rfl, rfl⟩
  · rw [Process.setPoll, loops_setLoop_ne s _ hℓ]
    exact ⟨rfl, rfl, rfl⟩

variable [DecidableEq G]

omit [DecidableEq Λ] in
/-- A goroutine other than the loop's moves, and no Stop comes to its Swap or returns while its reset is owed. -/
theorem Balanced.turn (hB : Balanced S s ℓ b) {g : G} {pc : Pc Λ C δ} (hu : Unmoved (s.loops ℓ) (t.loops ℓ))
    (howed : t.owed ℓ = s.owed ℓ) (ht : t.pcs = Function.update s.pcs g pc)
    (hbefore : beforeSwap (s.pcs g) = some ℓ → beforeSwap pc = some ℓ)
    (hstop : s.owed ℓ = true → stopping (s.pcs g) = some ℓ → stopping pc = some ℓ) : Balanced S t ℓ b := by
  refine hB.quiet hu.work hu.prog hu.connCunt howed ?_ ?_
  · rw [ResetAhead, ResetAhead, ht]
    exact exists_update hbefore
  · intro hw
    rw [ht]
    exact exists_update (hstop hw)

theorem Balanced.step (hB : Balanced S s ℓ b) (hl : Accounted s l) (h : Steps S s l t) : Balanced S t ℓ b := by
  have hidle : ∀ (f : Pc Λ C δ → Option Λ) {g : G} {pc pc' : Pc Λ C δ}, s.pcs g = pc → f pc = none →
      f (s.pcs g) = some ℓ → f pc' = some ℓ := by
    intro f g pc pc' hg hf hs
    rw [hg, hf] at hs
    cases hs
  have hsame : ∀ (f : Pc Λ C δ → Option Λ) {g : G} {pc pc' : Pc Λ C δ}, s.pcs g = pc → f pc = f pc' →
      f (s.pcs g) = some ℓ → f pc' = some ℓ := by
    intro f g pc pc' hg hf hs
    rwa [hg, hf] at hs
  cases h with
  | silent => exact hB
  | accept hg | call hg | stop hg =>
      exact hB.turn ⟨rfl, rfl, rfl⟩ rfl rfl (hidle beforeSwap hg rfl) (fun _ => hidle stopping hg rfl)
  | enqueue hg | refuse hg =>
      exact hB.turn ⟨rfl, rfl, rfl⟩ rfl rfl (hidle beforeSwap hg rfl) (fun _ => hidle stopping hg rfl)
  | @append g m u p hg hp =>
      refine hB.turn (unmoved_setPoll s m p ℓ) rfl rfl (hsame beforeSwap hg ?_) (fun _ => hsame stopping hg ?_) <;>
        cases u <;> rfl
  | @inQueue g m u k p pc hg hm hp hpc =>
      refine hB.turn (unmoved_setPoll s m p ℓ) rfl rfl (hsame beforeSwap hg ?_) (fun _ => hsame stopping hg ?_) <;>
        rcases hpc with rfl | rfl <;> cases u <;> rfl
  | @swapCount g m hg =>
      by_cases hℓ : ℓ = m
      · subst hℓ
        have hmid : ∀ o k, (s.loops ℓ).prog = .step o k → midUpdate o = false := by simpa [Accounted, hg] using hl
        have hloop := loops_setLoop s ℓ { s.loops ℓ with connCunt := 0 }
        have hwork : ((s.setLoop ℓ { s.loops ℓ with connCunt := 0 }).loops ℓ).work = (s.loops ℓ).work := by rw [hloop]
        have hprog : ((s.setLoop ℓ { s.loops ℓ with connCunt := 0 }).loops ℓ).prog = (s.loops ℓ).prog := by rw [hloop]
        have hcount : ((s.setLoop ℓ { s.loops ℓ with connCunt := 0 }).loops ℓ).connCunt = 0 := by rw [hloop]
        refine hB.reset hmid hwork hprog hcount ?_ ⟨g, ?_⟩
        · simp
        · simp [Process.setPc, stopping]
      · have hloop : (s.setLoop m { s.loops m with connCunt := 0 }).loops ℓ = s.loops ℓ := loops_setLoop_ne s _ hℓ
        refine hB.turn ⟨congrArg Loop.work hloop, congrArg Loop.prog hloop, congrArg Loop.connCunt hloop⟩ ?_ rfl ?_ ?_
        · simp [hℓ]
        · rw [hg]
          intro he
          exact absurd (Option.some.inj he).symm hℓ
        · exact fun _ => hsame stopping hg rfl
  | @testRunning g m pc hg hpc =>
      refine hB.turn ⟨rfl, rfl, rfl⟩ rfl rfl (hidle beforeSwap hg rfl) ?_
      intro hw hs
      rcases hpc with ⟨rfl, -⟩ | ⟨rfl, hr⟩
      · exact hsame stopping hg rfl hs
      · have hrun : s.owed m = true → (s.loops m).poll.running = true := by simpa [Accounted, hg] using hl
        rw [hg] at hs
        cases hs
        rw [hrun hw] at hr
        cases hr
  | @closePoller g m k p pc hg hp =>
      rcases hg with ⟨hg, -, rfl⟩ | ⟨hg, -, rfl⟩
      · exact hB.turn (unmoved_setPoll s m p ℓ) rfl rfl (hidle beforeSwap hg rfl) (fun _ => hsame stopping hg rfl)
      · exact hB.turn (unmoved_setPoll s m p ℓ) rfl rfl (hidle beforeSwap hg rfl) (fun _ => hsame stopping hg rfl)
  | @waitDone g m hg hx =>
      refine hB.turn ⟨rfl, rfl, rfl⟩ rfl rfl (hidle beforeSwap hg rfl) ?_
      intro hw hs
      have hfree : s.owed m = false := by simpa [Accounted, hg] using hl
      rw [hg] at hs
      cases hs
      rw [hw] at hfree
      cases hfree
  | @loop m k p u hd hc hp =>
      by_cases hℓ : ℓ = m
      · subst hℓ
        have hlevel := hB.runs
        rw [hd] at hlevel
        refine ⟨?_, ?_, ?_, ?_⟩ <;> rw [loops_setLoop]
        · exact entered_balances _ _ _ hlevel
        · exact hB.level
        · exact hB.gone
        · exact hB.owed
      · have hloop := loops_setLoop_ne s { s.loops m with poll := p, prog := entered S (s.loops m).poll k } hℓ
        exact hB.quiet (congrArg Loop.work hloop) (congrArg Loop.prog hloop) (congrArg Loop.connCunt hloop) rfl id
          (fun _ => id)
  | @op m a o k r work p ho hact hp =>
      by_cases hℓ : ℓ = m
      · subst hℓ
        exact hB.perform ho (hl o k ho) hact (loops_setLoop ..) rfl rfl
      · have hloop := loops_setLoop_ne s ⟨p, work, k r, countEffect (s.loops m).connCunt o⟩ hℓ
        refine hB.quiet (congrArg Loop.work hloop) (congrArg Loop.prog hloop) (congrArg Loop.connCunt hloop) ?_ id
          (fun _ => id)
        change owedEffect s.owed m o ℓ = s.owed ℓ
        cases o <;> simp [owedEffect, hℓ]

/-- In every run that meets the conditions, the count of a loop is the number of entries of its map whenever the loop is
between two tasks or events and no Stop of it is in progress. -/
theorem connection_count (S : Setup Λ C σ κ δ) (packetSize taskQueueSize : Nat) (conns : C → Conn σ κ)
    (ls : List (Label Λ G C δ)) (s : Process Λ G C σ κ δ)
    (hok : Meets (step S) Accounted (init packetSize taskQueueSize conns) ls)
    (h : run (step S) (init packetSize taskQueueSize conns) ls = some s) (ℓ : Λ) (u : Unit)
    (hd : (s.loops ℓ).prog = .done u) (hno : ∀ g, stopping (s.pcs g) ≠ some ℓ) :
    (s.loops ℓ).connCunt = entries (s.loops ℓ).work ∧ 0 ≤ (s.loops ℓ).connCunt := by
  have hinit : Balanced S (init packetSize taskQueueSize conns : Process Λ G C σ κ δ) ℓ 0 := by
    refine ⟨fun _ => rfl, fun _ _ => rfl, ?_, ?_⟩
    · intro _ hnone
      cases hnone
    · intro hw
      cases hw
  have hB : Balanced S s ℓ 0 := run_invariant_meets
    (I := fun s => Balanced S s ℓ 0) (fun s l t hB hl hstep => hB.step hl (steps_of_step hstep)) hinit hok h
  have hcount := hB.count hd hno
  exact ⟨hcount, by omega⟩

section Sample

def tested (s : Process Unit Bool Nat Unit Unit Bytes) : Step → Bool
  | .op _ _ => match (s.loops ()).prog with
    | .done _ => true
    | .step o _ => found o (s.loops ()).work && (!s.owed () || calm o) && match o with
      | .addCount _ => (s.loops ()).work.sockets.isSome || ahead
      | .dropSockets => s.owed () || entries (s.loops ()).work == 0 || ahead
      | _ => true
  | .go g => match s.pcs g with
    | .swapCount _ => match (s.loops ()).prog with
      | .done _ => true
      | .step o _ => !midUpdate o
    | .testRunning _ => !s.owed () || (s.loops ()).poll.running
    | .waitDone _ => !s.owed ()
    | _ => true
  | _ => true
where ahead := beforeSwap (s.pcs true) == some () || beforeSwap (s.pcs false) == some ()

theorem ahead_sound {s : Process Unit Bool Nat Unit Unit Bytes} (h : tested.ahead s = true) : ResetAhead s () := by
  simp only [tested.ahead, Bool.or_eq_true, beq_iff_eq] at h
  rcases h with h | h
  · exact ⟨true, h⟩
  · exact ⟨false, h⟩

theorem accounted_of_tested {s : Process Unit Bool Nat Unit Unit Bytes} {l : Step} (h : tested s l = true) :
    Accounted s l := by
  cases l with
  | op ℓ a =>
      intro o k ho
      simp only [tested, show (s.loops ()).prog = .step o k from ho, Bool.and_eq_true] at h
      obtain ⟨⟨hfound, hcalm⟩, hreset⟩ := h
      refine ⟨hfound, ?_, ?_⟩
      · intro hw
        simpa [show s.owed () = true from hw] using hcalm
      · cases o
        case addCount =>
          intro hnone
          apply ahead_sound
          simpa [show (s.loops ()).work.sockets = none from hnone] using hreset
        case dropSockets =>
          intro hw hpos
          apply ahead_sound
          simpa [show s.owed () = false from hw, Nat.ne_of_gt hpos] using hreset
        all_goals trivial
  | go g =>
      simp only [tested] at h
      simp only [Accounted]
      split <;> rename_i hg <;> simp only [hg] at h
      · intro o k ho
        simp only [show (s.loops ()).prog = .step o k from ho] at h
        simpa using h
      · intro hw
        simpa [show s.owed () = true from hw] using h
      · simpa using h
      · trivial
  | accept | timer | send | close | shutdownWrite | stop | loop => trivial

end Sample

theorem connection_count_orderly : ∃ s, run (step sample) sampleInit orderlyStop = some s ∧ s.stopped () = true ∧
    (s.loops ()).connCunt = entries (s.loops ()).work ∧ 0 ≤ (s.loops ()).connCunt := by
  have hrun : ∃ s, run (step sample) sampleInit orderlyStop = some s ∧ s.stopped () = true ∧
      (s.loops ()).prog = .done () ∧ s.pcs = fun _ => .idle := by
    refine ⟨_, rfl, rfl, rfl, ?_⟩
    funext g
    cases g <;> rfl
  obtain ⟨s, hs, hstop, hd, hpcs⟩ := hrun
  have hok : Meets (step sample) (fun s l => tested s l = true) sampleInit orderlyStop := meets_of_check rfl
  exact ⟨s, hs, hstop, connection_count sample 8 4 _ orderlyStop s (hok.mono fun _ _ => accounted_of_tested) hs () () hd
    (by simp [hpcs, stopping])⟩

/-- The epoll call that adds a connection fails and the program closes the connection all the same. -/
def refused : List Step :=
  runs [.enter] ++ [.accept true 1] ++ deliver true ++ ops 2 true ++ ops 1 false ++ ops 1 true ++
    runs [.endRun, .test] ++ [.close false 1, .go false] ++ deliver false ++ ops 10 false ++ runs [.endRun, .test]

theorem refused_count_negative : ∃ s, run (step sample) sampleInit refused = some s ∧
    (s.loops ()).prog = .done () ∧ entries (s.loops ()).work = 0 ∧ (s.loops ()).connCunt = -1 :=
  ⟨_, rfl, rfl, rfl, rfl⟩

end Gev.Server.Count
