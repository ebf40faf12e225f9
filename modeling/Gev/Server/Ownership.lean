import Gev.Server.LifeCycle

namespace Gev.Server.Ownership

open Lib.Atomic Lib.Runs Connection.State Connection.Code Connection.History Connection.Writing
open Connection.Tasks EventLoop Interleaving Invariant LifeCycle

variable {Λ G C σ κ δ : Type}

section Definitions

variable (S : Setup Λ C σ κ δ) (s : Process Λ G C σ κ δ)

/-- The system call of a step, if there is one, hits a descriptor that belongs to the connection it is made for. -/
def Owned : Label Λ G C δ → Prop
  | .shutdownWrite _ c => s.owner (S.cfg.fd c) = some c
  | .op ℓ _ => ∀ o k, (s.loops ℓ).prog = .step o k → ∀ c fd, target o = some (c, fd) → s.owner fd = some c
  | _ => True

/-- ShutdownWrite is called before the connection's close, and the registration is run before it. -/
def Prompt : Label Λ G C δ → Prop
  | .shutdownWrite _ c => ¬ closedFd (s.conn S c)
  | .op ℓ _ => ∀ o k, (s.loops ℓ).prog = .step o k → admissible o (s.loops ℓ).work = true
  | _ => True

end Definitions

variable {S : Setup Λ C σ κ δ} {s t : Process Λ G C σ κ δ} {l : Label Λ G C δ}

theorem Prompt.timely (h : Prompt S s l) : Timely s l := by
  cases l with
  | op ℓ a => exact h
  | accept | timer | send | close | shutdownWrite | stop | go | loop => trivial

variable [DecidableEq C]

theorem announced_accepted (hI : Inv S s) {c : C} (h : announced (s.conn S c) = true) : s.accepted c = true := by
  have hmet := announced_iff.mp h
  exact (hI.accepted_of_known (hI.known (List.ne_nil_of_mem hmet))).2

theorem admissible_iff_owned (hI : Inv S s) {ℓ : Λ} {o : Op C κ δ} {k : Res o → Prog C κ δ Unit}
    (ho : (s.loops ℓ).prog = .step o k) :
    admissible o (s.loops ℓ).work = true ↔ ∀ c fd, target o = some (c, fd) → s.owner fd = some c := by
  have hallowed := hI.allowed ho
  cases ht : target o with
  | none => simp [admissible_of_target ht]
  | some x =>
      obtain ⟨c, fd⟩ := x
      obtain ⟨rfl, hk, hopen⟩ := hallowed.target c fd ht
      obtain ⟨rfl, hacc⟩ := hI.accepted_of_known hk
      rw [hopen, hI.owner_iff hacc]
      simp

variable [DecidableEq Λ] [DecidableEq G]

theorem owned_iff_prompt (hI : Inv S s) (h : step S s l = some t) : Owned S s l ↔ Prompt S s l := by
  cases l with
  | shutdownWrite g c =>
      simp only [step] at h
      split at h
      · split at h <;> cases h
        rename_i ha
        exact (hI.owned c (announced_accepted hI ha)).symm
      · cases h
  | op ℓ a =>
      constructor
      · intro howned o k ho
        exact (admissible_iff_owned hI ho).mpr (howned o k ho)
      · intro hprompt o k ho
        exact (admissible_iff_owned hI ho).mp (hprompt o k ho)
  | accept | timer | send | close | stop | go | loop => exact Iff.rfl

theorem meets_prompt (hI : Inv S s) (hidle : S.cfg.idleTime ≤ 0) {ls : List (Label Λ G C δ)}
    (hno : ∀ g c, .shutdownWrite g c ∉ ls) : Meets (step S) (Prompt S) s ls := by
  induction ls generalizing s with
  | nil => trivial
  | cons l ls ih =>
      have htimely := timely_of_inv hI hidle l
      constructor
      · cases l with
        | shutdownWrite g c => exact absurd List.mem_cons_self (hno g c)
        | op ℓ a => exact htimely
        | accept | timer | send | close | stop | go | loop => trivial
      · intro t ht
        apply ih (hI.step htimely (steps_of_step ht))
        intro g c hm
        exact hno g c (List.mem_cons_of_mem l hm)

/-- Every system call of a run is made on a descriptor of its own connection if and only if no ShutdownWrite comes
after the connection's close and no registration does. -/
theorem descriptor_ownership (S : Setup Λ C σ κ δ) (packetSize taskQueueSize : Nat) (conns : C → Conn σ κ)
    (hconns : ∀ c, ∃ user now, conns c = newConnection S.cfg user now) (ls : List (Label Λ G C δ))
    (s : Process Λ G C σ κ δ) (h : run (step S) (init packetSize taskQueueSize conns) ls = some s) :
    Meets (step S) (Owned S) (init packetSize taskQueueSize conns) ls ↔
      Meets (step S) (Prompt S) (init packetSize taskQueueSize conns) ls := by
  have hinv : ∀ (s : Process Λ G C σ κ δ) l t, Inv S s → Prompt S s l → step S s l = some t → Inv S t :=
    fun _ _ _ hI hp ht => hI.step hp.timely (steps_of_step ht)
  exact meets_congr hinv (fun _ _ _ => owned_iff_prompt) (inv_init packetSize taskQueueSize hconns) h

theorem descriptor_ownership_talking : ∃ s, run (step sample) sampleInit talking = some s ∧
    Meets (step sample) (Owned sample) sampleInit talking := by
  have hrun : ∃ s, run (step sample) sampleInit talking = some s := ⟨_, rfl⟩
  obtain ⟨s, hs⟩ := hrun
  have hconns : ∀ c : Nat, ∃ user now, (fun _ : Nat => newConnection sample.cfg () 0 : Nat → Conn Unit Unit) c =
      newConnection sample.cfg user now := fun _ => ⟨(), 0, rfl⟩
  refine ⟨s, hs, (descriptor_ownership sample 8 4 _ hconns talking s hs).mpr ?_⟩
  refine meets_prompt (inv_init 8 4 hconns) (Int.le_refl 0) ?_
  intro g c
  simp [talking, registering, deliver, ops, runs]

/-- Connection 1 is closed by the application, and the kernel gives its descriptor to connection 2. -/
def reusing : List Step :=
  registering ++ [.close false 1, .go false] ++ deliver false ++ ops 10 true ++ runs [.endRun, .test] ++
    [.accept true 2]

/-- The application may still call ShutdownWrite on the closed connection 1, and shuts down connection 2. -/
theorem shutdownWrite_hits_other : ∃ s t, run (step sample) sampleInit reusing = some s ∧
    .syscall .close 5 ∈ (s.conn sample 1).history ∧ s.owner 5 = some 2 ∧
    step sample s (.shutdownWrite false 1) = some t ∧ ¬ Owned sample s (.shutdownWrite false 1) := by
  have hrun : ∃ s, run (step sample) sampleInit reusing = some s ∧ .syscall .close 5 ∈ (s.conn sample 1).history ∧
      s.owner 5 = some 2 ∧ step sample s (.shutdownWrite false 1) = some s :=
    ⟨_, rfl, List.mem_of_getElem? (i := 4) rfl, rfl, rfl⟩
  obtain ⟨s, hs, hclosed, howner, ht⟩ := hrun
  refine ⟨s, s, hs, hclosed, howner, ht, ?_⟩
  intro howned
  rw [show s.owner 5 = some 1 from howned] at howner
  cases howner

end Gev.Server.Ownership
