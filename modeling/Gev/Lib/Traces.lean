import Gev.Lib.Runs
import Mathlib.Order.WellFounded
import Mathlib.Data.Nat.Find

namespace Gev.Lib.Traces

open Runs

variable {S L : Type} {step : S → L → Option S} {s₀ : S}

/-- An infinite run of a labelled machine. -/
structure Trace (step : S → L → Option S) (s₀ : S) where
  state : Nat → S
  label : Nat → L
  first : state 0 = s₀
  next : ∀ n, step (state n) (label n) = some (state (n + 1))

namespace Trace

variable (T : Trace step s₀) {P Q I : S → Prop} {A : L → Prop}

/-- Whenever the first property holds, the second one does then or later. -/
def LeadsTo (P Q : S → Prop) : Prop := ∀ n, P (T.state n) → ∃ m, n ≤ m ∧ Q (T.state m)

def Recurs (A : L → Prop) : Prop := ∀ n, ∃ m, n ≤ m ∧ A (T.label m)

variable {T}

theorem invariant (hs : I s₀) (hstep : ∀ s l t, I s → step s l = some t → I t) (n : Nat) : I (T.state n) := by
  induction n with
  | zero =>
      rw [T.first]
      exact hs
  | succ n ih => exact hstep _ _ _ ih (T.next n)

theorem LeadsTo.trans {R : S → Prop} (h : T.LeadsTo P Q) (h' : T.LeadsTo Q R) : T.LeadsTo P R := by
  intro n hP
  obtain ⟨m, hm, hQ⟩ := h n hP
  obtain ⟨k, hk, hR⟩ := h' m hQ
  exact ⟨k, hm.trans hk, hR⟩

/-- A property that every step in the given stretch keeps. -/
theorem stays {n m : Nat} (hnm : n ≤ m) (hP : P (T.state n))
    (hstep : ∀ k, n ≤ k → k < m → P (T.state k) → P (T.state (k + 1))) : P (T.state m) := by
  induction m, hnm using Nat.le_induction with
  | base => exact hP
  | succ m hm ih =>
      apply hstep m hm (Nat.lt_succ_self m)
      exact ih fun k hk hkm => hstep k hk (Nat.lt_succ_of_lt hkm)

/-- The first step of a recurring class. -/
theorem Recurs.first (h : T.Recurs A) (n : Nat) :
    ∃ m, n ≤ m ∧ A (T.label m) ∧ ∀ k, n ≤ k → k < m → ¬ A (T.label k) := by
  classical
  have hex : ∃ m, n ≤ m ∧ A (T.label m) := h n
  refine ⟨Nat.find hex, (Nat.find_spec hex).1, (Nat.find_spec hex).2, ?_⟩
  intro k hk hkm hA
  exact Nat.find_min hex hkm ⟨hk, hA⟩

/-- The rank rule: the steps of a recurring class lower a rank, all others keep it. -/
theorem leadsTo_of_rank {W : Type} [Preorder W] [WellFoundedLT W] (rank : S → W) (hA : T.Recurs A)
    (hother : ∀ n, P (T.state n) → ¬ A (T.label n) →
      P (T.state (n + 1)) ∧ rank (T.state (n + 1)) = rank (T.state n))
    (hlower : ∀ n, P (T.state n) → A (T.label n) →
      Q (T.state (n + 1)) ∨ P (T.state (n + 1)) ∧ rank (T.state (n + 1)) < rank (T.state n)) : T.LeadsTo P Q := by
  have hall : ∀ (w : W) (n : Nat), rank (T.state n) = w → P (T.state n) → ∃ m, n ≤ m ∧ Q (T.state m) := by
    intro w
    induction w using WellFoundedLT.induction with
    | ind w ih =>
        intro n hw hP
        obtain ⟨m, hm, hAm, hbefore⟩ := hA.first n
        have hkept : P (T.state m) ∧ rank (T.state m) = w := by
          apply stays (P := fun s => P s ∧ rank s = w) hm ⟨hP, hw⟩
          intro k hk hkm hPk
          obtain ⟨hP', hw'⟩ := hother k hPk.1 (hbefore k hk hkm)
          exact ⟨hP', hw'.trans hPk.2⟩
        rcases hlower m hkept.1 hAm with hQ | ⟨hP', hlt⟩
        · exact ⟨m + 1, hm.trans (Nat.le_succ m), hQ⟩
        · obtain ⟨k, hk, hQ⟩ := ih _ (hkept.2 ▸ hlt) (m + 1) rfl hP'
          exact ⟨k, (hm.trans (Nat.le_succ m)).trans hk, hQ⟩
  exact fun n hP => hall _ n rfl hP

section Lasso

/-- A state with the labels to be taken next; when there are none left, those of a cycle follow. -/
def lassoNext (step : S → L → Option S) (cycle : List L) : S × List L → S × List L
  | (s, []) => (s, cycle)
  | (s, l :: ls) => ((step s l).getD s, if ls = [] then cycle else ls)

variable {start cycle : List L} {s : S}

theorem lasso_step {p : S × List L} (hcycle : run step s cycle = some s) (hne : cycle ≠ [])
    (hp : run step p.1 p.2 = some s) (hp' : p.2 ≠ []) :
    (∃ l, p.2.head? = some l ∧ step p.1 l = some (lassoNext step cycle p).1) ∧
      run step (lassoNext step cycle p).1 (lassoNext step cycle p).2 = some s ∧ (lassoNext step cycle p).2 ≠ [] := by
  obtain ⟨t, ls⟩ := p
  cases ls with
  | nil => exact absurd rfl hp'
  | cons l ls =>
      obtain ⟨u, hu, hrest⟩ := run_cons hp
      refine ⟨⟨l, rfl, by simp [lassoNext, hu]⟩, ?_, ?_⟩
      · by_cases hls : ls = []
        · subst hls
          cases hrest
          simpa [lassoNext, hu] using hcycle
        · simpa [lassoNext, hu, hls] using hrest
      · simp only [lassoNext]
        split
        · exact hne
        · assumption

theorem lasso_good (hstart : run step s₀ start = some s) (hcycle : run step s cycle = some s) (hne : start ≠ [])
    (hne' : cycle ≠ []) (n : Nat) : run step ((lassoNext step cycle)^[n] (s₀, start)).1
      ((lassoNext step cycle)^[n] (s₀, start)).2 = some s ∧ ((lassoNext step cycle)^[n] (s₀, start)).2 ≠ [] := by
  induction n with
  | zero => exact ⟨hstart, hne⟩
  | succ n ih =>
      rw [Function.iterate_succ_apply']
      exact (lasso_step hcycle hne' ih.1 ih.2).2

theorem lasso_closes {t : S} {ls : List L} (h : run step t ls = some s) (hls : ls ≠ []) :
    (lassoNext step cycle)^[ls.length] (t, ls) = (s, cycle) := by
  induction ls generalizing t with
  | nil => exact absurd rfl hls
  | cons l ls ih =>
      obtain ⟨u, hu, hrest⟩ := run_cons h
      rw [List.length_cons, Function.iterate_succ_apply]
      by_cases hnil : ls = []
      · subst hnil
        cases hrest
        simp [lassoNext, hu]
      · simpa [lassoNext, hu, hnil] using ih hrest hnil

/-- The cycle begins again and again. -/
theorem lasso_returns (hstart : run step s₀ start = some s) (hcycle : run step s cycle = some s) (hne : start ≠ [])
    (hne' : cycle ≠ []) (n : Nat) : ∃ m, n ≤ m ∧ (lassoNext step cycle)^[m] (s₀, start) = (s, cycle) := by
  have hround : ∀ k, (lassoNext step cycle)^[cycle.length * k + start.length] (s₀, start) = (s, cycle) := by
    intro k
    rw [Function.iterate_add_apply, lasso_closes hstart hne]
    induction k with
    | zero => rfl
    | succ k ih => rw [Nat.mul_succ, Function.iterate_add_apply, lasso_closes hcycle hne', ih]
  have hpos : 0 < cycle.length := List.length_pos_iff.mpr hne'
  refine ⟨cycle.length * n + start.length, ?_, hround n⟩
  have hle := Nat.le_mul_of_pos_left n hpos
  omega

theorem lasso_labels (n : Nat) : ∀ l ∈ ((lassoNext step cycle)^[n] (s₀, start)).2, l ∈ start ++ cycle := by
  induction n with
  | zero =>
      intro l hl
      exact List.mem_append_left _ hl
  | succ n ih =>
      rw [Function.iterate_succ_apply']
      generalize (lassoNext step cycle)^[n] (s₀, start) = p at ih
      obtain ⟨t, ls⟩ := p
      intro l hl
      cases ls with
      | nil => exact List.mem_append_right _ hl
      | cons k ls =>
          simp only [lassoNext] at hl
          split at hl
          · exact List.mem_append_right _ hl
          · exact ih l (List.mem_cons_of_mem k hl)

def lasso (hstart : run step s₀ start = some s) (hcycle : run step s cycle = some s) (hne : start ≠ [])
    (hne' : cycle ≠ []) : Trace step s₀ where
  state n := ((lassoNext step cycle)^[n] (s₀, start)).1
  label n := ((lassoNext step cycle)^[n] (s₀, start)).2.head (lasso_good hstart hcycle hne hne' n).2
  first := rfl
  next n := by
    have hgood := lasso_good hstart hcycle hne hne' n
    obtain ⟨l, hl, hstep⟩ := (lasso_step hcycle hne' hgood.1 hgood.2).1
    rw [Function.iterate_succ_apply', ← hstep]
    congr 1
    exact (List.head_eq_iff_head?_eq_some _).mpr hl

end Lasso

end Trace

end Gev.Lib.Traces
