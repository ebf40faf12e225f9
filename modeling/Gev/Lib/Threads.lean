import Gev.Lib.Atomic
import Mathlib.Logic.Function.Basic

namespace Gev.Lib.Threads

open Atomic

variable {Op S T α : Type} {Res : Op → Type} (M : Semantics Op Res S)

/-- The semantics in which other threads may change the state before every operation, as far as a thread relies on. -/
noncomputable def among (R : S → S → Prop) : Semantics Op Res S where
  Choice o := S × M.Choice o
  act o ch s := open Classical in if R s ch.1 then M.act o ch.2 ch.1 else none

/-- What a thread may rely on: nothing or any number of steps of the others, which matter neither to what it is
permitted to do nor to what it has established. -/
structure Relies (R : S → S → Prop) (J : Op → S → Prop) (Q : α → S → Prop) : Prop where
  refl : ∀ s, R s s
  trans : ∀ s t u, R s t → R t u → R s u
  permits : ∀ o s t, J o s → R s t → J o t
  result : ∀ a s t, Q a s → R s t → Q a t

variable {M} {R : S → S → Prop} {J : Op → S → Prop} {Q : α → S → Prop} {p : Program Op Res α} {s t : S}

theorem always_among_step {o : Op} {k : Res o → Program Op Res α} (hJ : J o s)
    (h : ∀ s', R s s' → ∀ ch r t, M.act o ch s' = some (r, t) → Always (among M R) J Q (k r) t) :
    Always (among M R) J Q (.step o k) s := by
  refine ⟨hJ, ?_⟩
  rintro ⟨s', ch⟩ r t hact
  simp only [among] at hact
  split at hact
  · exact h s' ‹_› ch r t hact
  · cases hact

/-- Operations that keep an assertion on which the other threads have no influence. -/
theorem always_among_uses {A : Op → Prop} {P : S → Prop} (hp : p.Uses A) (hJ : ∀ o s, A o → P s → J o s)
    (hR : ∀ s t, P s → R s t → P t) (hA : ∀ o, A o → ∀ ch s r t, P s → M.act o ch s = some (r, t) → P t) (hs : P s) :
    Always (among M R) J (fun _ => P) p s := by
  refine Always.of_uses hp hJ ?_ hs
  rintro o ho ⟨s', ch⟩ s r t hP hact
  simp only [among] at hact
  split at hact
  · exact hA o ho ch s' r t (hR s s' hP ‹_›) hact
  · cases hact

theorem always_and {N : Semantics Op Res S} {J' : Op → S → Prop} {Q' : α → S → Prop} {p : Program Op Res α} {s : S}
    (h : Always N J Q p s) (h' : Always N J' Q' p s) :
    Always N (fun o t => J o t ∧ J' o t) (fun a t => Q a t ∧ Q' a t) p s := by
  induction p generalizing s with
  | done a => exact ⟨h, h'⟩
  | step o k ih => exact ⟨⟨h.1, h'.1⟩, fun ch r t ht => ih r (h.2 ch r t ht) (h'.2 ch r t ht)⟩

theorem Relies.stable (hR : Relies R J Q) (h : Always (among M R) J Q p s) (hst : R s t) :
    Always (among M R) J Q p t := by
  cases p with
  | done a => exact hR.result a s t h hst
  | step o k =>
      apply always_among_step (hR.permits o s t h.1 hst)
      intro t' ht' ch r u hact
      apply h.2 (t', ch) r u
      simpa [among, hR.trans s t t' hst ht'] using hact

theorem Relies.next (hR : Relies R J Q) {o : Op} {k : Res o → Program Op Res α} {ch : M.Choice o} {r : Res o}
    (h : Always (among M R) J Q (.step o k) s) (hact : M.act o ch s = some (r, t)) :
    Always (among M R) J Q (k r) t := by
  apply h.2 (s, ch) r t
  simpa [among, hR.refl s] using hact

/-- A thread's step keeps what holds of every thread, if it is one that the others rely on. -/
theorem relies_step [DecidableEq T] {R : T → S → S → Prop} {J : T → Op → S → Prop} {Q : T → α → S → Prop}
    (hR : ∀ i, Relies (R i) (J i) (Q i)) {prog : T → Program Op Res α}
    (h : ∀ i, Always (among M (R i)) (J i) (Q i) (prog i) s) {i : T} {o : Op} {k : Res o → Program Op Res α}
    (hi : prog i = .step o k) {ch : M.Choice o} {r : Res o} (hact : M.act o ch s = some (r, t))
    (hothers : ∀ j, j ≠ i → R j s t) (j : T) :
    Always (among M (R j)) (J j) (Q j) (Function.update prog i (k r) j) t := by
  by_cases hj : j = i
  · subst hj
    rw [Function.update_self]
    have hown := h j
    rw [hi] at hown
    exact (hR j).next hown hact
  · rw [Function.update_of_ne hj]
    exact (hR j).stable (h j) (hothers j hj)

end Gev.Lib.Threads
