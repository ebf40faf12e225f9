import Mathlib.Data.List.Count
import Mathlib.Data.List.Induction
import Mathlib.Data.Nat.ModEq

namespace Gev.Lib.Spread

variable {α : Type} [DecidableEq α]

def Even (xs : List α) : Prop := ∀ a b, xs.count a ≤ xs.count b + 1

def Least (xs : List α) (a : α) : Prop := ∀ b, xs.count a ≤ xs.count b

theorem even_nil : Even ([] : List α) := fun _ _ => Nat.zero_le _

theorem count_concat (xs : List α) (a b : α) : (xs ++ [a]).count b = xs.count b + if a = b then 1 else 0 := by
  simp [List.count_append, List.count_singleton]

theorem even_concat {xs : List α} (h : Even xs) (a : α) : Even (xs ++ [a]) ↔ Least xs a := by
  constructor
  · intro heven b
    by_cases hab : a = b
    · rw [hab]
    · have hle := heven a b
      rw [count_concat, count_concat, if_pos rfl, if_neg hab] at hle
      omega
  · intro hleast b c
    have hb := hleast c
    have hbc := h b c
    rw [count_concat, count_concat]
    split
    next hab =>
      subst hab
      omega
    next => omega

def Cyclic {k : Nat} (xs : List (Fin k)) : Prop := ∀ (i : Nat) (a : Fin k), xs[i]? = some a → (a : Nat) = i % k

theorem cyclic_concat {k : Nat} {xs : List (Fin k)} {a : Fin k} (h : Cyclic xs) (ha : (a : Nat) = xs.length % k) :
    Cyclic (xs ++ [a]) := by
  intro i b hb
  rcases Nat.lt_trichotomy i xs.length with hi | rfl | hi
  · rw [List.getElem?_append_left hi] at hb
    exact h i b hb
  · rw [List.getElem?_concat_length] at hb
    cases hb
    exact ha
  · rw [List.getElem?_eq_none (by rw [List.length_append]; exact hi)] at hb
    cases hb

theorem Cyclic.of_concat {k : Nat} {xs : List (Fin k)} {a : Fin k} (h : Cyclic (xs ++ [a])) :
    Cyclic xs ∧ (a : Nat) = xs.length % k := by
  refine ⟨?_, h xs.length a (List.getElem?_concat_length ..)⟩
  intro i b hb
  apply h i b
  rw [List.getElem?_append_left (List.getElem?_eq_some_iff.mp hb).1, hb]

theorem dvd_iff_mod {k j : Nat} (hj : j < k) (n : Nat) : k ∣ n + k - j ↔ n % k = j := by
  rw [← Nat.modEq_iff_dvd' (by omega), Nat.ModEq, Nat.add_mod_right, Nat.mod_eq_of_lt hj, eq_comm]

theorem count_cyclic {k : Nat} {xs : List (Fin k)} (h : Cyclic xs) (j : Fin k) :
    xs.count j = (xs.length + k - 1 - j) / k := by
  have hj := j.isLt
  induction xs using List.reverseRecOn with
  | nil => exact (Nat.div_eq_of_lt (by rw [List.length_nil]; omega)).symm
  | append_singleton xs a ih =>
      obtain ⟨hxs, ha⟩ := h.of_concat
      have hnext : (xs ++ [a]).length + k - 1 - j = (xs.length + k - 1 - j) + 1 := by
        rw [List.length_append, List.length_singleton]
        omega
      have hdvd : k ∣ (xs.length + k - 1 - j) + 1 ↔ a = j := by
        rw [show (xs.length + k - 1 - j) + 1 = xs.length + k - j by omega, dvd_iff_mod hj, ← ha, Fin.ext_iff]
      rw [count_concat, ih hxs, hnext, Nat.succ_div]
      simp only [hdvd]

end Gev.Lib.Spread
