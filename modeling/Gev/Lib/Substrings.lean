import Mathlib.Data.List.Infix
import Mathlib.Tactic.Common

namespace Gev.Lib.Substrings

variable {α : Type} [DecidableEq α]

def index (sep s : List α) : Option Nat := s.tails.findIdx? sep.isPrefixOf

/-- The pieces between the first occurrences of a separator, with at most the given number of cuts. -/
def splitN (sep : List α) : Nat → List α → List (List α)
  | 0, s => [s]
  | n + 1, s =>
      match index sep s with
      | none => [s]
      | some m => s.take m :: splitN sep n (s.drop (m + sep.length))

def split (sep s : List α) : List (List α) := splitN sep s.length s

variable {sep s : List α} {p n : Nat}

theorem index_eq_some_iff :
    index sep s = some p ↔ p ≤ s.length ∧ sep <+: s.drop p ∧ ∀ q < p, ¬ sep <+: s.drop q := by
  simp only [index, List.findIdx?_eq_some_iff_getElem, List.getElem_tails, List.isPrefixOf_iff_prefix,
    List.length_tails, Nat.lt_succ_iff, exists_prop]

theorem index_eq_none_iff : index sep s = none ↔ ∀ q, ¬ (q ≤ s.length ∧ sep <+: s.drop q) := by
  simp only [index, List.findIdx?_eq_none_iff, List.mem_tails, ← Bool.not_eq_true, List.isPrefixOf_iff_prefix]
  constructor
  · intro h q hq
    exact h _ (List.drop_suffix q s) hq.2
  · intro h t ht hp
    rw [List.suffix_iff_eq_drop.mp ht] at hp
    exact h _ ⟨Nat.sub_le _ _, hp⟩

theorem index_add_le (h : index sep s = some p) : p + sep.length ≤ s.length := by
  obtain ⟨hle, hp, -⟩ := index_eq_some_iff.mp h
  have hlen := hp.length_le
  rw [List.length_drop] at hlen
  omega

/-- An occurrence is found within a front part exactly if that part holds all of it. -/
theorem index_take_iff : index sep (s.take n) = some p ↔ index sep s = some p ∧ p + sep.length ≤ n := by
  constructor
  · intro h
    have hfit := index_add_le h
    obtain ⟨hle, hp, hfirst⟩ := index_eq_some_iff.mp h
    rw [List.length_take] at hle hfit
    rw [List.drop_take, List.prefix_take_iff] at hp
    refine ⟨index_eq_some_iff.mpr ⟨by omega, hp.1, ?_⟩, by omega⟩
    intro q hq hfound
    apply hfirst q hq
    rw [List.drop_take, List.prefix_take_iff]
    exact ⟨hfound, by omega⟩
  · rintro ⟨h, hn⟩
    have hfit := index_add_le h
    obtain ⟨hle, hp, hfirst⟩ := index_eq_some_iff.mp h
    refine index_eq_some_iff.mpr ⟨?_, ?_, ?_⟩
    · rw [List.length_take]
      omega
    · rw [List.drop_take, List.prefix_take_iff]
      exact ⟨hp, by omega⟩
    · intro q hq hfound
      rw [List.drop_take, List.prefix_take_iff] at hfound
      exact hfirst q hq hfound.1

theorem index_take_none (h : index sep s = none) (n : Nat) : index sep (s.take n) = none := by
  rw [Option.eq_none_iff_forall_ne_some] at h ⊢
  exact fun p hp => h p (index_take_iff.mp hp).1

theorem index_drop_none (h : index sep s = none) (n : Nat) : index sep (s.drop n) = none := by
  rw [index_eq_none_iff] at h ⊢
  rintro q ⟨hq, hp⟩
  rw [List.length_drop] at hq
  rw [List.drop_drop] at hp
  rcases Nat.le_total n s.length with hn | hn
  · exact h (n + q) ⟨by omega, hp⟩
  · rw [List.drop_of_length_le (by omega)] at hp
    exact h s.length ⟨Nat.le_refl _, by rwa [List.drop_length]⟩

theorem splitN_nil (hsep : sep ≠ []) (n : Nat) : splitN sep n [] = [[]] := by
  have hnone : index sep [] = none := by
    rw [Option.eq_none_iff_forall_ne_some]
    intro p hp
    have hfit := index_add_le hp
    rw [List.length_nil] at hfit
    exact hsep (List.length_eq_zero_iff.mp (by omega))
  cases n with
  | zero => rfl
  | succ n => simp only [splitN, hnone]

theorem splitN_congr (hsep : sep ≠ []) {m : Nat} (hm : s.length ≤ m) (hn : s.length ≤ n) :
    splitN sep m s = splitN sep n s := by
  induction m generalizing n s with
  | zero => rw [List.length_eq_zero_iff.mp (Nat.le_zero.mp hm), splitN_nil hsep, splitN_nil hsep]
  | succ m ih =>
      cases n with
      | zero => rw [List.length_eq_zero_iff.mp (Nat.le_zero.mp hn), splitN_nil hsep, splitN_nil hsep]
      | succ n =>
          rw [splitN, splitN]
          split
          · rfl
          next p hp =>
            have hpos := List.length_pos_iff.mpr hsep
            have hlen := List.length_drop (i := p + sep.length) (l := s)
            rw [ih (n := n) (by omega) (by omega)]

/-- The bound on the number of cuts is never reached. -/
theorem split_eq (hsep : sep ≠ []) (s : List α) : split sep s =
    match index sep s with
    | none => [s]
    | some m => s.take m :: split sep (s.drop (m + sep.length)) := by
  rw [split, splitN_congr hsep (Nat.le_refl _) (Nat.le_succ _), splitN]
  split
  · rfl
  next p hp =>
    have hlen := List.length_drop (i := p + sep.length) (l := s)
    rw [split, splitN_congr hsep (n := s.length) (Nat.le_refl _) (by omega)]

theorem split_ne_nil (hsep : sep ≠ []) (s : List α) : split sep s ≠ [] := by
  rw [split_eq hsep]
  split <;> exact List.cons_ne_nil _ _

theorem idxOf?_append_cons {a : α} {xs : List α} (h : a ∉ xs) (ys : List α) :
    (xs ++ a :: ys).idxOf? a = some xs.length := by
  rw [List.idxOf?_eq_some_iff]
  refine ⟨by simp, by simp, ?_⟩
  intro j hj
  rw [List.getElem_append_left hj]
  exact fun heq => h (heq ▸ List.getElem_mem hj)

theorem idxOf?_of_mem {a : α} {xs : List α} (h : a ∈ xs) : xs.idxOf? a = some (xs.idxOf a) := by
  cases heq : xs.idxOf? a with
  | none => exact absurd h (List.idxOf?_eq_none_iff.mp heq)
  | some i => rw [List.idxOf_eq_getD_idxOf?, heq, Option.getD_some]

theorem cut_of_idxOf? {a : α} {xs : List α} {i : Nat} (h : xs.idxOf? a = some i) :
    a ∉ xs.take i ∧ xs = xs.take i ++ a :: xs.drop (i + 1) := by
  obtain ⟨hi, rfl, hne⟩ := List.idxOf?_eq_some_iff.mp h
  constructor
  · intro hmem
    obtain ⟨j, hj, heq⟩ := List.mem_take_iff_getElem.mp hmem
    exact hne j (by omega) heq
  · rw [List.getElem_cons_drop, List.take_append_drop]

end Gev.Lib.Substrings
