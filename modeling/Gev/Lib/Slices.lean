import Mathlib.Data.List.Basic
import Mathlib.Tactic.Common

namespace Gev.Lib.Slices

variable {α : Type}

abbrev Heap (α : Type) := List (List α)

structure Slice where
  arr : Nat
  off : Nat
  len : Nat
  cap : Nat
  deriving DecidableEq, Repr

def array (h : Heap α) (i : Nat) : List α := h.getD i []

def contents (h : Heap α) (s : Slice) : List α := ((array h s.arr).drop s.off).take s.len

structure Valid (h : Heap α) (s : Slice) : Prop where
  alloc : s.arr < h.length
  bound : s.off + s.cap ≤ (array h s.arr).length
  fits : s.len ≤ s.cap

def make (h : Heap α) (zero : α) (len cap : Nat) : Slice × Heap α :=
  (⟨h.length, 0, len, cap⟩, h ++ [List.replicate cap zero])

def reslice (s : Slice) (lo hi : Nat) : Slice := ⟨s.arr, s.off + lo, hi - lo, s.cap - lo⟩

def overwrite (a : List α) (pos : Nat) (xs : List α) : List α :=
  a.take pos ++ (xs ++ a.drop (pos + xs.length))

def writeAt (h : Heap α) (i pos : Nat) (xs : List α) : Heap α :=
  h.set i (overwrite (array h i) pos xs)

def fill (h : Heap α) (s : Slice) (xs : List α) : Heap α := writeAt h s.arr s.off xs

def capacity (grow : Nat → Nat → Nat) (s : Slice) (n : Nat) : Nat :=
  max (s.len + n) (grow s.cap (s.len + n))

/-- Appending writes in place while the capacity lasts and moves to a fresh
array otherwise. The growth policy only has to reach the needed length. -/
def append (grow : Nat → Nat → Nat) (zero : α) (h : Heap α) (s : Slice) (xs : List α) :
    Slice × Heap α :=
  if s.len + xs.length ≤ s.cap then
    (⟨s.arr, s.off, s.len + xs.length, s.cap⟩, writeAt h s.arr (s.off + s.len) xs)
  else
    (⟨h.length, 0, s.len + xs.length, capacity grow s xs.length⟩, h ++ [contents h s ++
      (xs ++ List.replicate (capacity grow s xs.length - (s.len + xs.length)) zero)])

theorem length_overwrite (a : List α) (pos : Nat) (xs : List α) (h : pos + xs.length ≤ a.length) :
    (overwrite a pos xs).length = a.length := by
  simp only [overwrite, List.length_append, List.length_take, List.length_drop]
  omega

theorem array_writeAt_self (h : Heap α) (i pos : Nat) (xs : List α) (hi : i < h.length) :
    array (writeAt h i pos xs) i = overwrite (array h i) pos xs := by
  simp [array, writeAt, hi]

theorem array_writeAt_ne (h : Heap α) (i j pos : Nat) (xs : List α) (hij : i ≠ j) :
    array (writeAt h i pos xs) j = array h j := by
  simp [array, writeAt, List.getD_eq_getElem?_getD, List.getElem?_set_ne hij]

theorem array_alloc_old (h : Heap α) (a : List α) (i : Nat) (hi : i < h.length) :
    array (h ++ [a]) i = array h i := by
  simp [array, List.getD_eq_getElem?_getD, List.getElem?_append_left hi]

theorem array_alloc_new (h : Heap α) (a : List α) : array (h ++ [a]) h.length = a := by
  simp [array, List.getD_eq_getElem?_getD]

theorem length_contents {h : Heap α} {s : Slice} (hs : Valid h s) :
    (contents h s).length = s.len := by
  have hb := hs.bound
  have hf := hs.fits
  simp only [contents, List.length_take, List.length_drop]
  omega

theorem valid_make (h : Heap α) (zero : α) {len cap : Nat} (hl : len ≤ cap) :
    Valid (make h zero len cap).2 (make h zero len cap).1 := by
  refine ⟨by simp [make], ?_, hl⟩
  simp [make, array_alloc_new]

theorem valid_reslice {h : Heap α} {s : Slice} (hs : Valid h s) {lo hi : Nat} (hlo : lo ≤ hi) (hhi : hi ≤ s.cap) :
    Valid h (reslice s lo hi) := by
  have hb := hs.bound
  refine ⟨hs.alloc, ?_, ?_⟩ <;> simp only [reslice] <;> omega

theorem contents_reslice_self (h : Heap α) (s : Slice) (n : Nat) : contents h (reslice s n n) = [] := by
  simp [contents, reslice]

theorem valid_alloc {h : Heap α} {s : Slice} (hs : Valid h s) (a : List α) : Valid (h ++ [a]) s := by
  refine ⟨?_, ?_, hs.fits⟩
  · rw [List.length_append]; exact Nat.lt_add_right _ hs.alloc
  · rw [array_alloc_old h a s.arr hs.alloc]; exact hs.bound

theorem contents_alloc {h : Heap α} {s : Slice} (hs : Valid h s) (a : List α) :
    contents (h ++ [a]) s = contents h s := by
  rw [contents, array_alloc_old h a s.arr hs.alloc, contents]

theorem valid_writeAt {h : Heap α} {s : Slice} (hs : Valid h s) (i pos : Nat) (xs : List α)
    (hw : pos + xs.length ≤ (array h i).length) : Valid (writeAt h i pos xs) s := by
  refine ⟨by simpa [writeAt] using hs.alloc, ?_, hs.fits⟩
  by_cases hi : i = s.arr
  · subst hi
    rw [array_writeAt_self h s.arr pos xs hs.alloc, length_overwrite _ _ _ hw]
    exact hs.bound
  · rw [array_writeAt_ne h i s.arr pos xs hi]
    exact hs.bound

/-- A window that ends before the written cells keeps its contents. -/
theorem contents_writeAt_frame (h : Heap α) (s : Slice) (i pos : Nat) (xs : List α)
    (hfar : s.arr ≠ i ∨ s.off + s.len ≤ pos) (hpos : pos ≤ (array h i).length) :
    contents (writeAt h i pos xs) s = contents h s := by
  by_cases hi : i = s.arr
  · subst hi
    have hle : s.off + s.len ≤ pos := hfar.resolve_left (fun hne => hne rfl)
    by_cases ha : s.arr < h.length
    · rw [contents, array_writeAt_self h s.arr pos xs ha, contents, overwrite,
        List.drop_append_of_le_length (by rw [List.length_take]; omega),
        List.take_append_of_le_length (by rw [List.length_drop, List.length_take]; omega),
        List.drop_take, List.take_take, Nat.min_eq_left (by omega)]
    · have hset : writeAt h s.arr pos xs = h := List.set_eq_of_length_le (Nat.le_of_not_lt ha)
      rw [hset]
  · rw [contents, array_writeAt_ne h i s.arr pos xs hi, contents]

/-- Writing just past the end of a window extends it by what was written. -/
theorem contents_writeAt_end {h : Heap α} {s : Slice} (hs : Valid h s) (xs : List α) :
    contents (writeAt h s.arr (s.off + s.len) xs) ⟨s.arr, s.off, s.len + xs.length, s.cap⟩ =
      contents h s ++ xs := by
  have hb := hs.bound
  have hlen : ((array h s.arr).drop s.off |>.take s.len).length = s.len := length_contents hs
  have hdrop : s.off ≤ ((array h s.arr).take (s.off + s.len)).length := by
    have hf := hs.fits
    rw [List.length_take]; omega
  rw [contents, array_writeAt_self h s.arr _ xs hs.alloc, overwrite]
  simp only [List.drop_append_of_le_length hdrop, List.drop_take, Nat.add_sub_cancel_left]
  rw [List.take_append, hlen, Nat.add_sub_cancel_left, List.take_left, contents,
    List.take_take, Nat.min_eq_right (Nat.le_add_right _ _)]

theorem contents_fill {h : Heap α} {s : Slice} (hs : Valid h s) (xs : List α) :
    contents (fill h s xs) ⟨s.arr, s.off, xs.length, s.cap⟩ = xs := by
  have h0 : Valid h ⟨s.arr, s.off, 0, s.cap⟩ := ⟨hs.alloc, hs.bound, Nat.zero_le _⟩
  have he := contents_writeAt_end h0 xs
  simpa [fill, contents] using he

theorem valid_fill {h : Heap α} {s t : Slice} (ht : Valid h t) (hs : Valid h s) {xs : List α}
    (hxs : xs.length ≤ s.len) : Valid (fill h s xs) t := by
  have hb := hs.bound
  have hf := hs.fits
  exact valid_writeAt ht s.arr s.off xs (by omega)

section Append

variable (grow : Nat → Nat → Nat) (zero : α)

theorem contents_append {h : Heap α} {s : Slice} (hs : Valid h s) (xs : List α) :
    contents (append grow zero h s xs).2 (append grow zero h s xs).1 = contents h s ++ xs := by
  unfold append
  split
  next _ => exact contents_writeAt_end hs xs
  next _ =>
    have hlen := length_contents hs
    have hall : s.len + xs.length = (contents h s ++ xs).length := by rw [List.length_append, hlen]
    rw [contents, array_alloc_new, List.drop_zero, ← List.append_assoc, hall]
    exact List.take_left

theorem valid_append {h : Heap α} {s : Slice} (hs : Valid h s) (xs : List α) :
    Valid (append grow zero h s xs).2 (append grow zero h s xs).1 := by
  have hb := hs.bound
  unfold append
  split
  next hroom =>
    have hv := valid_writeAt hs s.arr (s.off + s.len) xs (by omega)
    exact ⟨hv.alloc, hv.bound, hroom⟩
  next _ =>
    refine ⟨by simp, ?_, Nat.le_max_left _ _⟩
    rw [array_alloc_new]
    simp only [List.length_append, length_contents hs, List.length_replicate, capacity]
    omega

/-- Appending to one slice leaves another one alone when they live in
different arrays or the other ends where the free room of the first begins. -/
theorem contents_append_frame {h : Heap α} {s t : Slice} (hs : Valid h s) (ht : Valid h t)
    (hfar : t.arr ≠ s.arr ∨ t.off + t.len ≤ s.off + s.len) (xs : List α) :
    contents (append grow zero h s xs).2 t = contents h t := by
  have hb := hs.bound
  have hf := hs.fits
  unfold append
  split
  next _ => exact contents_writeAt_frame h t s.arr _ xs hfar (by omega)
  next _ => exact contents_alloc ht _

theorem valid_append_frame {h : Heap α} {s t : Slice} (hs : Valid h s) (ht : Valid h t)
    (xs : List α) : Valid (append grow zero h s xs).2 t := by
  have hb := hs.bound
  unfold append
  split
  next hroom => exact valid_writeAt ht s.arr _ xs (by omega)
  next _ => exact valid_alloc ht _

/-- The result lives where the slice did, at the same start, or in an array
that did not exist before. -/
theorem append_place (h : Heap α) (s : Slice) (xs : List α) :
    ((append grow zero h s xs).1.arr = s.arr ∧ (append grow zero h s xs).1.off = s.off ∧
      s.len ≤ (append grow zero h s xs).1.len) ∨
    (append grow zero h s xs).1.arr = h.length := by
  unfold append
  split
  next _ => exact .inl ⟨rfl, rfl, Nat.le_add_right _ _⟩
  next _ => exact .inr rfl

end Append

end Gev.Lib.Slices
