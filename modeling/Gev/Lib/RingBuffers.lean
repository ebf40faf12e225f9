import Mathlib.Data.List.Basic
import Mathlib.Tactic.Common

namespace Gev.Lib.RingBuffers

variable {α : Type}

/-- A ring buffer as a queue of unread elements with a virtual read cursor.
How the elements lie in the ring only shows in the two segments of peekAll. -/
@[ext]
structure RingBuffer (α : Type) where
  data : List α
  cursor : Nat
  bounded : cursor ≤ data.length
  deriving DecidableEq

namespace RingBuffer

def empty : RingBuffer α := ⟨[], 0, Nat.le_refl 0⟩

def ofList (xs : List α) : RingBuffer α := ⟨xs, 0, Nat.zero_le _⟩

def length (r : RingBuffer α) : Nat := r.data.length

def isEmpty (r : RingBuffer α) : Bool := r.data.isEmpty

/-- Take n elements off the front; the cursor moves to a given place behind them. -/
def advance (r : RingBuffer α) (n cursor : Nat) : RingBuffer α :=
  ⟨r.data.drop n, min cursor (r.data.length - n), by rw [List.length_drop]; exact Nat.min_le_right _ _⟩

def write (r : RingBuffer α) (xs : List α) : RingBuffer α :=
  ⟨r.data ++ xs, r.cursor, by simpa using Nat.le_add_right_of_le r.bounded⟩

def retrieve (r : RingBuffer α) (n : Nat) : RingBuffer α := r.advance n (r.cursor - n)

def read (r : RingBuffer α) (n : Nat) : List α × RingBuffer α := (r.data.take n, r.retrieve n)

/-- The two segments, for a ring that wraps after the given number of unread elements. -/
def peekAll (r : RingBuffer α) (wrap : Nat) : List α × List α := (r.data.take wrap, r.data.drop wrap)

def virtualLength (r : RingBuffer α) : Nat := r.data.length - r.cursor

def virtualRead (r : RingBuffer α) (n : Nat) : List α × RingBuffer α :=
  ((r.data.drop r.cursor).take n, ⟨r.data, r.cursor + min n r.virtualLength, by
    have h := r.bounded
    simp only [virtualLength]
    omega⟩)

def virtualFlush (r : RingBuffer α) : RingBuffer α := r.advance r.cursor 0

def virtualRevert (r : RingBuffer α) : RingBuffer α := ofList r.data

@[simp] theorem data_ofList (xs : List α) : (ofList xs).data = xs := rfl

@[simp] theorem cursor_ofList (xs : List α) : (ofList xs).cursor = 0 := rfl

@[simp] theorem data_empty : (empty : RingBuffer α).data = [] := rfl

@[simp] theorem data_write (r : RingBuffer α) (xs : List α) : (r.write xs).data = r.data ++ xs := rfl

@[simp] theorem cursor_write (r : RingBuffer α) (xs : List α) : (r.write xs).cursor = r.cursor := rfl

@[simp] theorem data_advance (r : RingBuffer α) (n k : Nat) : (r.advance n k).data = r.data.drop n := rfl

@[simp] theorem data_retrieve (r : RingBuffer α) (n : Nat) : (r.retrieve n).data = r.data.drop n := rfl

@[simp] theorem isEmpty_iff (r : RingBuffer α) : r.isEmpty = true ↔ r.data = [] := by
  simp [isEmpty]

/-- A buffer whose elements end another one's is what that one is advanced to. -/
theorem advance_of_suffix {r rest : RingBuffer α} (h : rest.data <:+ r.data) :
    r.advance (r.length - rest.length) rest.cursor = rest := by
  have hle := h.length_le
  have hb := rest.bounded
  apply RingBuffer.ext
  · exact (List.suffix_iff_eq_drop.mp h).symm
  · simp only [advance, length]
    omega

theorem peekAll_append (r : RingBuffer α) (wrap : Nat) : (r.peekAll wrap).1 ++ (r.peekAll wrap).2 = r.data :=
  List.take_append_drop wrap r.data

theorem eq_ofList {r : RingBuffer α} (h : r.cursor = 0) : r = ofList r.data := RingBuffer.ext rfl h

theorem virtualRead_virtualRead (r : RingBuffer α) (m n : Nat) :
    (r.virtualRead m).2.virtualRead n = (((r.data.drop r.cursor).drop m).take n, (r.virtualRead (m + n)).2) := by
  have hb := r.bounded
  have hd : r.data.drop (r.cursor + min m (r.data.length - r.cursor)) = (r.data.drop r.cursor).drop m := by
    rw [← List.drop_drop]
    rcases Nat.le_total m (r.data.length - r.cursor) with h | h
    · rw [Nat.min_eq_left h]
    · rw [Nat.min_eq_right h, List.drop_of_length_le (by simp), List.drop_of_length_le (by simpa using h)]
  have hc : r.cursor + min m (r.data.length - r.cursor) +
      min n (r.data.length - (r.cursor + min m (r.data.length - r.cursor))) =
        r.cursor + min (m + n) (r.data.length - r.cursor) := by
    omega
  simp only [virtualRead, virtualLength, hd, hc]

theorem cursor_virtualRead (xs : List α) (n : Nat) : ((ofList xs).virtualRead n).2.cursor = min n xs.length :=
  Nat.zero_add _

theorem virtualLength_virtualRead (xs : List α) (n : Nat) :
    ((ofList xs).virtualRead n).2.virtualLength = xs.length - n := by
  simp only [virtualRead, virtualLength, data_ofList, cursor_ofList]
  omega

theorem virtualFlush_virtualRead (xs : List α) (n : Nat) :
    ((ofList xs).virtualRead n).2.virtualFlush = ofList (xs.drop n) := by
  apply RingBuffer.ext
  · rcases Nat.le_total n xs.length with h | h
    · simp [virtualRead, virtualLength, virtualFlush, advance, Nat.min_eq_left h]
    · simp [virtualRead, virtualLength, virtualFlush, advance, Nat.min_eq_right h, List.drop_of_length_le h]
  · simp [virtualFlush, advance]

theorem virtualRevert_virtualRead (xs : List α) (n : Nat) :
    ((ofList xs).virtualRead n).2.virtualRevert = ofList xs := rfl

theorem read_ofList (xs : List α) (n : Nat) : (ofList xs).read n = (xs.take n, ofList (xs.drop n)) := by
  simp only [read, retrieve, advance, data_ofList, cursor_ofList, Nat.zero_sub, Nat.zero_min]
  rfl

theorem retrieve_ofList (xs : List α) (n : Nat) : (ofList xs).retrieve n = ofList (xs.drop n) :=
  congrArg Prod.snd (read_ofList xs n)

theorem write_ofList (xs ys : List α) : (ofList xs).write ys = ofList (xs ++ ys) := rfl

end RingBuffer

section Package

/-- The calls of a ring buffer package that change a buffer. -/
inductive BufferCall (α : Type)
  | write (xs : List α)
  | retrieve (n : Nat)
  | virtualRead (n : Nat)
  | virtualFlush
  | virtualRevert
  | reset

/-- A package of ring buffers over some type, with the laws it keeps: what is written is read in order, and a virtual
read moves a cursor of its own, which a flush makes the reading position and a revert takes back. -/
structure Package (R α : Type) where
  new : R
  perform : R → BufferCall α → R
  peekAll : R → List α × List α
  data : R → List α
  cursor : R → Nat
  bounded : ∀ r, cursor r ≤ (data r).length
  segments : ∀ r, (peekAll r).1 ++ (peekAll r).2 = data r
  data_new : data new = []
  data_write : ∀ r xs, data (perform r (.write xs)) = data r ++ xs
  data_retrieve : ∀ r n, data (perform r (.retrieve n)) = (data r).drop n
  data_virtualRead : ∀ r n, data (perform r (.virtualRead n)) = data r
  data_virtualFlush : ∀ r, data (perform r .virtualFlush) = (data r).drop (cursor r)
  data_virtualRevert : ∀ r, data (perform r .virtualRevert) = data r
  data_reset : ∀ r, data (perform r .reset) = []
  cursor_write : ∀ r xs, cursor (perform r (.write xs)) = cursor r
  cursor_retrieve : ∀ r n, cursor (perform r (.retrieve n)) = min (cursor r - n) ((data r).length - n)
  cursor_virtualRead : ∀ r n,
    cursor (perform r (.virtualRead n)) = cursor r + min n ((data r).length - cursor r)
  cursor_virtualFlush : ∀ r, cursor (perform r .virtualFlush) = 0
  cursor_virtualRevert : ∀ r, cursor (perform r .virtualRevert) = 0

namespace RingBuffer

def perform (r : RingBuffer α) : BufferCall α → RingBuffer α
  | .write xs => r.write xs
  | .retrieve n => r.retrieve n
  | .virtualRead n => (r.virtualRead n).2
  | .virtualFlush => r.virtualFlush
  | .virtualRevert => r.virtualRevert
  | .reset => empty

/-- The buffers of this development are such a package, wherever they wrap. -/
def package (wrap : RingBuffer α → Nat) : Package (RingBuffer α) α where
  new := empty
  perform := perform
  peekAll r := r.peekAll (wrap r)
  data := data
  cursor := cursor
  bounded := bounded
  segments r := r.peekAll_append (wrap r)
  data_new := rfl
  data_write _ _ := rfl
  data_retrieve _ _ := rfl
  data_virtualRead _ _ := rfl
  data_virtualFlush _ := rfl
  data_virtualRevert _ := rfl
  data_reset _ := rfl
  cursor_write _ _ := rfl
  cursor_retrieve _ _ := rfl
  cursor_virtualRead _ _ := rfl
  cursor_virtualFlush _ := Nat.zero_min _
  cursor_virtualRevert _ := rfl

end RingBuffer

variable {R : Type} (P : Package R α)

def Package.view (r : R) : RingBuffer α := ⟨P.data r, P.cursor r, P.bounded r⟩

theorem Package.view_perform (r : R) (c : BufferCall α) : P.view (P.perform r c) = (P.view r).perform c := by
  cases c with
  | write xs => exact RingBuffer.ext (P.data_write r xs) (P.cursor_write r xs)
  | retrieve n => exact RingBuffer.ext (P.data_retrieve r n) (P.cursor_retrieve r n)
  | virtualRead n => exact RingBuffer.ext (P.data_virtualRead r n) (P.cursor_virtualRead r n)
  | virtualFlush =>
      exact RingBuffer.ext (P.data_virtualFlush r) ((P.cursor_virtualFlush r).trans (Nat.zero_min _).symm)
  | virtualRevert => exact RingBuffer.ext (P.data_virtualRevert r) (P.cursor_virtualRevert r)
  | reset =>
      have hdata := P.data_reset r
      have hbound := P.bounded (P.perform r .reset)
      rw [hdata] at hbound
      exact RingBuffer.ext hdata (Nat.le_zero.mp hbound)

theorem Package.view_new : P.view P.new = .empty := by
  have hbound := P.bounded P.new
  rw [P.data_new] at hbound
  exact RingBuffer.ext P.data_new (Nat.le_zero.mp hbound)

theorem Package.view_foldl (calls : List (BufferCall α)) (r : R) :
    P.view (calls.foldl P.perform r) = calls.foldl RingBuffer.perform (P.view r) := by
  induction calls generalizing r with
  | nil => rfl
  | cons c calls ih => rw [List.foldl_cons, List.foldl_cons, ih, P.view_perform]

theorem Package.peekAll_view (r : R) : ∃ wrap, P.peekAll r = (P.view r).peekAll wrap := by
  have hsegments : (P.peekAll r).1 ++ (P.peekAll r).2 = (P.view r).data := P.segments r
  refine ⟨(P.peekAll r).1.length, ?_⟩
  rw [RingBuffer.peekAll, ← hsegments, List.take_left, List.drop_left]

/-- Whatever is done to a buffer of such a package, it shows what the buffer of this development shows, cut in two
somewhere by peekAll. -/
theorem Package.view_calls (calls : List (BufferCall α)) :
    P.view (calls.foldl P.perform P.new) = calls.foldl RingBuffer.perform .empty ∧
      ∃ wrap, P.peekAll (calls.foldl P.perform P.new) =
        (calls.foldl RingBuffer.perform (.empty : RingBuffer α)).peekAll wrap := by
  have hview := P.view_foldl calls P.new
  rw [P.view_new] at hview
  refine ⟨hview, ?_⟩
  rw [← hview]
  exact P.peekAll_view _

end Package

end Gev.Lib.RingBuffers
