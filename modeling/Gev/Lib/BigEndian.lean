import Mathlib.Algebra.Order.Ring.Nat
import Mathlib.Tactic.Ring

namespace Gev.Lib.BigEndian

theorem forall_byte_iff {P : UInt8 → Prop} : (∀ n : Fin 256, P (.ofNat n)) ↔ ∀ b, P b := by
  constructor
  · intro h b
    have hb := h ⟨b.toNat, b.toNat_lt⟩
    rwa [UInt8.ofNat_toNat] at hb
  · intro h n
    exact h (.ofNat n)

/-- What is said of all bytes can be tried on each of them. -/
instance (priority := low) decidableForallByte {P : UInt8 → Prop} [DecidablePred P] : Decidable (∀ b, P b) :=
  decidable_of_iff _ forall_byte_iff

def put : Nat → Nat → List UInt8
  | 0, _ => []
  | k + 1, n => UInt8.ofNat (n / 256 ^ k) :: put k n

def get : List UInt8 → Nat
  | [] => 0
  | b :: bs => b.toNat * 256 ^ bs.length + get bs

@[simp] theorem length_put (k n : Nat) : (put k n).length = k := by
  induction k with
  | zero => rfl
  | succ k ih => simp [put, ih]

@[simp] theorem get_put (k n : Nat) : get (put k n) = n % 256 ^ k := by
  induction k with
  | zero => simp [put, get, Nat.mod_one]
  | succ k ih =>
      rw [put, get, length_put, ih, Nat.mod_pow_succ, UInt8.toNat_ofNat']
      ring

theorem get_eq_zero {bs : List UInt8} : get bs = 0 ↔ ∀ b ∈ bs, b = 0 := by
  induction bs with
  | nil => simp [get]
  | cons b bs ih =>
      have hb : b.toNat = 0 ↔ b = 0 := by rw [← UInt8.toNat_inj]; rfl
      simp [get, ih, hb]

theorem head_put_lt {n : Nat} (k : Nat) (h : n < 128 * 256 ^ k) :
    (UInt8.ofNat (n / 256 ^ k)).toNat < 128 := by
  have hq : n / 256 ^ k < 128 := Nat.div_lt_of_lt_mul (by rwa [Nat.mul_comm] at h)
  rw [UInt8.toNat_ofNat']
  exact Nat.lt_of_le_of_lt (Nat.mod_le _ _) hq

theorem get_lt (bs : List UInt8) : get bs < 256 ^ bs.length := by
  induction bs with
  | nil => simp [get]
  | cons b bs ih =>
      have hb : b.toNat + 1 ≤ 256 := b.toNat_lt
      calc get (b :: bs) < b.toNat * 256 ^ bs.length + 256 ^ bs.length := Nat.add_lt_add_left ih _
        _ = (b.toNat + 1) * 256 ^ bs.length := by ring
        _ ≤ 256 * 256 ^ bs.length := Nat.mul_le_mul_right _ hb
        _ = 256 ^ (b :: bs).length := by rw [List.length_cons, Nat.pow_succ, Nat.mul_comm]

theorem get_append (xs ys : List UInt8) : get (xs ++ ys) = get xs * 256 ^ ys.length + get ys := by
  induction xs with
  | nil => simp [get]
  | cons x xs ih =>
      rw [List.cons_append, get, get, ih, List.length_append, Nat.pow_add]
      ring

theorem put_add_mul (k n m : Nat) : put k (n * 256 ^ k + m) = put k m := by
  induction k generalizing n with
  | zero => rfl
  | succ k ih =>
      have hpos : 0 < 256 ^ k := Nat.pow_pos (by decide)
      have hshift : n * 256 ^ (k + 1) + m = n * 256 * 256 ^ k + m := by ring
      have hhead : UInt8.ofNat (n * 256 + m / 256 ^ k) = UInt8.ofNat (m / 256 ^ k) := by
        apply UInt8.toNat_inj.mp
        rw [UInt8.toNat_ofNat', UInt8.toNat_ofNat', Nat.add_comm, Nat.add_mul_mod_self_right]
      rw [hshift, put, put, ih, Nat.add_comm, Nat.add_mul_div_right _ _ hpos, Nat.add_comm, hhead]

theorem put_get (bs : List UInt8) : put bs.length (get bs) = bs := by
  induction bs with
  | nil => rfl
  | cons b bs ih =>
      have hpos : 0 < 256 ^ bs.length := Nat.pow_pos (by decide)
      rw [List.length_cons, put, get, put_add_mul, ih, Nat.add_comm, Nat.add_mul_div_right _ _ hpos,
        Nat.div_eq_of_lt (get_lt bs), Nat.zero_add, UInt8.ofNat_toNat]

theorem mul_add_xor {k a b : Nat} (x y : Nat) (ha : a < 256 ^ k) (hb : b < 256 ^ k) :
    (x * 256 ^ k + a) ^^^ (y * 256 ^ k + b) = (x ^^^ y) * 256 ^ k + (a ^^^ b) := by
  have hk : 256 ^ k = 2 ^ (8 * k) := by rw [Nat.pow_mul]
  rw [hk] at ha hb ⊢
  have hab := Nat.xor_lt_two_pow ha hb
  apply Nat.eq_of_testBit_eq
  intro i
  simp only [Nat.mul_comm _ (2 ^ (8 * k)), Nat.testBit_xor, Nat.testBit_two_pow_mul_add _ ha,
    Nat.testBit_two_pow_mul_add _ hb, Nat.testBit_two_pow_mul_add _ hab]
  split
  · rfl
  · rfl

theorem get_xor {xs ys : List UInt8} (h : xs.length = ys.length) :
    get (List.zipWith (· ^^^ ·) xs ys) = get xs ^^^ get ys := by
  induction xs generalizing ys with
  | nil =>
      cases ys with
      | nil => rfl
      | cons y ys => simp at h
  | cons x xs ih =>
      cases ys with
      | nil => simp at h
      | cons y ys =>
          have hlen : xs.length = ys.length := by simpa using h
          have hzip : (List.zipWith (· ^^^ ·) xs ys).length = ys.length := by simp [hlen]
          have hx := get_lt xs
          rw [hlen] at hx
          rw [List.zipWith_cons_cons, get, get, get, ih hlen, UInt8.toNat_xor, hzip, hlen,
            mul_add_xor _ _ hx (get_lt ys)]

end Gev.Lib.BigEndian
