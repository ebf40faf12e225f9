import Gev.Connection.State
import Gev.Lib.BigEndian

namespace Gev.Websocket.Cipher

open Gev.Connection.State Gev.Lib

inductive ByteOrder
  | little
  | big
  deriving DecidableEq

/-- The number a machine of the given byte order finds in consecutive bytes of memory. -/
def load : ByteOrder → Bytes → Nat
  | .little, bs => BigEndian.get bs.reverse
  | .big, bs => BigEndian.get bs

def store : ByteOrder → Nat → Nat → Bytes
  | .little, k, n => (BigEndian.put k n).reverse
  | .big, k, n => BigEndian.put k n

def remain (mpos : Nat) : Nat := [0, 3, 2, 1].getD mpos 0

def maskAt (mask : Fin 4 → UInt8) (i : Nat) : UInt8 := mask (Fin.ofNat 4 i)

/-- The loops that go byte by byte; the first byte is the given one of the masked data. -/
def xorBytes (mask : Fin 4 → UInt8) : Nat → Bytes → Bytes
  | _, [] => []
  | i, b :: bs => (b ^^^ maskAt mask i) :: xorBytes mask (i + 1) bs

def xorWords (order : ByteOrder) (m2 : Nat) : Nat → Bytes → Bytes
  | 0, bs => bs
  | n + 1, bs => store order 8 (load order (bs.take 8) ^^^ m2) ++ xorWords order m2 n (bs.drop 8)

def cipher (order : ByteOrder) (payload : Bytes) (mask : Fin 4 → UInt8) (offset : Nat) : Bytes :=
  let n := payload.length
  if n < 8 then xorBytes mask offset payload
  else
    let mpos := offset % 4
    let ln := remain mpos
    let rn := (n - ln) % 8
    let m := load order (List.ofFn mask)
    let m2 := m <<< 32 ||| m
    xorBytes mask mpos (payload.take ln) ++
      xorWords order m2 ((n - ln - rn) >>> 3) ((payload.drop ln).take (n - ln - rn)) ++
      xorBytes mask (mpos + (n - rn)) (payload.drop (n - rn))

@[simp] theorem length_xorBytes (mask : Fin 4 → UInt8) (i : Nat) (bs : Bytes) :
    (xorBytes mask i bs).length = bs.length := by
  induction bs generalizing i with
  | nil => rfl
  | cons b bs ih => simp [xorBytes, ih]

theorem xorBytes_append (mask : Fin 4 → UInt8) (i : Nat) (xs ys : Bytes) :
    xorBytes mask i (xs ++ ys) = xorBytes mask i xs ++ xorBytes mask (i + xs.length) ys := by
  induction xs generalizing i with
  | nil => rfl
  | cons x xs ih =>
      simp only [List.cons_append, xorBytes, ih, List.length_cons]
      rw [Nat.add_right_comm, Nat.add_assoc]

theorem xorBytes_mod (mask : Fin 4 → UInt8) {i j : Nat} (h : i % 4 = j % 4) (bs : Bytes) :
    xorBytes mask i bs = xorBytes mask j bs := by
  induction bs generalizing i j with
  | nil => rfl
  | cons b bs ih =>
      have hm : maskAt mask i = maskAt mask j := by simp [maskAt, Fin.ofNat, h]
      have hnext : (i + 1) % 4 = (j + 1) % 4 := by omega
      rw [xorBytes, xorBytes, hm, ih hnext]

theorem store_load (order : ByteOrder) (bs : Bytes) : store order bs.length (load order bs) = bs := by
  cases order with
  | little => rw [store, load, ← List.length_reverse, BigEndian.put_get, List.reverse_reverse]
  | big => exact BigEndian.put_get bs

theorem load_xor (order : ByteOrder) {xs ys : Bytes} (h : xs.length = ys.length) :
    load order (List.zipWith (· ^^^ ·) xs ys) = load order xs ^^^ load order ys := by
  cases order with
  | little => rw [load, load, load, List.reverse_zipWith h, BigEndian.get_xor (by simpa using h)]
  | big => exact BigEndian.get_xor h

theorem load_double (order : ByteOrder) {bs : Bytes} (h : bs.length = 4) :
    load order bs <<< 32 ||| load order bs = load order (bs ++ bs) := by
  have hlt : load order bs < 2 ^ 32 := by
    cases order with
    | little => simpa [load, h] using BigEndian.get_lt bs.reverse
    | big => simpa [load, h] using BigEndian.get_lt bs
  have hw : 256 ^ 4 = 2 ^ 32 := by decide
  rw [← Nat.shiftLeft_add_eq_or_of_lt hlt, Nat.shiftLeft_eq]
  cases order with
  | little => rw [load, load, List.reverse_append, BigEndian.get_append, List.length_reverse, h, hw]
  | big => rw [load, load, BigEndian.get_append, h, hw]

theorem xorBytes_word (mask : Fin 4 → UInt8) {bs : Bytes} (h : bs.length = 8) :
    xorBytes mask 0 bs = List.zipWith (· ^^^ ·) bs (List.ofFn mask ++ List.ofFn mask) := by
  match bs, h with
  | [_, _, _, _, _, _, _, _], _ => rfl

theorem xorWords_eq (order : ByteOrder) (mask : Fin 4 → UInt8) (n : Nat) {bs : Bytes} (h : bs.length = 8 * n) :
    xorWords order (load order (List.ofFn mask) <<< 32 ||| load order (List.ofFn mask)) n bs =
      xorBytes mask 0 bs := by
  induction n generalizing bs with
  | zero =>
      have hnil : bs = [] := List.eq_nil_of_length_eq_zero h
      rw [hnil]
      rfl
  | succ n ih =>
      have hw : (bs.take 8).length = 8 := by
        simp only [List.length_take]
        omega
      have hword : store order 8 (load order (bs.take 8) ^^^
          (load order (List.ofFn mask) <<< 32 ||| load order (List.ofFn mask))) = xorBytes mask 0 (bs.take 8) := by
        rw [load_double order (by simp), ← load_xor order (by simp [hw]), xorBytes_word mask hw]
        have hz : (List.zipWith (· ^^^ ·) (bs.take 8) (List.ofFn mask ++ List.ofFn mask)).length = 8 := by
          simp only [List.length_zipWith, hw, List.length_append, List.length_ofFn]
          decide
        conv => lhs; arg 2; rw [← hz]
        exact store_load order _
      rw [xorWords, hword, ih (by simp only [List.length_drop]; omega)]
      conv => rhs; rw [← List.take_append_drop 8 bs, xorBytes_append, hw]
      rw [xorBytes_mod mask (i := 0 + 8) (j := 0) rfl]

/-- The word loop changes nothing: every byte is combined with the mask byte of its position. -/
theorem cipher_eq_xorBytes (order : ByteOrder) (payload : Bytes) (mask : Fin 4 → UInt8) (offset : Nat) :
    cipher order payload mask offset = xorBytes mask offset payload := by
  by_cases hn : payload.length < 8
  · simp [cipher, hn]
  · have hr : remain (offset % 4) ≤ 3 ∧ (offset % 4 + remain (offset % 4)) % 4 = 0 := by
      have key : ∀ p : Fin 4, remain p ≤ 3 ∧ (p + remain p) % 4 = 0 := by decide
      exact key ⟨offset % 4, Nat.mod_lt _ (by decide)⟩
    obtain ⟨hle, hzero⟩ := hr
    unfold cipher
    simp only [hn, ↓reduceIte]
    generalize remain (offset % 4) = ln at hle hzero
    obtain ⟨q, hq⟩ : ∃ q, payload.length - ln - (payload.length - ln) % 8 = 8 * q :=
      ⟨(payload.length - ln) / 8, by omega⟩
    have hmid : ((payload.drop ln).take (8 * q)).length = 8 * q := by
      simp only [List.length_take, List.length_drop]
      omega
    have hsplit : payload = payload.take ln ++ ((payload.drop ln).take (8 * q) ++
        payload.drop (payload.length - (payload.length - ln) % 8)) := by
      have hd : payload.length - (payload.length - ln) % 8 = ln + 8 * q := by omega
      rw [hd, ← List.drop_drop, List.take_append_drop, List.take_append_drop]
    have hlen : (payload.take ln).length = ln := by
      simp only [List.length_take]
      omega
    rw [hq, Nat.shiftRight_eq_div_pow, Nat.mul_div_cancel_left _ (by decide), xorWords_eq order mask q hmid]
    conv => rhs; rw [hsplit, xorBytes_append, xorBytes_append, hlen, hmid]
    rw [List.append_assoc, xorBytes_mod mask (i := offset % 4) (j := offset) (by omega),
      xorBytes_mod mask (i := 0) (j := offset + ln) (by omega),
      xorBytes_mod mask (i := offset % 4 + _) (j := offset + ln + 8 * q) (by omega)]

theorem xorBytes_xorBytes (mask : Fin 4 → UInt8) (i : Nat) (bs : Bytes) :
    xorBytes mask i (xorBytes mask i bs) = bs := by
  induction bs generalizing i with
  | nil => rfl
  | cons b bs ih => rw [xorBytes, xorBytes, ih, UInt8.xor_assoc, UInt8.xor_self, UInt8.xor_zero]

theorem cipher_cipher (order : ByteOrder) (payload : Bytes) (mask : Fin 4 → UInt8) (offset : Nat) :
    cipher order (cipher order payload mask offset) mask offset = payload := by
  simp only [cipher_eq_xorBytes, xorBytes_xorBytes]

theorem getElem?_xorBytes (mask : Fin 4 → UInt8) (i j : Nat) (bs : Bytes) :
    (xorBytes mask i bs)[j]? = bs[j]?.map (· ^^^ maskAt mask (i + j)) := by
  induction bs generalizing i j with
  | nil => rfl
  | cons b bs ih =>
      cases j with
      | zero => rfl
      | succ j => rw [xorBytes, List.getElem?_cons_succ, List.getElem?_cons_succ, ih, Nat.add_right_comm, Nat.add_assoc]

def cipherChunks (order : ByteOrder) (mask : Fin 4 → UInt8) : Nat → List Bytes → Bytes
  | _, [] => []
  | offset, chunk :: chunks =>
      cipher order chunk mask offset ++ cipherChunks order mask (offset + chunk.length) chunks

theorem cipherChunks_eq_xorBytes (order : ByteOrder) (mask : Fin 4 → UInt8) (offset : Nat) (chunks : List Bytes) :
    cipherChunks order mask offset chunks = xorBytes mask offset chunks.flatten := by
  induction chunks generalizing offset with
  | nil => rfl
  | cons chunk chunks ih => rw [cipherChunks, cipher_eq_xorBytes, ih, List.flatten_cons, xorBytes_append]

/-- Cipher combines each byte with the mask byte of its position, whatever the byte order of the machine. So it is its
own inverse, and chunks may be ciphered one by one. -/
theorem cipher_positional (order : ByteOrder) (payload : Bytes) (mask : Fin 4 → UInt8) (offset : Nat) :
    (∀ i, (cipher order payload mask offset)[i]? = payload[i]?.map (· ^^^ mask (Fin.ofNat 4 (offset + i)))) ∧
    cipher order (cipher order payload mask offset) mask offset = payload ∧
    ∀ chunks, cipherChunks order mask offset chunks = cipher order chunks.flatten mask offset := by
  refine ⟨?_, cipher_cipher order payload mask offset, ?_⟩
  · intro i
    rw [cipher_eq_xorBytes]
    exact getElem?_xorBytes mask offset i payload
  · intro chunks
    rw [cipherChunks_eq_xorBytes, cipher_eq_xorBytes]

end Gev.Websocket.Cipher
