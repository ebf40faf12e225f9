import Gev.Websocket.Handshake
import Mathlib.Data.Nat.Digits.Defs

namespace Gev.Websocket.Versions

open Gev.Connection.State Gev.Lib Gev.Lib.Substrings
open Gev.Websocket.Http Gev.Websocket.Upgrade Gev.Websocket.Handshake

def decimal (ds : Bytes) : Nat := Nat.ofDigits 10 (ds.map fun c => c.toNat - 0x30).reverse

def IsDigit (c : UInt8) : Prop := 0x30 ≤ c ∧ c ≤ 0x39

instance (c : UInt8) : Decidable (IsDigit c) := inferInstanceAs (Decidable (_ ∧ _))

def majorOf (b : Bytes) : Bytes := (b.drop 5).take ((b.drop 5).idxOf dot)

def minorOf (b : Bytes) : Bytes := (b.drop 5).drop ((b.drop 5).idxOf dot + 1)

/-- The version is written as it should be, and the two numbers are those written. -/
structure Exact (b : Bytes) (major minor : Int64) : Prop where
  shape : b = httpVersionPrefix ++ (majorOf b ++ dot :: minorOf b)
  nonempty : majorOf b ≠ [] ∧ minorOf b ≠ []
  digits : ∀ c ∈ majorOf b ++ minorOf b, IsDigit c
  major : major.toInt = decimal (majorOf b)
  minor : minor.toInt = decimal (minorOf b)

def Plain (b : Bytes) : Prop :=
  (∀ c ∈ majorOf b ++ minorOf b, c ≤ 0x39) ∧ decimal (majorOf b) < 2 ^ 63 ∧ decimal (minorOf b) < 2 ^ 63

instance (b : Bytes) : Decidable (Plain b) := inferInstanceAs (Decidable (_ ∧ _))

theorem decimal_cons (c : UInt8) (ds : Bytes) :
    decimal (c :: ds) = (c.toNat - 0x30) * 10 ^ ds.length + decimal ds := by
  rw [decimal, List.map_cons, List.reverse_cons, Nat.ofDigits_append, Nat.ofDigits_singleton, List.length_reverse,
    List.length_map, decimal, Nat.mul_comm, Nat.add_comm]

theorem powLoop_ofNat {rounds a b p : Nat} (h : b ≤ rounds) :
    powLoop rounds (.ofNat a) b (.ofNat p) = .ofNat (p * a ^ b) := by
  induction rounds generalizing a b p with
  | zero =>
      rw [Nat.le_zero.mp h, powLoop, Nat.pow_zero, Nat.mul_one]
  | succ rounds ih =>
      rw [powLoop]
      split
      next hb =>
        have hhalf : b >>> 1 = b / 2 := Nat.shiftRight_one b
        rw [← Int64.ofNat_mul, ← Int64.ofNat_mul, ← apply_ite Int64.ofNat, hhalf, ih (by omega), Nat.and_one_is_mod,
          ← Nat.pow_two, ← Nat.pow_mul]
        congr 1
        split
        next hodd =>
          have hb2 : b = 2 * (b / 2) + 1 := by omega
          conv => rhs; rw [hb2, Nat.pow_succ]
          rw [Nat.mul_assoc, Nat.mul_comm a]
        next heven =>
          have hb2 : b = 2 * (b / 2) := by omega
          conv => rhs; rw [hb2]
      next hb =>
        have hb0 : b = 0 := by omega
        rw [hb0, Nat.pow_zero, Nat.mul_one]

theorem pow_ofNat (a b : Nat) : Http.pow (.ofNat a) b = .ofNat (a ^ b) := by
  have h := powLoop_ofNat (a := a) (p := 1) (Nat.le_refl b)
  rwa [Nat.one_mul] at h

theorem nibble_iff (c : UInt8) :
    (c &&& 0xf0 = 0x30 ↔ 0x30 ≤ c ∧ c ≤ 0x3f) ∧ (c &&& 0xf0 = 0x30 → (c &&& 0xf).toNat = c.toNat - 0x30) := by
  revert c
  decide +kernel

theorem asciiLoop_eq_some_iff {bts : Bytes} {acc : Nat} {v : Int64} :
    asciiLoop bts (.ofNat acc) = some v ↔
      (∀ c ∈ bts, 0x30 ≤ c ∧ c ≤ 0x3f) ∧ v = .ofNat (acc + decimal bts) := by
  induction bts generalizing acc with
  | nil =>
      rw [asciiLoop, Option.some_inj, eq_comm]
      exact (and_iff_right (List.forall_mem_nil _)).symm
  | cons c bts ih =>
      obtain ⟨hrange, hvalue⟩ := nibble_iff c
      rw [asciiLoop, List.forall_mem_cons]
      split
      next hbad => exact iff_of_false (Option.some_ne_none v).symm fun h => hbad (hrange.mpr h.1.1)
      next hgood =>
        have hc := Decidable.not_not.mp hgood
        rw [show (10 : Int64) = .ofNat 10 from rfl, pow_ofNat, hvalue hc, ← Int64.ofNat_mul, ← Int64.ofNat_add, ih,
          decimal_cons, and_iff_right (hrange.mp hc), Nat.add_assoc]

theorem asciiToInt_eq_some_iff {bts : Bytes} {v : Int64} :
    asciiToInt bts = some v ↔ bts ≠ [] ∧ (∀ c ∈ bts, 0x30 ≤ c ∧ c ≤ 0x3f) ∧ v = .ofNat (decimal bts) := by
  rw [asciiToInt]
  cases bts with
  | nil => exact iff_of_false (Option.some_ne_none v).symm fun h => h.1 rfl
  | cons c bts =>
      have hlen : ¬ (c :: bts).length < 1 := by simp
      rw [if_neg hlen, show (0 : Int64) = .ofNat 0 from rfl, asciiLoop_eq_some_iff, Nat.zero_add]
      exact (and_iff_right (List.cons_ne_nil c bts)).symm

theorem toInt_ofNat_eq_iff {n : Nat} : (Int64.ofNat n).toInt = n ↔ n < 2 ^ 63 := by
  rw [Int64.toInt_ofNat', Int.bmod]
  simp only [Int64.size]
  omega

/-- What a version looks like that httpParseVersion accepts. -/
theorem httpParseVersion_cases {b : Bytes} {major minor : Int64} (h : httpParseVersion b = some (major, minor)) :
    b = httpVersionPrefix ++ (majorOf b ++ dot :: minorOf b) ∧
      asciiToInt (majorOf b) = some major ∧ asciiToInt (minorOf b) = some minor := by
  rw [httpParseVersion] at h
  split at h
  next h10 =>
    cases h
    rw [h10]
    decide +kernel
  next =>
    split at h
    next h11 =>
      cases h
      rw [h11]
      decide +kernel
    next =>
      split at h
      · cases h
      next hlen =>
        split at h
        · cases h
        next htake =>
          obtain ⟨i, hi, h⟩ := Option.bind_eq_some_iff.mp h
          obtain ⟨x, hx, h⟩ := Option.bind_eq_some_iff.mp h
          obtain ⟨y, hy, h⟩ := Option.bind_eq_some_iff.mp h
          cases h
          have hidx : (b.drop 5).idxOf dot = i := by
            rw [idxOf?_of_mem (List.isSome_idxOf?.mp (Option.isSome_of_eq_some hi))] at hi
            exact Option.some.inj hi
          rw [majorOf, minorOf, hidx, ← (cut_of_idxOf? hi).2, ← Decidable.not_not.mp htake, List.take_append_drop]
          exact ⟨rfl, hx, hy⟩

theorem digits_iff {ds : Bytes} (h : ∀ c ∈ ds, 0x30 ≤ c ∧ c ≤ 0x3f) : (∀ c ∈ ds, IsDigit c) ↔ ∀ c ∈ ds, c ≤ 0x39 :=
  forall₂_congr fun c hc => and_iff_right (h c hc).1

/-- A version that is accepted is the one written exactly if it is plain, and a plain version passes the check of
Upgrade only if its numbers are 1 and at least 1. -/
theorem httpParseVersion_exact {σ ε : Type} {b : Bytes} {major minor : Int64}
    (h : httpParseVersion b = some (major, minor)) :
    (Exact b major minor ↔ Plain b) ∧
    (Plain b → ∀ (u : Upgrader σ ε) (c : σ) (method uri : Bytes),
      (checkRequest u c ⟨method, uri, major, minor⟩).2 ≠ some (.sentinel .badProtocol) →
        decimal (majorOf b) = 1 ∧ 1 ≤ decimal (minorOf b)) := by
  obtain ⟨hshape, hmajor, hminor⟩ := httpParseVersion_cases h
  obtain ⟨hne1, hrange1, rfl⟩ := asciiToInt_eq_some_iff.mp hmajor
  obtain ⟨hne2, hrange2, rfl⟩ := asciiToInt_eq_some_iff.mp hminor
  have hdigits := digits_iff (List.forall_mem_append.mpr ⟨hrange1, hrange2⟩)
  refine ⟨⟨?_, ?_⟩, ?_⟩
  · intro hexact
    exact ⟨hdigits.mp hexact.digits, toInt_ofNat_eq_iff.mp hexact.major, toInt_ofNat_eq_iff.mp hexact.minor⟩
  · rintro ⟨hnine, hfit1, hfit2⟩
    exact ⟨hshape, ⟨hne1, hne2⟩, hdigits.mpr hnine, toInt_ofNat_eq_iff.mpr hfit1, toInt_ofNat_eq_iff.mpr hfit2⟩
  · rintro ⟨-, hfit1, hfit2⟩ u c method uri hpassed
    have hgood : ¬ (Int64.ofNat (decimal (majorOf b)) ≠ 1 ∨ Int64.ofNat (decimal (minorOf b)) < 1) := by
      intro hbad
      rw [checkRequest, if_pos hbad] at hpassed
      exact hpassed rfl
    rw [not_or, Decidable.not_not, ← Int64.toInt_inj, Int64.lt_iff_toInt_lt, toInt_ofNat_eq_iff.mpr hfit1,
      toInt_ofNat_eq_iff.mpr hfit2, show (1 : Int64).toInt = 1 from rfl] at hgood
    omega

theorem httpParseVersion_exact_two : httpParseVersion (ascii "HTTP/1.12") = some (1, 12) ∧
    Exact (ascii "HTTP/1.12") 1 12 := by
  have h : httpParseVersion (ascii "HTTP/1.12") = some (1, 12) := by decide +kernel
  have hplain : Plain (ascii "HTTP/1.12") := by decide +kernel
  exact ⟨h, (httpParseVersion_exact (σ := Unit) (ε := Unit) h).1.mpr hplain⟩

def requestOf (version : Bytes) : Bytes :=
  ascii "GET /chat " ++ version ++
    ascii "\r\nHost: a\r\nUpgrade: websocket\r\nConnection: Upgrade\r\nSec-WebSocket-Version: 13\r\n" ++
    ascii "Sec-WebSocket-Key: dGhlIHNhbXBsZSBub25jZQ==\r\n\r\n"

/-- A colon is taken for the digit ten and 2^64 + 1 for one, and the handshake succeeds with both versions. -/
theorem versions_mistaken :
    (httpParseVersion (ascii "HTTP/1.:") = some (1, 10) ∧ ¬ Exact (ascii "HTTP/1.:") 1 10 ∧
      (handshake plainLibrary bare () (requestOf (ascii "HTTP/1.:"))).toOption.map (·.err) = some none) ∧
    httpParseVersion (ascii "HTTP/18446744073709551617.1") = some (1, 1) ∧
    ¬ Exact (ascii "HTTP/18446744073709551617.1") 1 1 ∧
    (handshake plainLibrary bare () (requestOf (ascii "HTTP/18446744073709551617.1"))).toOption.map (·.err) =
      some none := by
  refine ⟨⟨by decide +kernel, ?_, by decide +kernel⟩, by decide +kernel, ?_, by decide +kernel⟩
  · intro hexact
    have hcolon : colon ∈ majorOf (ascii "HTTP/1.:") ++ minorOf (ascii "HTTP/1.:") := by decide +kernel
    exact absurd (hexact.digits colon hcolon) (by decide)
  · intro hexact
    have hvalue : decimal (majorOf (ascii "HTTP/18446744073709551617.1")) = 18446744073709551617 := by decide +kernel
    have hmajor := hexact.major
    rw [hvalue] at hmajor
    exact absurd hmajor (by decide)

end Gev.Websocket.Versions
