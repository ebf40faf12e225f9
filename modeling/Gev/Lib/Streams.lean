import Mathlib.Data.List.Basic
import Mathlib.Tactic.Common

namespace Gev.Lib.Streams

variable {α β μ ν : Type}

/-- Take messages from a buffer until there is none. The fuel bounds the rounds; no result means that it did not suffice
or that a round failed. -/
def drain (next : β → Option (Option ν × β)) : Nat → β → Option (List ν × β)
  | 0, _ => none
  | fuel + 1, b => match next b with
    | none => none
    | some (none, b) => some ([], b)
    | some (some m, b) => (drain next fuel b).map fun r => (m :: r.1, r.2)

def feed (next : β → Option (Option ν × β)) (write : β → List α → β) (fuel : Nat) :
    β → List (List α) → Option (List ν × β)
  | b, [] => some ([], b)
  | b, chunk :: chunks =>
      (drain next fuel (write b chunk)).bind fun r =>
        (feed next write fuel r.2 chunks).map fun r' => (r.1 ++ r'.1, r'.2)

section Stream

variable (encode : μ → List α)

def stream (ms : List μ) : List α := ms.flatMap encode

def arrived : List μ → Nat → List μ
  | [], _ => []
  | m :: ms, n => if (encode m).length ≤ n then m :: arrived ms (n - (encode m).length) else []

def unfinished (ms : List μ) (n : Nat) : List α :=
  ((stream encode ms).take n).drop (stream encode (arrived encode ms n)).length

theorem stream_cons (m : μ) (ms : List μ) : stream encode (m :: ms) = encode m ++ stream encode ms := by
  simp [stream]

theorem stream_append (ms ms' : List μ) : stream encode (ms ++ ms') = stream encode ms ++ stream encode ms' := by
  simp [stream]

theorem arrived_append (done ms : List μ) (n : Nat) :
    arrived encode (done ++ ms) ((stream encode done).length + n) = done ++ arrived encode ms n := by
  induction done with
  | nil => simp [stream]
  | cons m done ih =>
      have hsub : (stream encode (m :: done)).length + n - (encode m).length = (stream encode done).length + n := by
        rw [stream_cons, List.length_append]
        omega
      rw [List.cons_append, arrived, if_pos (by rw [stream_cons, List.length_append]; omega), hsub, ih]
      rfl

theorem arrived_all (ms : List μ) : arrived encode ms (stream encode ms).length = ms := by
  have h := arrived_append encode ms [] 0
  simpa [arrived] using h

theorem unfinished_all (ms : List μ) : unfinished encode ms (stream encode ms).length = [] := by
  rw [unfinished, arrived_all, List.take_length, List.drop_length]

theorem unfinished_append (done ms : List μ) (n : Nat) :
    unfinished encode (done ++ ms) ((stream encode done).length + n) = unfinished encode ms n := by
  rw [unfinished, unfinished, arrived_append, stream_append, stream_append, List.take_length_add_append,
    List.length_append, ← List.drop_drop, List.drop_left]

/-- A cut of a stream: complete messages, and some symbols of the first message that is not complete. -/
theorem exists_arrived (ms : List μ) {n : Nat} (hn : n ≤ (stream encode ms).length) :
    ∃ done rest p, ms = done ++ rest ∧ n = (stream encode done).length + p ∧ arrived encode rest p = [] ∧
      p ≤ (stream encode rest).length := by
  induction ms generalizing n with
  | nil => exact ⟨[], [], n, rfl, by simp [stream], rfl, hn⟩
  | cons m ms ih =>
      by_cases hm : (encode m).length ≤ n
      · rw [stream_cons, List.length_append] at hn
        obtain ⟨done, rest, p, rfl, hp, hnone, hle⟩ := @ih (n - (encode m).length) (by omega)
        refine ⟨m :: done, rest, p, rfl, ?_, hnone, hle⟩
        rw [stream_cons, List.length_append]
        omega
      · exact ⟨[], m :: ms, n, rfl, by simp [stream], by rw [arrived, if_neg hm], hn⟩

/-- What comes in behind a cut belongs to the messages behind those that are complete. -/
theorem exists_unfinished {ms : List μ} {xs chunk : List α} (h : xs ++ chunk <+: stream encode ms) :
    ∃ rest p, p ≤ (stream encode rest).length ∧
      unfinished encode ms xs.length ++ chunk = (stream encode rest).take p ∧
      arrived encode ms (xs ++ chunk).length = arrived encode ms xs.length ++ arrived encode rest p ∧
      unfinished encode ms (xs ++ chunk).length = unfinished encode rest p := by
  have hxs := (List.prefix_append xs chunk).trans h
  obtain ⟨done, rest, p, rfl, hn, hrest, hp⟩ := exists_arrived encode ms hxs.length_le
  have hcut : xs = stream encode done ++ (stream encode rest).take p := by
    rw [List.prefix_iff_eq_take.mp hxs, hn, stream_append, List.take_length_add_append]
  have hbuffer : unfinished encode (done ++ rest) xs.length = (stream encode rest).take p := by
    rw [hn, unfinished_append, unfinished, hrest]
    rfl
  rw [hcut, stream_append, List.append_assoc] at h
  have hlater := (List.prefix_append_right_inj _).mp h
  have hlen : ((stream encode rest).take p ++ chunk).length = p + chunk.length := by
    rw [List.length_append, List.length_take, Nat.min_eq_left hp]
  refine ⟨rest, p + chunk.length, hlen ▸ hlater.length_le, ?_, ?_, ?_⟩
  · rw [hbuffer, ← hlen]
    exact List.prefix_iff_eq_take.mp hlater
  · rw [List.length_append, hn, Nat.add_assoc, arrived_append, arrived_append, hrest, List.append_nil]
  · rw [List.length_append, hn, Nat.add_assoc, unfinished_append]

end Stream

/-- A framing by which a buffer that starts with a whole encoding gives its message, and one that holds less than the
next encoding gives nothing and stays as it is. -/
structure Framing (next : β → Option (Option ν × β)) (write : β → List α → β) (load : List α → β)
    (encode : μ → List α) (view : μ → ν) : Prop where
  whole : ∀ m rest, next (load (encode m ++ rest)) = some (some (view m), load rest)
  part : ∀ m n, n < (encode m).length → next (load ((encode m).take n)) = some (none, load ((encode m).take n))
  empty : next (load []) = some (none, load [])
  write : ∀ xs ys, write (load xs) ys = load (xs ++ ys)
  nonempty : ∀ m, encode m ≠ []

variable {next : β → Option (Option ν × β)} {write : β → List α → β} {load : List α → β} {encode : μ → List α}
variable {view : μ → ν} (hframing : Framing next write load encode view)

include hframing

theorem Framing.drain_take (ms : List μ) {n fuel : Nat} (hn : n ≤ (stream encode ms).length) (hf : n < fuel) :
    drain next fuel (load ((stream encode ms).take n)) =
      some ((arrived encode ms n).map view, load (unfinished encode ms n)) := by
  obtain ⟨fuel, rfl⟩ : ∃ k, fuel = k + 1 := ⟨fuel - 1, by omega⟩
  induction ms generalizing n fuel with
  | nil =>
      have hzero : n = 0 := Nat.le_zero.mp hn
      subst hzero
      simp only [List.take_zero, drain, hframing.empty]
      rfl
  | cons m ms ih =>
      have hpos : 0 < (encode m).length := List.length_pos_of_ne_nil (hframing.nonempty m)
      rw [stream_cons, List.length_append] at hn
      by_cases hm : (encode m).length ≤ n
      · obtain ⟨q, rfl⟩ : ∃ q, n = (encode m).length + q := ⟨n - (encode m).length, by omega⟩
        obtain ⟨fuel, rfl⟩ : ∃ k, fuel = k + 1 := ⟨fuel - 1, by omega⟩
        have hone : (stream encode [m]).length = (encode m).length := by simp [stream]
        have harrived := arrived_append encode [m] ms q
        have hunfinished := unfinished_append encode [m] ms q
        rw [hone] at harrived hunfinished
        rw [drain, stream_cons, List.take_length_add_append, hframing.whole]
        simp only [ih (n := q) (by omega) fuel (by omega)]
        simp only [List.singleton_append] at harrived hunfinished
        rw [harrived, hunfinished]
        rfl
      · have hlt : n < (encode m).length := Nat.lt_of_not_le hm
        have hnone : arrived encode (m :: ms) n = [] := by rw [arrived, if_neg hm]
        have htake : (stream encode (m :: ms)).take n = (encode m).take n := by
          rw [stream_cons, List.take_append_of_le_length (Nat.le_of_lt hlt)]
        rw [unfinished, hnone, htake, drain, hframing.part m n hlt]
        rfl

/-- One round on a cut of a stream takes its first message, or there is none. -/
theorem Framing.next_take (ms : List μ) {n : Nat} (hn : n ≤ (stream encode ms).length) :
    (arrived encode ms n = [] ∧ unfinished encode ms n = (stream encode ms).take n ∧
      next (load ((stream encode ms).take n)) = some (none, load ((stream encode ms).take n))) ∨
    ∃ m rest p, p ≤ (stream encode rest).length ∧ arrived encode ms n = m :: arrived encode rest p ∧
      unfinished encode ms n = unfinished encode rest p ∧
      next (load ((stream encode ms).take n)) = some (some (view m), load ((stream encode rest).take p)) := by
  cases ms with
  | nil => exact .inl ⟨rfl, rfl, by simpa [stream] using hframing.empty⟩
  | cons m rest =>
      rw [stream_cons, List.length_append] at hn
      by_cases hm : (encode m).length ≤ n
      · obtain ⟨p, rfl⟩ : ∃ p, n = (encode m).length + p := ⟨n - (encode m).length, by omega⟩
        have hone : (stream encode [m]).length = (encode m).length := by simp [stream]
        refine .inr ⟨m, rest, p, by omega, ?_, ?_, ?_⟩
        · exact hone ▸ arrived_append encode [m] rest p
        · exact hone ▸ unfinished_append encode [m] rest p
        · rw [stream_cons, List.take_length_add_append, hframing.whole]
      · have hlt : n < (encode m).length := Nat.lt_of_not_le hm
        have hnone : arrived encode (m :: rest) n = [] := by rw [arrived, if_neg hm]
        refine .inl ⟨hnone, by rw [unfinished, hnone]; rfl, ?_⟩
        rw [stream_cons, List.take_append_of_le_length (Nat.le_of_lt hlt)]
        exact hframing.part m n hlt

theorem Framing.feed_unfinished {chunks : List (List α)} {ms : List μ} {n fuel : Nat}
    (hnone : arrived encode ms n = []) (h : (stream encode ms).take n ++ chunks.flatten <+: stream encode ms)
    (hn : n ≤ (stream encode ms).length) (hf : (stream encode ms).length < fuel) :
    feed next write fuel (load ((stream encode ms).take n)) chunks =
      some ((arrived encode ms (n + chunks.flatten.length)).map view,
        load (unfinished encode ms (n + chunks.flatten.length))) := by
  induction chunks generalizing ms n with
  | nil => simp [feed, unfinished, hnone, stream]
  | cons chunk chunks ih =>
      -- The drain behind the chunk takes the messages that it completes; the rest is fed to the messages behind them.
      rw [List.flatten_cons, ← List.append_assoc] at h
      have hlen := (List.IsPrefix.length_le h)
      simp only [List.length_append, List.length_take, Nat.min_eq_left hn] at hlen
      have hmore : n + chunk.length ≤ (stream encode ms).length := by omega
      have htake : (stream encode ms).take n ++ chunk = (stream encode ms).take (n + chunk.length) := by
        have hle := (List.prefix_append _ chunks.flatten).trans h
        have heq := List.prefix_iff_eq_take.mp hle
        simpa [Nat.min_eq_left hn] using heq
      rw [feed, hframing.write, htake, hframing.drain_take ms hmore (by omega)]
      obtain ⟨done, rest, p, rfl, hp, hrest, hple⟩ := exists_arrived encode ms hmore
      have hbuffer : unfinished encode (done ++ rest) (n + chunk.length) = (stream encode rest).take p := by
        rw [hp, unfinished_append, unfinished, hrest]
        rfl
      have hlater : (stream encode rest).take p ++ chunks.flatten <+: stream encode rest := by
        rw [htake, hp, stream_append, List.take_length_add_append, List.append_assoc] at h
        exact (List.prefix_append_right_inj _).mp h
      have hfuel : (stream encode rest).length < fuel := by
        rw [stream_append, List.length_append] at hf
        omega
      have htotal : n + (chunk :: chunks).flatten.length =
          (stream encode done).length + (p + chunks.flatten.length) := by
        rw [List.flatten_cons, List.length_append]
        omega
      simp only [Option.bind_some, hbuffer, ih hrest hlater hple hfuel, Option.map_some]
      rw [htotal, arrived_append, unfinished_append, hp, arrived_append, hrest]
      simp

theorem Framing.arrived_zero (ms : List μ) : arrived encode ms 0 = [] := by
  cases ms with
  | nil => rfl
  | cons m ms =>
      have hpos : 0 < (encode m).length := List.length_pos_of_ne_nil (hframing.nonempty m)
      rw [arrived, if_neg (by omega)]

/-- However a stream is cut, each message is taken as soon as it is complete. -/
theorem Framing.feed_chunks {chunks : List (List α)} {ms : List μ} {fuel : Nat}
    (h : chunks.flatten <+: stream encode ms) (hf : (stream encode ms).length < fuel) :
    feed next write fuel (load []) chunks =
      some ((arrived encode ms chunks.flatten.length).map view, load (unfinished encode ms chunks.flatten.length)) := by
  simpa using hframing.feed_unfinished (n := 0) (hframing.arrived_zero ms) (by simpa using h) (Nat.zero_le _) hf

end Gev.Lib.Streams
