import Gev.Websocket.Decoder

namespace Gev.Websocket.Chunking

open Gev.Connection.State Gev.Lib Gev.Lib.RingBuffers Gev.Websocket.Framing Gev.Websocket.Cipher Gev.Websocket.Decoder

variable (order : ByteOrder) (u : Upgrader) (pooled : Scratch)

/-- What reaches OnMessage when the chunks arrive one after the other and each arrival is followed by a drain. -/
def feed : Option Scratch → RingBuffer UInt8 → List Bytes → List (Option Header × Bytes)
  | _, _, [] => []
  | bts, buffer, chunk :: chunks =>
      let buffer := buffer.write chunk
      let (messages, bts, buffer) := drain order u pooled (buffer.length + 1) bts buffer
      messages ++ feed bts buffer chunks

def stream (frames : List Frame) : Bytes := frames.flatMap (Frame.encode order)

def readAll (bts : Scratch) (frames : List Frame) : Scratch := frames.foldl (fun b f => b.fill f.header.extra) bts

/-- With o bytes already there, one of the next cuts leaves the start of a frame that is misread. -/
def CutFrom (o : Nat) (bts : Scratch) (frames : List Frame) (chunks : List Bytes) : Prop :=
  ∃ before f after pre post o', frames = before ++ f :: after ∧ chunks = pre ++ post ∧
    o + pre.flatten.length = (stream order before).length + o' ∧ Misread (readAll bts before) f o'

theorem stream_append (xs ys : List Frame) : stream order (xs ++ ys) = stream order xs ++ stream order ys := by
  simp [stream]

theorem stream_cons (f : Frame) (frames : List Frame) :
    stream order (f :: frames) = f.encode order ++ stream order frames := by
  simp [stream]

/-- After a drain: o bytes of the first outstanding frame are there, and an attempt at its header has put no more
than those into the header buffer. -/
inductive Waiting : List Frame → Nat → Scratch → Scratch → Prop
  | finished (bts now : Scratch) : Waiting [] 0 bts now
  | part {f : Frame} {frames : List Frame} {o j : Nat} {bts : Scratch} (ho : o < (f.encode order).length)
      (hm : ¬ Misread bts f o) (hj : j ≤ o - 2) : Waiting (f :: frames) o bts (bts.fill (f.header.extra.take j))

inductive Outcome (frames : List Frame) (p : Nat) (bts : Scratch) :
    List (Option Header × Bytes) × Option Scratch × RingBuffer UInt8 → Prop
  | clean {done rest : List Frame} {o : Nat} {now : Scratch} (hf : frames = done ++ rest)
      (hp : p = (stream order done).length + o) (hw : Waiting order rest o (readAll bts done) now) :
      Outcome frames p bts (done.map Frame.message, some now, .ofList ((stream order rest).take o))
  | misread {done rest : List Frame} {f : Frame} {o : Nat} {header : Header} {more : List (Option Header × Bytes)}
      {state : Option Scratch × RingBuffer UInt8} (hf : frames = done ++ f :: rest)
      (hp : p = (stream order done).length + o) (hm : Misread (readAll bts done) f o) (hz : header.length = 0) :
      Outcome frames p bts (done.map Frame.message ++ (some header, []) :: more, state)

variable {order u pooled}

theorem Outcome.cons {f : Frame} {frames : List Frame} {p : Nat} {bts : Scratch}
    {r : List (Option Header × Bytes) × Option Scratch × RingBuffer UInt8}
    (h : Outcome order frames p (bts.fill f.header.extra) r) :
    Outcome order (f :: frames) ((f.encode order).length + p) bts (f.message :: r.1, r.2) := by
  cases h with
  | @clean done rest o now hf hp hw =>
      change Outcome order _ _ _ ((f :: done).map Frame.message, _, _)
      exact .clean (by rw [hf]; rfl) (by rw [stream_cons, List.length_append, hp, Nat.add_assoc]) hw
  | @misread done rest g o header more state hf hp hm hz =>
      change Outcome order _ _ _ ((f :: done).map Frame.message ++ _ :: _, _)
      exact .misread (by rw [hf]; rfl) (by rw [stream_cons, List.length_append, hp, Nat.add_assoc]) hm hz

theorem drop_fill (bts : Scratch) {got : Bytes} {k : Nat} (hk : got.length ≤ k) (h : got.length ≤ 12) :
    (bts.fill got).bytes.drop k = bts.bytes.drop k := by
  rw [bts.fill_bytes h, List.drop_append, List.drop_of_length_le hk, List.drop_drop, List.nil_append,
    Nat.add_sub_cancel' hk]

theorem misread_fill {bts : Scratch} {f : Frame} {o j : Nat} (hj : j ≤ o - 2) :
    Misread (bts.fill (f.header.extra.take j)) f o ↔ Misread bts f o := by
  obtain ⟨-, hx⟩ := extra_bounds f.header_masked
  have hlen : (f.header.extra.take j).length ≤ j := List.length_take_le _ _
  have hlen' : (f.header.extra.take j).length ≤ 12 := Nat.le_trans (List.length_take_le' _ _) hx
  rw [Misread, Misread, drop_fill bts (Nat.le_trans hlen hj) hlen']

theorem waiting_start (frames : List Frame) (bts : Scratch) : Waiting order frames 0 bts bts := by
  cases frames with
  | nil => exact .finished bts bts
  | cons f frames =>
      have hlen := f.length_encode order
      have hw : Waiting order (f :: frames) 0 bts (bts.fill (f.header.extra.take 0)) :=
        .part (by omega) (fun h => absurd h.2.1 (by decide)) (Nat.le_refl _)
      rwa [List.take_zero, bts.fill_nil] at hw

theorem drain_stop {fuel : Nat} {bts : Scratch} {buffer : RingBuffer UInt8}
    {state : Option Scratch × RingBuffer UInt8}
    (h : unPacket order u pooled (some bts) buffer = ((none, []), state)) :
    drain order u pooled (fuel + 1) (some bts) buffer = ([], state) := by
  simp [drain, h]

theorem drain_deliver {fuel : Nat} {bts : Scratch} {buffer buffer' : RingBuffer UInt8} {header : Header}
    {payload : Bytes} {bts' : Option Scratch}
    (h : unPacket order u pooled (some bts) buffer = ((some header, payload), bts', buffer')) :
    drain order u pooled (fuel + 1) (some bts) buffer =
      ((some header, payload) :: (drain order u pooled fuel bts' buffer').1,
        (drain order u pooled fuel bts' buffer').2) := by
  simp [drain, h]

/-- Draining when only p bytes of the first frame are there. -/
theorem drain_incomplete {f : Frame} {frames : List Frame} {p j fuel : Nat} {bts : Scratch}
    (hp : p < (f.encode order).length) (hj : j ≤ p - 2) :
    Outcome order (f :: frames) p bts (drain order u pooled (fuel + 1) (some (bts.fill (f.header.extra.take j)))
      (.ofList ((f.encode order).take p))) := by
  obtain ⟨-, hhigh⟩ := extra_bounds f.header_masked
  have hrest : (f.encode order).take p = (stream order (f :: frames)).take p := by
    rw [stream_cons, List.take_append_of_le_length (Nat.le_of_lt hp)]
  by_cases hm : Misread bts f p
  · obtain ⟨header, bts', buffer, hz, hu⟩ := unPacket_misread order u pooled
      ((misread_fill hj).mpr hm)
    rw [drain_deliver hu]
    change Outcome order _ _ _ (([] : List Frame).map Frame.message ++ _ :: _, _)
    exact .misread rfl (by simp [stream]) hm hz
  · by_cases h6 : 6 ≤ p
    · have hfill : (bts.fill (f.header.extra.take j)).fill (f.header.extra.take (p - 2)) =
          bts.fill (f.header.extra.take (p - 2)) := by
        apply bts.fill_fill
        · simp only [List.length_take]
          omega
        · exact Nat.le_trans (List.length_take_le' _ _) hhigh
      rw [drain_stop (unPacket_incomplete h6 hp (mt (misread_fill hj).mp hm)), hfill, hrest]
      change Outcome order _ _ _ (([] : List Frame).map Frame.message, _, _)
      exact .clean rfl (by simp [stream]) (.part hp hm (Nat.le_refl _))
    · have hlen : ((f.encode order).take p).length < 6 := by
        simp only [List.length_take]
        omega
      rw [drain_stop (unPacket_short _ hlen), hrest]
      change Outcome order _ _ _ (([] : List Frame).map Frame.message, _, _)
      exact .clean rfl (by simp [stream]) (.part hp hm hj)

variable (u pooled) in
theorem drain_outcome {frames : List Frame} {o p fuel : Nat} {bts now : Scratch}
    (hw : Waiting order frames o bts now) (hop : o ≤ p) (hp : p ≤ (stream order frames).length) (hf : p < fuel) :
    Outcome order frames p bts
      (drain order u pooled fuel (some now) (.ofList ((stream order frames).take p))) := by
  induction frames generalizing o p fuel bts now with
  | nil =>
      obtain ⟨fuel, rfl⟩ : ∃ k, fuel = k + 1 := ⟨fuel - 1, by omega⟩
      have hzero : p = 0 := Nat.le_zero.mp hp
      subst hzero
      rw [drain_stop (unPacket_short now (by simp))]
      change Outcome order _ _ _ (([] : List Frame).map Frame.message, _, _)
      exact .clean rfl rfl (.finished _ _)
  | cons f frames ih =>
      obtain ⟨fuel, rfl⟩ : ∃ k, fuel = k + 1 := ⟨fuel - 1, by omega⟩
      cases hw with
      | @part _ _ o j bts ho hm hj =>
          obtain ⟨hlow, hhigh⟩ := extra_bounds f.header_masked
          have hlen := f.length_encode order
          rw [stream_cons, List.length_append] at hp
          rw [stream_cons]
          by_cases hfull : (f.encode order).length ≤ p
          · obtain ⟨q, rfl⟩ : ∃ q, p = (f.encode order).length + q := ⟨p - (f.encode order).length, by omega⟩
            have hfill : (bts.fill (f.header.extra.take j)).fill f.header.extra = bts.fill f.header.extra :=
              bts.fill_fill (List.length_take_le' _ _) hhigh
            rw [List.take_length_add_append, drain_deliver (unPacket_frame f _ _), hfill]
            exact (ih (waiting_start frames _) (Nat.zero_le q) (by omega) (by omega)).cons
          · have hshort : p < (f.encode order).length := Nat.lt_of_not_le hfull
            rw [List.take_append_of_le_length (Nat.le_of_lt hshort)]
            exact drain_incomplete hshort (by omega)

theorem readAll_append (bts : Scratch) (xs ys : List Frame) :
    readAll bts (xs ++ ys) = readAll (readAll bts xs) ys := List.foldl_append

variable (order) in
theorem misread_lt {bts : Scratch} {f : Frame} {o : Nat} (h : Misread bts f o) : o < (f.encode order).length := by
  have hlong := h.1
  have hlen := f.length_encode order
  have ho := h.2.2.1
  simp only [len16] at hlong
  omega

/-- The cut that was just drained is no bad one. -/
theorem Waiting.not_here {frames before after : List Frame} {o o' : Nat} {bts now : Scratch} {f : Frame}
    (hw : Waiting order frames o bts now) (hf : frames = before ++ f :: after)
    (ho : o = (stream order before).length + o') : ¬ Misread (readAll bts before) f o' := by
  intro hm
  cases hw with
  | finished => simp at hf
  | @part g frames o j bts hlt hn hj =>
      cases before with
      | nil =>
          obtain ⟨rfl, rfl⟩ := List.cons.inj hf
          have hsame : o = o' := by simpa [stream] using ho
          exact hn (hsame ▸ hm)
      | cons b before =>
          obtain ⟨rfl, -⟩ := List.cons.inj hf
          rw [stream_cons, List.length_append] at ho
          omega

/-- A misread cut lies behind the frames that are complete. -/
theorem split_behind {done rest before after : List Frame} {f : Frame} {bts : Scratch} {o o' : Nat}
    (h : done ++ rest = before ++ f :: after) (hm : Misread bts f o')
    (ho : (stream order done).length + o = (stream order before).length + o') :
    ∃ mid, before = done ++ mid ∧ rest = mid ++ f :: after := by
  rcases List.append_eq_append_iff.mp h with ⟨mid, hb, hr⟩ | ⟨mid, hd, hr⟩
  · exact ⟨mid, hb, hr⟩
  · cases mid with
    | nil => exact ⟨[], by simpa using hd.symm, by simpa using hr.symm⟩
    | cons g mid =>
        obtain ⟨rfl, -⟩ := List.cons.inj hr
        have hlt := misread_lt order hm
        rw [hd, stream_append, stream_cons, List.length_append, List.length_append] at ho
        omega

theorem cutFrom_shift {done rest : List Frame} {o p : Nat} {bts now : Scratch} {chunk : Bytes} {chunks : List Bytes}
    (hw : Waiting order (done ++ rest) o bts now) (hp : o + chunk.length = (stream order done).length + p) :
    CutFrom order o bts (done ++ rest) (chunk :: chunks) ↔ CutFrom order p (readAll bts done) rest chunks := by
  constructor
  · rintro ⟨before, f, after, pre, post, o', hf, hc, ho, hm⟩
    cases pre with
    | nil => exact absurd hm (hw.not_here hf (by simpa using ho))
    | cons c pre =>
        obtain ⟨rfl, rfl⟩ := List.cons.inj hc
        rw [List.flatten_cons, List.length_append, ← Nat.add_assoc, hp, Nat.add_assoc] at ho
        obtain ⟨mid, rfl, rfl⟩ := split_behind hf hm ho
        rw [stream_append, List.length_append] at ho
        exact ⟨mid, f, after, pre, post, o', rfl, rfl, by omega, readAll_append bts done mid ▸ hm⟩
  · rintro ⟨before, f, after, pre, post, o', rfl, rfl, ho, hm⟩
    refine ⟨done ++ before, f, after, chunk :: pre, post, o', by simp, rfl, ?_, ?_⟩
    · rw [List.flatten_cons, List.length_append, stream_append, List.length_append]
      omega
    · rwa [readAll_append]

theorem take_write {xs chunk rest : Bytes} {o : Nat} (h : xs.take o ++ (chunk ++ rest) = xs) (ho : o ≤ xs.length) :
    xs.take o ++ chunk = xs.take (o + chunk.length) ∧ o + chunk.length ≤ xs.length := by
  have hdrop : xs.drop o = chunk ++ rest := by
    rw [← List.take_append_drop o xs] at h
    rw [List.take_left' (by simp [ho])] at h
    exact (List.append_cancel_left h).symm
  constructor
  · rw [List.take_add, hdrop, List.take_left]
  · have hlen := congrArg List.length hdrop
    rw [List.length_drop, List.length_append] at hlen
    omega

theorem Waiting.le_length {frames : List Frame} {o : Nat} {bts now : Scratch} (hw : Waiting order frames o bts now) :
    o ≤ (stream order frames).length := by
  cases hw with
  | finished => exact Nat.zero_le _
  | part ho =>
      rw [stream_cons, List.length_append]
      omega

theorem feed_waiting {chunks : List Bytes} {frames : List Frame} {o : Nat} {bts now : Scratch}
    (hw : Waiting order frames o bts now)
    (hs : (stream order frames).take o ++ chunks.flatten = stream order frames) :
    feed order u pooled (some now) (.ofList ((stream order frames).take o)) chunks = frames.map Frame.message ↔
      ¬ CutFrom order o bts frames chunks := by
  induction chunks generalizing frames o bts now with
  | nil =>
      have hnil : frames = [] := by
        cases hw with
        | finished => rfl
        | @part f frames _ _ _ ho =>
            have hlen := congrArg List.length hs
            simp only [List.flatten_nil, List.append_nil, stream_cons, List.length_take, List.length_append] at hlen
            omega
      subst hnil
      simp [feed, CutFrom]
  | cons chunk chunks ih =>
      rw [List.flatten_cons] at hs
      obtain ⟨htake, hlen⟩ := take_write hs hw.le_length
      have hsize : (RingBuffer.ofList ((stream order frames).take (o + chunk.length))).length = o + chunk.length := by
        simp [RingBuffer.length, hlen]
      have hout := drain_outcome u pooled hw (Nat.le_add_right o chunk.length) hlen
        (Nat.lt_succ_self (o + chunk.length))
      simp only [feed, RingBuffer.write_ofList, htake, hsize]
      generalize drain order u pooled _ _ _ = r at hout
      cases hout with
      | @clean done rest p now' hf hp hw' =>
          subst hf
          have hrest : (stream order rest).take p ++ chunks.flatten = stream order rest := by
            have hmore : (stream order (done ++ rest)).take (o + chunk.length) ++ chunks.flatten =
                stream order (done ++ rest) := by rw [← htake, List.append_assoc, hs]
            rw [hp, stream_append, List.take_length_add_append, List.append_assoc] at hmore
            exact List.append_cancel_left hmore
          rw [cutFrom_shift hw hp, ← ih hw' hrest, List.map_append]
          exact List.append_right_inj _
      | @misread done rest f p header more state hf hp hm hz =>
          subst hf
          have hcut : CutFrom order o bts (done ++ f :: rest) (chunk :: chunks) :=
            ⟨done, f, rest, [chunk], chunks, p, rfl, rfl, by simpa using hp, hm⟩
          have hne : (done.map Frame.message ++ (some header, []) :: more) ++
              feed order u pooled state.1 state.2 chunks ≠ (done ++ f :: rest).map Frame.message := by
            intro heq
            rw [List.map_append, List.append_assoc] at heq
            have hhead := (List.cons.inj (List.append_cancel_left heq)).1
            have hsame : header = f.header := Option.some.inj (congrArg Prod.fst hhead)
            have hlong := hm.1
            rw [hsame, f.header_length] at hz
            simp only [len16] at hlong
            omega
          exact ⟨fun heq => absurd heq hne, fun hno => absurd hcut hno⟩

theorem feed_chunks {bts : Scratch} {frames : List Frame} {chunks : List Bytes}
    (h : chunks.flatten = stream order frames) :
    feed order u pooled (some bts) .empty chunks = frames.map Frame.message ↔ ¬ CutFrom order 0 bts frames chunks :=
  feed_waiting (waiting_start frames bts) (by rwa [List.take_zero, List.nil_append])

theorem feed_whole (bts : Scratch) (frames : List Frame) :
    feed order u pooled (some bts) .empty [stream order frames] = frames.map Frame.message := by
  apply (feed_chunks (by simp)).mpr
  rintro ⟨before, f, after, pre, post, o, hf, hc, ho, hm⟩
  have hlt := misread_lt order hm
  have h6 := hm.2.1
  cases pre with
  | nil =>
      simp at ho
      omega
  | cons c pre =>
      obtain ⟨rfl, hnil⟩ := List.cons.inj hc
      obtain ⟨rfl, -⟩ := List.append_eq_nil_iff.mp hnil.symm
      rw [hf, stream_append, stream_cons] at ho
      simp only [List.flatten_cons, List.flatten_nil, List.append_nil, List.length_append] at ho
      omega

/-- A frame on the wire, with the masking as it is defined: byte i is combined with byte i mod 4 of the mask. -/
def wire (f : Frame) : Bytes := (writeHeader f.header).toOption.getD [] ++ xorBytes f.mask 0 f.payload

variable (order) in
theorem wire_eq_encode (f : Frame) : wire f = f.encode order := by
  rw [wire, Frame.encode, cipher_eq_xorBytes]

/-- Draining the concatenation of frames returns their headers and payloads in order and leaves the buffer empty, with
no virtual read pending. One round for each frame and one more are enough. -/
theorem frame_stream_round_trip (order : ByteOrder) (u : Upgrader) (pooled bts : Scratch) (frames : List Frame)
    (n : Nat) :
    ∃ now, drain order u pooled (frames.length + 1 + n) (some bts) (.ofList (frames.flatMap wire)) =
      (frames.map Frame.message, some now, .empty) := by
  induction frames generalizing bts with
  | nil =>
      refine ⟨bts, ?_⟩
      rw [List.length_nil, Nat.add_right_comm, drain_stop (unPacket_short bts (by simp))]
      rfl
  | cons f frames ih =>
      obtain ⟨now, hrest⟩ := ih (bts.fill f.header.extra)
      refine ⟨now, ?_⟩
      rw [List.flatMap_cons, wire_eq_encode order, List.length_cons, Nat.add_right_comm, Nat.add_right_comm _ 1 n,
        drain_deliver (unPacket_frame f bts _), Nat.add_right_comm _ n 1, hrest]
      rfl

/-- The frames delivered do not depend on how the stream is cut, except when a cut leaves six to nine bytes of a
long frame whose length bytes so far are zero and are followed by zeros left over in the header buffer. -/
theorem chunking_independence (bts : Scratch) (frames : List Frame) (chunks : List Bytes)
    (h : chunks.flatten = stream order frames) :
    feed order u pooled (some bts) .empty chunks = feed order u pooled (some bts) .empty [stream order frames] ↔
      ¬ CutFrom order 0 bts frames chunks := by
  rw [feed_whole]
  exact feed_chunks h

def zeroScratch : Scratch := ⟨List.replicate 12 0, rfl⟩

def noUpgrade : Upgrader := ⟨fun buffer => ([], true, buffer)⟩

def ping : Frame := ⟨true, 0, 9, fun _ => 7, [1, 2, 3], by decide, by decide, by decide⟩

theorem chunking_independence_ping :
    [(ping.encode .little).take 7, (ping.encode .little).drop 7].flatten = stream .little [ping] ∧
      feed .little noUpgrade zeroScratch (some zeroScratch) .empty
          [(ping.encode .little).take 7, (ping.encode .little).drop 7] =
        feed .little noUpgrade zeroScratch (some zeroScratch) .empty [stream .little [ping]] := by
  have hsplit : [(ping.encode .little).take 7, (ping.encode .little).drop 7].flatten = stream .little [ping] := by
    decide
  refine ⟨hsplit, (chunking_independence zeroScratch [ping] _ hsplit).mpr ?_⟩
  rintro ⟨before, f, after, pre, post, o, hframes, -, -, hlong, -⟩
  have hf : f ∈ [ping] := hframes ▸ List.mem_append_right before List.mem_cons_self
  rw [List.mem_singleton.mp hf] at hlong
  exact absurd hlong (by decide)

def large : Frame :=
  ⟨true, 0, 2, fun _ => 0, List.replicate 65536 0, by decide, by decide, by rw [List.length_replicate]; decide⟩

/-- Cut after six bytes, the large frame is announced as an empty one. -/
theorem large_cut_differs :
    feed .little noUpgrade zeroScratch (some zeroScratch) .empty
        [(large.encode .little).take 6, (large.encode .little).drop 6] ≠
      feed .little noUpgrade zeroScratch (some zeroScratch) .empty [stream .little [large]] := by
  have hsplit : [(large.encode .little).take 6, (large.encode .little).drop 6].flatten = stream .little [large] := by
    simp [stream]
  have hlen := large.length_encode .little
  have hsize : large.payload.length = 65536 := List.length_replicate
  have hcut : CutFrom .little 0 zeroScratch [large] [(large.encode .little).take 6, (large.encode .little).drop 6] := by
    refine ⟨[], large, [], [(large.encode .little).take 6], [(large.encode .little).drop 6], 6, rfl, rfl, ?_, ?_⟩
    · simp only [List.flatten_cons, List.flatten_nil, List.append_nil, List.length_take, stream, List.flatMap_nil,
        List.length_nil]
      omega
    · unfold Misread
      rw [hsize]
      refine ⟨by decide, by decide, by decide, ?_⟩
      intro b hb
      exact List.eq_of_mem_replicate (n := 8) hb
  rw [feed_whole]
  exact fun heq => (feed_chunks hsplit).mp heq hcut

end Gev.Websocket.Chunking
