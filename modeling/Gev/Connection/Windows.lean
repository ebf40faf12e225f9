import Gev.Connection.ReadPath
import Gev.Connection.WindowsStreams

namespace Gev.Connection.Windows

open Lib.Atomic Lib.Threads Lib.Slices Lib.RingBuffers Lib.Runs
open State (Bytes)

variable {C G σ κ δ : Type}

section Unix

open State Code Reading Writing ReadPath

variable (cfg : Config C σ κ δ) (fuel : Nat) in
def absorb (d : Drained σ κ) (chunk : Bytes) : Option (Drained σ κ) :=
  (drain cfg fuel d.user (d.rest ++ chunk)).map fun e =>
    ⟨e.user, e.rest, d.calls ++ e.calls, d.replies ++ e.replies⟩

variable [DecidableEq C] {cfg : Config C σ κ δ} {c : C} {policy : Policy C σ κ δ} {chunk : Bytes} {L : Local C σ κ δ}

structure Level (c : C) (L : Local C σ κ δ) (d : Drained σ κ) : Prop where
  ready : Ready c L d.user d.rest
  out : (L.conns c).outBuffer.data = []
  accepted : (L.conns c).accepted = d.replies

structure Passed (c : C) (data : Bytes) (L L' : Local C σ κ δ) : Prop where
  heap : L'.heap = L.heap
  packet : L'.packet = L.packet
  user : (L'.conns c).user = (L.conns c).user
  inBuffer : (L'.conns c).inBuffer = (L.conns c).inBuffer
  outBuffer : (L'.conns c).outBuffer = (L.conns c).outBuffer
  accepted : (L'.conns c).accepted = (L.conns c).accepted ++ data

omit [DecidableEq C] in
theorem Passed.refl (c : C) (L : Local C σ κ δ) : Passed c [] L L := ⟨rfl, rfl, rfl, rfl, rfl, (List.append_nil _).symm⟩

omit [DecidableEq C] in
theorem Passed.trans {data more : Bytes} {L' L'' : Local C σ κ δ} (h : Passed c data L L') (h' : Passed c more L' L'') :
    Passed c (data ++ more) L L'' := by
  refine ⟨h'.heap.trans h.heap, h'.packet.trans h.packet, h'.user.trans h.user, h'.inBuffer.trans h.inBuffer,
    h'.outBuffer.trans h.outBuffer, ?_⟩
  rw [h'.accepted, h.accepted, List.append_assoc]

omit [DecidableEq C] in
theorem Level.passed {d : Drained σ κ} (h : Level c L d) {data : Bytes} {L' : Local C σ κ δ}
    (hpass : Passed c data L L') :
    Level c L' { d with replies := d.replies ++ data } := by
  refine ⟨⟨hpass.user.trans h.ready.user, hpass.inBuffer.trans h.ready.inBuffer, ?_⟩, ?_, ?_⟩
  · rw [hpass.heap, hpass.packet]
    exact h.ready.packet
  · rw [hpass.outBuffer]
    exact h.out
  · rw [hpass.accepted, h.accepted]

def prompt (chunk : Bytes) : Policy C σ κ δ := fun o _ => match o with
  | .unixWrite _ _ data => .count data.length
  | o => Answers.choice ⟨0, 0, .bytes chunk, .count 0, true, []⟩ o

end Unix

section Reader

open WindowsLoops WindowsWriter WindowsStreams
open ReadPath (Drained drain)

/-- The connection of Unix with the same codec and callbacks. Its handlerProtocol, too, calls Packet right behind
OnMessage; the two are joined here, since what Packet does to the state has to be kept. -/
def unix (fd : State.Fd) (cfg : Config σ κ δ) : State.Config Unit σ κ Bytes where
  fd _ := fd
  idleTime := cfg.idleTime
  protocol := ⟨cfg.protocol.unPacket, fun _ data => data⟩
  callBack :=
    { onConnect := cfg.callBack.onConnect
      onMessage := fun user ctx data =>
        let m := cfg.callBack.onMessage user ctx data
        match m.2 with
        | some d =>
            let r := cfg.protocol.packet m.1 d
            (r.1, some r.2)
        | none => (m.1, none)
      onClose := cfg.callBack.onClose }
  grow := cfg.grow

def start (user : σ) : Drained σ κ := ⟨user, [], [], []⟩

variable (cfg : Config σ κ δ) (limit : Nat)

def Silent (wrap : Nat) (x : Conn σ δ) : Prop :=
  let u := cfg.protocol.unPacket x.user wrap x.inBuffer
  u.ctx = none ∧ u.out = [] ∧ u.user = x.user

/-- The connection is not closed, and only readLoop calls Send. Only before the first byte a Read returns none, as the
first one does, into a slice of length 0; UnPacket is silent then. A chunk has at most the given length. The Packet of
a function of Send leaves the state as it is. -/
def Clean (reading : Bool) (x : Conn σ δ) : Op κ δ → Answer → Prop
  | .closeDying, _ | .connectedSet, _ | .onClose, _ => False
  | .connRead _, a => a.err = false → a.data.length ≤ limit ∧ (a.data = [] → x.received = [])
  | .unPacket, a => x.received = [] → Silent cfg a.wrap x
  | .packet true data, _ => (cfg.protocol.packet x.user data).1 = x.user
  | .appendTask _, _ => reading = true
  | _, _ => True

def reads : Thread G → Bool
  | .reader => true
  | .writer | .user _ => false

def Undisturbed (s : System G σ κ δ) : Label G δ → Prop
  | .op i a => match s.prog i with
    | .done _ => True
    | .step o _ => Clean cfg limit (reads i) s.conn o a
  | _ => True

noncomputable def clean : Semantics (Op κ δ) Res (Conn σ δ) where
  Choice _ := Answer
  act o a x := open Classical in if Clean cfg limit true x o a then act cfg o a x else none

structure Apart (x y : Conn σ δ) : Prop extends Beside x y where
  user : y.user = x.user
  connected : y.connected = x.connected
  appended : y.appended = x.appended

theorem Apart.refl (x : Conn σ δ) : Apart x x := ⟨.refl x, rfl, rfl, rfl⟩

theorem Apart.trans {x y z : Conn σ δ} (h : Apart x y) (h' : Apart y z) : Apart x z :=
  ⟨h.toBeside.trans h'.toBeside, h'.user.trans h.user, h'.connected.trans h.connected, h'.appended.trans h.appended⟩

variable {cfg limit} {x y : Conn σ δ}

section Steps

variable {α : Type} {Q : α → Conn σ δ → Prop}

end Steps

/-- Where handlerProtocol has come to, from a given connection on: the state, the unread bytes, and the values returned
by OnMessage that Packet has not been given yet. -/
structure Reached (x y : Conn σ δ) (user : σ) (unread : Bytes) (pending : List δ) : Prop where
  user : y.user = user
  inBuffer : y.inBuffer = .ofList unread
  received : y.received = x.received
  connected : y.connected = x.connected
  appended : y.appended = x.appended
  packed : y.packed ++ pending = y.returned

variable {fd : State.Fd} {user : σ} {unread : Bytes} {pending : List δ}

theorem Reached.apart {z : Conn σ δ} (h : Reached x y user unread pending) (hyz : Apart y z) :
    Reached x z user unread pending := by
  refine ⟨hyz.user.trans h.user, hyz.inBuffer.trans h.inBuffer, hyz.received.trans h.received,
    hyz.connected.trans h.connected, hyz.appended.trans h.appended, ?_⟩
  rw [hyz.packed, hyz.returned]
  exact h.packed

theorem Reached.unPacket (hp : ReadPath.Plain (unix fd cfg).protocol) (h : Reached x y user unread pending) {a : Answer}
    {r : Option κ × Bytes} {z : Conn σ δ} (hact : act cfg .unPacket a y = some (r, z)) {u : State.Unpacked σ κ}
    (hu : (unix fd cfg).protocol.unPacket user unread.length (.ofList unread) = u) :
    r = (u.ctx, u.out) ∧ Reached x z u.user (unread.drop u.consumed) pending := by
  have hunpack : cfg.protocol.unPacket y.user a.wrap y.inBuffer = u := by
    rw [h.user, h.inBuffer, ← hu]
    exact hp.wrap _ _ _ _
  have hcursor : u.cursor = 0 := hu ▸ hp.cursor user unread.length unread
  cases hact
  rw [hunpack, hcursor, h.inBuffer]
  refine ⟨rfl, rfl, RingBuffer.ext rfl (Nat.zero_min _), h.received, h.connected, h.appended, h.packed⟩

theorem Reached.onMessage (h : Reached x y user unread []) {ctx : Option κ} {data : Bytes} {a : Answer}
    {r : Option δ} {z : Conn σ δ} (hact : act cfg (.onMessage ctx data) a y = some (r, z)) :
    r = (cfg.callBack.onMessage user ctx data).2 ∧
      Reached x z (cfg.callBack.onMessage user ctx data).1 unread r.toList := by
  cases hact
  rw [h.user]
  refine ⟨rfl, rfl, h.inBuffer, h.received, h.connected, h.appended, ?_⟩
  have hpacked := h.packed
  rw [List.append_nil] at hpacked
  exact congrArg (· ++ _) hpacked

theorem Reached.packet {data : δ} (h : Reached x y user unread [data]) {a : Answer} {r : Bytes} {z : Conn σ δ}
    (hact : act cfg (.packet false data) a y = some (r, z)) :
    r = (cfg.protocol.packet user data).2 ∧ Reached x z (cfg.protocol.packet user data).1 unread [] := by
  cases hact
  rw [h.user]
  exact ⟨rfl, rfl, h.inBuffer, h.received, h.connected, h.appended, (List.append_nil _).trans h.packed⟩

section Run

variable (cfg limit) (fd : State.Fd) (inject : Bytes → δ) (fuel : Nat) (user : σ)

def queued (buf : Bytes) : Queued δ := (inject buf, false)

/-- The goroutine of readLoop has made of its chunks what Unix makes of them. It has passed the replies to Send in
batches, but for the given bytes. -/
structure Tracks (d : Drained σ κ) (batches : List Bytes) (buf : Bytes) (x : Conn σ δ) : Prop where
  point : x.received.foldlM (absorb (unix fd cfg) fuel) (start user) = some d
  user : x.user = d.user
  inBuffer : x.inBuffer = .ofList d.rest
  sizes : ∀ chunk ∈ x.received, chunk ≠ [] ∧ chunk.length ≤ limit
  connected : x.connected = true
  appended : x.appended = batches.map (queued inject)
  replies : batches.flatten ++ buf = d.replies
  packed : x.packed = x.returned

def Tracked (a : Resume) (x : Conn σ δ) : Prop :=
  a ≠ .returned → ∃ d batches, Tracks cfg limit fd inject fuel user d batches [] x

variable {cfg limit fd inject fuel user} {d : Drained σ κ} {batches : List Bytes} {buf : Bytes}

theorem Tracks.apart (h : Tracks cfg limit fd inject fuel user d batches buf x) (hxy : Apart x y) :
    Tracks cfg limit fd inject fuel user d batches buf y :=
  ⟨hxy.received ▸ h.point, hxy.user.trans h.user, hxy.inBuffer.trans h.inBuffer, hxy.received ▸ h.sizes,
    hxy.connected.trans h.connected, hxy.appended.trans h.appended, h.replies,
    hxy.packed.trans (h.packed.trans hxy.returned.symm)⟩

variable [DecidableEq G] {s t : System G σ κ δ} {l : Label G δ}

variable (cfg limit fd inject fuel user) in
structure Follows (s : System G σ κ δ) : Prop where
  inv : Inv cfg s
  reader : Always (among (clean cfg limit) Apart) (fun _ _ => True) (Tracked cfg limit fd inject fuel user)
    (s.prog .reader) s.conn

theorem Follows.other (h : Follows cfg limit fd inject fuel user s) {i : Thread G} (hi : i ≠ .reader)
    {p : Prog κ δ Resume} :
    Always (among (clean cfg limit) Apart) (fun _ _ => True) (Tracked cfg limit fd inject fuel user)
      ((s.set i p).prog .reader) s.conn := by
  change Always _ _ _ (Function.update s.prog i p .reader) s.conn
  rw [Function.update_of_ne (Ne.symm hi)]
  exact h.reader

end Run

instance [DecidableEq σ] (wrap : Nat) (x : Conn σ δ) : Decidable (Silent cfg wrap x) := by
  unfold Silent
  infer_instance

instance [DecidableEq σ] (reading : Bool) (x : Conn σ δ) (o : Op κ δ) (a : Answer) :
    Decidable (Clean cfg limit reading x o a) := by
  unfold Clean
  split <;> infer_instance

instance [DecidableEq σ] (s : System G σ κ δ) (l : Label G δ) : Decidable (Undisturbed cfg limit s l) := by
  unfold Undisturbed
  split
  · split <;> infer_instance
  · infer_instance

def pairs : Config Unit Unit Bytes :=
  ⟨0, .keeping ReadPath.pairs, ⟨id, fun user _ data => (user, some data), id⟩, fun _ n => n⟩

def reading (data : Bytes) (count : Nat) : List (Label Unit Bytes) :=
  .turn .reader :: .replicate count (.op .reader ⟨9, 0, data, 0, false⟩)

end Reader

end Gev.Connection.Windows
