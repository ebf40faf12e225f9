import Gev.Lib.Atomic
import Gev.Lib.Slices
import Gev.Lib.RingBuffers
import Mathlib.Data.List.AList
import Mathlib.Logic.Function.Basic

namespace Gev.Connection.State

open Lib.Atomic Lib.Slices Lib.RingBuffers

abbrev Fd := Nat

abbrev Bytes := List UInt8

inductive Errno
  | EAGAIN
  | other
  deriving DecidableEq

/-- What UnPacket leaves behind: the connection's own state, how many unread
bytes were consumed, where the virtual cursor stands behind them, the result. -/
structure Unpacked (σ κ : Type) where
  user : σ
  consumed : Nat
  cursor : Nat
  ctx : Option κ
  out : Bytes

/-- A codec. The number is the point at which the ring wraps, which a codec
sees through PeekAll. The state σ is the connection's key-value context and
whatever else codec and callbacks keep there. -/
structure Protocol (σ κ δ : Type) where
  unPacket : σ → Nat → RingBuffer UInt8 → Unpacked σ κ
  packet : σ → δ → Bytes

structure Handler (σ κ δ : Type) where
  onConnect : σ → σ
  onMessage : σ → Option κ → Bytes → σ × Option δ
  onClose : σ → σ

/-- What stays fixed while a server runs. -/
structure Config (C σ κ δ : Type) where
  fd : C → Fd
  idleTime : Int
  protocol : Protocol σ κ δ
  callBack : Handler σ κ δ
  grow : Nat → Nat → Nat

inductive Buffer
  | inBuffer
  | outBuffer
  | buffer
  deriving DecidableEq

inductive EpollOp
  | add
  | mod
  | del
  deriving DecidableEq

inductive Syscall
  | read
  | write
  | shutdown
  | epollCtl (op : EpollOp) (ok : Bool)
  | close
  deriving DecidableEq

/-- What a connection's history records. -/
inductive Act (κ : Type)
  | onConnect
  | onMessage (ctx : Option κ) (data : Bytes) (connected : Bool)
  | onClose
  | syscall (call : Syscall) (fd : Fd)
  | touch (b : Buffer)
  | put (b : Buffer)
  | sendInLoop (data : Bytes)
  | sendInLoopFinish
  deriving DecidableEq

/-- The buffer filled by WithData: a window of the packet array, of which a
first part has been consumed. -/
structure View where
  slice : Slice
  start : Nat
  cursor : Nat

/-- A Connection. The last two fields are ghosts: the bytes the kernel has
accepted, and the history. -/
structure Conn (σ κ : Type) where
  connected : Bool
  inBuffer : RingBuffer UInt8
  outBuffer : RingBuffer UInt8
  buffer : View
  inBufferLen : Nat
  outBufferLen : Nat
  activeTime : Int
  timer : Bool
  user : σ
  accepted : Bytes
  history : List (Act κ)

inductive Task (C δ : Type)
  | register (c : C)
  | send (c : C) (data : δ) (finish : Bool)
  | close (c : C)
  | closing
  deriving DecidableEq

/-- What only the goroutine of one event loop works on. The last two fields
are ghosts: the sum of what it has added to ConnCunt, and the tasks it has
queued itself. -/
structure Local (C σ κ δ : Type) where
  conns : C → Conn σ κ
  sockets : Option (AList (fun _ : Fd => C))
  interest : Fd → Option UInt32
  heap : Heap UInt8
  packet : Slice
  counted : Int
  posted : List (Task C δ)

/-- The atomic operations of the loop goroutine. -/
inductive Op (C κ δ : Type)
  | connectedGet (c : C)
  | connectedSet (c : C) (b : Bool)
  | markActive (c : C)
  | stopTimer (c : C)
  | isEmpty (c : C) (b : Buffer)
  | peekAll (c : C) (b : Buffer)
  | write (c : C) (b : Buffer) (data : Bytes)
  | retrieve (c : C) (b : Buffer) (n : Nat)
  | reset (c : C) (b : Buffer)
  | withData (c : C) (s : Slice)
  | swapLengths (c : C)
  | putInPool (c : C) (b : Buffer)
  | packetBuf
  | append (s : Slice) (data : Bytes)
  | contents (s : Slice)
  | unixRead (c : C) (fd : Fd) (s : Slice)
  | unixWrite (c : C) (fd : Fd) (data : Bytes)
  | unixClose (c : C) (fd : Fd)
  | epollCtl (c : C) (op : EpollOp) (fd : Fd) (events : UInt32)
  | lookup (fd : Fd)
  | insert (fd : Fd) (c : C)
  | delete (fd : Fd)
  | range
  | dropSockets
  | addCount (n : Int)
  | unPacket (c : C) (b : Buffer)
  | packet (c : C) (data : δ)
  | onConnect (c : C)
  | onMessage (c : C) (ctx : Option κ) (data : Bytes)
  | onClose (c : C)
  | sendInLoop (c : C) (data : Bytes)
  | sendInLoopFinish (c : C)
  | appendTask (t : Task C δ)
  | compareAndSwap
  | wake
  | diverge
  deriving DecidableEq

abbrev Res {C κ δ : Type} : Op C κ δ → Type
  | .connectedGet _ | .isEmpty _ _ | .compareAndSwap | .epollCtl _ _ _ _ => Bool
  | .peekAll _ _ => Bytes × Bytes
  | .packetBuf | .append _ _ => Slice
  | .contents _ | .packet _ _ => Bytes
  | .unixRead _ _ _ | .unixWrite _ _ _ => Int × Option Errno
  | .lookup _ => Option C
  | .range => List C
  | .unPacket _ _ => Option κ × Bytes
  | .onMessage _ _ _ => Option δ
  | .diverge => Empty
  | _ => Unit

inductive ReadResult
  | bytes (data : Bytes)
  | error (e : Errno)

inductive WriteResult
  | count (n : Nat)
  | error (e : Errno)

/-- What the environment decides: results of system calls, where a ring
wraps, the order in which a map is ranged over, the clock. -/
abbrev Choice {C κ δ : Type} : Op C κ δ → Type
  | .markActive _ => Int
  | .peekAll _ _ | .unPacket _ _ => Nat
  | .unixRead _ _ _ => ReadResult
  | .unixWrite _ _ _ => WriteResult
  | .epollCtl _ _ _ _ | .compareAndSwap => Bool
  | .range => List C
  | _ => Unit

/-- One answer for every kind of operation. -/
structure Answers (C : Type) where
  now : Int
  wrap : Nat
  read : ReadResult
  write : WriteResult
  ok : Bool
  order : List C

def Answers.choice {C κ δ : Type} (a : Answers C) : (o : Op C κ δ) → Choice o
  | .markActive _ => a.now
  | .peekAll _ _ | .unPacket _ _ => a.wrap
  | .unixRead _ _ _ => a.read
  | .unixWrite _ _ _ => a.write
  | .epollCtl _ _ _ _ | .compareAndSwap => a.ok
  | .range => a.order
  | .connectedGet _ | .connectedSet _ _ | .stopTimer _ | .isEmpty _ _ | .write _ _ _ | .retrieve _ _ _
  | .reset _ _ | .withData _ _ | .swapLengths _ | .putInPool _ _ | .packetBuf | .append _ _ | .contents _
  | .unixClose _ _ | .lookup _ | .insert _ _ | .delete _ | .dropSockets | .addCount _ | .packet _ _
  | .onConnect _ | .onMessage _ _ _ | .onClose _ | .sendInLoop _ _ | .sendInLoopFinish _ | .appendTask _
  | .wake | .diverge => ()

section Semantics

variable {C σ κ δ : Type} [DecidableEq C]

def Local.modify (L : Local C σ κ δ) (c : C) (f : Conn σ κ → Conn σ κ) : Local C σ κ δ :=
  { L with conns := Function.update L.conns c (f (L.conns c)) }

def Conn.note (x : Conn σ κ) (a : Act κ) : Conn σ κ := { x with history := x.history ++ [a] }

def View.ring (v : View) (h : Heap UInt8) : RingBuffer UInt8 :=
  (RingBuffer.ofList (contents h v.slice)).advance v.start v.cursor

def Local.ring (L : Local C σ κ δ) (c : C) : Buffer → RingBuffer UInt8
  | .inBuffer => (L.conns c).inBuffer
  | .outBuffer => (L.conns c).outBuffer
  | .buffer => (L.conns c).buffer.ring L.heap

/-- Access to a pooled buffer is recorded; the packet window is not pooled. -/
def Conn.touch (x : Conn σ κ) (b : Buffer) : Conn σ κ :=
  { x with history := x.history ++ if b = .buffer then [] else [.touch b] }

def Conn.setRing (x : Conn σ κ) (b : Buffer) (r : RingBuffer UInt8) : Conn σ κ :=
  { x with
    inBuffer := if b = .inBuffer then r else x.inBuffer
    outBuffer := if b = .outBuffer then r else x.outBuffer }

def Conn.consume (x : Conn σ κ) (b : Buffer) (n k : Nat) : Conn σ κ :=
  { x with
    inBuffer := if b = .inBuffer then x.inBuffer.advance n k else x.inBuffer
    outBuffer := if b = .outBuffer then x.outBuffer.advance n k else x.outBuffer
    buffer := if b = .buffer then ⟨x.buffer.slice, x.buffer.start + n, k⟩ else x.buffer }

def values (m : Option (AList (fun _ : Fd => C))) : List C := match m with
  | none => []
  | some m => m.entries.map Sigma.snd

def setInterest (L : Local C σ κ δ) (fd : Fd) (events : Option UInt32) : Local C σ κ δ :=
  { L with interest := Function.update L.interest fd events }

/-- The kernel refuses to add a descriptor twice and to change or remove one
that is not there. -/
def epollCtl (L : Local C σ κ δ) (fd : Fd) (events : UInt32) : EpollOp → Option (Local C σ κ δ)
  | .add => if L.interest fd = none then some (setInterest L fd (some events)) else none
  | .mod => if L.interest fd = none then none else some (setInterest L fd (some events))
  | .del => if L.interest fd = none then none else some (setInterest L fd none)

variable (cfg : Config C σ κ δ)

def act : (o : Op C κ δ) → Choice o → Local C σ κ δ → Option (Res o × Local C σ κ δ)
  | .connectedGet c, _, L => some ((L.conns c).connected, L)
  | .connectedSet c b, _, L => some ((), L.modify c fun x => { x with connected := b })
  | .markActive c, now, L => some ((), L.modify c fun x => { x with activeTime := now })
  | .stopTimer c, _, L => some ((), L.modify c fun x => { x with timer := false })
  | .isEmpty c b, _, L => some ((L.ring c b).isEmpty, L.modify c (·.touch b))
  | .peekAll c b, wrap, L =>
      -- WithData leaves the packet window in one piece.
      let wrap := if b = .buffer then (L.ring c b).length else wrap
      some ((L.ring c b).peekAll wrap, L.modify c (·.touch b))
  | .write c b data, _, L =>
      some ((), L.modify c fun x => (x.touch b).setRing b ((L.ring c b).write data))
  | .retrieve c b n, _, L =>
      some ((), L.modify c fun x => (x.touch b).setRing b ((L.ring c b).retrieve n))
  | .reset c b, _, L => some ((), L.modify c fun x => (x.touch b).setRing b .empty)
  | .withData c s, _, L => some ((), L.modify c fun x => { x with buffer := ⟨s, 0, 0⟩ })
  | .swapLengths c, _, L => some ((), L.modify c fun x =>
      { (x.touch .inBuffer).touch .outBuffer with
        inBufferLen := x.inBuffer.length, outBufferLen := x.outBuffer.length })
  | .putInPool c b, _, L => some ((), L.modify c (·.note (.put b)))
  | .packetBuf, _, L => some (L.packet, L)
  | .append s data, _, L =>
      some ((Lib.Slices.append cfg.grow 0 L.heap s data).1,
        { L with heap := (Lib.Slices.append cfg.grow 0 L.heap s data).2 })
  | .contents s, _, L => some (contents L.heap s, L)
  | .unixRead c fd s, result, L =>
      let L := L.modify c (·.note (.syscall .read fd))
      match result with
      | .bytes data =>
          if data.length ≤ s.len then some ((data.length, none), { L with heap := fill L.heap s data })
          else none
      | .error e => some ((-1, some e), L)
  | .unixWrite c fd data, result, L =>
      let L := L.modify c (·.note (.syscall .write fd))
      match result with
      | .count n =>
          if n ≤ data.length then
            some ((n, none), L.modify c fun x => { x with accepted := x.accepted ++ data.take n })
          else none
      | .error e => some ((-1, some e), L)
  | .unixClose c fd, _, L =>
      some ((), setInterest (L.modify c (·.note (.syscall .close fd))) fd none)
  | .epollCtl c op fd events, (ok : Bool), L =>
      let L := L.modify c (·.note (.syscall (.epollCtl op ok) fd))
      if ok then (epollCtl L fd events op).map fun L => (true, L) else some (false, L)
  | .lookup fd, _, L => some (L.sockets.bind (·.lookup fd), L)
  | .insert fd c, _, L =>
      -- Assignment to an entry of a nil map panics.
      L.sockets.map fun m => ((), { L with sockets := some (m.insert fd c) })
  | .delete fd, _, L => some ((), { L with sockets := L.sockets.map (·.erase fd) })
  | .range, order, L => if (order : List C).isPerm (values L.sockets) then some (order, L) else none
  | .dropSockets, _, L => some ((), { L with sockets := none })
  | .addCount n, _, L => some ((), { L with counted := L.counted + n })
  | .unPacket c b, wrap, L =>
      let wrap := if b = .buffer then (L.ring c b).length else wrap
      let u := cfg.protocol.unPacket (L.conns c).user wrap (L.ring c b)
      some ((u.ctx, u.out), L.modify c fun x =>
        { (x.touch b).consume b u.consumed u.cursor with user := u.user })
  | .packet c data, _, L => some (cfg.protocol.packet (L.conns c).user data, L)
  | .onConnect c, _, L => some ((), L.modify c fun x =>
      { x.note .onConnect with user := cfg.callBack.onConnect x.user })
  | .onMessage c ctx data, _, L =>
      let r := cfg.callBack.onMessage (L.conns c).user ctx data
      some (r.2, L.modify c fun x => { x.note (.onMessage ctx data x.connected) with user := r.1 })
  | .onClose c, _, L => some ((), L.modify c fun x =>
      { x.note .onClose with user := cfg.callBack.onClose x.user })
  | .sendInLoop c data, _, L => some ((), L.modify c (·.note (.sendInLoop data)))
  | .sendInLoopFinish c, _, L => some ((), L.modify c (·.note .sendInLoopFinish))
  | .appendTask t, _, L => some ((), { L with posted := L.posted ++ [t] })
  | .compareAndSwap, swapped, L => some (swapped, L)
  | .wake, _, L => some ((), L)
  | .diverge, _, _ => none

/-- A call of epoll_ctl is noted, and the interest changes if it succeeds. -/
theorem act_epollCtl {c : C} {op : EpollOp} {fd : Fd} {events : UInt32} {ok r : Bool} {L L' : Local C σ κ δ}
    (h : act cfg (.epollCtl c op fd events) ok L = some (r, L')) :
    (ok = false ∧ r = false ∧ L' = L.modify c (·.note (.syscall (.epollCtl op false) fd))) ∨
    (ok = true ∧ r = true ∧ L' = setInterest (L.modify c (·.note (.syscall (.epollCtl op true) fd))) fd
      (if op = .del then none else some events)) := by
  cases ok with
  | false =>
      cases h
      exact .inl ⟨rfl, rfl, rfl⟩
  | true =>
      obtain ⟨L₁, hctl, hr⟩ := Option.map_eq_some_iff.mp h
      cases hr
      refine .inr ⟨rfl, rfl, ?_⟩
      cases op <;> simp only [epollCtl] at hctl <;> split at hctl <;> cases hctl <;> rfl

/-- A read fills the slice as far as there are bytes, or fails. -/
theorem act_unixRead {c : C} {fd : Fd} {s : Slice} {result : ReadResult} {r : Int × Option Errno}
    {L L' : Local C σ κ δ} (h : act cfg (.unixRead c fd s) result L = some (r, L')) :
    (∃ data, result = .bytes data ∧ data.length ≤ s.len ∧ r = ((data.length : Int), none) ∧
      L' = { L.modify c (·.note (.syscall .read fd)) with heap := fill L.heap s data }) ∨
    ∃ e, result = .error e ∧ r = (-1, some e) ∧ L' = L.modify c (·.note (.syscall .read fd)) := by
  cases result with
  | bytes data =>
      simp only [act] at h
      split at h <;> cases h
      next hfit => exact .inl ⟨data, rfl, hfit, rfl, rfl⟩
  | error e =>
      cases h
      exact .inr ⟨e, rfl, rfl, rfl⟩

/-- A write takes a first part of the data, or fails. -/
theorem act_unixWrite {c : C} {fd : Fd} {data : Bytes} {result : WriteResult} {r : Int × Option Errno}
    {L L' : Local C σ κ δ} (h : act cfg (.unixWrite c fd data) result L = some (r, L')) :
    (∃ n, result = .count n ∧ n ≤ data.length ∧ r = ((n : Int), none) ∧
      L' = L.modify c fun x => { x.note (.syscall .write fd) with accepted := x.accepted ++ data.take n }) ∨
    ∃ e, result = .error e ∧ r = (-1, some e) ∧ L' = L.modify c (·.note (.syscall .write fd)) := by
  cases result with
  | count n =>
      simp only [act] at h
      split at h <;> cases h
      next hfit =>
        refine .inl ⟨n, rfl, hfit, rfl, ?_⟩
        simp only [Local.modify, Function.update_self, Function.update_idem]
        rfl
  | error e =>
      cases h
      exact .inr ⟨e, rfl, rfl, rfl⟩

theorem act_range {order r : List C} {L L' : Local C σ κ δ} (h : act cfg .range order L = some (r, L')) :
    order.isPerm (values L.sockets) = true ∧ order = r ∧ L = L' := by
  simp only [act] at h
  split at h <;> cases h
  next hperm => exact ⟨hperm, rfl, rfl⟩

abbrev semantics : Semantics (Op C κ δ) Res (Local C σ κ δ) := ⟨Choice, act cfg⟩

end Semantics

end Gev.Connection.State
