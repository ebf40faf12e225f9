import Gev.Connection.State
import Gev.Lib.Runs
import Mathlib.Logic.Function.Basic

namespace Gev.Connection.WindowsLoops

open Lib.Atomic Lib.Slices Lib.RingBuffers Lib.Runs State

variable {G σ κ δ : Type}

/-- A codec. UnPacket and Packet are given the connection and may change its state. -/
structure Protocol (σ κ δ : Type) where
  unPacket : σ → Nat → RingBuffer UInt8 → Unpacked σ κ
  packet : σ → δ → σ × Bytes

/-- A codec whose Packet leaves the state as it is. -/
def Protocol.keeping (p : State.Protocol σ κ δ) : Protocol σ κ δ where
  unPacket := p.unPacket
  packet user data := (user, p.packet user data)

structure Config (σ κ δ : Type) where
  idleTime : Int
  protocol : Protocol σ κ δ
  callBack : Handler σ κ δ
  grow : Nat → Nat → Nat

/-- A function that Send has queued: the data, and whether there is a hook to call behind it. -/
abbrev Queued (δ : Type) := δ × Bool

/-- A Connection of server_std.go, with the state of its net.Conn. The last ten fields are ghosts: the chunks that Read
has returned, the bytes that UnPacket has consumed and those that Write has taken, whether a Write has failed, the
functions queued and those started, the slices passed to sendInLoop, what OnMessage has returned, and what Packet has
been given by handlerProtocol and by the functions of Send. -/
structure Conn (σ δ : Type) where
  connected : Bool
  dying : Bool
  connClosed : Bool
  panicked : Bool
  timer : Option Bool
  user : σ
  inBuffer : RingBuffer UInt8
  outBuffer : RingBuffer UInt8
  inBufferLen : Int
  outBufferLen : Int
  activeTime : Int
  taskQueueW : List (Queued δ)
  taskQueueR : List (Queued δ)
  received : List Bytes
  consumed : Bytes
  written : Bytes
  failed : Bool
  appended : List (Queued δ)
  started : List (Queued δ)
  passed : List Bytes
  returned : List δ
  packed : List δ
  repacked : List δ

def newConnection (cfg : Config σ κ δ) (user : σ) (now : Int) : Conn σ δ where
  connected := true
  dying := false
  connClosed := false
  panicked := false
  timer := if cfg.idleTime > 0 then some true else none
  user := user
  inBuffer := .empty
  outBuffer := .empty
  inBufferLen := 0
  outBufferLen := 0
  activeTime := if cfg.idleTime > 0 then now else 0
  taskQueueW := []
  taskQueueR := []
  received := []
  consumed := []
  written := []
  failed := false
  appended := []
  started := []
  passed := []
  returned := []
  packed := []
  repacked := []

/-- The statements that touch what goroutines share. A call of sendInLoop is an operation of its own, for the ghosts,
and a call of Packet tells whether it is one of a function of Send. -/
inductive Op (κ δ : Type)
  | dying
  | connectedGet
  | connectedSet
  | closeDying
  | onClose
  | stopTimer
  | connClose
  | connRead (size : Nat)
  | connWrite (data : Bytes)
  | inWrite (data : Bytes)
  | unPacket
  | onMessage (ctx : Option κ) (data : Bytes)
  | packet (queued : Bool) (data : δ)
  | appendTask (t : Queued δ)
  | swapQueues
  | task (i : Nat)
  | resetQueue
  | sendInLoop (data : Bytes)
  | sendInLoopFinish (data : δ)
  | outIsEmpty
  | outWrite (data : Bytes)
  | outPeekAll
  | outRetrieve (n : Nat)
  | markActive
  | storeInBufferLen
  | storeOutBufferLen
  | diverge

/-- An error of Read or Write is the flag. -/
@[reducible] def Res : Op κ δ → Type
  | .dying | .connectedGet | .outIsEmpty => Bool
  | .connRead _ => Bytes × Bool
  | .connWrite _ => Nat × Bool
  | .unPacket => Option κ × Bytes
  | .onMessage _ _ => Option δ
  | .packet _ _ => Bytes
  | .swapQueues => Nat
  | .task _ => Queued δ
  | .outPeekAll => Bytes × Bytes
  | .diverge => Empty
  | _ => Unit

/-- What the environment decides: where a ring wraps, the time, what a Read returns, how much a Write takes, and whether
they fail. -/
structure Answer where
  wrap : Nat
  now : Int
  data : Bytes
  n : Nat
  err : Bool

section Semantics

variable (cfg : Config σ κ δ)

/-- Read and Write on a closed net.Conn fail. A second close of the channel panics. -/
def act : (o : Op κ δ) → Answer → Conn σ δ → Option (Res o × Conn σ δ)
  | .dying, _, x => some (x.dying, x)
  | .connectedGet, _, x => some (x.connected, x)
  | .connectedSet, _, x => some ((), { x with connected := false })
  | .closeDying, _, x => some ((), if x.dying then { x with panicked := true } else { x with dying := true })
  | .onClose, _, x => some ((), { x with user := cfg.callBack.onClose x.user })
  | .stopTimer, _, x => some ((), { x with timer := x.timer.map fun _ => false })
  | .connClose, _, x => some ((), { x with connClosed := true })
  | .connRead size, a, x =>
      if a.data.length ≤ size ∧ (x.connClosed = true → a.err = true) then
        some ((a.data, a.err),
          if a.err ∨ a.data = [] then x else { x with received := x.received ++ [a.data] })
      else none
  | .connWrite data, a, x =>
      if a.n ≤ data.length ∧ (x.connClosed = true → a.err = true ∧ a.n = 0) then
        some ((a.n, a.err), { x with written := x.written ++ data.take a.n, failed := x.failed || a.err })
      else none
  | .inWrite data, _, x => some ((), { x with inBuffer := x.inBuffer.write data })
  | .unPacket, a, x =>
      let u := cfg.protocol.unPacket x.user a.wrap x.inBuffer
      some ((u.ctx, u.out), { x with
        user := u.user
        inBuffer := x.inBuffer.advance u.consumed u.cursor
        consumed := x.consumed ++ x.inBuffer.data.take u.consumed })
  | .onMessage ctx data, _, x =>
      let r := cfg.callBack.onMessage x.user ctx data
      some (r.2, { x with user := r.1, returned := x.returned ++ r.2.toList })
  | .packet false data, _, x =>
      let r := cfg.protocol.packet x.user data
      some (r.2, { x with user := r.1, packed := x.packed ++ [data] })
  | .packet true data, _, x =>
      let r := cfg.protocol.packet x.user data
      some (r.2, { x with user := r.1, repacked := x.repacked ++ [data] })
  | .appendTask t, _, x => some ((), { x with taskQueueW := x.taskQueueW ++ [t], appended := x.appended ++ [t] })
  | .swapQueues, _, x =>
      some (x.taskQueueW.length, { x with taskQueueW := x.taskQueueR, taskQueueR := x.taskQueueW })
  | .task i, _, x => x.taskQueueR[i]?.map fun t => (t, { x with started := x.started ++ [t] })
  | .resetQueue, _, x => some ((), { x with taskQueueR := [] })
  | .sendInLoop data, _, x => some ((), { x with passed := x.passed ++ [data] })
  | .sendInLoopFinish _, _, x => some ((), x)
  | .outIsEmpty, _, x => some (x.outBuffer.isEmpty, x)
  | .outWrite data, _, x => some ((), { x with outBuffer := x.outBuffer.write data })
  | .outPeekAll, a, x => some (x.outBuffer.peekAll a.wrap, x)
  | .outRetrieve n, _, x => some ((), { x with outBuffer := x.outBuffer.retrieve n })
  | .markActive, a, x => some ((), { x with activeTime := a.now })
  | .storeInBufferLen, _, x => some ((), { x with inBufferLen := x.inBuffer.length })
  | .storeOutBufferLen, _, x => some ((), { x with outBufferLen := x.outBuffer.length })
  | .diverge, _, _ => none

def semantics : Semantics (Op κ δ) Res (Conn σ δ) := ⟨fun _ => Answer, act cfg⟩

end Semantics

abbrev Prog (κ δ α : Type) := Program (Op κ δ) Res α

def call (o : Op κ δ) : Prog κ δ (Res o) := perform o

/-- What a goroutine does when it has come to the end of its code: the next iteration of readLoop, with the length and
the capacity of buf, or of writeLoop, or nothing. -/
inductive Resume
  | read (len cap : Nat)
  | write
  | returned
  deriving DecidableEq

section Code

variable (cfg : Config σ κ δ) (inject : Bytes → δ)

def close : Prog κ δ Unit := do
  let connected ← call .connectedGet
  if connected = true then
    call .closeDying
    call .connectedSet
    call .onClose
    call .stopTimer
    call .connClose

/-- The result is false for ErrConnectionClosed. -/
def send (data : δ) (finish : Bool) : Prog κ δ Bool := do
  let connected ← call .connectedGet
  if connected = false then return false
  else
    call (.appendTask (data, finish))
    return true

/-- The capacity of a slice that is appended to until it has the given length. -/
def grownCap (cap len : Nat) : Nat := if len ≤ cap then cap else cfg.grow cap len

/-- The loop of handlerProtocol, with the contents and the capacity of tmpBuffer. -/
def handlerProtocol : Nat → Bytes → Nat → Prog κ δ (Bytes × Nat)
  | 0, _, _ => do
      let r ← call .diverge
      nomatch r
  | fuel + 1, tmpBuffer, cap => do
      let (ctx, receivedData) ← call .unPacket
      if ctx.isSome ∨ receivedData ≠ [] then
        let sendData ← call (.onMessage ctx receivedData)
        match sendData with
        | some d =>
            let packed ← call (.packet false d)
            handlerProtocol fuel (tmpBuffer ++ packed) (grownCap cfg cap (tmpBuffer ++ packed).length)
        | none => handlerProtocol fuel tmpBuffer cap
      else return (tmpBuffer, cap)

def readEnd (cap : Nat) : Prog κ δ Resume := do
  if cfg.idleTime > 0 then call .markActive
  call .storeInBufferLen
  return .read cap cap

/-- The part of readLoop behind a Read that has not failed. -/
def readRest (fuel : Nat) (cap : Nat) (data : Bytes) : Prog κ δ Resume := do
  call (.inWrite data)
  let (buf, cap) ← handlerProtocol cfg fuel [] cap
  if buf.length ≠ 0 then
    let _ ← send (inject buf) false
  readEnd cfg cap

/-- An iteration of readLoop. -/
def readLoop (fuel len cap : Nat) : Prog κ δ Resume := do
  let dying ← call .dying
  if dying = true then return .returned
  else
    let (data, err) ← call (.connRead len)
    if err = true then
      close
      return .returned
    else readRest cfg inject fuel cap data

/-- The result says whether the connection was closed. -/
def sendInLoop (data : Bytes) : Prog κ δ Bool := do
  call (.sendInLoop data)
  let empty ← call .outIsEmpty
  if empty = false then
    call (.outWrite data)
    return false
  else
    let (n, err) ← call (.connWrite data)
    if err = true then
      close
      return true
    else
      if n = 0 then call (.outWrite data)
      else if n < data.length then call (.outWrite (data.drop n))
      return false

/-- The function that Send queues. -/
def runTask (t : Queued δ) : Prog κ δ Unit := do
  let connected ← call .connectedGet
  if connected = true then
    let packed ← call (.packet true t.1)
    let _ ← sendInLoop packed
    if t.2 then call (.sendInLoopFinish t.1)

/-- The loop of doPendingFunc over the indices from i on, of which there are the given number. -/
def runTasks (i : Nat) : Nat → Prog κ δ Unit
  | 0 => return ()
  | rest + 1 => do
      let t ← call (.task i)
      runTask t
      runTasks (i + 1) rest

def doPendingFunc : Prog κ δ Unit := do
  let length ← call .swapQueues
  runTasks 0 length
  call .resetQueue

def writeEnd : Prog κ δ Resume := do
  if cfg.idleTime > 0 then call .markActive
  call .storeOutBufferLen
  return .write

/-- The part of writeLoop behind doPendingFunc. -/
def flush : Prog κ δ Resume := do
  let empty ← call .outIsEmpty
  if empty = true then return .write
  else
    let (first, last) ← call .outPeekAll
    let (n, err) ← call (.connWrite first)
    if err = true then
      close
      return .returned
    else
      call (.outRetrieve n)
      if n = first.length ∧ 0 < last.length then
        let (n, err) ← call (.connWrite last)
        if err = true then
          close
          return .returned
        else
          call (.outRetrieve n)
          writeEnd cfg
      else writeEnd cfg

/-- An iteration of writeLoop. -/
def writeLoop : Prog κ δ Resume := do
  let dying ← call .dying
  if dying = true then return .returned
  else
    doPendingFunc
    flush cfg

end Code

section System

/-- The goroutines of readLoop and writeLoop, and any number of others that call Send and Close. -/
inductive Thread (G : Type)
  | reader
  | writer
  | user (g : G)
  deriving DecidableEq

structure System (G σ κ δ : Type) where
  conn : Conn σ δ
  prog : Thread G → Prog κ δ Resume

inductive Label (G δ : Type)
  | op (i : Thread G) (a : Answer)
  | turn (i : Thread G)
  | send (g : G) (data : δ) (finish : Bool)
  | close (g : G)

def init (cfg : Config σ κ δ) (user : σ) (now : Int) : System G σ κ δ where
  conn := newConnection cfg user now
  prog
    -- make([]byte, 0, 66635)
    | .reader => .done (.read 0 66635)
    | .writer => .done .write
    | .user _ => .done .returned

variable (cfg : Config σ κ δ) (inject : Bytes → δ) (fuel : Nat) [DecidableEq G]

def System.set (s : System G σ κ δ) (i : Thread G) (p : Prog κ δ Resume) : System G σ κ δ :=
  { s with prog := Function.update s.prog i p }

/-- Closing the connection is also what the idle timer does. A panic ends the process. -/
def step (s : System G σ κ δ) (l : Label G δ) : Option (System G σ κ δ) :=
  if s.conn.panicked then none
  else match l with
    | .op i a => match s.prog i with
      | .done _ => none
      | .step o k => (act cfg o a s.conn).map fun r => { s.set i (k r.1) with conn := r.2 }
    | .turn i => match i, s.prog i with
      | .reader, .done (.read len cap) => some (s.set i (readLoop cfg inject fuel len cap))
      | .writer, .done .write => some (s.set i (writeLoop cfg))
      | _, _ => none
    | .send g data finish => match s.prog (.user g) with
      | .done _ => some (s.set (.user g) (do let _ ← send data finish; return .returned))
      | _ => none
    | .close g => match s.prog (.user g) with
      | .done _ => some (s.set (.user g) (do close; return .returned))
      | _ => none

end System

end Gev.Connection.WindowsLoops
