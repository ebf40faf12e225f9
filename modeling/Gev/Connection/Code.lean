import Gev.Connection.State

namespace Gev.Connection.Code

open Lib.Atomic Lib.Slices State

variable {C σ κ δ : Type}

abbrev Prog (C κ δ α : Type) := Program (Op C κ δ) Res α

def call (o : Op C κ δ) : Prog C κ δ (Res o) := perform o

theorem call_bind {α : Type} (o : Op C κ δ) (f : Res o → Prog C κ δ α) :
    (call o >>= f) = .step o f := rfl

section Poller

def EventRead : UInt32 := 0x1

def EventWrite : UInt32 := 0x2

def EventErr : UInt32 := 0x80

-- unix.EPOLLIN | unix.EPOLLPRI and unix.EPOLLOUT
def readEvent : UInt32 := 0x1 ||| 0x2

def writeEvent : UInt32 := 0x4

def addRead (c : C) (fd : Fd) : Prog C κ δ Bool := call (.epollCtl c .add fd readEvent)

def del (c : C) (fd : Fd) : Prog C κ δ Bool := call (.epollCtl c .del fd 0)

def enableReadWrite (c : C) (fd : Fd) : Prog C κ δ Bool :=
  call (.epollCtl c .mod fd (readEvent ||| writeEvent))

def enableRead (c : C) (fd : Fd) : Prog C κ δ Bool := call (.epollCtl c .mod fd readEvent)

end Poller

section EventLoop

def queueInLoop (t : Task C δ) : Prog C κ δ Unit := do
  call (.appendTask t)
  let swapped ← call .compareAndSwap
  if swapped = true then call .wake

def deleteFdInLoop (c : C) (fd : Fd) : Prog C κ δ Unit := do
  let _ ← del c fd
  call (.delete fd)
  call (.addCount (-1))

/-- The error of AddRead is returned as false. -/
def addSocketAndEnableRead (c : C) (fd : Fd) : Prog C κ δ Bool := do
  call (.insert fd c)
  let ok ← addRead c fd
  if ok then
    call (.addCount 1)
    return true
  else
    call (.delete fd)
    return false

end EventLoop

variable (cfg : Config C σ κ δ)

def handleClose (c : C) (fd : Fd) : Prog C κ δ Unit := do
  let connected ← call (.connectedGet c)
  if connected = true then
    call (.connectedSet c false)
    deleteFdInLoop c fd
    call (.onClose c)
    call (.unixClose c fd)
    call (.putInPool c .inBuffer)
    call (.putInPool c .outBuffer)
    call (.stopTimer c)

def sendInLoopRest (c : C) : Prog C κ δ Bool := do
  let empty ← call (.isEmpty c .outBuffer)
  if empty = false then let _ ← enableReadWrite c (cfg.fd c)
  return false

/-- The result says whether the connection was closed. -/
def sendInLoop (c : C) (data : Bytes) : Prog C κ δ Bool := do
  call (.sendInLoop c data)
  let empty ← call (.isEmpty c .outBuffer)
  if empty = false then
    call (.write c .outBuffer data)
    return false
  else
    let (n, err) ← call (.unixWrite c (cfg.fd c) data)
    if err ≠ none ∧ err ≠ some .EAGAIN then
      handleClose c (cfg.fd c)
      return true
    else
      if n ≤ 0 then call (.write c .outBuffer data)
      else if n < data.length then call (.write c .outBuffer (data.drop n.toNat))
      sendInLoopRest cfg c

def handleWriteRest (c : C) (fd : Fd) : Prog C κ δ Bool := do
  let empty ← call (.isEmpty c .outBuffer)
  if empty = true then let _ ← enableRead c fd
  return false

def handleWrite (c : C) (fd : Fd) : Prog C κ δ Bool := do
  let (first, last) ← call (.peekAll c .outBuffer)
  let (n, err) ← call (.unixWrite c (cfg.fd c) first)
  if err ≠ none then
    if err = some .EAGAIN then return false
    else
      handleClose c fd
      return true
  else
    call (.retrieve c .outBuffer n.toNat)
    if n = first.length ∧ 0 < last.length then
      let (n, err) ← call (.unixWrite c (cfg.fd c) last)
      if err ≠ none then
        if err = some .EAGAIN then return false
        else
          handleClose c fd
          return true
      else
        call (.retrieve c .outBuffer n.toNat)
        handleWriteRest c fd
    else handleWriteRest c fd

/-- The loop of handlerProtocol, with the reply slice as its accumulator. The
fuel bounds the iterations; a run that would need more does not end. -/
def handlerProtocol (c : C) (b : Buffer) : Nat → Slice → Prog C κ δ Slice
  | 0, _ => do
      let r ← call .diverge
      nomatch r
  | fuel + 1, tmpBuffer => do
      let (ctx, receivedData) ← call (.unPacket c b)
      if ctx.isSome ∨ receivedData ≠ [] then
        let sendData ← call (.onMessage c ctx receivedData)
        match sendData with
        | some d =>
            let packed ← call (.packet c d)
            let tmpBuffer ← call (.append tmpBuffer packed)
            handlerProtocol c b fuel tmpBuffer
        | none => handlerProtocol c b fuel tmpBuffer
      else return tmpBuffer

/-- The part of handleRead that turns n bytes at the front of the packet array
into replies. -/
def parsePacket (fuel : Nat) (c : C) (buf : Slice) (n : Nat) : Prog C κ δ Slice := do
  let empty ← call (.isEmpty c .inBuffer)
  if empty = true then
    call (.withData c (reslice buf 0 n))
    let replies ← handlerProtocol c .buffer fuel (reslice buf n n)
    let empty ← call (.isEmpty c .buffer)
    if empty = false then
      let (first, _) ← call (.peekAll c .buffer)
      call (.write c .inBuffer first)
      return replies
    else return replies
  else
    let data ← call (.contents (reslice buf 0 n))
    call (.write c .inBuffer data)
    handlerProtocol c .inBuffer fuel (reslice buf 0 0)

def handleRead (fuel : Nat) (c : C) (fd : Fd) : Prog C κ δ Bool := do
  let buf ← call .packetBuf
  let (n, err) ← call (.unixRead c (cfg.fd c) buf)
  if n = 0 ∨ err ≠ none then
    if err ≠ some .EAGAIN then
      handleClose c fd
      return true
    else return false
  else
    let replies ← parsePacket fuel c buf n.toNat
    if replies.len ≠ 0 then
      let data ← call (.contents replies)
      sendInLoop cfg c data
    else return false

def resetIfEmpty (c : C) (b : Buffer) : Prog C κ δ Unit := do
  let empty ← call (.isEmpty c b)
  if empty = true then call (.reset c b)

def writeBranch (c : C) (fd : Fd) : Prog C κ δ Bool := do
  let closed ← handleWrite cfg c fd
  if closed = true then return true
  else
    resetIfEmpty c .outBuffer
    return false

def readBranch (fuel : Nat) (c : C) (fd : Fd) : Prog C κ δ Bool := do
  let closed ← handleRead cfg fuel c fd
  if closed = true then return true
  else
    resetIfEmpty c .inBuffer
    return false

/-- The branches of HandleEvent by backlog and event bits. -/
def handleReady (fuel : Nat) (c : C) (fd : Fd) (events : UInt32) : Prog C κ δ Bool := do
  let empty ← call (.isEmpty c .outBuffer)
  if empty = false then
    if events &&& EventWrite ≠ 0 then writeBranch cfg c fd
    else return false
  else if events &&& EventRead ≠ 0 then readBranch cfg fuel c fd
  else return false

def handleEvent (fuel : Nat) (c : C) (fd : Fd) (events : UInt32) : Prog C κ δ Unit := do
  if cfg.idleTime > 0 then call (.markActive c)
  if events &&& EventErr ≠ 0 then handleClose c fd
  else
    let closed ← handleReady cfg fuel c fd events
    if closed = false then call (.swapLengths c)

/-- handlerEvent for a socket; descriptor -1 is the machine's own business. -/
def handlerEvent (fuel : Nat) (fd : Fd) (events : UInt32) : Prog C κ δ Unit := do
  let s ← call (.lookup fd)
  match s with
  | some c => handleEvent cfg fuel c fd events
  | none => return ()

/-- Connection.Close, as called by the loop goroutine. -/
def close (c : C) : Prog C κ δ Bool := do
  let connected ← call (.connectedGet c)
  if connected = true then
    queueInLoop (.close c)
    return true
  else return false

def closeAll : List C → Prog C κ δ Unit
  | [] => return ()
  | c :: cs => do
      let _ ← close c
      closeAll cs

/-- What the queued functions do: the ones of handleNewConnection, Send, Close
and Stop. -/
def taskBody : Task C δ → Prog C κ δ Unit
  | .register c => do
      call (.onConnect c)
      let _ ← addSocketAndEnableRead c (cfg.fd c)
  | .send c data finish => do
      let connected ← call (.connectedGet c)
      if connected = true then
        let packed ← call (.packet c data)
        let _ ← sendInLoop cfg c packed
        if finish then call (.sendInLoopFinish c)
  | .close c => handleClose c (cfg.fd c)
  | .closing => do
      let sockets ← call .range
      closeAll sockets
      call .dropSockets

section New

/-- NewConnection. The pool hands out empty buffers. -/
def newConnection (user : σ) (now : Int) : Conn σ κ where
  connected := true
  inBuffer := .empty
  outBuffer := .empty
  buffer := ⟨⟨0, 0, 0, 0⟩, 0, 0⟩
  inBufferLen := 0
  outBufferLen := 0
  activeTime := if cfg.idleTime > 0 then now else 0
  timer := cfg.idleTime > 0
  user := user
  accepted := []
  history := []

/-- The loop goroutine's share of eventloop.New. -/
def newLocal (packetSize : Nat) (conns : C → Conn σ κ) : Local C σ κ δ where
  conns := conns
  sockets := some ∅
  interest := fun _ => none
  heap := [List.replicate packetSize 0]
  packet := ⟨0, 0, packetSize, packetSize⟩
  counted := 0
  posted := []

/-- DefaultProtocol takes all there is. A wrapped ring is copied together in the user buffer. -/
def defaultProtocol : Protocol σ κ Bytes where
  unPacket user wrap buffer :=
    let (s, e) := buffer.peekAll wrap
    ⟨user, buffer.length, 0, none, if 0 < e.length then s ++ e else s⟩
  packet _ data := data

end New

end Gev.Connection.Code
