import Gev.Connection.Reading

namespace Gev.Connection.Additions

open Lib.Atomic Lib.Slices State Code Reading

variable {C σ κ δ α β : Type}

/-- The operations of all code but that of a registration: nothing is added to the count, and no registration is
queued. -/
def Plain : Op C κ δ → Prop
  | .addCount n => n ≠ 1
  | .appendTask (.register _) => False
  | _ => True

section Programs

variable (cfg : Config C σ κ δ) (c : C) (fd : Fd)

theorem plain_handleClose : (handleClose c fd : Prog C κ δ Unit).Uses Plain := by
  refine ⟨trivial, ?_⟩
  intro connected
  cases connected with
  | true =>
      have hcount : Plain (.addCount (-1) : Op C κ δ) := show (-1 : Int) ≠ 1 by decide
      exact ⟨trivial, fun _ => ⟨trivial, fun _ => ⟨trivial, fun _ => ⟨hcount, fun _ => ⟨trivial, fun _ =>
        ⟨trivial, fun _ => ⟨trivial, fun _ => ⟨trivial, fun _ => ⟨trivial, fun _ => trivial⟩⟩⟩⟩⟩⟩⟩⟩⟩
  | false => trivial

theorem plain_close : (do handleClose c fd; return true : Prog C κ δ Bool).Uses Plain :=
  (plain_handleClose c fd).bind fun _ => trivial

theorem plain_sendInLoopRest : (sendInLoopRest cfg c).Uses Plain := by
  refine ⟨trivial, ?_⟩
  intro empty
  cases empty with
  | true => trivial
  | false => exact ⟨trivial, fun _ => trivial⟩

theorem plain_sendInLoop (data : Bytes) : (sendInLoop cfg c data).Uses Plain := by
  refine ⟨trivial, fun _ => ⟨trivial, ?_⟩⟩
  intro empty
  cases empty with
  | false => exact ⟨trivial, fun _ => trivial⟩
  | true =>
      refine ⟨trivial, ?_⟩
      rintro ⟨n, err⟩
      simp only [Program.bind]
      split
      · exact plain_close c (cfg.fd c)
      · split
        · exact ⟨trivial, fun _ => plain_sendInLoopRest cfg c⟩
        · split
          · exact ⟨trivial, fun _ => plain_sendInLoopRest cfg c⟩
          · exact plain_sendInLoopRest cfg c

theorem plain_handleWriteRest : (handleWriteRest c fd : Prog C κ δ Bool).Uses Plain := by
  refine ⟨trivial, ?_⟩
  intro empty
  cases empty with
  | true => exact ⟨trivial, fun _ => trivial⟩
  | false => trivial

theorem plain_handleWrite : (handleWrite cfg c fd).Uses Plain := by
  refine ⟨trivial, ?_⟩
  rintro ⟨first, last⟩
  refine ⟨trivial, ?_⟩
  rintro ⟨n, err⟩
  simp only [Program.bind]
  split
  · split
    · trivial
    · exact plain_close c fd
  · refine ⟨trivial, fun _ => ?_⟩
    split
    · refine ⟨trivial, ?_⟩
      rintro ⟨m, err⟩
      simp only [Program.bind]
      split
      · split
        · trivial
        · exact plain_close c fd
      · exact ⟨trivial, fun _ => plain_handleWriteRest c fd⟩
    · exact plain_handleWriteRest c fd

theorem plain_of_parsing {o : Op C κ δ} (h : Parsing c o) : Plain o := by
  cases o <;> trivial

theorem plain_handleRead (fuel : Nat) : (handleRead cfg fuel c fd).Uses Plain := by
  refine ⟨trivial, fun buf => ⟨trivial, ?_⟩⟩
  rintro ⟨n, err⟩
  simp only [Program.bind]
  split
  · split
    · exact plain_close c fd
    · trivial
  · refine Program.Uses.bind ((parses_parsePacket c fuel buf n.toNat).mono fun _ => plain_of_parsing c) ?_
    intro replies
    split
    · exact ⟨trivial, fun data => plain_sendInLoop cfg c data⟩
    · trivial

theorem plain_resetIfEmpty (b : Buffer) :
    (do resetIfEmpty c b; return false : Prog C κ δ Bool).Uses Plain := by
  refine ⟨trivial, ?_⟩
  intro empty
  cases empty with
  | true => exact ⟨trivial, fun _ => trivial⟩
  | false => trivial

theorem plain_handleReady (fuel : Nat) (events : UInt32) : (handleReady cfg fuel c fd events).Uses Plain := by
  have hreset : ∀ (b : Buffer) (closed : Bool), (if closed = true then return true else do
      resetIfEmpty c b
      return false : Prog C κ δ Bool).Uses Plain := by
    intro b closed
    cases closed with
    | true => trivial
    | false => exact plain_resetIfEmpty c b
  have hempty : (call (.isEmpty c .outBuffer) : Prog C κ δ Bool).Uses Plain := ⟨trivial, fun _ => trivial⟩
  refine hempty.bind ?_
  intro empty
  split
  · split
    · exact (plain_handleWrite cfg c fd).bind (hreset .outBuffer)
    · trivial
  · split
    · exact (plain_handleRead cfg c fd fuel).bind (hreset .inBuffer)
    · trivial

theorem plain_handlerEvent (fuel : Nat) (events : UInt32) : (handlerEvent cfg fuel fd events).Uses Plain := by
  refine ⟨trivial, ?_⟩
  intro s
  cases s with
  | none => trivial
  | some c =>
      have hrest : (do
          if events &&& EventErr ≠ 0 then handleClose c fd
          else
            let closed ← handleReady cfg fuel c fd events
            if closed = false then call (.swapLengths c) : Prog C κ δ Unit).Uses Plain := by
        split
        · exact plain_handleClose c fd
        · refine (plain_handleReady cfg c fd fuel events).bind ?_
          intro closed
          cases closed with
          | true => trivial
          | false => exact ⟨trivial, fun _ => trivial⟩
      simp only [handleEvent]
      split
      · exact ⟨trivial, fun _ => hrest⟩
      · exact hrest

theorem plain_closeAll (cs : List C) : (closeAll cs : Prog C κ δ Unit).Uses Plain := by
  induction cs with
  | nil => trivial
  | cons c cs ih =>
      refine Program.Uses.bind ?_ fun _ => ih
      refine ⟨trivial, ?_⟩
      intro connected
      cases connected with
      | false => trivial
      | true =>
          refine ⟨trivial, fun _ => ⟨trivial, ?_⟩⟩
          intro swapped
          cases swapped with
          | true => exact ⟨trivial, fun _ => trivial⟩
          | false => trivial

theorem plain_send (data : δ) (finish : Bool) : (taskBody cfg (.send c data finish)).Uses Plain := by
  refine ⟨trivial, ?_⟩
  intro connected
  cases connected with
  | false => trivial
  | true =>
      refine ⟨trivial, fun packed => (plain_sendInLoop cfg c packed).bind fun _ => ?_⟩
      cases finish with
      | true => exact ⟨trivial, fun _ => trivial⟩
      | false => trivial

theorem plain_closing : (taskBody cfg .closing).Uses Plain :=
  ⟨trivial, fun cs => (plain_closeAll cs).bind fun _ => ⟨trivial, fun _ => trivial⟩⟩

end Programs

def Admitted : (o : Op C κ δ) → Res o → Prop
  | .addCount n, _ => n = 1
  | .epollCtl _ .add _ _, ok => ok = true
  | _, _ => True

def gain : Op C κ δ → Nat
  | .addCount n => if n = 1 then 1 else 0
  | _ => 0

/-- A program that queues no registration and, if every result is an admitted one, adds a given number to the count. -/
def Adds : Prog C κ δ α → Nat → Prop
  | .done _, n => n = 0
  | .step o k, n => (∀ c, o ≠ .appendTask (.register c)) ∧ ∀ r, Admitted o r → gain o ≤ n ∧ Adds (k r) (n - gain o)

theorem adds_of_plain {p : Prog C κ δ α} (h : p.Uses Plain) : Adds p 0 := by
  induction p with
  | done a => rfl
  | step o k ih =>
      refine ⟨?_, ?_⟩
      · rintro c rfl
        exact h.1
      · intro r _
        have hgain : gain o = 0 := by
          cases o with
          | addCount n => exact if_neg h.1
          | _ => rfl
        rw [hgain]
        exact ⟨Nat.le_refl 0, ih r (h.2 r)⟩

theorem adds_register (cfg : Config C σ κ δ) (c : C) : Adds (taskBody cfg (.register c)) 1 := by
  refine ⟨nofun, fun _ _ => ⟨Nat.zero_le 1, nofun, fun _ _ => ⟨Nat.zero_le 1, nofun, ?_⟩⟩⟩
  rintro ok ⟨rfl⟩
  exact ⟨Nat.zero_le 1, nofun, fun _ _ => ⟨Nat.le_refl 1, rfl⟩⟩

def registration : Task C δ → Bool
  | .register _ => true
  | _ => false

theorem adds_taskBody (cfg : Config C σ κ δ) (t : Task C δ) :
    Adds (taskBody cfg t) (if registration t then 1 else 0) := by
  cases t with
  | register c => exact adds_register cfg c
  | send c data finish => exact adds_of_plain (plain_send cfg c data finish)
  | close c => exact adds_of_plain (plain_handleClose c (cfg.fd c))
  | closing => exact adds_of_plain (plain_closing cfg)

end Gev.Connection.Additions
