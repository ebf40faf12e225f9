import Gev.Server.StartStop
import Mathlib.Data.Finset.Card

namespace Gev.Server.NewServer

open Lib.Atomic

abbrev Fd := Nat

section Calls

/-- The calls that open, close or use descriptors, and the wait for the goroutine of a loop. -/
inductive Call
  | listen (reusePort : Bool)
  | file (ls : Fd)
  | setNonblock (fd : Fd)
  | epollCreate1
  | eventfd2
  | epollCtlAdd (epfd fd : Fd)
  | write (fd : Fd)
  | waitDone
  | close (fd : Fd)

/-- A net.Listener is its descriptor and whether it is a TCPListener. No result is an error. -/
abbrev Result : Call → Type
  | .listen _ => Option (Fd × Bool)
  | .file _ | .epollCreate1 | .eventfd2 => Option Fd
  | .setNonblock _ | .epollCtlAdd _ _ | .write _ => Bool
  | .waitDone | .close _ => Unit

/-- A call that succeeds gives a descriptor which was not open. -/
def openNew (S : Finset Fd) : Option Fd → Option (Finset Fd)
  | none => some S
  | some fd => if fd ∈ S then none else some (insert fd S)

/-- The environment chooses the results. The state is the set of the descriptors that are open. -/
def act : (o : Call) → Result o → Finset Fd → Option (Result o × Finset Fd)
  | .listen _, r, S => (openNew S (Option.map Prod.fst r)).map fun S => (r, S)
  | .file _, r, S | .epollCreate1, r, S | .eventfd2, r, S => (openNew S r).map fun S => (r, S)
  | .setNonblock _, r, S | .epollCtlAdd _ _, r, S | .write _, r, S | .waitDone, r, S => some (r, S)
  | .close fd, _, S => some ((), S.erase fd)

def kernel : Semantics Call Result (Finset Fd) := ⟨Result, act⟩

end Calls

abbrev Prog (α : Type) := Program Call Result α

def call (o : Call) : Prog (Result o) := perform o

section Poller

structure Poller where
  fd : Fd
  eventFd : Fd
  running : Bool

inductive CloseError
  | errClosed
  | wake

def create : Prog (Option Poller) := do
  match ← call .epollCreate1 with
  | none => return none
  | some fd =>
      match ← call .eventfd2 with
      | none =>
          call (.close fd)
          return none
      | some eventFd =>
          let ok ← call (.epollCtlAdd fd eventFd)
          if ok = true then return some ⟨fd, eventFd, false⟩
          else
            call (.close fd)
            call (.close eventFd)
            return none

def wake (ep : Poller) : Prog Bool := call (.write ep.eventFd)

def close (ep : Poller) : Prog (Poller × Option CloseError) := do
  if ep.running = false then return (ep, some .errClosed)
  else
    let ep := { ep with running := false }
    let ok ← wake ep
    if ok = true then
      call .waitDone
      call (.close ep.fd)
      call (.close ep.eventFd)
      return (ep, none)
    else return (ep, some .wake)

end Poller

section EventLoop

inductive Task
  | closing

instance : Inhabited Task := ⟨.closing⟩

structure EventLoop where
  poll : Poller
  needWake : Bool
  connCunt : Int
  sockets : List Fd
  taskQueueW : List Task

def new : Prog (Option EventLoop) := do
  match ← create with
  | none => return none
  | some p => return some ⟨p, true, 0, [], []⟩

/-- An error of Wake is only logged. -/
def queueInLoop (l : EventLoop) (t : Task) : Prog EventLoop := do
  let l := { l with taskQueueW := l.taskQueueW ++ [t] }
  match l.needWake with
  | true =>
      let l := { l with needWake := false }
      let _ ← wake l.poll
      return l
  | false => return l

def stop (l : EventLoop) : Prog (EventLoop × Option CloseError) := do
  let l ← queueInLoop l .closing
  let l := { l with connCunt := 0 }
  let (poll, err) ← close l.poll
  return ({ l with poll := poll }, err)

def addSocketAndEnableRead (l : EventLoop) (fd : Fd) : Prog (Option EventLoop) := do
  let ok ← call (.epollCtlAdd l.poll.fd fd)
  if ok = true then return some { l with sockets := fd :: l.sockets, connCunt := l.connCunt + 1 }
  else return none

end EventLoop

section Construction

structure Listener where
  file : Fd
  listener : Fd
  loop : EventLoop

inductive Failure
  | handlerNil
  | listen
  | notTCP
  | file
  | setNonblock
  | listenerLoop
  | addRead
  | workLoop (i : Nat)
  deriving DecidableEq

def newListener (reusePort : Bool) : Prog (Except Failure Listener) := do
  match ← call (.listen reusePort) with
  | none => return .error .listen
  | some (ls, tcp) =>
      if tcp = false then return .error .notTCP
      else
        match ← call (.file ls) with
        | none => return .error .file
        | some fd =>
            let ok ← call (.setNonblock fd)
            if ok = false then return .error .setNonblock
            else
              match ← new with
              | none => return .error .listenerLoop
              | some loop =>
                  match ← addSocketAndEnableRead loop fd with
                  | none => return .error .addRead
                  | some loop => return .ok ⟨fd, ls, loop⟩

def stopAll : List EventLoop → Prog Unit
  | [] => return ()
  | l :: wloops => do
      let _ ← stop l
      stopAll wloops

def makeLoops : Nat → List EventLoop → Prog (Except Failure (List EventLoop))
  | 0, wloops => return .ok wloops
  | n + 1, wloops => do
      match ← new with
      | none =>
          stopAll wloops
          return .error (.workLoop wloops.length)
      | some l => makeLoops n (wloops ++ [l])

structure Options where
  numLoops : Int
  reusePort : Bool

def Options.loops (opts : Options) (numCPU : Nat) : Nat := if opts.numLoops ≤ 0 then numCPU else opts.numLoops.toNat

/-- NewServer, with a handler or nil, on a machine with the given number of CPUs. Of the Server there are its listener
and its work loops. -/
def newServer (handler : Bool) (opts : Options) (numCPU : Nat) :
    Prog (Except Failure (Listener × List EventLoop)) := do
  if handler = false then return .error .handlerNil
  else
    match ← newListener opts.reusePort with
    | .error e => return .error e
    | .ok listener =>
        match ← makeLoops (opts.loops numCPU) [] with
        | .error e => return .error e
        | .ok wloops => return .ok (listener, wloops)

end Construction

section Holding

def Holds (S : Finset Fd) (k : Nat) (S' : Finset Fd) : Prop :=
  ∃ opened, Disjoint S opened ∧ S' = S ∪ opened ∧ opened.card = k

variable {S S' S'' : Finset Fd} {k m : Nat} {fd : Fd}

theorem Holds.refl (S : Finset Fd) : Holds S 0 S :=
  ⟨∅, Finset.disjoint_empty_right S, (Finset.union_empty S).symm, rfl⟩

theorem Holds.open (h : fd ∉ S) : Holds S 1 (insert fd S) := by
  refine ⟨{fd}, Finset.disjoint_singleton_right.mpr h, ?_, Finset.card_singleton fd⟩
  rw [Finset.union_comm, Finset.insert_eq]

theorem Holds.trans (h : Holds S k S') (h' : Holds S' m S'') : Holds S (k + m) S'' := by
  obtain ⟨opened, hdisjoint, rfl, rfl⟩ := h
  obtain ⟨more, hdisjoint', rfl, rfl⟩ := h'
  obtain ⟨hold, hnew⟩ := Finset.disjoint_union_left.mp hdisjoint'
  exact ⟨opened ∪ more, Finset.disjoint_union_right.mpr ⟨hdisjoint, hold⟩, Finset.union_assoc S opened more,
    Finset.card_union_of_disjoint hnew⟩

theorem Holds.released_iff (h : Holds S k S') : S' ⊆ S ↔ k = 0 := by
  obtain ⟨opened, hdisjoint, rfl, rfl⟩ := h
  rw [Finset.card_eq_zero, Finset.union_subset_iff, and_iff_right (Finset.Subset.refl S)]
  constructor
  · intro hsub
    exact Finset.disjoint_self_iff_empty opened |>.mp (hdisjoint.mono_left hsub)
  · rintro rfl
    exact Finset.empty_subset S

end Holding

section Specs

def Ensures {α : Type} (p : Prog α) (S : Finset Fd) (Q : α → Finset Fd → Prop) : Prop :=
  Always kernel (fun _ _ => True) Q p S

variable {α β : Type} {S : Finset Fd} {Q : β → Finset Fd → Prop}

theorem Ensures.bind {p : Prog α} {f : α → Prog β} (h : Ensures p S fun a S' => Ensures (f a) S' Q) :
    Ensures (p >>= f) S Q :=
  Always.bind h

theorem Ensures.mono {p : Prog α} {P R : α → Finset Fd → Prop} (h : Ensures p S P) (hPR : ∀ a S', P a S' → R a S') :
    Ensures p S R :=
  Always.mono h hPR

theorem ensures_call {o : Call} {f : Result o → Prog β}
    (h : ∀ ch r S', act o ch S = some (r, S') → Ensures (f r) S' Q) : Ensures (call o >>= f) S Q :=
  ⟨trivial, h⟩

/-- A call that may open a descriptor has opened one or failed. -/
theorem opened_cases {r r' : Option Fd} {S' : Finset Fd} (h : (openNew S r').map (fun S => (r', S)) = some (r, S')) :
    (r = none ∧ S' = S) ∨ ∃ fd, r = some fd ∧ fd ∉ S ∧ S' = insert fd S := by
  obtain ⟨S₁, hopen, heq⟩ := Option.map_eq_some_iff.mp h
  cases heq
  cases r with
  | none =>
      cases hopen
      exact .inl ⟨rfl, rfl⟩
  | some fd =>
      rw [openNew] at hopen
      split at hopen
      · cases hopen
      next hnew =>
        cases hopen
        exact .inr ⟨fd, rfl, hnew, rfl⟩

theorem listen_cases {reusePort : Bool} {r r' : Option (Fd × Bool)} {S' : Finset Fd}
    (h : act (.listen reusePort) r' S = some (r, S')) :
    (r = none ∧ S' = S) ∨ ∃ ls tcp, r = some (ls, tcp) ∧ Holds S 1 S' := by
  obtain ⟨S₁, hopen, heq⟩ := Option.map_eq_some_iff.mp h
  cases heq
  cases r with
  | none =>
      cases hopen
      exact .inl ⟨rfl, rfl⟩
  | some ls =>
      rw [Option.map_some, openNew] at hopen
      split at hopen
      · cases hopen
      next hnew =>
        cases hopen
        exact .inr ⟨ls.1, ls.2, rfl, .open hnew⟩

/-- A poller or a loop has been made, with two descriptors and not running, or nothing is left. -/
def Made (running : α → Bool) (S : Finset Fd) : Option α → Finset Fd → Prop
  | none, S' => S' = S
  | some a, S' => running a = false ∧ Holds S 2 S'

/-- Create closes what it has opened when it fails. -/
theorem create_made (S : Finset Fd) : Ensures create S (Made Poller.running S) := by
  apply ensures_call
  intro _ r S₁ hfirst
  rcases opened_cases hfirst with ⟨rfl, rfl⟩ | ⟨fd, rfl, hfd, rfl⟩
  · exact rfl
  · apply ensures_call
    intro _ r S₂ hsecond
    rcases opened_cases hsecond with ⟨rfl, rfl⟩ | ⟨eventFd, rfl, hevent, rfl⟩
    · apply ensures_call
      intro _ _ S₃ hclose
      cases hclose
      exact Finset.erase_insert hfd
    · apply ensures_call
      intro ok _ S₃ hctl
      cases hctl
      cases ok with
      | true => exact ⟨rfl, (Holds.open hfd).trans (Holds.open hevent)⟩
      | false =>
          apply ensures_call
          intro _ _ S₄ hclose
          cases hclose
          apply ensures_call
          intro _ _ S₅ hclose
          cases hclose
          change Finset.erase (Finset.erase _ fd) eventFd = S
          rw [Finset.erase_right_comm, Finset.erase_insert hevent, Finset.erase_insert hfd]

theorem new_made (S : Finset Fd) : Ensures new S (Made (fun l => l.poll.running) S) := by
  refine Ensures.bind ((create_made S).mono ?_)
  intro r S' h
  cases r with
  | none => exact h
  | some p => exact h

theorem queueInLoop_keeps (l : EventLoop) (t : Task) (S : Finset Fd) :
    Ensures (queueInLoop l t) S fun l' S' =>
      S' = S ∧ l'.poll = l.poll ∧ l'.needWake = false ∧ l'.taskQueueW = l.taskQueueW ++ [t] := by
  rw [queueInLoop]
  dsimp only
  split
  · apply ensures_call
    intro _ _ S₁ hwrite
    cases hwrite
    exact ⟨rfl, rfl, rfl, rfl⟩
  next hn => exact ⟨rfl, rfl, hn, rfl⟩

theorem close_keeps (ep : Poller) (h : ep.running = false) (S : Finset Fd) :
    Ensures (close ep) S fun r S' => S' = S ∧ r = (ep, some .errClosed) := by
  rw [close, if_pos h]
  exact ⟨rfl, rfl⟩

/-- A loop that was never run keeps its descriptors when it is stopped, and a function that no one will run. -/
theorem stop_keeps (l : EventLoop) (h : l.poll.running = false) (S : Finset Fd) :
    Ensures (stop l) S fun r S' => S' = S ∧ r.2 = some .errClosed ∧ r.1.poll = l.poll ∧ r.1.needWake = false ∧
      r.1.taskQueueW = l.taskQueueW ++ [.closing] := by
  refine Ensures.bind ((queueInLoop_keeps l .closing S).mono ?_)
  rintro l' S' ⟨rfl, hpoll, hn, hqueue⟩
  refine Ensures.bind ((close_keeps l'.poll (hpoll ▸ h) S').mono ?_)
  rintro r S'' ⟨rfl, rfl⟩
  exact ⟨rfl, rfl, hpoll, hn, hqueue⟩

section StartStop

variable {G : Type} [DecidableEq G] {n : Nat}

/-- The loop as its poller and its queue are in a server that has been started. -/
structure Shows (l : EventLoop) (p : Gev.EventLoop.Machine.State G Task) : Prop where
  running : p.running = l.poll.running
  needWake : p.needWake = l.needWake
  queued : Gev.EventLoop.TaskQueue.queued p = l.taskQueueW
  invariant : Gev.EventLoop.TaskQueue.Invariant p

/-- On a loop that was never run, the Stop that NewServer calls is the one of a server that has been started. -/
theorem stop_shown {T : StartStop.Setup G Task} {q : StartStop.Process n G Task} {ℓ : StartStop.LoopId n}
    {rest : List (StartStop.LoopId n)} {l : EventLoop} (h : Shows l (q.polls ℓ)) (hrun : l.poll.running = false)
    (hq : q.stop = .stopLoop .queue ℓ rest) (hout : (q.polls ℓ).callers (some T.stopper) = .outside) (S : Finset Fd) :
    Ensures (stop l) S fun r S' => S' = S ∧ ∃ ks p, Shows r.1 p ∧
      Lib.Runs.run (StartStop.stopStep T) q ks = some { q.setPoll ℓ p with stop := StartStop.nextLoop rest } := by
  obtain ⟨ks, p, hks, hinv, hrunning, hwake, hqueued⟩ :=
    StartStop.stop_unrun hq (h.running.trans hrun) hout h.invariant
  refine (stop_keeps l hrun S).mono ?_
  rintro r S' ⟨hS, -, hpoll, hn, hqueue⟩
  refine ⟨hS, ks, p, ⟨?_, hwake.trans hn.symm, ?_, hinv⟩, hks⟩
  · rw [hrunning, hpoll, hrun]
  · rw [hqueued, hqueue, h.queued]

end StartStop

theorem stopAll_keeps (wloops : List EventLoop) (h : ∀ l ∈ wloops, l.poll.running = false) (S : Finset Fd) :
    Ensures (stopAll wloops) S fun _ S' => S' = S := by
  induction wloops with
  | nil => exact rfl
  | cons l wloops ih =>
      obtain ⟨hl, hwloops⟩ := List.forall_mem_cons.mp h
      refine Ensures.bind ((stop_keeps l hl S).mono ?_)
      rintro _ S' ⟨rfl, -⟩
      exact ih hwloops

def leaked : Failure → Nat
  | .handlerNil | .listen => 0
  | .notTCP | .file => 1
  | .setNonblock | .listenerLoop => 2
  | .addRead => 4
  | .workLoop i => 4 + 2 * i

def Outcome (S : Finset Fd) (k : Nat) : Except Failure α → Finset Fd → Prop
  | .error e, S' => Holds S (leaked e) S'
  | .ok _, S' => Holds S k S'

theorem newListener_outcome (reusePort : Bool) (S : Finset Fd) : Ensures (newListener reusePort) S (Outcome S 4) := by
  apply ensures_call
  intro _ r S₁ hlisten
  rcases listen_cases hlisten with ⟨rfl, rfl⟩ | ⟨ls, tcp, rfl, h₁⟩
  · exact Holds.refl _
  · cases tcp with
    | false => exact h₁
    | true =>
        apply ensures_call
        intro _ r S₂ hfile
        rcases opened_cases hfile with ⟨rfl, rfl⟩ | ⟨fd, rfl, hfd, rfl⟩
        · exact h₁
        · have h₂ := h₁.trans (Holds.open hfd)
          apply ensures_call
          intro ok _ S₃ hnonblock
          cases hnonblock
          cases ok with
          | false => exact h₂
          | true =>
              refine Ensures.bind ((new_made _).mono ?_)
              rintro (_ | loop) S₄ hmade
              · rw [show S₄ = _ from hmade]
                exact h₂
              · have h₄ := h₂.trans hmade.2
                apply ensures_call
                intro ok _ S₅ hadd
                cases hadd
                cases ok with
                | false => exact h₄
                | true => exact h₄

/-- The descriptors of the loops made so far are there in every round, and also when the next loop cannot be made. -/
theorem makeLoops_outcome {S S₁ : Finset Fd} (n : Nat) {wloops : List EventLoop}
    (h : ∀ l ∈ wloops, l.poll.running = false) (hS : Holds S (4 + 2 * wloops.length) S₁) :
    Ensures (makeLoops n wloops) S₁ (Outcome S (4 + 2 * (wloops.length + n))) := by
  induction n generalizing wloops S₁ with
  | zero => exact hS
  | succ n ih =>
      refine Ensures.bind ((new_made S₁).mono ?_)
      rintro (_ | l) S₂ hmade
      · refine Ensures.bind ((stopAll_keeps wloops h S₂).mono ?_)
        rintro _ S₃ rfl
        rw [show S₃ = S₁ from hmade]
        exact hS
      · obtain ⟨hl, hnew⟩ := hmade
        have hall : ∀ l' ∈ wloops ++ [l], l'.poll.running = false := by
          intro l' hl'
          rcases List.mem_append.mp hl' with hold | hlast
          · exact h l' hold
          · rw [List.mem_singleton.mp hlast]
            exact hl
        have hlength : (wloops ++ [l]).length = wloops.length + 1 := by
          rw [List.length_append, List.length_singleton]
        have hround := ih hall (by rw [hlength]; exact hS.trans hnew)
        rw [hlength, Nat.add_assoc, Nat.add_comm 1] at hround
        exact hround

theorem newServer_outcome (handler : Bool) (opts : Options) (numCPU : Nat) (S : Finset Fd) :
    Ensures (newServer handler opts numCPU) S (Outcome S (4 + 2 * opts.loops numCPU)) := by
  cases handler with
  | false => exact Holds.refl S
  | true =>
      refine Ensures.bind ((newListener_outcome opts.reusePort S).mono ?_)
      rintro (e | listener) S₁ hlistener
      · exact hlistener
      · refine Ensures.bind ((makeLoops_outcome _ (List.forall_mem_nil _) hlistener).mono ?_)
        rintro (e | wloops) S₂ hloops
        · exact hloops
        · rw [List.length_nil, Nat.zero_add] at hloops
          exact hloops

end Specs

/-- When NewServer returns an error, everything it opened has been closed exactly if there was no handler or Listen
failed. If the work loop with number i could not be made, the four descriptors of the listener and the two of each of
the i loops before it are still open. -/
theorem failed_newServer_releases (handler : Bool) (opts : Options) (numCPU : Nat) (S S' : Finset Fd) (e : Failure)
    (h : Executes kernel (newServer handler opts numCPU) S (.error e) S') :
    (S' ⊆ S ↔ e = .handlerNil ∨ e = .listen) ∧
    ∀ i, e = .workLoop i → ∃ opened, Disjoint S opened ∧ S' = S ∪ opened ∧ opened.card = 4 + 2 * i := by
  have hholds : Holds S (leaked e) S' := (newServer_outcome handler opts numCPU S).post h
  constructor
  · rw [hholds.released_iff]
    cases e <;> simp [leaked]
  · rintro i rfl
    exact hholds

def answer (fd : Option Fd) (ok : Bool) : (o : Call) → Result o
  | .listen _ => fd.map fun fd => (fd, true)
  | .file _ | .epollCreate1 | .eventfd2 => fd
  | .setNonblock _ | .epollCtlAdd _ _ | .write _ => ok
  | .waitDone | .close _ => ()

theorem failed_newServer_releases_listen :
    Executes kernel (newServer true ⟨2, false⟩ 1) {0, 1, 2} (.error .listen) {0, 1, 2} ∧
    ({0, 1, 2} : Finset Fd) ⊆ {0, 1, 2} := by
  have hrun : Executes kernel (newServer true ⟨2, false⟩ 1) {0, 1, 2} (.error .listen) {0, 1, 2} :=
    executes_of_play [answer none false] rfl
  exact ⟨hrun, (failed_newServer_releases true ⟨2, false⟩ 1 _ _ _ hrun).1.mpr (.inr rfl)⟩

/-- The second work loop cannot be made. The first one is stopped, but its descriptors 7 and 8 stay open, and so do
those of the listener. -/
theorem failed_newServer_leaks :
    Executes kernel (newServer true ⟨2, false⟩ 1) {0, 1, 2} (.error (.workLoop 1)) {0, 1, 2, 3, 4, 5, 6, 7, 8} ∧
    ¬({0, 1, 2, 3, 4, 5, 6, 7, 8} : Finset Fd) ⊆ {0, 1, 2} := by
  have hopen : insert 8 (insert 7 (insert 6 (insert 5 (insert 4 (insert 3 {0, 1, 2}))))) =
      ({0, 1, 2, 3, 4, 5, 6, 7, 8} : Finset Fd) := by
    decide
  refine ⟨?_, by decide⟩
  rw [← hopen]
  exact executes_of_play [answer (some 3) true, answer (some 4) true, answer none true, answer (some 5) true,
    answer (some 6) true, answer none true, answer none true, answer (some 7) true, answer (some 8) true,
    answer none true, answer none true, answer none true] rfl

end Gev.Server.NewServer
