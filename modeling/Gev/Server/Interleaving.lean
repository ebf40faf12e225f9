import Gev.Connection.Code
import Gev.EventLoop.TaskQueue

namespace Gev.Server.Interleaving

open Lib.Atomic Lib.Slices Lib.Runs Connection.State Connection.Code EventLoop

variable {Λ G C σ κ δ : Type}

instance : Inhabited (Task C δ) := ⟨.closing⟩

/-- What is fixed for a server: its configuration, the work loop each connection is given by the strategy, how
the task queues grow, and a bound on the rounds of one handlerProtocol. -/
structure Setup (Λ C σ κ δ : Type) where
  cfg : Config C σ κ δ
  loopOf : C → Λ
  growQueue : Nat → Nat → Nat
  fuel : Nat

/-- A work loop. The program is what is left of the event handler or task its goroutine is in. -/
structure Loop (G C σ κ δ : Type) where
  poll : Machine.State G (Task C δ)
  work : Local C σ κ δ
  prog : Prog C κ δ Unit
  connCunt : Int

/-- Where any other goroutine stands. A call of Send or Close is before its test of connected at check; queue and
queued are before and behind the locked append of QueueInLoop; the last five are the rest of Stop. -/
inductive Pc (Λ C δ : Type)
  | idle
  | check (c : C) (t : Task C δ)
  | queue (ℓ : Λ) (t : Task C δ)
  | queued (ℓ : Λ) (t : Task C δ)
  | swapCount (ℓ : Λ)
  | testRunning (ℓ : Λ)
  | setRunning (ℓ : Λ)
  | wakePoller (ℓ : Λ)
  | waitDone (ℓ : Λ)

/-- A running server. The owner of a descriptor number is the connection the kernel last gave it to, until it is
closed. The last two fields are ghosts: the loops for which a Stop has returned nil, and those whose count a Stop
has reset while the map had entries that are still there. -/
structure Process (Λ G C σ κ δ : Type) where
  loops : Λ → Loop G C σ κ δ
  pcs : G → Pc Λ C δ
  accepted : C → Bool
  owner : Fd → Option C
  stopped : Λ → Bool
  owed : Λ → Bool

/-- The steps. A goroutine that is idle may accept a connection, fire an idle timer or call a method; go is its next
statement inside such a call. What a callback calls is the call of a goroutine that runs while the loop waits. -/
inductive Label (Λ G C δ : Type)
  | accept (g : G) (c : C)
  | timer (g : G) (c : C) (now : Int)
  | send (g : G) (c : C) (data : δ) (finish : Bool)
  | close (g : G) (c : C)
  | shutdownWrite (g : G) (c : C)
  | stop (g : G) (ℓ : Λ)
  | go (g : G)
  | loop (ℓ : Λ) (l : Machine.Label G (Task C δ))
  | op (ℓ : Λ) (a : Answers C)

def Loop.new (packetSize taskQueueSize : Nat) (conns : C → Conn σ κ) : Loop G C σ κ δ where
  poll := Machine.init taskQueueSize
  work := newLocal packetSize conns
  prog := .done ()
  connCunt := 0

def init (packetSize taskQueueSize : Nat) (conns : C → Conn σ κ) : Process Λ G C σ κ δ where
  loops := fun _ => .new packetSize taskQueueSize conns
  pcs := fun _ => .idle
  accepted := fun _ => false
  owner := fun _ => none
  stopped := fun _ => false
  owed := fun _ => false

/-- OnConnect has been called, so that the application knows the connection. -/
def announced (x : Conn σ κ) : Bool := x.history.any fun
  | .onConnect => true
  | _ => false

section Step

variable (S : Setup Λ C σ κ δ)

def Process.conn (s : Process Λ G C σ κ δ) (c : C) : Conn σ κ := (s.loops (S.loopOf c)).work.conns c

variable [DecidableEq Λ] [DecidableEq G] [DecidableEq C]

def Process.setPc (s : Process Λ G C σ κ δ) (g : G) (pc : Pc Λ C δ) : Process Λ G C σ κ δ :=
  { s with pcs := Function.update s.pcs g pc }

def Process.setLoop (s : Process Λ G C σ κ δ) (ℓ : Λ) (x : Loop G C σ κ δ) : Process Λ G C σ κ δ :=
  { s with loops := Function.update s.loops ℓ x }

def Process.setPoll (s : Process Λ G C σ κ δ) (ℓ : Λ) (p : Machine.State G (Task C δ)) : Process Λ G C σ κ δ :=
  s.setLoop ℓ { s.loops ℓ with poll := p }

/-- After QueueInLoop: Stop goes on, every other caller is done. -/
def returned (ℓ : Λ) : Task C δ → Pc Λ C δ
  | .closing => .swapCount ℓ
  | _ => .idle

def go (s : Process Λ G C σ κ δ) (g : G) : Option (Process Λ G C σ κ δ) := match s.pcs g with
  | .idle => none
  | .check c t => some (s.setPc g (if (s.conn S c).connected then .queue (S.loopOf c) t else .idle))
  | .queue ℓ t => (Machine.step S.growQueue (s.loops ℓ).poll (.append (some g) t)).map fun p =>
      (s.setPoll ℓ p).setPc g (.queued ℓ t)
  | .queued ℓ t => match (s.loops ℓ).poll.callers (some g) with
    | .outside => none
    | .appended => (Machine.step S.growQueue (s.loops ℓ).poll (.compareAndSwap (some g))).map fun p =>
        (s.setPoll ℓ p).setPc g (if p.callers (some g) = .waking then .queued ℓ t else returned ℓ t)
    | .waking => (Machine.step S.growQueue (s.loops ℓ).poll (.wake (some g))).map fun p =>
        (s.setPoll ℓ p).setPc g (returned ℓ t)
  | .swapCount ℓ => some
      { (s.setLoop ℓ { s.loops ℓ with connCunt := 0 }).setPc g (.testRunning ℓ) with
        owed := Function.update s.owed ℓ (!(values (s.loops ℓ).work.sockets).isEmpty) }
  | .testRunning ℓ => some (s.setPc g (if (s.loops ℓ).poll.running then .setRunning ℓ else .idle))
  | .setRunning ℓ => (Machine.step S.growQueue (s.loops ℓ).poll .closeSet).map fun p =>
      (s.setPoll ℓ p).setPc g (.wakePoller ℓ)
  | .wakePoller ℓ => (Machine.step S.growQueue (s.loops ℓ).poll .closeWake).map fun p =>
      (s.setPoll ℓ p).setPc g (.waitDone ℓ)
  | .waitDone ℓ =>
      if (s.loops ℓ).poll.cursor = .exited then
        some { s.setPc g .idle with stopped := Function.update s.stopped ℓ true }
      else none

/-- The labels of the loop goroutine itself. -/
def control : Machine.Label G (Task C δ) → Bool
  | .append _ _ | .compareAndSwap _ | .wake _ | .closeSet | .closeWake => false
  | _ => true

/-- The handler or task a step of the poller leads into. -/
def entered (p : Machine.State G (Task C δ)) (l : Machine.Label G (Task C δ)) : Prog C κ δ Unit :=
  match l, p.cursor with
  | .event, .batch (.socket fd events :: _) _ => handlerEvent S.cfg S.fuel fd events
  | .runTask, .run i _ => match (contents p.heap p.taskQueueR)[i]? with
    | some t => taskBody S.cfg t
    | none => .done ()
  | _, _ => .done ()

def loopControl (s : Process Λ G C σ κ δ) (ℓ : Λ) (l : Machine.Label G (Task C δ)) :
    Option (Process Λ G C σ κ δ) :=
  match (s.loops ℓ).prog with
  | .step _ _ => none
  | .done _ =>
      if control l then
        (Machine.step S.growQueue (s.loops ℓ).poll l).map fun p =>
          s.setLoop ℓ { s.loops ℓ with poll := p, prog := entered S (s.loops ℓ).poll l }
      else none

/-- An operation's effect on the task queue, where the loop goroutine is one caller among others. -/
def pollEffect (p : Machine.State G (Task C δ)) (swapped : Bool) : Op C κ δ → Option (Machine.State G (Task C δ))
  | .appendTask t => Machine.step S.growQueue p (.append none t)
  | .compareAndSwap => if swapped = p.needWake then Machine.step S.growQueue p (.compareAndSwap none) else none
  | .wake => Machine.step S.growQueue p (.wake none)
  | _ => some p

def countEffect (n : Int) : Op C κ δ → Int
  | .addCount k => n + k
  | _ => n

def ownerEffect (owner : Fd → Option C) : Op C κ δ → Fd → Option C
  | .unixClose _ fd => Function.update owner fd none
  | _ => owner

def owedEffect (owed : Λ → Bool) (ℓ : Λ) : Op C κ δ → Λ → Bool
  | .dropSockets => Function.update owed ℓ false
  | _ => owed

def perform (s : Process Λ G C σ κ δ) (ℓ : Λ) (a : Answers C) : Option (Process Λ G C σ κ δ) :=
  match (s.loops ℓ).prog with
  | .done _ => none
  | .step o k =>
      (act S.cfg o (a.choice o) (s.loops ℓ).work).bind fun r =>
        (pollEffect S (s.loops ℓ).poll a.ok o).map fun p =>
          { s.setLoop ℓ { poll := p, work := r.2, prog := k r.1, connCunt := countEffect (s.loops ℓ).connCunt o } with
            owner := ownerEffect s.owner o
            owed := owedEffect s.owed ℓ o }

def step (s : Process Λ G C σ κ δ) : Label Λ G C δ → Option (Process Λ G C σ κ δ)
  | .accept g c => match s.pcs g with
    | .idle =>
        -- The kernel gives out a descriptor number that is free.
        if s.accepted c = false ∧ s.owner (S.cfg.fd c) = none then
          some { s.setPc g (.queue (S.loopOf c) (.register c)) with
            accepted := Function.update s.accepted c true
            owner := Function.update s.owner (S.cfg.fd c) (some c) }
        else none
    | _ => none
  | .timer g c now => match s.pcs g with
    | .idle =>
        if 0 < S.cfg.idleTime ∧ s.accepted c = true then
          if now - (s.conn S c).activeTime * 1000000000 ≥ S.cfg.idleTime then some (s.setPc g (.check c (.close c)))
          else some s
        else none
    | _ => none
  | .send g c data finish => match s.pcs g with
    | .idle => if announced (s.conn S c) then some (s.setPc g (.check c (.send c data finish))) else none
    | _ => none
  | .close g c => match s.pcs g with
    | .idle => if announced (s.conn S c) then some (s.setPc g (.check c (.close c))) else none
    | _ => none
  | .shutdownWrite g c => match s.pcs g with
    | .idle => if announced (s.conn S c) then some s else none
    | _ => none
  | .stop g ℓ => match s.pcs g with
    | .idle => some (s.setPc g (.queue ℓ .closing))
    | _ => none
  | .go g => go S s g
  | .loop ℓ l => loopControl S s ℓ l
  | .op ℓ a => perform S s ℓ a

/-- What Send, Close and the idle timer may be called for. -/
def Callable (s : Process Λ G C σ κ δ) (c : C) (t : Task C δ) : Prop :=
  (∃ data finish, t = .send c data finish ∧ announced (s.conn S c) = true) ∨
    t = .close c ∧ (announced (s.conn S c) = true ∨ 0 < S.cfg.idleTime ∧ s.accepted c = true)

/-- Every step by case. -/
inductive Steps (s : Process Λ G C σ κ δ) : Label Λ G C δ → Process Λ G C σ κ δ → Prop
  | accept {g : G} {c : C} (hg : s.pcs g = .idle) (hnew : s.accepted c = false)
      (hfree : s.owner (S.cfg.fd c) = none) :
      Steps s (.accept g c) { s.setPc g (.queue (S.loopOf c) (.register c)) with
        accepted := Function.update s.accepted c true
        owner := Function.update s.owner (S.cfg.fd c) (some c) }
  | call {g : G} {c : C} {t : Task C δ} {l : Label Λ G C δ} (hg : s.pcs g = .idle) (ht : Callable S s c t)
      (hl : ∀ ℓ a, l ≠ .op ℓ a) : Steps s l (s.setPc g (.check c t))
  | silent {l : Label Λ G C δ} (hl : ∀ ℓ a, l ≠ .op ℓ a) : Steps s l s
  | stop {g : G} {ℓ : Λ} (hg : s.pcs g = .idle) : Steps s (.stop g ℓ) (s.setPc g (.queue ℓ .closing))
  | enqueue {g : G} {c : C} {t : Task C δ} (hg : s.pcs g = .check c t) :
      Steps s (.go g) (s.setPc g (.queue (S.loopOf c) t))
  | refuse {g : G} {c : C} {t : Task C δ} (hg : s.pcs g = .check c t) : Steps s (.go g) (s.setPc g .idle)
  | append {g : G} {ℓ : Λ} {t : Task C δ} {p : Machine.State G (Task C δ)} (hg : s.pcs g = .queue ℓ t)
      (hp : Machine.step S.growQueue (s.loops ℓ).poll (.append (some g) t) = some p) :
      Steps s (.go g) ((s.setPoll ℓ p).setPc g (.queued ℓ t))
  | inQueue {g : G} {ℓ : Λ} {t : Task C δ} {m : Machine.Label G (Task C δ)} {p : Machine.State G (Task C δ)}
      {pc : Pc Λ C δ} (hg : s.pcs g = .queued ℓ t) (hm : m = .compareAndSwap (some g) ∨ m = .wake (some g))
      (hp : Machine.step S.growQueue (s.loops ℓ).poll m = some p) (hpc : pc = .queued ℓ t ∨ pc = returned ℓ t) :
      Steps s (.go g) ((s.setPoll ℓ p).setPc g pc)
  | swapCount {g : G} {ℓ : Λ} (hg : s.pcs g = .swapCount ℓ) :
      Steps s (.go g) { (s.setLoop ℓ { s.loops ℓ with connCunt := 0 }).setPc g (.testRunning ℓ) with
        owed := Function.update s.owed ℓ (!(values (s.loops ℓ).work.sockets).isEmpty) }
  | testRunning {g : G} {ℓ : Λ} {pc : Pc Λ C δ} (hg : s.pcs g = .testRunning ℓ)
      (hpc : pc = .setRunning ℓ ∧ (s.loops ℓ).poll.running = true ∨ pc = .idle ∧ (s.loops ℓ).poll.running = false) :
      Steps s (.go g) (s.setPc g pc)
  | closePoller {g : G} {ℓ : Λ} {m : Machine.Label G (Task C δ)} {p : Machine.State G (Task C δ)} {pc : Pc Λ C δ}
      (hg : s.pcs g = .setRunning ℓ ∧ m = .closeSet ∧ pc = .wakePoller ℓ ∨
        s.pcs g = .wakePoller ℓ ∧ m = .closeWake ∧ pc = .waitDone ℓ)
      (hp : Machine.step S.growQueue (s.loops ℓ).poll m = some p) : Steps s (.go g) ((s.setPoll ℓ p).setPc g pc)
  | waitDone {g : G} {ℓ : Λ} (hg : s.pcs g = .waitDone ℓ) (hx : (s.loops ℓ).poll.cursor = .exited) :
      Steps s (.go g) { s.setPc g .idle with stopped := Function.update s.stopped ℓ true }
  | loop {ℓ : Λ} {l : Machine.Label G (Task C δ)} {p : Machine.State G (Task C δ)} {u : Unit}
      (hd : (s.loops ℓ).prog = .done u) (hc : control l = true)
      (hp : Machine.step S.growQueue (s.loops ℓ).poll l = some p) :
      Steps s (.loop ℓ l) (s.setLoop ℓ { s.loops ℓ with poll := p, prog := entered S (s.loops ℓ).poll l })
  | op {ℓ : Λ} {a : Answers C} {o : Op C κ δ} {k : Res o → Prog C κ δ Unit} {r : Res o} {work : Local C σ κ δ}
      {p : Machine.State G (Task C δ)} (ho : (s.loops ℓ).prog = .step o k)
      (hact : act S.cfg o (a.choice o) (s.loops ℓ).work = some (r, work))
      (hp : pollEffect S (s.loops ℓ).poll a.ok o = some p) :
      Steps s (.op ℓ a) { s.setLoop ℓ
          { poll := p, work := work, prog := k r, connCunt := countEffect (s.loops ℓ).connCunt o } with
        owner := ownerEffect s.owner o
        owed := owedEffect s.owed ℓ o }

variable {S}

theorem steps_of_go {s t : Process Λ G C σ κ δ} {g : G} (h : go S s g = some t) : Steps S s (.go g) t := by
  unfold go at h
  split at h
  case h_1 => cases h
  case h_2 c u hg =>
    cases h
    split
    · exact .enqueue hg
    · exact .refuse hg
  case h_3 ℓ u hg =>
    obtain ⟨p, hp, rfl⟩ := Option.map_eq_some_iff.mp h
    exact .append hg hp
  case h_4 ℓ u hg =>
    split at h
    · cases h
    · obtain ⟨p, hp, rfl⟩ := Option.map_eq_some_iff.mp h
      refine .inQueue hg (.inl rfl) hp ?_
      split
      · exact .inl rfl
      · exact .inr rfl
    · obtain ⟨p, hp, rfl⟩ := Option.map_eq_some_iff.mp h
      exact .inQueue hg (.inr rfl) hp (.inr rfl)
  case h_5 ℓ hg =>
    cases h
    exact .swapCount hg
  case h_6 ℓ hg =>
    cases h
    refine .testRunning hg ?_
    split
    · exact .inl ⟨rfl, ‹_›⟩
    · exact .inr ⟨rfl, eq_false_of_ne_true ‹_›⟩
  case h_7 ℓ hg =>
    obtain ⟨p, hp, rfl⟩ := Option.map_eq_some_iff.mp h
    exact .closePoller (.inl ⟨hg, rfl, rfl⟩) hp
  case h_8 ℓ hg =>
    obtain ⟨p, hp, rfl⟩ := Option.map_eq_some_iff.mp h
    exact .closePoller (.inr ⟨hg, rfl, rfl⟩) hp
  case h_9 ℓ hg =>
    split at h <;> cases h
    exact .waitDone hg ‹_›

theorem steps_of_step {s t : Process Λ G C σ κ δ} {l : Label Λ G C δ} (h : step S s l = some t) :
    Steps S s l t := by
  cases l with
  | accept g c =>
      simp only [step] at h
      split at h
      next hg =>
        split at h <;> cases h
        rename_i hfree
        exact .accept hg hfree.1 hfree.2
      next => cases h
  | timer g c now =>
      simp only [step] at h
      split at h
      next hg =>
        split at h <;> try cases h
        rename_i hacc
        split at h <;> cases h
        · exact .call hg (.inr ⟨rfl, .inr hacc⟩) (by simp)
        · exact .silent (by simp)
      next => cases h
  | send g c data finish =>
      simp only [step] at h
      split at h
      next hg =>
        split at h <;> cases h
        rename_i ha
        exact .call hg (.inl ⟨data, finish, rfl, ha⟩) (by simp)
      next => cases h
  | close g c =>
      simp only [step] at h
      split at h
      next hg =>
        split at h <;> cases h
        rename_i ha
        exact .call hg (.inr ⟨rfl, .inl ha⟩) (by simp)
      next => cases h
  | shutdownWrite g c =>
      simp only [step] at h
      split at h
      next hg =>
        split at h <;> cases h
        exact .silent (by simp)
      next => cases h
  | stop g ℓ =>
      simp only [step] at h
      split at h
      next hg =>
        cases h
        exact .stop hg
      next => cases h
  | go g => exact steps_of_go h
  | loop ℓ l =>
      simp only [step, loopControl] at h
      split at h
      next => cases h
      next u hd =>
        split at h
        next hc =>
          obtain ⟨p, hp, rfl⟩ := Option.map_eq_some_iff.mp h
          exact .loop hd hc hp
        next => cases h
  | op ℓ a =>
      simp only [step, perform] at h
      split at h
      next => cases h
      next o k ho =>
        obtain ⟨⟨r, work⟩, hact, h⟩ := Option.bind_eq_some_iff.mp h
        obtain ⟨p, hp, rfl⟩ := Option.map_eq_some_iff.mp h
        exact .op ho hact hp

end Step

end Gev.Server.Interleaving
