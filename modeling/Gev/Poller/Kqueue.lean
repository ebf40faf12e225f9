import Gev.Connection.Code
import Gev.Lib.Runs

namespace Gev.Poller.Kqueue

open Lib.Runs Connection.State Connection.Code

def EventNone : UInt32 := 0

inductive Filter
  | read
  | write
  deriving DecidableEq

inductive Flags
  | add
  | delete
  deriving DecidableEq

structure Kevent where
  ident : Fd
  flags : Flags
  filter : Filter
  deriving DecidableEq

inductive Error
  | load
  | kevent
  deriving DecidableEq

structure State where
  sockets : Fd → Option UInt32
  kernel : Fd → Filter → Bool

def create : State := ⟨fun _ => none, fun _ _ => false⟩

def change (k : Fd → Filter → Bool) (e : Kevent) : Fd → Filter → Bool :=
  Function.update k e.ident (Function.update (k e.ident) e.filter (e.flags = .add))

/-- A change list is applied or rejected as a whole. -/
def kevent (s : State) (ok : Bool) (changes : List Kevent) : Option Error × State :=
  if ok then (none, { s with kernel := changes.foldl change s.kernel }) else (some .kevent, s)

def bit : Filter → UInt32
  | .read => EventRead
  | .write => EventWrite

def kEvent (old new : UInt32) (fd : Fd) (f : Filter) : List Kevent :=
  if new &&& bit f ≠ 0 then
    if old &&& bit f = 0 then [⟨fd, .add, f⟩] else []
  else
    if old &&& bit f ≠ 0 then [⟨fd, .delete, f⟩] else []

def kEvents (old new : UInt32) (fd : Fd) : List Kevent := kEvent old new fd .read ++ kEvent old new fd .write

def addRead (s : State) (fd : Fd) (ok : Bool) : Option Error × State :=
  let s := { s with sockets := Function.update s.sockets fd (some EventRead) }
  kevent s ok (kEvents EventNone EventRead fd)

def del (s : State) (fd : Fd) (ok : Bool) : Option Error × State := match s.sockets fd with
  | none => (some .load, s)
  | some v =>
      let (err, s) := kevent s ok (kEvents v EventNone fd)
      (err, if err ≠ none then { s with sockets := Function.update s.sockets fd none } else s)

/-- EnableReadWrite and EnableRead differ in the events they ask for. -/
def enable (newEvents : UInt32) (s : State) (fd : Fd) (ok : Bool) : Option Error × State := match s.sockets fd with
  | none => (some .load, s)
  | some oldEvents =>
      let (err, s) := kevent s ok (kEvents oldEvents newEvents fd)
      (err, if err ≠ none then { s with sockets := Function.update s.sockets fd (some newEvents) } else s)

def enableReadWrite : State → Fd → Bool → Option Error × State := enable (EventWrite ||| EventRead)

def enableRead : State → Fd → Bool → Option Error × State := enable EventRead

inductive Call
  | addRead (fd : Fd)
  | del (fd : Fd)
  | enableReadWrite (fd : Fd)
  | enableRead (fd : Fd)

/-- A call together with the kernel's answer to its change list. -/
def step (s : State) : Call × Bool → Option State
  | (.addRead fd, ok) => some (addRead s fd ok).2
  | (.del fd, ok) => some (del s fd ok).2
  | (.enableReadWrite fd, ok) => some (enableReadWrite s fd ok).2
  | (.enableRead fd, ok) => some (enableRead s fd ok).2

theorem run_defined (s : State) (ls : List (Call × Bool)) : ∃ t, run step s ls = some t := by
  induction ls generalizing s with
  | nil => exact ⟨s, rfl⟩
  | cons l ls ih =>
      obtain ⟨call, ok⟩ := l
      cases call <;> exact ih _

def asks (events : UInt32) (f : Filter) : Bool := events &&& bit f ≠ 0

def remembered (s : State) (fd : Fd) : Filter → Bool := asks ((s.sockets fd).getD EventNone)

def Tracks (s : State) : Prop := ∀ fd, remembered s fd = s.kernel fd

theorem change_kEvent (old new : UInt32) (fd : Fd) (f : Filter) (k : Fd → Filter → Bool) (g : Fd) (h : Filter) :
    (kEvent old new fd f).foldl change k g h =
      if g = fd ∧ h = f ∧ asks old f ≠ asks new f then asks new f else k g h := by
  by_cases hnew : new &&& bit f = 0 <;> by_cases hold : old &&& bit f = 0 <;>
    simp [kEvent, asks, hnew, hold, change, Function.update_apply] <;> grind

/-- A change list from what is registered to what is asked for leads there. -/
theorem change_kEvents (old new : UInt32) (fd : Fd) (k : Fd → Filter → Bool) (hk : k fd = asks old) :
    (kEvents old new fd).foldl change k = Function.update k fd (asks new) := by
  funext g h
  rw [kEvents, List.foldl_append, change_kEvent, change_kEvent]
  by_cases hg : g = fd
  · subst hg
    cases h <;> simp [hk]
  · simp [hg]

theorem tracks_iff_of_frame {s t : State} (hs : Tracks s) (fd : Fd)
    (h : ∀ g, g ≠ fd → t.sockets g = s.sockets g ∧ t.kernel g = s.kernel g) :
    Tracks t ↔ remembered t fd = t.kernel fd := by
  constructor
  · exact fun ht => ht fd
  · intro hfd g
    by_cases hg : g = fd
    · rwa [hg]
    · rw [remembered, (h g hg).1, (h g hg).2]
      exact hs g

/-- The kernel's answer decides between two ways to lose track: an accepted change is not remembered, and a rejected one
is. -/
theorem tracks_kevent_iff {s : State} (hs : Tracks s) {fd : Fd} {old : UInt32} (hold : s.sockets fd = some old)
    (new : UInt32) (stored : Option UInt32) (hnew : stored.getD EventNone = new) (ok : Bool) :
    Tracks (if (kevent s ok (kEvents old new fd)).1 ≠ none then
        { (kevent s ok (kEvents old new fd)).2 with
          sockets := Function.update (kevent s ok (kEvents old new fd)).2.sockets fd stored }
      else (kevent s ok (kEvents old new fd)).2) ↔ asks old = asks new := by
  have hk : s.kernel fd = asks old := by rw [← hs fd, remembered, hold, Option.getD_some]
  cases ok with
  | true =>
      simp only [kevent, if_true, ne_eq, not_true_eq_false, if_false, change_kEvents old new fd s.kernel hk]
      rw [tracks_iff_of_frame hs fd (by simp +contextual), remembered, hold]
      simp
  | false =>
      simp only [kevent, Bool.false_eq_true, if_false, ne_eq, reduceCtorEq, not_false_eq_true, if_true]
      rw [tracks_iff_of_frame hs fd (by simp +contextual), remembered, hk]
      simp [hnew, eq_comm]

theorem tracks_addRead_iff {s : State} (hs : Tracks s) (fd : Fd) (ok : Bool) :
    Tracks (addRead s fd ok).2 ↔ if ok then s.kernel fd .write = false else remembered s fd = asks EventRead := by
  cases ok with
  | true =>
      have hchange : (kEvents EventNone EventRead fd).foldl change s.kernel =
          Function.update s.kernel fd (Function.update (s.kernel fd) .read true) := rfl
      simp only [addRead, kevent, if_true, hchange]
      rw [tracks_iff_of_frame hs fd (by simp +contextual), remembered]
      simp only [Function.update_self, Option.getD_some]
      constructor
      · intro h
        exact (congrFun h .write).symm
      · intro h
        funext f
        cases f with
        | read => rfl
        | write => exact h.symm
  | false =>
      simp only [addRead, kevent, Bool.false_eq_true, if_false]
      rw [tracks_iff_of_frame hs fd (by simp +contextual), remembered, ← hs fd]
      simp [eq_comm]

/-- The calls that keep what is remembered right. An accepted AddRead must not find the write filter registered, a
rejected one must find what it asked for; the other calls must not change anything. -/
def Harmless (s : State) : Call × Bool → Prop
  | (.addRead fd, ok) => if ok then s.kernel fd .write = false else remembered s fd = asks EventRead
  | (.del fd, _) => s.sockets fd = none ∨ remembered s fd = asks EventNone
  | (.enableReadWrite fd, _) => s.sockets fd = none ∨ remembered s fd = asks (EventWrite ||| EventRead)
  | (.enableRead fd, _) => s.sockets fd = none ∨ remembered s fd = asks EventRead

theorem tracks_enable_iff {s : State} (hs : Tracks s) (new : UInt32) (fd : Fd) (ok : Bool) :
    Tracks (enable new s fd ok).2 ↔ s.sockets fd = none ∨ remembered s fd = asks new := by
  cases hold : s.sockets fd with
  | none => simpa [enable, hold] using hs
  | some old =>
      simp only [enable, hold, tracks_kevent_iff hs hold new (some new) rfl ok, remembered, Option.getD_some,
        reduceCtorEq, false_or]

theorem tracks_del_iff {s : State} (hs : Tracks s) (fd : Fd) (ok : Bool) :
    Tracks (del s fd ok).2 ↔ s.sockets fd = none ∨ remembered s fd = asks EventNone := by
  cases hold : s.sockets fd with
  | none => simpa [del, hold] using hs
  | some old =>
      simp only [del, hold, tracks_kevent_iff hs hold EventNone none rfl ok, remembered, Option.getD_some,
        reduceCtorEq, false_or]

theorem tracks_create : Tracks create := by
  intro fd
  funext f
  simp [remembered, create, asks, EventNone]

theorem step_tracks_iff (s : State) (l : Call × Bool) (t : State) (hs : Tracks s) (h : step s l = some t) :
    Tracks t ↔ Harmless s l := by
  obtain ⟨call, ok⟩ := l
  cases call with
  | addRead fd =>
      cases h
      exact tracks_addRead_iff hs fd ok
  | del fd =>
      cases h
      exact tracks_del_iff hs fd ok
  | enableReadWrite fd | enableRead fd =>
      cases h
      exact tracks_enable_iff hs _ fd ok

/-- Throughout a run the poller remembers exactly the registered filters of every descriptor, if and only if every call
of the run is harmless. -/
theorem registration_tracking (ls : List (Call × Bool)) :
    (∀ ks s, ks <+: ls → run step create ks = some s → ∀ fd f, remembered s fd f = s.kernel fd f) ↔
      Meets step Harmless create ls := by
  obtain ⟨s, hs⟩ := run_defined create ls
  have htracks : ∀ s, (∀ fd f, remembered s fd f = s.kernel fd f) ↔ Tracks s := by
    intro s
    simp only [Tracks, funext_iff]
  simp only [htracks]
  exact visited_iff_meets step_tracks_iff tracks_create hs

/-- After an accepted EnableReadWrite the write filter is registered and not remembered, and EnableRead leaves it. -/
theorem enableRead_keeps_write : ∃ s t, run step create [(.addRead 5, true), (.enableReadWrite 5, true)] = some s ∧
    s.sockets 5 = some EventRead ∧ remembered s 5 .write = false ∧ s.kernel 5 .write = true ∧
    step s (.enableRead 5, true) = some t ∧ kEvents EventRead EventRead 5 = [] ∧ t.kernel 5 .write = true :=
  ⟨_, _, rfl, rfl, rfl, rfl, rfl, rfl, rfl⟩

end Gev.Poller.Kqueue
