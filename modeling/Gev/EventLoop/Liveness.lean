import Gev.EventLoop.Wakeup
import Gev.EventLoop.TaskQueue
import Gev.Lib.Traces
import Mathlib.Data.Prod.Lex

namespace Gev.EventLoop.Liveness

open Machine Lib.Runs Lib.Slices Lib.Traces

variable {G τ : Type}

def Own : Label G τ → Prop
  | .append _ _ | .compareAndSwap _ | .wake _ | .closeSet | .closeWake => False
  | _ => True

def Polls (l : Label G τ) : Prop := ∃ events, l = .poll events

def Noticed : Cursor → Prop
  | .batch rest wake => wake = true ∨ .eventFd ∈ rest
  | .setNeedWake | .swap => True
  | _ => False

def remaining : Cursor → Nat
  | .run i length => length - i
  | _ => 0

def taken (s : State G τ) : Nat := s.executed.length + remaining s.cursor

def distance : Cursor → Nat ×ₗ Nat
  | .batch rest _ => toLex (4, rest.length)
  | .setNeedWake => toLex (3, 1)
  | .swap => toLex (3, 0)
  | .run i length => toLex (2, length - i)
  | .test => toLex (1, 0)
  | .start => toLex (0, 1)
  | .wait | .exited => toLex (0, 0)

variable [DecidableEq G] [Inhabited τ] {grow : Nat → Nat → Nat} {size : Nat}

/-- The loop goroutine keeps going, every call of QueueInLoop returns, a descriptor that stays readable is reported if
the loop keeps asking, and nobody closes the poller. -/
structure Fair (T : Trace (step grow) (init size : State G τ)) : Prop where
  own : T.Recurs Own
  returns : ∀ n g, ∃ m, n ≤ m ∧ (T.state m).callers g = .outside
  reported : T.Recurs Polls → ∀ n, (∀ m, n ≤ m → 0 < (T.state m).eventFd) →
    ∃ m, n ≤ m ∧ ∃ events, T.label m = .poll events ∧ .eventFd ∈ events
  unclosed : ∀ n, T.label n ≠ .closeSet

section Steps

variable {s t : State G τ} {l : Label G τ}

theorem other_of_step (h : step grow s l = some t) (hl : ¬ Own l) :
    t.cursor = s.cursor ∧ t.executed = s.executed ∧ s.eventFd ≤ t.eventFd := by
  cases steps_of_step h with
  | append | swapped | notSwapped | closeSet => exact ⟨rfl, rfl, Nat.le_refl _⟩
  | wake | closeWake => exact ⟨rfl, rfl, Nat.le_succ _⟩
  | loop _ hm => cases hm <;> exact absurd trivial hl

theorem moves_of_own (h : step grow s l = some t) (hl : Own l) : Moves s l t := by
  cases steps_of_step h with
  | append | swapped | notSwapped | wake | closeSet | closeWake => cases hl
  | loop _ hm => exact hm

omit [DecidableEq G] [Inhabited τ] in
theorem length_batch (h : TaskQueue.Invariant s) : (TaskQueue.batch s).length = remaining s.cursor := by
  cases hc : s.cursor with
  | run i length =>
      rw [TaskQueue.batch, hc, List.length_drop, length_contents h.validR, remaining, h.bound i length hc]
  | start | wait | batch | setNeedWake | swap | test | exited =>
      rw [TaskQueue.batch_eq_nil (by simp [hc])]
      rfl

omit [DecidableEq G] [Inhabited τ] in
theorem length_appended (h : TaskQueue.Invariant s) : s.appended.length = taken s + s.taskQueueW.len := by
  have horder := congrArg List.length h.order
  rw [List.length_append, List.length_append, length_batch h, TaskQueue.queued, length_contents h.validW,
    TaskQueue.tasks, List.length_map] at horder
  exact horder.symm

/-- The event descriptor goes back to zero only when it is read. -/
theorem eventFd_of_step (h : step grow s l = some t) (hs : 0 < s.eventFd) (hn : ¬ Noticed s.cursor) :
    0 < t.eventFd := by
  by_cases hl : Own l
  · cases moves_of_own h hl with
    | readEventFd hc => exact absurd (by simp [hc, Noticed]) hn
    | enter | poll | socket | endBatch | setNeedWake | swap | runTask | endRun | test => exact hs
  · exact Nat.lt_of_lt_of_le hs (other_of_step h hl).2.2

theorem waking_of_step (h : step grow s l = some t) {g : Option G} (hg : s.callers g = .waking) :
    t.callers g = .waking ∨ 0 < t.eventFd := by
  cases steps_of_step h with
  | @append g' u hg' | @swapped g' hg' | @notSwapped g' hg' =>
      left
      have hne : g ≠ g' := by
        rintro rfl
        rw [hg] at hg'
        cases hg'
      simpa [State.append, State.setCaller, hne] using hg
  | wake => exact .inr (Nat.succ_pos _)
  | closeSet | closeWake => exact .inl hg
  | loop _ hm => cases hm <;> exact .inl hg

theorem appended_of_step (h : step grow s l = some t) {g : Option G} (hg : s.callers g = .appended)
    (hn : s.needWake = true) : t.callers g = .appended ∨ t.callers g = .waking := by
  cases steps_of_step h with
  | @append g' u hg' | @wake g' hg' =>
      left
      have hne : g ≠ g' := by
        rintro rfl
        rw [hg] at hg'
        cases hg'
      simpa [State.append, State.setCaller, hne] using hg
  | @swapped g' hg' =>
      by_cases hne : g = g'
      · subst hne
        exact .inr (by simp [State.setCaller])
      · exact .inl (by simpa [State.setCaller, hne] using hg)
  | notSwapped _ hn' =>
      rw [hn] at hn'
      cases hn'
  | closeSet | closeWake => exact .inl hg
  | loop _ hm => cases hm <;> exact .inl hg

omit [DecidableEq G] [Inhabited τ] in
theorem distance_of_moves (h : Moves s l t) (hs : s.cursor ≠ .wait) (hr : s.cursor = .start ∨ s.running = true) :
    t.cursor = .wait ∨ t.cursor ≠ .wait ∧ distance t.cursor < distance s.cursor := by
  cases h with
  | enter => exact .inl rfl
  | poll hc => exact absurd hc hs
  | socket hc | readEventFd hc | setNeedWake hc | swap hc | endRun hc =>
      right
      simp [hc, distance, Prod.Lex.toLex_lt_toLex]
  | @endBatch wake hc =>
      cases wake with
      | true =>
          right
          simp [hc, distance, Prod.Lex.toLex_lt_toLex]
      | false => exact .inl rfl
  | runTask hc hi =>
      right
      simp only [hc, distance, Prod.Lex.toLex_lt_toLex, ne_eq, reduceCtorEq, not_false_eq_true, true_and]
      omega
  | test hc =>
      rcases hr with hstart | hrunning
      · rw [hc] at hstart
        cases hstart
      · exact .inl (by simp [hrunning])

omit [DecidableEq G] [Inhabited τ] in
theorem taken_of_moves (h : Moves s l t) {k : Nat} (hk : k < taken s) :
    k < t.executed.length ∨ k < taken t ∧ remaining t.cursor < remaining s.cursor := by
  cases h with
  | enter hc | poll hc | socket hc | readEventFd hc | endBatch hc | setNeedWake hc | swap hc | test hc =>
      left
      simpa [taken, hc, remaining] using hk
  | endRun hc hi =>
      left
      simpa [taken, hc, remaining, Nat.sub_eq_zero_of_le hi] using hk
  | runTask hc hi =>
      right
      simp only [taken, hc, remaining, List.length_append, List.length_singleton] at hk ⊢
      omega

omit [DecidableEq G] [Inhabited τ] in
theorem noticed_of_moves (h : Moves s l t) (hq : TaskQueue.Invariant s) (hn : Noticed s.cursor) :
    taken t = s.appended.length ∨
      Noticed t.cursor ∧ t.appended = s.appended ∧ distance t.cursor < distance s.cursor := by
  cases h with
  | enter hc | poll hc | runTask hc | endRun hc | test hc =>
      rw [hc] at hn
      cases hn
  | socket hc =>
      right
      rw [hc] at hn
      refine ⟨?_, rfl, ?_⟩
      · simpa [Noticed] using hn
      · simp [hc, distance, Prod.Lex.toLex_lt_toLex]
  | readEventFd hc =>
      right
      exact ⟨.inl rfl, rfl, by simp [hc, distance, Prod.Lex.toLex_lt_toLex]⟩
  | @endBatch wake hc =>
      right
      have hw : wake = true := by simpa [hc, Noticed] using hn
      subst hw
      exact ⟨trivial, rfl, by simp [hc, distance, Prod.Lex.toLex_lt_toLex]⟩
  | setNeedWake hc =>
      right
      exact ⟨trivial, rfl, by simp [hc, distance, Prod.Lex.toLex_lt_toLex]⟩
  | swap hc =>
      left
      rw [length_appended hq]
      simp [taken, hc, remaining]

theorem appended_mono (h : step grow s l = some t) : s.appended <+: t.appended := by
  cases steps_of_step h with
  | append => exact List.prefix_append _ _
  | swapped | notSwapped | wake | closeSet | closeWake => exact List.prefix_refl _
  | loop _ hm => cases hm <;> exact List.prefix_refl _

end Steps

section Traces

variable {T : Trace (step grow) (init size : State G τ)}

theorem taskQueue_invariant (n : Nat) : TaskQueue.Invariant (T.state n) :=
  T.invariant (TaskQueue.invariant_init size) (TaskQueue.step_invariant grow) n

theorem wakeup_invariant (n : Nat) : Wakeup.Invariant (T.state n) :=
  T.invariant (Wakeup.invariant_init size) (Wakeup.step_invariant grow) n

theorem Fair.running (hfair : Fair T) (n : Nat) :
    (T.state n).cursor = .start ∨ (T.state n).running = true ∧ (T.state n).cursor ≠ .exited := by
  induction n with
  | zero =>
      rw [T.first]
      exact .inl rfl
  | succ n ih =>
      by_cases hexited : (T.state (n + 1)).cursor = .exited
      · rcases exited_of_step (T.next n) hexited with hold | ⟨-, htest, hstopped⟩
        · rcases ih with hstart | ⟨-, hne⟩
          · rw [hstart] at hold
            cases hold
          · exact absurd hold hne
        · rcases ih with hstart | ⟨hrunning, -⟩
          · rw [hstart] at htest
            cases htest
          · rw [hrunning] at hstopped
            cases hstopped
      · cases hr : (T.state (n + 1)).running with
        | true => exact .inr ⟨rfl, hexited⟩
        | false =>
            rcases running_of_step (T.next n) hr with hclose | ⟨hold, hstart⟩
            · exact absurd hclose (hfair.unclosed n)
            · left
              rcases ih with hs | ⟨hrunning, -⟩
              · exact hstart hs
              · rw [hrunning] at hold
                cases hold

/-- The loop comes back to its wait again and again. -/
theorem Fair.waits (hfair : Fair T) (n : Nat) : ∃ m, n ≤ m ∧ (T.state m).cursor = .wait := by
  have hleads : T.LeadsTo (fun s => s.cursor ≠ .wait) (fun s => s.cursor = .wait) := by
    refine Trace.leadsTo_of_rank (fun s => distance s.cursor) hfair.own ?_ ?_
    · intro n hne hl
      have hsame := (other_of_step (T.next n) hl).1
      exact ⟨hsame ▸ hne, congrArg distance hsame⟩
    · intro n hne hl
      exact distance_of_moves (moves_of_own (T.next n) hl) hne ((hfair.running n).imp_right And.left)
  by_cases hw : (T.state n).cursor = .wait
  · exact ⟨n, Nat.le_refl n, hw⟩
  · exact hleads n hw

theorem Fair.polls (hfair : Fair T) : T.Recurs Polls := by
  intro n
  obtain ⟨m, hnm, hwait⟩ := hfair.waits n
  obtain ⟨k, hmk, hown, hother⟩ := hfair.own.first m
  have hk : (T.state k).cursor = .wait := by
    apply Trace.stays (P := fun s : State G τ => s.cursor = .wait) hmk hwait
    intro j hj hjk hw
    exact (other_of_step (T.next j) (hother j hj hjk)).1.trans hw
  refine ⟨k, hnm.trans hmk, ?_⟩
  have hm := moves_of_own (T.next k) hown
  generalize T.label k = l at hm ⊢
  generalize T.state (k + 1) = t at hm
  cases hm with
  | poll => exact ⟨_, rfl⟩
  | enter hc | socket hc | readEventFd hc | endBatch hc | setNeedWake hc | swap hc | runTask hc | endRun hc | test hc =>
      rw [hk] at hc
      cases hc

/-- What is in the running batch is run. -/
theorem Fair.runs (hfair : Fair T) (k : Nat) : T.LeadsTo (fun s => k < taken s) (fun s => k < s.executed.length) := by
  refine Trace.leadsTo_of_rank (fun s => remaining s.cursor) hfair.own ?_ ?_
  · intro n hk hl
    obtain ⟨hcursor, hexecuted, -⟩ := other_of_step (T.next n) hl
    refine ⟨?_, congrArg remaining hcursor⟩
    rwa [taken, hcursor, hexecuted]
  · intro n hk hl
    exact taken_of_moves (moves_of_own (T.next n) hl) hk

/-- A loop that has noticed its event descriptor takes what is queued. -/
theorem Fair.takes (hfair : Fair T) (k : Nat) :
    T.LeadsTo (fun s => Noticed s.cursor ∧ k < s.appended.length) (fun s => k < taken s) := by
  refine Trace.leadsTo_of_rank (fun s => distance s.cursor) hfair.own ?_ ?_
  · rintro n ⟨hn, hk⟩ hl
    have hcursor := (other_of_step (T.next n) hl).1
    exact ⟨⟨hcursor ▸ hn, Nat.lt_of_lt_of_le hk (appended_mono (T.next n)).length_le⟩, congrArg distance hcursor⟩
  · rintro n ⟨hn, hk⟩ hl
    rcases noticed_of_moves (moves_of_own (T.next n) hl) (taskQueue_invariant n) hn with htaken | ⟨hn', happ, hlt⟩
    · exact .inl (htaken ▸ hk)
    · exact .inr ⟨⟨hn', happ ▸ hk⟩, hlt⟩

/-- Whoever has lowered the flag of a loop that does not look at its event descriptor writes to it. -/
theorem Fair.readable (hfair : Fair T) {n : Nat} (hquiet : ∀ m, n ≤ m → ¬ Noticed (T.state m).cursor)
    (hqueue : ∀ m, n ≤ m → 0 < (T.state m).taskQueueW.len) : ∃ m, n ≤ m ∧ 0 < (T.state m).eventFd := by
  by_contra hnone
  have hzero : ∀ m, n ≤ m → (T.state m).eventFd = 0 := by
    intro m hm
    by_contra hne
    exact hnone ⟨m, hm, Nat.pos_of_ne_zero hne⟩
  have hbefore : ∀ m, n ≤ m → ¬ Wakeup.BeforeSwap (T.state m).cursor := by
    intro m hm hb
    apply hquiet m hm
    cases hc : (T.state m).cursor <;> simp_all [Wakeup.BeforeSwap, Noticed]
  have hwaking : ∀ m g, n ≤ m → (T.state m).callers g ≠ .waking := by
    intro m g hm hg
    obtain ⟨k, hk, hout⟩ := hfair.returns m g
    have hstill : (T.state k).callers g = .waking := by
      apply Trace.stays (P := fun s : State G τ => s.callers g = .waking) hk hg
      intro j hj _ hw
      have hj0 := hzero (j + 1) (by omega)
      exact (waking_of_step (T.next j) hw).resolve_right (by omega)
    rw [hout] at hstill
    cases hstill
  have hneed : ∀ m, n ≤ m → (T.state m).needWake = true := by
    intro m hm
    by_contra hf
    rcases (wakeup_invariant m).flag (eq_false_of_ne_true hf) with he | ⟨g, hg⟩ | hb
    · exact absurd (hzero m hm) (Nat.ne_of_gt he)
    · exact hwaking m g hm hg
    · exact hbefore m hm hb.beforeSwap
  rcases (wakeup_invariant n).queue (hqueue n (Nat.le_refl n)) with he | ⟨g, hg⟩ | hb
  · exact absurd (hzero n (Nat.le_refl n)) (Nat.ne_of_gt he)
  · have happended : (T.state n).callers g = .appended := by
      cases hc : (T.state n).callers g with
      | outside => exact absurd hc hg
      | appended => rfl
      | waking => exact absurd hc (hwaking n g (Nat.le_refl n))
    obtain ⟨k, hk, hout⟩ := hfair.returns n g
    have hstill : (T.state k).callers g = .appended := by
      apply Trace.stays (P := fun s : State G τ => s.callers g = .appended) hk happended
      intro j hj _ hw
      exact (appended_of_step (T.next j) hw (hneed j hj)).resolve_right (hwaking (j + 1) g (by omega))
    rw [hout] at hstill
    cases hstill
  · exact hbefore n (Nat.le_refl n) hb

theorem appended_stays {n m : Nat} (h : n ≤ m) : (T.state n).appended <+: (T.state m).appended := by
  apply Trace.stays (P := fun s : State G τ => (T.state n).appended <+: s.appended) h (List.prefix_refl _)
  intro k _ _ hk
  exact hk.trans (appended_mono (T.next k))

/-- Every task of the queue is fetched. -/
theorem Fair.fetches (hfair : Fair T) (k : Nat) :
    T.LeadsTo (fun s => k < s.appended.length) (fun s => k < taken s) := by
  intro n hk
  by_contra hnever
  have happended : ∀ m, n ≤ m → k < (T.state m).appended.length :=
    fun m hm => Nat.lt_of_lt_of_le hk (appended_stays hm).length_le
  have htaken : ∀ m, n ≤ m → taken (T.state m) ≤ k := by
    intro m hm
    by_contra hlt
    exact hnever ⟨m, hm, Nat.lt_of_not_le hlt⟩
  have hquiet : ∀ m, n ≤ m → ¬ Noticed (T.state m).cursor := by
    intro m hm hn
    obtain ⟨j, hj, hlt⟩ := hfair.takes k m ⟨hn, happended m hm⟩
    exact absurd (htaken j (hm.trans hj)) (Nat.not_le_of_lt hlt)
  have hqueue : ∀ m, n ≤ m → 0 < (T.state m).taskQueueW.len := by
    intro m hm
    have hlen := length_appended (taskQueue_invariant (T := T) m)
    have hlt := happended m hm
    have hle := htaken m hm
    omega
  obtain ⟨m, hm, hfd⟩ := hfair.readable hquiet hqueue
  have hstays : ∀ j, m ≤ j → 0 < (T.state j).eventFd := by
    intro j hj
    apply Trace.stays (P := fun s : State G τ => 0 < s.eventFd) hj hfd
    intro i hi _ hpos
    exact eventFd_of_step (T.next i) hpos (hquiet i (hm.trans hi))
  -- The descriptor stays readable, so a poll reports it and the loop cannot but notice.
  obtain ⟨j, hj, events, hl, hmem⟩ := hfair.reported hfair.polls m hstays
  have hnext := T.next j
  rw [hl] at hnext
  apply hquiet (j + 1) (by omega)
  generalize T.state (j + 1) = t at hnext ⊢
  cases moves_of_own hnext trivial with
  | poll => exact .inr hmem

end Traces

/-- Every queued task is run in the end, as the one that stands at its place in the order of the locked appends. -/
theorem queued_tasks_run (grow : Nat → Nat → Nat) (size : Nat) (T : Trace (step grow) (init size : State G τ))
    (hfair : Fair T) (n k : Nat) (g : Option G) (u : τ) (h : (T.state n).appended[k]? = some (g, u)) :
    ∃ m, n ≤ m ∧ (T.state m).executed[k]? = some u := by
  have hlen : k < (T.state n).appended.length := (List.getElem?_eq_some_iff.mp h).1
  obtain ⟨m, hm, hk⟩ := ((hfair.fetches k).trans (hfair.runs k)) n hlen
  obtain ⟨rest, hrest⟩ := appended_stays (T := T) hm
  refine ⟨m, hm, ?_⟩
  rw [TaskQueue.executed_get (taskQueue_invariant m) hk, ← hrest, List.getElem?_append_left hlen, h]
  rfl

section Sample

def served : List (Label Unit Nat) :=
  [.enter, .append (some ()) 7, .compareAndSwap (some ()), .wake (some ()), .poll [.eventFd], .event, .endBatch,
    .setNeedWake, .swap, .runTask, .endRun, .test]

def busy : List (Label Unit Nat) := [.poll [.socket 5 1], .event, .endBatch]

def settled : State Unit Nat := (run (step fun _ n => n) (init 1) served).getD (init 1)

theorem run_served : run (step fun _ n => n) (init 1) served = some settled := rfl

theorem run_busy : run (step fun _ n => n) settled busy = some settled := rfl

def busyTrace : Trace (step fun _ n => n) (init 1 : State Unit Nat) :=
  .lasso run_served run_busy (List.cons_ne_nil _ _) (List.cons_ne_nil _ _)

theorem busyTrace_settled (n : Nat) :
    ∃ m, n ≤ m ∧ busyTrace.state m = settled ∧ busyTrace.label m = .poll [.socket 5 1] := by
  obtain ⟨m, hm, he⟩ := Trace.lasso_returns run_served run_busy (List.cons_ne_nil _ _) (List.cons_ne_nil _ _) n
  refine ⟨m, hm, congrArg Prod.fst he, ?_⟩
  apply (List.head_eq_iff_head?_eq_some _).mpr
  rw [he]
  rfl

theorem fair_busyTrace : Fair busyTrace where
  own n := by
    obtain ⟨m, hm, -, hl⟩ := busyTrace_settled n
    exact ⟨m, hm, by rw [hl]; trivial⟩
  returns n g := by
    obtain ⟨m, hm, hs, -⟩ := busyTrace_settled n
    refine ⟨m, hm, ?_⟩
    rw [hs]
    cases g <;> rfl
  reported _ n hn := by
    obtain ⟨m, hm, hs, -⟩ := busyTrace_settled n
    have hpos := hn m hm
    rw [hs] at hpos
    exact absurd hpos (by decide)
  unclosed n hl := by
    have hmem : busyTrace.label n ∈ served ++ busy := Trace.lasso_labels n _ (List.head_mem _)
    rw [hl] at hmem
    simp [served, busy] at hmem

theorem queued_tasks_run_busy : (busyTrace.state 2).appended[0]? = some (some (), 7) ∧
    ∃ m, 2 ≤ m ∧ (busyTrace.state m).executed[0]? = some 7 :=
  ⟨rfl, queued_tasks_run (fun _ n => n) 1 busyTrace fair_busyTrace 2 0 (some ()) 7 rfl⟩

end Sample

end Gev.EventLoop.Liveness
