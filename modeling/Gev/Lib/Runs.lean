import Mathlib.Logic.Basic

namespace Gev.Lib.Runs

variable {S L : Type} {step : S → L → Option S}

/-- A run of a labelled machine; a label that is not enabled ends it in none. -/
def run (step : S → L → Option S) (s : S) : List L → Option S
  | [] => some s
  | l :: ls => (step s l).bind (fun t => run step t ls)

/-- Every step of the run is taken in a state that meets the condition. -/
def Meets (step : S → L → Option S) (ok : S → L → Prop) : S → List L → Prop
  | _, [] => True
  | s, l :: ls => ok s l ∧ ∀ t, step s l = some t → Meets step ok t ls

theorem run_cons {s u : S} {l : L} {ls : List L} (h : run step s (l :: ls) = some u) :
    ∃ t, step s l = some t ∧ run step t ls = some u := Option.bind_eq_some_iff.mp h

theorem run_append {s t : S} {ks : List L} (h : run step s ks = some t) (ls : List L) :
    run step s (ks ++ ls) = run step t ls := by
  induction ks generalizing s with
  | nil =>
      cases h
      rfl
  | cons k ks ih =>
      obtain ⟨v, hv, hrest⟩ := run_cons h
      rw [List.cons_append, run, hv]
      exact ih hrest

/-- A condition that keeps an invariant and, where it holds, gives another condition. -/
theorem Meets.imp {ok ok' : S → L → Prop} {I : S → Prop} (hI : ∀ s l t, I s → ok s l → step s l = some t → I t)
    (himp : ∀ s l, I s → ok s l → ok' s l) {s : S} {ls : List L} (hs : I s) (h : Meets step ok s ls) :
    Meets step ok' s ls := by
  induction ls generalizing s with
  | nil => trivial
  | cons l ls ih => exact ⟨himp s l hs h.1, fun t ht => ih (hI s l t hs h.1 ht) (h.2 t ht)⟩

theorem Meets.mono {ok ok' : S → L → Prop} (hok : ∀ s l, ok s l → ok' s l) {s : S} {ls : List L}
    (h : Meets step ok s ls) : Meets step ok' s ls :=
  h.imp (I := fun _ => True) (fun _ _ _ _ _ _ => trivial) (fun s l _ => hok s l) trivial

theorem Meets.append {ok : S → L → Prop} {s t : S} {ks ls : List L} (h : run step s ks = some t)
    (hks : Meets step ok s ks) (hls : Meets step ok t ls) : Meets step ok s (ks ++ ls) := by
  induction ks generalizing s with
  | nil => exact Option.some.inj h ▸ hls
  | cons k ks ih =>
      obtain ⟨v, hv, hrest⟩ := run_cons h
      refine ⟨hks.1, ?_⟩
      intro w hw
      rw [hv] at hw
      cases hw
      exact ih hrest (hks.2 v hv)

/-- An invariant kept by the steps that meet a condition holds at the end of
every run whose steps all meet it. -/
theorem run_invariant_meets {ok : S → L → Prop} {I : S → Prop}
    (hstep : ∀ s l t, I s → ok s l → step s l = some t → I t) {s t : S} {ls : List L}
    (hs : I s) (hok : Meets step ok s ls) (h : run step s ls = some t) : I t := by
  induction ls generalizing s with
  | nil => exact Option.some.inj h ▸ hs
  | cons l ls ih =>
      obtain ⟨u, hu, hrest⟩ := run_cons h
      exact ih (hstep s l u hs hok.1 hu) (hok.2 u hu) hrest

/-- Two conditions that agree on every step from a state with an invariant agree on runs, where the second condition may
be used to keep the invariant. -/
theorem meets_congr {ok ok' : S → L → Prop} {I : S → Prop} (hI : ∀ s l t, I s → ok' s l → step s l = some t → I t)
    (hiff : ∀ s l t, I s → step s l = some t → (ok s l ↔ ok' s l)) {s u : S} {ls : List L} (hs : I s)
    (h : run step s ls = some u) : Meets step ok s ls ↔ Meets step ok' s ls := by
  induction ls generalizing s with
  | nil => exact Iff.rfl
  | cons l ls ih =>
      obtain ⟨t, ht, hrest⟩ := run_cons h
      have hlater : ok' s l →
          ((∀ v, step s l = some v → Meets step ok v ls) ↔ ∀ v, step s l = some v → Meets step ok' v ls) := by
        intro hok
        simp only [ht, Option.some.injEq, forall_eq']
        exact ih (hI s l t hs hok ht) hrest
      simp only [Meets, hiff s l t hs ht]
      exact and_congr_right hlater

/-- If a property that holds is kept by exactly the steps that meet a condition, then it holds in every state of a run
if and only if all steps of the run meet the condition. -/
theorem visited_iff_meets {ok : S → L → Prop} {P : S → Prop}
    (hstep : ∀ s l t, P s → step s l = some t → (P t ↔ ok s l)) {s u : S} {ls : List L} (hs : P s)
    (h : run step s ls = some u) :
    (∀ ks t, ks <+: ls → run step s ks = some t → P t) ↔ Meets step ok s ls := by
  induction ls generalizing s with
  | nil =>
      refine iff_of_true ?_ trivial
      intro ks t hks ht
      rw [List.prefix_nil.mp hks] at ht
      exact Option.some.inj ht ▸ hs
  | cons l ls ih =>
      obtain ⟨v, hv, hrest⟩ := run_cons h
      constructor
      · intro hvisit
        have hPv : P v := hvisit [l] v ⟨ls, rfl⟩ (by simp [run, hv])
        refine ⟨(hstep s l v hs hv).mp hPv, ?_⟩
        intro t ht
        rw [hv] at ht
        cases ht
        apply (ih hPv hrest).mp
        intro ks t hks ht
        refine hvisit (l :: ks) t ((List.prefix_cons_inj l).mpr hks) ?_
        rw [run, hv]
        exact ht
      · rintro ⟨hok, hmeets⟩ ks t hks ht
        cases ks with
        | nil => exact Option.some.inj ht ▸ hs
        | cons k ks =>
            obtain ⟨rfl, hle⟩ := List.cons_prefix_cons.mp hks
            obtain ⟨w, hw, ht⟩ := run_cons ht
            rw [hv] at hw
            cases hw
            exact (ih ((hstep s k v hs hv).mpr hok) hrest).mpr (hmeets v hv) ks t hle ht

def check (step : S → L → Option S) (ok : S → L → Prop) [∀ s l, Decidable (ok s l)] : S → List L → Bool
  | _, [] => true
  | s, l :: ls => decide (ok s l) && (step s l).all (fun t => check step ok t ls)

theorem meets_of_check {ok : S → L → Prop} [∀ s l, Decidable (ok s l)] {s : S} {ls : List L}
    (h : check step ok s ls = true) : Meets step ok s ls := by
  induction ls generalizing s with
  | nil => trivial
  | cons l ls ih =>
      obtain ⟨hok, hrest⟩ := (Bool.and_eq_true _ _).mp h
      refine ⟨of_decide_eq_true hok, ?_⟩
      intro t ht
      rw [ht] at hrest
      exact ih hrest

theorem meets_trivial (s : S) (ls : List L) : Meets step (fun _ _ => True) s ls := by
  induction ls generalizing s with
  | nil => trivial
  | cons l ls ih => exact ⟨trivial, fun t _ => ih t⟩

theorem run_invariant {I : S → Prop} (hstep : ∀ s l t, I s → step s l = some t → I t)
    {s t : S} {ls : List L} (hs : I s) (h : run step s ls = some t) : I t :=
  run_invariant_meets (fun s l t hI _ => hstep s l t hI) hs (meets_trivial s ls) h

/-- An invariant of the state and of the labels so far. -/
theorem run_invariant_past {I : List L → S → Prop}
    (hstep : ∀ past s l t, I past s → step s l = some t → I (past ++ [l]) t) {s t : S} {ls : List L} (hs : I [] s)
    (h : run step s ls = some t) : I ls t := by
  have hall : ∀ (ls past : List L) (s : S), I past s → run step s ls = some t → I (past ++ ls) t := by
    intro ls
    induction ls with
    | nil =>
        intro past s hI hrun
        rw [List.append_nil]
        exact Option.some.inj hrun ▸ hI
    | cons l ls ih =>
        intro past s hI hrun
        obtain ⟨u, hu, hrest⟩ := run_cons hrun
        rw [List.append_cons]
        exact ih _ u (hstep past s l u hI hu) hrest
  exact hall ls [] s hs h

def logged {E : Type} (step : S → L → Option S) (note : S → L → List E) : S → List L → List E
  | _, [] => []
  | s, l :: ls => note s l ++ ((step s l).elim [] fun t => logged step note t ls)

/-- An invariant of the state and of what has been noted down so far. -/
theorem run_invariant_logged {E : Type} {note : S → L → List E} {I : S → List E → Prop}
    (hstep : ∀ s l t log, I s log → step s l = some t → I t (log ++ note s l)) {s t : S} {ls : List L} (hs : I s [])
    (h : run step s ls = some t) : I t (logged step note s ls) := by
  have hall : ∀ (ls : List L) (s : S) (log : List E), I s log → run step s ls = some t →
      I t (log ++ logged step note s ls) := by
    intro ls
    induction ls with
    | nil =>
        intro s log hI hrun
        cases hrun
        rwa [logged, List.append_nil]
    | cons l ls ih =>
        intro s log hI hrun
        obtain ⟨u, hu, hrest⟩ := run_cons hrun
        rw [logged, hu, ← List.append_assoc]
        exact ih u _ (hstep s l u log hI hu) hrest
  exact hall ls s [] hs h

/-- If every step is matched by some steps of another machine, so is every run, step by step. -/
theorem run_simulates {T M : Type} {step' : T → M → Option T} {R : S → T → Prop}
    (hsim : ∀ s l u t, R s t → step s l = some u → ∃ ms v, run step' t ms = some v ∧ R u v) {s u : S} {t : T}
    {ls : List L} (hR : R s t) (h : run step s ls = some u) :
    ∃ mss : List (List M), mss.length = ls.length ∧ ∀ n ≤ ls.length,
      ∃ x y, run step s (ls.take n) = some x ∧ run step' t (mss.take n).flatten = some y ∧ R x y := by
  induction ls generalizing s t with
  | nil =>
      refine ⟨[], rfl, ?_⟩
      intro n _
      rw [List.take_nil]
      exact ⟨s, t, rfl, by simp [run], hR⟩
  | cons l ls ih =>
      obtain ⟨s', hs', hrest⟩ := run_cons h
      obtain ⟨ms, t', hms, hR'⟩ := hsim s l s' t hR hs'
      obtain ⟨mss, hlength, hall⟩ := ih hR' hrest
      refine ⟨ms :: mss, by simp [hlength], ?_⟩
      intro n hn
      cases n with
      | zero => exact ⟨s, t, rfl, rfl, hR⟩
      | succ n =>
          obtain ⟨x, y, hx, hy, hxy⟩ := hall n (by simpa using hn)
          refine ⟨x, y, ?_, ?_, hxy⟩
          · rw [List.take_succ_cons, run, hs']
            exact hx
          · rw [List.take_succ_cons, List.flatten_cons]
            exact (run_append hms _).trans hy

end Gev.Lib.Runs
