import Mathlib.Logic.Basic

namespace Gev.Lib.Atomic

/-- Straight-line code over atomic operations. The continuation of an
operation receives its result, so branches and calls are ordinary Lean terms
and the remaining code of a suspended thread is again a program. -/
inductive Program (Op : Type) (Res : Op → Type) (α : Type) : Type
  | done (a : α)
  | step (o : Op) (k : Res o → Program Op Res α)

variable {Op S α β γ : Type} {Res : Op → Type}

def Program.bind : Program Op Res α → (α → Program Op Res β) → Program Op Res β
  | .done a, f => f a
  | .step o k, f => .step o (fun r => (k r).bind f)

instance : Monad (Program Op Res) where
  pure := .done
  bind := Program.bind

def perform (o : Op) : Program Op Res (Res o) := .step o .done

@[simp] theorem pure_eq (a : α) : (pure a : Program Op Res α) = .done a := rfl

@[simp] theorem done_bind (a : α) (f : α → Program Op Res β) : (.done a >>= f) = f a := rfl

@[simp] theorem step_bind (o : Op) (k : Res o → Program Op Res α) (f : α → Program Op Res β) :
    (Program.step o k >>= f) = .step o (fun r => k r >>= f) := rfl

@[simp] theorem perform_bind (o : Op) (f : Res o → Program Op Res β) :
    (perform o >>= f) = .step o f := rfl

theorem bind_assoc (p : Program Op Res α) (f : α → Program Op Res β) (g : β → Program Op Res γ) :
    ((p >>= f) >>= g) = p >>= fun a => f a >>= g := by
  induction p with
  | done a => rfl
  | step o k ih => exact congrArg (Program.step o) (funext ih)

/-- The environment resolves an operation by a choice. A result of none says
that the operation cannot complete with that choice from that state. -/
structure Semantics (Op : Type) (Res : Op → Type) (S : Type) where
  Choice : Op → Type
  act : (o : Op) → Choice o → S → Option (Res o × S)

variable (M : Semantics Op Res S)

/-- Whatever the environment chooses, every operation is permitted in the
state it is performed in, and the postcondition holds at the end. Runs that
block or never end are covered up to the point they reach. -/
def Always (J : Op → S → Prop) (Q : α → S → Prop) : Program Op Res α → S → Prop
  | .done a, s => Q a s
  | .step o k, s => J o s ∧ ∀ ch r s', M.act o ch s = some (r, s') → Always J Q (k r) s'

/-- Complete executions. -/
inductive Executes : Program Op Res α → S → α → S → Prop
  | done (a : α) (s : S) : Executes (.done a) s a s
  | step {o : Op} {k : Res o → Program Op Res α} {ch : M.Choice o} {r : Res o} {s t u : S} {a : α}
      (hact : M.act o ch s = some (r, t)) (hrest : Executes (k r) t a u) :
      Executes (.step o k) s a u

def eval (policy : (o : Op) → S → M.Choice o) : Program Op Res α → S → Option (α × S)
  | .done a, s => some (a, s)
  | .step o k, s => match M.act o (policy o s) s with
    | none => none
    | some (r, t) => eval policy (k r) t

/-- Execution along a list with the environment's choice for each operation in turn. -/
def play : List ((o : Op) → M.Choice o) → Program Op Res α → S → Option (α × S)
  | [], .done a, s => some (a, s)
  | choice :: choices, .step o k, s => (M.act o (choice o) s).bind fun r => play choices (k r.1) r.2
  | _, _, _ => none

def Semantics.logging {E : Type} (note : (o : Op) → M.Choice o → S → List E) : Semantics Op Res (S × List E) :=
  ⟨M.Choice, fun o ch s => (M.act o ch s.1).map fun r => (r.1, r.2, s.2 ++ note o ch s.1)⟩

def Semantics.assuming (A : Op → S → Prop) [∀ o s, Decidable (A o s)] : Semantics Op Res S :=
  ⟨M.Choice, fun o ch s => if A o s then M.act o ch s else none⟩

variable {M} {J : Op → S → Prop} {P : S → Prop} {Q R : α → S → Prop}

theorem Always.mono {p : Program Op Res α} {s : S} (h : Always M J Q p s)
    (hQ : ∀ a t, Q a t → R a t) : Always M J R p s := by
  induction p generalizing s with
  | done a => exact hQ a s h
  | step o k ih => exact ⟨h.1, fun ch r t ht => ih r (h.2 ch r t ht)⟩

theorem Always.weaken {J' : Op → S → Prop} {p : Program Op Res α} {s : S} (h : Always M J Q p s)
    (hJ : ∀ o t, J o t → J' o t) : Always M J' Q p s := by
  induction p generalizing s with
  | done a => exact h
  | step o k ih => exact ⟨hJ o s h.1, fun ch r t ht => ih r (h.2 ch r t ht)⟩

theorem Always.assuming {A : Op → S → Prop} [∀ o s, Decidable (A o s)] {p : Program Op Res α} {s : S}
    (h : Always M J Q p s) : Always (M.assuming A) J Q p s := by
  induction p generalizing s with
  | done a => exact h
  | step o k ih =>
      refine ⟨h.1, ?_⟩
      intro ch r t ht
      simp only [Semantics.assuming] at ht
      split at ht
      · exact ih r (h.2 ch r t ht)
      · cases ht

/-- Sequencing: the first program establishes what the second one needs. -/
theorem Always.bind {p : Program Op Res α} {f : α → Program Op Res β} {T : β → S → Prop} {s : S}
    (h : Always M J (fun a t => Always M J T (f a) t) p s) : Always M J T (p >>= f) s := by
  induction p generalizing s with
  | done a => exact h
  | step o k ih => exact ⟨h.1, fun ch r t ht => ih r (h.2 ch r t ht)⟩

theorem Always.post {p : Program Op Res α} {s t : S} {a : α} (h : Always M J Q p s)
    (he : Executes M p s a t) : Q a t := by
  induction he with
  | done a s => exact h
  | step hact _ ih => exact ih (h.2 _ _ _ hact)

theorem always_of_executes {p : Program Op Res α} {s : S} (h : ∀ a t, Executes M p s a t → Q a t) :
    Always M (fun _ _ => True) Q p s := by
  induction p generalizing s with
  | done a => exact h a s (.done a s)
  | step o k ih => exact ⟨trivial, fun ch r t ht => ih r (fun a u hu => h a u (.step ht hu))⟩

def Program.Uses (A : Op → Prop) : Program Op Res α → Prop
  | .done _ => True
  | .step o k => A o ∧ ∀ r, (k r).Uses A

theorem Program.Uses.bind {A : Op → Prop} {p : Program Op Res α} {f : α → Program Op Res β}
    (hp : p.Uses A) (hf : ∀ a, (f a).Uses A) : (p >>= f).Uses A := by
  induction p with
  | done a => exact hf a
  | step o k ih => exact ⟨hp.1, fun r => ih r (hp.2 r)⟩

theorem Program.Uses.mono {A B : Op → Prop} {p : Program Op Res α} (hp : p.Uses A) (hAB : ∀ o, A o → B o) :
    p.Uses B := by
  induction p with
  | done a => trivial
  | step o k ih => exact ⟨hAB o hp.1, fun r => ih r (hp.2 r)⟩

/-- A program built from permitted operations that keep an assertion keeps it. -/
theorem Always.of_uses {A : Op → Prop} {p : Program Op Res α} (hp : p.Uses A)
    (hJ : ∀ o s, A o → P s → J o s)
    (hA : ∀ o, A o → ∀ ch s r t, P s → M.act o ch s = some (r, t) → P t)
    {s : S} (hs : P s) : Always M J (fun _ => P) p s := by
  induction p generalizing s with
  | done a => exact hs
  | step o k ih =>
      exact ⟨hJ o s hp.1 hs, fun ch r t ht => ih r (hp.2 r) (hA o hp.1 ch s r t hs ht)⟩

section Logging

variable {E : Type} {note : (o : Op) → M.Choice o → S → List E} {l l' : List E}

theorem act_logging {o : Op} {ch : M.Choice o} {s t : S} {r : Res o}
    (h : (M.logging note).act o ch (s, l) = some (r, (t, l'))) :
    M.act o ch s = some (r, t) ∧ l' = l ++ note o ch s := by
  obtain ⟨u, hu, he⟩ := Option.map_eq_some_iff.mp h
  cases he
  exact ⟨hu, rfl⟩

theorem Always.logging_step {o : Op} {k : Res o → Program Op Res α} {J : Op → S × List E → Prop}
    {Q : α → S × List E → Prop} {s : S} (hJ : J o (s, l))
    (h : ∀ ch r t, M.act o ch s = some (r, t) → Always (M.logging note) J Q (k r) (t, l ++ note o ch s)) :
    Always (M.logging note) J Q (.step o k) (s, l) := by
  refine ⟨hJ, ?_⟩
  rintro ch r ⟨t, l'⟩ hact
  obtain ⟨hu, rfl⟩ := act_logging hact
  exact h ch r t hu

theorem Always.silent_step {o : Op} {k : Res o → Program Op Res α} {J : Op → S × List E → Prop}
    {Q : α → S × List E → Prop} {s : S} (hJ : J o (s, l)) (hnote : ∀ ch : M.Choice o, note o ch s = [])
    (h : ∀ ch r t, M.act o ch s = some (r, t) → Always (M.logging note) J Q (k r) (t, l)) :
    Always (M.logging note) J Q (.step o k) (s, l) := by
  apply Always.logging_step hJ
  intro ch r t hact
  rw [hnote, List.append_nil]
  exact h ch r t hact

theorem Executes.of_logging {p : Program Op Res α} {s t : S} {a : α}
    (h : Executes (M.logging note) p (s, l) a (t, l')) : Executes M p s a t := by
  induction p generalizing s l with
  | done b =>
      cases h
      exact .done _ _
  | step o k ih =>
      cases h with
      | step hact hrest => exact .step (act_logging hact).1 (ih _ hrest)

/-- Operations that log nothing leave the log as it is. -/
theorem Always.logging {A : Op → Prop} {p : Program Op Res α} (hp : p.Uses A)
    (hA : ∀ o, A o → ∀ (ch : M.Choice o) t, note o ch t = []) {s : S} (h : Always M J Q p s) :
    Always (M.logging note) (fun o t => J o t.1) (fun a t => Q a t.1 ∧ t.2 = l) p (s, l) := by
  induction p generalizing s with
  | done a => exact ⟨h, rfl⟩
  | step o k ih =>
      apply Always.silent_step h.1 (fun ch => hA o hp.1 ch s)
      intro ch r t hact
      exact ih r (hp.2 r) (h.2 ch r t hact)

end Logging

/-- Wherever it starts with an assertion, a program performs only permitted operations and keeps the assertion. -/
def Program.Keeps (M : Semantics Op Res S) (J : Op → S → Prop) (P : S → Prop) (p : Program Op Res α) : Prop :=
  ∀ s, P s → Always M J (fun _ => P) p s

theorem Program.Keeps.done (a : α) : (Program.done a : Program Op Res α).Keeps M J P := fun _ hs => hs

theorem Program.Keeps.step {o : Op} {k : Res o → Program Op Res α} (hJ : ∀ s, P s → J o s)
    (ho : ∀ ch s r t, P s → M.act o ch s = some (r, t) → P t) (hk : ∀ r, (k r).Keeps M J P) :
    (Program.step o k).Keeps M J P :=
  fun s hs => ⟨hJ s hs, fun ch r t ht => hk r t (ho ch s r t hs ht)⟩

theorem Program.Keeps.bind {p : Program Op Res α} {f : α → Program Op Res β} (hp : p.Keeps M J P)
    (hf : ∀ a, (f a).Keeps M J P) : (p >>= f).Keeps M J P :=
  fun s hs => ((hp s hs).mono (fun a t ht => hf a t ht)).bind

theorem eval_bind (policy : (o : Op) → S → M.Choice o) (p : Program Op Res α)
    (f : α → Program Op Res β) (s : S) :
    eval M policy (p >>= f) s = (eval M policy p s).bind (fun r => eval M policy (f r.1) r.2) := by
  induction p generalizing s with
  | done a => rfl
  | step o k ih =>
      rw [step_bind, eval, eval]
      cases hact : M.act o (policy o s) s with
      | none => rfl
      | some r => exact ih r.1 r.2

theorem executes_of_eval (policy : (o : Op) → S → M.Choice o) (p : Program Op Res α)
    {s t : S} {a : α} (h : eval M policy p s = some (a, t)) : Executes M p s a t := by
  induction p generalizing s with
  | done b =>
      simp only [eval, Option.some.injEq, Prod.mk.injEq] at h
      obtain ⟨rfl, rfl⟩ := h
      exact .done b s
  | step o k ih =>
      rw [eval] at h
      cases hact : M.act o (policy o s) s with
      | none => simp [hact] at h
      | some r =>
          simp only [hact] at h
          exact .step hact (ih r.1 h)

/-- Where the choices make no difference, a policy finds every execution. -/
theorem eval_of_executes {A : Op → Prop} (hA : ∀ o, A o → ∀ ch ch' s, M.act o ch s = M.act o ch' s)
    (policy : (o : Op) → S → M.Choice o) {p : Program Op Res α} (hp : p.Uses A) {s t : S} {a : α}
    (h : Executes M p s a t) : eval M policy p s = some (a, t) := by
  induction h with
  | done a s => rfl
  | step hact _ ih =>
      rw [eval, hA _ hp.1 _ _ _, hact]
      exact ih (hp.2 _)

theorem play_step {choices : List ((o : Op) → M.Choice o)} {o : Op} {k : Res o → Program Op Res α} {s : S}
    {r : α × S} (h : play M choices (.step o k) s = some r) :
    ∃ choice rest a t, choices = choice :: rest ∧ M.act o (choice o) s = some (a, t) ∧
      play M rest (k a) t = some r := by
  cases choices with
  | nil => cases h
  | cons choice rest =>
      obtain ⟨⟨a, t⟩, hact, hrest⟩ := Option.bind_eq_some_iff.mp h
      exact ⟨choice, rest, a, t, rfl, hact, hrest⟩

theorem executes_of_play (choices : List ((o : Op) → M.Choice o)) {p : Program Op Res α} {s t : S} {a : α}
    (h : play M choices p s = some (a, t)) : Executes M p s a t := by
  induction choices generalizing p s with
  | nil =>
      cases p with
      | done b =>
          cases h
          exact .done _ _
      | step o k => cases h
  | cons choice choices ih =>
      cases p with
      | done b => cases h
      | step o k =>
          obtain ⟨r, hact, hrest⟩ := Option.bind_eq_some_iff.mp h
          exact .step hact (ih hrest)

end Gev.Lib.Atomic
