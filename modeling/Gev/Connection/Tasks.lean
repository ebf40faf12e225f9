import Gev.Connection.Output

namespace Gev.Connection.Tasks

open Lib.Atomic State Code History Writing Output

variable {C σ κ δ : Type}

section Definitions

variable (cfg : Config C σ κ δ) (early : Prop) (ts : List (Task C δ))

def Known (c : C) : Prop := .register c ∈ ts ∨ .close c ∈ ts

/-- What the loop goroutine may do. A system call hits an open descriptor of its own connection, except for a
registration that comes after the close. -/
structure Allowed (o : Op C κ δ) (L : Local C σ κ δ) : Prop where
  sound : ∀ c, (phaseOf cfg c L).Sound early
  known : ∀ c, (L.conns c).history ≠ [] → Known ts c
  target : ∀ c fd, target o = some (c, fd) →
    fd = cfg.fd c ∧ Known ts c ∧ (admissible o L = true ↔ (phaseOf cfg c L).FdOpen)
  admitted : admissible o L = true ∨ early
  posts : ∀ t, o = .appendTask t → ∃ c, t = .close c ∧ Known ts c ∧ .onConnect ∈ (L.conns c).history

structure World (L : Local C σ κ δ) : Prop where
  each : ∀ c, New c L ∨ Open cfg c L L ∨ Closed cfg c early L
  entries : ∀ fd c, entry L fd = some c → fd = cfg.fd c ∧ Open cfg c L L
  known : ∀ c, (L.conns c).history ≠ [] → Known ts c
  started : ∀ c, .onConnect ∈ (L.conns c).history → .register c ∈ ts
  ended : ∀ c, .close c ∈ ts → Closed cfg c early L
  stopped : .closing ∈ ts → L.sockets = none

end Definitions

variable {cfg : Config C σ κ δ} {early : Prop} {ts : List (Task C δ)} {L L' L₀ : Local C σ κ δ} {c : C}

theorem Known.mono {ts' : List (Task C δ)} (hts : ts ⊆ ts') (h : Known ts c) : Known ts' c := by
  rcases h with h | h
  · exact .inl (hts h)
  · exact .inr (hts h)

theorem World.sound (h : World cfg early ts L) (c : C) : (phaseOf cfg c L).Sound early := by
  rcases h.each c with hn | ho | hc
  · rw [hn.phase]
    trivial
  · rw [ho.live]
    trivial
  · exact hc.sound

theorem Rest.frame [DecidableEq C] (h : Rest cfg c early L L') : Frame cfg c L L' := by
  obtain ⟨closed, hs⟩ := h
  cases closed with
  | true => exact hs.1
  | false =>
      obtain ⟨out, accepted, hf⟩ := hs
      exact hf.frame

theorem World.not_ended (hw : World cfg early ts L) (ho : Open cfg c L₀ L) : .close c ∉ ts := by
  intro hc
  have hconn := (hw.ended c hc).connected
  rw [ho.connected] at hconn
  cases hconn

theorem World.closed_of (hw : World cfg early ts L) (h : (L.conns c).connected = false) :
    Closed cfg c early L := by
  rcases hw.each c with hn | ho | hc
  · rw [hn.connected] at h
    cases h
  · rw [ho.connected] at h
    cases h
  · exact hc

def Apart (cfg : Config C σ κ δ) (c : C) (L : Local C σ κ δ) : Prop :=
  ∀ d, d ≠ c → Open cfg d L L → cfg.fd d ≠ cfg.fd c

/-- After work on one connection, whatever became of it. -/
theorem World.update [DecidableEq C] {ts' : List (Task C δ)} (hw : World cfg early ts L) (hts : ts ⊆ ts')
    (hapart : Apart cfg c L) (hrest : Rest cfg c early L L') (hknown : Known ts' c)
    (hstart : .onConnect ∈ (L'.conns c).history → .register c ∈ ts')
    (hclose : ∀ d, .close d ∈ ts' → .close d ∈ ts ∨ d = c) (hend : .close c ∈ ts' → Closed cfg c early L')
    (hstop : .closing ∈ ts' → .closing ∈ ts) : World cfg early ts' L' := by
  have hframe := Rest.frame hrest
  constructor
  case each =>
    intro d
    by_cases hd : d = c
    · subst hd
      obtain ⟨closed, hs⟩ := hrest
      cases closed with
      | true => exact .inr (.inr hs.2.1)
      | false => exact .inr (.inl hs.self)
    · rcases hw.each d with hn | ho | hc
      · exact .inl (hn.frame hframe hd)
      · exact .inr (.inl (ho.frame hframe hd (hapart d hd ho)))
      · exact .inr (.inr (hc.frame hframe hd))
  case entries =>
    intro fd d he
    by_cases hfd : fd = cfg.fd c
    · subst hfd
      obtain ⟨closed, hs⟩ := hrest
      cases closed with
      | true => simp [hs.2.2] at he
      | false =>
          obtain ⟨out, accepted, hf⟩ := hs
          cases hf.own d he
          exact ⟨rfl, Open.self ⟨out, accepted, hf⟩⟩
    · rw [hframe.entry fd hfd] at he
      obtain ⟨rfl, ho⟩ := hw.entries fd d he
      have hd : d ≠ c := by
        rintro rfl
        exact hfd rfl
      exact ⟨rfl, ho.frame hframe hd hfd⟩
  case known =>
    intro d hne
    by_cases hd : d = c
    · exact hd ▸ hknown
    · rw [hframe.others d hd] at hne
      exact (hw.known d hne).mono hts
  case started =>
    intro d hon
    by_cases hd : d = c
    · subst hd
      exact hstart hon
    · rw [hframe.others d hd] at hon
      exact hts (hw.started d hon)
  case ended =>
    intro d hd
    by_cases hdc : d = c
    · subst hdc
      exact hend hd
    · exact (hw.ended d ((hclose d hd).resolve_right hdc)).frame hframe hdc
  case stopped =>
    intro hs
    have hnone := hw.stopped (hstop hs)
    have hsome := hframe.isSome
    rw [hnone] at hsome
    simpa using hsome

/-- After a task that found nothing to do. -/
theorem World.extend {ts' : List (Task C δ)} (hw : World cfg early ts L) (hts : ts ⊆ ts')
    (hclose : ∀ d, .close d ∈ ts' → .close d ∈ ts ∨ Closed cfg d early L)
    (hstop : .closing ∈ ts' → .closing ∈ ts) : World cfg early ts' L where
  each := hw.each
  entries := hw.entries
  known d hd := (hw.known d hd).mono hts
  started d hd := hts (hw.started d hd)
  ended d hd := (hclose d hd).elim (hw.ended d) id
  stopped h := hw.stopped (hstop h)

variable [DecidableEq C]

abbrev Runs (cfg : Config C σ κ δ) (early : Prop) (ts : List (Task C δ)) (p : Prog C κ δ Unit)
    (L : Local C σ κ δ) : Prop :=
  Always ((semantics cfg).assuming fun o L => admissible o L = true) (Allowed cfg early ts)
    (fun _ => World cfg early ts) p L

theorem runs_of_ends {α : Type} {Q : α → Local C σ κ δ → Prop} {p : Prog C κ δ α}
    {ts' : List (Task C δ)} (hw : World cfg early ts L₀) (hts : ts ⊆ ts') (hk : Known ts' c)
    (h : Ends cfg c early L₀ Q p L) :
    Always ((semantics cfg).assuming fun o L => admissible o L = true) (Allowed cfg early ts') Q p L := by
  apply Always.assuming
  apply h.weaken
  intro o L₁ hp
  constructor
  case sound =>
    intro d
    by_cases hd : d = c
    · exact hd ▸ hp.sound
    · have hconn := hp.frame.others d hd
      rw [phaseOf, hconn]
      exact hw.sound d
  case known =>
    intro d hne
    by_cases hd : d = c
    · exact hd ▸ hk
    · rw [hp.frame.others d hd] at hne
      exact (hw.known d hne).mono hts
  case target =>
    intro d fd ht
    obtain ⟨rfl, rfl, hopen⟩ := hp.target d fd ht
    exact ⟨rfl, hk, fun _ => hopen, fun _ => hp.admitted⟩
  case admitted => exact .inl hp.admitted
  case posts =>
    intro t ht
    exact absurd ht (hp.posts t)

omit [DecidableEq C] in
theorem admissible_of_target {o : Op C κ δ} (h : target o = none) (L : Local C σ κ δ) : admissible o L = true := by
  cases o <;> first | rfl | cases h

omit [DecidableEq C] in
theorem World.allows {ts' : List (Task C δ)} (hw : World cfg early ts L) (hts : ts ⊆ ts') {o : Op C κ δ}
    (ht : target o = none) (hp : ∀ t, o ≠ .appendTask t) : Allowed cfg early ts' o L :=
  ⟨hw.sound, fun d hd => (hw.known d hd).mono hts, by simp [ht], .inl (admissible_of_target ht L),
    fun t h => absurd h (hp t)⟩

theorem event_runs (hw : World cfg early ts L) (hapart : ∀ c, Open cfg c L L → Apart cfg c L) (fuel : Nat)
    (fd : Fd) (events : UInt32) : Runs cfg early ts (handlerEvent cfg fuel fd events) L := by
  cases he : entry L fd with
  | none =>
      have hidle := handlerEvent_idle cfg fuel fd events (J := Allowed cfg early ts)
        (hw.allows (List.Subset.refl ts) rfl (by simp)) he
      apply hidle.assuming.mono
      rintro _ L₁ rfl
      exact hw
  | some c =>
      obtain ⟨rfl, ho⟩ := hw.entries fd c he
      have hreg := hw.started c ho.met
      apply (runs_of_ends hw (List.Subset.refl ts) (.inl hreg) (handlerEvent_ends fuel events ho he)).mono
      intro _ L₁ hrest
      have hnot := hw.not_ended ho
      exact hw.update (List.Subset.refl ts) (hapart c ho) hrest (.inl hreg) (fun _ => hreg)
        (fun d hd => .inl hd) (fun hc => absurd hc hnot) id

theorem send_runs (hw : World cfg early ts L) (hapart : Open cfg c L L → Apart cfg c L)
    (hmet : .onConnect ∈ (L.conns c).history) (data : δ) (finish : Bool) :
    Runs cfg early (ts ++ [.send c data finish]) (taskBody cfg (.send c data finish)) L := by
  have hts : ts ⊆ ts ++ [.send c data finish] := List.subset_append_left _ _
  have hclose : ∀ d, .close d ∈ ts ++ [.send c data finish] → .close d ∈ ts := by simp
  have hreg := hw.started c hmet
  rcases hw.each c with hn | ho | hc
  · rw [hn.history] at hmet
    cases hmet
  · apply (runs_of_ends hw hts (.inl (hts hreg)) (sendTask_ends data finish ho)).mono
    intro _ L₁ hrest
    have hnot : .close c ∉ ts := hw.not_ended ho
    exact hw.update hts (hapart ho) hrest (.inl (hts hreg)) (fun _ => hts hreg) (fun d hd => .inl (hclose d hd))
      (fun hc => absurd (hclose c hc) hnot) (by simp)
  · have hidle := sendTask_idle cfg data finish (J := Allowed cfg early (ts ++ [.send c data finish]))
      (hw.allows hts rfl (by simp)) hc.connected
    apply hidle.assuming.mono
    rintro _ L₁ rfl
    exact hw.extend hts (fun d hd => .inl (hclose d hd)) (by simp)

theorem close_runs (hw : World cfg early ts L) (hapart : (L.conns c).connected = true → Apart cfg c L)
    (hmet : .onConnect ∈ (L.conns c).history ∨ early) :
    Runs cfg early (ts ++ [.close c]) (taskBody cfg (.close c)) L := by
  have hts : ts ⊆ ts ++ [.close c] := List.subset_append_left _ _
  have hclose : ∀ d, .close d ∈ ts ++ [.close c] → .close d ∈ ts ∨ d = c := by simp
  have hknown : Known (ts ++ [.close c]) c := .inr (by simp)
  cases hconn : (L.conns c).connected with
  | true =>
      have hphase : phaseOf cfg c L = .live ∨ phaseOf cfg c L = .new ∧ early := by
        rcases hw.each c with hn | ho | hc
        · refine .inr ⟨hn.phase, hmet.resolve_left ?_⟩
          rw [hn.history]
          simp
        · exact .inl ho.live
        · rw [hc.connected] at hconn
          cases hconn
      have hstream : (L.conns c).accepted <+: sent (L.conns c) := by
        rcases hw.each c with hn | ⟨out, accepted, hf⟩ | hc
        · rw [hn.accepted]
          exact List.nil_prefix
        · rw [hf.accepted, hf.sent]
          exact List.prefix_append _ _
        · exact hc.stream
      apply (runs_of_ends hw hts hknown (handleClose_ends (.refl cfg c L) hconn hphase hstream)).mono
      rintro _ L₁ ⟨hs, hdead⟩
      refine hw.update hts (hapart hconn) ⟨true, hs⟩ hknown ?_ hclose (fun _ => hs.2.1) (by simp)
      intro hon
      have hmet₁ := (met_iff hs.2.1.sound.ne_broken).mpr hon
      rw [show phase (cfg.fd c) (L₁.conns c).history = _ from hdead] at hmet₁
      exact hts (hw.started c ((met_iff (hw.sound c).ne_broken).mp hmet₁))
  | false =>
      have hidle := closeTask_idle cfg (J := Allowed cfg early (ts ++ [.close c]))
        (hw.allows hts rfl (by simp)) hconn
      apply hidle.assuming.mono
      rintro _ L₁ rfl
      apply hw.extend hts
      · intro d hd
        rcases hclose d hd with hd | rfl
        · exact .inl hd
        · exact .inr (hw.closed_of hconn)
      · simp

/-- A registration that finds its connection closed announces it all the same, and gets as far as its epoll_ctl. -/
theorem late_runs (hw : World cfg early ts L) (hdead : phaseOf cfg c L = .dead false) (he : early)
    (hconn : (L.conns c).connected = false) :
    Runs cfg early (ts ++ [.register c]) (taskBody cfg (.register c)) L := by
  have hts : ts ⊆ ts ++ [.register c] := List.subset_append_left _ _
  have hreg : Known (ts ++ [.register c]) c := .inl (by simp)
  refine ⟨hw.allows hts rfl (by simp), ?_⟩
  intro ch r L₁ hact
  cases hact
  have hself := modify_self (c := c) L (fun x => { x.note .onConnect with user := cfg.callBack.onConnect x.user })
  have hframe : Frame cfg c L (L.modify c fun x => { x.note .onConnect with user := cfg.callBack.onConnect x.user }) :=
    frame_modify L _
  generalize L.modify c _ = L₁ at hself hframe
  have hlate : phaseOf cfg c L₁ = .late := by
    rw [phaseOf, hself]
    change phase (cfg.fd c) ((L.conns c).history ++ [.onConnect]) = .late
    rw [phase_concat, show phase (cfg.fd c) (L.conns c).history = _ from hdead]
    rfl
  have hsound : ∀ d, (phaseOf cfg d L₁).Sound early := by
    intro d
    by_cases hd : d = c
    · rw [hd, hlate]
      exact he
    · have hd := hframe.others d hd
      rw [phaseOf, hd]
      exact hw.sound d
  have hknown : ∀ d, (L₁.conns d).history ≠ [] → Known (ts ++ [.register c]) d := by
    intro d hne
    by_cases hd : d = c
    · exact hd ▸ hreg
    · rw [hframe.others d hd] at hne
      exact (hw.known d hne).mono hts
  refine ⟨⟨hsound, hknown, by simp [target], .inr he, by simp⟩, ?_⟩
  intro ch r L₂ hact
  obtain ⟨m, hm, hr⟩ := Option.map_eq_some_iff.mp hact
  cases hr
  have hdown : (L₁.conns c).connected = false := hself ▸ hconn
  refine ⟨⟨hsound, hknown, ?_, .inr he, by simp⟩, ?_⟩
  · intro d fd ht
    cases ht
    refine ⟨rfl, hreg, ?_⟩
    rw [show phaseOf cfg c { L₁ with sockets := some (m.insert (cfg.fd c) c) } = .late from hlate]
    simp [admissible, Phase.FdOpen, hdown]
  · intro ok r L₃ hact
    simp [Semantics.assuming, admissible, hdown] at hact

theorem register_runs (hw : World cfg early ts L) (hapart : (L.conns c).connected = true → Apart cfg c L)
    (hfirst : .register c ∉ ts) : Runs cfg early (ts ++ [.register c]) (taskBody cfg (.register c)) L := by
  have hts : ts ⊆ ts ++ [.register c] := List.subset_append_left _ _
  have hreg : .register c ∈ ts ++ [.register c] := by simp
  have hclose : ∀ d, .close d ∈ ts ++ [.register c] → .close d ∈ ts := by simp
  rcases hw.each c with hn | ho | hc
  · apply (runs_of_ends hw hts (.inl hreg) (register_ends (.refl cfg c L) hn)).mono
    intro _ L₁ hrest
    refine hw.update hts (hapart hn.connected) hrest (.inl hreg) (fun _ => hreg) (fun d hd => .inl (hclose d hd)) ?_
      (by simp)
    intro hc
    have hconn := (hw.ended c (hclose c hc)).connected
    rw [hn.connected] at hconn
    cases hconn
  · exact absurd (hw.started c ho.met) hfirst
  · rcases hc.dead with hd | ⟨hd, he⟩
    · have hmet : .onConnect ∈ (L.conns c).history := by
        apply (met_iff (hw.sound c).ne_broken).mp
        rw [show phase (cfg.fd c) (L.conns c).history = _ from hd]
        rfl
      exact absurd (hw.started c hmet) hfirst
    · exact late_runs hw hd he hc.connected

section Closing

omit [DecidableEq C] in
theorem mem_values {m : Option (AList (fun _ : Fd => C))} {c : C} :
    c ∈ values m ↔ ∃ fd, m.bind (·.lookup fd) = some c := by
  cases m with
  | none => simp [values]
  | some m =>
      simp only [values, List.mem_map, Option.bind_some]
      constructor
      · rintro ⟨⟨fd, d⟩, hm, rfl⟩
        exact ⟨fd, AList.mem_lookup_iff.mpr hm⟩
      · rintro ⟨fd, hl⟩
        exact ⟨⟨fd, c⟩, AList.mem_lookup_iff.mp hl, rfl⟩

def post (L : Local C σ κ δ) (us : List (Task C δ)) : Local C σ κ δ := { L with posted := L.posted ++ us }

theorem closeAll_runs (ts : List (Task C δ)) (cs : List C) (hs : ∀ d, (phaseOf cfg d L).Sound early)
    (hknown : ∀ d, (L.conns d).history ≠ [] → Known ts d)
    (hcs : ∀ c ∈ cs, Known ts c ∧ (L.conns c).connected = true ∧ .onConnect ∈ (L.conns c).history) :
    Always (semantics cfg) (Allowed cfg early ts) (fun _ L' => L' = post L (cs.map .close)) (closeAll cs) L := by
  induction cs generalizing L with
  | nil =>
      change L = post L []
      simp [post]
  | cons c cs ih =>
      obtain ⟨hk, hconn, hmet⟩ := hcs c List.mem_cons_self
      refine ⟨⟨hs, hknown, by simp [target], .inl rfl, by simp⟩, ?_⟩
      intro ch r L₁ hact
      cases hact
      rw [hconn]
      refine ⟨⟨hs, hknown, by simp [target], .inl rfl, ?_⟩, ?_⟩
      · intro t ht
        cases ht
        exact ⟨c, rfl, hk, hmet⟩
      intro ch r L₁ hact
      cases hact
      have hrest : Always (semantics cfg) (Allowed cfg early ts)
          (fun _ L' => L' = post L ((c :: cs).map .close)) (closeAll cs) (post L [.close c]) := by
        apply (ih (L := post L [.close c]) hs hknown (fun d hd => hcs d (List.mem_cons_of_mem c hd))).mono
        rintro _ L₂ rfl
        simp [post]
      refine ⟨⟨hs, hknown, by simp [target], .inl rfl, by simp⟩, ?_⟩
      intro (swapped : Bool) r L₁ hact
      cases hact
      cases swapped with
      | true =>
          refine ⟨⟨hs, hknown, by simp [target], .inl rfl, by simp⟩, ?_⟩
          intro ch r L₁ hact
          cases hact
          exact hrest
      | false => exact hrest

omit [DecidableEq C] in
/-- Dropping the map loses no connection, since a close is queued for each one in it. -/
theorem World.drop (hw : World cfg early ts L) {us : List (Task C δ)}
    (hus : ∀ fd c, entry L fd = some c → .close c ∈ us) :
    World cfg early (ts ++ [.closing]) { post L us with sockets := none } := by
  have hclose : ∀ d, .close d ∈ ts ++ [.closing] → .close d ∈ ts := by simp
  have hts : ts ⊆ ts ++ [.closing] := List.subset_append_left _ _
  have hopen : ∀ c, Open cfg c L L →
      Open cfg c { post L us with sockets := none } { post L us with sockets := none } := by
    rintro c ⟨out, accepted, hf⟩
    refine ⟨out, accepted, .refl cfg c _, hf.connected, hf.live, ?_, ?_, ?_, hf.out, hf.accepted, hf.sent, hf.interest⟩
    · intro d hd
      cases hd
    · intro _ hs
      cases hs
    · intro hr _
      cases hs : L.sockets with
      | none => exact List.mem_append_left _ (hf.posted hr hs)
      | some m => exact List.mem_append_right _ (hus _ c (hf.listed hr (by simp [hs])))
  constructor
  case each =>
    intro c
    rcases hw.each c with hn | ho | hc
    · exact .inl ⟨hn.connected, hn.history, hn.out, hn.accepted⟩
    · exact .inr (.inl (hopen c ho))
    · exact .inr (.inr ⟨hc.connected, hc.dead, hc.stream⟩)
  case entries =>
    intro fd c he
    cases he
  case known => exact fun c hne => (hw.known c hne).mono hts
  case started => exact fun c hon => hts (hw.started c hon)
  case ended =>
    intro c hc
    have hc := hw.ended c (hclose c hc)
    exact ⟨hc.connected, hc.dead, hc.stream⟩
  case stopped => exact fun _ => rfl

theorem closing_runs (hw : World cfg early ts L) :
    Runs cfg early (ts ++ [.closing]) (taskBody cfg .closing) L := by
  have hts : ts ⊆ ts ++ [.closing] := List.subset_append_left _ _
  apply Always.assuming
  refine ⟨hw.allows hts rfl (by simp), ?_⟩
  intro (order : List C) r L₁ hact
  obtain ⟨hperm, rfl, rfl⟩ := act_range cfg hact
  have hmem : ∀ c, c ∈ order ↔ ∃ fd, entry L fd = some c := fun c =>
    (List.isPerm_iff.mp hperm).mem_iff.trans mem_values
  change Always _ _ _ (closeAll order >>= fun _ => call .dropSockets) L
  apply Always.bind
  have hall := closeAll_runs (ts ++ [.closing]) order hw.sound (fun d hd => (hw.known d hd).mono hts) (fun c hc => by
    obtain ⟨fd, he⟩ := (hmem c).mp hc
    have ho := (hw.entries fd c he).2
    exact ⟨.inl (hts (hw.started c ho.met)), ho.connected, ho.met⟩)
  apply hall.mono
  rintro _ L₂ rfl
  refine ⟨⟨hw.sound, fun d hd => (hw.known d hd).mono hts, by simp [target], .inl rfl, by simp⟩, ?_⟩
  intro ch r L₃ hact
  cases hact
  apply hw.drop
  intro fd c he
  exact List.mem_map.mpr ⟨c, (hmem c).mpr ⟨fd, he⟩, rfl⟩

end Closing

end Gev.Connection.Tasks
