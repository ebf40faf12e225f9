import Gev.Connection.Behaviour
import Gev.Connection.Traffic

namespace Gev.Connection.Intake

open Lib.Atomic Lib.Slices Lib.RingBuffers State Code Reading Writing Outward Behaviour
open ReadPath (messages)
open Traffic (sendsTo dispatch)

variable {C σ κ δ : Type}

def intake : (o : Op C κ δ) → Choice o → Local C σ κ δ → List (C × Bytes)
  | .unixRead c _ _, .bytes data, _ => if data = [] then [] else [(c, data)]
  | _, _, _ => []

def Unread (o : Op C κ δ) : Prop := ∀ c fd s, o ≠ .unixRead c fd s

theorem intake_unread {o : Op C κ δ} (ho : Unread o) (ch : Choice o) (L : Local C σ κ δ) : intake o ch L = [] := by
  cases o
  case unixRead c fd s => exact absurd rfl (ho c fd s)
  all_goals rfl

theorem unread_ends {c : C} {o : Op C κ δ} (h : Ends c o) : Unread o := by
  rintro d fd s rfl
  rcases h with h | h
  · exact h
  · cases h

theorem unread_parsing {c : C} {o : Op C κ δ} (h : Parsing c o) : Unread o := by
  rintro d fd s rfl
  exact h

variable [DecidableEq C]

def received (c : C) (log : List (C × Bytes)) : List Bytes := log.filterMap fun e => if e.1 = c then some e.2 else none

theorem received_append (c : C) (log more : List (C × Bytes)) :
    received c (log ++ more) = received c log ++ received c more := List.filterMap_append

abbrev reading (cfg : Config C σ κ δ) : Semantics (Op C κ δ) Res (Local C σ κ δ × List (C × Bytes)) :=
  (semantics cfg).logging intake

variable {cfg : Config C σ κ δ} {c : C} {L L' : Local C σ κ δ} {log log' : List (C × Bytes)} {us : List (Task C δ)}

/-- A connection goes through events whose input is what it has read meanwhile, and whose Sends are among the tasks. -/
def Serves (cfg : Config C σ κ δ) (c : C) (us : List (Task C δ)) (L : Local C σ κ δ) (log : List (C × Bytes))
    (s : Local C σ κ δ × List (C × Bytes)) : Prop :=
  ∃ es, Moves cfg c es L s.1 ∧
    (∀ d, received d s.2 = received d log ++ if d = c then es.filterMap Event.input else []) ∧
    (es.filterMap Event.sends).Sublist ((us.filterMap (sendsTo c)).map Prod.fst)

theorem Serves.of_moves {es : List (Event κ δ)} (h : Moves cfg c es L L') (hin : es.filterMap Event.input = [])
    (hsends : (es.filterMap Event.sends).Sublist ((us.filterMap (sendsTo c)).map Prod.fst)) (log : List (C × Bytes)) :
    Serves cfg c us L log (L', log) := by
  refine ⟨es, h, ?_, hsends⟩
  intro d
  simp [hin]

theorem Serves.trans {L'' : Local C σ κ δ} {es : List (Event κ δ)} (h : Serves cfg c us L log (L', log'))
    (hm : Moves cfg c es L' L'') (hin : es.filterMap Event.input = []) (hsends : es.filterMap Event.sends = []) :
    Serves cfg c us L log (L'', log') := by
  obtain ⟨es', hm', hlog, hsub⟩ := h
  refine ⟨es' ++ es, hm'.trans hm, ?_, ?_⟩
  · simpa [hin] using hlog
  · simpa [hsends] using hsub

theorem Serves.after {s : Local C σ κ δ × List (C × Bytes)} (hm : Moves cfg c [] L L')
    (h : Serves cfg c us L' log s) : Serves cfg c us L log s := by
  obtain ⟨es, hm', hrest⟩ := h
  exact ⟨es, hm.trans hm', hrest⟩

theorem closes_input (n : Nat) : (List.replicate n (.close : Event κ δ)).filterMap Event.input = [] := by
  simp [Event.input]

theorem closes_sends (n : Nat) : (List.replicate n (.close : Event κ δ)).filterMap Event.sends = [] := by
  simp [Event.sends]

/-- Behind any of that the connection may be written to and closed. -/
theorem Serves.ends {α : Type} {p : Prog C κ δ α} (h : Serves cfg c us L log (L', log')) (hp : p.Uses (Ends c)) :
    Always (reading cfg) (fun _ _ => True) (fun _ => Serves cfg c us L log) p (L', log') := by
  apply (Always.logging hp (fun _ ho => intake_unread (unread_ends ho)) (always_ends hp L')).mono
  rintro _ ⟨L'', _⟩ ⟨⟨n, hm⟩, rfl⟩
  exact h.trans hm (closes_input n) (closes_sends n)

section Reading

variable {data : Bytes} {calls : List (Option κ × Bytes)} {tmp : Slice}

omit [DecidableEq C] in
/-- The replies of a read, given to the connection or not there. -/
theorem Moves.of_parsed {L₁ L₂ : Local C σ κ δ} (h : Parsed cfg c L L₁ data calls tmp)
    (hpeer : peer L₂ c = peer L₁ c) (hothers : ∀ d, d ≠ c → L₂.conns d = L₁.conns d)
    (hpacket : Valid L₁.heap L₁.packet → Valid L₂.heap L₂.packet)
    (hsights : sights (L₂.conns c) = sights (L₁.conns c) ++
      if contents L₁.heap tmp = [] then [] else [.give (contents L₁.heap tmp)]) :
    Moves cfg c [.read data calls (contents L₁.heap tmp)] L L₂ := by
  refine ⟨.one (hpeer ▸ h.takes), ?_, fun d hd => (hothers d hd).trans (h.calls.others d hd), ?_⟩
  · rw [hsights, h.calls.sights]
    simp [Event.sights]
  · intro hv
    apply hpacket
    rw [h.calls.packet]
    exact h.calls.valid _ hv

/-- What follows the parsing of a read. -/
theorem replies_moves (h : Parsed cfg c L L' data calls tmp) :
    Always (semantics cfg) (fun _ _ => True)
      (fun _ L'' => ∃ replies n, Moves cfg c (.read data calls replies :: List.replicate n .close) L L'')
      (if tmp.len ≠ 0 then do
        let data ← call (.contents tmp)
        sendInLoop cfg c data
      else return false) L' := by
  have hlen := length_contents h.valid
  split
  next hne =>
    have hsome : contents L'.heap tmp ≠ [] := by
      intro hnil
      rw [hnil] at hlen
      exact hne hlen.symm
    refine ⟨trivial, ?_⟩
    intro ch content L₁ hact
    obtain ⟨rfl, rfl⟩ := Prod.mk.inj (Option.some.inj hact)
    obtain ⟨k, hk, hemits⟩ := emits_sendInLoop cfg c (contents L'.heap tmp)
    simp only [Program.bind]
    rw [hk]
    refine ⟨trivial, ?_⟩
    intro ch r L₁ hact
    cases hact
    have hm : Moves cfg c [.read data calls (contents L'.heap tmp)] L
        (L'.modify c (·.note (.sendInLoop (contents L'.heap tmp)))) := by
      apply Moves.of_parsed h
      · rw [peer, modify_self]
        rfl
      · intro d hd
        simp [Local.modify, hd]
      · exact id
      · rw [modify_self, sights_append [_] rfl, if_neg hsome]
        rfl
    apply (always_ends ((hemits ()).mono fun _ => ends_of_emits) _).mono
    rintro _ L₂ ⟨n, hclose⟩
    exact ⟨_, n, hm.trans hclose⟩
  next hzero =>
    refine ⟨_, 0, Moves.of_parsed h rfl (fun _ _ => rfl) id ?_⟩
    have hnil : contents L'.heap tmp = [] := List.eq_nil_of_length_eq_zero (hlen.trans (Decidable.not_not.mp hzero))
    rw [if_pos hnil, List.append_nil]

/-- A read that brings bytes. -/
theorem parse_serves (hv : Valid L.heap L.packet) (hn : data.length ≤ L.packet.len)
    (hbuf : contents L.heap (reslice L.packet 0 data.length) = data) (fuel : Nat) (log : List (C × Bytes)) :
    Always (reading cfg) (fun _ _ => True) (fun _ => Serves cfg c [] L log) (do
      let replies ← parsePacket fuel c L.packet data.length
      if replies.len ≠ 0 then
        let data ← call (.contents replies)
        sendInLoop cfg c data
      else return false) (L, log ++ [(c, data)]) := by
  apply Always.bind
  have hparse : Always (semantics cfg) (fun _ _ => True) (fun tmp L' => ∃ calls, Parsed cfg c L L' data calls tmp)
      (parsePacket fuel c L.packet data.length) L := by
    by_cases hnil : (L.conns c).inBuffer.data = []
    · exact parsePacket_inPlace hv hnil hn hbuf fuel
    · exact parsePacket_appended hv hnil hbuf fuel
  apply (Always.logging (parses_parsePacket c fuel _ _) (fun _ ho => intake_unread (unread_parsing ho)) hparse).mono
  rintro tmp ⟨L₁, _⟩ ⟨⟨calls, hparsed⟩, rfl⟩
  have hunread : (if tmp.len ≠ 0 then do
      let data ← call (.contents tmp)
      sendInLoop cfg c data
    else return false : Prog C κ δ Bool).Uses Unread := by
    split
    · refine ⟨nofun, fun content => ?_⟩
      obtain ⟨k, hk, hemits⟩ := emits_sendInLoop cfg c content
      change (sendInLoop cfg c content).Uses Unread
      rw [hk]
      exact ⟨nofun, fun r => (hemits r).mono fun _ ho => unread_ends (ends_of_emits ho)⟩
    · trivial
  apply (Always.logging hunread (fun _ ho => intake_unread ho) (replies_moves hparsed)).mono
  rintro _ ⟨L₂, _⟩ ⟨⟨replies, n, hm⟩, rfl⟩
  refine ⟨_, hm, ?_, ?_⟩
  · intro d
    rw [received_append]
    by_cases hd : d = c
    · simp [hd, received, Event.input]
    · simp [received, hd, Ne.symm hd]
  · rw [List.filterMap_cons, closes_sends]
    exact List.nil_sublist _

theorem handleRead_serves (hv : Valid L.heap L.packet) (fuel : Nat) (fd : Fd) (log : List (C × Bytes)) :
    Always (reading cfg) (fun _ _ => True) (fun _ => Serves cfg c [] L log) (handleRead cfg fuel c fd) (L, log) := by
  apply Always.silent_step trivial (fun _ => rfl)
  intro ch buf L₁ hact
  obtain ⟨rfl, rfl⟩ := Prod.mk.inj (Option.some.inj hact)
  apply Always.logging_step trivial
  rintro ch ⟨n, err⟩ L₁ hact
  simp only [Program.bind]
  obtain ⟨data, rfl, hfit, hr, rfl⟩ | ⟨e, rfl, hr, rfl⟩ := act_unixRead cfg hact
  · obtain ⟨rfl, rfl⟩ := Prod.mk.inj hr
    have hm : Moves cfg c [] L
        { L.modify c (·.note (.syscall .read (cfg.fd c))) with heap := fill L.heap L.packet data } :=
      moves_modify (f := (·.note (.syscall .read (cfg.fd c)))) [_] rfl (fun hv => valid_fill hv hv hfit) rfl rfl .start
    by_cases hzero : data = []
    · subst hzero
      rw [if_pos (.inl rfl), if_pos (by simp)]
      have hs : Serves cfg c [] L log
          ({ L.modify c (·.note (.syscall .read (cfg.fd c))) with heap := fill L.heap L.packet [] }, log ++ []) := by
        rw [List.append_nil]
        exact .of_moves hm rfl (List.nil_sublist _) log
      exact hs.ends ((emits_close fd).mono fun _ => ends_of_emits)
    · have hsome : ¬((data.length : Int) = 0 ∨ (none : Option Errno) ≠ none) := by simpa using hzero
      have hlog : intake (.unixRead c (cfg.fd c) L.packet : Op C κ δ) (.bytes data) L = [(c, data)] := if_neg hzero
      rw [if_neg hsome, hlog]
      exact (parse_serves (hm.packet hv) hfit (contents_fill hv data) fuel log).mono fun _ _ hs => hs.after hm
  · obtain ⟨rfl, rfl⟩ := Prod.mk.inj hr
    have hm : Moves cfg c [] L (L.modify c (·.note (.syscall .read (cfg.fd c)))) :=
      moves_hidden [_] rfl rfl rfl rfl rfl rfl rfl
    have hs : Serves cfg c [] L log (L.modify c (·.note (.syscall .read (cfg.fd c))), log ++ []) := by
      rw [List.append_nil]
      exact .of_moves hm rfl (List.nil_sublist _) log
    rw [if_pos (.inr (by simp))]
    split
    · exact hs.ends ((emits_close fd).mono fun _ => ends_of_emits)
    · exact hs

end Reading

section Events

omit [DecidableEq C] in
theorem ends_writeBranch (cfg : Config C σ κ δ) (c : C) (fd : Fd) : (writeBranch cfg c fd).Uses (Ends c) := by
  apply Program.Uses.bind ((emits_handleWrite fd).mono fun _ => ends_of_emits)
  intro closed
  cases closed with
  | true => trivial
  | false =>
      refine ⟨.inl rfl, ?_⟩
      intro empty
      cases empty with
      | true => exact ⟨.inl ⟨rfl, rfl⟩, fun _ => trivial⟩
      | false => trivial

/-- An input buffer is reset only when it is empty. -/
theorem Serves.tidy (h : Serves cfg c us L log (L', log')) :
    Always (reading cfg) (fun _ _ => True) (fun _ => Serves cfg c us L log)
      (do resetIfEmpty c .inBuffer; return false) (L', log') := by
  apply Always.silent_step trivial (fun _ => rfl)
  intro ch empty L₁ hact
  have hm : Moves cfg c [] L' L₁ := act_hidden (o := .isEmpty c .inBuffer) rfl hact
  have hs := h.trans hm rfl rfl
  cases empty with
  | false => exact hs
  | true =>
      apply Always.silent_step trivial (fun _ => rfl)
      intro ch _ L₂ hact₂
      obtain ⟨hempty, rfl⟩ := Prod.mk.inj (Option.some.inj hact)
      have hin : (L'.conns c).inBuffer = .empty := eq_ofList_nil ((RingBuffer.isEmpty_iff _).mp hempty)
      cases hact₂
      refine hs.trans (moves_hidden [.touch .inBuffer] rfl rfl rfl rfl rfl rfl ?_) rfl rfl
      rw [modify_self]
      exact hin.symm

theorem handleReady_serves (hv : Valid L.heap L.packet) (fuel : Nat) (fd : Fd) (events : UInt32)
    (log : List (C × Bytes)) :
    Always (reading cfg) (fun _ _ => True) (fun _ => Serves cfg c [] L log) (handleReady cfg fuel c fd events)
      (L, log) := by
  apply Always.silent_step trivial (fun _ => rfl)
  intro ch empty L₁ hact
  have hm : Moves cfg c [] L L₁ := act_hidden (o := .isEmpty c .outBuffer) rfl hact
  have hs : Serves cfg c [] L log (L₁, log) := .of_moves hm rfl (List.nil_sublist _) log
  simp only [Program.bind]
  split
  · split
    · exact hs.ends (ends_writeBranch cfg c fd)
    · exact hs
  · split
    · apply Always.bind
      apply (handleRead_serves (hm.packet hv) fuel fd log).mono
      rintro closed ⟨L₂, log₂⟩ hs₂
      cases closed with
      | true => exact hs₂.after hm
      | false => exact (hs₂.after hm).tidy
    · exact hs

theorem dispatch_serves (hv : Valid L.heap L.packet) (fuel : Nat) (fd : Fd) (events : UInt32)
    (log : List (C × Bytes)) :
    Always (reading cfg) (fun _ _ => True) (fun _ => Serves cfg c [] L log) (dispatch cfg fuel c fd events)
      (L, log) := by
  unfold dispatch
  split
  · have hs : Serves cfg c [] L log (L, log) := .of_moves (.refl cfg c L) rfl (List.nil_sublist _) log
    exact hs.ends ((emits_handleClose fd).mono fun _ => ends_of_emits)
  · apply Always.bind
    apply (handleReady_serves hv fuel fd events log).mono
    rintro closed ⟨L₁, log₁⟩ hs
    cases closed with
    | true => exact hs
    | false => exact hs.ends (p := call (.swapLengths c)) ⟨.inl rfl, fun _ => trivial⟩

/-- An event serves the connection it is for, or none. -/
theorem handlerEvent_serves (c : C) (hv : Valid L.heap L.packet) (fuel : Nat) (fd : Fd) (events : UInt32)
    (log : List (C × Bytes)) :
    Always (reading cfg) (fun _ _ => True) (fun _ s => ∃ d, Serves cfg d [] L log s) (handlerEvent cfg fuel fd events)
      (L, log) := by
  apply Always.silent_step trivial (fun _ => rfl)
  intro ch found L₁ hact
  obtain ⟨-, rfl⟩ := Prod.mk.inj (Option.some.inj hact)
  cases found with
  | none => exact ⟨c, .of_moves (.refl cfg c L) rfl (List.nil_sublist _) log⟩
  | some d =>
      change Always _ _ _ (handleEvent cfg fuel d fd events) (L, log)
      simp only [handleEvent]
      split
      · apply Always.silent_step trivial (fun _ => rfl)
        intro now _ L₁ hact
        have hm : Moves cfg d [] L L₁ := act_hidden (o := .markActive d) rfl hact
        exact (dispatch_serves (hm.packet hv) fuel fd events log).mono fun _ _ hs => ⟨d, hs.after hm⟩
      · exact (dispatch_serves hv fuel fd events log).mono fun _ _ hs => ⟨d, hs⟩

variable (cfg) in
theorem register_serves (c : C) (L : Local C σ κ δ) (log : List (C × Bytes)) :
    Always (reading cfg) (fun _ _ => True) (fun _ => Serves cfg c [.register c] L log) (taskBody cfg (.register c))
      (L, log) := by
  apply Always.silent_step trivial (fun _ => rfl)
  intro ch _ L₁ hact
  cases hact
  have hm : Moves cfg c [.connect] L
      (L.modify c fun x => { x.note .onConnect with user := cfg.callBack.onConnect x.user }) :=
    moves_modify [.onConnect] rfl id rfl rfl (.one (.connect _))
  apply (Serves.of_moves hm rfl (List.nil_sublist _) log).ends
  refine ⟨.inl trivial, fun _ => ⟨.inl rfl, ?_⟩⟩
  intro ok
  cases ok with
  | true => exact ⟨.inl trivial, fun _ => trivial⟩
  | false => exact ⟨.inl trivial, fun _ => trivial⟩

variable (cfg) in
theorem send_serves (c : C) (data : δ) (finish : Bool) (L : Local C σ κ δ) (log : List (C × Bytes)) :
    Always (reading cfg) (fun _ _ => True) (fun _ => Serves cfg c [.send c data finish] L log)
      (taskBody cfg (.send c data finish)) (L, log) := by
  apply Always.silent_step trivial (fun _ => rfl)
  intro ch connected L₁ hact
  obtain ⟨-, rfl⟩ := Prod.mk.inj (Option.some.inj hact)
  cases connected with
  | false => exact .of_moves (.refl cfg c L) rfl (List.nil_sublist _) log
  | true =>
      apply Always.silent_step trivial (fun _ => rfl)
      intro ch packed L₁ hact
      obtain ⟨rfl, rfl⟩ := Prod.mk.inj (Option.some.inj hact)
      obtain ⟨k, hk, hemits⟩ := emits_sendInLoop cfg c (cfg.protocol.packet (L.conns c).user data)
      simp only [Program.bind]
      rw [hk]
      apply Always.silent_step trivial (fun _ => rfl)
      intro ch r L₁ hact
      cases hact
      have hm : Moves cfg c [.send data (cfg.protocol.packet (L.conns c).user data)] L
          (L.modify c (·.note (.sendInLoop (cfg.protocol.packet (L.conns c).user data)))) :=
        moves_modify [_] rfl id rfl rfl (.one (.send (peer L c) data))
      have hsends : [data].Sublist (([.send c data finish].filterMap (sendsTo c)).map Prod.fst) := by simp [sendsTo]
      apply (Serves.of_moves hm rfl hsends log).ends
      apply Program.Uses.bind ((hemits ()).mono fun _ => ends_of_emits)
      intro _
      cases finish with
      | true => exact ⟨.inl rfl, fun _ => trivial⟩
      | false => trivial

omit [DecidableEq C] in
theorem ends_closeAll (c : C) (ds : List C) : (closeAll ds : Prog C κ δ Unit).Uses (Ends c) := by
  induction ds with
  | nil => trivial
  | cons d ds ih =>
      refine ⟨.inl trivial, ?_⟩
      intro connected
      cases connected with
      | false => exact ih
      | true =>
          refine ⟨.inl trivial, fun _ => ⟨.inl trivial, ?_⟩⟩
          intro swapped
          cases swapped with
          | true => exact ⟨.inl trivial, fun _ => ih⟩
          | false => exact ih

/-- A task serves the connection it is for, or none. -/
theorem taskBody_serves (c : C) (t : Task C δ) (L : Local C σ κ δ) (log : List (C × Bytes)) :
    Always (reading cfg) (fun _ _ => True) (fun _ s => ∃ d, Serves cfg d [t] L log s) (taskBody cfg t) (L, log) := by
  have hrest : ∀ d, Serves cfg d [t] L log (L, log) :=
    fun d => .of_moves (.refl cfg d L) rfl (List.nil_sublist _) log
  cases t with
  | register d => exact (register_serves cfg d L log).mono fun _ _ hs => ⟨d, hs⟩
  | send d data finish => exact (send_serves cfg d data finish L log).mono fun _ _ hs => ⟨d, hs⟩
  | close d =>
      exact ((hrest d).ends ((emits_handleClose (cfg.fd d)).mono fun _ => ends_of_emits)).mono fun _ _ hs => ⟨d, hs⟩
  | closing =>
      have huses : (taskBody cfg .closing).Uses (Ends c) :=
        ⟨.inl trivial, fun ds => (ends_closeAll c ds).bind fun _ => ⟨.inl trivial, fun _ => trivial⟩⟩
      exact ((hrest c).ends huses).mono fun _ _ hs => ⟨c, hs⟩

end Events

section Lives

/-- After the given tasks and with the given log, a connection of the loop has gone through events that account for its
history and for all that was read for it. -/
structure Lives (cfg : Config C σ κ δ) (x : Peer σ) (c : C) (ts : List (Task C δ)) (L : Local C σ κ δ)
    (log : List (C × Bytes)) (es : List (Event κ δ)) : Prop where
  behaves : Behaves cfg x es (peer L c)
  sights : sights (L.conns c) = es.flatMap Event.sights
  input : received c log = es.filterMap Event.input
  sends : (es.filterMap Event.sends).Sublist ((ts.filterMap (sendsTo c)).map Prod.fst)

theorem Lives.messages {x : Peer σ} {ts : List (Task C δ)} {es : List (Event κ δ)} (h : Lives cfg x c ts L log es) :
    messages (L.conns c) = es.flatMap Event.calls := by
  rw [messages_eq_called, h.sights, List.filterMap_flatMap]
  simp only [calls_eq_called]

theorem Lives.no_sends {x : Peer σ} {ts : List (Task C δ)} {es : List (Event κ δ)} (h : Lives cfg x c ts L log es)
    (hts : ts.filterMap (sendsTo c) = []) : es.filterMap Event.sends = [] := by
  have hsub := h.sends
  rw [hts] at hsub
  exact List.sublist_nil.mp hsub

def Lived (cfg : Config C σ κ δ) (x : Peer σ) (c : C) (ts : List (Task C δ)) (L : Local C σ κ δ)
    (log : List (C × Bytes)) : Prop := Valid L.heap L.packet ∧ ∃ es, Lives cfg x c ts L log es

theorem Lived.serves {x : Peer σ} {ts : List (Task C δ)} {d : C} {s : Local C σ κ δ × List (C × Bytes)}
    (h : Lived cfg x c ts L log) (hs : Serves cfg d us L log s) : Lived cfg x c (ts ++ us) s.1 s.2 := by
  obtain ⟨hv, es, h⟩ := h
  obtain ⟨es', hm, hlog, hsends⟩ := hs
  refine ⟨hm.packet hv, ?_⟩
  by_cases hd : c = d
  · subst hd
    refine ⟨es ++ es', h.behaves.append hm.behaves, ?_, ?_, ?_⟩
    · rw [hm.sights, h.sights, List.flatMap_append]
    · rw [hlog, h.input, if_pos rfl, List.filterMap_append]
    · rw [List.filterMap_append, List.filterMap_append, List.map_append]
      exact h.sends.append hsends
  · have hpeer : peer s.1 c = peer L c := by rw [peer, hm.others c hd, peer]
    refine ⟨es, hpeer ▸ h.behaves, ?_, ?_, ?_⟩
    · rw [hm.others c hd, h.sights]
    · rw [hlog, if_neg hd, List.append_nil, h.input]
    · rw [List.filterMap_append, List.map_append]
      exact h.sends.trans (List.sublist_append_left _ _)

end Lives

end Gev.Connection.Intake
