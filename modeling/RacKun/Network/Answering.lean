/-
  RacKun.Network.Answering — the call of `answer_join_request` an event leads to, if any.

  Three handlers make it: a JOIN request that finds the token free, and, through
  `check_for_new_peers`, a READY Notification and a join timer. `answering` runs an
  event up to the call and gives its state and its arguments; `answers` reads the
  arguments off the membership and the change.

  - `handle_answering`: what is left of the event is the call.
  - `answering_answers`: the two agree.
-/

import RacKun.Network.Groups

namespace RacKun

open Lib (OrdMap bind_ok pure_ok ok_bind)

namespace Membership

/-- Whom a change answers, and with which port. -/
def answers (m : Membership) : Change → Option (PeerRef × Port)
  | .request p _ _ port _ => if m.joinToken then some (p, port) else none
  | .completed p => (m.setState p .connected).waiting?
  | .expired id => (m.joinTimers.find? id).bind fun t => (m.setState t.peer .connected).waiting?
  | _ => none

theorem waiting_mem {m : Membership} {p : PeerRef} {port : Port} (h : m.waiting? = some (p, port)) :
    ∃ address, m.newPeers.find? address = some (some p, port) ∧ (m.peer p).isKnown = true := by
  obtain ⟨⟨address, q, port'⟩, he, hq⟩ := List.exists_of_findSome?_eq_some h
  obtain ⟨p', hp', hpp⟩ := Option.map_eq_some_iff.mp hq
  cases hpp
  obtain ⟨rfl, hk⟩ := Option.filter_eq_some_iff.mp hp'
  exact ⟨address, OrdMap.mem_entries.mp he, hk⟩

/-- Whoever is answered has just asked, or was in the table. -/
theorem answers_entry {m : Membership} {c : Change} {p : PeerRef} {port : Port} (h : m.answers c = some (p, port)) :
    (∃ id pubK newId, c = .request p id pubK port newId ∧ m.joinToken = true) ∨
      ∃ address, m.newPeers.find? address = some (some p, port) := by
  cases c with
  | request q id pubK port' newId =>
    simp only [answers] at h
    split at h
    · rename_i ht
      cases h
      exact Or.inl ⟨id, pubK, newId, rfl, ht⟩
    · cases h
  | completed q =>
    obtain ⟨address, hf, -⟩ := waiting_mem h
    exact Or.inr ⟨address, hf⟩
  | expired id =>
    obtain ⟨t, -, hw⟩ := Option.bind_eq_some_iff.mp h
    obtain ⟨address, hf, -⟩ := waiting_mem hw
    exact Or.inr ⟨address, hf⟩
  | idle => cases h
  | accept address => cases h
  | contact address => cases h
  | notified groupId peerId pubK address => cases h
  | unreached => cases h
  | channels peerId => cases h
  | acked q groupId peerId pubK => cases h
  | ready => cases h
  | readySent id => cases h
  | closed q => cases h
  | failed q => cases h

end Membership

namespace Network

/-- Without a null peer, the search ends. -/
theorem firstKnown_total (s : Network) : ∀ {l : List (Bytes × Option PeerRef × Port)}, (∀ e ∈ l, e.2.1 ≠ none) →
    ∃ r, s.firstKnown l = .ok r := by
  intro l
  induction l with
  | nil => intro _; exact ⟨none, rfl⟩
  | cons e l ih =>
    obtain ⟨k, q, port⟩ := e
    intro h
    cases q with
    | none => exact absurd rfl (h _ List.mem_cons_self)
    | some p =>
      rw [firstKnown]
      split
      · exact ⟨_, rfl⟩
      · exact ih fun e he => h e (List.mem_cons_of_mem _ he)

variable [Platform]

/-- `check_for_new_peers`, up to the call. -/
def answeringNew (s : Network) : Option (Network × PeerRef × Port) :=
  match s.firstKnown s.newPeers.entries with
  | .ok (some (p, port)) => some (s, p, port)
  | _ => none

/-- JOIN, up to the answer: the emitter is joining, and his request is logged. -/
def greeted (s : Network) (m : Message) (emitter : PeerRef) (id pubK : Bytes) : Except Stop Network :=
  let s := if s.localState ≠ .connected then s.foundGroup else s
  let s := { s with toMembership := (s.initPeer emitter id pubK).setState emitter .joining }
  s.logMessage m emitter

/-- The switch on the type, up to the call. -/
def answeringMessage (s : Network) (m : Message) (emitter : PeerRef) : Option (Network × PeerRef × Port) :=
  match m.payload with
  | .join id pubK port =>
    match s.greeted m emitter id pubK with
    | .ok s => if s.joinToken then some (s, emitter, port) else none
    | .error _ => none
  | .readyNotif => { s with toMembership := s.setState emitter .connected }.answeringNew
  | _ => none

/-- The state in which an event executes `answer_join_request`, the peer and the port. -/
def answering (s : Network) : Event → Option (Network × PeerRef × Port)
  | .read p received _ =>
    match parseMessage received with
    | .error _ => none
    | .ok m =>
      match s.findLog m with
      | some _ => none
      | none =>
        match (do (← s.logKnown m p).forward m) with
        | .ok s => s.answeringMessage m p
        | .error _ => none
  | .joinTimer id =>
    match s.joinTimers.find? id with
    | some t =>
      let s := { s with joinTimers := s.joinTimers.insert id { t with armed := false } }
      let s := { s with toMembership := s.setState t.peer .connected }
      { s with joinTimers := s.joinTimers.erase (s.getId t.peer) }.answeringNew
    | none => none
  | _ => none

/-! ## The call is made -/

theorem check_answering {s t : Network} {p : PeerRef} {port : Port} (h : s.answeringNew = some (t, p, port)) :
    s.checkForNewPeers = t.answerJoinRequest p port := by
  unfold answeringNew at h
  split at h
  · rename_i hr
    cases h
    rw [checkForNewPeers, hr, ok_bind]
  · cases h

theorem processJoin_eq (s : Network) (m : Message) (emitter : PeerRef) (id pubK : Bytes) (port : Port) :
    s.processJoin m emitter id pubK port = (do
      let s ← s.greeted m emitter id pubK
      if s.joinToken then s.answerJoinRequest emitter port
      else pure { s with toMembership := s.pend emitter port }) := rfl

theorem process_answering {s t : Network} {m : Message} {emitter p : PeerRef} {port : Port} (reached : Option Bytes)
    (h : s.answeringMessage m emitter = some (t, p, port)) :
    s.process m emitter reached = t.answerJoinRequest p port := by
  cases hm : m.payload with
  | join id pubK port' =>
    simp only [answeringMessage, hm] at h
    simp only [process, hm, processJoin_eq]
    cases hg : s.greeted m emitter id pubK with
    | error e => rw [hg] at h; cases h
    | ok u =>
      rw [hg] at h
      rw [ok_bind]
      cases hu : u.joinToken with
      | false => simp only [hu, Bool.false_eq_true, if_false] at h; cases h
      | true =>
        simp only [hu, if_true] at h
        cases h
        rfl
  | readyNotif =>
    simp only [answeringMessage, hm] at h
    simp only [process, hm]
    exact check_answering h
  | joinNotif marker channel groupId peerId pubK ip port' => simp only [answeringMessage, hm] at h; cases h
  | joinAck groupId peerId pubK => simp only [answeringMessage, hm] at h; cases h
  | ready => simp only [answeringMessage, hm] at h; cases h
  | data marker content => simp only [answeringMessage, hm] at h; cases h

/-- What is left of the event is the call. -/
theorem handle_answering {s t : Network} {e : Event} {p : PeerRef} {port : Port}
    (h : s.answering e = some (t, p, port)) (rounds : Nat) : handle rounds s e = t.answerJoinRequest p port := by
  cases e with
  | read q received reached =>
    simp only [answering] at h
    simp only [handle, handleIncomingMessage]
    cases hm : parseMessage received with
    | error e => simp only [hm] at h; cases h
    | ok m =>
      simp only [hm] at h ⊢
      cases hl : s.findLog m with
      | some l => simp only [hl] at h; cases h
      | none =>
        simp only [hl] at h ⊢
        cases hu : (do (← s.logKnown m q).forward m) with
        | error e => simp only [hu] at h; cases h
        | ok u =>
          simp only [hu] at h
          have hr : s.receive m q reached = t.answerJoinRequest p port := by
            obtain ⟨v, hv, hu⟩ := bind_ok.mp hu
            rw [receive, hv, ok_bind, hu, ok_bind]
            exact process_answering reached h
          rw [hr]
          split
          · rename_i u hu
            exact absurd hu (answerJoinRequest_quiet t p port u)
          · rfl
  | joinTimer id =>
    simp only [answering] at h
    simp only [handle]
    split
    · rename_i t' ht
      simp only [ht] at h
      exact check_answering h
    · rename_i ht
      simp only [ht] at h
      cases h
  | accept address => cases h
  | eof q => cases h
  | readError q => cases h
  | readyTimer id => cases h
  | join ip port' reached => cases h
  | broadcast content => cases h
  | sendAll message => cases h

/-! ## Whom it answers -/

theorem greeted_membership {s t : Network} {m : Message} {emitter : PeerRef} {id pubK : Bytes}
    (h : s.greeted m emitter id pubK = .ok t) :
    t.toMembership = s.toMembership.greet emitter id pubK (makeHash (s.getId s.localPeer ++ itos (s.clock 0))) := by
  rw [logMessage_membership h, Membership.greet, ← foundGroup_membership]
  by_cases hc : s.localState ≠ .connected
  · simp only [if_pos hc]
  · simp only [if_neg hc]

theorem check_answers {s s' : Network} (h : s.checkForNewPeers = .ok s') :
    s.answeringNew.map Prod.snd = s.toMembership.waiting? := by
  obtain ⟨r, hr, -⟩ := bind_ok.mp h
  rw [answeringNew, hr, Membership.waiting?, ← firstKnown_waiting hr]
  cases r <;> rfl

theorem processJoin_answers {s s' : Network} {m : Message} {emitter : PeerRef} {id pubK : Bytes} {port : Port}
    (hm : m.payload = .join id pubK port) (h : outcome (s.processJoin m emitter id pubK port) = some s') :
    (s.answeringMessage m emitter).map Prod.snd = if s.joinToken then some (emitter, port) else none := by
  rw [processJoin_eq] at h
  obtain ⟨t, ht, -⟩ := outcome_bind (x := s.greeted m emitter id pubK) (logMessage_quiet _ _ _) h
  have hj : t.joinToken = s.joinToken := by rw [greeted_membership ht, Membership.greet_token]
  simp only [answeringMessage, hm, ht, hj]
  split <;> rfl

theorem process_answers {s s' : Network} {m : Message} {emitter : PeerRef} {reached : Option Bytes}
    (h : outcome (s.process m emitter reached) = some s') :
    (s.answeringMessage m emitter).map Prod.snd = s.toMembership.answers (s.messageChange m emitter reached) := by
  unfold process at h
  unfold messageChange
  cases hm : m.payload with
  | join id pubK port =>
    simp only [hm] at h
    exact processJoin_answers hm h
  | readyNotif =>
    simp only [hm] at h
    simp only [answeringMessage, hm]
    exact check_answers (outcome_quiet (checkForNewPeers_quiet _) h)
  | joinNotif marker channel groupId peerId pubK ip port =>
    simp only [answeringMessage, hm]
    split
    · cases reached <;> rfl
    · split <;> rfl
  | joinAck groupId peerId pubK => simp only [answeringMessage, hm]; rfl
  | ready => simp only [answeringMessage, hm]; rfl
  | data marker content => simp only [answeringMessage, hm]; rfl

/-- A message that is handled to the end has been logged and relayed, and processed. -/
theorem handle_received {s s' : Network} {received : Bytes} {p : PeerRef} {reached : Option Bytes} {m : Message}
    (hm : parseMessage received = .ok m) (hl : s.findLog m = none)
    (h : s.handleIncomingMessage received p reached = .ok s') : ∃ t u v, s.logKnown m p = .ok t ∧ t.forward m = .ok u ∧
      outcome (u.process m p reached) = some v ∧ (s' = v ∨ s' = v.record [.reported received]) := by
  have hr : ∃ v, outcome (s.receive m p reached) = some v ∧ (s' = v ∨ s' = v.record [.reported received]) := by
    simp only [handleIncomingMessage, hm, hl] at h
    split at h
    · rename_i v hv
      cases h
      exact ⟨v, by rw [hv]; rfl, Or.inr rfl⟩
    · exact ⟨s', by rw [h]; rfl, Or.inl rfl⟩
  obtain ⟨v, hv, hs'⟩ := hr
  obtain ⟨t, ht, hv⟩ := outcome_bind (logKnown_quiet s m p) hv
  obtain ⟨u, hu, hv⟩ := outcome_bind (forward_quiet t m) hv
  exact ⟨t, u, v, ht, hu, hv, hs'⟩

/-- Logging and relaying leave the membership and the clock alone. -/
theorem relayed_same {s t u : Network} {m : Message} {p : PeerRef} (ht : s.logKnown m p = .ok t)
    (hu : t.forward m = .ok u) : u.toMembership = s.toMembership ∧ u.clock = s.clock := by
  refine ⟨(forward_membership hu).trans (logKnown_membership ht), (forward_clock hu).trans ?_⟩
  unfold logKnown at ht
  split at ht
  · exact (logMessage_logs ht).clock
  · cases ht; rfl

theorem answering_answers {rounds : Nat} {s s' : Network} {e : Event} (h : handle rounds s e = .ok s') :
    (s.answering e).map Prod.snd = s.toMembership.answers (s.change e) := by
  cases e with
  | read p received reached =>
    simp only [answering, change]
    cases hm : parseMessage received with
    | error e => rfl
    | ok m =>
      cases hl : s.findLog m with
      | some l => simp only [hl, Option.isSome_some, if_true]; rfl
      | none =>
        obtain ⟨t, u, v, ht, hu, hv, -⟩ := handle_received hm hl h
        obtain ⟨hum, huc⟩ := relayed_same ht hu
        have htu : (do (← s.logKnown m p).forward m) = .ok u := bind_ok.mpr ⟨t, ht, hu⟩
        simp only [hl, htu, Option.isSome_none, Bool.false_eq_true, if_false]
        rw [process_answers hv, hum, messageChange_congr hum huc]
  | joinTimer id =>
    simp only [handle] at h
    simp only [answering, change, Membership.answers]
    cases ht : s.joinTimers.find? id with
    | none => rfl
    | some t =>
      simp only [ht] at h
      exact check_answers h
  | join ip port reached => cases reached <;> rfl
  | accept address => rfl
  | eof p => rfl
  | readError p => rfl
  | readyTimer id => rfl
  | broadcast content => rfl
  | sendAll message => rfl

omit [Platform] in
theorem answeringNew_some {s t : Network} {p : PeerRef} {port : Port} (h : s.answeringNew = some (t, p, port)) :
    t = s ∧ s.toMembership.waiting? = some (p, port) := by
  unfold answeringNew at h
  split at h
  · rename_i hr
    cases h
    exact ⟨rfl, (firstKnown_waiting hr).symm⟩
  · cases h

/-- A node that answers has a local group; if not, it had none before, and found the peer
    in the table. -/
theorem answering_some {s t : Network} (hs : s.toMembership.Sound) {e : Event} {p : PeerRef} {port : Port}
    (h : s.answering e = some (t, p, port)) : s.toMembership.answers (s.change e) = some (p, port) ∧
      (t.localGroup ≠ none ∨ t.localGroup = s.localGroup ∧
        ∀ id pubK newId, s.change e ≠ .request p id pubK port newId) := by
  cases e with
  | read q received reached =>
    simp only [answering] at h
    simp only [change]
    cases hm : parseMessage received with
    | error e => simp only [hm] at h; cases h
    | ok m =>
      simp only [hm] at h
      cases hl : s.findLog m with
      | some l => simp only [hl] at h; cases h
      | none =>
        simp only [hl] at h
        cases hu : (do (← s.logKnown m q).forward m) with
        | error e => simp only [hu] at h; cases h
        | ok u =>
          simp only [hu] at h
          obtain ⟨v, hv, hu⟩ := bind_ok.mp hu
          obtain ⟨hum, huc⟩ := relayed_same hv hu
          simp only [hl, Option.isSome_none, Bool.false_eq_true, if_false]
          simp only [← messageChange_congr hum huc]
          rw [← hum]
          rw [← hum] at hs
          unfold answeringMessage at h
          unfold messageChange
          split at h
          · rename_i id pubK port' hm
            simp only [hm]
            cases hw : u.greeted m q id pubK with
            | error e => rw [hw] at h; cases h
            | ok w =>
              simp only [hw] at h
              split at h
              · rename_i hj
                cases h
                rw [greeted_membership hw, Membership.greet_token] at hj
                refine ⟨if_pos hj, Or.inl ?_⟩
                rw [greeted_membership hw]
                obtain ⟨l, hl⟩ := Membership.greet_localGroup hs p id pubK
                  (makeHash (u.getId u.localPeer ++ itos (u.clock 0)))
                rw [hl]
                exact Option.some_ne_none l
              · cases h
          · rename_i hm
            simp only [hm]
            obtain ⟨rfl, hw⟩ := answeringNew_some h
            exact ⟨hw, Or.inr ⟨rfl, fun _ _ _ h => by cases h⟩⟩
          · cases h
  | joinTimer id =>
    simp only [answering] at h
    simp only [change, Membership.answers]
    cases ht : s.joinTimers.find? id with
    | none => simp only [ht] at h; cases h
    | some t' =>
      simp only [ht] at h
      obtain ⟨rfl, hw⟩ := answeringNew_some h
      exact ⟨hw, Or.inr ⟨rfl, fun _ _ _ h => by cases h⟩⟩
  | accept address => cases h
  | eof q => cases h
  | readError q => cases h
  | readyTimer id => cases h
  | join ip port' reached => cases h
  | broadcast content => cases h
  | sendAll message => cases h

end Network

end RacKun
