/-
  RacKun.Network.Talk — what an event leaves in the log, the markers and the trace.

  Entries of the log and of the markers stay; and what is sent is in the log afterwards,
  because `broadcast`, `send` and the READY Notification log what they send. Only
  `send_all` sends without logging.

  - `Talks`: what two states have in common, reflexive and transitive.
  - `handle_talks`: an event that is no `send_all` talks.
-/

import RacKun.Network.Answering
import RacKun.Wire.Codec

namespace RacKun

open Lib (OrdMap bind_ok pure_ok ok_bind)

namespace History

theorem insert_keeps {h : History} {stamp : Bytes} (l : MessageLog) (hs : (h.find? stamp).isSome) :
    ((h.insert l).find? stamp).isSome := by
  by_cases hl : h.find? l.stamp = none
  · rw [find_insert hl]
    split
    · rfl
    · exact hs
  · have hm : l.stamp ∈ h.entries.map MessageLog.stamp := by
      obtain ⟨l', hl'⟩ := Option.ne_none_iff_exists'.mp hl
      refine List.mem_map.mpr ⟨l', List.mem_of_find?_eq_some hl', ?_⟩
      simpa using List.find?_some hl'
    rw [insert, dif_pos hm]
    exact hs

theorem ack_keeps (h : History) (stamp id q : Bytes) : ((h.ack stamp id).find? q).isSome = (h.find? q).isSome := by
  rw [find_ack, Option.isSome_map]

end History

namespace Network

/-- The stamp of a message in a string of bytes. -/
def stampIn (bytes : Bytes) : Bytes := (bytes.drop 1).take MSG_STAMP_LENGTH

/-- A parsed message is logged under the stamp it came with. -/
theorem stampOf_parsed [Platform] {received : Bytes} {m : Message} (h : parseMessage received = .ok m) :
    stampOf m = stampIn received := by
  obtain ⟨⟨hs, -⟩, -, hl⟩ := parse_layout h
  have hst : stampOf m = (m.stamp ++ m.payload.fields).take MSG_STAMP_LENGTH := rfl
  have hs : m.stamp = stampIn received := hs
  rw [hst]
  by_cases h40 : 40 ≤ received.length
  · have hlen : m.stamp.length = MSG_STAMP_LENGTH := by
      rw [hs, stampIn, List.length_take, List.length_drop, MSG_STAMP_LENGTH]
      omega
    rw [← hs, List.take_left' hlen]
  · -- a short message is a READY or a READY Notification: its stamp is the rest of it
    have hf : m.payload.fields = [] := by
      cases hp : m.payload <;> rw [hp] at hl <;> simp only [Payload.Layout] at hl <;> first | rfl | omega
    rw [hf, List.append_nil, hs, stampIn, List.take_take, Nat.min_self]

structure Talks (s s' : Network) : Prop where
  markers : ∀ marker gid, s.channelMarkers.find? marker = some gid → s'.channelMarkers.find? marker = some gid
  logs : ∀ stamp, (s.logs.find? stamp).isSome → (s'.logs.find? stamp).isSome
  trace : ∃ es, s'.trace = s.trace ++ es ∧ ∀ p bytes, .sent p bytes ∈ es → (s'.logs.find? (stampIn bytes)).isSome

theorem Talks.same {s s' : Network} (hm : s'.channelMarkers = s.channelMarkers) (hl : s'.logs = s.logs)
    (ht : s'.trace = s.trace) : Talks s s' :=
  ⟨fun k x h => hm ▸ h, fun k h => hl ▸ h, [], by rw [ht, List.append_nil], fun p b h => by cases h⟩

theorem Talks.refl (s : Network) : Talks s s := .same rfl rfl rfl

theorem Talks.trans {s t u : Network} (h : Talks s t) (h' : Talks t u) : Talks s u := by
  obtain ⟨es, he, hes⟩ := h.trace
  obtain ⟨es', he', hes'⟩ := h'.trace
  refine ⟨fun k x hk => h'.markers k x (h.markers k x hk), fun k hk => h'.logs k (h.logs k hk), es ++ es', ?_, ?_⟩
  · rw [he', he, List.append_assoc]
  · intro p b hb
    rcases List.mem_append.mp hb with hb | hb
    · exact h'.logs _ (hes p b hb)
    · exact hes' p b hb

/-- The membership does not matter. -/
theorem Talks.before {s s' : Network} {m : Membership} (h : Talks { s with toMembership := m } s') : Talks s s' :=
  ⟨h.markers, h.logs, h.trace⟩

theorem Talks.after {s s' : Network} {m : Membership} (h : Talks s s') : Talks s { s' with toMembership := m } :=
  ⟨h.markers, h.logs, h.trace⟩

theorem Talks.still (s : Network) (m : Membership) : Talks s { s with toMembership := m } := (Talks.refl s).after

/-! ## Small steps -/

theorem record_talks (s : Network) {es : List Effect} (hes : ∀ p b, .sent p b ∉ es) : Talks s (s.record es) :=
  ⟨fun _ _ h => h, fun _ h => h, es, rfl, fun p b h => absurd h (hes p b)⟩

theorem connected_talks (s : Network) (m : Membership) (p : PeerRef) (ip port : Bytes) :
    Talks s ({ s with toMembership := m }.record [.connected p ip port]) :=
  (record_talks { s with toMembership := m } fun q b hb => by cases List.mem_singleton.mp hb).before

/-- A marker is entered, if it is new. -/
theorem Talks.marked {s s' : Network} {marker id : Bytes} (hm : s'.channelMarkers = s.channelMarkers.insertNew marker id)
    (hl : s'.logs = s.logs) (ht : s'.trace = s.trace) : Talks s s' := by
  refine ⟨fun k x h => ?_, fun _ h => hl ▸ h, [], by rw [ht, List.append_nil], fun p b h => by cases h⟩
  rw [hm, OrdMap.find_insertNew]
  split
  · rename_i hk
    rw [← hk, h]
    rfl
  · exact h

theorem enterLog_keeps {s s' : Network} {m : Message} (h : s.enterLog m = .ok s') {stamp : Bytes}
    (hs : (s.logs.find? stamp).isSome) : (s'.logs.find? stamp).isSome := by
  cases hl : s.findLog m with
  | some l =>
    rw [enterLog_logged hl] at h
    cases h
    exact hs
  | none =>
    cases hb : m.bcastMarker? with
    | none =>
      rw [enterLog_plain hl hb] at h
      cases h
      exact History.insert_keeps _ hs
    | some marker =>
      cases hg : s.groups.find? (s.markerGid marker) with
      | none => rw [enterLog_null hl hb hg] at h; cases h
      | some g =>
        rw [enterLog_broadcast hl hb hg] at h
        cases h
        exact History.insert_keeps _ hs

theorem logMessage_keeps {s s' : Network} {m : Message} {p : PeerRef} (h : s.logMessage m p = .ok s') {stamp : Bytes}
    (hs : (s.logs.find? stamp).isSome) : (s'.logs.find? stamp).isSome := by
  obtain ⟨t, ht, h⟩ := bind_ok.mp h
  have hk := enterLog_keeps ht hs
  rw [← pure_ok.mp h]
  split
  · exact hk
  · rw [show ({ t with logs := t.logs.ack (stampOf m) (t.getId p) } : Network).logs.find? stamp = _ from rfl,
      History.ack_keeps]
    exact hk

/-- Copies of one message are sent, and it is logged. -/
theorem said {s s' : Network} {m : Message} {p : PeerRef} {es : List Effect}
    (hes : ∀ q b, .sent q b ∈ es → b = m.serialize) (h : (s.record es).logMessage m p = .ok s') : Talks s s' := by
  have hl := logMessage_logs h
  refine ⟨fun k x hk => ?_, fun stamp hs => logMessage_keeps h hs, es, hl.trace, fun q b hb => ?_⟩
  · rcases hl.markers k with hm | ⟨hn, -⟩
    · rw [hm]
      exact hk
    · have hn : s.channelMarkers.find? k = none := hn
      rw [hn] at hk
      cases hk
  · rw [hes q b hb]
    exact hl.logged

theorem logMessage_talks {s s' : Network} {m : Message} {p : PeerRef} (h : s.logMessage m p = .ok s') : Talks s s' := by
  have hr : s.record [] = s := by rw [record, List.append_nil]
  rw [← hr] at h
  exact said (fun q b hb => by cases hb) h

theorem logKnown_talks {s s' : Network} {m : Message} {p : PeerRef} (h : s.logKnown m p = .ok s') : Talks s s' := by
  unfold logKnown at h
  split at h
  · exact logMessage_talks h
  · cases h
    exact .refl _

/-- To each of these peers, one copy. -/
theorem copies_of {ps : List PeerRef} {bytes : Bytes} {q : PeerRef} {b : Bytes}
    (h : .sent q b ∈ ps.map (Effect.sent · bytes)) : b = bytes := by
  obtain ⟨p, -, he⟩ := List.mem_map.mp h
  cases he
  rfl

variable [Platform]

theorem makeStamp_talks (s : Network) (payload : Payload) : Talks s (s.makeStamp payload).2 := .same rfl rfl rfl

theorem broadcast_talks {s s' : Network} {g : GroupRef} {m : Message} {b : Bool} (h : s.broadcast g m b = .ok s') :
    Talks s s' := by
  cases b with
  | false =>
    rw [broadcast_relayed] at h
    exact said (fun q b hb => copies_of hb) h
  | true =>
    rw [broadcast_stamped] at h
    exact (makeStamp_talks s m.payload).trans (said (fun q b hb => copies_of hb) h)

theorem send_talks {s s' : Network} {payload : Payload} {p : PeerRef} (h : s.send payload p = .ok s') :
    Talks s s' := by
  rw [send_eq] at h
  refine (makeStamp_talks s payload).trans (said (fun q b hb => ?_) h)
  cases List.mem_singleton.mp hb
  rfl

theorem forward_talks {s s' : Network} {m : Message} (h : s.forward m = .ok s') : Talks s s' := by
  unfold forward at h
  split at h
  · cases h; exact .refl _
  · split at h
    · cases h; exact .refl _
    · split at h
      · cases h
      · exact broadcast_talks h

theorem notifyDirects_talks {s s' : Network} {g : GroupRef} (h : s.notifyDirects g = .ok s') : Talks s s' :=
  (makeStamp_talks s .readyNotif).trans (said (fun _ _ hb => copies_of hb) h)

/-! ## Handlers -/

theorem acknowledgeJoin_talks {s s' : Network} {p : PeerRef} {g : GroupRef} (h : s.acknowledgeJoin p g = .ok s') :
    Talks s s' := by
  obtain ⟨l, -, h⟩ := bind_ok.mp h
  obtain ⟨t, ht, h⟩ := bind_ok.mp h
  rw [← pure_ok.mp h]
  exact (send_talks ht).before.after

theorem answerJoinRequest_talks {s s' : Network} {p : PeerRef} {port : Port} (h : s.answerJoinRequest p port = .ok s') :
    Talks s s' := by
  obtain ⟨l, -, h⟩ := bind_ok.mp h
  obtain ⟨t, ht, h⟩ := bind_ok.mp h
  obtain ⟨u, hu, h⟩ := bind_ok.mp h
  rw [← pure_ok.mp h]
  have hut : Talks t u := (acknowledgeJoin_talks hu).before
  exact ((broadcast_talks ht).before.trans hut).after

theorem checkForNewPeers_talks {s s' : Network} (h : s.checkForNewPeers = .ok s') : Talks s s' := by
  obtain ⟨r, -, h⟩ := bind_ok.mp h
  split at h
  · exact answerJoinRequest_talks h
  · cases h
    exact .still s _

theorem completeJoin_talks {s s' : Network} {p : PeerRef} (h : s.completeJoin p = .ok s') : Talks s s' := by
  unfold completeJoin at h
  exact (checkForNewPeers_talks h).before.before

theorem sendReady_talks {s s' : Network} {p : PeerRef} (h : s.sendReady p = .ok s') : Talks s s' := by
  obtain ⟨t, ht, h⟩ := bind_ok.mp h
  rw [← pure_ok.mp h]
  exact (send_talks ht).after

theorem handleDisconnect_talks {s s' : Network} {p : PeerRef} {rounds : Nat} (h : s.handleDisconnect p rounds = .ok s') :
    Talks s s' := by
  rw [handleDisconnect_ok h]
  exact .still s _

/-! ### Messages -/

theorem foundGroup_talks (s : Network) : Talks s s.foundGroup := .marked rfl rfl rfl

theorem greeted_talks {s s' : Network} {m : Message} {p : PeerRef} {id pubK : Bytes} (h : s.greeted m p id pubK = .ok s') :
    Talks s s' := by
  have hf : Talks s (if s.localState ≠ .connected then s.foundGroup else s) := by
    split
    · exact foundGroup_talks s
    · exact .refl _
  exact hf.trans (logMessage_talks h).before

theorem processJoin_talks {s s' : Network} {m : Message} {p : PeerRef} {id pubK : Bytes} {port : Port}
    (h : s.processJoin m p id pubK port = .ok s') : Talks s s' := by
  rw [processJoin_eq] at h
  obtain ⟨t, ht, h⟩ := bind_ok.mp h
  refine (greeted_talks ht).trans ?_
  split at h
  · exact answerJoinRequest_talks h
  · cases h
    exact .still t _

theorem hisGroup_talks (s : Network) (groupId : Bytes) : Talks s (s.hisGroup groupId).2 := by
  cases hg : s.groups.find? groupId with
  | some g =>
    simp only [hisGroup, hg]
    exact .refl s
  | none =>
    have hl' : (s.createGroup groupId).localGroup = s.localGroup := rfl
    cases hl : s.localGroup with
    | none =>
      simp only [hisGroup, hg, hl', hl]
      exact .marked rfl rfl rfl
    | some l =>
      simp only [hisGroup, hg, hl', hl]
      exact .marked rfl rfl rfl

theorem processJoinAck_talks {s s' : Network} {m : Message} {p : PeerRef} {groupId peerId pubK : Bytes}
    (h : s.processJoinAck m p groupId peerId pubK = .ok s') : Talks s s' :=
  (hisGroup_talks s groupId).trans (logMessage_talks h).before.before.before

theorem processJoinNotif_talks {s s' : Network} {channel : Bool} {groupId peerId pubK ip : Bytes} {port : Port}
    {reached : Option Bytes} (h : outcome (s.processJoinNotif channel groupId peerId pubK ip port reached) = some s') :
    Talks s s' := by
  unfold processJoinNotif at h
  split at h
  · cases h; exact .refl _
  · obtain ⟨l, -, h⟩ := outcome_bind (derefLocalGroup_quiet s) h
    split at h
    · cases reached with
      | none => cases h; exact .still s _
      | some address =>
        obtain ⟨⟨q, t⟩, hq, h⟩ := outcome_bind (quiet_ok _) h
        cases hq
        have h := acknowledgeJoin_talks (outcome_quiet (acknowledgeJoin_quiet _ _ _) h)
        exact (connected_talks s _ _ _ _).trans h.before
    · split at h
      · split at h
        · cases h; exact .refl _
        · cases h; exact .still s _
      · cases h; exact .refl _

theorem processReady_talks {s s' : Network} (h : s.processReady = .ok s') : Talks s s' := by
  have run : ∀ (l : List GroupRef) (s s' : Network), l.foldlM readyGroup s = .ok s' → Talks s s' := by
    intro l
    induction l with
    | nil => intro s s' h; rw [← pure_ok.mp h]; exact .refl _
    | cons g l ih =>
      intro s s' h
      rw [List.foldlM_cons] at h
      obtain ⟨t, ht, h⟩ := bind_ok.mp h
      refine Talks.trans ?_ (ih t s' h)
      obtain ⟨k, -, ht⟩ := bind_ok.mp ht
      simp only at ht
      split at ht
      · exact (notifyDirects_talks ht).before
      · cases ht
        exact .still s _
  exact run _ s s' h

theorem process_talks {s s' : Network} {m : Message} {p : PeerRef} {reached : Option Bytes}
    (h : outcome (s.process m p reached) = some s') : Talks s s' := by
  unfold process at h
  split at h
  · exact processJoin_talks (outcome_quiet (processJoin_quiet _ _ _ _ _ _) h)
  · exact processJoinNotif_talks h
  · exact processJoinAck_talks (outcome_quiet (processJoinAck_quiet _ _ _ _ _ _) h)
  · exact processReady_talks (outcome_quiet (processReady_quiet s) h)
  · exact (checkForNewPeers_talks (outcome_quiet (checkForNewPeers_quiet _) h)).before
  · cases h
    refine record_talks s fun p b hb => ?_
    cases List.mem_singleton.mp hb

theorem handleIncomingMessage_talks {s s' : Network} {received : Bytes} {p : PeerRef} {reached : Option Bytes}
    (h : s.handleIncomingMessage received p reached = .ok s') : Talks s s' := by
  have report : ∀ t : Network, Talks t (t.record [.reported received]) := fun t => record_talks t fun q b hb => by
    cases List.mem_singleton.mp hb
  cases hm : parseMessage received with
  | error e =>
    simp only [handleIncomingMessage, hm] at h
    cases h
    exact report s
  | ok m =>
    cases hl : s.findLog m with
    | some l =>
      rw [handle_logged p reached hm hl] at h
      cases h
      refine ⟨fun _ _ h => h, fun stamp hs => ?_, [], (List.append_nil _).symm, fun p b h => by cases h⟩
      exact (History.ack_keeps s.logs _ _ stamp).trans hs
    | none =>
      obtain ⟨t, u, v, ht, hu, hv, hs'⟩ := handle_received hm hl h
      have huv := (logKnown_talks ht).trans ((forward_talks hu).trans (process_talks hv))
      rcases hs' with rfl | rfl
      · exact huv
      · exact huv.trans (report v)

theorem join_talks {s s' : Network} {ip port : Bytes} {reached : Option Bytes} (h : s.join ip port reached = .ok s') :
    Talks s s' := by
  cases reached with
  | none => cases h; exact .refl _
  | some address =>
    exact (connected_talks s _ _ _ _).trans (send_talks h).before

theorem handle_talks {rounds : Nat} {s s' : Network} {e : Event} (he : ∀ message, e ≠ .sendAll message)
    (h : handle rounds s e = .ok s') : Talks s s' := by
  cases e with
  | accept address => cases h; exact .still s _
  | read p received reached => exact handleIncomingMessage_talks h
  | eof p => exact (handleDisconnect_talks h).before
  | readError p => cases h; exact .still s _
  | readyTimer id =>
    simp only [handle] at h
    split at h
    · exact (sendReady_talks h).before
    · cases h; exact .refl _
  | joinTimer id =>
    simp only [handle] at h
    split at h
    · exact (completeJoin_talks h).before
    · cases h; exact .refl _
  | join ip port reached => exact join_talks h
  | broadcast content =>
    obtain ⟨l, -, h⟩ := bind_ok.mp h
    exact broadcast_talks h
  | sendAll message => exact absurd rfl (he message)

end Network

end RacKun
