/-
  RacKun.Network.GroupTable — the local group in the table of groups, and who relies on it.

  `groups`, `local_group` and `channel_markers` are written in different handlers, and
  `operator[]` enters what it does not find. A handler enters at most one marker, that of
  the group it makes (`handle_channelMarkers`), as long as no group has an empty ID; so
  every marker is made of two IDs we have been told or have chosen, and names one of them.

  - `Tabled.step`: the step that keeps the table.
  - `handle_grouped`: the handlers that find a local group.
-/

import RacKun.Network.LocalGroup
import RacKun.Network.Past

namespace RacKun

open Lib (OrdMap bind_ok pure_ok ok_bind)

open Scenario

namespace Network

variable {s s' : Network} {m : Message} {p : PeerRef} {g : GroupRef}

/-! ## The markers a step enters -/

/-- Logging enters a marker only when there is a group without a name. -/
theorem logMessage_channelMarkers (hn : s.groups.find? [] = none ∨ m.bcastMarker? = none)
    (h : s.logMessage m p = .ok s') : s'.channelMarkers = s.channelMarkers := by
  refine OrdMap.ext_find fun marker => ?_
  rcases (logMessage_logs h).markers marker with hm | ⟨hm, hb, hl, -⟩
  · exact hm
  · -- the group of the new marker is dereferenced
    have hn := hn.resolve_right (by rw [hb]; exact Option.some_ne_none _)
    have hg : s.groups.find? (s.markerGid marker) = none := by
      rw [markerGid, hm]
      exact hn
    rw [logMessage_null p hl hb hg] at h
    cases h

theorem logKnown_channelMarkers (hn : s.groups.find? [] = none) (h : s.logKnown m p = .ok s') :
    s'.channelMarkers = s.channelMarkers := by
  unfold logKnown at h
  split at h
  · exact logMessage_channelMarkers (Or.inl hn) h
  · cases h
    rfl

variable [Platform]

theorem broadcast_channelMarkers {b : Bool} (hn : s.groups.find? [] = none) (h : s.broadcast g m b = .ok s') :
    s'.channelMarkers = s.channelMarkers := by
  cases b with
  | false =>
    rw [broadcast_relayed] at h
    exact (logMessage_channelMarkers (Or.inl (by exact hn)) h :)
  | true =>
    rw [broadcast_stamped] at h
    exact (logMessage_channelMarkers (Or.inl (by exact hn)) h :)

theorem send_channelMarkers {payload : Payload} (hn : s.groups.find? [] = none) (h : s.send payload p = .ok s') :
    s'.channelMarkers = s.channelMarkers := by
  rw [send_eq] at h
  exact (logMessage_channelMarkers (Or.inl (by exact hn)) h :)

theorem forward_channelMarkers (hn : s.groups.find? [] = none) (h : s.forward m = .ok s') :
    s'.channelMarkers = s.channelMarkers := by
  unfold forward at h
  split at h
  · cases h
    rfl
  · split at h
    · cases h
      rfl
    · split at h
      · cases h
      · exact broadcast_channelMarkers hn h

theorem acknowledgeJoin_channelMarkers (hn : s.groups.find? [] = none) (h : s.acknowledgeJoin p g = .ok s') :
    s'.channelMarkers = s.channelMarkers := by
  obtain ⟨l, -, h⟩ := bind_ok.mp h
  obtain ⟨t, ht, h⟩ := bind_ok.mp h
  rw [← pure_ok.mp h]
  exact (send_channelMarkers (by exact hn) ht :)

theorem answerJoinRequest_channelMarkers {port : Port} (hn : s.groups.find? [] = none)
    (h : s.answerJoinRequest p port = .ok s') : s'.channelMarkers = s.channelMarkers := by
  obtain ⟨l, -, h⟩ := bind_ok.mp h
  obtain ⟨t, ht, h⟩ := bind_ok.mp h
  obtain ⟨u, hu, h⟩ := bind_ok.mp h
  have htn : t.groups.find? [] = none := by
    rw [broadcast_membership ht]
    exact hn
  have hts : t.channelMarkers = s.channelMarkers := (broadcast_channelMarkers (by exact hn) ht :)
  have hut : u.channelMarkers = t.channelMarkers := (acknowledgeJoin_channelMarkers (by exact htn) hu :)
  rw [← pure_ok.mp h]
  exact hut.trans hts

theorem checkForNewPeers_channelMarkers (hn : s.groups.find? [] = none) (h : s.checkForNewPeers = .ok s') :
    s'.channelMarkers = s.channelMarkers := by
  obtain ⟨r, -, h⟩ := bind_ok.mp h
  split at h
  · exact answerJoinRequest_channelMarkers hn h
  · cases h
    rfl

/-- The markers after a change: a group that is made gets one. -/
def markersAfter (s : Network) : Change → OrdMap Bytes Bytes
  | .request _ _ _ _ newId =>
    if s.localState = .connected then s.channelMarkers
    else s.channelMarkers.insertNew (markerOf newId newId) newId
  | .acked _ groupId _ _ =>
    if s.groups.contains groupId then s.channelMarkers
    else s.channelMarkers.insertNew (markerOf ((s.localGroup.map fun l => (s.group l).id).getD groupId) groupId) groupId
  | _ => s.channelMarkers

theorem processJoin_channelMarkers {id pubK : Bytes} {port : Port} (hn : s.groups.find? [] = none)
    (hm : m.bcastMarker? = none) (h : s.processJoin m p id pubK port = .ok s') : s'.channelMarkers =
      s.markersAfter (.request p id pubK port (makeHash (s.getId s.localPeer ++ itos (s.clock 0)))) := by
  rw [processJoin_eq] at h
  obtain ⟨t, ht, h⟩ := bind_ok.mp h
  have hmark : t.channelMarkers =
      s.markersAfter (.request p id pubK port (makeHash (s.getId s.localPeer ++ itos (s.clock 0)))) := by
    have hlog : t.channelMarkers = (if s.localState ≠ .connected then s.foundGroup else s).channelMarkers :=
      (logMessage_channelMarkers (Or.inr hm) ht :)
    rw [hlog, markersAfter]
    by_cases hc : s.localState = .connected
    · rw [if_neg (not_not.mpr hc), if_pos hc]
    · rw [if_pos hc, if_neg hc, foundGroup_markers rfl]
  have htn : t.groups.find? [] = none := by
    rw [greeted_membership ht, Membership.greet]
    split
    · have hne : ([] : Bytes) ≠ makeHash (s.getId s.localPeer ++ itos (s.clock 0)) := fun he => by
        have hlen := Platform.makeHash_length (s.getId s.localPeer ++ itos (s.clock 0))
        rw [← he] at hlen
        cases hlen
      exact (OrdMap.find_insertNew ..).trans ((if_neg hne).trans hn)
    · exact hn
  rw [← hmark]
  split at h
  · exact answerJoinRequest_channelMarkers htn h
  · cases h
    rfl

theorem processJoinNotif_channelMarkers {channel : Bool} {groupId peerId pubK ip : Bytes} {port : Port}
    {reached : Option Bytes} (hn : s.groups.find? [] = none)
    (h : outcome (s.processJoinNotif channel groupId peerId pubK ip port reached) = some s') :
    s'.channelMarkers = s.channelMarkers := by
  unfold processJoinNotif at h
  split at h
  · cases h
    rfl
  · obtain ⟨l, -, h⟩ := outcome_bind (derefLocalGroup_quiet s) h
    split at h
    · cases reached with
      | none =>
        cases h
        rfl
      | some address =>
        obtain ⟨⟨q, t⟩, hq, h⟩ := outcome_bind (quiet_ok _) h
        cases hq
        have h := acknowledgeJoin_channelMarkers (by exact hn) (outcome_quiet (acknowledgeJoin_quiet _ _ _) h)
        exact h
    · split at h
      · split at h
        · cases h
          rfl
        · cases h
          rfl
      · cases h
        rfl

theorem processJoinAck_channelMarkers {groupId peerId pubK : Bytes} (hs : s.toMembership.Sound)
    (hm : m.bcastMarker? = none) (h : s.processJoinAck m p groupId peerId pubK = .ok s') :
    s'.channelMarkers = s.markersAfter (.acked p groupId peerId pubK) := by
  have hlog : s'.channelMarkers = (s.hisGroup groupId).2.channelMarkers := (logMessage_channelMarkers (Or.inr hm) h :)
  rw [hlog]
  cases hg : s.groups.find? groupId with
  | some g =>
    have hc : s.groups.contains groupId = true := OrdMap.contains_iff.mpr ⟨g, hg⟩
    simp only [hisGroup, hg, markersAfter, hc, if_true]
  | none =>
    have hc : s.groups.contains groupId = false := OrdMap.not_contains_iff.mpr hg
    rw [hisGroup_markers hs.localGroup hg]
    simp only [markersAfter, hc, Bool.false_eq_true, if_false]

theorem processReady_channelMarkers (h : s.processReady = .ok s') : s'.channelMarkers = s.channelMarkers := by
  have run : ∀ (l : List GroupRef) (s s' : Network), l.foldlM readyGroup s = .ok s' →
      s'.channelMarkers = s.channelMarkers := by
    intro l
    induction l with
    | nil => intro s s' h; rw [← pure_ok.mp h]
    | cons g l ih =>
      intro s s' h
      rw [List.foldlM_cons] at h
      obtain ⟨t, ht, h⟩ := bind_ok.mp h
      refine (ih t s' h).trans ?_
      obtain ⟨k, -, ht⟩ := bind_ok.mp ht
      simp only at ht
      split at ht
      · exact (logMessage_channelMarkers (m := (makeStamp _ .readyNotif).1) (Or.inr rfl) ht :)
      · cases ht
        rfl
  exact run _ s s' h

theorem process_channelMarkers {reached : Option Bytes} (hs : s.toMembership.Sound) (hn : s.groups.find? [] = none)
    (h : outcome (s.process m p reached) = some s') :
    s'.channelMarkers = s.markersAfter (s.messageChange m p reached) := by
  unfold process at h
  split at h
  case h_1 id pubK port hm =>
    have hb : m.bcastMarker? = none := by rw [Message.bcastMarker?, hm]; rfl
    rw [messageChange, hm]
    exact processJoin_channelMarkers hn hb (outcome_quiet (processJoin_quiet _ _ _ _ _ _) h)
  case h_2 marker channel groupId peerId pubK ip port hm =>
    have hsame : s.markersAfter (s.messageChange m p reached) = s.channelMarkers := by
      simp only [messageChange, hm]
      split
      · cases reached <;> rfl
      · split <;> rfl
    rw [hsame]
    exact processJoinNotif_channelMarkers hn h
  case h_3 groupId peerId pubK hm =>
    have hb : m.bcastMarker? = none := by rw [Message.bcastMarker?, hm]; rfl
    rw [messageChange, hm]
    exact processJoinAck_channelMarkers hs hb (outcome_quiet (processJoinAck_quiet _ _ _ _ _ _) h)
  case h_4 hm =>
    rw [messageChange, hm]
    exact processReady_channelMarkers (outcome_quiet (processReady_quiet s) h)
  case h_5 hm =>
    rw [messageChange, hm]
    exact (checkForNewPeers_channelMarkers (by exact hn) (outcome_quiet (checkForNewPeers_quiet _) h) :)
  case h_6 marker content hm =>
    rw [messageChange, hm]
    cases h
    rfl

theorem handleIncomingMessage_channelMarkers {received : Bytes} {reached : Option Bytes} (hs : s.toMembership.Sound)
    (hn : s.groups.find? [] = none) (h : s.handleIncomingMessage received p reached = .ok s') :
    s'.channelMarkers = s.markersAfter (s.change (.read p received reached)) := by
  cases hm : parseMessage received with
  | error e =>
    simp only [handleIncomingMessage, hm] at h
    cases h
    simp only [change, hm]
    rfl
  | ok m =>
    cases hl : s.findLog m with
    | some l =>
      rw [handle_logged p reached hm hl] at h
      cases h
      simp only [change, hm, hl, Option.isSome_some, if_true]
      rfl
    | none =>
      obtain ⟨t, u, v, ht, hu, hv, hs'⟩ := handle_received hm hl h
      obtain ⟨hum, huc⟩ := relayed_same ht hu
      have hts := logKnown_channelMarkers hn ht
      have hut : u.channelMarkers = t.channelMarkers := forward_channelMarkers (by
        rw [logKnown_membership ht]
        exact hn) hu
      have hvu := process_channelMarkers (hum ▸ hs) (hum ▸ hn) hv
      have hsame : ∀ c, u.markersAfter c = s.markersAfter c := fun c => by
        unfold markersAfter
        rw [hum, hut, hts]
      rw [hsame, messageChange_congr hum huc] at hvu
      simp only [change, hm, hl, Option.isSome_none, Bool.false_eq_true, if_false]
      rcases hs' with rfl | rfl <;> exact hvu

/-- A handler that returns has entered the marker of the group it has made, and no other. -/
theorem handle_channelMarkers {rounds : Nat} {e : Event} (hs : s.toMembership.Sound) (hn : s.groups.find? [] = none)
    (h : handle rounds s e = .ok s') : s'.channelMarkers = s.markersAfter (s.change e) := by
  cases e with
  | accept address => cases h; rfl
  | read p received reached => exact handleIncomingMessage_channelMarkers hs hn h
  | eof p =>
    have hd := handleDisconnect_ok (s := { s with toMembership := s.stopListening p }) h
    exact (congrArg Network.channelMarkers hd :)
  | readError p => cases h; rfl
  | readyTimer id =>
    simp only [handle] at h
    split at h
    · obtain ⟨t, ht, h⟩ := bind_ok.mp h
      rw [← pure_ok.mp h]
      exact (send_channelMarkers (by exact hn) ht :)
    · cases h
      rfl
  | joinTimer id =>
    simp only [handle] at h
    split at h
    · exact (checkForNewPeers_channelMarkers (by exact hn) h :)
    · cases h
      rfl
  | join ip port reached =>
    cases reached with
    | none => cases h; rfl
    | some address => exact (send_channelMarkers (by exact hn) h :)
  | broadcast content =>
    obtain ⟨l, -, h⟩ := bind_ok.mp h
    exact broadcast_channelMarkers hn h
  | sendAll message => cases h; rfl

/-! ## The IDs of groups -/

omit [Platform] in
/-- The ID of his group, in an acknowledgement. -/
def toldId : Change → List Bytes
  | .acked _ groupId _ _ => [groupId]
  | _ => []

omit [Platform] in
/-- The ID of the group we found when somebody joins us. -/
def chosenId (s : Network) : Change → List Bytes
  | .request _ _ _ _ newId => if s.localState = .connected then [] else [newId]
  | _ => []

def toldIds (h : Steps) : List Bytes := h.flatMap fun x => toldId (x.1.change x.2)

def groupIds (h : Steps) : List Bytes := h.flatMap fun x => toldId (x.1.change x.2) ++ x.1.chosenId (x.1.change x.2)

/-- What `make_channel_marker` may be asked to hash. -/
def markerTexts (h : Steps) : Set Bytes := {text | ∃ a ∈ groupIds h, ∃ b ∈ groupIds h, text = a ++ b}

/-- An ID that we are told has the length of one, and an ID that we choose is not one of those. -/
def ProperIds (h : Steps) (s : Network) (e : Event) : Prop :=
  (∀ id ∈ toldId (s.change e), id.length = GROUP_ID_LENGTH) ∧ ∀ id ∈ s.chosenId (s.change e), id ∉ toldIds h

instance (h : Steps) (s : Network) (e : Event) : Decidable (ProperIds h s e) :=
  inferInstanceAs (Decidable (_ ∧ _))

/-- The groups and markers go by IDs we have been told or have chosen, and our group is
    there, with its marker. -/
structure Tabled (h : Steps) (s : Network) : Prop where
  length : ∀ id ∈ groupIds h, id.length = GROUP_ID_LENGTH
  ids : ∀ id g, s.groups.find? id = some g → id ∈ groupIds h
  told : s.localState ≠ .connected → ∀ id g, s.groups.find? id = some g → id ∈ toldIds h
  markers : ∀ marker id, s.channelMarkers.find? marker = some id →
    ∃ a ∈ groupIds h, ∃ b ∈ groupIds h, marker = markerOf a b ∧ (id = a ∨ id = b)
  own : ∀ l, s.localGroup = some l → ∃ id, s.groups.find? id = some l ∧
    s.channelMarkers.find? (markerOf id id) = some id

variable {h : Steps} {e : Event}

theorem mem_groupIds_cons {id : Bytes} : id ∈ groupIds ((s, e) :: h) ↔
    id ∈ toldId (s.change e) ∨ id ∈ s.chosenId (s.change e) ∨ id ∈ groupIds h := by
  simp only [groupIds, List.flatMap_cons, List.mem_append, or_assoc]

theorem mem_toldIds_cons {id : Bytes} : id ∈ toldIds ((s, e) :: h) ↔ id ∈ toldId (s.change e) ∨ id ∈ toldIds h := by
  simp only [toldIds, List.flatMap_cons, List.mem_append]

theorem groupIds_cons : groupIds h ⊆ groupIds ((s, e) :: h) := fun _ hid =>
  mem_groupIds_cons.mpr (Or.inr (Or.inr hid))

theorem markerTexts_cons : markerTexts h ⊆ markerTexts ((s, e) :: h) := by
  rintro text ⟨a, ha, b, hb, rfl⟩
  exact ⟨a, groupIds_cons ha, b, groupIds_cons hb, rfl⟩

theorem pairOf_mem {a b : Bytes} (ha : a ∈ groupIds h) (hb : b ∈ groupIds h) : pairOf a b ∈ markerTexts h := by
  unfold pairOf
  split
  · exact ⟨a, ha, b, hb, rfl⟩
  · exact ⟨b, hb, a, ha, rfl⟩

/-- The ID of a group we found is a hash. -/
theorem chosenId_length {id : Bytes} (hid : id ∈ s.chosenId (s.change e)) : id.length = GROUP_ID_LENGTH := by
  cases e with
  | read p received reached =>
    simp only [change] at hid
    split at hid
    · cases hid
    · rename_i m _
      split at hid
      · cases hid
      · cases hm : m.payload with
        | join i pubK port =>
          simp only [messageChange, hm, chosenId] at hid
          split at hid
          · cases hid
          · rw [List.mem_singleton.mp hid]
            exact Platform.makeHash_length _
        | joinNotif marker channel groupId peerId pubK ip port =>
          simp only [messageChange, hm] at hid
          split at hid
          · cases reached <;> cases hid
          · split at hid <;> cases hid
        | _ =>
          simp only [messageChange, hm] at hid
          cases hid
  | join ip port reached => cases reached <;> cases hid
  | _ => cases hid

/-- A group that is new has an ID we have just been told, or have chosen. -/
theorem regroups_ids {c : Change} {l : Option GroupRef} {gs : OrdMap Bytes GroupRef} (hr : s.Regroups c l gs)
    {id : Bytes} (hf : gs.find? id = some g) :
    s.groups.find? id = some g ∨ id ∈ toldId c ∨ id ∈ s.chosenId c := by
  have made : ∀ {newId : Bytes} {g' : GroupRef}, (s.groups.insertNew newId g').find? id = some g →
      s.groups.find? id = some g ∨ id = newId := fun hf => (OrdMap.find_insertNew_some hf).symm.imp_right And.left
  cases hr with
  | same => exact Or.inl hf
  | founded p _ pubK port newId hc =>
    refine (made hf).imp_right fun hid => Or.inr ?_
    rw [chosenId, if_neg hc, hid]
    exact List.mem_singleton_self newId
  | joined p groupId peerId pubK hl hg => exact (made hf).imp_right fun hid => Or.inl (List.mem_singleton.mpr hid)
  | entered p groupId peerId pubK hl hg => exact (made hf).imp_right fun hid => Or.inl (List.mem_singleton.mpr hid)
  | cleared p hp hn => cases hf

/-- What the new marker is made of. -/
theorem markersAfter_ids {c : Change} {marker id : Bytes} (hf : (s.markersAfter c).find? marker = some id) :
    s.channelMarkers.find? marker = some id ∨ (∃ newId ∈ s.chosenId c, marker = markerOf newId newId ∧ id = newId) ∨
      ∃ groupId ∈ toldId c, marker = markerOf ((s.localGroup.map fun l => (s.group l).id).getD groupId) groupId ∧
        id = groupId := by
  have made : ∀ {k v : Bytes}, (s.channelMarkers.insertNew k v).find? marker = some id →
      s.channelMarkers.find? marker = some id ∨ marker = k ∧ id = v := fun hf => (OrdMap.find_insertNew_some hf).symm
  cases c with
  | request p i pubK port newId =>
    simp only [markersAfter] at hf
    split at hf
    · exact Or.inl hf
    · rename_i hc
      refine (made hf).imp_right fun hid => Or.inl ⟨newId, ?_, hid⟩
      rw [chosenId, if_neg hc]
      exact List.mem_singleton_self newId
  | acked p groupId peerId pubK =>
    simp only [markersAfter] at hf
    split at hf
    · exact Or.inl hf
    · exact (made hf).imp_right fun hid => Or.inr ⟨groupId, List.mem_singleton_self groupId, hid⟩
  | _ => exact Or.inl hf

/-! ## The table along a run -/

theorem Tabled.nameless (ht : s.Tabled h) : s.groups.find? [] = none := by
  refine Option.eq_none_iff_forall_ne_some.mpr fun g hg => ?_
  have hlen := ht.length [] (ht.ids [] g hg)
  cases hlen

/-- A marker is not claimed by another group, when the hash tells the IDs apart. -/
theorem Tabled.unclaimed (ht : s.Tabled h) {h' : Steps} (hsub : groupIds h ⊆ groupIds h')
    (hlen : ∀ id ∈ groupIds h', id.length = GROUP_ID_LENGTH) (hinj : Set.InjOn makeHash (markerTexts h')) {id : Bytes}
    (hid : id ∈ groupIds h') : s.Unclaimed (markerOf id id) id := by
  intro gid hgid
  obtain ⟨a, ha, b, hb, hm, hor⟩ := ht.markers _ _ hgid
  rw [markerOf_pair, markerOf_pair] at hm
  have hpair := hinj (pairOf_mem hid hid) (pairOf_mem (hsub ha) (hsub hb)) hm
  obtain ⟨rfl, rfl⟩ | ⟨rfl, rfl⟩ :=
    pairOf_eq (hlen id hid) (hlen id hid) (hlen a (hsub ha)) (hlen b (hsub hb)) hpair
  · exact hor.elim (·) (·)
  · exact hor.elim (·) (·)

/-- While we are not connected, every group is one we have been told of. -/
theorem Tabled.step_told (ht : s.Tabled h) (hs : s.toMembership.Sound) (hst : Step s e s')
    (hn : s'.localState ≠ .connected) {id : Bytes} (hf : s'.groups.find? id = some g) :
    id ∈ toldIds ((s, e) :: h) := by
  obtain ⟨he, rounds, hh⟩ := hst
  have hturn := Membership.apply_localState hs (change_awaits he)
  have hre := Membership.apply_regroups hs (change_awaits he)
  rw [← handle_membership hh] at hturn hre
  have old : s.localState ≠ .connected → (∀ p i pubK port newId, s.change e ≠ .request p i pubK port newId) →
      id ∈ toldIds ((s, e) :: h) := by
    intro hc hnr
    refine mem_toldIds_cons.mpr ?_
    rcases regroups_ids hre hf with hold | htold | hnew
    · exact Or.inr (ht.told hc id g hold)
    · exact Or.inl htold
    · generalize s.change e = c at hnew hnr
      cases c with
      | request p i pubK port newId => exact absurd rfl (hnr p i pubK port newId)
      | _ => cases hnew
  generalize hst' : s'.localState = st at hn hturn
  have hcause := change_causes s e
  generalize hc : s.change e = c at hturn hcause
  cases hturn with
  | same _ hnr => exact old hn (hc ▸ hnr)
  | contact address =>
    -- only a new node may join
    have hnew : s.localState = .new := by
      cases hcause
      exact he
    exact old (by rw [hnew]; decide) (by rw [hc]; simp)
  | request => exact absurd rfl hn
  | ready => exact absurd rfl hn
  | cleared q hg =>
    rw [handle_membership hh, hc, hg] at hf
    cases hf

theorem Tabled.step (ht : s.Tabled h) (hs : s.toMembership.Sound) (hp : ProperIds h s e)
    (hinj : Set.InjOn makeHash (markerTexts ((s, e) :: h))) (hst : Step s e s') : s'.Tabled ((s, e) :: h) := by
  have htold : s'.localState ≠ .connected → ∀ id g, s'.groups.find? id = some g → id ∈ toldIds ((s, e) :: h) :=
    fun hn id g => ht.step_told hs hst hn
  obtain ⟨he, rounds, hh⟩ := id hst
  have hmark := handle_channelMarkers hs ht.nameless hh
  have hre := Membership.apply_regroups hs (change_awaits he)
  rw [← handle_membership hh] at hre
  have hlen : ∀ id ∈ groupIds ((s, e) :: h), id.length = GROUP_ID_LENGTH := by
    intro id hid
    rcases mem_groupIds_cons.mp hid with hid | hid | hid
    · exact hp.1 id hid
    · exact chosenId_length hid
    · exact ht.length id hid
  -- a group that is made takes its marker
  have takes : ∀ {id : Bytes}, id ∈ toldId (s.change e) ∨ id ∈ s.chosenId (s.change e) →
      s'.channelMarkers = s.channelMarkers.insertNew (markerOf id id) id →
      s'.channelMarkers.find? (markerOf id id) = some id := by
    intro id hid hm
    rw [hm]
    exact (ht.unclaimed groupIds_cons hlen hinj (mem_groupIds_cons.mpr (or_assoc.mp (Or.inl hid)))).insertNew
  refine ⟨hlen, fun id g hf => ?_, htold, fun marker id hf => ?_, fun l hl => ?_⟩
  · rcases regroups_ids hre hf with hold | htold | hnew
    · exact groupIds_cons (ht.ids id g hold)
    · exact mem_groupIds_cons.mpr (Or.inl htold)
    · exact mem_groupIds_cons.mpr (Or.inr (Or.inl hnew))
  · rw [hmark] at hf
    rcases markersAfter_ids hf with hold | ⟨newId, hnew, hm, hid⟩ | ⟨groupId, htold, hm, hid⟩
    · obtain ⟨a, ha, b, hb, hab⟩ := ht.markers marker id hold
      exact ⟨a, groupIds_cons ha, b, groupIds_cons hb, hab⟩
    · have hmem : newId ∈ groupIds ((s, e) :: h) := mem_groupIds_cons.mpr (Or.inr (Or.inl hnew))
      exact ⟨newId, hmem, newId, hmem, hm, Or.inl hid⟩
    · have hmem : groupId ∈ groupIds ((s, e) :: h) := mem_groupIds_cons.mpr (Or.inl htold)
      refine ⟨_, ?_, groupId, hmem, hm, Or.inr hid⟩
      cases hl : s.localGroup with
      | none => exact hmem
      | some l =>
        obtain ⟨own, hown, -⟩ := ht.own l hl
        rw [Option.map_some, Option.getD_some, (hs.groups own l hown).2]
        exact groupIds_cons (ht.ids own l hown)
  · have hfresh := hp.2
    generalize s'.localGroup = lg at hre hl
    generalize s'.groups = gs at hre
    generalize s.change e = c at hre takes hmark hfresh
    -- a group that is new is filed under its ID
    have filed : ∀ {id : Bytes} {g : GroupRef}, s.groups.find? id = none → (s.groups.insertNew id g).find? id = some g := by
      intro id g hf
      rw [OrdMap.find_insertNew, if_pos rfl, hf]
      rfl
    cases hre with
    | same =>
      obtain ⟨id, hid, hm⟩ := ht.own l hl
      exact ⟨id, hid, step_talks hst hm⟩
    | founded p i pubK port newId hc =>
      have hmem : newId ∈ s.chosenId (.request p i pubK port newId) := by
        rw [chosenId, if_neg hc]
        exact List.mem_singleton_self newId
      have hfree : s.groups.find? newId = none := Option.eq_none_iff_forall_ne_some.mpr fun g hg =>
        hfresh newId hmem (ht.told hc newId g hg)
      refine ⟨newId, ?_, takes (Or.inr hmem) ?_⟩
      · rw [filed hfree, hl]
      · rw [hmark, markersAfter, if_neg hc]
    | joined p groupId peerId pubK hn hg =>
      refine ⟨groupId, ?_, takes (Or.inl (List.mem_singleton_self groupId)) ?_⟩
      · rw [filed hg, hl]
      · rw [hmark, markersAfter, OrdMap.not_contains_iff.mpr hg, hn]
        rfl
    | entered p groupId peerId pubK hn hg =>
      obtain ⟨id, hid, hm⟩ := ht.own l hl
      refine ⟨id, ?_, step_talks hst hm⟩
      rw [OrdMap.find_insertNew, if_neg (fun he => by rw [he, hg] at hid; cases hid)]
      exact hid
    | cleared => cases hl

theorem Past.tabled (hs : Past ProperIds h s) : Set.InjOn makeHash (markerTexts h) → s.Tabled h := by
  induction hs with
  | start id pubK port clock =>
    refine fun _ => ⟨fun id hid => ?_, fun id g hg => ?_, fun _ id g hg => ?_, fun k id hk => ?_, fun l hl => ?_⟩
    · cases hid
    · cases hg
    · cases hg
    · cases hk
    · cases hl
  | step hp ha hst ih => exact fun hinj => (ih (hinj.mono markerTexts_cons)).step hp.sound ha hinj hst

/-! ## Who relies on a local group -/

omit [Platform] in
/-- No null `local_group` is dereferenced. -/
def Grouped {α : Type} (x : Except Stop α) : Prop := x ≠ .error (.fault .nullLocalGroup)

omit [Platform] in
theorem grouped_ok {α : Type} (a : α) : Grouped (.ok a : Except Stop α) := by
  intro hx
  cases hx

omit [Platform] in
theorem grouped_bind {α β : Type} {x : Except Stop α} {f : α → Except Stop β} (hx : Grouped x)
    (hf : ∀ a, x = .ok a → Grouped (f a)) : Grouped (x >>= f) := by
  cases x with
  | error err => exact fun he => hx (by cases he; rfl)
  | ok a => exact hf a rfl

omit [Platform] in
theorem derefLocalGroup_grouped (hl : s.localGroup ≠ none) : Grouped s.derefLocalGroup := by
  obtain ⟨l, hl⟩ := Option.ne_none_iff_exists'.mp hl
  rw [derefLocalGroup_ok.mpr hl]
  exact grouped_ok l

omit [Platform] in
theorem logMessage_grouped (s : Network) (m : Message) (p : PeerRef) : Grouped (s.logMessage m p) := by
  refine grouped_bind (fun hx => ?_) fun t _ => grouped_ok _
  cases hl : s.findLog m with
  | some l =>
    rw [enterLog_logged hl] at hx
    cases hx
  | none =>
    cases hb : m.bcastMarker? with
    | none =>
      rw [enterLog_plain hl hb] at hx
      cases hx
    | some marker =>
      cases hg : s.groups.find? (s.markerGid marker) with
      | none =>
        rw [enterLog_null hl hb hg] at hx
        cases hx
      | some g =>
        rw [enterLog_broadcast hl hb hg] at hx
        cases hx

omit [Platform] in
theorem logKnown_grouped (s : Network) (m : Message) (p : PeerRef) : Grouped (s.logKnown m p) := by
  unfold logKnown
  split
  · exact logMessage_grouped s m p
  · exact grouped_ok s

theorem broadcast_grouped (s : Network) (g : GroupRef) (m : Message) (b : Bool) : Grouped (s.broadcast g m b) := by
  cases b with
  | false => rw [broadcast_relayed]; exact logMessage_grouped _ _ _
  | true => rw [broadcast_stamped]; exact logMessage_grouped _ _ _

theorem forward_grouped (s : Network) (m : Message) : Grouped (s.forward m) := by
  unfold forward
  split
  · exact grouped_ok s
  · split
    · exact grouped_ok s
    · split
      · intro hx
        cases hx
      · exact broadcast_grouped s _ m false

theorem acknowledgeJoin_grouped (hl : s.localGroup ≠ none) : Grouped (s.acknowledgeJoin p g) := by
  refine grouped_bind (derefLocalGroup_grouped (by exact hl)) fun l _ => grouped_bind ?_ fun t _ => grouped_ok _
  rw [send_eq]
  exact logMessage_grouped _ _ _

/-- A JOIN Notification for a group that is there. -/
theorem processJoinNotif_grouped {channel : Bool} {groupId peerId pubK ip : Bytes} {port : Port}
    {reached : Option Bytes} (ha : s.localGroup = none → s.groups = ∅) :
    Grouped (s.processJoinNotif channel groupId peerId pubK ip port reached) := by
  unfold processJoinNotif
  split
  · exact grouped_ok s
  · rename_i g hg
    have hl : s.localGroup ≠ none := fun hn => by
      rw [ha hn] at hg
      cases hg
    refine grouped_bind (derefLocalGroup_grouped hl) fun l _ => ?_
    split
    · cases reached with
      | none =>
        intro hx
        cases hx
      | some address =>
        refine grouped_bind (grouped_ok _) fun r hr => ?_
        cases hr
        exact acknowledgeJoin_grouped (by exact hl)
    · split
      · split <;> exact grouped_ok _
      · exact grouped_ok s

theorem readyOne_localGroup (m : Membership) (g : GroupRef) : (m.readyOne g).localGroup = m.localGroup := by
  unfold Membership.readyOne
  split
  · rfl
  · unfold Membership.enterRings
    split
    · rfl
    · split <;> rfl

/-- READY goes through the groups, and the local group stays. -/
theorem processReady_grouped (ha : s.localGroup = none → s.groups = ∅) : Grouped s.processReady := by
  have run : ∀ (l : List GroupRef) (s : Network), s.localGroup ≠ none → Grouped (l.foldlM readyGroup s) := by
    intro l
    induction l with
    | nil => exact fun s _ => grouped_ok s
    | cons g l ih =>
      intro s hl
      rw [List.foldlM_cons]
      refine grouped_bind (grouped_bind (derefLocalGroup_grouped hl) fun k _ => ?_) fun t ht => ih t ?_
      · simp only
        split
        · exact logMessage_grouped _ _ _
        · exact grouped_ok _
      · rw [readyGroup_membership ht, readyOne_localGroup]
        exact hl
  unfold processReady
  cases hl : s.localGroup with
  | none =>
    rw [ha hl]
    exact grouped_ok s
  | some l => exact run _ s (by rw [hl]; exact Option.some_ne_none l)

theorem searchGroups_grouped : ∀ (rounds : Nat) (s : Network) (it : List (Bytes × GroupRef)),
    Grouped (s.searchGroups p rounds it) := by
  intro rounds
  induction rounds with
  | zero => intro s it hx; cases hx
  | succ n ih =>
    intro s it
    cases it with
    | nil => exact grouped_ok s
    | cons x rest =>
      simp only [searchGroups]
      split
      · exact grouped_ok _
      · exact ih _ _

theorem handleDisconnect_grouped {rounds : Nat} (ha : s.peers.contains (s.getId p) = true → s.localGroup ≠ none) :
    Grouped (s.handleDisconnect p rounds) := by
  unfold handleDisconnect
  split
  · rename_i hp
    refine grouped_bind (grouped_bind (derefLocalGroup_grouped (by exact ha hp)) fun l _ => ?_) fun t _ => grouped_ok _
    simp only
    split
    · exact grouped_ok _
    · exact searchGroups_grouped _ _ _
  · exact grouped_ok _

/-- The handlers that use `local_group` without a look: READY, JOIN Notification, the end of a
    connection, `broadcast_data`. -/
def NeedsGroup : Event → Prop
  | .read _ received _ => ∃ m, parseMessage received = .ok m ∧ (m.type = .ready ∨ m.type = .joinNotif)
  | .eof _ => True
  | .broadcast _ => True
  | _ => False

theorem process_grouped {reached : Option Bytes} (ha : s.localGroup = none → s.groups = ∅)
    (hm : m.type = .ready ∨ m.type = .joinNotif) : Grouped (s.process m p reached) := by
  unfold process
  cases hp : m.payload with
  | ready => exact processReady_grouped ha
  | joinNotif marker channel groupId peerId pubK ip port => exact processJoinNotif_grouped ha
  | _ =>
    rw [Message.type, hp] at hm
    simp [Payload.type] at hm

/-- Where the local group is missing, there are no groups, no peers, and we are not connected. -/
theorem handle_grouped {rounds : Nat} (hs : s.toMembership.Sound) (he : s.Enabled e) (hneed : NeedsGroup e) :
    Grouped (handle rounds s e) := by
  have hcon : s.localState = .connected → s.localGroup ≠ none := fun hc hn => (hs.alone hn).2.2 hc
  cases e with
  | read p received reached =>
    obtain ⟨m, hm, hty⟩ := hneed
    intro hx
    simp only [handle, handleIncomingMessage, hm] at hx
    split at hx
    · cases hx
    · have hr : Grouped (s.receive m p reached) := by
        refine grouped_bind (logKnown_grouped s m p) fun t ht => grouped_bind (forward_grouped t m) fun u hu => ?_
        have hum := (relayed_same ht hu).1
        exact process_grouped (fun hn => (hum ▸ (hs.alone (hum ▸ hn)).1)) hty
      split at hx
      · cases hx
      · exact hr hx
  | eof p =>
    exact handleDisconnect_grouped fun hp =>
      Option.ne_none_iff_exists'.mpr ((hs.stopListening (hs.listening p he)).localGroup_of_peers hp)
  | broadcast content => exact grouped_bind (derefLocalGroup_grouped (hcon he)) fun l _ => broadcast_grouped s l _ true
  | _ => cases hneed

/-- When `make_hash` tells the IDs of groups apart, the local group is in the table of groups
    under its ID and has its marker, and the handlers that use it find it. -/
theorem group_table {h : Steps} {s : Network} (hs : Past ProperIds h s) (hinj : Set.InjOn makeHash (markerTexts h)) :
    (s.localGroup = none ↔ s.groups = ∅) ∧
    (∀ l, s.localGroup = some l → s.groups.find? (s.group l).id = some l) ∧
    (s.peers ≠ ∅ ∨ s.localState = .connected → s.localGroup ≠ none) ∧
    (s.localState = .connected → ∃ l, s.localGroup = some l ∧
      s.channelMarkers.find? (s.makeChannelMarker l l) = some (s.group l).id) ∧
    ∀ e, s.Enabled e → NeedsGroup e → ∀ rounds, handle rounds s e ≠ .error (.fault .nullLocalGroup) := by
  have ht := hs.tabled hinj
  have hsound := hs.sound
  have own : ∀ l, s.localGroup = some l → s.groups.find? (s.group l).id = some l ∧
      s.channelMarkers.find? (s.makeChannelMarker l l) = some (s.group l).id := by
    intro l hl
    obtain ⟨id, hid, hm⟩ := ht.own l hl
    have hmark : s.makeChannelMarker l l = markerOf (s.group l).id (s.group l).id := rfl
    rw [hmark, (hsound.groups id l hid).2]
    exact ⟨hid, hm⟩
  have set : s.peers ≠ ∅ ∨ s.localState = .connected → s.localGroup ≠ none := by
    rintro (hp | hc) hn
    · exact hp (hsound.alone hn).2.1
    · exact (hsound.alone hn).2.2 hc
  refine ⟨⟨fun hn => (hsound.alone hn).1, fun hg => ?_⟩, fun l hl => (own l hl).1, set, fun hc => ?_,
    fun e he hneed rounds => handle_grouped hsound he hneed⟩
  · refine Option.eq_none_iff_forall_ne_some.mpr fun l hl => ?_
    have hown := (own l hl).1
    rw [hg] at hown
    cases hown
  · obtain ⟨l, hl⟩ := Option.ne_none_iff_exists'.mp (set (Or.inr hc))
    exact ⟨l, hl, (own l hl).2⟩

omit [Platform] in
/-- A node that has founded its group, with a member and a second group; its peer leaves. -/
theorem group_table_two : ∃ h s e, @Past sha1 (@ProperIds sha1) h s ∧ s.localState = .connected ∧ s.groups.size = 2 ∧
    s.Enabled e ∧ @NeedsGroup sha1 e ∧ (∃ l, s.localGroup = some l ∧ s.groups.find? (s.group l).id = some l ∧
      s.channelMarkers.find? (@makeChannelMarker sha1 s l l) = some (s.group l).id) ∧
    @handle sha1 1 s e ≠ .error (.fault .nullLocalGroup) := by
  have hrun : @livesTo sha1 (@ProperIds sha1) _ node
      [.accept [9], .read 1 (request 65) none, .accept [8],
        .read 2 (msg 2 (.joinAck (idOf 199) (idOf 66) (List.replicate 5 66))) none]
      (fun h s => decide (s.localState = .connected ∧ s.groups.size = 2 ∧ s.Enabled (.eof 1) ∧
        (((@groupIds sha1 h).flatMap fun a => (@groupIds sha1 h).map (a ++ ·)).map (@makeHash sha1)).Nodup)) = true := by
    decide +kernel
  obtain ⟨h, s, hp, ht⟩ := @past_of_livesTo sha1 _ _ _ _ _ _ _ _ hrun
  obtain ⟨hc, hg, he, hd⟩ := of_decide_eq_true ht
  have mem : ∀ {text}, text ∈ @markerTexts sha1 h →
      text ∈ (@groupIds sha1 h).flatMap fun a => (@groupIds sha1 h).map (a ++ ·) := by
    rintro text ⟨a, ha, b, hb, rfl⟩
    exact List.mem_flatMap.mpr ⟨a, ha, List.mem_map_of_mem hb⟩
  have hinj : Set.InjOn (@makeHash sha1) (@markerTexts sha1 h) := fun x hx y hy hxy =>
    List.inj_on_of_nodup_map hd (mem hx) (mem hy) hxy
  obtain ⟨-, hfiled, -, hmark, hneed⟩ := @group_table sha1 h s hp hinj
  obtain ⟨l, hl, hm⟩ := hmark hc
  exact ⟨h, s, .eof 1, hp, hc, hg, he, trivial, ⟨l, hl, hfiled l hl, hm⟩, hneed _ he trivial 1⟩

end Network

end RacKun
