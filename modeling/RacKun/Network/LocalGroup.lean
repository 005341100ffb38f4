/-
  RacKun.Network.LocalGroup — the group of a node, chosen once, and the markers that lead
  from it to the others.

  Whether to found a group is decided by the state of the local peer, which lags behind
  the local group: a node that has been acknowledged but is not ready yet founds a second
  one when it is asked. And a marker is entered once for a pair of group IDs; it is not
  cleared with the groups, and names one group of the two (`Chooses` says when neither
  matters).

  - `handle_marks`: a group that is made gets its marker.
  - `Chosen.step`: the local group is filed, and every group has its marker.
-/

import RacKun.Network.Frame
import RacKun.Network.Talk

namespace RacKun

open Lib (OrdMap bind_ok pure_ok ok_bind)

open Scenario

namespace Network

variable [Platform]

/-- `make_channel_marker`, on the IDs. -/
def markerOf (id₁ id₂ : Bytes) : Bytes := if id₁ < id₂ then makeHash (id₁ ++ id₂) else makeHash (id₂ ++ id₁)

omit [Platform] in
/-- The two IDs as `make_channel_marker` hashes them. -/
def pairOf (id₁ id₂ : Bytes) : Bytes := if id₁ < id₂ then id₁ ++ id₂ else id₂ ++ id₁

theorem markerOf_pair (id₁ id₂ : Bytes) : markerOf id₁ id₂ = makeHash (pairOf id₁ id₂) := by
  unfold markerOf pairOf
  split <;> rfl

omit [Platform] in
/-- IDs of one length can be read back, but for their order. -/
theorem pairOf_eq {n : Nat} {a b c d : Bytes} (ha : a.length = n) (hb : b.length = n) (hc : c.length = n)
    (hd : d.length = n) (h : pairOf a b = pairOf c d) : a = c ∧ b = d ∨ a = d ∧ b = c := by
  unfold pairOf at h
  split at h <;> split at h
  · exact Or.inl (List.append_inj h (ha.trans hc.symm))
  · exact Or.inr (List.append_inj h (ha.trans hd.symm))
  · exact Or.inr (List.append_inj h (hb.trans hc.symm)).symm
  · exact Or.inl (List.append_inj h (hb.trans hd.symm)).symm

omit [Platform] in
theorem pairOf_comm (a b : Bytes) : pairOf a b = pairOf b a := by
  unfold pairOf
  rcases lt_trichotomy a b with h | rfl | h
  · rw [if_pos h, if_neg (lt_asymm h)]
  · rfl
  · rw [if_neg (lt_asymm h), if_pos h]

omit [Platform] in
theorem pairOf_cases (a b : Bytes) : pairOf a b = a ++ b ∨ pairOf a b = b ++ a := by
  unfold pairOf
  split
  · exact Or.inl rfl
  · exact Or.inr rfl

/-- Two markers are the same, computed here or there, if and only if they are for the same
    two groups in any order. -/
theorem channel_marker_iff {s s' : Network} {a b c d : GroupRef} (ha : (s.group a).id.length = GROUP_ID_LENGTH)
    (hb : (s.group b).id.length = GROUP_ID_LENGTH) (hc : (s'.group c).id.length = GROUP_ID_LENGTH)
    (hd : (s'.group d).id.length = GROUP_ID_LENGTH)
    (hi : Set.InjOn makeHash {(s.group a).id ++ (s.group b).id, (s.group b).id ++ (s.group a).id,
      (s'.group c).id ++ (s'.group d).id, (s'.group d).id ++ (s'.group c).id}) :
    s.makeChannelMarker a b = s'.makeChannelMarker c d ↔
      ({(s.group a).id, (s.group b).id} : Set Bytes) = {(s'.group c).id, (s'.group d).id} := by
  have hab : s.makeChannelMarker a b = makeHash (pairOf (s.group a).id (s.group b).id) := markerOf_pair _ _
  have hcd : s'.makeChannelMarker c d = makeHash (pairOf (s'.group c).id (s'.group d).id) := markerOf_pair _ _
  rw [hab, hcd, Set.pair_eq_pair_iff]
  constructor
  · intro h
    refine pairOf_eq ha hb hc hd (hi ?_ ?_ h)
    · exact (pairOf_cases _ _).imp id Or.inl
    · exact Or.inr (Or.inr (pairOf_cases _ _))
  · intro h
    rcases h with ⟨hac, hbd⟩ | ⟨had, hbc⟩
    · rw [hac, hbd]
    · rw [had, hbc, pairOf_comm]

omit [Platform] in
/-- The two ends of a channel, each with its own group first. -/
theorem channel_marker_ends :
    let s : Network := { node with toMembership := (node.createGroup (idOf 1)).createGroup (idOf 2) }
    let s' : Network := { node with toMembership := (node.createGroup (idOf 2)).createGroup (idOf 1) }
    @makeChannelMarker sha1 s 0 1 = @makeChannelMarker sha1 s' 0 1 ∧
      @makeChannelMarker sha1 s 0 1 ≠ @makeChannelMarker sha1 s' 0 0 := by
  intro s s'
  have differ : ∀ x ∈ [idOf 1 ++ idOf 2, idOf 2 ++ idOf 1, idOf 2 ++ idOf 2], ∀ y ∈ [idOf 1 ++ idOf 2,
      idOf 2 ++ idOf 1, idOf 2 ++ idOf 2], @makeHash sha1 x = @makeHash sha1 y → x = y := by
    decide +kernel
  have hinj : Set.InjOn (@makeHash sha1) {x | x ∈ [idOf 1 ++ idOf 2, idOf 2 ++ idOf 1, idOf 2 ++ idOf 2]} :=
    fun x hx y hy hxy => differ x hx y hy hxy
  have ends := @channel_marker_iff sha1 s s' 0 1 0 1 rfl rfl rfl rfl (hinj.mono (by
    rintro x (rfl | rfl | rfl | rfl)
    all_goals decide +kernel))
  have own := @channel_marker_iff sha1 s s' 0 1 0 0 rfl rfl rfl rfl (hinj.mono (by
    rintro x (rfl | rfl | rfl | rfl)
    all_goals decide +kernel))
  refine ⟨ends.mpr (Set.pair_comm _ _), fun h => ?_⟩
  rcases Set.pair_eq_pair_iff.mp (own.mp h) with ⟨hid, -⟩ | ⟨hid, -⟩
  · exact absurd hid (by decide +kernel)
  · exact absurd hid (by decide +kernel)

/-- For every group, the marker from our own leads to it. -/
def Marked (s : Network) : Prop := ∀ l ∈ s.localGroup, ∀ g ∈ s.groups.values,
  s.channelMarkers.find? (s.makeChannelMarker l g) = some (s.group g).id

/-- The local group stays, until nobody is left. -/
def KeepsGroup (s : Network) (e : Event) (s' : Network) : Prop := ∀ l ∈ s.localGroup, s'.localGroup = some l ∨
  (∃ p, e = .eof p) ∧ s'.localGroup = none ∧ s'.peers = ∅ ∧ s'.newPeers = ∅

omit [Platform] in
/-- The marker is free, or the group's already. -/
def Unclaimed (s : Network) (marker id : Bytes) : Prop := ∀ gid ∈ s.channelMarkers.find? marker, gid = id

/-- A group is founded only by a node that has none, and a group that is made does not find
    its marker claimed by another. -/
def Chooses (s : Network) : Change → Prop
  | .request _ _ _ _ newId => s.localState = .connected ∨ s.localGroup = none ∧ s.Unclaimed (markerOf newId newId) newId
  | .acked _ groupId _ _ => s.groups.contains groupId = true ∨
      s.Unclaimed (markerOf ((s.localGroup.map fun l => (s.group l).id).getD groupId) groupId) groupId
  | _ => True

instance (s : Network) (marker id : Bytes) : Decidable (s.Unclaimed marker id) :=
  inferInstanceAs (Decidable (∀ gid ∈ s.channelMarkers.find? marker, _))

instance (s : Network) : (c : Change) → Decidable (s.Chooses c)
  | .request .. => inferInstanceAs (Decidable (_ ∨ _ ∧ s.Unclaimed _ _))
  | .acked .. => inferInstanceAs (Decidable (_ ∨ s.Unclaimed _ _))
  | .idle | .accept _ | .contact _ | .notified .. | .unreached | .channels _ | .ready | .completed _ | .expired _ |
    .readySent _ | .closed _ | .failed _ => inferInstanceAs (Decidable True)

/-! ## Markers that are made -/

omit [Platform] in
theorem Unclaimed.insertNew {s : Network} {marker id : Bytes} (h : s.Unclaimed marker id) :
    (s.channelMarkers.insertNew marker id).find? marker = some id := by
  rw [OrdMap.find_insertNew, if_pos rfl]
  cases hm : s.channelMarkers.find? marker with
  | none => rfl
  | some gid => rw [h gid hm]; rfl

/-- An event that changes something has brought a new message. -/
theorem change_new {s : Network} {p : PeerRef} {received : Bytes} {reached : Option Bytes} {m : Message}
    (hm : parseMessage received = .ok m) (hc : s.change (.read p received reached) ≠ .idle) : s.findLog m = none := by
  by_contra hl
  refine hc ?_
  simp only [change, hm, Option.isSome_iff_ne_none.mpr hl, if_true]

/-- What is logged and not relayed enters no marker. -/
theorem relayed_markers {s t u : Network} {m : Message} {p : PeerRef} (hb : m.bcastMarker? = none)
    (ht : s.logKnown m p = .ok t) (hu : t.forward m = .ok u) (marker : Bytes) :
    u.channelMarkers.find? marker = s.channelMarkers.find? marker := by
  simp only [forward, hb] at hu
  cases hu
  unfold logKnown at ht
  split at ht
  · rcases (logMessage_logs ht).markers marker with h | ⟨-, hm, -⟩
    · exact h
    · rw [hb] at hm
      cases hm
  · cases ht
    rfl

omit [Platform] in
/-- The ID of a group just made. -/
theorem createGroup_id (m : Membership) (id : Bytes) : ((m.createGroup id).group m.groupCount).id = id :=
  congrArg Group.id (Membership.createGroup_self m id)

theorem foundGroup_markers {s : Network} {newId : Bytes} (hn : newId = makeHash (s.getId s.localPeer ++ itos (s.clock 0))) :
    s.foundGroup.channelMarkers = s.channelMarkers.insertNew (markerOf newId newId) newId := by
  have hid : makeHash ((s.setState s.localPeer .connected).getId s.localPeer ++ itos (s.clock 0)) = newId := by
    rw [Membership.setState_getId, hn]
  have hg := createGroup_id (s.setState s.localPeer .connected) newId
  have hf : s.foundGroup.channelMarkers = s.channelMarkers.insertNew
      (markerOf (((s.setState s.localPeer .connected).createGroup (makeHash ((s.setState s.localPeer .connected).getId
        s.localPeer ++ itos (s.clock 0)))).group s.groupCount).id (((s.setState s.localPeer .connected).createGroup
        (makeHash ((s.setState s.localPeer .connected).getId s.localPeer ++ itos (s.clock 0)))).group s.groupCount).id)
      (makeHash ((s.setState s.localPeer .connected).getId s.localPeer ++ itos (s.clock 0))) := rfl
  rw [hf, hid]
  exact congrArg (fun x => s.channelMarkers.insertNew (markerOf x x) newId) hg

theorem processJoin_marks {s s' : Network} {m : Message} {p : PeerRef} {id pubK newId : Bytes} {port : Port}
    (hn : newId = makeHash (s.getId s.localPeer ++ itos (s.clock 0))) (hc : s.localState ≠ .connected)
    (hu : s.Unclaimed (markerOf newId newId) newId) (h : s.processJoin m p id pubK port = .ok s') :
    s'.channelMarkers.find? (markerOf newId newId) = some newId := by
  rw [processJoin_eq] at h
  obtain ⟨t, ht, h⟩ := bind_ok.mp h
  have hf : s.foundGroup.channelMarkers.find? (markerOf newId newId) = some newId := by
    rw [foundGroup_markers hn]
    exact hu.insertNew
  have ht' : t.channelMarkers.find? (markerOf newId newId) = some newId := by
    unfold greeted at ht
    simp only [if_pos hc] at ht
    exact (logMessage_talks ht).markers _ _ hf
  split at h
  · exact (answerJoinRequest_talks h).markers _ _ ht'
  · cases h
    exact ht'

theorem hisGroup_markers {s : Network} {groupId : Bytes} (hs : ∀ l, s.localGroup = some l → l < s.groupCount)
    (hg : s.groups.find? groupId = none) :
    (s.hisGroup groupId).2.channelMarkers = s.channelMarkers.insertNew
      (markerOf ((s.localGroup.map fun l => (s.group l).id).getD groupId) groupId) groupId := by
  have hid := createGroup_id s.toMembership groupId
  have hl' : (s.createGroup groupId).localGroup = s.localGroup := rfl
  cases hl : s.localGroup with
  | none =>
    simp only [hisGroup, hg, hl', hl]
    exact congrArg (fun x => s.channelMarkers.insertNew (markerOf x x) groupId) hid
  | some l =>
    simp only [hisGroup, hg, hl', hl, Option.map_some, Option.getD_some]
    have hne : l ≠ s.groupCount := Nat.ne_of_lt (hs l hl)
    have hold : (((s.createGroup groupId).modGroup s.groupCount fun x =>
        x.addGroupToRings s.getId ((s.createGroup groupId).group l)).group l).id = (s.group l).id := by
      rw [Membership.modGroup_of_ne hne, Membership.createGroup_of_ne hne]
    have hnew : (((s.createGroup groupId).modGroup s.groupCount fun x =>
        x.addGroupToRings s.getId ((s.createGroup groupId).group l)).group s.groupCount).id = groupId := by
      rw [Membership.modGroup_self]
      exact hid
    exact congrArg₂ (fun x y => s.channelMarkers.insertNew (markerOf x y) groupId) hold hnew

theorem processJoinAck_marks {s s' : Network} {m : Message} {p : PeerRef} {groupId peerId pubK : Bytes}
    (hs : s.toMembership.Sound) (hg : s.groups.find? groupId = none)
    (hu : s.Unclaimed (markerOf ((s.localGroup.map fun l => (s.group l).id).getD groupId) groupId) groupId)
    (h : s.processJoinAck m p groupId peerId pubK = .ok s') : s'.channelMarkers.find?
      (markerOf ((s.localGroup.map fun l => (s.group l).id).getD groupId) groupId) = some groupId := by
  refine (logMessage_talks h).markers _ _ ?_
  show (s.hisGroup groupId).2.channelMarkers.find? _ = _
  rw [hisGroup_markers hs.localGroup hg]
  exact hu.insertNew

/-- The marker of the group an event makes, if it makes one. -/
theorem handle_marks {rounds : Nat} {s s' : Network} {e : Event} (hs : s.toMembership.Sound)
    (ha : s.Chooses (s.change e)) (h : handle rounds s e = .ok s') :
    (∀ p id pubK port newId, s.change e = .request p id pubK port newId → s.localState ≠ .connected →
      s'.channelMarkers.find? (markerOf newId newId) = some newId) ∧
    ∀ p groupId peerId pubK, s.change e = .acked p groupId peerId pubK → s.groups.find? groupId = none →
      s'.channelMarkers.find? (markerOf ((s.localGroup.map fun l => (s.group l).id).getD groupId) groupId) =
        some groupId := by
  have hcause := change_causes s e
  refine ⟨fun p id pubK port newId hch hc => ?_, fun p groupId peerId pubK hch hg => ?_⟩
  · rw [hch] at hcause ha
    have ha := (ha.resolve_left hc).2
    cases hcause with
    | request _ reached _ hm =>
      have hl := change_new hm (by rw [hch]; simp)
      obtain ⟨t, u, v, ht, hu, hv, hs'⟩ := handle_received hm hl h
      obtain ⟨hum, huc⟩ := relayed_same ht hu
      have hnew : newId = makeHash (u.getId u.localPeer ++ itos (u.clock 0)) := by
        rw [hum, huc]
        simp only [change, hm, hl, Option.isSome_none, Bool.false_eq_true, if_false, messageChange] at hch
        cases hch
        rfl
      have hmark := relayed_markers (m := ⟨_, .join id pubK port⟩) rfl ht hu
      have hv := processJoin_marks hnew (by rw [hum]; exact hc) (fun gid hgid => ha gid (hmark _ ▸ hgid))
        (outcome_quiet (processJoin_quiet _ _ _ _ _ _) hv)
      rcases hs' with rfl | rfl <;> exact hv
  · rw [hch] at hcause ha
    have ha := ha.resolve_left (by rw [OrdMap.not_contains_iff.mpr hg]; exact Bool.false_ne_true)
    cases hcause with
    | acked _ reached hm =>
      have hl := change_new hm (by rw [hch]; simp)
      obtain ⟨t, u, v, ht, hu, hv, hs'⟩ := handle_received hm hl h
      have hum := (relayed_same ht hu).1
      have hmark := relayed_markers (m := ⟨_, .joinAck groupId peerId pubK⟩) rfl ht hu
      have hv := processJoinAck_marks (hum ▸ hs) (by rw [hum]; exact hg) (fun gid hgid => ha gid (by
        rw [← hmark, ← hum]
        exact hgid)) (outcome_quiet (logMessage_quiet _ _ _) hv)
      rw [hum] at hv
      rcases hs' with rfl | rfl <;> exact hv

/-! ## The local group -/

/-- Our group is filed, and for every group there is the marker from ours. -/
def Chosen (s : Network) : Prop := ∀ l, s.localGroup = some l → ∃ own, s.groups.find? own = some l ∧
  ∀ id g, s.groups.find? id = some g → s.channelMarkers.find? (markerOf own id) = some id

theorem Chosen.marked {s : Network} (h : s.Chosen) (hs : s.toMembership.Sound) : s.Marked := by
  intro l hl g hg
  obtain ⟨own, hown, hm⟩ := h l hl
  obtain ⟨id, hid⟩ := OrdMap.mem_values.mp hg
  have h₁ : (s.group l).id = own := (hs.groups own l hown).2
  have h₂ : (s.group g).id = id := (hs.groups id g hid).2
  have hmark : s.makeChannelMarker l g = markerOf (s.group l).id (s.group g).id := rfl
  rw [hmark, h₁, h₂]
  exact hm id g hid

omit [Platform] in
/-- The only entry of a map that was empty. -/
theorem find_first {groups : OrdMap Bytes GroupRef} {own id : Bytes} {l g : GroupRef} (he : groups = ∅)
    (h : (groups.insertNew own l).find? id = some g) : id = own ∧ g = l := by
  rw [he] at h
  exact (OrdMap.find_insertNew_some h).resolve_right fun hold => by cases hold

theorem step_talks {s s' : Network} {e : Event} (h : Step s e s') {marker gid : Bytes}
    (hm : s.channelMarkers.find? marker = some gid) : s'.channelMarkers.find? marker = some gid := by
  obtain ⟨-, rounds, h⟩ := h
  by_cases he : ∃ message, e = .sendAll message
  · obtain ⟨message, rfl⟩ := he
    cases h
    exact hm
  · exact (handle_talks (fun message hm => he ⟨message, hm⟩) h).markers _ _ hm

theorem Chosen.step {s s' : Network} {e : Event} (h : s.Chosen) (hs : s.toMembership.Sound)
    (ha : s.Chooses (s.change e)) (hst : Step s e s') : s'.Chosen ∧ s.KeepsGroup e s' := by
  obtain ⟨he, rounds, hh⟩ := id hst
  have hm := handle_membership hh
  have hmark := handle_marks hs ha hh
  have hre := Membership.apply_regroups hs (change_awaits he)
  rw [← hm] at hre
  have stays : s'.localGroup = s.localGroup → s.KeepsGroup e s' := fun hl l hg => Or.inl (hl.trans hg)
  -- a node without a group has none to keep, and the group it makes is the only one
  have first : ∀ {own}, s.localGroup = none → s'.localGroup = some s.groupCount →
      s'.groups = s.groups.insertNew own s.groupCount → s'.channelMarkers.find? (markerOf own own) = some own →
      s'.Chosen ∧ s.KeepsGroup e s' := by
    intro own hn hl hg hmk
    have hempty := (hs.alone hn).1
    refine ⟨fun l hl' => ⟨own, ?_, fun id g hid => ?_⟩, fun l hl' => by rw [hn] at hl'; cases hl'⟩
    · rw [hg, hempty, ← Option.some.inj (hl.symm.trans hl'), OrdMap.find_insertNew, if_pos rfl]
      rfl
    · rw [hg] at hid
      rw [(find_first hempty hid).1]
      exact hmk
  generalize hch : s.change e = c at ha hre
  generalize hl' : s'.localGroup = l at hre
  generalize hg' : s'.groups = gs at hre
  cases hre with
  | same =>
    refine ⟨fun l hl => ?_, stays hl'⟩
    obtain ⟨own, hown, hids⟩ := h l (hl'.symm.trans hl)
    exact ⟨own, hg' ▸ hown, fun id g hid => step_talks hst (hids id g (hg' ▸ hid))⟩
  | founded p id pubK port newId hc =>
    exact first (ha.resolve_left hc).1 hl' hg' (hmark.1 p id pubK port newId hch hc)
  | joined p groupId peerId pubK hl hg =>
    have hmk := hmark.2 p groupId peerId pubK hch hg
    rw [hl] at hmk
    exact first hl hl' hg' hmk
  | entered p groupId peerId pubK hl hg =>
    have hmk := hmark.2 p groupId peerId pubK hch hg
    refine ⟨fun l hll => ?_, stays hl'⟩
    have hll : s.localGroup = some l := hl'.symm.trans hll
    obtain ⟨own, hown, hids⟩ := h l hll
    have hid : (s.group l).id = own := (hs.groups own l hown).2
    rw [hll, Option.map_some, Option.getD_some, hid] at hmk
    rw [hg']
    refine ⟨own, ?_, fun id g hfind => ?_⟩
    · rw [OrdMap.find_insertNew]
      split
      · rename_i ho
        rw [← ho, hown]
        rfl
      · exact hown
    · rcases OrdMap.find_insertNew_some hfind with ⟨rfl, -⟩ | hold
      · exact hmk
      · exact step_talks hst (hids id g hold)
  | cleared p hp hn =>
    rw [← hch, ← hm] at hp hn
    refine ⟨fun l hl => ?_, fun l _ => Or.inr ⟨?_, hl', hp, hn⟩⟩
    · rw [hl'] at hl
      cases hl
    · have hcause := change_causes s e
      rw [hch] at hcause
      cases hcause
      exact ⟨p, rfl⟩

/-- In a run of such steps, the local group is chosen once, and every group has its marker. -/
theorem group_chosen_once {s s' : Network} {e : Event} (hs : Reach (fun s e => s.Chooses (s.change e)) s)
    (ha : s.Chooses (s.change e)) (hst : Step s e s') : s.Marked ∧ s.KeepsGroup e s' ∧ s'.Marked := by
  have chosen : ∀ {s}, Reach (fun s e => s.Chooses (s.change e)) s → s.Chosen := by
    intro s hs
    induction hs with
    | start id pubK port clock => intro l hl; cases hl
    | step hr ha hst ih => exact (ih.step hr.sound ha hst).1
  have hstep := (chosen hs).step hs.sound ha hst
  exact ⟨(chosen hs).marked hs.sound, hstep.2, hstep.1.marked (Reach.step hs ha hst).sound⟩

omit [Platform] in
/-- A member of another group acknowledges us, too. -/
theorem group_chosen_once_ack : ∃ s e s', @Reachable sha1 s ∧ @Step sha1 s e s' ∧ s.localGroup ≠ none ∧
    s'.groups.size = 2 ∧ @Marked sha1 s ∧ s.KeepsGroup e s' ∧ @Marked sha1 s' := by
  let e : Event := .read 2 (msg 2 (.joinAck (idOf 199) (idOf 66) (List.replicate 5 66))) none
  have hrun : @leadsTo sha1 (fun s e => @Chooses sha1 s (@change sha1 s e)) _ node
      [.join [] [] (some [9]), .read 1 (ack 65) none, .accept [8]] (fun s => decide (s.Enabled e ∧
        @Chooses sha1 s (@change sha1 s e) ∧ s.localGroup ≠ none ∧
        (@handle sha1 1 s e).toOption.any (fun s' => decide (s'.groups.size = 2)) = true)) = true := by
    decide +kernel
  obtain ⟨s, hs, ht⟩ := @reach_of_leadsTo sha1 _ _ _ _ _ _ _ _ hrun
  obtain ⟨he, hc, hl, hn⟩ := of_decide_eq_true ht
  obtain ⟨s', hst, hn⟩ := @step_of_any sha1 _ _ _ he hn
  exact ⟨s, e, s', @Reach.reachable sha1 _ _ hs, hst, hl, of_decide_eq_true hn, @group_chosen_once sha1 s s' e hs hc hst⟩

omit [Platform] in
/-- A node that has been acknowledged, but is not ready, is asked by a third one. -/
theorem group_chosen_twice : ¬ ∀ s e s', @Reachable sha1 s → @Step sha1 s e s' →
    @Marked sha1 s ∧ s.KeepsGroup e s' ∧ @Marked sha1 s' := by
  intro hall
  have hrun : @leadsTo sha1 (fun _ _ => True) _ node [.join [] [] (some [9]), .read 1 (ack 65) none, .accept [8]]
      (fun s => decide (s.Enabled (.read 2 (request 66) none) ∧ s.localGroup = some 0 ∧
        (@handle sha1 1 s (.read 2 (request 66) none)).toOption.any (fun s' => decide (s'.localGroup = some 1)) = true)) =
        true := by
    decide +kernel
  obtain ⟨s, hs, ht⟩ := @reach_of_leadsTo sha1 _ _ _ _ _ _ _ _ hrun
  obtain ⟨he, hl, hn⟩ := of_decide_eq_true ht
  obtain ⟨s', hst, hn⟩ := @step_of_any sha1 _ _ _ he hn
  have hn := of_decide_eq_true hn
  rcases (hall s _ s' hs hst).2.1 0 hl with h | ⟨-, h, -⟩
  · rw [hn] at h
    cases h
  · rw [hn] at h
    cases h

end Network

end RacKun
