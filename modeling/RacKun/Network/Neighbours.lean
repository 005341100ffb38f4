/-
  RacKun.Network.Neighbours — when the cached neighbours are those of the rings.

  Every handler that changes the rings updates the neighbours, with three exceptions:
  a JOIN Acknowledgement adds its sender to the rings and counts on READY, which may
  have come before; a JOIN request or acknowledgement that changes the sender's ID leaves
  the caches under the old one; and a disconnection takes the peer out of our group's rings
  even where it then updates another group.

  - `FreshGroups.apply`: any other step leaves every cache as `update_neighbours` would
    compute it.
-/

import RacKun.Network.Groups

namespace RacKun

open Lib (OrdMap)

open Scenario

namespace Group

theorem same_caches {g : Group} {preds succs : PeerMap} (hp : preds = g.predecessors) (hs : succs = g.successors) :
    { g with predecessors := preds, successors := succs } = g := by
  subst hp hs
  rfl

variable [Platform] {getId : PeerRef → Bytes}

/-- Caches stay fresh as long as neither they nor the neighbours change. -/
theorem Fresh.frame {getId' : PeerRef → Bytes} {g g' : Group} {localPeer : PeerRef} (h : g.Fresh getId localPeer)
    (hp : g'.predecessors = g.predecessors) (hs : g'.successors = g.successors)
    (hn : g'.neighbours getId' localPeer = g.neighbours getId localPeer) : g'.Fresh getId' localPeer := by
  unfold Fresh at h ⊢
  cases hg : g.neighbours getId localPeer with
  | ok r =>
    rw [updateNeighbours_ok hg] at h
    have h₁ : r.1 = g'.predecessors := (congrArg predecessors h).trans hp.symm
    have h₂ : r.2 = g'.successors := (congrArg successors h).trans hs.symm
    rw [updateNeighbours_ok (hn.trans hg)]
    exact same_caches h₁ h₂
  | error e =>
    rw [updateNeighbours_error hg] at h
    have h₁ : ∅ = g'.predecessors := (congrArg predecessors h).trans hp.symm
    have h₂ : ∅ = g'.successors := (congrArg successors h).trans hs.symm
    rw [updateNeighbours_error (hn.trans hg)]
    exact same_caches h₁ h₂

theorem fresh_of_error {g : Group} {localPeer : PeerRef} (hp : g.predecessors = ∅) (hs : g.successors = ∅)
    (hn : g.neighbours getId localPeer = .error .mk) : g.Fresh getId localPeer := by
  obtain ⟨id, peers, preds, succs, rings, shape⟩ := g
  cases hp
  cases hs
  exact updateNeighbours_error hn

/-- Whoever is alone in the rings has no neighbours. -/
theorem alone_neighbours (id : Bytes) (p localPeer : PeerRef) (getId' : PeerRef → Bytes) :
    ((new id).addToRings getId' p).neighbours getId localPeer = .error .mk := by
  have hr : ∀ i, ((Ring.new i).addPeer getId' p).getPredecessor getId localPeer = .error .mk := by
    intro i
    unfold Ring.getPredecessor
    split
    · rfl
    · rfl
  show ((List.range 5).map Ring.new |>.map (·.addPeer getId' p)).foldlM (neighboursRound getId localPeer) (∅, ∅) = _
  rw [show List.range 5 = [0, 1, 2, 3, 4] from rfl, List.map_cons, List.map_cons, List.foldlM_cons, neighboursRound, hr]
  rfl

end Group

namespace Membership

variable [Platform]

/-- Every cache is what `update_neighbours` would compute. -/
def FreshGroups (m : Membership) : Prop := ∀ id g, m.groups.find? id = some g → (m.group g).Fresh m.getId m.localPeer

/-- The step changes no neighbour behind `update_neighbours`' back. -/
def KeepsCaches (m : Membership) : Change → Prop
  | .request p id _ _ _ => ∀ e ∈ m.groups.entries,
      (m.joinToken = true ∧ m.localState = .connected ∧ m.localGroup = some e.2) ∨
        (m.group e.2).neighbours (m.renamed p id) m.localPeer = (m.group e.2).neighbours m.getId m.localPeer
  | .acked p groupId peerId _ =>
    (∀ e ∈ m.groups.entries,
      (if e.1 = groupId then (m.group e.2).addPeer (m.renamed p peerId) p else m.group e.2).neighbours
        (m.renamed p peerId) m.localPeer = (m.group e.2).neighbours m.getId m.localPeer) ∧
    (m.groups.contains groupId = false → ∀ l ∈ m.localGroup,
      (((Group.new groupId).addGroupToRings m.getId (m.group l)).addPeer (m.renamed p peerId) p).neighbours
        (m.renamed p peerId) m.localPeer = .error .mk)
  | .closed p => m.peers.contains (m.getId p) = true → ∀ e ∈ m.groups.entries, m.localGroup = some e.2 →
      m.leaves e.2 p e.2 ∨
        ((m.group e.2).removePeer m.getId p).2.neighbours m.getId m.localPeer =
          (m.group e.2).neighbours m.getId m.localPeer
  | _ => True

instance (m : Membership) (c : Change) : Decidable (m.KeepsCaches c) := by
  unfold KeepsCaches
  split <;> infer_instance

/-- Fresh after a step: updated by it, or neither the cache nor the neighbours changed. -/
theorem FreshGroups.step {m n : Membership} (h : m.FreshGroups) (hl : n.localPeer = m.localPeer)
    (H : ∀ id g, n.groups.find? id = some g → (n.group g).Fresh n.getId n.localPeer ∨
      m.groups.find? id = some g ∧ (n.group g).predecessors = (m.group g).predecessors ∧
        (n.group g).successors = (m.group g).successors ∧
        (n.group g).neighbours n.getId m.localPeer = (m.group g).neighbours m.getId m.localPeer) : n.FreshGroups := by
  intro id g hg
  rcases H id g hg with hf | ⟨hm, hp, hs, hn⟩
  · exact hf
  · rw [hl]
    exact (h id g hm).frame hp hs hn

/-- A step that leaves the groups and the IDs of their members alone. -/
theorem FreshGroups.same {m n : Membership} (h : m.FreshGroups) (hp : m.Placed) (hs : m.Sound)
    (hl : n.localPeer = m.localPeer) (hgs : n.groups = m.groups) (hg : n.group = m.group)
    (hids : ∀ q, q < m.peerCount → n.getId q = m.getId q) : n.FreshGroups := by
  refine h.step hl fun id g hf => Or.inr ⟨hgs ▸ hf, by rw [hg], by rw [hg], ?_⟩
  rw [hg]
  exact Group.neighbours_congr (fun q hq => hids q (hp g q hq)) (hids _ hs.localPeer)

theorem FreshGroups.acknowledge {m : Membership} (h : m.FreshGroups) (p : PeerRef) (g : GroupRef) :
    (m.acknowledge p g).FreshGroups := by
  refine h.step rfl fun id g' hf => ?_
  rw [acknowledge_group]
  split
  · exact Or.inl (Group.updateNeighbours_fresh _ _)
  · exact Or.inr ⟨hf, rfl, rfl, rfl⟩

theorem FreshGroups.answer {m : Membership} (h : m.FreshGroups) (p : PeerRef) : (m.answer p).FreshGroups := by
  cases hl : m.localGroup with
  | none => simp only [Membership.answer, hl]; exact h
  | some l =>
    rw [answer_eq hl]
    exact FreshGroups.acknowledge (m := { m with joinToken := _, newPeers := _ }) h p l

theorem FreshGroups.check {m : Membership} (h : m.FreshGroups) : m.check.FreshGroups := by
  unfold Membership.check
  split
  · exact h.answer _
  · exact h

/-- A group after a JOIN request is the one just founded, or one we had. -/
theorem greet_group {m : Membership} {p : PeerRef} {id pubK newId id' : Bytes} {g : GroupRef}
    (hg : (m.greet p id pubK newId).groups.find? id' = some g) :
    (m.greet p id pubK newId).group g = (Group.new newId).addToRings m.getId m.localPeer ∨
      m.groups.find? id' = some g ∧ (m.greet p id pubK newId).group g = m.group g ∧
        (m.localState = .connected → m.localGroup = some g → (m.greet p id pubK newId).localGroup = some g) := by
  unfold greet at hg ⊢
  by_cases hc : m.localState ≠ .connected
  · simp only [if_pos hc] at hg ⊢
    have hg : (m.groups.insertNew newId m.groupCount).find? id' = some g := hg
    by_cases hgc : g = m.groupCount
    · exact Or.inl ((found_group m newId g).trans (if_pos hgc))
    · have hold := (OrdMap.find_insertNew_some hg).resolve_left fun hnew => hgc hnew.2
      exact Or.inr ⟨hold, (found_group m newId g).trans (if_neg hgc), fun h => absurd h hc⟩
  · simp only [if_neg hc] at hg ⊢
    exact Or.inr ⟨hg, rfl, fun _ h => h⟩

theorem FreshGroups.request {m : Membership} (h : m.FreshGroups) {p : PeerRef} {id pubK : Bytes}
    {port : Port} {newId : Bytes} (hk : m.KeepsCaches (.request p id pubK port newId)) :
    (m.apply (.request p id pubK port newId)).FreshGroups := by
  have hloc : (m.greet p id pubK newId).localPeer = m.localPeer := by
    unfold greet
    split <;> rfl
  -- unless the request is answered in it, a group keeps its neighbours
  have rest : ∀ id' g, (m.greet p id pubK newId).groups.find? id' = some g →
      (m.joinToken = true → (m.greet p id pubK newId).localGroup ≠ some g) →
      ((m.greet p id pubK newId).group g).Fresh (m.renamed p id) m.localPeer := by
    intro id' g hg hno
    rcases greet_group hg with hn | ⟨hm, hn, hl⟩
    · rw [hn]
      exact Group.fresh_of_error rfl rfl (Group.alone_neighbours ..)
    · rw [hn]
      refine (h id' g hm).frame rfl rfl ?_
      rcases hk (id', g) (OrdMap.mem_entries.mpr hm) with ⟨ht, hc, hl'⟩ | he
      · exact absurd (hl hc hl') (hno ht)
      · exact he
  simp only [Membership.apply, greet_token]
  split
  · intro id' g hg
    have hpr := answer_peer (m.greet p id pubK newId) p
    have hids : ((m.greet p id pubK newId).answer p).getId = m.renamed p id := by
      rw [← greet_ids m p id pubK newId]
      exact funext fun q => by rw [getId, hpr.1, getId]
    rw [hids, hpr.2.1, hloc]
    cases hl : (m.greet p id pubK newId).localGroup with
    | none =>
      simp only [Membership.answer, hl] at hg ⊢
      exact rest id' g hg fun _ => by simp [hl]
    | some l =>
      rw [answer_group hl]
      split
      · rw [greet_ids, hloc]
        exact Group.updateNeighbours_fresh _ _
      · rename_i hgl
        rw [answer_eq hl] at hg
        exact rest id' g hg fun _ hl' => hgl (Option.some.inj (hl'.symm.trans hl))
  · rename_i ht
    intro id' g hg
    show ((m.greet p id pubK newId).group g).Fresh (m.greet p id pubK newId).getId (m.greet p id pubK newId).localPeer
    rw [greet_ids, hloc]
    exact rest id' g hg fun ht' => absurd ht' ht

/-- The group of an acknowledgement is there already, or new. -/
theorem ackGroup_group {m : Membership} (hs : m.Sound) {groupId id : Bytes} {g : GroupRef}
    (hg : (m.ackGroup groupId).2.groups.find? id = some g) :
    (m.groups.find? id = some g ∧ (m.ackGroup groupId).2.group g = m.group g ∧
        (g = (m.ackGroup groupId).1 ↔ id = groupId)) ∨
      m.groups.find? groupId = none ∧ g = (m.ackGroup groupId).1 ∧ (m.ackGroup groupId).2.group g =
        match m.localGroup with
        | none => Group.new groupId
        | some l => (Group.new groupId).addGroupToRings m.getId (m.group l) := by
  cases hm : m.groups.find? groupId with
  | some g₀ =>
    simp only [ackGroup, hm] at hg ⊢
    refine Or.inl ⟨hg, trivial, ?_⟩
    constructor
    · rintro rfl
      rw [← (hs.groups id g hg).2, (hs.groups groupId g hm).2]
    · rintro rfl
      exact Option.some.inj (hg.symm.trans hm)
  | none =>
    have hgs : (m.ackGroup groupId).2.groups = m.groups.insertNew groupId m.groupCount := by
      simp only [ackGroup, hm]
      split <;> rfl
    have h₁ : (m.ackGroup groupId).1 = m.groupCount := by simp only [ackGroup, hm]
    rw [hgs, OrdMap.find_insertNew, hm] at hg
    rw [h₁]
    by_cases hid : id = groupId
    · rw [if_pos hid] at hg
      have hgc : g = m.groupCount := (Option.some.inj hg).symm
      subst hgc
      refine Or.inr ⟨rfl, rfl, ?_⟩
      simp only [ackGroup, hm]
      cases hl : m.localGroup with
      | none => exact createGroup_self m groupId
      | some l =>
        refine (modGroup_self ..).trans ?_
        rw [createGroup_self, createGroup_of_ne (Nat.ne_of_lt (hs.localGroup l hl))]
    · rw [if_neg hid] at hg
      have hlt := Nat.ne_of_lt (hs.groups id g hg).1
      refine Or.inl ⟨hg, ?_, fun h => absurd h hlt, fun h => absurd h hid⟩
      simp only [ackGroup, hm]
      split
      · exact createGroup_of_ne hlt groupId
      · exact (modGroup_of_ne hlt _).trans (createGroup_of_ne hlt groupId)

theorem FreshGroups.acked {m : Membership} (h : m.FreshGroups) (hs : m.Sound) {p : PeerRef} {groupId peerId pubK : Bytes}
    (hk : m.KeepsCaches (.acked p groupId peerId pubK)) : (m.apply (.acked p groupId peerId pubK)).FreshGroups := by
  obtain ⟨hi, hl⟩ := ackGroup_ids m groupId
  refine h.step hl fun id g hg => ?_
  have hids : (m.apply (.acked p groupId peerId pubK)).getId = m.renamed p peerId := by
    rw [Membership.apply, ackPeer_ids, renamed, hi, renamed]
  have hgrp : (m.apply (.acked p groupId peerId pubK)).group g = if g = (m.ackGroup groupId).1 then
      ((m.ackGroup groupId).2.group g).addPeer (m.renamed p peerId) p else (m.ackGroup groupId).2.group g := by
    rw [Membership.apply, ackPeer_group, renamed, hi, renamed]
  have hloc : (m.apply (.acked p groupId peerId pubK)).localPeer = m.localPeer := hl
  rw [hids, hgrp, hloc]
  rcases ackGroup_group hs hg with ⟨hm, hn, hiff⟩ | ⟨hm, hn, hnew⟩
  · have hk := hk.1 (id, g) (OrdMap.mem_entries.mpr hm)
    simp only [hiff, hn]
    refine Or.inr ⟨hm, ?_, ?_, hk⟩ <;> split <;> rfl
  · rw [if_pos hn, hnew]
    refine Or.inl (Group.fresh_of_error ?_ ?_ ?_)
    · cases m.localGroup <;> rfl
    · cases m.localGroup <;> rfl
    · cases hloc : m.localGroup with
      | none => exact Group.alone_neighbours groupId p m.localPeer (m.renamed p peerId)
      | some l => exact hk.2 (OrdMap.not_contains_iff.mpr hm) l hloc

theorem FreshGroups.remove {m : Membership} (h : m.FreshGroups) (hs : m.Sound) {p : PeerRef}
    (hk : m.KeepsCaches (.closed p)) : (m.remove p).FreshGroups := by
  cases hp : m.peers.contains (m.getId p) with
  | false => rw [Membership.remove, hp]; exact h
  | true =>
    obtain ⟨l, hl⟩ := hs.localGroup_of_peers hp
    rw [remove_eq hs hl hp]
    refine h.step rfl fun id g hg => ?_
    simp only
    split
    · exact Or.inl (Group.updateNeighbours_fresh _ _)
    · rename_i hno
      split
      · rename_i hgl
        subst hgl
        have hkg := hk hp (id, g) (OrdMap.mem_entries.mpr hg) hl
        exact Or.inr ⟨hg, rfl, rfl, hkg.resolve_left hno⟩
      · exact Or.inr ⟨hg, rfl, rfl, rfl⟩

theorem FreshGroups.closed {m : Membership} (h : m.FreshGroups) (hp : m.Placed) (hs : m.Sound) {p : PeerRef}
    (hc : (m.peer p).listening = true) (hk : m.KeepsCaches (.closed p)) : (m.apply (.closed p)).FreshGroups := by
  have hids := stopListening_getId m p
  have hf : (m.stopListening p).FreshGroups := h.same hp hs rfl rfl rfl fun q _ => congrFun hids q
  have hk : (m.stopListening p).KeepsCaches (.closed p) := by
    simp only [KeepsCaches, leaves, hids]
    exact hk
  have hr := hf.remove (hs.stopListening (hs.listening p hc)) hk
  simp only [Membership.apply, reset]
  split
  · intro id g hg
    cases hg
  · exact hr

theorem FreshGroups.apply {m : Membership} (h : m.FreshGroups) (hs : m.Sound) (hp : m.Placed) {c : Change}
    (hc : m.Awaits c) (hk : m.KeepsCaches c) : (m.apply c).FreshGroups := by
  have newcomer : ∀ {n : Membership}, n.localPeer = m.localPeer → n.groups = m.groups → n.group = m.group →
      (∀ q, q < m.peerCount → n.getId q = m.getId q) → n.FreshGroups := fun h₁ h₂ h₃ h₄ => h.same hp hs h₁ h₂ h₃ h₄
  cases c with
  | idle => exact h
  | accept address =>
    refine newcomer rfl rfl rfl fun q hq => ?_
    exact (congrFun (addNewPeer_getId ..) q).trans (newPeer_getId hq address)
  | contact address =>
    refine newcomer rfl rfl rfl fun q hq => ?_
    refine (congrFun (addNewPeer_getId ..) q).trans ?_
    rw [setState_getId]
    exact newPeer_getId hq address
  | request p id pubK port newId => exact h.request hk
  | notified groupId peerId pubK address =>
    simp only [Membership.apply]
    split
    · exact h
    · rename_i g _
      have hf : (({ m with joinToken := false }.newPeer address).enrol m.peerCount peerId pubK).FreshGroups := by
        refine newcomer rfl rfl rfl fun q hq => ?_
        exact (congrArg Peer.id (enrol_of_ne (Nat.ne_of_lt hq) peerId pubK)).trans
          (newPeer_getId (m := { m with joinToken := false }) hq address)
      exact hf.acknowledge m.peerCount g
  | unreached => exact h
  | channels peerId =>
    simp only [Membership.apply]
    split
    · exact h
    · rename_i p _
      cases hl : m.localGroup with
      | none => simp only [enterChannels, hl]; exact h
      | some l =>
        rw [enterChannels_eq hl, modGroups_eq _ hs.values_nodup]
        refine h.step rfl fun id g hg => ?_
        simp only [if_pos (OrdMap.mem_values.mpr ⟨id, hg⟩), channel]
        split
        · exact Or.inl (Group.updateNeighbours_fresh _ _)
        · exact Or.inr ⟨hg, rfl, rfl, rfl⟩
  | acked p groupId peerId pubK => exact h.acked hs hk
  | ready =>
    have he := ready_entered m
    have hl : (m.apply .ready).localPeer = m.localPeer := by rw [he.rest]
    refine h.step hl fun id g hg => ?_
    rw [he.ids, hl]
    rcases he.group g with hn | hn
    · rw [hn]
      rw [he.rest] at hg
      exact Or.inr ⟨hg, rfl, rfl, rfl⟩
    · rw [hn]
      exact Or.inl (Group.updateNeighbours_fresh _ _)
  | completed p =>
    refine FreshGroups.check ?_
    exact newcomer rfl rfl rfl fun q _ => congrFun (setState_getId m p .connected) q
  | expired id =>
    simp only [Membership.apply]
    split
    · exact h
    · refine FreshGroups.check ?_
      exact newcomer rfl rfl rfl fun q _ => congrFun (setState_getId ..) q
  | readySent id =>
    simp only [Membership.apply]
    split <;> exact h
  | closed p => exact h.closed hp hs hc hk
  | failed p => exact newcomer rfl rfl rfl fun q _ => congrFun (stopListening_getId m p) q

end Membership

namespace Network

open RacKun.Membership (KeepsCaches FreshGroups)

section

variable [Platform]

/-- In every run whose steps change no neighbour behind `update_neighbours`' back, the
    caches are always fresh. -/
theorem caches_fresh {s : Network} (hs : Reach (fun s e => s.toMembership.KeepsCaches (s.change e)) s) :
    s.toMembership.FreshGroups :=
  hs.membership (fun id pubK port clock id' g hg => by cases hg) fun s e hr h he hk =>
    h.apply hr.sound hr.placed (change_awaits he) hk

end

/-- Two members acknowledge us, then comes READY: we have the neighbours of three. -/
theorem caches_fresh_ready : ∃ s, @Reachable sha1 s ∧ @FreshGroups sha1 s.toMembership ∧
    ∃ g, s.localGroup = some g ∧ (s.group g).predecessors.keys = [idOf 65, idOf 66] := by
  have hrun : @leadsTo sha1 (fun s e => @KeepsCaches sha1 s.toMembership (@change sha1 s e)) _ node
      [.join [] [] (some [9]), .read 1 (ack 65) none, .accept [8], .read 2 (ack 66) none, .read 1 (msg 1 .ready) none]
      (fun s => decide (∃ g ∈ s.localGroup, (s.group g).predecessors.keys = [idOf 65, idOf 66])) = true := by
    decide +kernel
  obtain ⟨s, hs, ht⟩ := @reach_of_leadsTo sha1 _ _ _ _ _ _ _ _ hrun
  exact ⟨s, @Reach.reachable sha1 _ _ hs, @caches_fresh sha1 s hs, of_decide_eq_true ht⟩

/-- The second acknowledgement comes after READY. -/
theorem late_ack : ¬ ∀ s, @Reachable sha1 s → @FreshGroups sha1 s.toMembership := by
  intro h
  have hrun : @leadsTo sha1 (fun _ _ => True) _ node
      [.join [] [] (some [9]), .read 1 (ack 65) none, .read 1 (msg 1 .ready) none, .accept [8], .read 2 (ack 66) none]
      (fun s => decide (∃ e ∈ s.groups.entries, (s.group e.2).predecessors.keys = [idOf 65] ∧
        (@Group.updateNeighbours sha1 s.getId (s.group e.2) s.localPeer).predecessors.keys = [idOf 65, idOf 66])) =
        true := by
    decide +kernel
  obtain ⟨s, hs, ht⟩ := @reach_of_leadsTo sha1 _ _ _ _ _ _ _ _ hrun
  obtain ⟨e, he, h₁, h₂⟩ := of_decide_eq_true ht
  have hf := h s hs e.1 e.2 (OrdMap.mem_entries.mp he)
  rw [hf, h₁] at h₂
  exact absurd h₂ (by decide)

end Network

end RacKun
