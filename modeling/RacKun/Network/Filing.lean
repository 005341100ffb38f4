/-
  RacKun.Network.Filing — under which keys the peers are filed, and what a second `init`
  does to them.

  The maps and rings hold a peer under the ID he had when he was entered. `init` changes
  that ID wherever he is, and nobody moves him: so the keys are right as long as nobody
  who is filed tells us another ID (`Honest`).

  - `Tends.apply`: a property of groups that the operations keep, with the IDs as they are
    after the step.
  - `KeysMatch.apply`: the step that keeps all keys right.
-/

import RacKun.Group.Members
import RacKun.Network.Disconnect
import RacKun.Network.Frame
import RacKun.Network.Token

namespace RacKun

open Lib (OrdMap)

open Scenario

namespace Membership

variable [Platform]

/-! ## Steps, group by group -/

/-- The groups once the one a change makes is there. -/
def made (m : Membership) : Change → Membership
  | .request _ _ _ _ newId => if m.localState ≠ .connected then m.found newId else m
  | .acked _ groupId _ _ => (m.ackGroup groupId).2
  | _ => m

/-- A property of groups that is kept when peers who are `ok` come and go, with these IDs. -/
structure Tends (ids : PeerRef → Bytes) (localPeer : PeerRef) (ok : PeerRef → Prop) (P : Group → Prop) : Prop where
  addToRings : ∀ {x : Group} {p : PeerRef}, ok p → P x → P (x.addToRings ids p)
  addPeer : ∀ {x : Group} {p : PeerRef}, ok p → P x → P (x.addPeer ids p)
  removePeer : ∀ {x : Group} {p : PeerRef}, ok p → p ≠ localPeer → P x → P (x.removePeer ids p).2
  update : ∀ {x : Group}, P x → P (x.updateNeighbours ids localPeer)

section

variable {m : Membership} {ids : PeerRef → Bytes} {ok : PeerRef → Prop} {P : Group → Prop} {g : GroupRef}
  (hP : Tends ids m.localPeer ok P)

include hP

theorem Tends.answer (hids : m.getId = ids) {p : PeerRef} (hp : ok p) (h : P (m.group g)) :
    P ((m.answer p).group g) := by
  cases hl : m.localGroup with
  | none =>
    simp only [Membership.answer, hl]
    exact h
  | some l =>
    rw [answer_group hl, hids]
    split
    · rename_i hg
      exact hP.update (hP.addPeer hp (hg ▸ h))
    · exact h

theorem Tends.check (hids : m.getId = ids) (hs : m.Sound) (hok : ∀ p, p < m.peerCount → ok p) (h : P (m.group g)) :
    P (m.check.group g) := by
  unfold Membership.check
  split
  · rename_i p hp
    obtain ⟨address, port, hm, -⟩ := pending_mem hp
    exact hP.answer hids (hok p (hs.newPeers address p port hm).1) h
  · exact h

theorem Tends.enterChannels (hids : m.getId = ids) (hs : m.Sound) {p : PeerRef} (hp : ok p) (h : P (m.group g)) :
    P ((m.enterChannels p).group g) := by
  cases hl : m.localGroup with
  | none =>
    simp only [Membership.enterChannels, hl]
    exact h
  | some l =>
    rw [enterChannels_eq hl, modGroups_eq _ hs.values_nodup]
    simp only [channel]
    split
    · split
      · rw [hids]
        exact hP.update (hP.addToRings hp h)
      · exact h
    · exact h

theorem Tends.remove (hids : m.getId = ids) (hs : m.Sound) {p : PeerRef} (hp : ok p) (hr : p ≠ m.localPeer)
    (h : P (m.group g)) : P ((m.remove p).group g) := by
  cases hc : m.peers.contains (m.getId p) with
  | false =>
    rw [Membership.remove, hc]
    exact h
  | true =>
    obtain ⟨l, hl⟩ := hs.localGroup_of_peers hc
    rw [remove_eq hs hl hc, hids]
    simp only
    split
    · exact hP.update (hP.removePeer hp hr h)
    · split
      · exact hP.removePeer hp hr h
      · exact h

end

/-- What the operations keep, a step keeps of every group there is, the new one included. -/
theorem Tends.apply {m : Membership} {ok : PeerRef → Prop} {P : Group → Prop} {c : Change} {g : GroupRef}
    (hs : m.Sound) (hc : m.Awaits c) (hP : Tends (m.apply c).getId m.localPeer ok P)
    (hok : ∀ p, p < (m.apply c).peerCount → ok p) (h : P ((m.made c).group g)) : P ((m.apply c).group g) := by
  have hold : ∀ p, p < m.peerCount → ok p := fun p hp => hok p (Nat.lt_of_lt_of_le hp (apply_peerCount hs hc))
  cases c with
  | idle => exact h
  | accept address => exact h
  | contact address => exact h
  | request p id pubK port newId =>
    have hg : (m.greet p id pubK newId).group g = (m.made (.request p id pubK port newId)).group g := by
      unfold greet made
      split <;> rfl
    have hids : (m.greet p id pubK newId).getId = (m.apply (.request p id pubK port newId)).getId := by
      simp only [Membership.apply]
      split
      · funext q
        rw [getId, getId, (answer_peer _ p).1]
      · rfl
    rw [← greet_localPeer m p id pubK newId] at hP
    rw [← hg] at h
    simp only [Membership.apply] at hids hP ⊢
    split
    · rename_i hj
      rw [if_pos hj] at hids hP
      exact hP.answer hids (hold p (hs.listening p hc).1) h
    · exact h
  | notified groupId peerId pubK address =>
    cases hg : m.groups.find? groupId with
    | none =>
      simp only [Membership.apply, hg]
      exact h
    | some g' =>
      simp only [Membership.apply, hg] at hok hP ⊢
      rw [acknowledge_group]
      split
      · rename_i hgg
        exact hP.update (hP.addPeer (hok m.peerCount (Nat.lt_succ_self _)) (hgg ▸ h))
      · exact h
  | unreached => exact h
  | channels peerId =>
    cases hp : m.peers.find? peerId with
    | none =>
      simp only [Membership.apply, hp]
      exact h
    | some p =>
      simp only [Membership.apply, hp] at hP ⊢
      have hids : m.getId = (m.enterChannels p).getId := by
        funext q
        rw [getId, getId, enterChannels_peer hs]
      exact hP.enterChannels hids hs (hold p (hs.peers peerId p hp).1) h
  | acked p groupId peerId pubK =>
    have hids : (m.ackGroup groupId).2.renamed p peerId = (m.apply (.acked p groupId peerId pubK)).getId :=
      (ackPeer_ids ..).symm
    rw [Membership.apply, ackPeer_group, hids]
    split
    · exact hP.addPeer (hold p (hs.listening p hc).1) h
    · exact h
  | ready =>
    have hids := (ready_entered m).ids
    rcases (ready_entered m).group g with hg | hg
    · rw [hg]
      exact h
    · rw [hg, ← hids]
      exact hP.update (hP.addToRings (hold _ hs.localPeer) h)
  | completed p =>
    have hn := hs.setState (hs.listening p hc) .connected
    refine Tends.check (m := m.setState p .connected) hP ?_ hn hold h
    funext q
    rw [Membership.apply, getId, getId, (check_peer _).1]
  | expired id =>
    cases ht : m.joinTimers.find? id with
    | none =>
      simp only [Membership.apply, ht]
      exact h
    | some t =>
      simp only [Membership.apply, ht] at hP ⊢
      have hp := hs.joinTimers id t ht
      let n := { m with joinTimers := m.joinTimers.insert id { t with armed := false } }.setState t.peer .connected
      have hn : n.Sound := (hs.insertJoinTimer (t := { t with armed := false }) hp id).setState hp .connected
      refine Tends.check (m := { n with joinTimers := n.joinTimers.erase (n.getId t.peer) }) hP ?_
        (hn.eraseJoinTimer _) hold h
      funext q
      exact congrArg Peer.id (congrFun (check_peer _).1 q).symm
  | readySent id =>
    simp only [Membership.apply]
    split <;> exact h
  | closed p =>
    have hn := hs.stopListening (hs.listening p hc)
    have hids : (m.stopListening p).getId = (m.apply (.closed p)).getId := by
      rw [Membership.apply, (reset_peers _).2, remove_frame hn p]
      rfl
    rw [Membership.apply, reset_group]
    have hr := hs.listening p hc
    exact Tends.remove (m := m.stopListening p) hP hids hn (hold p hr.1) hr.2 h
  | failed p => exact h

/-! ## Peers and groups after a step -/

/-- A peer filed after a step was filed before, or is filed under the ID he has now. -/
theorem apply_peers {m : Membership} (hs : m.Sound) {c : Change} (hc : m.Awaits c) {id : Bytes} {p : PeerRef}
    (h : (m.apply c).peers.find? id = some p) : m.peers.find? id = some p ∨ (m.apply c).getId p = id := by
  have put : ∀ {n : Membership} {q : PeerRef}, (n.peers.insert (n.getId q) q).find? id = some p →
      n.peers.find? id = some p ∨ n.getId p = id := by
    intro n q h
    rcases OrdMap.find_insert_some h with ⟨hid, rfl⟩ | hold
    · exact Or.inr hid.symm
    · exact Or.inl hold
  have answered : ∀ {n : Membership} {q : PeerRef}, (n.answer q).peers.find? id = some p →
      n.peers.find? id = some p ∨ (n.answer q).getId p = id := by
    intro n q h
    have hids : (n.answer q).getId p = n.getId p := by rw [getId, (answer_peer n q).1, getId]
    rw [hids]
    cases hl : n.localGroup with
    | none =>
      simp only [answer, hl] at h
      exact Or.inl h
    | some l =>
      rw [answer_eq hl] at h
      exact put h
  have checked : ∀ {n : Membership}, n.check.peers.find? id = some p →
      n.peers.find? id = some p ∨ n.check.getId p = id := by
    intro n h
    unfold check at h ⊢
    split at h
    · exact answered h
    · exact Or.inl h
  cases c with
  | idle => exact Or.inl h
  | accept address => exact Or.inl h
  | contact address => exact Or.inl h
  | request q pid pubK port newId =>
    have hg : (m.greet q pid pubK newId).peers = m.peers := by
      unfold greet
      split <;> rfl
    simp only [Membership.apply] at h ⊢
    rw [← hg]
    by_cases hj : (m.greet q pid pubK newId).joinToken = true
    · rw [if_pos hj] at h ⊢
      exact answered h
    · rw [if_neg hj] at h
      exact Or.inl h
  | notified groupId peerId pubK address =>
    simp only [Membership.apply] at h ⊢
    split at h
    · exact Or.inl h
    · let n := ({ m with joinToken := false }.newPeer address).enrol m.peerCount peerId pubK
      have h : (n.peers.insert (n.getId m.peerCount) m.peerCount).find? id = some p := h
      exact put h
  | unreached => exact Or.inl h
  | channels peerId =>
    refine Or.inl (?_ : m.peers.find? id = some p)
    simp only [Membership.apply] at h
    split at h
    · exact h
    · cases hl : m.localGroup with
      | none =>
        simp only [enterChannels, hl] at h
        exact h
      | some l =>
        rw [enterChannels_eq hl, modGroups_eq _ hs.values_nodup] at h
        exact h
  | acked q groupId peerId pubK =>
    rw [← (ackGroup_rest m groupId).1]
    have h : ((m.ackGroup groupId).2.peers.insert peerId q).find? id = some p := h
    rcases OrdMap.find_insert_some h with ⟨hid, rfl⟩ | hold
    · right
      rw [hid, Membership.apply, ackPeer_ids]
      exact Function.update_self ..
    · exact Or.inl hold
  | ready =>
    rw [(ready_entered m).rest] at h
    exact Or.inl h
  | completed q => exact checked h
  | expired i =>
    simp only [Membership.apply] at h ⊢
    split at h
    · exact Or.inl h
    · exact checked h
  | readySent i =>
    simp only [Membership.apply] at h
    split at h <;> exact Or.inl h
  | closed q =>
    have hr : ∀ n : Membership, n.reset.peers = n.peers := fun n => by rw [reset_frame]
    rw [Membership.apply, hr, remove_peers (hs.stopListening (hs.listening q hc))] at h
    exact Or.inl (OrdMap.find_erase_some h).2
  | failed q => exact Or.inl h

/-- The only group that is new is the one just made. -/
theorem apply_held {m : Membership} (hs : m.Sound) {c : Change} (hc : m.Awaits c) {g : GroupRef}
    (h : g ∈ (m.apply c).held) : g ∈ m.held ∨ g = m.groupCount ∧
      ((∃ p id pubK port newId, c = .request p id pubK port newId ∧ m.localState ≠ .connected) ∨
        ∃ p groupId peerId pubK, c = .acked p groupId peerId pubK ∧ m.groups.find? groupId = none) := by
  have filed : ∀ {id : Bytes}, g ∈ (m.groups.insertNew id m.groupCount).values → g = m.groupCount ∨ g ∈ m.held :=
    fun hg => (OrdMap.mem_values_insertNew hg).imp_right fun hg => List.mem_append_right _ hg
  have hre := apply_regroups hs hc
  rw [held, List.mem_append] at h
  generalize (m.apply c).localGroup = l at h hre
  generalize (m.apply c).groups = gs at h hre
  cases hre with
  | same => exact Or.inl (List.mem_append.mpr h)
  | founded p id pubK port newId hn =>
    have hnew : ∃ q i k r n, Change.request p id pubK port newId = .request q i k r n ∧ m.localState ≠ .connected :=
      ⟨p, id, pubK, port, newId, rfl, hn⟩
    rcases h with h | h
    · exact Or.inr ⟨List.mem_singleton.mp h, Or.inl hnew⟩
    · exact (filed h).elim (fun hg => Or.inr ⟨hg, Or.inl hnew⟩) Or.inl
  | joined p groupId peerId pubK hl hg =>
    have hnew : ∃ q i k n, Change.acked p groupId peerId pubK = .acked q i k n ∧ m.groups.find? i = none :=
      ⟨p, groupId, peerId, pubK, rfl, hg⟩
    rcases h with h | h
    · exact Or.inr ⟨List.mem_singleton.mp h, Or.inr hnew⟩
    · exact (filed h).elim (fun hg => Or.inr ⟨hg, Or.inr hnew⟩) Or.inl
  | entered p groupId peerId pubK hl hg =>
    have hnew : ∃ q i k n, Change.acked p groupId peerId pubK = .acked q i k n ∧ m.groups.find? i = none :=
      ⟨p, groupId, peerId, pubK, rfl, hg⟩
    rcases h with h | h
    · exact Or.inl (List.mem_append_left _ h)
    · exact (filed h).elim (fun hg => Or.inr ⟨hg, Or.inr hnew⟩) Or.inl
  | cleared p hp hn =>
    rcases h with h | h
    · cases h
    · cases h

omit [Platform] in
theorem Sound.held_lt {m : Membership} (hs : m.Sound) {g : GroupRef} (h : g ∈ m.held) : g < m.groupCount := by
  rcases List.mem_append.mp h with h | h
  · exact hs.localGroup g (Option.mem_toList.mp h)
  · obtain ⟨id, hid⟩ := OrdMap.mem_values.mp h
    exact (hs.groups id g hid).1

/-- The groups there are do not change when one is made. -/
theorem made_old {m : Membership} {g : GroupRef} (hg : g < m.groupCount) (c : Change) :
    (m.made c).group g = m.group g := by
  cases c with
  | request p id pubK port newId =>
    simp only [made]
    split
    · rw [found_group, if_neg (Nat.ne_of_lt hg)]
    · rfl
  | acked p groupId peerId pubK => exact ackGroup_old hg groupId
  | _ => rfl

/-! ## Keys and IDs -/

/-- The peer is in `peers`, or in one of our groups or its rings. -/
def Stored (m : Membership) (p : PeerRef) : Prop := p ∈ m.peers.values ∨ ∃ g ∈ m.held, (m.group g).Mentions p

/-- Who is filed does not tell us another ID. -/
def Honest (m : Membership) : Change → Prop
  | .request p id _ _ _ => id = m.getId p ∨ ¬ m.Stored p
  | .acked p _ peerId _ => peerId = m.getId p ∨ ¬ m.Stored p
  | _ => True

instance (g : Group) (p : PeerRef) : Decidable (g.Mentions p) :=
  inferInstanceAs (Decidable (_ ∨ ∃ r ∈ g.rings, _))

instance (m : Membership) (p : PeerRef) : Decidable (m.Stored p) :=
  inferInstanceAs (Decidable (_ ∨ ∃ g ∈ m.held, _))

instance (m : Membership) : (c : Change) → Decidable (m.Honest c)
  | .request .. | .acked .. => inferInstanceAs (Decidable (_ ∨ ¬ m.Stored _))
  | .idle | .accept _ | .contact _ | .notified .. | .unreached | .channels _ | .ready | .completed _ | .expired _ |
    .readySent _ | .closed _ | .failed _ => inferInstanceAs (Decidable True)

/-- Every peer is filed under the ID he has now. -/
structure KeysMatch (m : Membership) : Prop where
  peers : ∀ id p, m.peers.find? id = some p → m.getId p = id
  groups : ∀ g ∈ m.held, ∀ p, (m.group g).Filed m.getId p

/-- A ring that holds every peer under the key of this ID. -/
theorem addPeer_filed {ids ids' : PeerRef → Bytes} {r : Ring} {p : PeerRef} (hp : ids p = ids' p)
    (h : ∀ e ∈ r.ring.entries, e.1 = r.createKey (ids' e.2)) :
    ∀ e ∈ (r.addPeer ids p).ring.entries, e.1 = r.createKey (ids' e.2) := by
  rintro ⟨k, q⟩ he
  have hf : (r.ring.insert (r.createKey (ids p)) p).find? k = some q := OrdMap.mem_entries.mp he
  rcases OrdMap.find_insert_some hf with ⟨hk, rfl⟩ | hold
  · rw [hk, hp]
  · exact h (k, q) (OrdMap.mem_entries.mpr hold)

theorem filed_tends (ids : PeerRef → Bytes) (localPeer : PeerRef) :
    Tends ids localPeer (fun _ => True) fun x => ∀ q, x.Filed ids q := by
  have add : ∀ {x : Group} {p : PeerRef}, (∀ q, x.Filed ids q) → ∀ q, ∀ r ∈ (x.addToRings ids p).rings,
      ∀ e ∈ r.ring.entries, e.2 = q → e.1 = r.createKey (ids q) := by
    intro x p h q r hr
    obtain ⟨r', hr', rfl⟩ := List.mem_map.mp hr
    rintro e he rfl
    exact addPeer_filed rfl (fun e he => (h e.2).2 r' hr' e he rfl) e he
  refine ⟨fun _ h q => ⟨(h q).1, add h q⟩, fun {x p} _ h q => ⟨?_, add h q⟩, fun _ _ h q => ⟨?_, ?_⟩, fun h q => ?_⟩
  · rintro e he rfl
    exact Group.keyed_insertNew (fun e he => (h e.2).1 e he rfl) p e he
  · exact fun e he => (h q).1 e (OrdMap.mem_erase.mp he).1
  · intro r hr e he
    obtain ⟨r', hr', rfl⟩ := List.mem_map.mp hr
    exact (h q).2 r' hr' e (OrdMap.mem_erase.mp he).1
  · rw [Group.Filed, Group.updateNeighbours_peers, Group.updateNeighbours_rings]
    exact h q

/-- IDs of others do not matter. -/
theorem filed_congr {ids ids' : PeerRef → Bytes} {x : Group} (hi : ∀ q, x.Mentions q → ids' q = ids q)
    (h : ∀ q, x.Filed ids q) (q : PeerRef) : x.Filed ids' q := by
  refine ⟨fun e he heq => ?_, fun r hr e he heq => ?_⟩
  · rw [hi q (Or.inl (heq ▸ List.mem_map_of_mem he))]
    exact (h q).1 e he heq
  · rw [hi q (Or.inr ⟨r, hr, heq ▸ List.mem_map_of_mem he⟩)]
    exact (h q).2 r hr e he heq

/-- A name that is honest changes nothing for those who are filed. -/
theorem Honest.same {m : Membership} {c : Change} (h : m.Honest c) (hs : m.Sound) (hp : m.Placed)
    (hc : m.Awaits c) {q : PeerRef} (hq : m.Stored q) : (m.apply c).getId q = m.getId q := by
  have hlt : q < m.peerCount := by
    rcases hq with hq | ⟨g, -, hq⟩
    · obtain ⟨id, hid⟩ := OrdMap.mem_values.mp hq
      exact (hs.peers id q hid).1
    · exact hp g q hq
  rcases apply_ids hs hc hlt with hi | hn
  · exact hi
  · generalize (m.apply c).getId q = id at hn
    cases hn with
    | request pubK port newId => exact h.resolve_right fun hn => hn hq
    | acked groupId pubK => exact h.resolve_right fun hn => hn hq

theorem new_filed (ids : PeerRef → Bytes) (id : Bytes) (q : PeerRef) : (Group.new id).Filed ids q := by
  refine ⟨fun e he => absurd he List.not_mem_nil, fun r hr e he => ?_⟩
  obtain ⟨i, -, rfl⟩ := List.mem_map.mp hr
  cases he

theorem addGroup_filed {ids ids' : PeerRef → Bytes} {x other : Group} (hi : ∀ q ∈ other.peers.values, ids q = ids' q)
    (h : ∀ q, x.Filed ids' q) (q : PeerRef) : (x.addGroupToRings ids other).Filed ids' q := by
  have run : ∀ (l : List PeerRef) (r : Ring), (∀ q ∈ l, ids q = ids' q) →
      (∀ e ∈ r.ring.entries, e.1 = r.createKey (ids' e.2)) →
      ∀ e ∈ (l.foldl (fun r p => r.addPeer ids p) r).ring.entries,
        e.1 = (l.foldl (fun r p => r.addPeer ids p) r).createKey (ids' e.2) := by
    intro l
    induction l with
    | nil => exact fun r _ h => h
    | cons p l ih =>
      exact fun r hl h => ih (r.addPeer ids p) (fun q hq => hl q (List.mem_cons_of_mem p hq))
        (addPeer_filed (hl p List.mem_cons_self) h)
  refine ⟨(h q).1, fun r hr => ?_⟩
  obtain ⟨r', hr', rfl⟩ := List.mem_map.mp hr
  rintro e he rfl
  exact run _ r' hi (fun e he => (h e.2).2 r' hr' e he rfl) e he

/-- The group just made holds the local peer, or the members of our own group. -/
theorem made_filed {m : Membership} {c : Change} (ha : m.Honest c) (hs : m.Sound) (hp : m.Placed)
    (hc : m.Awaits c) (hnew : (∃ p id pubK port newId, c = .request p id pubK port newId ∧ m.localState ≠ .connected) ∨
      ∃ p groupId peerId pubK, c = .acked p groupId peerId pubK ∧ m.groups.find? groupId = none) (q : PeerRef) :
    ((m.made c).group m.groupCount).Filed (m.apply c).getId q := by
  rcases hnew with ⟨p, id, pubK, port, newId, rfl, hn⟩ | ⟨p, groupId, peerId, pubK, rfl, hg⟩
  · have hown := apply_author hs hc
    rw [apply_localPeer hs hc] at hown
    have hgroup : (m.made (.request p id pubK port newId)).group m.groupCount =
        (Group.new newId).addToRings (m.apply (.request p id pubK port newId)).getId m.localPeer := by
      simp only [made, if_pos hn]
      rw [found_group, if_pos rfl]
      simp only [Group.addToRings, Ring.addPeer, hown]
    rw [hgroup]
    exact (filed_tends _ m.localPeer).addToRings trivial (new_filed _ newId) q
  · cases hl : m.localGroup with
    | none =>
      have hgroup : (m.made (.acked p groupId peerId pubK)).group m.groupCount = Group.new groupId := by
        simp only [made, ackGroup, hg, hl]
        exact createGroup_self m groupId
      rw [hgroup]
      exact new_filed _ groupId q
    | some l =>
      have hheld : l ∈ m.held := List.mem_append_left _ (Option.mem_toList.mpr hl)
      have hgroup : (m.made (.acked p groupId peerId pubK)).group m.groupCount =
          (Group.new groupId).addGroupToRings m.getId (m.group l) := by
        simp only [made, ackGroup, hg, hl]
        rw [modGroup_self, createGroup_self, createGroup_of_ne (Nat.ne_of_lt (hs.held_lt hheld))]
      rw [hgroup]
      exact addGroup_filed (fun q hq => (ha.same hs hp hc (Or.inr ⟨l, hheld, Or.inl hq⟩)).symm) (new_filed _ groupId) q

/-- A step in which nobody who is filed tells us another ID keeps all keys right. -/
theorem KeysMatch.apply {m : Membership} {c : Change} (h : m.KeysMatch) (ha : m.Honest c) (hs : m.Sound) (hp : m.Placed)
    (hc : m.Awaits c) : (m.apply c).KeysMatch := by
  refine ⟨fun id p hf => ?_, fun g hg => ?_⟩
  · rcases apply_peers hs hc hf with hf | hid
    · rw [ha.same hs hp hc (Or.inl (OrdMap.mem_values.mpr ⟨id, hf⟩))]
      exact h.peers id p hf
    · exact hid
  · have hmade : ∀ q, ((m.made c).group g).Filed (m.apply c).getId q := by
      rcases apply_held hs hc hg with hg | ⟨rfl, hnew⟩
      · rw [made_old (hs.held_lt hg)]
        exact filed_congr (fun q hq => ha.same hs hp hc (Or.inr ⟨g, hg, hq⟩)) (h.groups g hg)
      · exact made_filed ha hs hp hc hnew
    exact (filed_tends _ m.localPeer).apply hs hc (fun _ _ => trivial) hmade

end Membership

namespace Network

variable [Platform]

/-- In a run where nobody who is filed tells us another ID, every peer is filed under the ID
    he has: he is found by it, and leaves no trace in a group he is removed from. -/
theorem keys_match {s : Network} (hs : Reach (fun s e => s.Honest (s.change e)) s) : s.KeysMatch ∧
    (∀ p ∈ s.peers.values, s.peers.find? (s.getId p) = some p) ∧
      ∀ g ∈ s.held, ∀ p, ((s.group g).leave s.getId s.localPeer p).Gone p := by
  have h : s.KeysMatch := by
    refine hs.membership (fun id pubK port clock => ⟨fun id p hp => ?_, fun g hg => ?_⟩)
      fun s e hr h he ha => h.apply ha hr.sound hr.placed (change_awaits he)
    · cases hp
    · cases hg
  refine ⟨h, fun p hp => ?_, fun g hg p => Group.gone_iff.mpr (h.groups g hg p)⟩
  obtain ⟨id, hid⟩ := OrdMap.mem_values.mp hp
  rw [h.peers id p hid]
  exact hid

omit [Platform] in
/-- Two peers join, one after the other. -/
theorem keys_match_two : ∃ s, @Reach sha1 (fun s e => @Membership.Honest s.toMembership (@change sha1 s e)) s ∧
    s.peers.size = 2 ∧ s.groups.size = 1 ∧ @Membership.KeysMatch sha1 s.toMembership := by
  have hrun : @leadsTo sha1 (fun s e => @Membership.Honest s.toMembership (@change sha1 s e)) _ node
      [.accept [9], .read 1 (request 65) none, .read 1 (msg 1 .readyNotif) none, .accept [8], .read 2 (request 66) none]
      (fun s => decide (s.peers.size = 2 ∧ s.groups.size = 1)) = true := by
    decide +kernel
  obtain ⟨s, hs, ht⟩ := @reach_of_leadsTo sha1 _ _ _ _ _ _ _ _ hrun
  obtain ⟨hp, hg⟩ := of_decide_eq_true ht
  exact ⟨s, hs, hp, hg, (@keys_match sha1 s hs).1⟩

omit [Platform] in
/-- A peer that has joined asks again, under another ID. -/
theorem key_outdated : ¬ ∀ s, @Reachable sha1 s → @Membership.KeysMatch sha1 s.toMembership := by
  intro hall
  have hrun : @leadsTo sha1 (fun _ _ => True) _ node
      [.accept [9], .read 1 (request 65) none, .read 1 (request 66) none]
      (fun s => decide (s.peers.find? (idOf 65) = some 1 ∧ s.getId 1 = idOf 66)) = true := by
    decide +kernel
  obtain ⟨s, hs, ht⟩ := @reach_of_leadsTo sha1 _ _ _ _ _ _ _ _ hrun
  obtain ⟨hf, hid⟩ := of_decide_eq_true ht
  have h := @Membership.KeysMatch.peers sha1 _ (hall s hs) _ _ hf
  rw [hid] at h
  exact absurd h (by decide)

end Network

end RacKun
