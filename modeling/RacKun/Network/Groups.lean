/-
  RacKun.Network.Groups — what a step does to each group.

  A change that goes through all groups does the same thing to each of them, once
  (`modGroups_eq`), and nothing else: that is the shape of the loops of READY, of the
  JOIN Notification for channels and of the disconnection.
-/

import RacKun.Network.Soundness

namespace RacKun

open Lib (OrdMap)

namespace Membership

/-- The groups of the list, one after the other. -/
def modGroups (m : Membership) (gs : List GroupRef) (f : Group → Group) : Membership :=
  gs.foldl (fun m g => m.modGroup g f) m

theorem modGroups_eq {gs : List GroupRef} (f : Group → Group) (hn : gs.Nodup) : ∀ m : Membership,
    m.modGroups gs f = { m with group := fun g => if g ∈ gs then f (m.group g) else m.group g } := by
  induction gs with
  | nil => intro m; rfl
  | cons g gs ih =>
    intro m
    obtain ⟨hg, hn⟩ := List.nodup_cons.mp hn
    rw [modGroups, List.foldl_cons, ← modGroups, ih hn, modGroup]
    congr 1
    funext g'
    by_cases h : g' = g
    · subst h
      simp [hg]
    · simp [h]

/-- A group is filed once. -/
theorem Sound.values_nodup {m : Membership} (h : m.Sound) : m.groups.values.Nodup := by
  have hk : m.groups.values.map (fun g => (m.group g).id) = m.groups.keys := by
    rw [OrdMap.values, OrdMap.keys, List.map_map]
    refine List.map_congr_left fun e he => ?_
    exact (h.groups e.1 e.2 (OrdMap.mem_entries.mp he)).2
  exact List.Nodup.of_map _ (hk ▸ m.groups.keys_nodup)

theorem modGroup_modGroup (m : Membership) (g : GroupRef) (f f' : Group → Group) :
    (m.modGroup g f).modGroup g f' = m.modGroup g fun x => f' (f x) := by
  simp only [modGroup, Function.update_self, Function.update_idem]

variable [Platform]

theorem takeIn_eq (m : Membership) (p : PeerRef) (g : GroupRef) : m.takeIn p g =
    { m with peers := m.peers.insert (m.getId p) p }.modGroup g (Group.takeIn m.getId m.localPeer p) :=
  modGroup_modGroup { m with peers := m.peers.insert (m.getId p) p } g (·.addPeer m.getId p)
    (·.updateNeighbours m.getId m.localPeer)

theorem drop_eq (m : Membership) (p : PeerRef) (g : GroupRef) :
    m.drop p g = m.modGroup g (Group.leave m.getId m.localPeer p) :=
  modGroup_modGroup m g (fun x => (x.removePeer m.getId p).2) (·.updateNeighbours m.getId m.localPeer)

theorem drops_eq (p : PeerRef) : ∀ (gs : List GroupRef) (m : Membership),
    gs.foldl (fun m g => m.drop p g) m = m.modGroups gs (Group.leave m.getId m.localPeer p) := by
  intro gs
  induction gs with
  | nil => intro m; rfl
  | cons g gs ih =>
    intro m
    rw [List.foldl_cons, ih, drop_eq]
    rfl

theorem enter_eq (m : Membership) (p : PeerRef) (g : GroupRef) : (m.addToRings g p).updateNeighbours g =
    m.modGroup g (Group.enter m.getId m.localPeer p) := modGroup_modGroup ..

/-- What the notification for channels does to a group. -/
def channel (m : Membership) (l : GroupRef) (p : PeerRef) (x : Group) : Group :=
  if x.id ≠ (m.group l).id then x.enter m.getId m.localPeer p else x

theorem enterChannels_eq {m : Membership} {l : GroupRef} (hl : m.localGroup = some l) (p : PeerRef) :
    m.enterChannels p = m.modGroups m.groups.values (m.channel l p) := by
  have ids : ∀ (n : Membership) g g', ((n.modGroup g (m.channel l p)).group g').id = (n.group g').id := by
    intro n g g'
    by_cases h : g' = g
    · subst h
      rw [modGroup_self, channel]
      split
      · exact Group.updateNeighbours_id _ _
      · rfl
    · rw [modGroup_of_ne h]
  have run : ∀ (gs : List GroupRef) (n : Membership), n.getId = m.getId → n.localPeer = m.localPeer →
      (n.group l).id = (m.group l).id → gs.foldl (fun n g =>
        if (n.group g).id ≠ (n.group l).id then (n.addToRings g p).updateNeighbours g else n) n =
      n.modGroups gs (m.channel l p) := by
    intro gs
    induction gs with
    | nil => intro n _ _ _; rfl
    | cons g gs ih =>
      intro n h₁ h₂ h₃
      have step : (if (n.group g).id ≠ (n.group l).id then (n.addToRings g p).updateNeighbours g else n) =
          n.modGroup g (m.channel l p) := by
        rw [enter_eq, h₁, h₂, h₃, modGroup, modGroup]
        split
        · rename_i hne
          rw [channel, if_pos hne]
        · rename_i heq
          rw [channel, if_neg heq, Function.update_eq_self]
      rw [List.foldl_cons, step]
      exact ih (n.modGroup g (m.channel l p)) h₁ h₂ ((ids n g l).trans h₃)
  rw [enterChannels, hl]
  exact run _ m rfl rfl rfl

/-- What READY does: the local peer gets connected and enters some groups. -/
structure Entered (m n : Membership) : Prop where
  rest : n = { m with peer := n.peer, group := n.group }
  peer : ∀ q, q ≠ m.localPeer → n.peer q = m.peer q
  ids : n.getId = m.getId
  group : ∀ g, n.group g = m.group g ∨ n.group g = (m.group g).enter m.getId m.localPeer m.localPeer

theorem Entered.refl (m : Membership) : m.Entered m := ⟨rfl, fun _ _ => rfl, rfl, fun _ => Or.inl rfl⟩

theorem Entered.enter {m n : Membership} (h : m.Entered n) (g : GroupRef) :
    m.Entered ((n.addToRings g m.localPeer).updateNeighbours g) := by
  have hl : n.localPeer = m.localPeer := by rw [h.rest]
  rw [enter_eq, h.ids, hl]
  refine ⟨?_, h.peer, h.ids, fun g' => ?_⟩
  · rw [modGroup]
    exact h.rest ▸ rfl
  · by_cases hg : g' = g
    · subst hg
      rw [modGroup_self]
      right
      rcases h.group g' with hg' | hg'
      · rw [hg']
      · rw [hg', Group.enter_twice]
    · rw [modGroup_of_ne hg]
      exact h.group g'

omit [Platform] in
/-- Only `init` changes an ID. -/
theorem modPeer_getId (m : Membership) (p : PeerRef) {f : Peer → Peer} (hf : (f (m.peer p)).id = (m.peer p).id) :
    (m.modPeer p f).getId = m.getId := by
  funext q
  by_cases h : q = p
  · subst h
    rw [getId, modPeer_self, hf, getId]
  · rw [getId, modPeer_of_ne h, getId]

omit [Platform] in
theorem modPeer_state (m : Membership) (p q : PeerRef) {f : Peer → Peer}
    (hf : (f (m.peer p)).state = (m.peer p).state) : ((m.modPeer p f).peer q).state = (m.peer q).state := by
  by_cases h : q = p
  · subst h
    rw [modPeer_self, hf]
  · rw [modPeer_of_ne h]

omit [Platform] in
theorem stopListening_state (m : Membership) (p q : PeerRef) :
    ((m.stopListening p).peer q).state = (m.peer q).state := m.modPeer_state p q rfl

omit [Platform] in
theorem setState_getId (m : Membership) (p : PeerRef) (st : PeerState) : (m.setState p st).getId = m.getId :=
  m.modPeer_getId p rfl

omit [Platform] in
theorem addNewPeer_getId (m : Membership) (p : PeerRef) : (m.addNewPeer p).getId = m.getId :=
  modPeer_getId _ p (f := fun x => { x with listening := true }) rfl

omit [Platform] in
theorem stopListening_getId (m : Membership) (p : PeerRef) : (m.stopListening p).getId = m.getId :=
  m.modPeer_getId p rfl

omit [Platform] in
theorem newPeer_getId {m : Membership} {q : PeerRef} (hq : q < m.peerCount) (address : Bytes) :
    (m.newPeer address).getId q = m.getId q := congrArg Peer.id (newPeer_of_ne (Nat.ne_of_lt hq) address)

omit [Platform] in
theorem enrol_of_ne {m : Membership} {p q : PeerRef} (h : q ≠ p) (peerId pubK : Bytes) :
    (m.enrol p peerId pubK).peer q = m.peer q := by
  rw [enrol, startListening, modPeer_of_ne h, setState, modPeer_of_ne h, initPeer, modPeer_of_ne h]

theorem Entered.setLocalState {m n : Membership} (h : m.Entered n) (st : PeerState) :
    m.Entered (n.setState m.localPeer st) := by
  refine ⟨?_, fun q hq => ?_, (setState_getId n m.localPeer st).trans h.ids, h.group⟩
  · rw [setState, modPeer]
    exact h.rest ▸ rfl
  · rw [setState, modPeer_of_ne hq]
    exact h.peer q hq

theorem ready_entered (m : Membership) : m.Entered (m.apply .ready) := by
  refine List.foldlRecOn m.groups.values readyOne (Entered.refl m) fun n hn g _ => ?_
  have hl : n.localPeer = m.localPeer := by rw [hn.rest]
  unfold readyOne
  split
  · exact hn
  · rename_i l _
    unfold enterRings
    rw [hl]
    split
    · exact hn.enter g
    · split
      · exact (hn.setLocalState .connected).enter l
      · exact hn

/-- The groups updated when the peer disconnects: all, if he is a member of ours, or the
    first. -/
def leaves (m : Membership) (l : GroupRef) (p : PeerRef) (g : GroupRef) : Prop :=
  if (m.group l).peers.contains (m.getId p) then g ∈ m.groups.values else m.groups.values.head? = some g

instance (m : Membership) (l : GroupRef) (p : PeerRef) (g : GroupRef) : Decidable (m.leaves l p g) := by
  unfold leaves
  infer_instance

omit [Platform] in
theorem leaves_stopListening {m : Membership} {l g : GroupRef} {p : PeerRef} :
    (m.stopListening p).leaves l p g ↔ m.leaves l p g := by
  simp only [leaves, stopListening_getId]
  rfl

theorem remove_eq {m : Membership} (hs : m.Sound) {l : GroupRef} (hl : m.localGroup = some l) {p : PeerRef}
    (hp : m.peers.contains (m.getId p) = true) : m.remove p =
      { m with
        peers := m.peers.erase (m.getId p)
        group := fun g => if m.leaves l p g then (m.group g).leave m.getId m.localPeer p
          else if g = l then ((m.group g).removePeer m.getId p).2 else m.group g } := by
  -- `m₁` is the membership once the peer has been removed from the local group
  let m₁ := ({ m with peers := m.peers.erase (m.getId p) }.removePeer l p).2
  have hm₁ : ∀ g, m₁.group g = if g = l then ((m.group g).removePeer m.getId p).2 else m.group g := by
    intro g
    split
    · rename_i h
      subst h
      exact modGroup_self m g fun x => (x.removePeer m.getId p).2
    · rename_i h
      exact modGroup_of_ne (m := m) h fun x => (x.removePeer m.getId p).2
  have hleave : ∀ g, (m₁.group g).leave m.getId m.localPeer p = (m.group g).leave m.getId m.localPeer p := by
    intro g
    rw [hm₁]
    split
    · exact Group.leave_removePeer ..
    · rfl
  have hr : m.remove p = { m with peers := m.peers.erase (m.getId p) }.leaveGroups l p := by
    rw [remove, if_pos hp]
    split
    · rename_i hn
      cases hl.symm.trans hn
    · rename_i l' hl'
      cases hl.symm.trans hl'
      rfl
  have done : ∀ (P : GroupRef → Prop) [DecidablePred P], (∀ g, P g ↔ m.leaves l p g) →
      { m₁ with group := fun g => if P g then (m₁.group g).leave m.getId m.localPeer p else m₁.group g } =
        ({ m with
          peers := m.peers.erase (m.getId p)
          group := fun g => if m.leaves l p g then (m.group g).leave m.getId m.localPeer p
            else if g = l then ((m.group g).removePeer m.getId p).2 else m.group g } : Membership) := by
    intro P _ hP
    have : (fun g => if P g then (m₁.group g).leave m.getId m.localPeer p else m₁.group g) = fun g =>
        if m.leaves l p g then (m.group g).leave m.getId m.localPeer p
        else if g = l then ((m.group g).removePeer m.getId p).2 else m.group g := by
      funext g
      simp only [hP, hleave]
      simp only [hm₁]
    rw [this]
    rfl
  rw [hr, leaveGroups]
  cases hc : (m.group l).peers.contains (m.getId p) with
  | true =>
    have hv : m₁.groups.values.Nodup := hs.values_nodup
    refine (if_pos hc).trans ?_
    show m₁.groups.values.foldl (fun m g => m.drop p g) m₁ = _
    rw [drops_eq, modGroups_eq _ hv]
    exact done (· ∈ m.groups.values) fun g => by rw [leaves, if_pos hc]
  | false =>
    have hc : ¬ (m.group l).peers.contains (m.getId p) = true := by simp [hc]
    refine (if_neg hc).trans ?_
    cases he : m.groups.entries.head? with
    | none =>
      have he₁ : m₁.groups.entries.head? = none := he
      simp only [m₁] at he₁
      simp only [he₁]
      refine Eq.trans ?_ (done (fun _ => False) fun g => ?_)
      · simp only [if_false, m₁]
      · rw [leaves, if_neg hc, OrdMap.values, List.head?_map, he]
        simp
    | some e =>
      have he₁ : m₁.groups.entries.head? = some e := he
      simp only [m₁] at he₁
      simp only [he₁]
      show m₁.drop p e.2 = _
      rw [drop_eq, modGroup]
      refine Eq.trans ?_ (done (· = e.2) fun g => ?_)
      · congr 1
        funext g
        by_cases h : g = e.2
        · subst h
          simp only [Function.update_self, if_true]
          rfl
        · simp only [Function.update_of_ne h, if_neg h]
      · rw [leaves, if_neg hc, OrdMap.values, List.head?_map, he]
        exact ⟨fun h => by rw [h]; rfl, fun h => by cases h; rfl⟩

omit [Platform] in
/-- The reset is about the local peer and the table of groups. -/
theorem reset_frame (m : Membership) : m.reset =
    { m with peer := m.reset.peer, groups := m.reset.groups, localGroup := m.reset.localGroup } := by
  unfold reset
  split <;> rfl

/-- A disconnection changes two maps and the groups. -/
theorem remove_frame {m : Membership} (hs : m.Sound) (p : PeerRef) : m.remove p =
    { m with
      peers := (m.remove p).peers
      newPeers := (m.remove p).newPeers
      group := (m.remove p).group } := by
  cases hp : m.peers.contains (m.getId p) with
  | false => rw [remove, hp]; rfl
  | true =>
    obtain ⟨l, hl⟩ := hs.localGroup_of_peers hp
    rw [remove_eq hs hl hp]

theorem remove_peers {m : Membership} (hs : m.Sound) (p : PeerRef) :
    (m.remove p).peers = m.peers.erase (m.getId p) := by
  cases hp : m.peers.contains (m.getId p) with
  | false =>
    rw [remove, hp, OrdMap.erase_absent (OrdMap.not_contains_iff.mp hp)]
    rfl
  | true =>
    obtain ⟨l, hl⟩ := hs.localGroup_of_peers hp
    rw [remove_eq hs hl hp]

theorem remove_newPeers {m : Membership} (hs : m.Sound) (p : PeerRef) : (m.remove p).newPeers =
    if m.peers.contains (m.getId p) then m.newPeers else m.newPeers.erase (m.peer p).address := by
  cases hp : m.peers.contains (m.getId p) with
  | false => rw [remove, hp]; rfl
  | true =>
    obtain ⟨l, hl⟩ := hs.localGroup_of_peers hp
    rw [remove_eq hs hl hp]
    rfl

/-- A disconnection leaves the token, the timers and the other peers alone. -/
theorem remove_rest {m : Membership} (hs : m.Sound) (p : PeerRef) : (m.remove p).joinToken = m.joinToken ∧
    (m.remove p).joinTimers = m.joinTimers ∧ (m.remove p).peer = m.peer ∧
      ∀ e ∈ (m.remove p).peers.entries, e ∈ m.peers.entries := by
  have hf := remove_frame hs p
  refine ⟨by rw [hf], by rw [hf], by rw [hf], fun e he => ?_⟩
  rw [remove_peers hs] at he
  exact OrdMap.mem_entries.mpr (OrdMap.find_erase_some (OrdMap.mem_entries.mp he)).2

theorem acknowledge_group (m : Membership) (p : PeerRef) (g g' : GroupRef) : (m.acknowledge p g).group g' =
    if g' = g then (m.group g).takeIn m.getId m.localPeer p else m.group g' := by
  show (m.takeIn p g).group g' = _
  rw [takeIn_eq]
  split
  · rename_i h
    subst h
    exact modGroup_self ..
  · rename_i h
    exact modGroup_of_ne h _

theorem answer_group {m : Membership} {l : GroupRef} (hl : m.localGroup = some l) (p : PeerRef) (g : GroupRef) :
    (m.answer p).group g = if g = l then (m.group l).takeIn m.getId m.localPeer p else m.group g := by
  rw [answer_eq hl]
  exact acknowledge_group _ p l g

/-- Answering a request changes no peer. -/
theorem answer_peer (m : Membership) (p : PeerRef) : (m.answer p).peer = m.peer ∧
    (m.answer p).localPeer = m.localPeer ∧ (m.answer p).peerCount = m.peerCount := by
  unfold answer
  split <;> exact ⟨rfl, rfl, rfl⟩

theorem check_peer (m : Membership) : m.check.peer = m.peer ∧ m.check.localPeer = m.localPeer ∧
    m.check.peerCount = m.peerCount := by
  unfold check
  split
  · exact answer_peer m _
  · exact ⟨rfl, rfl, rfl⟩

/-- The group founded when somebody joins us: we are alone in it. -/
theorem found_group (m : Membership) (newId : Bytes) (g : GroupRef) : (m.found newId).group g =
    if g = m.groupCount then (Group.new newId).addToRings m.getId m.localPeer else m.group g := by
  show (Membership.modGroup _ m.groupCount
    (·.addToRings (m.setState m.localPeer .connected).getId m.localPeer)).group g = _
  split
  · rename_i h
    subst h
    rw [modGroup_self, setState_getId]
    exact congrArg (·.addToRings m.getId m.localPeer) (createGroup_self m newId)
  · rename_i h
    rw [modGroup_of_ne h]
    exact createGroup_of_ne (m := m) h newId

/-! ## JOIN requests and acknowledgements -/

/-- The IDs, once this peer has told us his. -/
def renamed (m : Membership) (p : PeerRef) (id : Bytes) : PeerRef → Bytes := Function.update m.getId p id

omit [Platform] in
theorem initPeer_ids (m : Membership) (p : PeerRef) (id pubK : Bytes) : (m.initPeer p id pubK).getId = m.renamed p id := by
  funext q
  by_cases h : q = p
  · subst h
    rw [getId, initPeer, modPeer_self, renamed, Function.update_self]
  · rw [getId, initPeer, modPeer_of_ne h, renamed, Function.update_of_ne h, getId]

theorem greet_ids (m : Membership) (p : PeerRef) (id pubK newId : Bytes) :
    (m.greet p id pubK newId).getId = m.renamed p id := by
  rw [greet, setState_getId, initPeer_ids]
  split
  · show renamed (m.setState m.localPeer .connected) p id = _
    rw [renamed, setState_getId, renamed]
  · rfl

theorem greet_localPeer (m : Membership) (p : PeerRef) (id pubK newId : Bytes) :
    (m.greet p id pubK newId).localPeer = m.localPeer := by
  unfold greet
  split <;> rfl

theorem greet_localGroup {m : Membership} (hs : m.Sound) (p : PeerRef) (id pubK newId : Bytes) :
    ∃ l, (m.greet p id pubK newId).localGroup = some l := by
  unfold greet
  split
  · exact ⟨m.groupCount, rfl⟩
  · rename_i hc
    exact Option.ne_none_iff_exists'.mp fun hn => (hs.alone hn).2.2 (not_not.mp hc)

theorem greet_token (m : Membership) (p : PeerRef) (id pubK newId : Bytes) :
    (m.greet p id pubK newId).joinToken = m.joinToken := by
  unfold greet
  split <;> rfl

theorem ackGroup_ids (m : Membership) (groupId : Bytes) :
    (m.ackGroup groupId).2.getId = m.getId ∧ (m.ackGroup groupId).2.localPeer = m.localPeer := by
  unfold ackGroup
  split
  · exact ⟨rfl, rfl⟩
  · split <;> exact ⟨rfl, rfl⟩

theorem ackPeer_ids (m : Membership) (p : PeerRef) (g : GroupRef) (peerId pubK : Bytes) :
    (m.ackPeer p g peerId pubK).getId = m.renamed p peerId :=
  (setState_getId (m.initPeer p peerId pubK) p .connected).trans (initPeer_ids m p peerId pubK)

theorem ackPeer_group (m : Membership) (p : PeerRef) (g g' : GroupRef) (peerId pubK : Bytes) :
    (m.ackPeer p g peerId pubK).group g' =
      if g' = g then (m.group g').addPeer (m.renamed p peerId) p else m.group g' := by
  rw [← ackPeer_ids m p g peerId pubK]
  split
  · rename_i h
    subst h
    rw [ackPeer, Membership.addPeer, modGroup_self]
    rfl
  · rename_i h
    rw [ackPeer, Membership.addPeer, modGroup_of_ne h]
    rfl

/-- Finding the group of an acknowledgement touches groups only. -/
theorem ackGroup_rest (m : Membership) (groupId : Bytes) : (m.ackGroup groupId).2.peers = m.peers ∧
    (m.ackGroup groupId).2.peer = m.peer ∧ (m.ackGroup groupId).2.joinToken = m.joinToken ∧
      (m.ackGroup groupId).2.joinTimers = m.joinTimers := by
  unfold ackGroup
  split
  · exact ⟨rfl, rfl, rfl, rfl⟩
  · split <;> exact ⟨rfl, rfl, rfl, rfl⟩

theorem ackGroup_old {m : Membership} {g : GroupRef} (hg : g < m.groupCount) (groupId : Bytes) :
    (m.ackGroup groupId).2.group g = m.group g := by
  have hne := Nat.ne_of_lt hg
  unfold ackGroup
  split
  · rfl
  · split
    · exact createGroup_of_ne hne groupId
    · rename_i l _
      exact (modGroup_of_ne (m := m.createGroup groupId) hne
        fun x => x.addGroupToRings m.getId ((m.createGroup groupId).group l)).trans (createGroup_of_ne hne groupId)

/-! ## What every operation keeps -/

/-- A property of groups that every operation keeps, when the local peer has this ID and the
    peers that are added are `ok`. -/
structure Kept (localPeer : PeerRef) (own : Bytes) (ok : PeerRef → Prop) (P : Group → Prop) : Prop where
  new : ∀ id, P (Group.new id)
  addToRings : ∀ {getId : PeerRef → Bytes} {x : Group} {p : PeerRef}, getId localPeer = own → ok p → P x →
    P (x.addToRings getId p)
  addPeer : ∀ {getId : PeerRef → Bytes} {x : Group} {p : PeerRef}, getId localPeer = own → ok p → P x →
    P (x.addPeer getId p)
  addGroup : ∀ {getId : PeerRef → Bytes} {x y : Group}, getId localPeer = own → P x → P y → P (x.addGroupToRings getId y)
  removePeer : ∀ {getId : PeerRef → Bytes} {x : Group} {p : PeerRef}, P x → P (x.removePeer getId p).2
  update : ∀ {getId : PeerRef → Bytes} {x : Group}, getId localPeer = own → P x → P (x.updateNeighbours getId localPeer)

section

variable {m : Membership} {own : Bytes} {ok : PeerRef → Prop} {P : Group → Prop}
  (hP : Kept m.localPeer own ok P) (hown : m.getId m.localPeer = own) (h : ∀ g, P (m.group g))

include hP hown h

theorem Kept.answer {p : PeerRef} (hp : ok p) (g : GroupRef) : P ((m.answer p).group g) := by
  cases hl : m.localGroup with
  | none => simp only [Membership.answer, hl]; exact h g
  | some l =>
    rw [answer_group hl]
    split
    · exact hP.update hown (hP.addPeer hown hp (h l))
    · exact h g

theorem Kept.check (hs : m.Sound) (hok : ∀ p, p < m.peerCount → ok p) (g : GroupRef) : P (m.check.group g) := by
  unfold Membership.check
  split
  · rename_i p hp
    obtain ⟨address, port, hm, -⟩ := pending_mem hp
    exact hP.answer hown h (hok p (hs.newPeers address p port hm).1) g
  · exact h g

theorem Kept.greet (hp : ok m.localPeer) (p : PeerRef) (id pubK newId : Bytes) (g : GroupRef) :
    P ((m.greet p id pubK newId).group g) := by
  have hg : (m.greet p id pubK newId).group = if m.localState ≠ .connected then (m.found newId).group else m.group := by
    unfold Membership.greet
    split <;> rfl
  rw [hg]
  split
  · rw [found_group]
    split
    · exact hP.addToRings hown hp (hP.new newId)
    · exact h g
  · exact h g

theorem Kept.ackGroup (groupId : Bytes) (g : GroupRef) : P ((m.ackGroup groupId).2.group g) := by
  have hc : ∀ g, P ((m.createGroup groupId).group g) := by
    intro g
    by_cases hg : g = m.groupCount
    · subst hg
      rw [createGroup_self]
      exact hP.new groupId
    · rw [createGroup_of_ne hg]
      exact h g
  unfold Membership.ackGroup
  split
  · exact h g
  · split
    · exact hc g
    · rename_i l _
      by_cases hg : g = m.groupCount
      · subst hg
        simp only [modGroup_self]
        exact hP.addGroup hown (hc _) (hc l)
      · simp only [modGroup_of_ne hg]
        exact hc g

theorem Kept.enterChannels (hs : m.Sound) {p : PeerRef} (hp : ok p) (g : GroupRef) : P ((m.enterChannels p).group g) := by
  cases hl : m.localGroup with
  | none => simp only [Membership.enterChannels, hl]; exact h g
  | some l =>
    rw [enterChannels_eq hl, modGroups_eq _ hs.values_nodup]
    simp only [channel]
    split
    · split
      · exact hP.update hown (hP.addToRings hown hp (h g))
      · exact h g
    · exact h g

theorem Kept.remove (hs : m.Sound) (p : PeerRef) (g : GroupRef) :
    P ((m.remove p).group g) := by
  cases hp : m.peers.contains (m.getId p) with
  | false => rw [Membership.remove, hp]; exact h g
  | true =>
    obtain ⟨l, hl⟩ := hs.localGroup_of_peers hp
    rw [remove_eq hs hl hp]
    simp only
    split
    · exact hP.update hown (hP.removePeer (h g))
    · split
      · exact hP.removePeer (h g)
      · exact h g

/-- What every operation keeps, every step keeps of every group. -/
theorem Kept.apply (hs : m.Sound) {c : Change} (hc : m.Awaits c) (hok : ∀ p, p < (m.apply c).peerCount → ok p)
    (hle : m.peerCount ≤ (m.apply c).peerCount) (g : GroupRef) : P ((m.apply c).group g) := by
  have hold : ∀ p, p < m.peerCount → ok p := fun p hp => hok p (Nat.lt_of_lt_of_le hp hle)
  -- another peer may be renamed
  have other : ∀ {p : PeerRef} {id : Bytes}, m.Remote p → m.renamed p id m.localPeer = own := fun hp =>
    (Function.update_of_ne hp.2.symm ..).trans hown
  cases c with
  | idle => exact h g
  | accept address => exact h g
  | contact address => exact h g
  | request p id pubK port newId =>
    have hr := hs.listening p hc
    have hg := hP.greet hown h (hold _ hs.localPeer) p id pubK newId
    have hlp := greet_localPeer m p id pubK newId
    have hP' : Kept (m.greet p id pubK newId).localPeer own ok P := hlp ▸ hP
    simp only [Membership.apply]
    split
    · refine hP'.answer ?_ hg (hold p hr.1) g
      rw [hlp, greet_ids]
      exact other hr
    · exact hg g
  | notified groupId peerId pubK address =>
    cases hg : m.groups.find? groupId with
    | none => simp only [Membership.apply, hg]; exact h g
    | some g' =>
      simp only [Membership.apply, hg] at hok ⊢
      rw [acknowledge_group]
      split
      · refine hP.update ?_ (hP.addPeer ?_ (hok m.peerCount (Nat.lt_succ_self _)) (h g'))
        all_goals
          refine Eq.trans (congrArg Peer.id ?_) ((newPeer_getId hs.localPeer address).trans hown)
          exact enrol_of_ne (m := { m with joinToken := false }.newPeer address) (Nat.ne_of_lt hs.localPeer) peerId pubK
      · exact h g
  | unreached => exact h g
  | channels peerId =>
    simp only [Membership.apply]
    split
    · exact h g
    · rename_i p hp
      exact hP.enterChannels hown h hs (hold p (hs.peers peerId p hp).1) g
  | acked p groupId peerId pubK =>
    have hr := hs.listening p hc
    rw [Membership.apply, ackPeer_group, renamed, (ackGroup_ids m groupId).1]
    split
    · exact hP.addPeer (other hr) (hold p hr.1) (hP.ackGroup hown h groupId g)
    · exact hP.ackGroup hown h groupId g
  | ready =>
    rcases (ready_entered m).group g with hg | hg
    · rw [hg]
      exact h g
    · rw [hg]
      exact hP.update hown (hP.addToRings hown (hold _ hs.localPeer) (h g))
  | completed p =>
    have hown' : (m.setState p .connected).getId m.localPeer = own := (congrFun (setState_getId m p .connected) _).trans hown
    exact Kept.check (m := m.setState p .connected) hP hown' h (hs.setState (hs.listening p hc) .connected) hold g
  | expired id =>
    simp only [Membership.apply]
    split
    · exact h g
    · rename_i t ht
      have hp := hs.joinTimers id t ht
      let n := { m with joinTimers := m.joinTimers.insert id { t with armed := false } }.setState t.peer .connected
      have hn : n.Sound := (hs.insertJoinTimer (t := { t with armed := false }) hp id).setState hp .connected
      have hown' : n.getId m.localPeer = own := (congrFun (setState_getId _ t.peer .connected) _).trans hown
      exact Kept.check (m := { n with joinTimers := n.joinTimers.erase (n.getId t.peer) }) hP hown' h
        (hn.eraseJoinTimer _) hold g
  | readySent id =>
    simp only [Membership.apply]
    split <;> exact h g
  | closed p =>
    have hown' : (m.stopListening p).getId m.localPeer = own := (congrFun (stopListening_getId m p) _).trans hown
    have hr : ∀ g, P (((m.stopListening p).remove p).group g) :=
      Kept.remove (m := m.stopListening p) hP hown' h (hs.stopListening (hs.listening p hc)) p
    simp only [Membership.apply, reset]
    split
    · exact hr g
    · exact hr g
  | failed p => exact h g

end

/-! ## Members exist -/

/-- Every peer a group refers to is an object. -/
def Placed (m : Membership) : Prop := ∀ g q, (m.group g).Mentions q → q < m.peerCount

theorem mentions_kept (localPeer : PeerRef) (own : Bytes) (n : Nat) :
    Kept localPeer own (· < n) fun x => ∀ q, x.Mentions q → q < n where
  new _ _ hq := (Group.new_mentions hq).elim
  addToRings _ hp hx q hq := (Group.addToRings_mentions hq).elim (fun e => e ▸ hp) (hx q)
  addPeer _ hp hx q hq := (Group.addPeer_mentions hq).elim (fun e => e ▸ hp) (hx q)
  addGroup _ hx hy q hq := (Group.addGroupToRings_mentions hq).elim (hx q) (hy q)
  removePeer hx q hq := hx q (Group.removePeer_mentions hq)
  update _ hx q hq := hx q (Group.updateNeighbours_mentions.mp hq)

/-- A change makes one peer at most; he has no ID yet, or the one of the notification. -/
theorem apply_makes {m : Membership} (hs : m.Sound) {c : Change} (hc : m.Awaits c) :
    (m.apply c).peerCount = m.peerCount ∨ (m.apply c).peerCount = m.peerCount + 1 ∧
      ((m.apply c).getId m.peerCount = [] ∨ ∃ groupId peerId pubK address, c = .notified groupId peerId pubK address ∧
        (m.apply c).getId m.peerCount = peerId) := by
  have fresh : ∀ address, (m.newPeer address).getId m.peerCount = [] := fun address =>
    congrArg Peer.id (newPeer_self m address)
  cases c with
  | accept address =>
    refine Or.inr ⟨rfl, Or.inl ?_⟩
    rw [Membership.apply, addNewPeer_getId]
    exact fresh address
  | contact address =>
    refine Or.inr ⟨rfl, Or.inl ?_⟩
    rw [Membership.apply, addNewPeer_getId, setState_getId]
    exact fresh address
  | request p id pubK port newId =>
    have hg : (m.greet p id pubK newId).peerCount = m.peerCount := by
      unfold greet
      split <;> rfl
    left
    simp only [Membership.apply]
    split
    · rw [(answer_peer _ p).2.2, hg]
    · exact hg
  | notified groupId peerId pubK address =>
    simp only [Membership.apply]
    split
    · exact Or.inl rfl
    · refine Or.inr ⟨rfl, Or.inr ⟨groupId, peerId, pubK, address, rfl, ?_⟩⟩
      show ((({ m with joinToken := false }.newPeer address).enrol m.peerCount peerId pubK).peer m.peerCount).id = peerId
      rw [enrol, startListening, modPeer_self, setState, modPeer_self, initPeer, modPeer_self]
  | channels peerId =>
    left
    simp only [Membership.apply]
    split
    · rfl
    · cases hl : m.localGroup with
      | none => simp only [enterChannels, hl]
      | some l => rw [enterChannels_eq hl, modGroups_eq _ hs.values_nodup]
  | acked p groupId peerId pubK =>
    left
    show (m.ackGroup groupId).2.peerCount = _
    unfold ackGroup
    split
    · rfl
    · split <;> rfl
  | ready =>
    left
    rw [(ready_entered m).rest]
  | completed p =>
    left
    rw [Membership.apply, (check_peer _).2.2]
    rfl
  | expired id =>
    left
    simp only [Membership.apply]
    split
    · rfl
    · rw [(check_peer _).2.2]
      rfl
  | readySent id =>
    left
    simp only [Membership.apply]
    split <;> rfl
  | closed p =>
    have hr : ((m.stopListening p).remove p).peerCount = m.peerCount := by
      rw [remove_frame (hs.stopListening (hs.listening p hc)) p]
      rfl
    left
    simp only [Membership.apply, reset]
    split
    · exact hr
    · exact hr
  | idle => exact Or.inl rfl
  | unreached => exact Or.inl rfl
  | failed p => exact Or.inl rfl

/-- Objects are made and never unmade. -/
theorem apply_peerCount {m : Membership} (hs : m.Sound) {c : Change} (hc : m.Awaits c) :
    m.peerCount ≤ (m.apply c).peerCount := by
  rcases apply_makes hs hc with h | ⟨h, -⟩ <;> omega

theorem Placed.apply {m : Membership} (h : m.Placed) (hs : m.Sound) {c : Change} (hc : m.Awaits c) :
    (m.apply c).Placed := by
  have hle := apply_peerCount hs hc
  exact (mentions_kept m.localPeer _ _).apply rfl (fun g q hq => Nat.lt_of_lt_of_le (h g q hq) hle) hs hc (fun _ => id) hle

end Membership

/-- In every reachable state, every member of a group is an object. -/
theorem Network.Reach.placed [Platform] {allowed : Network → Event → Prop} {s : Network} (hs : Network.Reach allowed s) :
    s.toMembership.Placed := by
  refine hs.membership (fun id pubK port clock g q hq => absurd hq fun hq => Group.new_mentions hq)
    fun s e hr h he _ => h.apply hr.sound (Network.change_awaits he)

end RacKun
