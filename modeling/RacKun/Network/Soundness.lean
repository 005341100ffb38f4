/-
  RacKun.Network.Soundness — what holds of every node at every moment, whatever it is sent.

  References point to objects that exist, and only the local peer's own entry is the
  local peer (`Remote`); a group is filed under its own ID; and a node without a local
  group has no group and no peer, and is not connected.

  - `Reach.membership`: a property of the membership that every possible change keeps
    holds along every run.
  - `Reach.sound`: every reachable membership is sound.
-/

import RacKun.Network.Changes

namespace RacKun

open Lib (OrdMap)

namespace Membership

/-! ## Sound memberships -/

/-- An object that exists and is not the local peer. -/
def Remote (m : Membership) (p : PeerRef) : Prop := p < m.peerCount ∧ p ≠ m.localPeer

structure Sound (m : Membership) : Prop where
  localPeer : m.localPeer < m.peerCount
  listening : ∀ p, (m.peer p).listening = true → m.Remote p
  peers : ∀ id p, m.peers.find? id = some p → m.Remote p
  newPeers : ∀ address p port, m.newPeers.find? address = some (some p, port) → m.Remote p
  joinTimers : ∀ id t, m.joinTimers.find? id = some t → m.Remote t.peer
  readyTimers : ∀ id t, m.readyTimers.find? id = some t → m.Remote t.peer
  groups : ∀ id g, m.groups.find? id = some g → g < m.groupCount ∧ (m.group g).id = id
  localGroup : ∀ l, m.localGroup = some l → l < m.groupCount
  alone : m.localGroup = none → m.groups = ∅ ∧ m.peers = ∅ ∧ m.localState ≠ .connected

/-- A node that has peers has a group. -/
theorem Sound.localGroup_of_peers {m : Membership} (h : m.Sound) {id : Bytes} (hp : m.peers.contains id = true) :
    ∃ l, m.localGroup = some l := by
  refine Option.ne_none_iff_exists'.mp fun hn => ?_
  rw [(h.alone hn).2.1] at hp
  cases hp

/-! ### The operations keep it -/

section

variable {m : Membership}

theorem Sound.modGroup (h : m.Sound) (g : GroupRef) {f : Group → Group} (hf : (f (m.group g)).id = (m.group g).id) :
    (m.modGroup g f).Sound := by
  refine { h with groups := fun id g' hg => ⟨(h.groups id g' hg).1, ?_⟩ }
  by_cases hgg : g' = g
  · subst hgg
    rw [modGroup_self, hf]
    exact (h.groups id g' hg).2
  · rw [modGroup_of_ne hgg]
    exact (h.groups id g' hg).2

theorem Sound.modPeer (h : m.Sound) {p : PeerRef} (hp : m.Remote p) (f : Peer → Peer) : (m.modPeer p f).Sound := by
  refine { h with listening := fun q hq => ?_, alone := fun hl => ?_ }
  · by_cases hqp : q = p
    · exact hqp ▸ hp
    · rw [modPeer_of_ne hqp] at hq
      exact h.listening q hq
  · obtain ⟨hg, hps, hs⟩ := h.alone hl
    refine ⟨hg, hps, ?_⟩
    show ((m.modPeer p f).peer m.localPeer).state ≠ _
    rw [modPeer_of_ne hp.2.symm]
    exact hs

theorem Sound.initPeer (h : m.Sound) {p : PeerRef} (hp : m.Remote p) (id pubK : Bytes) : (m.initPeer p id pubK).Sound :=
  h.modPeer hp _

theorem Sound.setState (h : m.Sound) {p : PeerRef} (hp : m.Remote p) (st : PeerState) : (m.setState p st).Sound :=
  h.modPeer hp _

theorem Sound.startListening (h : m.Sound) {p : PeerRef} (hp : m.Remote p) : (m.startListening p).Sound :=
  h.modPeer hp _

theorem Sound.stopListening (h : m.Sound) {p : PeerRef} (hp : m.Remote p) : (m.stopListening p).Sound :=
  h.modPeer hp _

theorem Sound.enrol (h : m.Sound) {p : PeerRef} (hp : m.Remote p) (peerId pubK : Bytes) : (m.enrol p peerId pubK).Sound :=
  ((h.initPeer hp peerId pubK).setState hp .joining).startListening hp

theorem Sound.setLocalState (h : m.Sound) (st : PeerState) (hst : st = .connected → m.localGroup ≠ none) :
    (m.setState m.localPeer st).Sound := by
  refine { h with listening := fun q hq => ?_, alone := fun hl => ?_ }
  · by_cases hql : q = m.localPeer
    · subst hql
      rw [Membership.setState, modPeer_self] at hq
      exact h.listening m.localPeer hq
    · rw [Membership.setState, modPeer_of_ne hql] at hq
      exact h.listening q hq
  · obtain ⟨hg, hps, -⟩ := h.alone hl
    refine ⟨hg, hps, fun hc => hst ?_ hl⟩
    rw [localState, Membership.setState] at hc
    exact (congrArg Peer.state (modPeer_self ..)).symm.trans hc

theorem Sound.newPeer (h : m.Sound) (address : Bytes) : (m.newPeer address).Sound := by
  have mono : ∀ {p}, m.Remote p → (m.newPeer address).Remote p := fun hp => ⟨Nat.lt_succ_of_lt hp.1, hp.2⟩
  refine ⟨Nat.lt_succ_of_lt h.localPeer, fun q hq => ?_, fun id p hp => mono (h.peers id p hp),
    fun a p port hp => mono (h.newPeers a p port hp), fun id t ht => mono (h.joinTimers id t ht),
    fun id t ht => mono (h.readyTimers id t ht), h.groups, h.localGroup, fun hl => ?_⟩
  · by_cases hqm : q = m.peerCount
    · exact hqm ▸ ⟨Nat.lt_succ_self _, Nat.ne_of_gt h.localPeer⟩
    · rw [newPeer_of_ne hqm] at hq
      exact mono (h.listening q hq)
  · obtain ⟨hg, hps, hs⟩ := h.alone hl
    refine ⟨hg, hps, ?_⟩
    show ((m.newPeer address).peer m.localPeer).state ≠ _
    rw [newPeer_of_ne (Nat.ne_of_lt h.localPeer)]
    exact hs

theorem newPeer_remote (h : m.Sound) (address : Bytes) : (m.newPeer address).Remote m.peerCount :=
  ⟨Nat.lt_succ_self _, Nat.ne_of_gt h.localPeer⟩

theorem Sound.pendPeer (h : m.Sound) {p : PeerRef} (hp : m.Remote p) (address : Bytes) (port : Port) :
    Sound { m with newPeers := m.newPeers.insert address (some p, port) } := by
  refine { h with newPeers := fun a q port hq => ?_ }
  rcases OrdMap.find_insert_some hq with ⟨-, hq⟩ | hq
  · cases hq; exact hp
  · exact h.newPeers a q port hq

theorem Sound.pend (h : m.Sound) (p : PeerRef) (port : Port) : (m.pend p port).Sound := by
  refine { h with newPeers := fun a q port' hq => ?_ }
  have hq : (m.newPeers.insert _ _).find? a = some (some q, port') := hq
  rcases OrdMap.find_insert_some hq with ⟨-, hq⟩ | hq
  · cases hm : m.newPeers.find? (m.peer p).address with
    | none => simp [hm] at hq
    | some e =>
      obtain ⟨q', port''⟩ := e
      simp only [hm, Option.map_some, Option.getD_some, Prod.mk.injEq] at hq
      obtain ⟨rfl, -⟩ := hq
      exact h.newPeers _ q port'' hm
  · exact h.newPeers a q port' hq

theorem Sound.addNewPeer (h : m.Sound) {p : PeerRef} (hp : m.Remote p) : (m.addNewPeer p).Sound :=
  (h.pendPeer hp (m.peer p).address 0).startListening hp

theorem Sound.insertPeer (h : m.Sound) {p : PeerRef} (hp : m.Remote p) (hl : m.localGroup ≠ none) (id : Bytes) :
    Sound { m with peers := m.peers.insert id p } := by
  refine { h with peers := fun id' q hq => ?_, alone := fun hn => absurd hn hl }
  rcases OrdMap.find_insert_some hq with ⟨-, rfl⟩ | hq
  · exact hp
  · exact h.peers id' q hq

theorem Sound.eraseNewPeer (h : m.Sound) (address : Bytes) :
    Sound { m with newPeers := m.newPeers.erase address } := by
  exact { h with newPeers := fun a q port hq => h.newPeers a q port (OrdMap.find_erase_some hq).2 }

theorem Sound.insertJoinTimer (h : m.Sound) {t : Timer} (ht : m.Remote t.peer) (id : Bytes) :
    Sound { m with joinTimers := m.joinTimers.insert id t } := by
  refine { h with joinTimers := fun id' u hu => ?_ }
  rcases OrdMap.find_insert_some hu with ⟨-, rfl⟩ | hu
  · exact ht
  · exact h.joinTimers id' u hu

theorem Sound.insertReadyTimer (h : m.Sound) {t : Timer} (ht : m.Remote t.peer) (id : Bytes) :
    Sound { m with readyTimers := m.readyTimers.insert id t } := by
  refine { h with readyTimers := fun id' u hu => ?_ }
  rcases OrdMap.find_insert_some hu with ⟨-, rfl⟩ | hu
  · exact ht
  · exact h.readyTimers id' u hu

theorem Sound.eraseJoinTimer (h : m.Sound) (id : Bytes) : Sound { m with joinTimers := m.joinTimers.erase id } := by
  exact { h with joinTimers := fun id' u hu => h.joinTimers id' u (OrdMap.find_erase_some hu).2 }

theorem Sound.eraseReadyTimer (h : m.Sound) (id : Bytes) :
    Sound { m with readyTimers := m.readyTimers.erase id } := by
  exact { h with readyTimers := fun id' u hu => h.readyTimers id' u (OrdMap.find_erase_some hu).2 }

theorem Sound.erasePeer (h : m.Sound) (id : Bytes) : Sound { m with peers := m.peers.erase id } := by
  refine { h with peers := fun id' q hq => ?_, alone := fun hl => ?_ }
  · exact h.peers id' q (OrdMap.find_erase_some hq).2
  · obtain ⟨hg, hps, hs⟩ := h.alone hl
    exact ⟨hg, by rw [hps]; rfl, hs⟩

theorem Sound.clear (h : m.Sound) (hp : m.peers = ∅) (hs : m.localState ≠ .connected) :
    Sound { m with groups := ∅, localGroup := none } :=
  { h with
    groups := fun id g hg => by cases hg
    localGroup := fun l hl => by cases hl
    alone := fun _ => ⟨rfl, hp, hs⟩ }

theorem Sound.setToken (h : m.Sound) (b : Bool) : Sound { m with joinToken := b } := { h with }

/-- A new group, in a node that has a local group by then. -/
theorem Sound.createGroup (h : m.Sound) (id : Bytes) {l : GroupRef} (hl : l ≤ m.groupCount) :
    Sound { m.createGroup id with localGroup := some l } := by
  refine { h with
    groups := fun id' g hg => ?_
    localGroup := fun l' hl' => by cases hl'; exact Nat.lt_succ_of_le hl
    alone := fun hn => by cases hn }
  have hg : (m.groups.insertNew id m.groupCount).find? id' = some g := hg
  rcases OrdMap.find_insertNew_some hg with ⟨rfl, rfl⟩ | hg
  · refine ⟨Nat.lt_succ_self _, ?_⟩
    show ((m.createGroup id').group m.groupCount).id = id'
    rw [createGroup_self]
    rfl
  · obtain ⟨h₁, h₂⟩ := h.groups id' g hg
    refine ⟨Nat.lt_succ_of_lt h₁, ?_⟩
    show ((m.createGroup id).group g).id = id'
    rw [createGroup_of_ne (Nat.ne_of_lt h₁)]
    exact h₂

end

/-! ### The stages of the handlers keep it -/

section

variable [Platform] {m : Membership}

theorem Sound.addToRings (h : m.Sound) (g : GroupRef) (p : PeerRef) : (m.addToRings g p).Sound := h.modGroup g rfl

theorem Sound.addPeer (h : m.Sound) (g : GroupRef) (p : PeerRef) : (m.addPeer g p).Sound := h.modGroup g rfl

theorem Sound.removePeer (h : m.Sound) (g : GroupRef) (p : PeerRef) : (m.removePeer g p).2.Sound :=
  h.modGroup g (f := fun x => (x.removePeer m.getId p).2) rfl

theorem Sound.updateNeighbours (h : m.Sound) (g : GroupRef) : (m.updateNeighbours g).Sound :=
  h.modGroup g (Group.updateNeighbours_id _ _)

theorem Sound.found (h : m.Sound) (newId : Bytes) : (m.found newId).Sound :=
  ((h.createGroup newId le_rfl).setLocalState _ fun _ => Option.some_ne_none _).addToRings _ _

theorem Sound.greet (h : m.Sound) {p : PeerRef} (hp : m.Remote p) (id pubK newId : Bytes) :
    (m.greet p id pubK newId).Sound ∧ (m.greet p id pubK newId).Remote p := by
  have hf : Sound (if m.localState ≠ .connected then m.found newId else m) ∧
      Remote (if m.localState ≠ .connected then m.found newId else m) p := by
    split
    · exact ⟨h.found newId, hp⟩
    · exact ⟨h, hp⟩
  exact ⟨(hf.1.initPeer hf.2 id pubK).setState hf.2 .joining, hf.2⟩

theorem Sound.acknowledge (h : m.Sound) {p : PeerRef} (hp : m.Remote p) (hl : m.localGroup ≠ none) (g : GroupRef) :
    (m.acknowledge p g).Sound := by
  have ha : (m.takeIn p g).Sound := ((h.insertPeer hp hl _).addPeer g p).updateNeighbours g
  unfold Membership.acknowledge armJoinTimer
  split
  · exact ha
  · exact ha.insertJoinTimer (t := ⟨p, true⟩) hp _

theorem Sound.answer (h : m.Sound) {p : PeerRef} (hp : m.Remote p) : (m.answer p).Sound := by
  cases hl : m.localGroup with
  | none => simp only [Membership.answer, hl]; exact h
  | some l =>
    rw [answer_eq hl]
    exact (((h.setToken false).eraseNewPeer _).acknowledge hp (by simp [hl]) l).insertReadyTimer (t := ⟨p, true⟩) hp _

omit [Platform] in
theorem pending_mem {p : PeerRef} (hp : m.pending? = some p) :
    ∃ address port, m.newPeers.find? address = some (some p, port) ∧ (m.peer p).isKnown = true := by
  obtain ⟨⟨address, q, port⟩, he, hq⟩ := List.exists_of_findSome?_eq_some hp
  have hq : q.filter (fun p => (m.peer p).isKnown) = some p := hq
  obtain ⟨rfl, hk⟩ := Option.filter_eq_some_iff.mp hq
  exact ⟨address, port, OrdMap.mem_entries.mp he, hk⟩

theorem Sound.check (h : m.Sound) : m.check.Sound := by
  unfold Membership.check
  split
  · rename_i p hp
    obtain ⟨address, port, hm, -⟩ := pending_mem hp
    exact h.answer (h.newPeers address p port hm)
  · exact h.setToken true

theorem Sound.enterRings (h : m.Sound) {l : GroupRef} (hl : m.localGroup = some l) (g : GroupRef) :
    (m.enterRings l g).Sound := by
  unfold Membership.enterRings
  split
  · exact (h.addToRings g _).updateNeighbours g
  · split
    · exact ((h.setLocalState _ fun _ => by simp [hl]).addToRings l _).updateNeighbours l
    · exact h

theorem Sound.readyOne (h : m.Sound) (g : GroupRef) : (m.readyOne g).Sound := by
  unfold Membership.readyOne
  split
  · exact h
  · rename_i l hl
    exact h.enterRings hl g

theorem Sound.enterChannels (h : m.Sound) (p : PeerRef) : (m.enterChannels p).Sound := by
  unfold Membership.enterChannels
  split
  · exact h
  · rename_i l hl
    refine List.foldlRecOn m.groups.values _ h fun n hn g _ => ?_
    split
    · exact (hn.addToRings g p).updateNeighbours g
    · exact hn

theorem Sound.ackGroup (h : m.Sound) (groupId : Bytes) : (m.ackGroup groupId).2.Sound ∧
    (m.ackGroup groupId).2.localGroup ≠ none := by
  unfold Membership.ackGroup
  split
  · rename_i g hg
    refine ⟨h, fun hl => ?_⟩
    rw [(h.alone hl).1] at hg
    cases hg
  · split
    · rename_i hl
      exact ⟨h.createGroup groupId le_rfl, Option.some_ne_none _⟩
    · rename_i l hl
      have hc := h.createGroup groupId (Nat.le_of_lt (h.localGroup l hl))
      rw [← hl] at hc
      refine ⟨hc.modGroup m.groupCount (f := fun x => x.addGroupToRings m.getId ((m.createGroup groupId).group l)) rfl, ?_⟩
      show m.localGroup ≠ none
      simp [hl]

theorem ackGroup_remote {groupId : Bytes} {p : PeerRef} : (m.ackGroup groupId).2.Remote p ↔ m.Remote p := by
  unfold Membership.ackGroup
  split
  · rfl
  · split <;> rfl

theorem Sound.ackPeer (h : m.Sound) {p : PeerRef} (hp : m.Remote p) (hl : m.localGroup ≠ none) (g : GroupRef)
    (peerId pubK : Bytes) : (m.ackPeer p g peerId pubK).Sound :=
  ((((h.initPeer hp peerId pubK).setState hp .connected).eraseNewPeer _).insertPeer hp hl peerId).addPeer g p

theorem Sound.drop (h : m.Sound) (p : PeerRef) (g : GroupRef) : (m.drop p g).Sound :=
  (h.removePeer g p).updateNeighbours g

theorem Sound.leaveGroups (h : m.Sound) (l : GroupRef) (p : PeerRef) : (m.leaveGroups l p).Sound := by
  unfold Membership.leaveGroups
  simp only
  split
  · exact List.foldlRecOn _ _ (h.removePeer _ p) fun n hn g _ => hn.drop p g
  · split
    · exact h.removePeer _ p
    · exact (h.removePeer _ p).drop p _

theorem Sound.remove (h : m.Sound) (p : PeerRef) : (m.remove p).Sound := by
  unfold Membership.remove
  split
  · split
    · exact h.erasePeer _
    · exact (h.erasePeer _).leaveGroups _ p
  · exact h.eraseNewPeer _

omit [Platform] in
theorem Sound.reset (h : m.Sound) : m.reset.Sound := by
  unfold Membership.reset
  split
  · rename_i hs
    have hl : (m.setState m.localPeer .new).localState ≠ .connected := by
      show ((m.setState m.localPeer .new).peer m.localPeer).state ≠ _
      rw [Membership.setState, modPeer_self]
      exact fun hc => by cases hc
    exact (h.setLocalState .new fun hc => by cases hc).clear (OrdMap.size_eq_zero.mp hs.1) hl
  · exact h

/-! ## Possible changes -/

/-- The object a change comes from is waiting for it. -/
def Awaits (m : Membership) : Change → Prop
  | .request p _ _ _ _ => (m.peer p).listening = true
  | .acked p _ _ _ => (m.peer p).listening = true
  | .completed p => (m.peer p).listening = true
  | .closed p => (m.peer p).listening = true
  | .failed p => (m.peer p).listening = true
  | _ => True

theorem Sound.apply (h : m.Sound) {c : Change} (hc : m.Awaits c) : (m.apply c).Sound := by
  cases c with
  | idle => exact h
  | accept address => exact (h.newPeer address).addNewPeer (newPeer_remote h address)
  | contact address =>
    exact ((h.newPeer address).setLocalState _ fun he => by cases he).addNewPeer (newPeer_remote h address)
  | request p id pubK port newId =>
    have hp := h.listening p hc
    have hs := h.greet hp id pubK newId
    simp only [Membership.apply]
    split
    · exact hs.1.answer hs.2
    · exact hs.1.pend p port
  | notified groupId peerId pubK address =>
    simp only [Membership.apply]
    split
    · exact h
    · rename_i g hg
      have hn := (h.setToken false).newPeer address
      have hr := newPeer_remote (h.setToken false) address
      have hl : m.localGroup ≠ none := fun hl => by rw [(h.alone hl).1] at hg; cases hg
      exact (hn.enrol hr peerId pubK).acknowledge hr hl g
  | unreached => exact h.setToken false
  | channels peerId =>
    simp only [Membership.apply]
    split
    · exact h
    · exact h.enterChannels _
  | acked p groupId peerId pubK =>
    have ha := h.ackGroup groupId
    have hp : (m.ackGroup groupId).2.Remote p := ackGroup_remote.mpr (h.listening p hc)
    exact ha.1.ackPeer hp ha.2 _ peerId pubK
  | ready => exact List.foldlRecOn _ _ h fun n hn g _ => hn.readyOne g
  | completed p => exact (h.setState (h.listening p hc) .connected).check
  | expired id =>
    simp only [Membership.apply]
    split
    · exact h
    · rename_i t ht
      have hp := h.joinTimers id t ht
      have hs := (h.insertJoinTimer (t := { t with armed := false }) hp id).setState hp .connected
      exact (hs.eraseJoinTimer _).check
  | readySent id =>
    simp only [Membership.apply]
    split
    · exact h
    · rename_i t ht
      exact (h.insertReadyTimer (t := { t with armed := false }) (h.readyTimers id t ht) id).eraseReadyTimer _
  | closed p => exact ((h.stopListening (h.listening p hc)).remove p).reset
  | failed p => exact h.stopListening (h.listening p hc)

end

end Membership

/-! ## Runs -/

namespace Network

variable [Platform]

theorem change_awaits {s : Network} {e : Event} (he : s.Enabled e) : s.toMembership.Awaits (s.change e) := by
  cases e with
  | read p received reached =>
    simp only [change]
    split
    · trivial
    · split
      · trivial
      · unfold messageChange
        split
        · exact he
        · split
          · split <;> trivial
          · split <;> trivial
        · exact he
        · trivial
        · exact he
        · trivial
  | join ip port reached => cases reached <;> trivial
  | eof p => exact he
  | readError p => exact he
  | accept address => trivial
  | readyTimer id => trivial
  | joinTimer id => trivial
  | broadcast content => trivial
  | sendAll message => trivial

/-- What every possible change keeps holds along every run. -/
theorem Reach.membership {allowed : Network → Event → Prop} {I : Membership → Prop}
    (hstart : ∀ id pubK port clock, I (Network.start id pubK port clock).toMembership)
    (hstep : ∀ s e, Reach allowed s → I s.toMembership → s.Enabled e → allowed s e →
      I (s.toMembership.apply (s.change e)))
    {s : Network} (hs : Reach allowed s) : I s.toMembership := by
  induction hs with
  | start id pubK port clock => exact hstart id pubK port clock
  | step hs ha hstep' ih =>
    obtain ⟨he, rounds, hh⟩ := hstep'
    rw [handle_membership hh]
    exact hstep _ _ hs ih he ha

omit [Platform] in
theorem start_sound (id pubK : Bytes) (port : Port) (clock : Nat → Nat) :
    (start id pubK port clock).toMembership.Sound where
  localPeer := Nat.one_pos
  listening p hp := by cases hp
  peers id p hp := by cases hp
  newPeers a p port hp := by cases hp
  joinTimers id t ht := by cases ht
  readyTimers id t ht := by cases ht
  groups id g hg := by cases hg
  localGroup l hl := by cases hl
  alone _ := ⟨rfl, rfl, fun h => by cases h⟩

/-- Every reachable membership is sound. -/
theorem Reach.sound {allowed : Network → Event → Prop} {s : Network} (hs : Reach allowed s) :
    s.toMembership.Sound :=
  hs.membership start_sound fun _ _ _ h he _ => h.apply (change_awaits he)

end Network

end RacKun
