/-
  RacKun.Network.Introductions — what a node is told about who its peers are.

  A peer's ID and key are what he has said last, in a JOIN or a JOIN Acknowledgement, or
  what a JOIN Notification said of him when we connected to him; his address never changes.

  - `apply_card`: ID and key of an old peer after a change.
  - `apply_newcomer`: the peer a change makes, if any.
  - `change_newcomer`: which events make one.
-/

import RacKun.Network.Filing
import RacKun.Network.Speech

namespace RacKun

open Lib (OrdMap)

/-- How a peer has introduced himself. -/
def Peer.card (x : Peer) : Bytes × Bytes := (x.id, x.pubIdKey)

/-- What a change says of a peer we have already. -/
def Change.card? (p : PeerRef) : Change → Option (Bytes × Bytes)
  | .request q id pubK _ _ => if q = p then some (id, pubK) else none
  | .acked q _ peerId pubK => if q = p then some (peerId, pubK) else none
  | _ => none

namespace Membership

/-- The peer a change makes: his address, and what is said of him. -/
def newcomer (m : Membership) : Change → Option (Bytes × Bytes × Bytes)
  | .accept address => some (address, [], [])
  | .contact address => some (address, [], [])
  | .notified groupId peerId pubK address => if m.groups.contains groupId then some (address, peerId, pubK) else none
  | _ => none

/-! ## Old peers -/

theorem modPeer_card (m : Membership) (p q : PeerRef) {f : Peer → Peer} (hf : (f (m.peer q)).card = (m.peer q).card) :
    ((m.modPeer q f).peer p).card = (m.peer p).card := by
  by_cases h : p = q
  · subst h
    rw [modPeer_self, hf]
  · rw [modPeer_of_ne h]

theorem setState_card (m : Membership) (p q : PeerRef) (st : PeerState) :
    ((m.setState q st).peer p).card = (m.peer p).card := m.modPeer_card p q rfl

theorem initPeer_card (m : Membership) (p q : PeerRef) (id pubK : Bytes) :
    ((m.initPeer q id pubK).peer p).card = if q = p then (id, pubK) else (m.peer p).card := by
  by_cases h : q = p
  · subst h
    rw [initPeer, modPeer_self, if_pos rfl]
    rfl
  · rw [initPeer, modPeer_of_ne (Ne.symm h), if_neg h]

theorem addNewPeer_card (m : Membership) (p q : PeerRef) : ((m.addNewPeer q).peer p).card = (m.peer p).card :=
  modPeer_card (f := fun x => { x with listening := true }) _ p q rfl

theorem stopListening_card (m : Membership) (p q : PeerRef) : ((m.stopListening q).peer p).card = (m.peer p).card :=
  modPeer_card (f := fun x => { x with listening := false }) m p q rfl

theorem newPeer_card {m : Membership} {p : PeerRef} (hp : p < m.peerCount) (address : Bytes) :
    ((m.newPeer address).peer p).card = (m.peer p).card := by
  rw [newPeer_of_ne (Nat.ne_of_lt hp)]

variable [Platform]

theorem greet_card (m : Membership) (p q : PeerRef) (id pubK newId : Bytes) :
    ((m.greet q id pubK newId).peer p).card = if q = p then (id, pubK) else (m.peer p).card := by
  rw [greet, setState_card, initPeer_card]
  by_cases hp : q = p
  · rw [if_pos hp, if_pos hp]
  · rw [if_neg hp, if_neg hp]
    split
    · exact setState_card m p m.localPeer .connected
    · rfl

theorem readyOne_card (m : Membership) (g : GroupRef) (p : PeerRef) : ((m.readyOne g).peer p).card = (m.peer p).card := by
  unfold readyOne
  split
  · rfl
  · unfold enterRings
    split
    · rfl
    · split
      · exact setState_card m p m.localPeer .connected
      · rfl

theorem apply_card {m : Membership} (hs : m.Sound) {c : Change} (hc : m.Awaits c) {p : PeerRef} (hp : p < m.peerCount) :
    ((m.apply c).peer p).card = (c.card? p).getD (m.peer p).card := by
  cases c with
  | idle => rfl
  | accept address => exact (addNewPeer_card _ p m.peerCount).trans (newPeer_card hp address)
  | contact address =>
    exact (addNewPeer_card _ p m.peerCount).trans ((setState_card _ p m.localPeer .joining).trans (newPeer_card hp address))
  | request q id pubK port newId =>
    have hg : ((m.apply (.request q id pubK port newId)).peer p).card = ((m.greet q id pubK newId).peer p).card := by
      simp only [Membership.apply]
      split
      · rw [(answer_peer _ q).1]
      · rfl
    rw [hg, greet_card, Change.card?]
    split <;> rfl
  | notified groupId peerId pubK address =>
    simp only [Membership.apply]
    split
    · rfl
    · refine (congrArg Peer.card ?_).trans (newPeer_card hp address)
      exact enrol_of_ne (m := { m with joinToken := false }.newPeer address) (Nat.ne_of_lt hp) peerId pubK
  | unreached => rfl
  | channels peerId =>
    simp only [Membership.apply]
    split
    · rfl
    · rw [enterChannels_peer hs]
      rfl
  | acked q groupId peerId pubK =>
    have hg : ((m.apply (.acked q groupId peerId pubK)).peer p).card =
        (((m.ackGroup groupId).2.initPeer q peerId pubK).peer p).card := setState_card _ p q .connected
    rw [hg, initPeer_card, (ackGroup_rest m groupId).2.1, Change.card?]
    split <;> rfl
  | ready =>
    refine List.foldlRecOn (motive := fun n : Membership => (n.peer p).card = (m.peer p).card) m.groups.values readyOne
      rfl fun n hn g _ => ?_
    rw [readyOne_card, hn]
  | completed q =>
    rw [Membership.apply, (check_peer _).1]
    exact setState_card m p q .connected
  | expired id =>
    simp only [Membership.apply]
    split
    · rfl
    · rename_i t _
      rw [(check_peer _).1]
      exact setState_card m p t.peer .connected
  | readySent id =>
    simp only [Membership.apply]
    split <;> rfl
  | closed q =>
    have hf := remove_frame (hs.stopListening (hs.listening q hc)) q
    have hr : ((m.apply (.closed q)).peer p).card = ((m.stopListening q).peer p).card := by
      rw [Membership.apply, hf]
      unfold reset
      split
      · exact setState_card _ p m.localPeer .new
      · rfl
    rw [hr]
    exact stopListening_card m p q
  | failed q => exact stopListening_card m p q

/-! ## New peers -/

omit [Platform] in
theorem enrol_newcomer (m : Membership) (address peerId pubK : Bytes) :
    (((m.newPeer address).enrol m.peerCount peerId pubK).peer m.peerCount).address = address ∧
      (((m.newPeer address).enrol m.peerCount peerId pubK).peer m.peerCount).card = (peerId, pubK) := by
  rw [enrol, startListening, modPeer_self, setState, modPeer_self, initPeer, modPeer_self, newPeer_self]
  exact ⟨rfl, rfl⟩

theorem apply_newcomer {m : Membership} (hs : m.Sound) {c : Change} {address id pubK : Bytes}
    (hn : m.newcomer c = some (address, id, pubK)) : (m.apply c).peerCount = m.peerCount + 1 ∧
      ((m.apply c).peer m.peerCount).address = address ∧ ((m.apply c).peer m.peerCount).card = (id, pubK) := by
  cases c with
  | accept a =>
    cases hn
    refine ⟨rfl, ?_⟩
    rw [Membership.apply, addNewPeer, startListening, modPeer_self, newPeer_self]
    exact ⟨rfl, rfl⟩
  | contact a =>
    cases hn
    refine ⟨rfl, ?_⟩
    rw [Membership.apply, addNewPeer, startListening, modPeer_self, setState,
      modPeer_of_ne (Nat.ne_of_gt hs.localPeer), newPeer_self]
    exact ⟨rfl, rfl⟩
  | notified groupId peerId pubK' a =>
    rw [newcomer] at hn
    split at hn
    · rename_i hg
      obtain ⟨g, hg⟩ := OrdMap.contains_iff.mp hg
      cases hn
      simp only [Membership.apply, hg]
      exact ⟨rfl, enrol_newcomer { m with joinToken := false } _ _ _⟩
    · cases hn
  | _ => cases hn

theorem apply_no_newcomer {m : Membership} (hs : m.Sound) {c : Change} (hc : m.Awaits c) (hn : m.newcomer c = none) :
    (m.apply c).peerCount = m.peerCount := by
  cases c with
  | accept a => cases hn
  | contact a => cases hn
  | notified groupId peerId pubK a =>
    rw [newcomer] at hn
    split at hn
    · cases hn
    · rename_i hg
      have hf : m.groups.find? groupId = none := OrdMap.not_contains_iff.mp (Bool.eq_false_iff.mpr hg)
      simp only [Membership.apply, hf]
  | request p id pubK port newId =>
    have hg : (m.greet p id pubK newId).peerCount = m.peerCount := by
      unfold greet
      split <;> rfl
    simp only [Membership.apply]
    split
    · rw [(answer_peer _ p).2.2, hg]
    · exact hg
  | channels peerId =>
    simp only [Membership.apply]
    split
    · rfl
    · cases hl : m.localGroup with
      | none => simp only [enterChannels, hl]
      | some l => rw [enterChannels_eq hl, modGroups_eq _ hs.values_nodup]
  | acked p groupId peerId pubK =>
    show (m.ackGroup groupId).2.peerCount = _
    unfold ackGroup
    split
    · rfl
    · split <;> rfl
  | ready => rw [(ready_entered m).rest]
  | completed p => exact (check_peer _).2.2
  | expired id =>
    simp only [Membership.apply]
    split
    · rfl
    · exact (check_peer _).2.2
  | readySent id =>
    simp only [Membership.apply]
    split <;> rfl
  | closed p =>
    have hr : ((m.stopListening p).remove p).peerCount = m.peerCount := by
      rw [remove_frame (hs.stopListening (hs.listening p hc)) p]
      rfl
    simp only [Membership.apply, reset]
    split
    · exact hr
    · exact hr
  | idle => rfl
  | unreached => rfl
  | failed p => rfl

/-- No operation changes the ID of a group. -/
theorem apply_groupId {m : Membership} (hs : m.Sound) {c : Change} (hc : m.Awaits c) (g : GroupRef) :
    ((m.apply c).group g).id = ((m.made c).group g).id := by
  have hP : Tends (m.apply c).getId m.localPeer (fun _ => True) fun x => x.id = ((m.made c).group g).id :=
    ⟨fun _ h => h, fun _ h => h, fun _ _ h => h, fun h => by rw [Group.updateNeighbours_id]; exact h⟩
  exact Tends.apply hs hc hP (fun _ _ => trivial) rfl

end Membership

namespace Network

variable [Platform]

/-- Peers are made of accepted connections and of the endpoints we connect to. -/
theorem change_newcomer (s : Network) (e : Event) : (s.newcomer (s.change e)).isSome ↔
    (∃ address, e = .accept address) ∨ (s.dials e).isSome := by
  cases e with
  | accept address => exact ⟨fun _ => Or.inl ⟨address, rfl⟩, fun _ => rfl⟩
  | join ip port reached => cases reached <;> simp [change, Membership.newcomer, dials]
  | read p received reached =>
    simp only [reduceCtorEq, exists_false, false_or]
    cases hm : parseMessage received with
    | error e => cases reached <;> simp [change, Membership.newcomer, dials, hm]
    | ok m =>
      by_cases hl : (s.findLog m).isSome = true
      · cases reached <;> simp [change, Membership.newcomer, dials, hm, hl]
      · have hc : s.change (.read p received reached) = s.messageChange m p reached := by
          simp only [change, hm, hl, Bool.false_eq_true, if_false]
        rw [hc]
        cases hp : m.payload with
        | joinNotif marker channel groupId peerId pubK ip port =>
          cases hack : s.acknowledges groupId channel with
          | false =>
            have hd : s.dials (.read p received reached) = none := by
              cases reached <;> simp [dials, hm, hl, hp, hack]
            rw [hd]
            simp only [messageChange, hp, hack, Bool.false_eq_true, if_false]
            split <;> simp [Membership.newcomer]
          | true =>
            have hg : s.groups.contains groupId = true := by
              rw [acknowledges, Bool.and_eq_true] at hack
              exact hack.1
            simp only [messageChange, hp, hack, if_true]
            cases reached with
            | none => simp [Membership.newcomer, dials]
            | some a => simp [Membership.newcomer, dials, hm, hl, hp, hack, hg]
        | _ =>
          have hd : s.dials (.read p received reached) = none := by
            cases reached <;> simp [dials, hm, hl, hp]
          rw [hd]
          simp [messageChange, hp, Membership.newcomer]
  | eof p => simp [change, Membership.newcomer, dials]
  | readError p => simp [change, Membership.newcomer, dials]
  | readyTimer id => simp [change, Membership.newcomer, dials]
  | joinTimer id => simp [change, Membership.newcomer, dials]
  | broadcast content => simp [change, Membership.newcomer, dials]
  | sendAll message => simp [change, Membership.newcomer, dials]

end Network

end RacKun
