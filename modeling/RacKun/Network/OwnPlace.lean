/-
  RacKun.Network.OwnPlace — the local peer in the rings of its own group.

  A ring has one place for a key, and takes anybody's word for his ID. So our place is
  taken by whoever announces our ID, and goes when he leaves; nothing else can take it
  (`Modest` says that nobody announces an ID that has our key in a ring).

  - `place_tends`: others leave our place alone.
  - `Seated.apply`: a step that leaves us ours.
-/

import RacKun.Network.Filing

namespace RacKun

open Lib (OrdMap)

open Scenario

namespace Membership

variable [Platform]

/-- In one of the rings this ID has our key. -/
def Poses (m : Membership) (id : Bytes) : Prop :=
  ∃ i < RINGS_NB, makeHash (id ++ itos i) = makeHash (m.getId m.localPeer ++ itos i)

/-- Nobody announces an ID that has our key. -/
def Modest (m : Membership) : Change → Prop
  | .request _ id _ _ _ => ¬ m.Poses id
  | .notified _ peerId _ _ => ¬ m.Poses peerId
  | .acked _ _ peerId _ => ¬ m.Poses peerId
  | _ => True

instance (m : Membership) (id : Bytes) : Decidable (m.Poses id) :=
  inferInstanceAs (Decidable (∃ i < RINGS_NB, _))

instance (m : Membership) : (c : Change) → Decidable (m.Modest c)
  | .request _ id _ _ _ => inferInstanceAs (Decidable (¬ m.Poses id))
  | .notified _ peerId _ _ => inferInstanceAs (Decidable (¬ m.Poses peerId))
  | .acked _ _ peerId _ => inferInstanceAs (Decidable (¬ m.Poses peerId))
  | .idle | .accept _ | .contact _ | .unreached | .channels _ | .ready | .completed _ | .expired _ | .readySent _ |
    .closed _ | .failed _ => inferInstanceAs (Decidable True)

/-- The group's rings have us in our place. -/
def HasPlace (ids : PeerRef → Bytes) (localPeer : PeerRef) (x : Group) : Prop :=
  ∀ r ∈ x.rings, r.ring.find? (r.createKey (ids localPeer)) = some localPeer

/-- Nobody else has our key, and we are in the rings of our group once we are connected. -/
structure Seated (m : Membership) : Prop where
  others : ∀ p, m.Remote p → ¬ m.Poses (m.getId p)
  peers : m.peers.find? (m.getId m.localPeer) = none
  place : m.localState = .connected → ∀ l, m.localGroup = some l → HasPlace m.getId m.localPeer (m.group l)

/-! ## Our place -/

/-- This peer does not get in our place, being ourselves or having other keys. -/
def Elsewhere (ids : PeerRef → Bytes) (localPeer p : PeerRef) : Prop :=
  p ≠ localPeer → ∀ i < RINGS_NB, makeHash (ids p ++ itos i) ≠ makeHash (ids localPeer ++ itos i)

theorem place_tends (ids : PeerRef → Bytes) (localPeer : PeerRef) :
    Tends ids localPeer (Elsewhere ids localPeer) (HasPlace ids localPeer) := by
  have add : ∀ {x : Group} {p : PeerRef}, Elsewhere ids localPeer p → HasPlace ids localPeer x →
      HasPlace ids localPeer (x.addToRings ids p) := by
    intro x p hp h r hr
    obtain ⟨r', hr', rfl⟩ := List.mem_map.mp hr
    show (r'.ring.insert (r'.createKey (ids p)) p).find? (r'.createKey (ids localPeer)) = some localPeer
    by_cases hl : p = localPeer
    · rw [hl, OrdMap.find_insert_self]
    · have hne : r'.createKey (ids localPeer) ≠ r'.createKey (ids p) := fun hk =>
        hp hl r'.index (Group.index_lt hr') hk.symm
      rw [OrdMap.find_insert_ne _ _ hne]
      exact h r' hr'
  refine ⟨add, fun {x p} hp h => add (x := { x with peers := x.peers.insertNew (ids p) p }) hp h, fun hp hl h => ?_,
    fun h => ?_⟩
  · intro r hr
    obtain ⟨r', hr', rfl⟩ := List.mem_map.mp hr
    show (r'.ring.erase _).find? (r'.createKey (ids localPeer)) = some localPeer
    have hne : r'.createKey (ids localPeer) ≠ r'.createKey (ids _) := fun hk =>
      hp hl r'.index (Group.index_lt hr') hk.symm
    rw [OrdMap.find_erase_ne _ hne]
    exact h r' hr'
  · rw [HasPlace, Group.updateNeighbours_rings]
    exact h

/-- A group that we enter. -/
theorem enter_place (ids : PeerRef → Bytes) (localPeer : PeerRef) (x : Group) :
    HasPlace ids localPeer (x.addToRings ids localPeer) := by
  intro r hr
  obtain ⟨r', -, rfl⟩ := List.mem_map.mp hr
  exact OrdMap.find_insert_self ..

/-! ## Steps -/

theorem Poses.congr {m n : Membership} (h : n.getId n.localPeer = m.getId m.localPeer) (id : Bytes) :
    n.Poses id ↔ m.Poses id := by
  rw [Poses, Poses, h]

/-- Others keep other keys. -/
theorem Modest.others {m : Membership} {c : Change} (ha : m.Modest c) (h : ∀ p, m.Remote p → ¬ m.Poses (m.getId p))
    (hs : m.Sound) (hc : m.Awaits c) (hown : ¬ m.Poses []) (p : PeerRef) (hp : (m.apply c).Remote p) :
    ¬ m.Poses ((m.apply c).getId p) := by
  obtain ⟨hlt, hne⟩ := hp
  rw [apply_localPeer hs hc] at hne
  rcases Nat.lt_or_ge p m.peerCount with hold | hnew
  · rcases apply_ids hs hc hold with hi | hn
    · rw [hi]
      exact h p ⟨hold, hne⟩
    · generalize (m.apply c).getId p = id at hn
      cases hn with
      | request pubK port newId => exact ha
      | acked groupId pubK => exact ha
  · rcases apply_makes hs hc with hcount | ⟨hcount, hid⟩
    · exact absurd hnew (Nat.not_le_of_lt (hcount ▸ hlt))
    · obtain rfl : p = m.peerCount := Nat.le_antisymm (Nat.le_of_lt_succ (Nat.lt_of_lt_of_eq hlt hcount)) hnew
      rcases hid with hid | ⟨groupId, peerId, pubK, address, rfl, hid⟩
      · rw [hid]
        exact hown
      · rw [hid]
        exact ha

theorem enter_hasPlace (ids : PeerRef → Bytes) (localPeer : PeerRef) (x : Group) :
    HasPlace ids localPeer (x.enter ids localPeer localPeer) := by
  rw [Group.enter, HasPlace, Group.updateNeighbours_rings]
  exact enter_place ids localPeer x

/-- READY connects us when it enters us in our group. -/
theorem ready_place {m : Membership} (hn : m.localState ≠ .connected)
    (hc : (m.apply .ready).localState = .connected) {l : GroupRef} (hl : m.localGroup = some l) :
    HasPlace m.getId m.localPeer ((m.apply .ready).group l) := by
  suffices h : m.Entered (m.apply .ready) ∧ ((m.apply .ready).localState = .connected →
      HasPlace m.getId m.localPeer ((m.apply .ready).group l)) from h.2 hc
  refine List.foldlRecOn (motive := fun n => m.Entered n ∧ (n.localState = .connected →
    HasPlace m.getId m.localPeer (n.group l))) m.groups.values readyOne ⟨Entered.refl m, fun h => absurd h hn⟩ ?_
  rintro n ⟨he, hplace⟩ g -
  have hlp : n.localPeer = m.localPeer := by rw [he.rest]
  have hlg : n.localGroup = some l := by rw [he.rest, hl]
  simp only [readyOne, hlg, enterRings, hlp]
  split
  · rename_i hid
    refine ⟨he.enter g, fun hst => ?_⟩
    have hne : l ≠ g := fun hlg => hid (hlg ▸ rfl)
    rw [enter_eq, modGroup_of_ne hne]
    exact hplace hst
  · split
    · refine ⟨(he.setLocalState .connected).enter l, fun _ => ?_⟩
      rw [enter_eq, modGroup_self, (he.setLocalState .connected).ids]
      have hlp' : (n.setState m.localPeer .connected).localPeer = m.localPeer := hlp
      rw [hlp']
      exact enter_hasPlace m.getId m.localPeer _
    · exact ⟨he, hplace⟩

/-- In a step in which nobody poses as us, we keep our place. -/
theorem Seated.apply {m : Membership} {c : Change} (h : m.Seated) (ha : m.Modest c) (hs : m.Sound) (hc : m.Awaits c)
    (hown : ¬ m.Poses []) : (m.apply c).Seated := by
  have hlp := apply_localPeer hs hc
  have hid : (m.apply c).getId (m.apply c).localPeer = m.getId m.localPeer := apply_author hs hc
  have hself : (m.apply c).getId m.localPeer = m.getId m.localPeer := hlp ▸ hid
  have others := ha.others h.others hs hc hown
  have hnext := hs.apply hc
  have hok : ∀ p, p < (m.apply c).peerCount → Elsewhere (m.apply c).getId m.localPeer p := by
    intro p hp hne i hi hk
    rw [hself] at hk
    exact others p ⟨hp, hlp ▸ hne⟩ ⟨i, hi, hk⟩
  have tends : ∀ g, HasPlace (m.apply c).getId m.localPeer ((m.made c).group g) →
      HasPlace (m.apply c).getId m.localPeer ((m.apply c).group g) := fun g =>
    (place_tends (m.apply c).getId m.localPeer).apply hs hc hok
  refine ⟨fun p hp => (Poses.congr hid _).not.mpr (others p hp), ?_, fun hst l hl => ?_⟩
  · rw [hid]
    refine Option.eq_none_iff_forall_ne_some.mpr fun p hp => ?_
    rcases apply_peers hs hc hp with hold | hnew
    · rw [h.peers] at hold
      cases hold
    · exact others p (hnext.peers _ p hp) ⟨0, by decide, by rw [hnew]⟩
  · rw [hlp]
    rcases Classical.em (m.localState = .connected) with hcon | hncon
    · -- connected before: the group is the same, and others leave our place alone
      have hsame : m.localGroup = some l := by
        have hre := apply_regroups hs hc
        rw [hl] at hre
        generalize hlg : some l = x at hre
        generalize (m.apply c).groups = gs at hre
        cases hre with
        | same => rfl
        | founded p id pubK port newId hn => exact absurd hcon hn
        | joined p groupId peerId pubK hn hg => exact absurd hcon (hs.alone hn).2.2
        | entered p groupId peerId pubK hn hg => rfl
        | cleared p hp hn => cases hlg
      refine tends _ ?_
      rw [made_old (hs.localGroup l hsame)]
      intro r hr
      rw [hself]
      exact h.place hcon l hsame r hr
    · have hturn := apply_localState hs hc
      rw [hst] at hturn
      generalize hstate : PeerState.connected = st at hturn
      cases hturn with
      | same => exact absurd hstate.symm hncon
      | contact => cases hstate
      | cleared => cases hstate
      | request p id pubK port newId =>
        obtain rfl : m.groupCount = l :=
          Option.some.inj ((request_founds hncon p id pubK port newId).1.symm.trans hl)
        refine tends _ ?_
        simp only [made, if_pos hncon]
        rw [found_group, if_pos rfl]
        intro r hr
        rw [hself]
        exact enter_place m.getId m.localPeer _ r hr
      | ready =>
        have hsame : m.localGroup = some l := by
          rw [← hl, (ready_entered m).rest]
        have hplace := ready_place hncon hst hsame
        rw [← (ready_entered m).ids] at hplace
        exact hplace

end Membership

namespace Network

variable [Platform]

/-- In a run where nobody announces an ID that has our key, a connected node is in all rings
    of its group, and no peer of its is filed under its ID. -/
theorem local_in_place {s : Network} (hs : Reach (fun s e => s.Modest (s.change e)) s) (hown : ¬ s.Poses [])
    (hc : s.localState = .connected) : ∃ l, s.localGroup = some l ∧
      (∀ r ∈ (s.group l).rings, r.ring.find? (r.createKey (s.getId s.localPeer)) = some s.localPeer) ∧
        s.peers.find? (s.getId s.localPeer) = none := by
  have h : ¬ s.Poses [] → s.Seated := by
    refine hs.membership (I := fun m => ¬ m.Poses [] → m.Seated)
      (fun id pubK port clock hown => ⟨fun p hp => ?_, rfl, fun hc => ?_⟩) fun s e hr h he ha hown => ?_
    · obtain ⟨hlt, hne⟩ := hp
      exact absurd (Nat.lt_one_iff.mp hlt) hne
    · cases hc
    · have hown : ¬ s.Poses [] := fun hp =>
        hown ((Membership.Poses.congr (Membership.apply_author hr.sound (change_awaits he)) _).mpr hp)
      exact (h hown).apply ha hr.sound (change_awaits he) hown
  obtain ⟨l, hl⟩ := Option.ne_none_iff_exists'.mp fun hn => (hs.sound.alone hn).2.2 hc
  exact ⟨l, hl, (h hown).place hc l hl, (h hown).peers⟩

omit [Platform] in
/-- A peer joins us, and a stranger who has only connected leaves. -/
theorem local_in_place_left : ∃ s, @Reach sha1 (fun s e => @Membership.Modest sha1 s.toMembership (@change sha1 s e)) s ∧
    s.localState = .connected ∧ s.peers.size = 1 ∧ ∃ l, s.localGroup = some l ∧
      ∀ r ∈ (s.group l).rings, r.ring.find? (@Ring.createKey sha1 r (s.getId s.localPeer)) = some s.localPeer := by
  have hrun : @leadsTo sha1 (fun s e => @Membership.Modest sha1 s.toMembership (@change sha1 s e)) _ node
      [.accept [9], .read 1 (request 65) none, .accept [8], .eof 2]
      (fun s => decide (s.localState = .connected ∧ s.peers.size = 1 ∧
        ¬ @Membership.Poses sha1 s.toMembership [])) = true := by
    decide +kernel
  obtain ⟨s, hs, ht⟩ := @reach_of_leadsTo sha1 _ _ _ _ _ _ _ _ hrun
  obtain ⟨hc, hp, hown⟩ := of_decide_eq_true ht
  obtain ⟨l, hl, hr, -⟩ := @local_in_place sha1 s hs hown hc
  exact ⟨s, hs, hc, hp, l, hl, hr⟩

omit [Platform] in
/-- A peer announces our own ID, and leaves while another one is connecting. -/
theorem local_lost : ¬ ∀ s, @Reachable sha1 s → s.localState = .connected → ∃ l, s.localGroup = some l ∧
    (∀ r ∈ (s.group l).rings, r.ring.find? (@Ring.createKey sha1 r (s.getId s.localPeer)) = some s.localPeer) ∧
      s.peers.find? (s.getId s.localPeer) = none := by
  intro hall
  have hrun : @leadsTo sha1 (fun _ _ => True) _ node
      [.accept [9], .accept [8], .read 1 (request 0) none, .eof 1]
      (fun s => decide (s.localState = .connected ∧ s.localGroup = some 0 ∧ ∀ r ∈ (s.group 0).rings,
        r.ring.find? (@Ring.createKey sha1 r (s.getId s.localPeer)) = none)) = true := by
    decide +kernel
  obtain ⟨s, hs, ht⟩ := @reach_of_leadsTo sha1 _ _ _ _ _ _ _ _ hrun
  obtain ⟨hc, hl, hr⟩ := of_decide_eq_true ht
  obtain ⟨l, hl', hplace, -⟩ := hall s hs hc
  cases hl.symm.trans hl'
  obtain ⟨r, hmem, -⟩ := (s.group 0).ring_at (i := 0) (by decide)
  cases (hr r hmem).symm.trans (hplace r hmem)

end Network

end RacKun
