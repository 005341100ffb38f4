/-
  RacKun.Network.Removal — what else goes when a connection closes, and what stays.

  `handle_disconnect` erases by ID or by address, never by connection. So an entry goes
  that is filed under the same ID or address and holds somebody else, and an entry stays
  that holds the peer and is filed elsewhere; who is registered is not looked for among
  the pending, and the other way round (`Alone` says when none of this matters).

  - `Group.leave_sole`: when a group loses the peer and nothing else.
  - `remove_removes`: when the node does.
-/

import RacKun.Network.Disconnect
import RacKun.Network.Requests
import RacKun.Network.Token

namespace RacKun

open Lib (OrdMap)

open Scenario

/-! ## One group -/

namespace Group

instance (g : Group) (p : PeerRef) : Decidable (g.Gone p) :=
  decidable_of_iff (p ∉ g.peers.values ∧ (∀ r ∈ g.rings, p ∉ r.ring.values) ∧ p ∉ g.predecessors.values ∧
    p ∉ g.successors.values) ⟨fun h => ⟨h.1, h.2.1, h.2.2.1, h.2.2.2⟩, fun h => ⟨h.1, h.2, h.3, h.4⟩⟩

variable [Platform] (getId : PeerRef → Bytes)

/-- Others keep their entries, the cached neighbours apart where they are recomputed. -/
structure Spares (localPeer p : PeerRef) (g g' : Group) : Prop where
  peers : ∀ e ∈ g.peers.entries, e.2 ≠ p → e ∈ g'.peers.entries
  rings : ∀ r ∈ g.rings, ∀ e ∈ r.ring.entries, e.2 ≠ p → ∃ r' ∈ g'.rings, r'.index = r.index ∧ e ∈ r'.ring.entries
  neighbours : g'.predecessors = g.predecessors ∧ g'.successors = g.successors ∨ g'.Fresh getId localPeer

/-- The peer is entered under the ID he has now and no other, and nobody else is. -/
def Sole (g : Group) (p : PeerRef) : Prop :=
  g.peers.Sole (getId p) p ∧ ∀ r ∈ g.rings, r.ring.Sole (r.createKey (getId p)) p

instance (g : Group) (p : PeerRef) : Decidable (g.Sole getId p) := inferInstanceAs (Decidable (_ ∧ _))

variable {getId}

theorem Spares.refl (localPeer p : PeerRef) (g : Group) : g.Spares getId localPeer p g :=
  ⟨fun _ he _ => he, fun r hr _ he _ => ⟨r, hr, rfl, he⟩, Or.inl ⟨rfl, rfl⟩⟩

theorem Sole.filed {g : Group} {p : PeerRef} (h : g.Sole getId p) : g.Filed getId p :=
  ⟨fun e he => (h.1 e he).mpr, fun r hr e he => (h.2 r hr e he).mpr⟩

/-- A group from which the entries under the peer's ID have been erased. -/
theorem erased_sole {g g' : Group} {localPeer p : PeerRef} (hp : g'.peers = g.peers.erase (getId p))
    (hr : g'.rings = g.rings.map (·.removePeer getId p))
    (hn : g'.predecessors = g.predecessors ∧ g'.successors = g.successors ∨ g'.Fresh getId localPeer) :
    g'.Gone p ∧ g.Spares getId localPeer p g' ↔
      g.Sole getId p ∧ p ∉ g'.predecessors.values ∧ p ∉ g'.successors.values := by
  constructor
  · rintro ⟨hg, hs⟩
    have keys : ∀ r ∈ g.rings, r.ring.Sole (r.createKey (getId p)) p := by
      intro r hm
      have hgone : p ∉ (r.ring.erase (r.createKey (getId p))).values := hg.rings _ (hr ▸ List.mem_map_of_mem hm)
      refine OrdMap.erase_sole.mp ⟨hgone, fun e he hne => ?_⟩
      obtain ⟨r', hm', hi, he'⟩ := hs.rings r hm e he hne
      rw [hr] at hm'
      obtain ⟨r'', -, rfl⟩ := List.mem_map.mp hm'
      have hi : r''.index = r.index := hi
      have hkey : r''.createKey (getId p) = r.createKey (getId p) := by rw [Ring.createKey, hi, Ring.createKey]
      exact OrdMap.mem_erase.mpr ⟨he, hkey ▸ (OrdMap.mem_erase.mp he').2⟩
    refine ⟨⟨OrdMap.erase_sole.mp ⟨hp ▸ hg.peers, fun e he hne => hp ▸ hs.peers e he hne⟩, keys⟩, hg.predecessors,
      hg.successors⟩
  · rintro ⟨⟨hps, hrs⟩, hpreds, hsuccs⟩
    have gone : ∀ r ∈ g'.rings, p ∉ r.ring.values := by
      intro r hm
      rw [hr] at hm
      obtain ⟨r', hm', rfl⟩ := List.mem_map.mp hm
      exact (OrdMap.erase_sole.mpr (hrs r' hm')).1
    refine ⟨⟨hp ▸ (OrdMap.erase_sole.mpr hps).1, gone, hpreds, hsuccs⟩, ?_, fun r hm e he hne => ?_, hn⟩
    · rw [hp]
      exact (OrdMap.erase_sole.mpr hps).2
    · exact ⟨r.removePeer getId p, hr ▸ List.mem_map_of_mem hm, rfl, (OrdMap.erase_sole.mpr (hrs r hm)).2 e he hne⟩

/-- The peer leaves, and the neighbours are updated. -/
theorem leave_sole {g : Group} {localPeer p : PeerRef} : (g.leave getId localPeer p).Gone p ∧
    g.Spares getId localPeer p (g.leave getId localPeer p) ↔ g.Sole getId p := by
  have h : (g.leave getId localPeer p).Gone p ∧ g.Spares getId localPeer p (g.leave getId localPeer p) ↔ _ :=
    erased_sole (updateNeighbours_peers _ _) (updateNeighbours_rings _ _) (Or.inr (updateNeighbours_fresh _ _))
  refine h.trans ⟨And.left, fun h => ⟨h, ?_⟩⟩
  have hg : (g.leave getId localPeer p).Gone p := gone_iff.mpr h.filed
  exact ⟨hg.predecessors, hg.successors⟩

/-- The peer is removed, and the neighbours stay as they are. -/
theorem removePeer_sole {g : Group} {localPeer p : PeerRef} : (g.removePeer getId p).2.Gone p ∧
    g.Spares getId localPeer p (g.removePeer getId p).2 ↔
      g.Sole getId p ∧ p ∉ g.predecessors.values ∧ p ∉ g.successors.values :=
  erased_sole rfl rfl (Or.inl ⟨rfl, rfl⟩)

end Group

/-! ## The node -/

namespace Membership

variable [Platform]

/-- No structure holds the peer, and others keep their entries, unless nobody is left and
    the groups are cleared. -/
structure Removes (m : Membership) (p : PeerRef) (n : Membership) : Prop where
  gonePeers : p ∉ n.peers.values
  goneNewPeers : ∀ e ∈ n.newPeers.entries, e.2.1 ≠ some p
  goneGroups : ∀ g ∈ n.held, (n.group g).Gone p
  peers : ∀ e ∈ m.peers.entries, e.2 ≠ p → e ∈ n.peers.entries
  newPeers : ∀ e ∈ m.newPeers.entries, ∀ q ∈ e.2.1, q ≠ p → e ∈ n.newPeers.entries
  groups : (n.peers = ∅ ∧ n.newPeers = ∅) ∨
    ∀ g ∈ m.held, g ∈ n.held ∧ (m.group g).Spares n.getId n.localPeer p (n.group g)

/-- Nobody but this peer is registered, and nobody is pending but him, if he is not
    registered. -/
def Last (m : Membership) (p : PeerRef) : Prop :=
  (∀ e ∈ m.peers.entries, e.1 = m.getId p) ∧
    ∀ e ∈ m.newPeers.entries, m.peers.contains (m.getId p) = false ∧ e.1 = (m.peer p).address

/-- A group that the handler clears of this peer, and of nobody else. -/
def Parts (m : Membership) (p : PeerRef) (g : GroupRef) : Prop :=
  if m.peers.contains (m.getId p) then ∀ l ∈ m.localGroup,
    if m.leaves l p g then (m.group g).Sole m.getId p
    else if g = l then (m.group g).Sole m.getId p ∧ p ∉ (m.group g).predecessors.values ∧ p ∉ (m.group g).successors.values
    else (m.group g).Gone p
  else (m.group g).Gone p

/-- The peer is filed alone wherever the handler looks for him, and nowhere else. -/
structure Alone (m : Membership) (p : PeerRef) : Prop where
  peers : m.peers.Sole (m.getId p) p
  newPeers : ∀ e ∈ m.newPeers.entries, ∀ q ∈ e.2.1,
    if m.peers.contains (m.getId p) then q ≠ p else e.1 = (m.peer p).address → q = p
  groups : m.Last p ∨ ∀ g ∈ m.held, m.Parts p g

instance (m : Membership) (p : PeerRef) : Decidable (m.Last p) := inferInstanceAs (Decidable (_ ∧ _))

instance (m : Membership) (p : PeerRef) (g : GroupRef) : Decidable (m.Parts p g) := by
  unfold Parts
  infer_instance

instance (m : Membership) (p : PeerRef) : Decidable (m.Alone p) :=
  decidable_of_iff (m.peers.Sole (m.getId p) p ∧ (∀ e ∈ m.newPeers.entries, ∀ q ∈ e.2.1,
    if m.peers.contains (m.getId p) then q ≠ p else e.1 = (m.peer p).address → q = p) ∧
      (m.Last p ∨ ∀ g ∈ m.held, m.Parts p g)) ⟨fun h => ⟨h.1, h.2.1, h.2.2⟩, fun h => ⟨h.1, h.2, h.3⟩⟩

/-! ### What the handler finds -/

omit [Platform] in
theorem last_iff {m n : Membership} {p : PeerRef} (hp : n.peers = m.peers.erase (m.getId p)) (hn : n.newPeers =
    if m.peers.contains (m.getId p) then m.newPeers else m.newPeers.erase (m.peer p).address) :
    n.peers = ∅ ∧ n.newPeers = ∅ ↔ m.Last p := by
  have empty : ∀ {κ α : Type} [LinearOrder κ] (t : OrdMap κ α), t = ∅ ↔ ∀ e, e ∉ t.entries := by
    intro κ α _ t
    rw [← OrdMap.size_eq_zero, OrdMap.size, List.length_eq_zero_iff, List.eq_nil_iff_forall_not_mem]
  rw [Last, empty, empty, hp, hn]
  refine and_congr (forall_congr' fun e => ?_) (forall_congr' fun e => ?_)
  · rw [OrdMap.mem_erase, not_and, not_not]
  · cases m.peers.contains (m.getId p) with
    | true => simp
    | false => simp [OrdMap.mem_erase]

omit [Platform] in
/-- The table of pending peers is cleared of this peer, and of nobody else. -/
theorem table_removes {m : Membership} (hk : m.Kempt) {p : PeerRef} {table : OrdMap Bytes (Option PeerRef × Port)}
    (hn : table = if m.peers.contains (m.getId p) then m.newPeers else m.newPeers.erase (m.peer p).address) :
    ((∀ e ∈ table.entries, e.2.1 ≠ some p) ∧
      ∀ e ∈ m.newPeers.entries, ∀ q ∈ e.2.1, q ≠ p → e ∈ table.entries) ↔
    ∀ e ∈ m.newPeers.entries, ∀ q ∈ e.2.1,
      if m.peers.contains (m.getId p) then q ≠ p else e.1 = (m.peer p).address → q = p := by
  rw [hn]
  cases hc : m.peers.contains (m.getId p) with
  | true =>
    simp only [if_true]
    refine ⟨fun h e he q hq hqp => h.1 e he (hqp ▸ hq), fun h => ⟨fun e he hep => h e he p hep rfl, ?_⟩⟩
    exact fun e he _ _ _ => he
  | false =>
    simp only [Bool.false_eq_true, if_false]
    constructor
    · intro h e he q hq hek
      by_contra hne
      exact (OrdMap.mem_erase.mp (h.2 e he q hq hne)).2 hek
    · intro h
      refine ⟨fun e he hep => ?_, fun e he q hq hne => OrdMap.mem_erase.mpr ⟨he, fun hek => hne (h e he q hq hek)⟩⟩
      obtain ⟨he, hne⟩ := OrdMap.mem_erase.mp he
      obtain ⟨address, q, port⟩ := e
      cases hep
      exact hne (hk.keyed address p port (OrdMap.mem_entries.mp he)).symm

/-- A group after the disconnection. -/
theorem group_removes {m : Membership} (hs : m.Sound) (p : PeerRef) (g : GroupRef) :
    ((m.remove p).group g).Gone p ∧ (m.group g).Spares m.getId m.localPeer p ((m.remove p).group g) ↔ m.Parts p g := by
  unfold Parts
  cases hc : m.peers.contains (m.getId p) with
  | false =>
    have hr : (m.remove p).group g = m.group g := by rw [remove, if_neg (by simp [hc])]
    rw [hr]
    exact ⟨And.left, fun h => ⟨h, .refl _ _ _⟩⟩
  | true =>
    obtain ⟨l, hl⟩ := hs.localGroup_of_peers hc
    rw [remove_eq hs hl hc]
    simp only [hl, Option.mem_some_iff, forall_eq', if_true]
    split
    · exact Group.leave_sole
    · split
      · exact Group.removePeer_sole
      · exact ⟨And.left, fun h => ⟨h, .refl _ _ _⟩⟩

omit [Platform] in
theorem last_stopListening {m : Membership} {p : PeerRef} : (m.stopListening p).Last p ↔ m.Last p := by
  rw [Last, Last, stopListening_getId, (stopListening_stays m p p).address]
  rfl

theorem parts_stopListening {m : Membership} {p : PeerRef} {g : GroupRef} :
    (m.stopListening p).Parts p g ↔ m.Parts p g := by
  simp only [Parts, leaves_stopListening, stopListening_getId]
  rfl

theorem alone_stopListening {m : Membership} {p : PeerRef} : (m.stopListening p).Alone p ↔ m.Alone p := by
  have hids := m.stopListening_getId p
  have haddr := (stopListening_stays m p p).address
  constructor
  · rintro ⟨hp, hn, hg⟩
    rw [hids] at hp
    rw [hids, haddr] at hn
    exact ⟨hp, hn, hg.imp last_stopListening.mp fun hg g hm => parts_stopListening.mp (hg g hm)⟩
  · rintro ⟨hp, hn, hg⟩
    refine ⟨?_, ?_, hg.imp last_stopListening.mpr fun hg g hm => parts_stopListening.mpr (hg g hm)⟩
    · rw [hids]
      exact hp
    · rw [hids, haddr]
      exact hn

theorem remove_removes {m : Membership} (hs : m.Sound) (hk : m.Kempt) (p : PeerRef) :
    m.Removes p (m.remove p).reset ↔ m.Alone p := by
  have hframe := remove_frame hs p
  have hids : (m.remove p).getId = m.getId := by rw [hframe]; rfl
  have hlocal : (m.remove p).localPeer = m.localPeer := by rw [hframe]
  have hheld : (m.remove p).held = m.held := by rw [hframe]; rfl
  have hp := remove_peers hs p
  have hn := remove_newPeers hs p
  have hlast := last_iff hp hn
  have peers : p ∉ (m.remove p).peers.values ∧ (∀ e ∈ m.peers.entries, e.2 ≠ p → e ∈ (m.remove p).peers.entries) ↔
      m.peers.Sole (m.getId p) p := by
    rw [hp]
    exact OrdMap.erase_sole
  have table := table_removes hk hn
  unfold reset
  split
  · rename_i hz
    have hz : (m.remove p).peers = ∅ ∧ (m.remove p).newPeers = ∅ :=
      ⟨OrdMap.size_eq_zero.mp hz.1, OrdMap.size_eq_zero.mp hz.2⟩
    constructor
    · intro h
      exact ⟨peers.mp ⟨h.gonePeers, h.peers⟩, table.mp ⟨h.goneNewPeers, h.newPeers⟩, Or.inl (hlast.mp hz)⟩
    · intro h
      obtain ⟨h₁, h₂⟩ := peers.mpr h.peers
      obtain ⟨h₃, h₄⟩ := table.mpr h.newPeers
      exact ⟨h₁, h₃, fun g hg => (by cases hg), h₂, h₄, Or.inl hz⟩
  · rename_i hz
    have hz : ¬ ((m.remove p).peers = ∅ ∧ (m.remove p).newPeers = ∅) := fun h =>
      hz ⟨OrdMap.size_eq_zero.mpr h.1, OrdMap.size_eq_zero.mpr h.2⟩
    constructor
    · intro h
      refine ⟨peers.mp ⟨h.gonePeers, h.peers⟩, table.mp ⟨h.goneNewPeers, h.newPeers⟩, Or.inr fun g hg => ?_⟩
      have hsp := (h.groups.resolve_left hz g hg).2
      rw [hids, hlocal] at hsp
      exact (group_removes hs p g).mp ⟨h.goneGroups g (hheld ▸ hg), hsp⟩
    · intro h
      obtain ⟨h₁, h₂⟩ := peers.mpr h.peers
      obtain ⟨h₃, h₄⟩ := table.mpr h.newPeers
      have groups := h.groups.resolve_left fun h => hz (hlast.mpr h)
      refine ⟨h₁, h₃, fun g hg => ((group_removes hs p g).mpr (groups g (hheld ▸ hg))).1, h₂, h₄, Or.inr fun g hg => ?_⟩
      rw [hids, hlocal, hheld]
      exact ⟨hg, ((group_removes hs p g).mpr (groups g hg)).2⟩

end Membership

namespace Network

variable [Platform]

/-- A disconnection removes the connection that closed, and nothing else, exactly when it is
    filed alone where the handler looks for it. -/
theorem removes_iff {s s' : Network} (hs : Reachable s) {p : PeerRef} {rounds : Nat} (he : s.Enabled (.eof p))
    (h : handle rounds s (.eof p) = .ok s') : s.toMembership.Removes p s'.toMembership ↔ s.toMembership.Alone p := by
  have hsound : (s.stopListening p).Sound := hs.sound.stopListening (hs.sound.listening p he)
  have hkempt : (s.stopListening p).Kempt := Membership.Kempt.apply hs.kempt hs.sound (c := .failed p) he
  rw [handleDisconnect_membership h, ← Membership.alone_stopListening, ← Membership.remove_removes hsound hkempt p]
  exact ⟨fun h => ⟨h.1, h.2, h.3, h.4, h.5, h.6⟩, fun h => ⟨h.1, h.2, h.3, h.4, h.5, h.6⟩⟩

omit [Platform] in
/-- A member of the group disconnects while a connection is pending. -/
theorem removes_iff_pending : ∃ s s' rounds, @Reachable sha1 s ∧ @handle sha1 rounds s (.eof 1) = .ok s' ∧
    1 ∈ s.peers.values ∧ s.newPeers.size = 1 ∧ @Membership.Removes sha1 s.toMembership 1 s'.toMembership := by
  have hrun : @leadsTo sha1 (fun _ _ => True) _ node
      [.accept [9], .accept [8], .read 1 (request 65) none, .read 2 (request 66) none] (fun s =>
      decide (s.Enabled (.eof 1) ∧ (s.stopListening 1).Ends 1 ∧ 1 ∈ s.peers.values ∧ s.newPeers.size = 1 ∧
        @Membership.Alone sha1 s.toMembership 1)) = true := by
    decide +kernel
  obtain ⟨s, hs, ht⟩ := @reach_of_leadsTo sha1 _ _ _ _ _ _ _ _ hrun
  obtain ⟨he, hends, hp, hn, ha⟩ := of_decide_eq_true ht
  have hsound := @Reach.sound sha1 _ _ hs
  obtain ⟨rounds, s', h⟩ := (@handleDisconnect_ends sha1 { s with toMembership := s.stopListening 1 }
    (hsound.stopListening (hsound.listening 1 he)) 1).mpr hends
  exact ⟨s, s', rounds, hs, h, hp, hn, (@removes_iff sha1 s s' hs 1 rounds he h).mpr ha⟩

omit [Platform] in
/-- Two connections from one address: the first closes, and the entry of the second goes. -/
theorem disconnect_erases_other : ¬ ∀ s s' p rounds, @Reachable sha1 s → s.Enabled (.eof p) →
    @handle sha1 rounds s (.eof p) = .ok s' → @Membership.Removes sha1 s.toMembership p s'.toMembership := by
  intro hall
  have hrun : @leadsTo sha1 (fun _ _ => True) _ node [.accept [9], .accept [9]] (fun s =>
      decide (s.Enabled (.eof 1) ∧ (s.stopListening 1).Ends 1 ∧ ([9], some 2, 0) ∈ s.newPeers.entries ∧
        ([9], some 2, 0) ∉ (@Membership.remove sha1 (s.stopListening 1) 1).reset.newPeers.entries)) = true := by
    decide +kernel
  obtain ⟨s, hs, ht⟩ := @reach_of_leadsTo sha1 _ _ _ _ _ _ _ _ hrun
  obtain ⟨he, hends, hm, hn⟩ := of_decide_eq_true ht
  have hsound := @Reach.sound sha1 _ _ hs
  obtain ⟨rounds, s', h⟩ := (@handleDisconnect_ends sha1 { s with toMembership := s.stopListening 1 }
    (hsound.stopListening (hsound.listening 1 he)) 1).mpr hends
  have hr := hall s s' 1 rounds hs he h
  rw [@handleDisconnect_membership sha1 _ _ _ _ h] at hr
  exact hn (@Membership.Removes.newPeers sha1 _ _ _ hr _ hm 2 rfl (by decide))

end Network

end RacKun
