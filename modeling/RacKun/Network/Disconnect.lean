/-
  RacKun.Network.Disconnect — what `handle_disconnect` does with a peer who is not a
  member of our group.

  The search over the groups never moves its iterator, so it looks at the first group of
  the map only: it ends when the peer is a member of it, and runs forever when he is
  not. Members of a group are known by the ID they have now; one who has changed it stays
  where he was entered under the old one.

  - `gone_iff`: when `remove_peer` and the update leave no trace of the peer.
  - `handleDisconnect_ends`: when the handler returns.
-/

import RacKun.Network.Groups

namespace RacKun

open Lib (OrdMap bind_ok pure_ok ok_bind)

open Scenario

namespace Group

/-- No trace of the peer in the group. -/
structure Gone (g : Group) (p : PeerRef) : Prop where
  peers : p ∉ g.peers.values
  rings : ∀ r ∈ g.rings, p ∉ r.ring.values
  predecessors : p ∉ g.predecessors.values
  successors : p ∉ g.successors.values

variable [Platform] (getId : PeerRef → Bytes)

/-- The peer is entered under the ID he has now, and no other. -/
def Filed (g : Group) (p : PeerRef) : Prop :=
  (∀ e ∈ g.peers.entries, e.2 = p → e.1 = getId p) ∧
    ∀ r ∈ g.rings, ∀ e ∈ r.ring.entries, e.2 = p → e.1 = r.createKey (getId p)

instance (g : Group) (p : PeerRef) : Decidable (g.Filed getId p) := inferInstanceAs (Decidable (_ ∧ _))

variable {getId}

/-- Who was filed under his present ID is gone once he has left. -/
theorem gone_iff {g : Group} {localPeer p : PeerRef} : (g.leave getId localPeer p).Gone p ↔ g.Filed getId p := by
  have hp : (g.leave getId localPeer p).peers = g.peers.erase (getId p) := updateNeighbours_peers _ _
  have hr : (g.leave getId localPeer p).rings = g.rings.map (·.removePeer getId p) := updateNeighbours_rings _ _
  constructor
  · intro h
    refine ⟨OrdMap.not_mem_values_erase.mp (hp ▸ h.peers), fun r hm => ?_⟩
    exact OrdMap.not_mem_values_erase.mp (h.rings _ (hr ▸ List.mem_map_of_mem hm))
  · rintro ⟨h₁, h₂⟩
    have rings : ∀ r ∈ g.rings.map (·.removePeer getId p), p ∉ r.ring.values := by
      intro r hm
      obtain ⟨r', hm', rfl⟩ := List.mem_map.mp hm
      exact OrdMap.not_mem_values_erase.mpr (h₂ r' hm')
    have none : ¬ ∃ r ∈ (g.removePeer getId p).2.rings, p ∈ r.ring.values := fun ⟨r, hm, hq⟩ => rings r hm hq
    exact ⟨hp ▸ OrdMap.not_mem_values_erase.mpr h₁, fun r hm => rings r (hr ▸ hm),
      fun h => none (updateNeighbours_mem (Or.inl h)),
      fun h => none (updateNeighbours_mem (Or.inr h))⟩

end Group

namespace Membership

/-- The disconnection is handled to the end: the peer is not registered, or he is a
    member of our group, or of the first group, if there is one. -/
def Ends (m : Membership) (p : PeerRef) : Prop :=
  m.peers.contains (m.getId p) = true → ∀ l ∈ m.localGroup, (m.group l).peers.contains (m.getId p) = true ∨
    ∀ g ∈ m.groups.values.head?, (m.group g).peers.contains (m.getId p) = true

instance (m : Membership) (p : PeerRef) : Decidable (m.Ends p) := by
  unfold Ends
  infer_instance

variable [Platform]

/-- It ends, and every other group the peer was a member of is one he leaves, being
    filed under his present ID. -/
def LeavesClean (m : Membership) (p : PeerRef) : Prop :=
  m.Ends p ∧ ∀ e ∈ m.groups.entries, m.localGroup ≠ some e.2 → p ∈ (m.group e.2).peers.values →
    m.peers.contains (m.getId p) = true ∧ (∀ l ∈ m.localGroup, m.leaves l p e.2) ∧ (m.group e.2).Filed m.getId p

instance (m : Membership) (p : PeerRef) : Decidable (m.LeavesClean p) := by
  unfold LeavesClean
  infer_instance

omit [Platform] in
theorem ends_stopListening {m : Membership} {p : PeerRef} : (m.stopListening p).Ends p ↔ m.Ends p := by
  simp only [Ends, stopListening_getId]
  rfl

omit [Platform] in
theorem reset_group (m : Membership) (g : GroupRef) : m.reset.group g = m.group g := by
  rw [reset_frame]

/-- When a removed peer is gone from a group that is not ours. -/
theorem remove_gone {m : Membership} (hs : m.Sound) {g : GroupRef} (hg : m.localGroup ≠ some g) {p : PeerRef}
    (hp : p ∈ (m.group g).peers.values) : ((m.remove p).group g).Gone p ↔
      m.peers.contains (m.getId p) = true ∧ (∀ l ∈ m.localGroup, m.leaves l p g) ∧ (m.group g).Filed m.getId p := by
  have stays : ¬ (m.group g).Gone p := fun h => h.peers hp
  cases hc : m.peers.contains (m.getId p) with
  | false =>
    have hr : (m.remove p).group g = m.group g := by rw [remove, if_neg (by simp [hc])]
    rw [hr]
    exact ⟨fun h => absurd h stays, fun h => absurd h.1 Bool.false_ne_true⟩
  | true =>
    obtain ⟨l, hl⟩ := hs.localGroup_of_peers hc
    have hne : g ≠ l := fun h => hg (h ▸ hl)
    rw [remove_eq hs hl hc]
    simp only [hl, Option.mem_some_iff, forall_eq', true_and, if_neg hne]
    split
    · rename_i hv
      rw [Group.gone_iff]
      exact ⟨fun h => ⟨hv, h⟩, And.right⟩
    · rename_i hv
      exact ⟨fun h => absurd h stays, fun h => absurd h.1 hv⟩

end Membership

namespace Network

variable [Platform]

theorem leaveGroups_ours {s : Network} {l : GroupRef} {p : PeerRef} (hl : s.localGroup = some l)
    (hr : (s.removePeer l p).1 = true) (rounds : Nat) : ∃ s', s.leaveGroups p rounds = .ok s' := by
  rw [leaveGroups, derefLocalGroup_ok.mpr hl, ok_bind]
  simp only [hr, if_true]
  exact ⟨_, rfl⟩

theorem leaveGroups_other {s : Network} {l : GroupRef} {p : PeerRef} (hl : s.localGroup = some l)
    (hr : (s.removePeer l p).1 = false) (rounds : Nat) : s.leaveGroups p rounds =
      { s with toMembership := (s.removePeer l p).2 }.searchGroups p rounds s.groups.entries := by
  rw [leaveGroups, derefLocalGroup_ok.mpr hl, ok_bind]
  simp only [hr]
  rfl

theorem searchGroups_found {s : Network} {k : Bytes} {g : GroupRef} {p : PeerRef} {rest : List (Bytes × GroupRef)}
    (h : (s.removePeer g p).1 = true) :
    s.searchGroups p 1 ((k, g) :: rest) = .ok { s with toMembership := s.drop p g } := by
  simp only [searchGroups, h, if_true]
  rfl

/-- The search ends with the first group, or never. -/
theorem leaveGroups_ends {s : Network} {l : GroupRef} (hl : s.localGroup = some l) (p : PeerRef) :
    (∃ rounds s', s.leaveGroups p rounds = .ok s') ↔ (s.group l).peers.contains (s.getId p) = true ∨
      ∀ g ∈ s.groups.values.head?, (s.group g).peers.contains (s.getId p) = true := by
  cases hc : (s.group l).peers.contains (s.getId p) with
  | true =>
    obtain ⟨s', hs'⟩ := leaveGroups_ours (p := p) hl hc 1
    exact ⟨fun _ => Or.inl rfl, fun _ => ⟨1, s', hs'⟩⟩
  | false =>
    have hr : (s.removePeer l p).1 = false := hc
    simp only [leaveGroups_other hl hr, Bool.false_eq_true, false_or]
    -- he is not a member of our group any more, if he ever was
    have first : ∀ g, (((s.removePeer l p).2).removePeer g p).1 = (s.group g).peers.contains (s.getId p) := by
      intro g
      by_cases hg : g = l
      · subst hg
        rw [removePeer_again, hc]
      · exact congrArg (fun x : Group => x.peers.contains (s.getId p))
          (Membership.modGroup_of_ne (m := s.toMembership) hg fun x => (x.removePeer s.getId p).2)
    cases he : s.groups.entries with
    | nil =>
      have hh : s.groups.values.head? = none := by rw [OrdMap.values, he]; rfl
      simp only [hh, Option.mem_def, reduceCtorEq, false_imp_iff, forall_const, iff_true]
      exact ⟨1, _, rfl⟩
    | cons e rest =>
      obtain ⟨k, g⟩ := e
      have hh : s.groups.values.head? = some g := by rw [OrdMap.values, he]; rfl
      simp only [hh, Option.mem_some_iff, forall_eq']
      rw [← first g]
      constructor
      · rintro ⟨rounds, s', h⟩
        rcases searchGroups_ok h with ⟨he, -⟩ | ⟨k', g', rest', he, hg, -⟩
        · cases he
        · cases he
          exact hg
      · exact fun h => ⟨1, _, searchGroups_found (s := { s with toMembership := (s.removePeer l p).2 }) h⟩

theorem handleDisconnect_ends {s : Network} (hs : s.toMembership.Sound) (p : PeerRef) :
    (∃ rounds s', s.handleDisconnect p rounds = .ok s') ↔ s.toMembership.Ends p := by
  unfold handleDisconnect Membership.Ends
  cases hp : s.peers.contains (s.getId p) with
  | false => exact ⟨fun _ h => absurd h Bool.false_ne_true, fun _ => ⟨0, _, rfl⟩⟩
  | true =>
    obtain ⟨l, hl⟩ := hs.localGroup_of_peers hp
    have hends := leaveGroups_ends (s := { s with peers := s.peers.erase (s.getId p) }) hl p
    have hbind : (∃ rounds s', (do
        let s ← { s with peers := s.peers.erase (s.getId p) }.leaveGroups p rounds
        pure s.resetAlone) = .ok s') ↔
        ∃ rounds s', { s with peers := s.peers.erase (s.getId p) }.leaveGroups p rounds = .ok s' :=
      ⟨fun ⟨rounds, s', h⟩ => ⟨rounds, (bind_ok.mp h).imp fun t ht => ht.1⟩,
        fun ⟨rounds, t, ht⟩ => ⟨rounds, t.resetAlone, bind_ok.mpr ⟨t, ht, rfl⟩⟩⟩
    simp only [if_true]
    refine hbind.trans (hends.trans ⟨fun h _ l' hl' => ?_, fun h => h trivial l hl⟩)
    cases hl.symm.trans hl'
    exact h

/-- The disconnection of this peer is handled to the end, and leaves no trace of him in
    any group he was a member of, ours aside. -/
def Disconnects (s : Network) (p : PeerRef) : Prop :=
  ∃ rounds s', handle rounds s (.eof p) = .ok s' ∧ ∀ e ∈ s.groups.entries, s.localGroup ≠ some e.2 →
    p ∈ (s.group e.2).peers.values → (s'.group e.2).Gone p

/-- The disconnection of a peer is handled to the end, and cleanly, exactly when he is found
    where the handler looks for him. -/
theorem disconnects_iff {s : Network} (hs : Reachable s) {p : PeerRef} (he : s.Enabled (.eof p)) :
    s.Disconnects p ↔ s.toMembership.LeavesClean p := by
  have hsound : (s.stopListening p).Sound := hs.sound.stopListening (hs.sound.listening p he)
  have hids : (s.stopListening p).getId = s.getId := Membership.stopListening_getId s.toMembership p
  have hends : (∃ rounds s', handle rounds s (.eof p) = .ok s') ↔ s.toMembership.Ends p := by
    rw [← Membership.ends_stopListening]
    exact handleDisconnect_ends (s := { s with toMembership := s.stopListening p }) hsound p
  have gone : ∀ e ∈ s.groups.entries, s.localGroup ≠ some e.2 → p ∈ (s.group e.2).peers.values →
      ((((s.stopListening p).remove p).reset.group e.2).Gone p ↔ s.peers.contains (s.getId p) = true ∧
        (∀ l ∈ s.localGroup, s.leaves l p e.2) ∧ (s.group e.2).Filed s.getId p) := by
    intro e _ hl hp
    have := Membership.remove_gone hsound hl hp
    simp only [hids, Membership.leaves_stopListening] at this
    rw [Membership.reset_group]
    exact this
  constructor
  · rintro ⟨rounds, s', h, hgone⟩
    refine ⟨hends.mp ⟨rounds, s', h⟩, fun e he' hl hp => (gone e he' hl hp).mp ?_⟩
    rw [← handleDisconnect_membership h]
    exact hgone e he' hl hp
  · rintro ⟨hc, hgone⟩
    obtain ⟨rounds, s', h⟩ := hends.mpr hc
    refine ⟨rounds, s', h, fun e he' hl hp => ?_⟩
    rw [handleDisconnect_membership h]
    exact (gone e he' hl hp).mpr (hgone e he' hl hp)

omit [Platform] in
/-- A member of a group that comes before ours disconnects. -/
theorem disconnects_first : ∃ s, @Reachable sha1 s ∧ s.Enabled (.eof 2) ∧
    (∃ e ∈ s.groups.entries, s.localGroup ≠ some e.2 ∧ 2 ∈ (s.group e.2).peers.values) ∧ @Disconnects sha1 s 2 := by
  have hrun : @leadsTo sha1 (fun _ _ => True) _ node [.join [] [] (some [9]), .read 1 (ack 65) none, .accept [8],
      .read 2 (msg 2 (.joinAck (idOf 199) (idOf 66) (List.replicate 5 66))) none] (fun s =>
      decide (s.Enabled (.eof 2) ∧
        (∃ e ∈ s.groups.entries, s.localGroup ≠ some e.2 ∧ 2 ∈ (s.group e.2).peers.values) ∧
        @Membership.LeavesClean sha1 s.toMembership 2)) = true := by
    decide +kernel
  obtain ⟨s, hs, ht⟩ := @reach_of_leadsTo sha1 _ _ _ _ _ _ _ _ hrun
  obtain ⟨he, hm, hc⟩ := of_decide_eq_true ht
  exact ⟨s, hs, he, hm, (@disconnects_iff sha1 s hs 2 he).mpr hc⟩

omit [Platform] in
/-- A member of a group that comes after ours disconnects: the search never ends. -/
theorem disconnect_stuck : ¬ ∀ s p, @Reachable sha1 s → s.Enabled (.eof p) → @Disconnects sha1 s p := by
  intro h
  have hrun : @leadsTo sha1 (fun _ _ => True) _ node [.join [] [] (some [9]), .read 1 (ack 65) none, .accept [8],
      .read 2 (msg 2 (.joinAck (idOf 201) (idOf 66) (List.replicate 5 66))) none] (fun s =>
      decide (s.Enabled (.eof 2) ∧ ¬ (s.stopListening 2).Ends 2)) = true := by
    decide +kernel
  obtain ⟨s, hs, ht⟩ := @reach_of_leadsTo sha1 _ _ _ _ _ _ _ _ hrun
  obtain ⟨he, hn⟩ := of_decide_eq_true ht
  obtain ⟨rounds, s', hd, -⟩ := h s 2 hs he
  have hsound := (@Reach.sound sha1 _ _ hs)
  exact hn ((@handleDisconnect_ends sha1 { s with toMembership := s.stopListening 2 }
    (hsound.stopListening (hsound.listening 2 he)) 2).mp ⟨rounds, s', hd⟩)

end Network

end RacKun
