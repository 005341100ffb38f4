/-
  RacKun.System.Completion — how the members of a group learn that a newcomer is done
  joining: he sends a READY Notification to his direct neighbours, and the others have
  armed a timer when they acknowledged him.

  The two sides decide on their own: a member by looking the newcomer up among his
  neighbours, right after he has entered him in his rings; the newcomer by looking at
  the rings he has built from the acknowledgements, once READY comes.

  - `Gathers.gathered`: whatever their order, the acknowledgements of the members make the
    newcomer's rings hold exactly these members.
  - `ready_notifies`: whom READY makes him notify.
-/

import RacKun.Group.Views
import RacKun.Network.LocalGroup
import RacKun.Network.Markers
import RacKun.Network.ReadyOrder

namespace RacKun

open Lib (OrdMap bind_ok pure_ok ok_bind)

open Scenario

namespace Membership

variable [Platform]

/-- The newcomer knows the members with these IDs, each by the connection with him, and
    nobody else; he is not connected. -/
structure Gathered (m : Membership) (gid : Bytes) (conn : Bytes → PeerRef) (ids : Set Bytes) : Prop where
  waiting : m.localState ≠ .connected
  named : ∀ id ∈ ids, m.Remote (conn id) ∧ m.getId (conn id) = id
  first : ids = ∅ → m.localGroup = none
  group : ids.Nonempty → ∃ g, m.localGroup = some g ∧ m.groups.entries = [(gid, g)] ∧
    (m.group g).Holds m.getId ids ∧ ∀ r ∈ (m.group g).rings, ∀ q ∈ r.ring.values, ∃ id ∈ ids, q = conn id

variable {m : Membership} {gid : Bytes} {conn : Bytes → PeerRef} {ids : Set Bytes}

/-- Before the first acknowledgement there is no group, after it there is this one. -/
theorem Gathered.ackGroup (h : m.Gathered gid conn ids) (hs : m.Sound) : ∃ g, (m.ackGroup gid).1 = g ∧
    (m.ackGroup gid).2.localGroup = some g ∧ (m.ackGroup gid).2.groups.entries = [(gid, g)] ∧
    ((m.ackGroup gid).2.group g).Holds m.getId ids ∧
    ∀ r ∈ ((m.ackGroup gid).2.group g).rings, ∀ q ∈ r.ring.values, ∃ id ∈ ids, q = conn id := by
  rcases Set.eq_empty_or_nonempty ids with rfl | hn
  · have hl := h.first rfl
    have hg := (hs.alone hl).1
    refine ⟨m.groupCount, ?_⟩
    simp only [Membership.ackGroup, hg, hl, OrdMap.find_empty]
    have hnew : (m.createGroup gid).group m.groupCount = Group.new gid := createGroup_self m gid
    have empty : ∀ r ∈ (Group.new gid).rings, r.ring = ∅ := by
      intro r hr
      obtain ⟨i, -, rfl⟩ := List.mem_map.mp hr
      rfl
    rw [hnew]
    refine ⟨trivial, trivial, ?_, fun r hr => ⟨fun e he => ?_, fun id hid => ?_⟩, fun r hr q hq => ?_⟩
    · rw [createGroup, hg]
      rfl
    · rw [empty r hr] at he
      cases he
    · cases hid
    · rw [empty r hr] at hq
      cases hq
  · obtain ⟨g, hl, he, hold, hconn⟩ := h.group hn
    have hf : m.groups.find? gid = some g := OrdMap.mem_entries.mp (he ▸ List.mem_singleton_self _)
    refine ⟨g, ?_⟩
    simp only [Membership.ackGroup, hf]
    exact ⟨trivial, hl, he, hold, hconn⟩

/-- An acknowledgement adds its peer. -/
theorem Gathered.ack (h : m.Gathered gid conn ids) (hs : m.Sound) {id pubK : Bytes}
    (hi : Set.InjOn conn (insert id ids)) (hc : m.Awaits (.acked (conn id) gid id pubK)) :
    (m.apply (.acked (conn id) gid id pubK)).Gathered gid conn (insert id ids) := by
  have hr : m.Remote (conn id) := hs.listening _ hc
  obtain ⟨g, hg, hl, he, hold, hconn⟩ := h.ackGroup hs
  have hids : (m.apply (.acked (conn id) gid id pubK)).getId = m.renamed (conn id) id := by
    rw [Membership.apply, ackPeer_ids, renamed, (ackGroup_ids m gid).1, renamed]
  have own : m.renamed (conn id) id (conn id) = id := Function.update_self ..
  -- the others keep their IDs
  have other : ∀ id' ∈ ids, m.renamed (conn id) id (conn id') = m.getId (conn id') := by
    intro id' hid'
    rcases renamed_cases m (conn id) (conn id') id with hn | ⟨hc, hn⟩
    · exact hn
    · obtain rfl := hi (Set.mem_insert_of_mem _ hid') (Set.mem_insert _ _) hc
      rw [hn, (h.named _ hid').2]
  have hgroup : (m.apply (.acked (conn id) gid id pubK)).group g =
      ((m.ackGroup gid).2.group g).addPeer (m.renamed (conn id) id) (conn id) := by
    rw [Membership.apply, hg, ackPeer_group, if_pos rfl, renamed, (ackGroup_ids m gid).1, renamed]
  have hpc : (m.apply (.acked (conn id) gid id pubK)).peerCount = m.peerCount := by
    show (m.ackGroup gid).2.peerCount = _
    unfold Membership.ackGroup
    split
    · rfl
    · split <;> rfl
  have hlp : (m.apply (.acked (conn id) gid id pubK)).localPeer = m.localPeer := (ackGroup_ids m gid).2
  refine ⟨?_, fun id' hid' => ?_, fun he => absurd he (Set.insert_nonempty id ids).ne_empty, fun _ => ⟨g, hl, he, ?_, ?_⟩⟩
  · rw [localState, hlp]
    show (((((m.ackGroup gid).2.initPeer (conn id) id pubK).setState (conn id) .connected).peer m.localPeer)).state ≠ _
    rw [Membership.setState, modPeer_of_ne hr.2.symm, initPeer, modPeer_of_ne hr.2.symm, (ackGroup_rest m gid).2.1]
    exact h.waiting
  · rw [hids, Remote, hpc, hlp]
    rcases Set.mem_insert_iff.mp hid' with rfl | hid'
    · exact ⟨hr, own⟩
    · exact ⟨(h.named id' hid').1, (other id' hid').trans (h.named id' hid').2⟩
  · rw [hids, hgroup]
    have hold' : ((m.ackGroup gid).2.group g).Holds (m.renamed (conn id) id) ids := by
      refine Group.Holds.congr hold fun r hr q hq => ?_
      obtain ⟨id', hid', rfl⟩ := hconn r hr q hq
      exact other id' hid'
    have := Group.Holds.addToRings hold' (conn id)
    rw [own] at this
    exact this
  · rw [hgroup]
    intro r hr q hq
    obtain ⟨r', hr', rfl⟩ := List.mem_map.mp hr
    rcases OrdMap.mem_values_insert hq with rfl | hq
    · exact ⟨id, Set.mem_insert _ _, rfl⟩
    · obtain ⟨id', hid', rfl⟩ := hconn r' hr' q hq
      exact ⟨id', Set.mem_insert_of_mem _ hid', rfl⟩

/-- Meanwhile, connections may be accepted. -/
theorem Gathered.accept (h : m.Gathered gid conn ids) (hs : m.Sound) (address : Bytes) :
    (m.apply (.accept address)).Gathered gid conn ids := by
  have old : ∀ {p}, m.Remote p → (m.apply (.accept address)).getId p = m.getId p := by
    intro p hp
    rw [Membership.apply, addNewPeer_getId]
    exact newPeer_getId hp.1 address
  refine ⟨?_, fun id hid => ?_, h.first, fun hn => ?_⟩
  · have hst : (m.apply (.accept address)).localState = m.localState :=
      (addNewPeer_state _ m.localPeer m.peerCount).trans
        (congrArg Peer.state (newPeer_of_ne (Nat.ne_of_lt hs.localPeer) address))
    rw [hst]
    exact h.waiting
  · obtain ⟨hr, hid'⟩ := h.named id hid
    exact ⟨⟨Nat.lt_succ_of_lt hr.1, hr.2⟩, (old hr).trans hid'⟩
  · obtain ⟨g, hl, he, hold, hconn⟩ := h.group hn
    refine ⟨g, hl, he, ?_, hconn⟩
    refine Group.Holds.congr hold fun r hr q hq => ?_
    obtain ⟨id, hid, rfl⟩ := hconn r hr q hq
    exact old (h.named id hid).1

end Membership

namespace Network

variable [Platform]

/-- The JOIN Acknowledgements of the peers with these IDs have been processed, in any order, each
    on the connection with its peer. -/
inductive Gathers (gid : Bytes) (conn : Bytes → PeerRef) (s : Network) : Set Bytes → Network → Prop
  | start : Gathers gid conn s ∅ s
  | ack {ids : Set Bytes} {t t' : Network} {e : Event} {id pubK : Bytes} : Gathers gid conn s ids t → Step t e t' →
    t.change e = .acked (conn id) gid id pubK → Gathers gid conn s (insert id ids) t'
  | accept {ids : Set Bytes} {t t' : Network} {e : Event} {address : Bytes} : Gathers gid conn s ids t → Step t e t' →
    t.change e = .accept address → Gathers gid conn s ids t'
  | idle {ids : Set Bytes} {t t' : Network} {e : Event} : Gathers gid conn s ids t → Step t e t' →
    t.change e = .idle → Gathers gid conn s ids t'

variable {gid : Bytes} {conn : Bytes → PeerRef} {ids : Set Bytes} {s t : Network}

theorem Gathers.reachable (h : Gathers gid conn s ids t) (hs : Reachable s) : Reachable t := by
  induction h with
  | start => exact hs
  | ack _ hstep _ ih => exact .step ih trivial hstep
  | accept _ hstep _ ih => exact .step ih trivial hstep
  | idle _ hstep _ ih => exact .step ih trivial hstep

theorem Gathers.author (h : Gathers gid conn s ids t) (hs : Reachable s) :
    t.getId t.localPeer = s.getId s.localPeer := by
  have step : ∀ {ids u u' e}, Gathers gid conn s ids u → Step u e u' → u'.getId u'.localPeer = u.getId u.localPeer := by
    rintro ids u u' e hu ⟨he, rounds, hh⟩
    rw [handle_membership hh]
    exact Membership.apply_author (hu.reachable hs).sound (change_awaits he)
  induction h with
  | start => rfl
  | ack hu hstep _ ih => exact (step hu hstep).trans ih
  | accept hu hstep _ ih => exact (step hu hstep).trans ih
  | idle hu hstep _ ih => exact (step hu hstep).trans ih

/-- Whatever their order, the acknowledgements make the rings hold exactly their peers. -/
theorem Gathers.gathered (h : Gathers gid conn s ids t) (hs : Reachable s) (hl : s.localGroup = none)
    (hi : Set.InjOn conn ids) : t.toMembership.Gathered gid conn ids := by
  induction h with
  | start =>
    exact ⟨(hs.sound.alone hl).2.2, fun id hid => absurd hid (Set.notMem_empty id), fun _ => hl,
      fun hn => absurd rfl hn.ne_empty⟩
  | ack hu hstep hc ih =>
    obtain ⟨he, rounds, hh⟩ := hstep
    have ha := hc ▸ change_awaits he
    rw [handle_membership hh, hc]
    exact (ih (hi.mono (Set.subset_insert _ _))).ack (hu.reachable hs).sound hi ha
  | accept hu hstep hc ih =>
    obtain ⟨-, rounds, hh⟩ := hstep
    rw [handle_membership hh, hc]
    exact (ih hi).accept (hu.reachable hs).sound _
  | idle _ hstep hc ih =>
    obtain ⟨-, rounds, hh⟩ := hstep
    rw [handle_membership hh, hc]
    exact ih hi

/-! ## READY -/

/-- A READY Notification is sent to the peer. -/
def Notifies (s s' : Network) (p : PeerRef) : Prop :=
  ∃ m : Message, m.payload = .readyNotif ∧ .sent p m.serialize ∈ s.effects s'

/-- The round of READY for our group, not connected yet. -/
theorem readyGroup_local {s s' : Network} {g : GroupRef} (hl : s.localGroup = some g) (hc : s.localState ≠ .connected)
    (h : s.readyGroup g = .ok s') : ∃ notif : Message, notif.payload = .readyNotif ∧
      s'.trace = s.trace ++ ((((s.group g).enter s.getId s.localPeer s.localPeer).predecessors.union
        ((s.group g).enter s.getId s.localPeer s.localPeer).successors).values.map (.sent · notif.serialize)) := by
  obtain ⟨t, notif, ht, hp, -, htrace⟩ := readyGroup_round hl g
  cases ht.symm.trans h
  have htells : (s.readied g []).tells g g = some ((s.group g).enter s.getId s.localPeer s.localPeer) :=
    (Membership.readied_round hc (iff_of_true rfl rfl) List.not_mem_nil).1
  rw [Membership.readied_nil] at htells
  rw [htells] at htrace
  exact ⟨notif, hp, htrace⟩

/-- Whom READY makes the newcomer notify: his direct neighbours. -/
theorem ready_notifies {s s' : Network} {e : Event} {g : GroupRef} (hg : s.groups.entries = [(gid, g)])
    (hl : s.localGroup = some g) (hc : s.localState ≠ .connected) (he : s.change e = .ready) (h : Step s e s')
    (p : PeerRef) : s.Notifies s' p ↔ p ∈ (((s.group g).enter s.getId s.localPeer s.localPeer).predecessors.union
        ((s.group g).enter s.getId s.localPeer s.localPeer).successors).values := by
  obtain ⟨-, rounds, hh⟩ := h
  have hcause := change_causes s e
  rw [he] at hcause
  cases hcause with
  | @ready received stamp q reached hm =>
    have hnew := change_new hm (by rw [he]; intro hc; cases hc)
    obtain ⟨t, u, v, ht, hu, hv, hs'⟩ := handle_received hm hnew hh
    obtain ⟨hum, -⟩ := relayed_same ht hu
    have htr : u.trace = s.trace := by
      cases (pure_ok.mp hu : t = u)
      unfold logKnown at ht
      split at ht
      · exact (logMessage_logs ht).trace
      · cases ht
        rfl
    have hv : u.groups.values.foldlM readyGroup u = .ok v := outcome_quiet (processReady_quiet u) hv
    have hvals : u.groups.values = [g] := by rw [hum, OrdMap.values, hg]; rfl
    rw [hvals] at hv
    obtain ⟨w, hw, hv⟩ := bind_ok.mp hv
    cases (pure_ok.mp hv : w = v)
    obtain ⟨notif, hp, htrace⟩ := readyGroup_local (s := u) (by rw [hum]; exact hl) (by rw [hum]; exact hc) hw
    rw [htr, hum] at htrace
    have hmem : ∀ b, .sent p b ∈ s.effects s' ↔ b = notif.serialize ∧
        p ∈ (((s.group g).enter s.getId s.localPeer s.localPeer).predecessors.union
          ((s.group g).enter s.getId s.localPeer s.localPeer).successors).values := by
      intro b
      rcases hs' with rfl | rfl
      · rw [effects_append htrace]
        simp [and_comm, eq_comm]
      · have hrep := congrArg (· ++ [Effect.reported received]) htrace
        rw [effects_append (hrep.trans (List.append_assoc ..))]
        simp [and_comm, eq_comm]
    constructor
    · rintro ⟨m, -, hm'⟩
      exact ((hmem _).mp hm').2
    · intro hp'
      exact ⟨notif, hp, (hmem _).mpr ⟨rfl, hp'⟩⟩

/-! ## Timer or notification -/

/-- A member with this ID has acknowledged the newcomer, whom he knows as the peer `p`. -/
structure Acknowledges (ids : Set Bytes) (gid newId id : Bytes) (s : Network) (g : GroupRef) (p : PeerRef)
    (s' : Network) : Prop where
  own : s.getId s.localPeer = id
  localGroup : s.localGroup = some g
  groupId : (s.group g).id = gid
  holds : (s.group g).Holds s.getId ids
  newcomer : s.getId p = newId
  done : s.acknowledgeJoin p g = .ok s'

/-- A member arms a timer for the newcomer unless he lists him. -/
theorem Acknowledges.timers {newId id : Bytes} {s s' : Network} {g : GroupRef} {p : PeerRef}
    (h : Acknowledges ids gid newId id s g p s') :
    (((s.group g).takeIn s.getId s.localPeer p).lists newId → s'.joinTimers = s.joinTimers) ∧
    (¬ ((s.group g).takeIn s.getId s.localPeer p).lists newId →
      s'.joinTimers = s.joinTimers.insert newId ⟨p, true⟩) := by
  have ht : s'.joinTimers = if (s.takeIn p g).direct g p then s.joinTimers else s.joinTimers.insert newId ⟨p, true⟩ := by
    rw [acknowledgeJoin_membership h.done, ← h.newcomer]
    rfl
  have hdirect : (s.takeIn p g).direct g p = true ↔ ((s.group g).takeIn s.getId s.localPeer p).lists newId := by
    have hg : (s.takeIn p g).group g = (s.group g).takeIn s.getId s.localPeer p := by
      rw [Membership.takeIn_eq, Membership.modGroup_self]
    have hid : (s.takeIn p g).getId p = newId := h.newcomer
    rw [Membership.direct, hg, hid, Bool.or_eq_true, Group.lists]
  rw [ht, ← hdirect]
  exact ⟨fun h => if_pos h, fun h => if_neg h⟩

/-- A member of the group arms a timer for the newcomer, or is notified by him, but not both. -/
theorem ready_or_timer {newId : Bytes} {s s' : Bytes → Network} {g : Bytes → GroupRef} {p : Bytes → PeerRef}
    {j t t' : Network} {e : Event} (hd : KeysDiffer (insert newId ids)) (hn : newId ∉ ids)
    (hs : ∀ id ∈ ids, Acknowledges ids gid newId id (s id) (g id) (p id) (s' id)) (hj : Reachable j)
    (hid : j.getId j.localPeer = newId) (hl : j.localGroup = none) (hi : Set.InjOn conn ids)
    (hg : Gathers gid conn j ids t) (hr : t.change e = .ready) (ht : Step t e t') : ∀ id ∈ ids,
      (t.Notifies t' (conn id) ∧ (s' id).joinTimers = (s id).joinTimers) ∨
      (¬ t.Notifies t' (conn id) ∧ (s' id).joinTimers = (s id).joinTimers.insert newId ⟨p id, true⟩) := by
  intro id hm
  have hs := hs id hm
  have hne : ids.Nonempty := ⟨id, hm⟩
  have hall : (insert newId ids).Nontrivial :=
    ⟨newId, Set.mem_insert _ _, id, Set.mem_insert_of_mem _ hm, fun hc => hn (hc ▸ hm)⟩
  have hga := hg.gathered hj hl hi
  have hown : t.getId t.localPeer = newId := (hg.author hj).trans hid
  obtain ⟨l, htl, hte, hthold, htconn⟩ := hga.group hne
  -- both sides have the newcomer in their rings
  have hmember : ((s id).group (g id)).addPeer (s id).getId (p id) |>.Holds (s id).getId (insert newId ids) := by
    have := Group.Holds.addToRings hs.holds (p id)
    rw [hs.newcomer] at this
    exact this
  have hnewcomer : ((t.group l).addToRings t.getId t.localPeer).Holds t.getId (insert newId ids) := by
    have := Group.Holds.addToRings hthold t.localPeer
    rw [hown] at this
    exact this
  have howner : t.getId t.localPeer ∈ insert newId ids := by
    rw [hown]
    exact Set.mem_insert _ _
  have hlists : (((s id).group (g id)).takeIn (s id).getId (s id).localPeer (p id)).lists newId ↔
      ((t.group l).enter t.getId t.localPeer t.localPeer).lists id := by
    have hmo : (s id).getId (s id).localPeer ∈ insert newId ids := by
      rw [hs.own]
      exact Set.mem_insert_of_mem _ hm
    have := Group.lists_comm hmember hnewcomer hd hall hmo howner
    rw [hs.own, hown] at this
    exact this
  have hnot : t.Notifies t' (conn id) ↔ ((t.group l).enter t.getId t.localPeer t.localPeer).lists id := by
    obtain ⟨hpreds, hsuccs, -⟩ := Group.updateNeighbours_spec hnewcomer hd hall howner
    rw [ready_notifies hte htl hga.waiting hr ht]
    constructor
    · intro hq
      have := Group.directs_lists hpreds hsuccs hq
      rw [(hga.named id hm).2] at this
      exact this
    · intro hlist
      obtain ⟨q, hq, hqm, hqid⟩ := Group.lists_directs hpreds hsuccs hlist
      obtain ⟨r, hr, hqr⟩ := Group.updateNeighbours_mem hqm
      obtain ⟨r', hr', rfl⟩ := List.mem_map.mp hr
      rcases OrdMap.mem_values_insert hqr with rfl | hqr
      · exact absurd (hown.symm.trans hqid) fun hc => hn (hc ▸ hm)
      · obtain ⟨id', hid', rfl⟩ := htconn r' hr' q hqr
        obtain rfl := (hga.named id' hid').2.symm.trans hqid
        exact hq
  by_cases h : t.Notifies t' (conn id)
  · exact Or.inl ⟨h, hs.timers.1 (hlists.mpr (hnot.mp h))⟩
  · exact Or.inr ⟨h, hs.timers.2 fun hc => h (hnot.mpr (hlists.mp hc))⟩

end Network

/-! ## A group of three -/

namespace Scenario

/-- A member of a group of three: his peers 1 and 2 are the others, 3 is the newcomer. -/
def member [Platform] (own a b newId : Byte) : Network :=
  let s := Network.start (idOf own) [] 7 fun t => t
  let m := (((s.setState 0 .connected).newPeer [8]).initPeer 1 (idOf a) []).newPeer [9] |>.initPeer 2 (idOf b) []
  let m := (({ m.createGroup (idOf 9) with localGroup := some 0 }.addToRings 0 0).addPeer 0 1).addPeer 0 2
  { s with toMembership := (m.newPeer [10]).initPeer 3 (idOf newId) [] }

theorem member_holds [Platform] (own a b newId : Byte) :
    ((member own a b newId).group 0).Holds (member own a b newId).getId {idOf b, idOf a, idOf own} := by
  have hnew : (Group.new (idOf 9)).Holds (member own a b newId).getId ∅ := Group.new_holds
  have h := ((hnew.addToRings 0).addToRings 1).addToRings 2
  rw [insert_empty_eq] at h
  exact h

theorem member_acknowledges [Platform] (own a b newId : Byte) : ∃ s', Network.Acknowledges {idOf b, idOf a, idOf own}
    (idOf 9) (idOf newId) (idOf own) (member own a b newId) 0 3 s' := by
  obtain ⟨s', -, hs', -⟩ := Network.acknowledgeJoin_ok (s := member own a b newId) (l := 0) rfl 3 0
  exact ⟨s', rfl, rfl, rfl, member_holds own a b newId, rfl, hs'⟩

def trio : Set Bytes := {idOf 3, idOf 4, idOf 6}

theorem trio_keys : @KeysDiffer sha1 (insert (idOf 1) trio) := by
  have hd : ∀ i < RINGS_NB, (([1, 3, 4, 6].map idOf).map fun id => @makeHash sha1 (id ++ itos i)).Nodup := by
    decide +kernel
  have hids : insert (idOf 1) trio = { id | id ∈ [1, 3, 4, 6].map idOf } := by
    ext id
    simp [trio]
  rw [hids]
  exact fun i hi a ha b hb hab => List.inj_on_of_nodup_map (hd i hi) ha hb hab

/-- The members: between 1 and 4 there is somebody in each ring. -/
def trioMember [Platform] (id : Bytes) : Network :=
  if id = idOf 3 then member 3 4 6 1 else if id = idOf 4 then member 4 3 6 1 else member 6 3 4 1

theorem trioMember_acknowledges [Platform] {id : Bytes} (h : id ∈ trio) : ∃ s', Network.Acknowledges trio (idOf 9) (idOf 1)
    id (trioMember id) 0 3 s' := by
  have same : ∀ own a b : Byte, (∀ x, x ∈ ({idOf b, idOf a, idOf own} : Set Bytes) ↔ x ∈ trio) →
      ∃ s', Network.Acknowledges trio (idOf 9) (idOf 1) (idOf own) (member own a b 1) 0 3 s' := by
    intro own a b h
    have hids : ({idOf b, idOf a, idOf own} : Set Bytes) = trio := Set.ext h
    exact hids ▸ member_acknowledges own a b 1
  rcases h with rfl | rfl | rfl
  · exact same 3 4 6 fun x => by simp only [trio, Set.mem_insert_iff, Set.mem_singleton_iff]; tauto
  · exact same 4 3 6 fun x => by simp only [trio, Set.mem_insert_iff, Set.mem_singleton_iff]; tauto
  · exact same 6 3 4 fun x => by simp only [trio, Set.mem_insert_iff, Set.mem_singleton_iff]; tauto

/-- The newcomer's connections with them. -/
def line (id : Bytes) : PeerRef := if id = idOf 3 then 1 else if id = idOf 4 then 2 else 3

def ackOf (c : Byte) : Event :=
  .read (line (idOf c)) (msg (c + 60) (.joinAck (idOf 9) (idOf c) (List.replicate 5 0))) none

/-- The acknowledgements of these members, one after the other. -/
def gathers [Platform] (test : Network → Bool) : List Byte → Network → Bool
  | [], t => test t
  | c :: cs, t => decide (t.Enabled (ackOf c) ∧ t.change (ackOf c) = .acked (line (idOf c)) (idOf 9) (idOf c)
      (List.replicate 5 0)) && (Network.handle 1 t (ackOf c)).toOption.any (gathers test cs)

theorem gathers_of [Platform] {test : Network → Bool} {j : Network} (cs : List Byte) : ∀ {ids : Set Bytes} {t : Network},
    gathers test cs t = true → Network.Gathers (idOf 9) line j ids t →
      ∃ t', Network.Gathers (idOf 9) line j (cs.foldl (fun ids c => insert (idOf c) ids) ids) t' ∧ test t' = true := by
  induction cs with
  | nil =>
    intro ids t h hg
    exact ⟨t, hg, h⟩
  | cons c cs ih =>
    intro ids t h hg
    obtain ⟨h, hany⟩ := Bool.and_eq_true_iff.mp h
    obtain ⟨he, hc⟩ := of_decide_eq_true h
    obtain ⟨t', ht', h'⟩ := Network.step_of_any he hany
    exact ih h' (.ack hg ht' hc)

end Scenario

namespace Network

/-- The newcomer notifies one of the members; another one, who is not his neighbour in any of
    the rings, has armed a timer. -/
theorem ready_or_timer_three : ∃ (s s' : Bytes → Network) (j t t' : Network) (e : Event),
    (∀ id ∈ trio, @Acknowledges sha1 trio (idOf 9) (idOf 1) id (s id) 0 3 (s' id)) ∧ @Reachable sha1 j ∧
      @Gathers sha1 (idOf 9) line j trio t ∧ @change sha1 t e = .ready ∧ @Step sha1 t e t' ∧
      (Notifies t t' 1 ∧ (s' (idOf 3)).joinTimers = (s (idOf 3)).joinTimers) ∧
      ¬ Notifies t t' 2 ∧ (s' (idOf 4)).joinTimers = (s (idOf 4)).joinTimers.insert (idOf 1) ⟨3, true⟩ := by
  have hrun : @leadsTo sha1 (fun _ _ => True) _ (start (idOf 1) [] 7 fun t => t)
      [.join [] [] (some [9]), .accept [8], .accept [7]]
      (fun j => decide (j.getId j.localPeer = idOf 1 ∧ j.localGroup = none) && @gathers sha1
        (fun t => decide (t.Enabled (.read 1 (msg 70 .ready) none) ∧ @change sha1 t (.read 1 (msg 70 .ready) none) = .ready ∧
          (@handle sha1 1 t (.read 1 (msg 70 .ready) none)).toOption.any (fun _ => true) = true)) [6, 4, 3] j) = true := by
    decide +kernel
  have htimers : (@acknowledgeJoin sha1 (@trioMember sha1 (idOf 3)) 3 0).toOption.any (fun s' =>
        decide (s'.joinTimers = ∅)) = true ∧
      (@acknowledgeJoin sha1 (@trioMember sha1 (idOf 4)) 3 0).toOption.any (fun s' => decide (s'.joinTimers ≠ ∅)) = true := by
    decide +kernel
  have hnone : ∀ id, (@trioMember sha1 id).joinTimers = ∅ := by
    intro id
    unfold trioMember
    split
    · rfl
    · split <;> rfl
  obtain ⟨j, hj, hrun⟩ := @reach_of_leadsTo sha1 _ _ _ _ _ _ _ _ hrun
  obtain ⟨hstart, hrun⟩ := Bool.and_eq_true_iff.mp hrun
  obtain ⟨hid, hl⟩ := of_decide_eq_true hstart
  obtain ⟨t, hg, hrun⟩ := @gathers_of sha1 _ _ _ _ _ hrun (@Gathers.start sha1 _ _ j)
  obtain ⟨he, hc, hrun⟩ := of_decide_eq_true hrun
  obtain ⟨t', ht', -⟩ := @step_of_any sha1 _ _ _ he hrun
  have hg : @Gathers sha1 (idOf 9) line j trio t := by
    simp only [List.foldl_cons, List.foldl_nil, insert_empty_eq] at hg
    exact hg
  have hs : ∀ id, ∃ s', id ∈ trio → @Acknowledges sha1 trio (idOf 9) (idOf 1) id (@trioMember sha1 id) 0 3 s' := by
    intro id
    by_cases h : id ∈ trio
    · obtain ⟨s', hs'⟩ := @trioMember_acknowledges sha1 id h
      exact ⟨s', fun _ => hs'⟩
    · exact ⟨node, fun h' => absurd h' h⟩
  choose s' hs' using hs
  have hout := @ready_or_timer sha1 (idOf 9) line trio (idOf 1) (@trioMember sha1) s' (fun _ => 0) (fun _ => 3) j t t' _
    trio_keys (by simp [trio, idOf]) (fun id h => hs' id h) hj hid hl ?_ hg hc ht'
  · refine ⟨@trioMember sha1, s', j, t, t', _, fun id h => hs' id h, hj, hg, hc, ht', ?_, ?_⟩
    · have hm : idOf 3 ∈ trio := Or.inl rfl
      have hempty := htimers.1
      rw [@Acknowledges.done sha1 _ _ _ _ _ _ _ _ (hs' _ hm)] at hempty
      rcases hout _ hm with h | ⟨-, h⟩
      · exact h
      · rw [show (s' (idOf 3)).joinTimers = ∅ from of_decide_eq_true hempty, hnone] at h
        cases h
    · have hm : idOf 4 ∈ trio := Or.inr (Or.inl rfl)
      have harmed := htimers.2
      rw [@Acknowledges.done sha1 _ _ _ _ _ _ _ _ (hs' _ hm)] at harmed
      rcases hout _ hm with ⟨-, h⟩ | h
      · exact absurd (h.trans (hnone _)) (of_decide_eq_true harmed)
      · exact h
  · intro a ha b hb hab
    have hline : ∀ a ∈ [idOf 3, idOf 4, idOf 6], ∀ b ∈ [idOf 3, idOf 4, idOf 6], line a = line b → a = b := by decide
    exact hline a (by simpa [trio] using ha) b (by simpa [trio] using hb) hab

end Network

end RacKun
