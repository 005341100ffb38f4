/-
  RacKun.Network.Relaying — whether a peer relays for us before he has joined.

  A newcomer is entered in the rings as soon as he is acknowledged, and the lookups in a
  ring do not ask for a peer's state: where he comes next to us he is sent the broadcasts
  of the group at once, timers and READY Notifications or not (`Patient` says when this
  does not happen).

  - `Reach.apart`: the peers that relay for us exist, and we are not one of them.
  - `RelaysReady.step`: a step that lets nobody come next to us who is still joining.
-/

import RacKun.Network.Frame
import RacKun.Network.Token

namespace RacKun

open Lib (OrdMap)

open Scenario

namespace Membership

/-! ## Conditions -/

/-- No relay of ours is still joining. -/
def RelaysReady (m : Membership) : Prop := ∀ g ∈ m.held, ∀ q, (m.group g).Relays q → (m.peer q).state ≠ .joining

variable [Platform]

/-- In none of the group's rings, the peer right before or right after us is still joining. -/
def Clear (m : Membership) (x : Group) : Prop := ∀ r ∈ x.rings,
  (∀ q ∈ (r.getPredecessor m.getId m.localPeer).toOption, (m.peer q).state ≠ .joining) ∧
  ∀ q ∈ (r.getSuccessor m.getId m.localPeer).toOption, (m.peer q).state ≠ .joining

/-- The peer's request can be answered: once he is in the rings of our group, nobody comes next
    to us who is still joining. -/
def Admits (m : Membership) (p : PeerRef) : Prop := ∀ l ∈ m.localGroup, m.Clear ((m.group l).addPeer m.getId p)

/-- A relay of ours does not start to join, unless our neighbours are looked up next; and when
    they are, nobody comes next to us who is still joining. -/
def Patient (m : Membership) : Change → Prop
  | .request p id pubK _ newId =>
    (∀ g ∈ (m.greet p id pubK newId).held, (m.joinToken = true ∧ (m.greet p id pubK newId).localGroup = some g) ∨
      ¬ ((m.greet p id pubK newId).group g).Relays p) ∧
    (m.joinToken = true → (m.greet p id pubK newId).Admits p)
  | .notified groupId peerId pubK address => ∀ g ∈ m.groups.find? groupId,
    ((m.newPeer address).enrol m.peerCount peerId pubK).Clear
      ((m.group g).addPeer ((m.newPeer address).enrol m.peerCount peerId pubK).getId m.peerCount)
  | .channels peerId => ∀ p ∈ m.peers.find? peerId, ∀ l ∈ m.localGroup, ∀ g ∈ m.groups.values,
    (m.group g).id ≠ (m.group l).id → m.Clear ((m.group g).addToRings m.getId p)
  | .ready => ∀ l ∈ m.localGroup, ∀ g ∈ m.groups.values,
    ((m.group g).id ≠ (m.group l).id → m.Clear ((m.group g).addToRings m.getId m.localPeer)) ∧
    ((m.group g).id = (m.group l).id → m.localState ≠ .connected → m.Clear ((m.group l).addToRings m.getId m.localPeer))
  | .completed p => ∀ q ∈ (m.setState p .connected).pending?, (m.setState p .connected).Admits q
  | .expired id => ∀ t ∈ m.joinTimers.find? id, ∀ q ∈ (m.setState t.peer .connected).pending?,
    (m.setState t.peer .connected).Admits q
  | .closed p => m.peers.contains (m.getId p) = true → ∀ l ∈ m.localGroup, ∀ g ∈ m.held, m.leaves l p g →
    m.Clear ((m.group g).removePeer m.getId p).2
  | _ => True

instance (g : Group) (p : PeerRef) : Decidable (g.Relays p) := inferInstanceAs (Decidable (_ ∨ _))

instance (m : Membership) (x : Group) : Decidable (m.Clear x) := inferInstanceAs (Decidable (∀ r ∈ x.rings,
  (∀ q ∈ (r.getPredecessor m.getId m.localPeer).toOption, _) ∧ ∀ q ∈ (r.getSuccessor m.getId m.localPeer).toOption, _))

instance (m : Membership) (p : PeerRef) : Decidable (m.Admits p) :=
  inferInstanceAs (Decidable (∀ l ∈ m.localGroup, m.Clear _))

instance (m : Membership) : (c : Change) → Decidable (m.Patient c)
  | .request p id pubK _ newId => inferInstanceAs (Decidable ((∀ g ∈ (m.greet p id pubK newId).held, _) ∧ (_ → _)))
  | .notified groupId _ _ _ => inferInstanceAs (Decidable (∀ g ∈ m.groups.find? groupId, Clear _ _))
  | .channels peerId => inferInstanceAs (Decidable (∀ p ∈ m.peers.find? peerId, ∀ l ∈ m.localGroup,
      ∀ g ∈ m.groups.values, _ → _))
  | .ready => inferInstanceAs (Decidable (∀ l ∈ m.localGroup, ∀ g ∈ m.groups.values, (_ → _) ∧ (_ → _ → _)))
  | .completed p => inferInstanceAs (Decidable (∀ q ∈ (m.setState p .connected).pending?, Admits _ q))
  | .expired id => inferInstanceAs (Decidable (∀ t ∈ m.joinTimers.find? id, ∀ q ∈ (m.setState t.peer .connected).pending?,
      Admits _ q))
  | .closed _ => inferInstanceAs (Decidable (_ → ∀ l ∈ m.localGroup, ∀ g ∈ m.held, _ → _))
  | .idle | .accept _ | .contact _ | .unreached | .acked .. | .readySent _ | .failed _ =>
    inferInstanceAs (Decidable True)

/-! ## Apart from us -/

/-- The peers of a group exist; we are in its rings under our own key only, and do not relay for
    ourselves. -/
structure Apart (localPeer : PeerRef) (own : Bytes) (n : Nat) (x : Group) : Prop where
  mentions : ∀ q, x.Mentions q → q < n
  own : ∀ r ∈ x.rings, ∀ e ∈ r.ring.entries, e.2 = localPeer → e.1 = r.createKey own
  relays : ∀ q, x.Relays q → q < n ∧ q ≠ localPeer

theorem addPeer_own {getId : PeerRef → Bytes} {localPeer p : PeerRef} {own : Bytes} (hown : getId localPeer = own)
    {r : Ring} (h : ∀ e ∈ r.ring.entries, e.2 = localPeer → e.1 = r.createKey own) :
    ∀ e ∈ (r.addPeer getId p).ring.entries, e.2 = localPeer → e.1 = (r.addPeer getId p).createKey own := by
  rintro ⟨k, q⟩ he hq
  have hf : (r.ring.insert (r.createKey (getId p)) p).find? k = some q := OrdMap.mem_entries.mp he
  rcases OrdMap.find_insert_some hf with ⟨hk, rfl⟩ | hold
  · rw [hk, ← hown, ← show q = localPeer from hq]
    rfl
  · exact h (k, q) (OrdMap.mem_entries.mpr hold) hq

theorem lookup_apart {getId : PeerRef → Bytes} {localPeer q : PeerRef} {own : Bytes} (hown : getId localPeer = own)
    {r : Ring} (h : ∀ e ∈ r.ring.entries, e.2 = localPeer → e.1 = r.createKey own)
    (hq : r.getPredecessor getId localPeer = .ok q ∨ r.getSuccessor getId localPeer = .ok q) : q ≠ localPeer := by
  intro hc
  rcases hq with hq | hq
  · obtain ⟨hs, k, hk⟩ := Ring.getPredecessor_ok.mp hq
    exact OrdMap.pred_ne hs hk (hown ▸ h (k, q) (OrdMap.pred_mem hk) hc)
  · obtain ⟨hs, k, hk⟩ := Ring.getSuccessor_ok.mp hq
    exact OrdMap.succ_ne hs hk (hown ▸ h (k, q) (OrdMap.succ_mem hk) hc)

theorem apart_kept (localPeer : PeerRef) (own : Bytes) (n : Nat) :
    Kept localPeer own (· < n) (Apart localPeer own n) where
  new id := by
    refine ⟨fun q hq => (Group.new_mentions hq).elim, fun r hr e he => ?_, fun q hq => ?_⟩
    · obtain ⟨i, -, rfl⟩ := List.mem_map.mp hr
      cases he
    · rcases hq with hq | hq <;> cases hq
  addToRings hown hp hx := by
    refine ⟨(mentions_kept localPeer own n).addToRings hown hp hx.mentions, fun r hr => ?_, hx.relays⟩
    obtain ⟨r', hr', rfl⟩ := List.mem_map.mp hr
    exact addPeer_own hown (hx.own r' hr')
  addPeer hown hp hx := by
    refine ⟨(mentions_kept localPeer own n).addPeer hown hp hx.mentions, fun r hr => ?_, hx.relays⟩
    obtain ⟨r', hr', rfl⟩ := List.mem_map.mp hr
    exact addPeer_own hown (hx.own r' hr')
  addGroup {getId x y} hown hx hy := by
    refine ⟨(mentions_kept localPeer own n).addGroup hown hx.mentions hy.mentions, fun r hr => ?_, hx.relays⟩
    obtain ⟨r', hr', rfl⟩ := List.mem_map.mp hr
    exact List.foldlRecOn (motive := fun r : Ring => ∀ e ∈ r.ring.entries, e.2 = localPeer → e.1 = r.createKey own) _ _
      (hx.own r' hr') fun _ h _ _ => addPeer_own hown h
  removePeer {getId x p} hx := by
    refine ⟨(mentions_kept localPeer own n).removePeer hx.mentions, fun r hr => ?_, hx.relays⟩
    obtain ⟨r', hr', rfl⟩ := List.mem_map.mp hr
    exact fun e he => hx.own r' hr' e (OrdMap.mem_erase.mp he).1
  update {getId x} hown hx := by
    refine ⟨(mentions_kept localPeer own n).update hown hx.mentions, ?_, fun q hq => ?_⟩
    · rw [Group.updateNeighbours_rings]
      exact hx.own
    · obtain ⟨r, hr, hl⟩ := Group.updateNeighbours_next hq
      have hm : q ∈ r.ring.values := hl.elim Ring.getPredecessor_mem Ring.getSuccessor_mem
      exact ⟨hx.mentions q (Or.inr ⟨r, hr, hm⟩), lookup_apart hown (hx.own r hr) hl⟩

theorem Apart.mono {localPeer : PeerRef} {own : Bytes} {n n' : Nat} {x : Group} (h : Apart localPeer own n x) (hn : n ≤ n') :
    Apart localPeer own n' x :=
  ⟨fun q hq => Nat.lt_of_lt_of_le (h.mentions q hq) hn, h.own,
    fun q hq => ⟨Nat.lt_of_lt_of_le (h.relays q hq).1 hn, (h.relays q hq).2⟩⟩

/-! ## What a step keeps -/

omit [Platform] in
/-- Whoever relays for us and is joining after a step did and was before it. -/
theorem RelaysReady.of_joining {m n : Membership} (h : m.RelaysReady) (H : ∀ g ∈ n.held, ∀ q, (n.group g).Relays q →
    (n.peer q).state = .joining → g ∈ m.held ∧ (m.group g).Relays q ∧ (m.peer q).state = .joining) : n.RelaysReady := by
  intro g hg q hq hj
  obtain ⟨hg', hq', hj'⟩ := H g hg q hq hj
  exact h g hg' q hq' hj'

/-- A lookup that is clear makes nobody a relay who is still joining. -/
theorem Clear.relays {m : Membership} {x : Group} (h : m.Clear x) {q : PeerRef}
    (hq : (x.updateNeighbours m.getId m.localPeer).Relays q) : (m.peer q).state ≠ .joining := by
  obtain ⟨r, hr, hl⟩ := Group.updateNeighbours_next hq
  rcases hl with hl | hl
  · exact (h r hr).1 q (by rw [hl]; rfl)
  · exact (h r hr).2 q (by rw [hl]; rfl)

theorem Clear.congr {m n : Membership} {x : Group} (h : m.Clear x) (hi : n.getId = m.getId)
    (hl : n.localPeer = m.localPeer) (hst : ∀ q, (n.peer q).state = (m.peer q).state) : n.Clear x := by
  intro r hr
  rw [hi, hl]
  obtain ⟨hp, hs⟩ := h r hr
  exact ⟨fun q hq => hst q ▸ hp q hq, fun q hq => hst q ▸ hs q hq⟩

omit [Platform] in
theorem held_eq {m n : Membership} (h : n.localGroup = m.localGroup ∧ n.groups = m.groups) : n.held = m.held := by
  rw [held, held, h.1, h.2]

/-- A relay who is joining after a request has been answered was one in another group. -/
theorem answer_relays {m : Membership} {p : PeerRef} (hc : m.Admits p) {g : GroupRef} (hg : g ∈ (m.answer p).held)
    {q : PeerRef} (hq : ((m.answer p).group g).Relays q) (hj : ((m.answer p).peer q).state = .joining) :
    m.localGroup ≠ some g ∧ g ∈ m.held ∧ (m.group g).Relays q ∧ (m.peer q).state = .joining := by
  rw [held_eq (answer_groups m p)] at hg
  rw [(answer_peer m p).1] at hj
  cases hl : m.localGroup with
  | none =>
    simp only [Membership.answer, hl] at hq
    exact ⟨fun h => (Option.some_ne_none g h.symm).elim, hg, hq, hj⟩
  | some l =>
    rw [answer_group hl] at hq
    split at hq
    · exact absurd hj ((hc l hl).relays hq)
    · rename_i hne
      exact ⟨fun h => hne (Option.some.inj h).symm, hg, hq, hj⟩

theorem check_relays {m : Membership} (hc : ∀ p ∈ m.pending?, m.Admits p) {g : GroupRef} (hg : g ∈ m.check.held)
    {q : PeerRef} (hq : (m.check.group g).Relays q) (hj : (m.check.peer q).state = .joining) :
    g ∈ m.held ∧ (m.group g).Relays q ∧ (m.peer q).state = .joining := by
  unfold Membership.check at hg hq hj
  split at hg
  · rename_i p hp
    simp only [hp] at hq hj
    exact (answer_relays (hc p hp) hg hq hj).2
  · rename_i hp
    simp only [hp] at hq hj
    exact ⟨hg, hq, hj⟩

omit [Platform] in
theorem new_relays {id : Bytes} {q : PeerRef} (h : (Group.new id).Relays q) : False := by
  rcases h with h | h <;> cases h

omit [Platform] in
/-- A group that is created is one of the groups afterwards. -/
theorem createGroup_held {m : Membership} {id : Bytes} {g : GroupRef} (hg : g ∈ (m.createGroup id).groups.values) :
    g = m.groupCount ∨ g ∈ m.groups.values := OrdMap.mem_values_insertNew hg

/-- A request brings no relay of its own, and makes nobody joining but its peer. -/
theorem greet_relays {m : Membership} {p : PeerRef} {id pubK newId : Bytes} {g : GroupRef}
    (hg : g ∈ (m.greet p id pubK newId).held) {q : PeerRef} (hq : ((m.greet p id pubK newId).group g).Relays q)
    (hj : ((m.greet p id pubK newId).peer q).state = .joining) (hne : q ≠ p) :
    g ∈ m.held ∧ (m.group g).Relays q ∧ (m.peer q).state = .joining := by
  rw [greet, setState, modPeer_of_ne hne, initPeer, modPeer_of_ne hne] at hj
  unfold greet at hg hq
  split at hj
  · rename_i hc
    rw [if_pos hc] at hg hq
    have hq : ((m.found newId).group g).Relays q := hq
    rw [found_group] at hq
    split at hq
    · exact (@new_relays newId q hq).elim
    · rename_i hgc
      have hj : ((m.setState m.localPeer .connected).peer q).state = .joining := hj
      refine ⟨?_, hq, ?_⟩
      · rcases mem_held.mp hg with hl | hg
        · exact absurd (Option.some.inj hl).symm hgc
        · exact mem_held.mpr (Or.inr ((createGroup_held hg).resolve_left hgc))
      · by_cases hql : q = m.localPeer
        · subst hql
          rw [setState, modPeer_self] at hj
          cases hj
        · rw [setState, modPeer_of_ne hql] at hj
          exact hj
  · rename_i hc
    rw [if_neg hc] at hg hq
    exact ⟨hg, hq, hj⟩

/-- Which groups READY makes us enter. -/
theorem ready_group (m : Membership) (g : GroupRef) : (m.apply .ready).group g = m.group g ∨
    (m.apply .ready).group g = (m.group g).enter m.getId m.localPeer m.localPeer ∧
      ∃ l, m.localGroup = some l ∧ ∃ g' ∈ m.groups.values, ((m.group g').id ≠ (m.group l).id ∧ g = g') ∨
        ((m.group g').id = (m.group l).id ∧ m.localState ≠ .connected ∧ g = l) := by
  let Into (g : GroupRef) : Prop := ∃ l, m.localGroup = some l ∧ ∃ g' ∈ m.groups.values,
    ((m.group g').id ≠ (m.group l).id ∧ g = g') ∨ ((m.group g').id = (m.group l).id ∧ m.localState ≠ .connected ∧ g = l)
  let Rest (n : Membership) : Prop := m.Entered n ∧ (∀ g, (n.group g).id = (m.group g).id) ∧
    (n.localState ≠ .connected → m.localState ≠ .connected) ∧ ∀ g, n.group g = m.group g ∨ Into g
  have enter : ∀ {n : Membership} {g : GroupRef}, Rest n → Into g →
      Rest ((n.addToRings g m.localPeer).updateNeighbours g) := by
    rintro n g ⟨he, hid, hst, hgr⟩ hin
    rw [enter_eq]
    refine ⟨enter_eq n m.localPeer g ▸ he.enter g, fun g' => ?_, hst, fun g' => ?_⟩
    · by_cases hg : g' = g
      · subst hg
        rw [modGroup_self]
        exact (Group.updateNeighbours_id _ _).trans (hid g')
      · rw [modGroup_of_ne hg]
        exact hid g'
    · by_cases hg : g' = g
      · exact Or.inr (hg ▸ hin)
      · rw [modGroup_of_ne hg]
        exact hgr g'
  have run : Rest (m.apply .ready) := by
    refine List.foldlRecOn m.groups.values readyOne ⟨.refl m, fun _ => rfl, fun h => h, fun _ => Or.inl rfl⟩
      fun n hn g hg => ?_
    have hlp : n.localPeer = m.localPeer := by rw [hn.1.rest]
    have hlg : n.localGroup = m.localGroup := by rw [hn.1.rest]
    unfold readyOne
    split
    · exact hn
    · rename_i l hl
      have hl : m.localGroup = some l := hlg ▸ hl
      unfold enterRings
      rw [hlp, hn.2.1, hn.2.1]
      split
      · rename_i hne
        exact enter hn ⟨l, hl, g, hg, Or.inl ⟨hne, rfl⟩⟩
      · rename_i heq
        split
        · rename_i hst
          refine enter ⟨hn.1.setLocalState .connected, hn.2.1, fun _ => hn.2.2.1 hst, hn.2.2.2⟩
            ⟨l, hl, g, hg, Or.inr ⟨not_not.mp heq, hn.2.2.1 hst, rfl⟩⟩
        · exact hn
  rcases (ready_entered m).group g with hg | hg
  · exact Or.inl hg
  · exact (run.2.2.2 g).imp_right fun hin => ⟨hg, hin⟩

/-- Only his own request makes a peer start to join. -/
theorem joining_before {m : Membership} (hs : m.Sound) {c : Change} (hc : m.Awaits c) {q : PeerRef} (hq : m.Remote q)
    (hj : ((m.apply c).peer q).state = .joining) (hne : ∀ id pubK port newId, c ≠ .request q id pubK port newId) :
    (m.peer q).state = .joining := by
  rcases apply_state hs hc hq with h | h
  · exact h ▸ hj
  · rw [hj] at h
    cases h with
    | request id pubK port newId => exact absurd rfl (hne id pubK port newId)

/-- Finding the group of an acknowledgement brings no relay. -/
theorem ackGroup_relays {m : Membership} {groupId : Bytes} {g : GroupRef} (hg : g ∈ (m.ackGroup groupId).2.held)
    {q : PeerRef} (hq : ((m.ackGroup groupId).2.group g).Relays q) : g ∈ m.held ∧ (m.group g).Relays q := by
  have old : ((m.createGroup groupId).group g).Relays q → g ≠ m.groupCount ∧ (m.group g).Relays q := by
    intro hq
    by_cases hgc : g = m.groupCount
    · subst hgc
      rw [createGroup_self] at hq
      exact (new_relays hq).elim
    · rw [createGroup_of_ne hgc] at hq
      exact ⟨hgc, hq⟩
  unfold Membership.ackGroup at hg hq
  split at hg
  · rename_i hf
    simp only [hf] at hq
    exact ⟨hg, hq⟩
  · rename_i hf
    simp only [hf] at hq
    split at hg
    · rename_i hl
      simp only [hl] at hq
      obtain ⟨hgc, hq⟩ := old hq
      rcases mem_held.mp hg with hg | hg
      · exact absurd (Option.some.inj hg).symm hgc
      · exact ⟨mem_held.mpr (Or.inr ((createGroup_held hg).resolve_left hgc)), hq⟩
    · rename_i l hl
      simp only [hl] at hq
      have hq : ((m.createGroup groupId).group g).Relays q := by
        by_cases hgc : g = m.groupCount
        · subst hgc
          rw [modGroup_self] at hq
          exact hq
        · rw [modGroup_of_ne hgc] at hq
          exact hq
      obtain ⟨hgc, hq⟩ := old hq
      refine ⟨mem_held.mpr ?_, hq⟩
      exact (mem_held.mp hg).imp_right fun hg => (createGroup_held hg).resolve_left hgc

/-- A relay who is joining after a disconnection was one before. -/
theorem remove_relays {m : Membership} (hs : m.Sound) {p : PeerRef} (hk : m.Patient (.closed p)) {g : GroupRef}
    (hg : g ∈ m.held) {q : PeerRef} (hq : ((m.remove p).group g).Relays q) (hj : (m.peer q).state = .joining) :
    (m.group g).Relays q := by
  cases hp : m.peers.contains (m.getId p) with
  | false =>
    rw [Membership.remove, hp] at hq
    exact hq
  | true =>
    obtain ⟨l, hl⟩ := hs.localGroup_of_peers hp
    rw [remove_eq hs hl hp] at hq
    simp only at hq
    split at hq
    · rename_i hlv
      exact absurd hj ((hk hp l hl g hg hlv).relays hq)
    · split at hq
      · exact hq
      · exact hq

theorem RelaysReady.step {m : Membership} (h : m.RelaysReady) (hs : m.Sound)
    (ha : ∀ g, Apart m.localPeer (m.getId m.localPeer) m.peerCount (m.group g)) {c : Change} (hc : m.Awaits c)
    (hk : m.Patient c) : (m.apply c).RelaysReady := by
  refine h.of_joining fun g hg q hq hj => ?_
  have hkept := apart_kept m.localPeer (m.getId m.localPeer) m.peerCount
  cases c with
  | idle => exact ⟨hg, hq, hj⟩
  | accept address => exact ⟨hg, hq, joining_before hs hc ((ha g).relays q hq) hj fun _ _ _ _ h => by cases h⟩
  | contact address => exact ⟨hg, hq, joining_before hs hc ((ha g).relays q hq) hj fun _ _ _ _ h => by cases h⟩
  | request p id pubK port newId =>
    obtain ⟨hother, hadmits⟩ := hk
    have known : ∀ (hg : g ∈ (m.greet p id pubK newId).held), ((m.greet p id pubK newId).group g).Relays q →
        ((m.greet p id pubK newId).peer q).state = .joining →
        ¬ (m.joinToken = true ∧ (m.greet p id pubK newId).localGroup = some g) →
        g ∈ m.held ∧ (m.group g).Relays q ∧ (m.peer q).state = .joining := by
      intro hg hq hj hn
      refine greet_relays hg hq hj ?_
      rintro rfl
      exact (hother g hg).elim hn fun hr => hr hq
    simp only [Membership.apply, greet_token] at hg hq hj
    split at hg
    · rename_i ht
      simp only [ht, if_true] at hq hj
      obtain ⟨hl, hg, hq, hj⟩ := answer_relays (hadmits ht) hg hq hj
      exact known hg hq hj fun hn => hl hn.2
    · rename_i ht
      simp only [ht, Bool.false_eq_true, if_false] at hq hj
      exact known hg hq hj fun hn => ht hn.1
  | notified groupId peerId pubK address =>
    cases hf : m.groups.find? groupId with
    | none =>
      simp only [Membership.apply, hf] at hg hq hj
      exact ⟨hg, hq, hj⟩
    | some g' =>
      simp only [Membership.apply, hf] at hg hq hj
      rw [acknowledge_group] at hq
      split at hq
      · exact absurd hj ((hk g' hf).relays hq)
      · refine ⟨hg, hq, joining_before hs (c := .notified groupId peerId pubK address) trivial ((ha g).relays q hq) ?_
          fun _ _ _ _ h => by cases h⟩
        simp only [Membership.apply, hf]
        exact hj
  | unreached => exact ⟨hg, hq, hj⟩
  | channels peerId =>
    cases hp : m.peers.find? peerId with
    | none =>
      simp only [Membership.apply, hp] at hg hq hj
      exact ⟨hg, hq, hj⟩
    | some p =>
      obtain ⟨l, hl⟩ := hs.localGroup_of_peers (OrdMap.contains_iff.mpr ⟨p, hp⟩)
      simp only [Membership.apply, hp, enterChannels_eq hl, modGroups_eq _ hs.values_nodup] at hg hq hj
      refine ⟨hg, ?_, hj⟩
      split at hq
      · rename_i hgv
        unfold channel at hq
        split at hq
        · rename_i hne
          exact absurd hj ((hk p hp l hl g hgv hne).relays hq)
        · exact hq
      · exact hq
  | acked p groupId peerId pubK =>
    have hq' : ((m.ackGroup groupId).2.group g).Relays q := by
      rw [Membership.apply, ackPeer_group] at hq
      split at hq
      · exact hq
      · exact hq
    obtain ⟨hg, hq⟩ := ackGroup_relays hg hq'
    exact ⟨hg, hq, joining_before hs hc ((ha g).relays q hq) hj fun _ _ _ _ h => by cases h⟩
  | ready =>
    have hh : (m.apply .ready).held = m.held := by rw [(ready_entered m).rest]; rfl
    rcases ready_group m g with hgr | ⟨hgr, l, hl, g', hg', hin⟩
    · rw [hgr] at hq
      exact ⟨hh ▸ hg, hq, joining_before hs hc ((ha g).relays q hq) hj fun _ _ _ _ h => by cases h⟩
    · rw [hgr] at hq
      have hr := (hkept.update rfl (hkept.addToRings rfl hs.localPeer (ha g))).relays q hq
      rw [(ready_entered m).peer q hr.2] at hj
      obtain ⟨hchannel, hlocal⟩ := hk l hl g' hg'
      rcases hin with ⟨hne, rfl⟩ | ⟨heq, hst, rfl⟩
      · exact absurd hj ((hchannel hne).relays hq)
      · exact absurd hj ((hlocal heq hst).relays hq)
  | completed p =>
    obtain ⟨hg, hq, hj⟩ := check_relays hk hg hq hj
    rcases setState_turns m q p .connected with hst | ⟨-, hst⟩
    · exact ⟨hg, hq, hst ▸ hj⟩
    · cases hj.symm.trans hst
  | expired id =>
    cases ht : m.joinTimers.find? id with
    | none =>
      simp only [Membership.apply, ht] at hg hq hj
      exact ⟨hg, hq, hj⟩
    | some t =>
      simp only [Membership.apply, ht] at hg hq hj
      let n := { m with joinTimers := m.joinTimers.insert id { t with armed := false } }.setState t.peer .connected
      obtain ⟨hg, hq, hj⟩ := check_relays (m := { n with joinTimers := n.joinTimers.erase (n.getId t.peer) }) (hk t ht)
        hg hq hj
      rcases setState_turns m q t.peer .connected with hst | ⟨-, hst⟩
      · exact ⟨hg, hq, hst ▸ hj⟩
      · cases hj.symm.trans hst
  | readySent id =>
    simp only [Membership.apply] at hg hq hj
    split at hg
    · rename_i ht
      simp only [ht] at hq hj
      exact ⟨hg, hq, hj⟩
    · rename_i t ht
      simp only [ht] at hq hj
      exact ⟨hg, hq, hj⟩
  | closed p =>
    have hs' := hs.stopListening (hs.listening p hc)
    have hf := remove_frame hs' p
    simp only [Membership.apply, reset] at hg hq hj
    split at hg
    · rcases mem_held.mp hg with hg | hg <;> cases hg
    · rename_i hn
      simp only [hn, if_false] at hq hj
      have hg : g ∈ m.held := by rw [hf] at hg; exact hg
      have hj : ((m.stopListening p).peer q).state = .joining := by rw [hf] at hj; exact hj
      have hk' : (m.stopListening p).Patient (.closed p) := by
        intro hp l hl g hg hlv
        rw [stopListening_getId] at hp ⊢
        exact (hk hp l hl g hg (leaves_stopListening.mp hlv)).congr (stopListening_getId m p) rfl (stopListening_state m p)
      exact ⟨hg, remove_relays hs' hk' hg hq hj, (stopListening_state m p q).symm.trans hj⟩
  | failed p => exact ⟨hg, hq, (stopListening_state m p q).symm.trans hj⟩

end Membership

/-- In every reachable state, the relays exist, and we are not one of them. -/
theorem Network.Reach.apart [Platform] {allowed : Network → Event → Prop} {s : Network} (hs : Network.Reach allowed s) :
    ∀ g, Membership.Apart s.localPeer (s.getId s.localPeer) s.peerCount (s.group g) := by
  refine hs.membership (I := fun m => ∀ g, Membership.Apart m.localPeer (m.getId m.localPeer) m.peerCount (m.group g))
    (fun id pubK port clock g => (Membership.apart_kept _ _ _).new []) fun s e hr h he _ => ?_
  have hc := Network.change_awaits he
  have hle := Membership.apply_peerCount hr.sound hc
  rw [Membership.apply_author hr.sound hc, Membership.apply_localPeer hr.sound hc]
  exact (Membership.apart_kept s.localPeer _ _).apply rfl (fun g => (h g).mono hle) hr.sound hc (fun _ => id) hle

namespace Network

open RacKun.Membership (RelaysReady Patient)

section

variable [Platform]

/-- In a run where nobody comes next to us while he is joining, only peers that have joined relay
    for us. -/
theorem relays_ready {s : Network} (hs : Reach (fun s e => s.toMembership.Patient (s.change e)) s) :
    s.toMembership.RelaysReady := by
  refine hs.membership (I := fun m => m.RelaysReady) (fun id pubK port clock g hg => by cases hg) fun s e hr h he hk => ?_
  exact h.step hr.sound hr.apart (change_awaits he) hk

end

/-- We join through a member of a group, and he relays for us. -/
theorem relays_ready_one : ∃ s, @Reachable sha1 s ∧ (∃ g ∈ s.held, (s.group g).Relays 1) ∧
    s.toMembership.RelaysReady := by
  have hrun : @leadsTo sha1 (fun s e => @Patient sha1 s.toMembership (@change sha1 s e)) _ node
      [.join [] [] (some [9]), .read 1 (ack 65) none, .read 1 (msg 1 .ready) none]
      (fun s => decide (∃ g ∈ s.held, (s.group g).Relays 1)) = true := by
    decide +kernel
  obtain ⟨s, hs, ht⟩ := @reach_of_leadsTo sha1 _ _ _ _ _ _ _ _ hrun
  exact ⟨s, @Reach.reachable sha1 _ _ hs, of_decide_eq_true ht, @relays_ready sha1 s hs⟩

/-- A newcomer joins through us, who have been alone: he relays for us at once. -/
theorem newcomer_relays : ¬ ∀ s, @Reachable sha1 s → s.toMembership.RelaysReady := by
  intro h
  have hrun : @leadsTo sha1 (fun _ _ => True) _ node [.accept [9], .read 1 (request 65) none]
      (fun s => decide (∃ g ∈ s.held, (s.group g).Relays 1 ∧ (s.peer 1).state = .joining)) = true := by
    decide +kernel
  obtain ⟨s, hs, ht⟩ := @reach_of_leadsTo sha1 _ _ _ _ _ _ _ _ hrun
  obtain ⟨g, hg, hq, hj⟩ := of_decide_eq_true ht
  exact h s hs g hg 1 hq hj

end Network

end RacKun
