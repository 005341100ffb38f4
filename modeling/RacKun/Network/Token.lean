/-
  RacKun.Network.Token — the join token: taken when a newcomer is acknowledged, here or
  after a notification, released when a join is known to be over.

  The token has no owner. Any READY Notification and any join timer ends "the" join, so
  overlapping joins release it early (`Exclusive` says when they do not); and nothing
  releases it when the newcomer whose notification is awaited disconnects, or counts as
  connected, or is no neighbour any more (`TokenSafe` says when somebody is left who can).

  - `Exclusive.step`: with the token free, no registered peer is joining.
  - `Releasable.step`: with the token taken, a join timer or a joining neighbour is left.
-/

import RacKun.Network.Groups

namespace RacKun

open Lib (OrdMap)

open Scenario

namespace Membership

/-- The groups of a node, its own first. -/
def held (m : Membership) : List GroupRef := m.localGroup.toList ++ m.groups.values

/-- A join timer is armed. -/
def Timed (m : Membership) : Prop := ∃ e ∈ m.joinTimers.entries, e.2.armed = true

/-- Registered under this ID, joining, and a direct neighbour in this group: his READY
    Notification is awaited. -/
def Awaited (m : Membership) (e : Bytes × PeerRef) (g : GroupRef) : Prop :=
  (m.peer e.2).state = .joining ∧ (m.group g).lists e.1

/-- What is left to release the token. -/
def Releasable (m : Membership) : Prop := m.Timed ∨ ∃ e ∈ m.peers.entries, ∃ g ∈ m.held, m.Awaited e g

/-- No registered peer is joining. -/
def Settled (m : Membership) : Prop := ∀ e ∈ m.peers.entries, (m.peer e.2).state ≠ .joining

variable [Platform]

/-! ## Conditions -/

/-- When a join ends with this peer, the request answered next is one of a joining peer,
    or of one who will get a timer. -/
def AnswersJoining (m : Membership) (p : PeerRef) : Prop :=
  ∀ q ∈ (m.setState p .connected).pending?, ∃ l ∈ m.localGroup,
    ((m.setState p .connected).peer q).state = .joining ∨ ¬ ((m.group l).takeIn m.getId m.localPeer q).lists (m.getId q)

/-- The step does not cost us the awaited neighbour. Where the handler looks the neighbours up
    again, the rings say who they will be: what is cached may be out of date. -/
def Survives (m : Membership) (e : Bytes × PeerRef) (g : GroupRef) : Change → Prop
  | .request .. => m.localState = .connected ∨ g ∈ m.groups.values
  | .channels peerId => ∀ p ∈ m.peers.find? peerId, ∀ l ∈ m.localGroup, (m.channel l p (m.group g)).lists e.1
  | .acked p _ peerId _ => e.1 ≠ peerId ∧ e.2 ≠ p
  | .ready => ((m.group g).enter m.getId m.localPeer m.localPeer).lists e.1
  | .closed p => m.peers.contains (m.getId p) = true → e.1 ≠ m.getId p ∧
      ∀ l ∈ m.localGroup, m.leaves l p g → ((m.group g).leave m.getId m.localPeer p).lists e.1
  | _ => True

/-- Every connection succeeds; the end of a join starts no join that cannot end; and the
    steps that can cost us an awaited neighbour, while the token is taken and no timer
    armed, leave us one. -/
def TokenSafe (m : Membership) (c : Change) : Prop :=
  match c with
  | .unreached => False
  | .completed p => m.AnswersJoining p
  | .expired id => ∀ t ∈ m.joinTimers.find? id, m.AnswersJoining t.peer
  | .idle | .accept _ | .contact _ | .notified .. | .readySent _ | .failed _ => True
  | c => m.joinToken = true ∨ m.Timed ∨ ∃ e ∈ m.peers.entries, ∃ g ∈ m.held, m.Awaited e g ∧ m.Survives e g c

/-- A join ends only when no other is under way. -/
def Exclusive (m : Membership) (c : Change) : Prop :=
  match c with
  | .completed p => ∀ e ∈ m.peers.entries, e.2 ≠ p → (m.peer e.2).state ≠ .joining
  | .expired id => ∀ t ∈ m.joinTimers.find? id, ∀ e ∈ m.peers.entries, e.2 ≠ t.peer → (m.peer e.2).state ≠ .joining
  | _ => True

instance (m : Membership) : Decidable m.Timed := inferInstanceAs (Decidable (∃ e ∈ m.joinTimers.entries, _))

instance (m : Membership) (e : Bytes × PeerRef) (g : GroupRef) : Decidable (m.Awaited e g) :=
  inferInstanceAs (Decidable (_ ∧ (_ ∨ _)))

instance (m : Membership) (p : PeerRef) : Decidable (m.AnswersJoining p) := by
  unfold AnswersJoining Group.lists
  infer_instance

instance (g : Group) (id : Bytes) : Decidable (g.lists id) := inferInstanceAs (Decidable (_ ∨ _))

instance (m : Membership) (e : Bytes × PeerRef) (g : GroupRef) : (c : Change) → Decidable (m.Survives e g c)
  | .request .. => inferInstanceAs (Decidable (_ ∨ _))
  | .channels peerId => inferInstanceAs (Decidable (∀ p ∈ m.peers.find? peerId, ∀ l ∈ m.localGroup, _))
  | .acked .. => inferInstanceAs (Decidable (_ ∧ _))
  | .ready => inferInstanceAs (Decidable (Group.lists _ _))
  | .closed _ => inferInstanceAs (Decidable (_ → _ ∧ ∀ l ∈ m.localGroup, _ → _))
  | .idle | .accept _ | .contact _ | .notified .. | .unreached | .completed _ | .expired _ | .readySent _ |
    .failed _ => inferInstanceAs (Decidable True)

instance (m : Membership) : (c : Change) → Decidable (m.TokenSafe c)
  | .unreached => inferInstanceAs (Decidable False)
  | .completed p => inferInstanceAs (Decidable (m.AnswersJoining p))
  | .expired id => inferInstanceAs (Decidable (∀ t ∈ m.joinTimers.find? id, m.AnswersJoining t.peer))
  | .idle | .accept _ | .contact _ | .notified .. | .readySent _ | .failed _ => inferInstanceAs (Decidable True)
  | .request .. | .channels _ | .acked .. | .ready | .closed _ =>
    inferInstanceAs (Decidable (_ ∨ _ ∨ ∃ e ∈ m.peers.entries, ∃ g ∈ m.held, _ ∧ _))

instance (m : Membership) : (c : Change) → Decidable (m.Exclusive c)
  | .completed p => inferInstanceAs (Decidable (∀ e ∈ m.peers.entries, e.2 ≠ p → (m.peer e.2).state ≠ .joining))
  | .expired id => inferInstanceAs (Decidable (∀ t ∈ m.joinTimers.find? id, ∀ e ∈ m.peers.entries,
      e.2 ≠ t.peer → (m.peer e.2).state ≠ .joining))
  | .idle | .accept _ | .contact _ | .request .. | .notified .. | .unreached | .channels _ | .acked .. | .ready |
    .readySent _ | .closed _ | .failed _ => inferInstanceAs (Decidable True)

/-! ## What a step keeps -/

omit [Platform] in
theorem mem_held {m : Membership} {g : GroupRef} : g ∈ m.held ↔ m.localGroup = some g ∨ g ∈ m.groups.values := by
  simp only [held, List.mem_append, Option.mem_toList]

/-- A joining peer who has just been acknowledged gets a timer, or is a neighbour. -/
theorem acknowledge_releasable {m : Membership} {p : PeerRef} {g : GroupRef} (hg : g ∈ m.held)
    (h : (m.peer p).state = .joining ∨ ¬ ((m.group g).takeIn m.getId m.localPeer p).lists (m.getId p)) :
    (m.acknowledge p g).Releasable := by
  have hd : (m.takeIn p g).direct g p = true ↔ ((m.group g).takeIn m.getId m.localPeer p).lists (m.getId p) := by
    rw [takeIn_eq, direct, modGroup_self, Bool.or_eq_true]
    rfl
  by_cases hl : ((m.group g).takeIn m.getId m.localPeer p).lists (m.getId p)
  · right
    refine ⟨(m.getId p, p), OrdMap.mem_entries.mpr (OrdMap.find_insert_self ..), g, hg,
      h.resolve_right (not_not.mpr hl), ?_⟩
    rw [acknowledge_group, if_pos rfl]
    exact hl
  · left
    have hd : (m.takeIn p g).direct g p = false := by
      rw [← Bool.not_eq_true, hd]
      exact hl
    refine ⟨(m.getId p, ⟨p, true⟩), ?_, rfl⟩
    rw [acknowledge, armJoinTimer, hd]
    exact OrdMap.mem_entries.mpr (OrdMap.find_insert_self ..)

theorem answer_releasable {m : Membership} {p : PeerRef} {l : GroupRef} (hl : m.localGroup = some l)
    (h : (m.peer p).state = .joining ∨ ¬ ((m.group l).takeIn m.getId m.localPeer p).lists (m.getId p)) :
    (m.answer p).Releasable := by
  rw [answer_eq hl]
  exact acknowledge_releasable (m := { m with
    joinToken := false
    newPeers := m.newPeers.erase (m.peer p).address }) (mem_held.mpr (Or.inl hl)) h

/-- The end of a join frees the token, or hands it to a join that will end. -/
theorem check_releasable {m : Membership} (h : ∀ q ∈ m.pending?, ∃ l ∈ m.localGroup,
    (m.peer q).state = .joining ∨ ¬ ((m.group l).takeIn m.getId m.localPeer q).lists (m.getId q)) :
    m.check.joinToken = false → m.check.Releasable := by
  unfold check
  split
  · rename_i q hq
    obtain ⟨l, hl, hj⟩ := h q hq
    exact fun _ => answer_releasable hl hj
  · exact fun hf => by cases hf

omit [Platform] in
/-- A step under which the timers, the registered peers and the neighbours stay. -/
theorem Releasable.same {m n : Membership} (h : m.Releasable) (ht : n.joinTimers = m.joinTimers)
    (hp : n.peers = m.peers) (hh : ∀ g ∈ m.held, g ∈ n.held) (hg : n.group = m.group)
    (hs : ∀ e ∈ m.peers.entries, (m.peer e.2).state = .joining → (n.peer e.2).state = .joining) : n.Releasable := by
  rcases h with ⟨e, he, ha⟩ | ⟨e, he, g, hg', hj, hl⟩
  · exact Or.inl ⟨e, ht ▸ he, ha⟩
  · exact Or.inr ⟨e, hp ▸ he, g, hh g hg', hs e he hj, hg ▸ hl⟩

omit [Platform] in
theorem held_lt {m : Membership} (hs : m.Sound) {g : GroupRef} (hg : g ∈ m.held) : g < m.groupCount := by
  rcases mem_held.mp hg with hg | hg
  · exact hs.localGroup g hg
  · obtain ⟨id, hg⟩ := OrdMap.mem_values.mp hg
    exact (hs.groups id g hg).1

omit [Platform] in
/-- Creating a group drops none. -/
theorem createGroup_values {m : Membership} {g : GroupRef} (hg : g ∈ m.groups.values) (id : Bytes) :
    g ∈ (m.createGroup id).groups.values := by
  obtain ⟨id', hg⟩ := OrdMap.mem_values.mp hg
  refine OrdMap.mem_values.mpr ⟨id', ?_⟩
  show (m.groups.insertNew id m.groupCount).find? id' = some g
  rw [OrdMap.find_insertNew]
  split
  · rename_i he
    rw [← he, hg]
    rfl
  · exact hg

theorem ackGroup_held {m : Membership} (hl : m.localGroup ≠ none) {g : GroupRef} (hg : g ∈ m.held)
    (groupId : Bytes) : g ∈ (m.ackGroup groupId).2.held := by
  unfold ackGroup
  split
  · exact hg
  · split
    · rename_i hn
      exact absurd hn hl
    · exact mem_held.mpr ((mem_held.mp hg).imp_right fun h => createGroup_values h groupId)

omit [Platform] in
theorem Sound.registered {m : Membership} (hs : m.Sound) {e : Bytes × PeerRef} (he : e ∈ m.peers.entries) :
    m.Remote e.2 := hs.peers e.1 e.2 (OrdMap.mem_entries.mp he)

theorem greet_state {m : Membership} {p q : PeerRef} (hq : q ≠ m.localPeer) (hj : (m.peer q).state = .joining)
    (id pubK newId : Bytes) : ((m.greet p id pubK newId).peer q).state = .joining := by
  unfold greet
  by_cases hqp : q = p
  · subst hqp
    rw [setState, modPeer_self]
  · rw [setState, modPeer_of_ne hqp, initPeer, modPeer_of_ne hqp]
    split
    · show (((m.setState m.localPeer .connected).peer q)).state = _
      rw [setState, modPeer_of_ne hq]
      exact hj
    · exact hj

theorem request_releasable {m : Membership} (hs : m.Sound) {p : PeerRef} {id pubK : Bytes} {port : Port} {newId : Bytes}
    (hk : m.TokenSafe (.request p id pubK port newId)) :
    (m.apply (.request p id pubK port newId)).Releasable := by
  simp only [Membership.apply, greet_token]
  split
  · obtain ⟨l, hl⟩ := greet_localGroup hs p id pubK newId
    refine answer_releasable hl (Or.inl ?_)
    rw [greet, setState, modPeer_self]
  · rename_i ht
    have hfix : (m.greet p id pubK newId).joinTimers = m.joinTimers ∧ (m.greet p id pubK newId).peers = m.peers := by
      unfold greet
      split <;> exact ⟨rfl, rfl⟩
    rcases hk with h | ⟨e, he, ha⟩ | ⟨e, he, g, hg, ⟨hj, hl⟩, hsv⟩
    · exact absurd h ht
    · exact Or.inl ⟨e, hfix.1 ▸ he, ha⟩
    · have hgc := held_lt hs hg
      refine Or.inr ⟨e, hfix.2 ▸ he, g, ?_, greet_state (hs.registered he).2 hj id pubK newId, ?_⟩
      · show g ∈ (m.greet p id pubK newId).held
        unfold greet
        split
        · rename_i hc
          exact mem_held.mpr (Or.inr (createGroup_values (hsv.resolve_left hc) newId))
        · exact hg
      · show ((m.greet p id pubK newId).group g).lists e.1
        unfold greet
        split
        · rw [show (Membership.setState _ p _).group g = (m.found newId).group g from rfl, found_group,
            if_neg (Nat.ne_of_lt hgc)]
          exact hl
        · exact hl

theorem channels_releasable {m : Membership} (hs : m.Sound) {peerId : Bytes} (hk : m.TokenSafe (.channels peerId))
    (ht : (m.apply (.channels peerId)).joinToken = false) : (m.apply (.channels peerId)).Releasable := by
  cases hp : m.peers.find? peerId with
  | none =>
    simp only [Membership.apply, hp] at ht ⊢
    rcases hk with h | h | ⟨e, he, g, hg, ha, -⟩
    · cases h.symm.trans ht
    · exact Or.inl h
    · exact Or.inr ⟨e, he, g, hg, ha⟩
  | some p =>
    simp only [Membership.apply, hp] at ht ⊢
    cases hl : m.localGroup with
    | none => rw [(hs.alone hl).2.1] at hp; cases hp
    | some l =>
      rw [enterChannels_eq hl, modGroups_eq _ hs.values_nodup] at ht ⊢
      rcases hk with h | h | ⟨e, he, g, hg, ⟨hj, hc⟩, hsv⟩
      · cases h.symm.trans ht
      · exact Or.inl h
      · refine Or.inr ⟨e, he, g, hg, hj, ?_⟩
        simp only
        split
        · exact hsv p hp l hl
        · exact hc

theorem acked_releasable {m : Membership} (hs : m.Sound) {p : PeerRef} {groupId peerId pubK : Bytes}
    (hk : m.TokenSafe (.acked p groupId peerId pubK))
    (ht : (m.apply (.acked p groupId peerId pubK)).joinToken = false) :
    (m.apply (.acked p groupId peerId pubK)).Releasable := by
  have hfix := ackGroup_rest m groupId
  have ht : (m.ackGroup groupId).2.joinToken = false := ht
  rcases hk with h | ⟨e, he, ha⟩ | ⟨e, he, g, hg, ⟨hj, hc⟩, h₁, h₂⟩
  · rw [hfix.2.2.1, h] at ht
    cases ht
  · left
    refine ⟨e, ?_, ha⟩
    show e ∈ (m.ackGroup groupId).2.joinTimers.entries
    rw [hfix.2.2.2]
    exact he
  · right
    have hpe := OrdMap.mem_entries.mp he
    refine ⟨e, ?_, g, ?_, ?_, ?_⟩
    · show e ∈ ((m.ackGroup groupId).2.peers.insert peerId p).entries
      refine OrdMap.mem_entries.mpr ?_
      rw [OrdMap.find_insert_ne _ _ h₁, hfix.1]
      exact hpe
    · show g ∈ (m.ackGroup groupId).2.held
      exact ackGroup_held (fun hn => by rw [(hs.alone hn).2.1] at hpe; cases hpe) hg groupId
    · rw [Membership.apply, ackPeer, Membership.addPeer]
      show ((((m.ackGroup groupId).2.initPeer p peerId pubK).setState p .connected).peer e.2).state = _
      rw [setState, modPeer_of_ne h₂, initPeer, modPeer_of_ne h₂, hfix.2.1]
      exact hj
    · rw [Membership.apply, ackPeer_group, ackGroup_old (held_lt hs hg)]
      split <;> exact hc

theorem ready_releasable {m : Membership} (hs : m.Sound) (hk : m.TokenSafe .ready)
    (ht : (m.apply .ready).joinToken = false) : (m.apply .ready).Releasable := by
  have he := ready_entered m
  rw [he.rest] at ht
  rcases hk with h | ⟨e, hm, ha⟩ | ⟨e, hm, g, hg, ⟨hj, hl⟩, hsv⟩
  · cases h.symm.trans ht
  · left
    rw [he.rest]
    exact ⟨e, hm, ha⟩
  · right
    refine ⟨e, by rw [he.rest]; exact hm, g, by rw [he.rest]; exact hg, ?_, ?_⟩
    · rw [he.peer _ (hs.registered hm).2]
      exact hj
    · rcases he.group g with hg | hg
      · rw [hg]
        exact hl
      · rw [hg]
        exact hsv

omit [Platform] in
/-- Somebody is left, so the membership is not reset. -/
theorem Releasable.reset {m : Membership} (h : m.Releasable) {e : Bytes × PeerRef} (he : e ∈ m.peers.entries) :
    m.reset.Releasable := by
  rw [Membership.reset, if_neg]
  · exact h
  · rintro ⟨hz, -⟩
    rw [OrdMap.size, List.length_eq_zero_iff] at hz
    rw [hz] at he
    cases he

theorem closed_releasable {m : Membership} (hs : m.Sound) {p : PeerRef} (hc : m.Awaits (.closed p))
    (hk : m.TokenSafe (.closed p)) (ht : (m.apply (.closed p)).joinToken = false) :
    (m.apply (.closed p)).Releasable := by
  have hids := stopListening_getId m p
  have hsn := hs.stopListening (hs.listening p hc)
  have hfix : ∀ n : Membership, n.reset.joinToken = n.joinToken ∧ n.reset.joinTimers = n.joinTimers := fun n => by
    rw [reset_frame]
    exact ⟨rfl, rfl⟩
  have hrem := remove_rest hsn p
  rw [Membership.apply, (hfix _).1, hrem.1] at ht
  rw [Membership.apply]
  rcases hk with h | ⟨e, he, ha⟩ | ⟨e, he, g, hg, ⟨hj, hl⟩, hsv⟩
  · cases h.symm.trans ht
  · left
    refine ⟨e, ?_, ha⟩
    rw [(hfix _).2, hrem.2.1]
    exact he
  · have hj' : ((m.stopListening p).peer e.2).state = .joining := (stopListening_state m p e.2).trans hj
    cases hp : m.peers.contains (m.getId p) with
    | false =>
      have hr : (m.stopListening p).remove p = { m.stopListening p with
          newPeers := m.newPeers.erase ((m.stopListening p).peer p).address } := by
        rw [remove, hids, show (m.stopListening p).peers = m.peers from rfl, hp]
        rfl
      rw [hr]
      refine Releasable.reset (Or.inr ⟨e, ?_, g, ?_, hj', hl⟩) (e := e) ?_
      · exact he
      · exact hg
      · exact he
    | true =>
      obtain ⟨l, hl'⟩ := hs.localGroup_of_peers (OrdMap.contains_iff.mpr ⟨e.2, OrdMap.mem_entries.mp he⟩)
      obtain ⟨hne, hsv⟩ := hsv hp
      have he' : e ∈ (m.peers.erase (m.getId p)).entries := by
        refine OrdMap.mem_entries.mpr ?_
        rw [OrdMap.find_erase_ne _ hne]
        exact OrdMap.mem_entries.mp he
      rw [remove_eq hsn hl' (by rw [hids]; exact hp), hids]
      refine Releasable.reset (Or.inr ⟨e, he', g, hg, hj', ?_⟩) he'
      simp only [leaves_stopListening]
      split
      · rename_i hlv
        exact hsv l hl' hlv
      · split <;> exact hl

theorem Releasable.step {m : Membership} (h : m.joinToken = false → m.Releasable) (hs : m.Sound) {c : Change}
    (hc : m.Awaits c) (hk : m.TokenSafe c) : (m.apply c).joinToken = false → (m.apply c).Releasable := by
  intro ht
  cases c with
  | idle => exact h ht
  | accept address =>
    refine (h ht).same rfl rfl (fun g hg => hg) rfl fun e he hj => ?_
    have hne := Nat.ne_of_lt (hs.registered he).1
    rw [Membership.apply, addNewPeer, startListening, modPeer_of_ne hne]
    exact (congrArg Peer.state (newPeer_of_ne hne address)).trans hj
  | contact address =>
    refine (h ht).same rfl rfl (fun g hg => hg) rfl fun e he hj => ?_
    obtain ⟨hlt, hl⟩ := hs.registered he
    have hne := Nat.ne_of_lt hlt
    rw [Membership.apply, addNewPeer, startListening, modPeer_of_ne hne]
    show (((m.newPeer address).setState m.localPeer .joining).peer e.2).state = _
    rw [setState, modPeer_of_ne hl, newPeer_of_ne hne]
    exact hj
  | request p id pubK port newId => exact request_releasable hs hk
  | notified groupId peerId pubK address =>
    simp only [Membership.apply] at ht ⊢
    split
    · rename_i hg
      simp only [hg] at ht
      exact h ht
    · rename_i g hg
      refine acknowledge_releasable (mem_held.mpr (Or.inr (OrdMap.mem_values.mpr ⟨groupId, hg⟩))) (Or.inl ?_)
      rw [enrol, startListening, modPeer_self, setState, modPeer_self]
  | unreached => exact hk.elim
  | channels peerId => exact channels_releasable hs hk ht
  | acked p groupId peerId pubK => exact acked_releasable hs hk ht
  | ready => exact ready_releasable hs hk ht
  | completed p =>
    refine check_releasable (fun q hq => ?_) ht
    rw [setState_getId]
    exact hk q hq
  | expired id =>
    simp only [Membership.apply] at ht ⊢
    split
    · rename_i hg
      simp only [hg] at ht
      exact h ht
    · rename_i t hg
      simp only [hg] at ht
      refine check_releasable (fun q hq => ?_) ht
      obtain ⟨l, hl, hj⟩ := hk t hg q hq
      refine ⟨l, hl, hj.imp_right fun hn => ?_⟩
      have hids : (Membership.setState { m with
          joinTimers := m.joinTimers.insert id { t with armed := false } } t.peer .connected).getId = m.getId :=
        setState_getId ..
      show ¬ ((m.group l).takeIn (Membership.setState _ t.peer .connected).getId m.localPeer q).lists
        ((Membership.setState _ t.peer .connected).getId q)
      rw [hids]
      exact hn
  | readySent id =>
    simp only [Membership.apply] at ht ⊢
    split
    · rename_i hg
      simp only [hg] at ht
      exact h ht
    · rename_i t hg
      simp only [hg] at ht
      exact (h ht).same rfl rfl (fun g hg => hg) rfl fun e he hj => hj
  | closed p => exact closed_releasable hs hc hk ht
  | failed p =>
    exact (h ht).same rfl rfl (fun g hg => hg) rfl fun e he hj => (stopListening_state m p e.2).trans hj

/-! ## Joins one at a time -/

omit [Platform] in
/-- Registered peers are still registered, and none has started joining. -/
theorem Settled.same {m n : Membership} (h : m.Settled) (hp : ∀ e ∈ n.peers.entries, e ∈ m.peers.entries)
    (hs : ∀ e ∈ m.peers.entries, (n.peer e.2).state = .joining → (m.peer e.2).state = .joining) : n.Settled :=
  fun e he hj => h e (hp e he) (hs e (hp e he) hj)

theorem answer_token {m : Membership} {l : GroupRef} (hl : m.localGroup = some l) (p : PeerRef) :
    (m.answer p).joinToken = false := by
  rw [answer_eq hl]
  rfl

/-- The token is freed when every join is over. -/
theorem check_settled {m : Membership} (h : m.Settled) : m.check.joinToken = true → m.check.Settled := by
  unfold check
  split
  · rename_i p _
    intro ht
    cases hl : m.localGroup with
    | none => simp only [answer, hl]; exact h
    | some l => cases (answer_token hl p).symm.trans ht
  · exact fun _ => h

omit [Platform] in
theorem setState_settled {m : Membership} {p : PeerRef}
    (h : ∀ e ∈ m.peers.entries, e.2 ≠ p → (m.peer e.2).state ≠ .joining) : (m.setState p .connected).Settled := by
  intro e he hj
  by_cases hp : e.2 = p
  · rw [hp, setState, modPeer_self] at hj
    cases hj
  · rw [setState, modPeer_of_ne hp] at hj
    exact h e he hp hj

theorem Settled.step {m : Membership} (h : m.joinToken = true → m.Settled) (hs : m.Sound) {c : Change}
    (hc : m.Awaits c) (hk : m.Exclusive c) : (m.apply c).joinToken = true → (m.apply c).Settled := by
  intro ht
  cases c with
  | idle => exact h ht
  | accept address =>
    refine (h ht).same (fun e he => he) fun e he hj => ?_
    have hne := Nat.ne_of_lt (hs.registered he).1
    rw [Membership.apply, addNewPeer, startListening, modPeer_of_ne hne] at hj
    exact (congrArg Peer.state (newPeer_of_ne hne address)).symm.trans hj
  | contact address =>
    refine (h ht).same (fun e he => he) fun e he hj => ?_
    obtain ⟨hlt, hl⟩ := hs.registered he
    have hne := Nat.ne_of_lt hlt
    rw [Membership.apply, addNewPeer, startListening, modPeer_of_ne hne] at hj
    have hj : (((m.newPeer address).setState m.localPeer .joining).peer e.2).state = .joining := hj
    rw [setState, modPeer_of_ne hl, newPeer_of_ne hne] at hj
    exact hj
  | request p id pubK port newId =>
    simp only [Membership.apply] at ht ⊢
    obtain ⟨l, hl⟩ := greet_localGroup hs p id pubK newId
    split at ht
    · cases (answer_token hl p).symm.trans ht
    · rename_i hf
      exact absurd ht hf
  | notified groupId peerId pubK address =>
    simp only [Membership.apply] at ht ⊢
    split
    · rename_i hg
      simp only [hg] at ht
      exact h ht
    · rename_i g hg
      simp only [hg] at ht
      cases ht
  | unreached => cases ht
  | channels peerId =>
    simp only [Membership.apply] at ht ⊢
    split
    · rename_i hp
      simp only [hp] at ht
      exact h ht
    · rename_i p hp
      simp only [hp] at ht
      cases hl : m.localGroup with
      | none => simp only [enterChannels, hl] at ht ⊢; exact h ht
      | some l =>
        rw [enterChannels_eq hl, modGroups_eq _ hs.values_nodup] at ht ⊢
        exact h ht
  | acked p groupId peerId pubK =>
    obtain ⟨hps, hpr, htk, -⟩ := ackGroup_rest m groupId
    have ht : (m.ackGroup groupId).2.joinToken = true := ht
    rw [htk] at ht
    intro e he hj
    have he : e ∈ ((m.ackGroup groupId).2.peers.insert peerId p).entries := he
    have hj : ((((m.ackGroup groupId).2.initPeer p peerId pubK).setState p .connected).peer e.2).state = .joining := hj
    by_cases hp : e.2 = p
    · rw [hp, setState, modPeer_self] at hj
      cases hj
    · rw [setState, modPeer_of_ne hp, initPeer, modPeer_of_ne hp, hpr] at hj
      have he := OrdMap.mem_entries.mp he
      rw [OrdMap.find_insert, hps] at he
      split at he
      · exact hp (Option.some.inj he).symm
      · exact h ht e (OrdMap.mem_entries.mpr he) hj
  | ready =>
    have he := ready_entered m
    rw [he.rest] at ht
    refine (h ht).same (fun e hm => by rw [he.rest] at hm; exact hm) fun e hm hj => ?_
    rw [he.peer _ (hs.registered hm).2] at hj
    exact hj
  | completed p => exact check_settled (setState_settled hk) ht
  | expired id =>
    simp only [Membership.apply] at ht ⊢
    split
    · rename_i hg
      simp only [hg] at ht
      exact h ht
    · rename_i t hg
      simp only [hg] at ht
      refine check_settled ?_ ht
      exact setState_settled (m := { m with joinTimers := m.joinTimers.insert id { t with armed := false } }) (hk t hg)
  | readySent id =>
    simp only [Membership.apply] at ht ⊢
    split
    · rename_i hg
      simp only [hg] at ht
      exact h ht
    · rename_i t hg
      simp only [hg] at ht
      exact h ht
  | closed p =>
    obtain ⟨htk, -, hpr, hsub⟩ := remove_rest (hs.stopListening (hs.listening p hc)) p
    have hreset : ∀ n : Membership, n.reset.joinToken = n.joinToken ∧
        (n.Settled → n.reset.Settled) := by
      intro n
      unfold reset
      split
      · rename_i hz
        refine ⟨rfl, fun _ e he => ?_⟩
        have he : e ∈ n.peers.entries := he
        rw [OrdMap.size_eq_zero.mp hz.1] at he
        cases he
      · exact ⟨rfl, id⟩
    rw [Membership.apply, (hreset _).1, htk] at ht
    refine (hreset _).2 ((h ht).same hsub fun e _ hj => ?_)
    rw [hpr] at hj
    exact (stopListening_state m p e.2).symm.trans hj
  | failed p => exact (h ht).same (fun e he => he) fun e _ hj => (stopListening_state m p e.2).symm.trans hj

end Membership

namespace Network

open RacKun.Membership (TokenSafe Exclusive Releasable Settled)

section

variable [Platform]

/-- In a run of safe steps, a taken token can always be released. -/
theorem token_releasable {s : Network} (hs : Reach (fun s e => s.toMembership.TokenSafe (s.change e)) s) :
    s.joinToken = false → s.toMembership.Releasable :=
  hs.membership (I := fun m => m.joinToken = false → m.Releasable) (fun id pubK port clock h => by cases h)
    fun s e hr h he hk => Releasable.step h hr.sound (change_awaits he) hk

end

/-- While a newcomer is joining, another asks to. -/
theorem token_releasable_pending : ∃ s, @Reachable sha1 s ∧ s.joinToken = false ∧ s.newPeers.size = 1 ∧
    s.toMembership.Releasable := by
  have hrun : @leadsTo sha1 (fun s e => @TokenSafe sha1 s.toMembership (@change sha1 s e)) _ node
      [.accept [9], .read 1 (request 65) none, .accept [8], .read 2 (request 66) none]
      (fun s => decide (s.joinToken = false ∧ s.newPeers.size = 1)) = true := by
    decide +kernel
  obtain ⟨s, hs, ht⟩ := @reach_of_leadsTo sha1 _ _ _ _ _ _ _ _ hrun
  obtain ⟨ht, hn⟩ := of_decide_eq_true ht
  exact ⟨s, @Reach.reachable sha1 _ _ hs, ht, hn, @token_releasable sha1 s hs ht⟩

/-- A newcomer disconnects before his READY Notification. -/
theorem token_orphaned : ¬ ∀ s, @Reachable sha1 s → s.joinToken = false → s.toMembership.Releasable := by
  intro h
  have hrun : @leadsTo sha1 (fun _ _ => True) _ node [.accept [9], .read 1 (request 65) none, .eof 1]
      (fun s => decide (s.joinToken = false ∧ s.joinTimers.entries = [] ∧ s.peers.entries = [])) = true := by
    decide +kernel
  obtain ⟨s, hs, ht⟩ := @reach_of_leadsTo sha1 _ _ _ _ _ _ _ _ hrun
  obtain ⟨ht, hj, hp⟩ := of_decide_eq_true ht
  rcases h s hs ht with ⟨e, he, -⟩ | ⟨e, he, -⟩
  · rw [hj] at he
    cases he
  · rw [hp] at he
    cases he

section

variable [Platform]

/-- In a run where a join ends only when no other is under way, nobody is joining while
    the token is free. -/
theorem joins_exclusive {s : Network} (hs : Reach (fun s e => s.toMembership.Exclusive (s.change e)) s) :
    s.joinToken = true → s.toMembership.Settled :=
  hs.membership (I := fun m => m.joinToken = true → m.Settled) (fun id pubK port clock _ e he => by cases he)
    fun s e hr h he hk => Settled.step h hr.sound (change_awaits he) hk

end

/-- A newcomer joins, and is done. -/
theorem joins_exclusive_one : ∃ s, @Reachable sha1 s ∧ s.joinToken = true ∧ s.peers.size = 1 ∧
    s.toMembership.Settled := by
  have hrun : @leadsTo sha1 (fun s e => s.toMembership.Exclusive (@change sha1 s e)) _ node
      [.accept [9], .read 1 (request 65) none, .read 1 (msg 1 .readyNotif) none]
      (fun s => decide (s.joinToken = true ∧ s.peers.size = 1)) = true := by
    decide +kernel
  obtain ⟨s, hs, ht⟩ := @reach_of_leadsTo sha1 _ _ _ _ _ _ _ _ hrun
  obtain ⟨ht, hn⟩ := of_decide_eq_true ht
  exact ⟨s, @Reach.reachable sha1 _ _ hs, ht, hn, @joins_exclusive sha1 s hs ht⟩

/-- We are a member of a group. A newcomer joins through us, then another one through the
    other member; the first one's READY Notification frees the token. -/
theorem joins_overlap : ¬ ∀ s, @Reachable sha1 s → s.joinToken = true → s.toMembership.Settled := by
  intro h
  have hrun : @leadsTo sha1 (fun _ _ => True) _ node
      [.join [] [] (some [9]), .read 1 (ack 65) none, .read 1 (msg 1 .ready) none,
        .accept [8], .read 2 (request 66) none,
        .read 1 (msg 2 (.joinNotif (@makeHash sha1 (idOf 200 ++ idOf 200)) false (idOf 200) (idOf 67)
          (List.replicate 5 67) [] 7)) (some [7]),
        .read 2 (msg 3 .readyNotif) none]
      (fun s => decide (s.joinToken = true ∧ ∃ e ∈ s.peers.entries, (s.peer e.2).state = .joining)) = true := by
    decide +kernel
  obtain ⟨s, hs, ht⟩ := @reach_of_leadsTo sha1 _ _ _ _ _ _ _ _ hrun
  obtain ⟨ht, e, he, hj⟩ := of_decide_eq_true ht
  exact h s hs ht e he hj

end Network

end RacKun
