/-
  RacKun.Network.Frame — what a step can do to the peers, to the table of pending peers,
  to the join timers and to the local group.

  - `apply_stays`: a peer keeps its address, and once known stays known; `apply_state` names
    the changes that turn a peer's state.
  - `apply_pends`: a step enters a new connection, drops one address, or notes a port.
  - `apply_regroups`: the local group is set once, or replaced by a group founded, or
    cleared with everything else.
-/

import RacKun.Network.Answering

namespace RacKun

open Lib (OrdMap)

namespace Membership

/-! ## Peers -/

/-- A peer at two moments: the same address, and still known if he was. -/
structure Stays (x y : Peer) : Prop where
  address : y.address = x.address
  known : x.isKnown = true → y.isKnown = true

theorem Stays.refl (x : Peer) : Stays x x := ⟨rfl, id⟩

theorem Stays.of_eq {x y : Peer} (h : y = x) : Stays x y := h ▸ .refl x

theorem Stays.trans {x y z : Peer} (h : Stays x y) (h' : Stays y z) : Stays x z :=
  ⟨h'.address.trans h.address, fun hk => h'.known (h.known hk)⟩

theorem modPeer_stays (m : Membership) (p q : PeerRef) {f : Peer → Peer} (hf : Stays (m.peer q) (f (m.peer q))) :
    Stays (m.peer p) ((m.modPeer q f).peer p) := by
  by_cases h : p = q
  · subst h
    rw [modPeer_self]
    exact hf
  · exact .of_eq (modPeer_of_ne h f)

theorem setState_stays (m : Membership) (p q : PeerRef) (st : PeerState) (hst : st ≠ .new) :
    Stays (m.peer p) ((m.setState q st).peer p) :=
  modPeer_stays m p q ⟨rfl, fun _ => decide_eq_true hst⟩

theorem initPeer_stays (m : Membership) (p q : PeerRef) (id pubK : Bytes) :
    Stays (m.peer p) ((m.initPeer q id pubK).peer p) :=
  modPeer_stays m p q ⟨rfl, fun h => h⟩

theorem stopListening_stays (m : Membership) (p q : PeerRef) : Stays (m.peer p) ((m.stopListening q).peer p) :=
  modPeer_stays m p q ⟨rfl, fun h => h⟩

theorem startListening_stays (m : Membership) (p q : PeerRef) : Stays (m.peer p) ((m.startListening q).peer p) :=
  modPeer_stays m p q ⟨rfl, fun h => h⟩

theorem addNewPeer_stays (m : Membership) (p q : PeerRef) : Stays (m.peer p) ((m.addNewPeer q).peer p) :=
  startListening_stays { m with newPeers := m.newPeers.insert (m.peer q).address (some q, 0) } p q

theorem newPeer_stays {m : Membership} {p : PeerRef} (hp : p < m.peerCount) (address : Bytes) :
    Stays (m.peer p) ((m.newPeer address).peer p) := .of_eq (newPeer_of_ne (Nat.ne_of_lt hp) address)

theorem setState_known (m : Membership) (p : PeerRef) {st : PeerState} (hst : st ≠ .new) :
    ((m.setState p st).peer p).isKnown = true := by
  rw [setState, modPeer_self]
  exact decide_eq_true hst

variable [Platform]

theorem greet_stays (m : Membership) (p q : PeerRef) (id pubK newId : Bytes) :
    Stays (m.peer p) ((m.greet q id pubK newId).peer p) := by
  have hf : Stays (m.peer p) ((if m.localState ≠ .connected then m.found newId else m).peer p) := by
    split
    · exact setState_stays m p m.localPeer .connected (by decide)
    · exact .refl _
  exact hf.trans ((initPeer_stays _ p q id pubK).trans (setState_stays _ p q .joining (by decide)))

theorem enterChannels_peer {m : Membership} (hs : m.Sound) (p : PeerRef) : (m.enterChannels p).peer = m.peer := by
  cases hl : m.localGroup with
  | none => simp only [enterChannels, hl]
  | some l => rw [enterChannels_eq hl, modGroups_eq _ hs.values_nodup]

theorem apply_stays {m : Membership} (hs : m.Sound) {c : Change} (hc : m.Awaits c) {p : PeerRef}
    (hp : m.Remote p) : Stays (m.peer p) ((m.apply c).peer p) := by
  cases c with
  | idle => exact .refl _
  | accept address => exact (newPeer_stays hp.1 address).trans (addNewPeer_stays _ p m.peerCount)
  | contact address =>
    exact (newPeer_stays hp.1 address).trans ((setState_stays _ p m.localPeer .joining (by decide)).trans
      (addNewPeer_stays _ p m.peerCount))
  | request q id pubK port newId =>
    refine (greet_stays m p q id pubK newId).trans ?_
    simp only [Membership.apply]
    split
    · exact .of_eq (congrFun (answer_peer _ q).1 p)
    · exact .refl _
  | notified groupId peerId pubK address =>
    simp only [Membership.apply]
    split
    · exact .refl _
    · refine (newPeer_stays hp.1 address).trans (.of_eq ?_)
      exact enrol_of_ne (m := { m with joinToken := false }.newPeer address) (Nat.ne_of_lt hp.1) peerId pubK
  | unreached => exact .refl _
  | channels peerId =>
    simp only [Membership.apply]
    split
    · exact .refl _
    · exact .of_eq (congrFun (enterChannels_peer hs _) p)
  | acked q groupId peerId pubK =>
    have hg : Stays (m.peer p) ((m.ackGroup groupId).2.peer p) := .of_eq (congrFun (ackGroup_rest m groupId).2.1 p)
    exact hg.trans ((initPeer_stays _ p q peerId pubK).trans (setState_stays _ p q .connected (by decide)))
  | ready => exact .of_eq ((ready_entered m).peer p hp.2)
  | completed q => exact (setState_stays m p q .connected (by decide)).trans (.of_eq (congrFun (check_peer _).1 p))
  | expired id =>
    simp only [Membership.apply]
    split
    · exact .refl _
    · rename_i t _
      exact (setState_stays m p t.peer .connected (by decide)).trans (.of_eq (congrFun (check_peer _).1 p))
  | readySent id =>
    simp only [Membership.apply]
    split <;> exact .refl _
  | closed q =>
    have hf := remove_frame (hs.stopListening (hs.listening q hc)) q
    refine (stopListening_stays m p q).trans (.of_eq ?_)
    rw [Membership.apply, hf]
    unfold reset
    split
    · exact modPeer_of_ne hp.2 _
    · rfl
  | failed q => exact stopListening_stays m p q

/-- Why a peer's state is another one after a change. -/
inductive Turns (m : Membership) (p : PeerRef) : Change → PeerState → Prop
  | request (id pubK : Bytes) (port : Port) (newId : Bytes) : Turns m p (.request p id pubK port newId) .joining
  | acked (groupId peerId pubK : Bytes) : Turns m p (.acked p groupId peerId pubK) .connected
  | completed : Turns m p (.completed p) .connected
  | expired (id : Bytes) (t : Timer) (ht : m.joinTimers.find? id = some t) (hp : t.peer = p) :
      Turns m p (.expired id) .connected

omit [Platform] in
theorem addNewPeer_state (m : Membership) (p q : PeerRef) : ((m.addNewPeer q).peer p).state = (m.peer p).state :=
  modPeer_state { m with newPeers := m.newPeers.insert (m.peer q).address (some q, 0) } q p
    (f := fun x => { x with listening := true }) rfl

omit [Platform] in
theorem setState_turns (m : Membership) (p q : PeerRef) (st : PeerState) :
    ((m.setState q st).peer p).state = (m.peer p).state ∨ p = q ∧ ((m.setState q st).peer p).state = st := by
  by_cases h : p = q
  · subst h
    exact Or.inr ⟨rfl, congrArg Peer.state (modPeer_self m p _)⟩
  · exact Or.inl (congrArg Peer.state (modPeer_of_ne h _))

theorem apply_state {m : Membership} (hs : m.Sound) {c : Change} (hc : m.Awaits c) {p : PeerRef} (hp : m.Remote p) :
    ((m.apply c).peer p).state = (m.peer p).state ∨ m.Turns p c ((m.apply c).peer p).state := by
  cases c with
  | idle => exact Or.inl rfl
  | accept address =>
    left
    exact (addNewPeer_state _ p m.peerCount).trans (congrArg Peer.state (newPeer_of_ne (Nat.ne_of_lt hp.1) address))
  | contact address =>
    left
    refine (addNewPeer_state _ p m.peerCount).trans ?_
    rw [setState, modPeer_of_ne hp.2]
    exact congrArg Peer.state (newPeer_of_ne (Nat.ne_of_lt hp.1) address)
  | request q id pubK port newId =>
    have hg : ((m.apply (.request q id pubK port newId)).peer p) = (m.greet q id pubK newId).peer p := by
      simp only [Membership.apply]
      split
      · exact congrFun (answer_peer _ q).1 p
      · rfl
    rw [hg, greet]
    rcases setState_turns ((if m.localState ≠ .connected then m.found newId else m).initPeer q id pubK) p q .joining with
      h | ⟨rfl, h⟩
    · left
      rw [h, initPeer, modPeer_state _ _ _ rfl]
      split
      · show ((m.setState m.localPeer .connected).peer p).state = _
        rw [setState, modPeer_of_ne hp.2]
      · rfl
    · right
      rw [h]
      exact .request id pubK port newId
  | notified groupId peerId pubK address =>
    left
    simp only [Membership.apply]
    split
    · rfl
    · refine (congrArg Peer.state ?_).trans (congrArg Peer.state (newPeer_of_ne (Nat.ne_of_lt hp.1) address))
      exact enrol_of_ne (m := { m with joinToken := false }.newPeer address) (Nat.ne_of_lt hp.1) peerId pubK
  | unreached => exact Or.inl rfl
  | channels peerId =>
    left
    simp only [Membership.apply]
    split
    · rfl
    · rw [enterChannels_peer hs]
  | acked q groupId peerId pubK =>
    rcases setState_turns ((m.ackGroup groupId).2.initPeer q peerId pubK) p q .connected with h | ⟨rfl, h⟩
    · left
      refine h.trans ?_
      rw [initPeer, modPeer_state _ _ _ rfl, (ackGroup_rest m groupId).2.1]
    · right
      rw [show ((m.apply (.acked p groupId peerId pubK)).peer p).state = _ from h]
      exact .acked groupId peerId pubK
  | ready => exact Or.inl (congrArg Peer.state ((ready_entered m).peer p hp.2))
  | completed q =>
    rw [Membership.apply, (check_peer _).1]
    rcases setState_turns m p q .connected with h | ⟨rfl, h⟩
    · exact Or.inl h
    · rw [h]
      exact Or.inr .completed
  | expired id =>
    simp only [Membership.apply]
    split
    · exact Or.inl rfl
    · rename_i t ht
      rw [(check_peer _).1]
      rcases setState_turns { m with joinTimers := m.joinTimers.insert id { t with armed := false } } p t.peer
        .connected with h | ⟨rfl, h⟩
      · exact Or.inl h
      · rw [h]
        exact Or.inr (.expired id t ht rfl)
  | readySent id =>
    left
    simp only [Membership.apply]
    split <;> rfl
  | closed q =>
    left
    have hf := remove_frame (hs.stopListening (hs.listening q hc)) q
    refine Eq.trans ?_ (stopListening_state m q p)
    rw [Membership.apply, hf]
    unfold reset
    split
    · exact congrArg Peer.state (modPeer_of_ne hp.2 _)
    · rfl
  | failed q => exact Or.inl (stopListening_state m q p)

omit [Platform] in
theorem reset_peers (m : Membership) : m.reset.localPeer = m.localPeer ∧ m.reset.getId = m.getId := by
  unfold reset
  split
  · exact ⟨rfl, setState_getId { m with groups := ∅, localGroup := none } m.localPeer .new⟩
  · exact ⟨rfl, rfl⟩

theorem apply_localPeer {m : Membership} (hs : m.Sound) {c : Change} (hc : m.Awaits c) :
    (m.apply c).localPeer = m.localPeer := by
  cases c with
  | request p id pubK port newId =>
    refine Eq.trans ?_ (greet_localPeer m p id pubK newId)
    simp only [Membership.apply]
    split
    · exact (answer_peer _ p).2.1
    · rfl
  | notified groupId peerId pubK address =>
    simp only [Membership.apply]
    split <;> rfl
  | channels peerId =>
    simp only [Membership.apply]
    split
    · rfl
    · cases hl : m.localGroup with
      | none => simp only [enterChannels, hl]
      | some l => rw [enterChannels_eq hl, modGroups_eq _ hs.values_nodup]
  | acked p groupId peerId pubK => exact (ackGroup_ids m groupId).2
  | ready => rw [(ready_entered m).rest]
  | completed p => exact (check_peer _).2.1
  | expired id =>
    simp only [Membership.apply]
    split
    · rfl
    · exact (check_peer _).2.1
  | readySent id =>
    simp only [Membership.apply]
    split <;> rfl
  | closed p =>
    rw [Membership.apply, (reset_peers _).1, remove_frame (hs.stopListening (hs.listening p hc)) p]
    rfl
  | idle => rfl
  | accept address => rfl
  | contact address => rfl
  | unreached => rfl
  | failed p => rfl

/-- What a change makes of the state of the local peer. -/
inductive OwnTurn (m : Membership) : Change → PeerState → Prop
  | same (c : Change) (hc : ∀ p id pubK port newId, c ≠ .request p id pubK port newId) : OwnTurn m c m.localState
  | contact (address : Bytes) : OwnTurn m (.contact address) .joining
  | request (p : PeerRef) (id pubK : Bytes) (port : Port) (newId : Bytes) :
      OwnTurn m (.request p id pubK port newId) .connected
  | ready : OwnTurn m .ready .connected
  | cleared (p : PeerRef) (hg : (m.apply (.closed p)).groups = ∅) : OwnTurn m (.closed p) .new

theorem ready_localState (m : Membership) : m.OwnTurn .ready (m.apply .ready).localState := by
  have hsame : m.OwnTurn .ready m.localState := .same .ready (by simp)
  refine List.foldlRecOn (motive := fun n => m.OwnTurn .ready n.localState) m.groups.values readyOne hsame
    fun n hn g _ => ?_
  unfold readyOne
  split
  · exact hn
  · rename_i l _
    unfold enterRings
    split
    · exact hn
    · split
      · have hst : (((n.setState n.localPeer .connected).addToRings l n.localPeer).updateNeighbours l).localState =
            ((n.setState n.localPeer .connected).peer n.localPeer).state := rfl
        rw [hst, setState, modPeer_self]
        exact .ready
      · exact hn

theorem apply_localState {m : Membership} (hs : m.Sound) {c : Change} (hc : m.Awaits c) :
    m.OwnTurn c (m.apply c).localState := by
  have hst : (m.apply c).localState = ((m.apply c).peer m.localPeer).state := by rw [localState, apply_localPeer hs hc]
  have same : ∀ {c : Change} {st : PeerState}, (∀ p id pubK port newId, c ≠ .request p id pubK port newId) →
      st = m.localState → m.OwnTurn c st := fun hn h => h ▸ .same _ hn
  have turned : ∀ {n : Membership} {q : PeerRef} {st : PeerState}, q ≠ m.localPeer →
      ((n.setState q st).peer m.localPeer).state = (n.peer m.localPeer).state := fun hq =>
    congrArg Peer.state (modPeer_of_ne (Ne.symm hq) _)
  cases c with
  | idle => exact same (by simp) rfl
  | accept address =>
    rw [hst]
    exact same (by simp) ((addNewPeer_state _ m.localPeer m.peerCount).trans
      (congrArg Peer.state (newPeer_of_ne (Nat.ne_of_lt hs.localPeer) address)))
  | contact address =>
    have hj := addNewPeer_state ((m.newPeer address).setState m.localPeer .joining) m.localPeer m.peerCount
    rw [setState, modPeer_self] at hj
    rw [hst, show ((m.apply (.contact address)).peer m.localPeer).state = .joining from hj]
    exact .contact address
  | request p id pubK port newId =>
    have hg : ((m.apply (.request p id pubK port newId)).peer m.localPeer).state =
        ((m.greet p id pubK newId).peer m.localPeer).state := by
      simp only [Membership.apply]
      split
      · rw [(answer_peer _ p).1]
      · rfl
    have hcon : ((m.greet p id pubK newId).peer m.localPeer).state = .connected := by
      rw [greet, turned (hs.listening p hc).2, initPeer, modPeer_state _ _ _ rfl]
      split
      · have hf : (m.found newId).peer = (m.setState m.localPeer .connected).peer := rfl
        rw [hf, setState, modPeer_self]
      · rename_i hn
        exact not_not.mp hn
    rw [hst, hg, hcon]
    exact .request p id pubK port newId
  | notified groupId peerId pubK address =>
    refine same (by simp) ?_
    simp only [Membership.apply]
    split
    · rfl
    · refine congrArg Peer.state ?_
      exact (enrol_of_ne (m := { m with joinToken := false }.newPeer address) (Nat.ne_of_lt hs.localPeer) peerId
        pubK).trans (newPeer_of_ne (Nat.ne_of_lt hs.localPeer) address)
  | unreached => exact same (by simp) rfl
  | channels peerId =>
    refine same (by simp) ?_
    rw [hst]
    simp only [Membership.apply]
    split
    · rfl
    · rw [enterChannels_peer hs]
      rfl
  | acked p groupId peerId pubK =>
    refine same (by simp) ?_
    have hq : ((m.apply (.acked p groupId peerId pubK)).peer m.localPeer).state =
        (((m.ackGroup groupId).2.initPeer p peerId pubK).peer m.localPeer).state := turned (hs.listening p hc).2
    rw [hst, hq, initPeer, modPeer_state _ _ _ rfl, (ackGroup_rest m groupId).2.1]
    rfl
  | ready => exact ready_localState m
  | completed p =>
    refine same (by simp) ?_
    rw [hst, Membership.apply, (check_peer _).1]
    exact turned (hs.listening p hc).2
  | expired id =>
    refine same (by simp) ?_
    rw [hst]
    simp only [Membership.apply]
    split
    · rfl
    · rename_i t ht
      rw [(check_peer _).1]
      exact turned (hs.joinTimers id t ht).2
  | readySent id =>
    refine same (by simp) ?_
    simp only [Membership.apply]
    split <;> rfl
  | closed p =>
    have hf := remove_frame (hs.stopListening (hs.listening p hc)) p
    have hl : ((m.stopListening p).remove p).localState = m.localState := by
      rw [hf]
      exact stopListening_state m p m.localPeer
    have hreset : m.apply (.closed p) = ((m.stopListening p).remove p).reset := rfl
    by_cases hr : ((m.stopListening p).remove p).peers.size = 0 ∧ ((m.stopListening p).remove p).newPeers.size = 0
    · have hnew : ({ (m.stopListening p).remove p with groups := ∅, localGroup := none }.setState
          ((m.stopListening p).remove p).localPeer .new).localState = .new := congrArg Peer.state (modPeer_self _ _ _)
      have hg : (m.apply (.closed p)).groups = ∅ := by
        rw [hreset, reset, if_pos hr]
        rfl
      rw [hreset, reset, if_pos hr, hnew]
      exact .cleared p hg
    · rw [hreset, reset, if_neg hr, hl]
      exact same (by simp) rfl
  | failed p => exact same (by simp) (stopListening_state m p m.localPeer)

/-- Why a peer's ID is another one after a change: he has told us. -/
inductive Names (p : PeerRef) : Change → Bytes → Prop
  | request (id pubK : Bytes) (port : Port) (newId : Bytes) : Names p (.request p id pubK port newId) id
  | acked (groupId peerId pubK : Bytes) : Names p (.acked p groupId peerId pubK) peerId

omit [Platform] in
theorem renamed_cases (m : Membership) (p q : PeerRef) (id : Bytes) :
    m.renamed p id q = m.getId q ∨ q = p ∧ m.renamed p id q = id := by
  by_cases h : q = p
  · subst h
    exact Or.inr ⟨rfl, Function.update_self ..⟩
  · exact Or.inl (Function.update_of_ne h ..)

theorem apply_ids {m : Membership} (hs : m.Sound) {c : Change} (hc : m.Awaits c) {p : PeerRef} (hp : p < m.peerCount) :
    (m.apply c).getId p = m.getId p ∨ Names p c ((m.apply c).getId p) := by
  have same : ∀ {n : Membership}, n.peer = m.peer → n.getId p = m.getId p := fun h => by rw [getId, h, getId]
  cases c with
  | idle => exact Or.inl rfl
  | accept address =>
    left
    rw [Membership.apply, addNewPeer_getId]
    exact newPeer_getId hp address
  | contact address =>
    left
    rw [Membership.apply, addNewPeer_getId, setState_getId]
    exact newPeer_getId hp address
  | request q id pubK port newId =>
    have hg : (m.apply (.request q id pubK port newId)).getId = m.renamed q id := by
      rw [← greet_ids m q id pubK newId]
      simp only [Membership.apply]
      split
      · funext r
        rw [getId, (answer_peer _ q).1, getId]
      · rfl
    rcases renamed_cases m q p id with h | ⟨rfl, h⟩
    · exact Or.inl (congrFun hg p |>.trans h)
    · right
      rw [hg, h]
      exact .request id pubK port newId
  | notified groupId peerId pubK address =>
    left
    simp only [Membership.apply]
    split
    · rfl
    · refine Eq.trans (congrArg Peer.id ?_) (newPeer_getId hp address)
      exact enrol_of_ne (m := { m with joinToken := false }.newPeer address) (Nat.ne_of_lt hp) peerId pubK
  | unreached => exact Or.inl rfl
  | channels peerId =>
    left
    simp only [Membership.apply]
    split
    · rfl
    · exact same (enterChannels_peer hs _)
  | acked q groupId peerId pubK =>
    have hg : (m.apply (.acked q groupId peerId pubK)).getId = m.renamed q peerId := by
      rw [Membership.apply, ackPeer_ids, renamed, (ackGroup_ids m groupId).1, renamed]
    rcases renamed_cases m q p peerId with h | ⟨rfl, h⟩
    · exact Or.inl (congrFun hg p |>.trans h)
    · right
      rw [hg, h]
      exact .acked groupId peerId pubK
  | ready => exact Or.inl (congrFun (ready_entered m).ids p)
  | completed q =>
    left
    rw [Membership.apply, getId, (check_peer _).1]
    exact congrFun (setState_getId m q .connected) p
  | expired id =>
    left
    simp only [Membership.apply]
    split
    · rfl
    · rename_i t _
      rw [getId, (check_peer _).1]
      exact congrFun (setState_getId m t.peer .connected) p
  | readySent id =>
    left
    simp only [Membership.apply]
    split <;> rfl
  | closed q =>
    left
    rw [Membership.apply, (reset_peers _).2, remove_frame (hs.stopListening (hs.listening q hc)) q]
    exact congrFun (stopListening_getId m q) p
  | failed q => exact Or.inl (congrFun (stopListening_getId m q) p)

/-- The local peer keeps its ID. -/
theorem apply_author {m : Membership} (hs : m.Sound) {c : Change} (hc : m.Awaits c) :
    (m.apply c).getId (m.apply c).localPeer = m.getId m.localPeer := by
  rw [apply_localPeer hs hc]
  rcases apply_ids hs hc hs.localPeer with h | h
  · exact h
  · generalize (m.apply c).getId m.localPeer = id at h
    cases h with
    | request id pubK port newId => exact absurd rfl (hs.listening m.localPeer hc).2
    | acked groupId peerId pubK => exact absurd rfl (hs.listening m.localPeer hc).2

theorem request_known (m : Membership) (p : PeerRef) (id pubK : Bytes) (port : Port) (newId : Bytes) :
    ((m.apply (.request p id pubK port newId)).peer p).isKnown = true := by
  have hg : ((m.greet p id pubK newId).peer p).isKnown = true := setState_known _ p (by decide)
  simp only [Membership.apply]
  split
  · rw [(answer_peer _ p).1]
    exact hg
  · exact hg

/-! ## The table of pending peers -/

/-- What a change makes of the table. -/
inductive Pends (m : Membership) : Change → OrdMap Bytes (Option PeerRef × Port) → Prop
  | same {c : Change} (hc : ∀ p id pubK port newId, c ≠ .request p id pubK port newId)
      (hc' : ∀ p groupId peerId pubK, c ≠ .acked p groupId peerId pubK) : Pends m c m.newPeers
  | enters {c : Change} (address : Bytes) (hc : c = .accept address ∨ c = .contact address) :
      Pends m c (m.newPeers.insert address (some m.peerCount, 0))
  | answers {c : Change} {p : PeerRef} {port : Port} (hc : m.answers c = some (p, port)) :
      Pends m c (m.newPeers.erase (m.peer p).address)
  | asks (p : PeerRef) (id pubK : Bytes) (port : Port) (newId : Bytes) (ht : m.joinToken = false) :
      Pends m (.request p id pubK port newId) (m.pend p port).newPeers
  | acked (p : PeerRef) (groupId peerId pubK : Bytes) :
      Pends m (.acked p groupId peerId pubK) (m.newPeers.erase (m.peer p).address)
  | closed (p : PeerRef) (hp : m.peers.contains (m.getId p) = false) :
      Pends m (.closed p) (m.newPeers.erase (m.peer p).address)

theorem answer_newPeers {m : Membership} (p : PeerRef) (hl : m.localGroup ≠ none) :
    (m.answer p).newPeers = m.newPeers.erase (m.peer p).address := by
  obtain ⟨l, hl⟩ := Option.ne_none_iff_exists'.mp hl
  rw [answer_eq hl]
  rfl

theorem check_newPeers (m : Membership) : m.check.newPeers = m.newPeers ∨ ∃ p port, m.waiting? = some (p, port) ∧
    m.check.newPeers = m.newPeers.erase (m.peer p).address := by
  unfold check
  split
  · rename_i p hp
    rw [pending_eq] at hp
    obtain ⟨⟨q, port⟩, hw, rfl⟩ := Option.map_eq_some_iff.mp hp
    cases hl : m.localGroup with
    | none => exact Or.inl (by simp only [answer, hl])
    | some l => exact Or.inr ⟨q, port, hw, answer_newPeers q (by simp [hl])⟩
  · exact Or.inl rfl

theorem greet_newPeers (m : Membership) (p : PeerRef) (id pubK newId : Bytes) :
    (m.greet p id pubK newId).newPeers = m.newPeers := by
  unfold greet
  split <;> rfl

theorem apply_pends {m : Membership} (hs : m.Sound) {c : Change} (hc : m.Awaits c) :
    m.Pends c (m.apply c).newPeers := by
  have address : ∀ q st p, ((m.setState q st).peer p).address = (m.peer p).address := by
    intro q st p
    by_cases h : p = q
    · subst h
      rw [setState, modPeer_self]
    · rw [setState, modPeer_of_ne h]
  cases c with
  | idle => exact .same (by simp) (by simp)
  | accept a =>
    have := Pends.enters (m := m) (c := .accept a) a (Or.inl rfl)
    rw [Membership.apply, addNewPeer, newPeer_self]
    exact this
  | contact a =>
    have := Pends.enters (m := m) (c := .contact a) a (Or.inr rfl)
    rw [Membership.apply, addNewPeer, setState, modPeer_of_ne (Nat.ne_of_gt hs.localPeer), newPeer_self]
    exact this
  | request p id pubK port newId =>
    simp only [Membership.apply, greet_token]
    have ha := (greet_stays m p p id pubK newId).address
    cases ht : m.joinToken with
    | true =>
      obtain ⟨l, hl⟩ := greet_localGroup hs p id pubK newId
      rw [if_pos rfl, answer_newPeers p (by simp [hl]), greet_newPeers, ha]
      have hans : m.answers (.request p id pubK port newId) = some (p, port) := by simp [Membership.answers, ht]
      exact .answers hans
    | false =>
      have : (m.pend p port).newPeers = ((m.greet p id pubK newId).pend p port).newPeers := by
        rw [pend, pend, greet_newPeers, ha]
      rw [if_neg (by simp), ← this]
      exact .asks p id pubK port newId ht
  | notified groupId peerId pubK a =>
    simp only [Membership.apply]
    split
    · exact .same (by simp) (by simp)
    · rename_i g _
      have : Pends m (.notified groupId peerId pubK a) m.newPeers := .same (by simp) (by simp)
      exact this
  | unreached => exact .same (by simp) (by simp)
  | channels peerId =>
    have : (m.apply (.channels peerId)).newPeers = m.newPeers := by
      simp only [Membership.apply]
      split
      · rfl
      · rename_i q _
        cases hl : m.localGroup with
        | none => simp only [enterChannels, hl]
        | some l => rw [enterChannels_eq hl, modGroups_eq _ hs.values_nodup]
    rw [this]
    exact .same (by simp) (by simp)
  | acked p groupId peerId pubK =>
    have hg : (m.ackGroup groupId).2.newPeers = m.newPeers := by
      unfold ackGroup
      split
      · rfl
      · split <;> rfl
    have ha : (((m.ackGroup groupId).2.initPeer p peerId pubK).setState p .connected |>.peer p).address =
        (m.peer p).address := by
      rw [setState, modPeer_self, initPeer, modPeer_self, (ackGroup_rest m groupId).2.1]
    have := Pends.acked (m := m) p groupId peerId pubK
    rw [Membership.apply, ackPeer]
    show m.Pends _ ((m.ackGroup groupId).2.newPeers.erase
      (((m.ackGroup groupId).2.initPeer p peerId pubK).setState p .connected |>.peer p).address)
    rw [hg, ha]
    exact this
  | ready =>
    rw [(ready_entered m).rest]
    exact .same (by simp) (by simp)
  | completed p =>
    rcases check_newPeers (m.setState p .connected) with h | ⟨q, port, hw, h⟩
    · rw [Membership.apply, h]
      exact .same (by simp) (by simp)
    · have hans : m.answers (.completed p) = some (q, port) := hw
      rw [Membership.apply, h, address]
      exact .answers hans
  | expired id =>
    simp only [Membership.apply]
    split
    · exact .same (by simp) (by simp)
    · rename_i t ht
      rcases check_newPeers { Membership.setState { m with
          joinTimers := m.joinTimers.insert id { t with armed := false } } t.peer .connected with
        joinTimers := _ } with h | ⟨q, port, hw, h⟩
      · rw [h]
        exact .same (by simp) (by simp)
      · have hans : m.answers (.expired id) = some (q, port) := by
          rw [Membership.answers, ht]
          exact hw
        rw [h]
        show m.Pends _ (m.newPeers.erase ((m.setState t.peer .connected).peer q).address)
        rw [address]
        exact .answers hans
  | readySent id =>
    simp only [Membership.apply]
    split <;> exact .same (by simp) (by simp)
  | closed p =>
    have hr : ∀ n : Membership, n.reset.newPeers = n.newPeers := fun n => by rw [reset_frame]
    rw [Membership.apply, hr, remove_newPeers (hs.stopListening (hs.listening p hc)), stopListening_getId]
    split
    · exact .same (by simp) (by simp)
    · rename_i hp
      have ha := (stopListening_stays m p p).address
      rw [ha]
      exact .closed p (Bool.eq_false_iff.mpr hp)
  | failed p => exact .same (by simp) (by simp)

/-! ## The local group and the join timers -/

/-- What a change makes of the local group and of the groups. -/
inductive Regroups (m : Membership) : Change → Option GroupRef → OrdMap Bytes GroupRef → Prop
  | same (c : Change) : Regroups m c m.localGroup m.groups
  | founded (p : PeerRef) (id pubK : Bytes) (port : Port) (newId : Bytes) (hc : m.localState ≠ .connected) :
      Regroups m (.request p id pubK port newId) (some m.groupCount) (m.groups.insertNew newId m.groupCount)
  | joined (p : PeerRef) (groupId peerId pubK : Bytes) (hl : m.localGroup = none) (hg : m.groups.find? groupId = none) :
      Regroups m (.acked p groupId peerId pubK) (some m.groupCount) (m.groups.insertNew groupId m.groupCount)
  | entered (p : PeerRef) (groupId peerId pubK : Bytes) (hl : m.localGroup ≠ none) (hg : m.groups.find? groupId = none) :
      Regroups m (.acked p groupId peerId pubK) m.localGroup (m.groups.insertNew groupId m.groupCount)
  | cleared (p : PeerRef) (hp : (m.apply (.closed p)).peers = ∅) (hn : (m.apply (.closed p)).newPeers = ∅) :
      Regroups m (.closed p) none ∅

/-- Answering a request changes neither the local group nor the groups there are. -/
theorem answer_groups (m : Membership) (p : PeerRef) : (m.answer p).localGroup = m.localGroup ∧
    (m.answer p).groups = m.groups := by
  unfold answer
  split <;> exact ⟨rfl, rfl⟩

theorem check_groups (m : Membership) : m.check.localGroup = m.localGroup ∧ m.check.groups = m.groups := by
  unfold check
  split
  · exact answer_groups m _
  · exact ⟨rfl, rfl⟩

theorem apply_regroups {m : Membership} (hs : m.Sound) {c : Change} (hc : m.Awaits c) :
    m.Regroups c (m.apply c).localGroup (m.apply c).groups := by
  cases c with
  | idle => exact .same _
  | accept a => exact .same (.accept a)
  | contact a => exact .same (.contact a)
  | request p id pubK port newId =>
    have hg : (m.apply (.request p id pubK port newId)).localGroup = (m.greet p id pubK newId).localGroup ∧
        (m.apply (.request p id pubK port newId)).groups = (m.greet p id pubK newId).groups := by
      simp only [Membership.apply]
      split
      · exact answer_groups _ p
      · exact ⟨rfl, rfl⟩
    rw [hg.1, hg.2, greet]
    split
    · rename_i h
      exact .founded p id pubK port newId h
    · exact .same (.request p id pubK port newId)
  | notified groupId peerId pubK a =>
    simp only [Membership.apply]
    split
    · exact .same _
    · exact .same (.notified groupId peerId pubK a)
  | unreached => exact .same .unreached
  | channels peerId =>
    simp only [Membership.apply]
    split
    · exact .same _
    · cases hl : m.localGroup with
      | none => simp only [enterChannels, hl]; exact hl ▸ .same _
      | some l =>
        have := Regroups.same (m := m) (.channels peerId)
        rw [enterChannels_eq hl, modGroups_eq _ hs.values_nodup]
        exact this
  | acked p groupId peerId pubK =>
    show m.Regroups _ (m.ackGroup groupId).2.localGroup (m.ackGroup groupId).2.groups
    unfold ackGroup
    split
    · exact .same _
    · rename_i hg
      split
      · rename_i hl
        exact .joined p groupId peerId pubK hl hg
      · rename_i l hl
        exact Regroups.entered (m := m) p groupId peerId pubK (by simp [hl]) hg
  | ready =>
    rw [(ready_entered m).rest]
    exact .same .ready
  | completed p =>
    rw [Membership.apply, (check_groups _).1, (check_groups _).2]
    exact .same (.completed p)
  | expired id =>
    simp only [Membership.apply]
    split
    · exact .same _
    · rw [(check_groups _).1, (check_groups _).2]
      exact .same (.expired id)
  | readySent id =>
    simp only [Membership.apply]
    split
    · exact .same _
    · exact .same (.readySent id)
  | closed p =>
    have hf := remove_frame (hs.stopListening (hs.listening p hc)) p
    by_cases hr : ((m.stopListening p).remove p).peers.size = 0 ∧ ((m.stopListening p).remove p).newPeers.size = 0
    · have ha : m.apply (.closed p) =
          { (m.stopListening p).remove p with groups := ∅, localGroup := none }.setState
            ((m.stopListening p).remove p).localPeer .new := by
        rw [Membership.apply, reset, if_pos hr]
      have := Regroups.cleared (m := m) p (by rw [ha]; exact OrdMap.size_eq_zero.mp hr.1)
        (by rw [ha]; exact OrdMap.size_eq_zero.mp hr.2)
      rw [ha]
      exact this
    · have ha : m.apply (.closed p) = (m.stopListening p).remove p := by
        rw [Membership.apply, reset, if_neg hr]
      rw [ha, hf]
      exact .same (.closed p)
  | failed p => exact .same (.failed p)

/-- A node that is asked while it is not connected founds a group. -/
theorem request_founds {m : Membership} (hn : m.localState ≠ .connected) (p : PeerRef) (id pubK : Bytes) (port : Port)
    (newId : Bytes) : (m.apply (.request p id pubK port newId)).localGroup = some m.groupCount ∧
      (m.apply (.request p id pubK port newId)).groups = m.groups.insertNew newId m.groupCount := by
  have hg : (m.greet p id pubK newId).localGroup = some m.groupCount ∧
      (m.greet p id pubK newId).groups = m.groups.insertNew newId m.groupCount := by
    rw [greet, if_pos hn]
    exact ⟨rfl, rfl⟩
  rw [← hg.1, ← hg.2]
  simp only [Membership.apply]
  split
  · exact answer_groups _ p
  · exact ⟨rfl, rfl⟩

/-- Whoever is asked to let somebody in has a group then. -/
theorem request_localGroup {m : Membership} (hs : m.Sound) (p : PeerRef) (id pubK : Bytes) (port : Port)
    (newId : Bytes) : ∃ l, (m.apply (.request p id pubK port newId)).localGroup = some l := by
  obtain ⟨l, hl⟩ := greet_localGroup hs p id pubK newId
  refine ⟨l, ?_⟩
  simp only [Membership.apply]
  split
  · rw [answer_eq hl]
    exact hl
  · exact hl

theorem takeIn_timers (m : Membership) (p : PeerRef) (g : GroupRef) {id : Bytes} {t : Timer}
    (h : (m.acknowledge p g).joinTimers.find? id = some t) : m.joinTimers.find? id = some t ∨ t.peer = p := by
  have h : (if (m.takeIn p g).direct g p then m.joinTimers else
      m.joinTimers.insert ((m.takeIn p g).getId p) ⟨p, true⟩).find? id = some t := h
  split at h
  · exact Or.inl h
  · rcases OrdMap.find_insert_some h with ⟨-, rfl⟩ | hold
    · exact Or.inr rfl
    · exact Or.inl hold

theorem answer_timers (m : Membership) (p : PeerRef) {id : Bytes} {t : Timer}
    (h : (m.answer p).joinTimers.find? id = some t) : m.joinTimers.find? id = some t ∨ t.peer = p := by
  cases hl : m.localGroup with
  | none => simp only [answer, hl] at h; exact Or.inl h
  | some l =>
    rw [answer_eq hl] at h
    exact takeIn_timers { m with joinToken := false, newPeers := m.newPeers.erase (m.peer p).address } p l h

theorem check_timers (m : Membership) {id : Bytes} {t : Timer} (h : m.check.joinTimers.find? id = some t) :
    m.joinTimers.find? id = some t ∨ (m.peer t.peer).isKnown = true := by
  unfold check at h
  split at h
  · rename_i p hp
    rcases answer_timers m p h with h | rfl
    · exact Or.inl h
    · obtain ⟨_, _, _, hk⟩ := pending_mem hp
      exact Or.inr hk
  · exact Or.inl h

/-- Join timers are set for known peers. -/
theorem apply_timers {m : Membership} (hs : m.Sound) {c : Change} (hc : m.Awaits c)
    (h : ∀ id t, m.joinTimers.find? id = some t → (m.peer t.peer).isKnown = true) :
    ∀ id t, (m.apply c).joinTimers.find? id = some t → ((m.apply c).peer t.peer).isKnown = true := by
  -- an old timer is one of a peer known before
  have old : ∀ {id t}, m.joinTimers.find? id = some t → ((m.apply c).peer t.peer).isKnown = true := fun ht =>
    (apply_stays hs hc (hs.joinTimers _ _ ht)).known (h _ _ ht)
  intro id t ht
  cases c with
  | request p pid pubK port newId =>
    have hg : (m.greet p pid pubK newId).joinTimers = m.joinTimers := by
      unfold greet
      split <;> rfl
    simp only [Membership.apply] at ht
    split at ht
    · rcases answer_timers _ p ht with ht | hp
      · exact old (hg ▸ ht)
      · simp only [Membership.apply]
        rw [if_pos (by assumption), (answer_peer _ p).1, hp]
        exact setState_known _ p (by decide)
    · exact old (hg ▸ ht)
  | notified groupId peerId pubK a =>
    cases hg : m.groups.find? groupId with
    | none =>
      simp only [Membership.apply, hg] at ht ⊢
      exact h id t ht
    | some g =>
      have old := @old
      simp only [Membership.apply, hg] at ht old ⊢
      rcases takeIn_timers _ m.peerCount g ht with ht | hp
      · exact old ht
      · rw [hp]
        show ((Membership.startListening _ m.peerCount).peer m.peerCount).isKnown = true
        rw [Membership.startListening, modPeer_self, setState, modPeer_self]
        rfl
  | channels peerId =>
    refine old (?_ : m.joinTimers.find? id = some t)
    simp only [Membership.apply] at ht
    split at ht
    · exact ht
    · cases hl : m.localGroup with
      | none => simp only [enterChannels, hl] at ht; exact ht
      | some l =>
        rw [enterChannels_eq hl, modGroups_eq _ hs.values_nodup] at ht
        exact ht
  | acked p groupId peerId pubK => exact old ((ackGroup_rest m groupId).2.2.2 ▸ ht)
  | ready =>
    rw [(ready_entered m).rest] at ht
    exact old ht
  | completed p =>
    rcases check_timers _ ht with ht | hk
    · exact old ht
    · rw [Membership.apply, (check_peer _).1]
      exact hk
  | expired id' =>
    cases hi : m.joinTimers.find? id' with
    | none =>
      simp only [Membership.apply, hi] at ht ⊢
      exact h id t ht
    | some u =>
      have old := @old
      simp only [Membership.apply, hi] at ht old ⊢
      rcases check_timers _ ht with ht | hk
      · have ht : ((m.joinTimers.insert id' { u with armed := false }).erase _).find? id = some t := ht
        rcases OrdMap.find_insert_some (OrdMap.find_erase_some ht).2 with ⟨-, rfl⟩ | hold
        · have hu := old hi
          exact hu
        · exact old hold
      · rw [(check_peer _).1]
        exact hk
  | closed p =>
    have hr : ∀ n : Membership, n.reset.joinTimers = n.joinTimers := by
      intro n
      unfold reset
      split <;> rfl
    rw [Membership.apply, hr, (remove_rest (hs.stopListening (hs.listening p hc)) p).2.1] at ht
    exact old ht
  | readySent id' =>
    refine old (?_ : m.joinTimers.find? id = some t)
    simp only [Membership.apply] at ht
    split at ht <;> exact ht
  | idle => exact h id t ht
  | accept a => exact old ht
  | contact a => exact old ht
  | unreached => exact old ht
  | failed p => exact old ht

end Membership

end RacKun
