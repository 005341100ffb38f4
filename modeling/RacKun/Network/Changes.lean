/-
  RacKun.Network.Changes — what each event does to the membership.

  Most of a handler is talk: stamps, sends, logs. `Change` names what is left of an
  event once the talk is taken away, with the data it carries, and `apply` is its
  effect on the membership. `change` reads the change off a node and an event: a
  message that does not parse or is already logged changes nothing.

  - `handle_membership`: a handler that returns has exactly the effect of its change.
  So an invariant of the membership needs one case per change, and no handler.
-/

import RacKun.Network.Logging
import RacKun.Network.Run

namespace RacKun

open Lib (OrdMap bind_ok pure_ok throw_ok)

inductive Change where
  | idle
  | accept (address : Bytes)
  /-- The local peer starts joining through a peer at this address. -/
  | contact (address : Bytes)
  /-- A JOIN request; `newId` is the ID of the group founded if we are alone. -/
  | request (p : PeerRef) (id pubK : Bytes) (port : Port) (newId : Bytes)
  /-- A JOIN Notification to acknowledge, its peer reached at this address. -/
  | notified (groupId peerId pubK address : Bytes)
  /-- The same, the peer out of reach. -/
  | unreached
  /-- A JOIN Notification that a member of our group enters the channels. -/
  | channels (peerId : Bytes)
  | acked (p : PeerRef) (groupId peerId pubK : Bytes)
  | ready
  | completed (p : PeerRef)
  | expired (id : Bytes)
  | readySent (id : Bytes)
  | closed (p : PeerRef)
  | failed (p : PeerRef)
  deriving DecidableEq, Repr

namespace Membership

variable [Platform]

def found (m : Membership) (newId : Bytes) : Membership :=
  ({ (m.setState m.localPeer .connected).createGroup newId with localGroup := some m.groupCount }.addToRings
    m.groupCount m.localPeer)

/-- JOIN, up to the answer: alone so far, we found a group; the peer is now joining. -/
def greet (m : Membership) (p : PeerRef) (id pubK newId : Bytes) : Membership :=
  ((if m.localState ≠ .connected then m.found newId else m).initPeer p id pubK).setState p .joining

/-- `acknowledge_join`. -/
def acknowledge (m : Membership) (p : PeerRef) (g : GroupRef) : Membership := (m.takeIn p g).armJoinTimer p g

/-- `answer_join_request`. -/
def answer (m : Membership) (p : PeerRef) : Membership :=
  match m.localGroup with
  | none => m
  | some g =>
    ({ m with joinToken := false, newPeers := m.newPeers.erase (m.peer p).address }.acknowledge p g).armReadyTimer p

theorem answer_eq {m : Membership} {p : PeerRef} {g : GroupRef} (h : m.localGroup = some g) : m.answer p =
    ({ m with joinToken := false, newPeers := m.newPeers.erase (m.peer p).address }.acknowledge p g).armReadyTimer p := by
  unfold answer
  split
  · simp_all
  · rename_i g' h'
    cases h.symm.trans h'
    rfl

/-- The pending peer `check_for_new_peers` finds. -/
def pending? (m : Membership) : Option PeerRef :=
  m.newPeers.entries.findSome? fun e => e.2.1.filter fun p => (m.peer p).isKnown

/-- The same with the port he has asked with. -/
def waiting? (m : Membership) : Option (PeerRef × Port) :=
  m.newPeers.entries.findSome? fun e => (e.2.1.filter fun p => (m.peer p).isKnown).map (·, e.2.2)

omit [Platform] in
theorem pending_eq (m : Membership) : m.pending? = m.waiting?.map Prod.fst := by
  rw [waiting?, List.map_findSome?, pending?]
  congr 1
  funext e
  simp [Function.comp_def]

/-- `check_for_new_peers`. -/
def check (m : Membership) : Membership :=
  match m.pending? with
  | some p => m.answer p
  | none => { m with joinToken := true }

def readyOne (m : Membership) (g : GroupRef) : Membership :=
  match m.localGroup with
  | none => m
  | some l => m.enterRings l g

def enterChannels (m : Membership) (p : PeerRef) : Membership :=
  match m.localGroup with
  | none => m
  | some l => m.groups.values.foldl (fun m g =>
      if (m.group g).id ≠ (m.group l).id then (m.addToRings g p).updateNeighbours g else m) m

/-- The group of a JOIN Acknowledgement, created the first time. -/
def ackGroup (m : Membership) (groupId : Bytes) : GroupRef × Membership :=
  match m.groups.find? groupId with
  | some g => (g, m)
  | none =>
    (m.groupCount, match m.localGroup with
      | none => { m.createGroup groupId with localGroup := some m.groupCount }
      | some l => (m.createGroup groupId).modGroup m.groupCount
          fun x => x.addGroupToRings m.getId ((m.createGroup groupId).group l))

def ackPeer (m : Membership) (p : PeerRef) (g : GroupRef) (peerId pubK : Bytes) : Membership :=
  let m := (m.initPeer p peerId pubK).setState p .connected
  { m with newPeers := m.newPeers.erase (m.peer p).address, peers := m.peers.insert peerId p }.addPeer g p

/-- The peer leaves one group. -/
def drop (m : Membership) (p : PeerRef) (g : GroupRef) : Membership := (m.removePeer g p).2.updateNeighbours g

/-- The peer leaves our group and then all of them, or only the first. -/
def leaveGroups (m : Membership) (l : GroupRef) (p : PeerRef) : Membership :=
  let m' := (m.removePeer l p).2
  if (m.removePeer l p).1 then m'.groups.values.foldl (fun m g => m.drop p g) m'
  else match m'.groups.entries.head? with
    | none => m'
    | some (_, g) => m'.drop p g

/-- `handle_disconnect`, up to the reset. -/
def remove (m : Membership) (p : PeerRef) : Membership :=
  if m.peers.contains (m.getId p) then
    match m.localGroup with
    | none => { m with peers := m.peers.erase (m.getId p) }
    | some l => { m with peers := m.peers.erase (m.getId p) }.leaveGroups l p
  else { m with newPeers := m.newPeers.erase (m.peer p).address }

/-- Back to `NEW` once nobody is left. -/
def reset (m : Membership) : Membership :=
  if m.peers.size = 0 ∧ m.newPeers.size = 0 then
    { m with groups := ∅, localGroup := none }.setState m.localPeer .new
  else m

def apply (m : Membership) : Change → Membership
  | .idle => m
  | .accept address => (m.newPeer address).addNewPeer m.peerCount
  | .contact address => ((m.newPeer address).setState m.localPeer .joining).addNewPeer m.peerCount
  | .request p id pubK port newId =>
    let m := m.greet p id pubK newId
    if m.joinToken then m.answer p else m.pend p port
  | .notified groupId peerId pubK address =>
    match m.groups.find? groupId with
    | none => m
    | some g =>
      (({ m with joinToken := false }.newPeer address).enrol m.peerCount peerId pubK).acknowledge m.peerCount g
  | .unreached => { m with joinToken := false }
  | .channels peerId =>
    match m.peers.find? peerId with
    | none => m
    | some p => m.enterChannels p
  | .acked p groupId peerId pubK => (m.ackGroup groupId).2.ackPeer p (m.ackGroup groupId).1 peerId pubK
  | .ready => m.groups.values.foldl readyOne m
  | .completed p => (m.setState p .connected).check
  | .expired id =>
    match m.joinTimers.find? id with
    | none => m
    | some t =>
      let m := { m with joinTimers := m.joinTimers.insert id { t with armed := false } }.setState t.peer .connected
      { m with joinTimers := m.joinTimers.erase (m.getId t.peer) }.check
  | .readySent id =>
    match m.readyTimers.find? id with
    | none => m
    | some t =>
      { m with readyTimers := (m.readyTimers.insert id { t with armed := false }).erase (m.getId t.peer) }
  | .closed p => ((m.stopListening p).remove p).reset
  | .failed p => m.stopListening p

end Membership

namespace Network

/-! ## Talk -/

theorem derefLocalGroup_ok {s : Network} {g : GroupRef} : s.derefLocalGroup = .ok g ↔ s.localGroup = some g := by
  unfold derefLocalGroup
  split <;> simp [*]

theorem logMessage_membership {s s' : Network} {m : Message} {p : PeerRef} (h : s.logMessage m p = .ok s') :
    s'.toMembership = s.toMembership := (logMessage_logs h).membership

theorem logKnown_membership {s s' : Network} {m : Message} {p : PeerRef} (h : s.logKnown m p = .ok s') :
    s'.toMembership = s.toMembership := by
  unfold logKnown at h
  split at h
  · exact logMessage_membership h
  · cases h; rfl

variable [Platform]

theorem broadcast_membership {s s' : Network} {g : GroupRef} {m : Message} {b : Bool}
    (h : s.broadcast g m b = .ok s') : s'.toMembership = s.toMembership := by
  cases b
  · rw [broadcast_relayed] at h
    rw [logMessage_membership h]; rfl
  · rw [broadcast_stamped] at h
    rw [logMessage_membership h]; rfl

theorem send_membership {s s' : Network} {payload : Payload} {p : PeerRef} (h : s.send payload p = .ok s') :
    s'.toMembership = s.toMembership := by
  rw [send_eq] at h
  rw [logMessage_membership h]; rfl

theorem forward_membership {s s' : Network} {m : Message} (h : s.forward m = .ok s') :
    s'.toMembership = s.toMembership := by
  unfold forward at h
  split at h
  · cases h; rfl
  · split at h
    · cases h; rfl
    · split at h
      · cases h
      · exact broadcast_membership h

/-! ## Handlers -/

theorem acknowledgeJoin_membership {s s' : Network} {p : PeerRef} {g : GroupRef} (h : s.acknowledgeJoin p g = .ok s') :
    s'.toMembership = s.toMembership.acknowledge p g := by
  obtain ⟨l, -, h⟩ := bind_ok.mp h
  obtain ⟨t, ht, h⟩ := bind_ok.mp h
  rw [← pure_ok.mp h, Membership.acknowledge]
  show t.armJoinTimer p g = _
  rw [send_membership ht]

theorem answerJoinRequest_membership {s s' : Network} {p : PeerRef} {port : Port}
    (h : s.answerJoinRequest p port = .ok s') : s'.toMembership = s.toMembership.answer p := by
  obtain ⟨l, hl, h⟩ := bind_ok.mp h
  obtain ⟨t, ht, h⟩ := bind_ok.mp h
  obtain ⟨u, hu, h⟩ := bind_ok.mp h
  have hl : s.localGroup = some l := derefLocalGroup_ok.mp hl
  have ht : t.toMembership = { s.toMembership with joinToken := false } := broadcast_membership ht
  have hu := acknowledgeJoin_membership hu
  rw [← pure_ok.mp h, Membership.answer_eq hl]
  show u.armReadyTimer p = _
  rw [hu]
  show ({ t.toMembership with newPeers := t.newPeers.erase (s.peer p).address }.acknowledge p l).armReadyTimer p = _
  rw [ht]

omit [Platform] in
theorem firstKnown_waiting {s : Network} {r : Option (PeerRef × Port)} : ∀ {l : List (Bytes × Option PeerRef × Port)},
    s.firstKnown l = .ok r →
    r = l.findSome? fun e => (e.2.1.filter fun p => (s.peer p).isKnown).map (·, e.2.2) := by
  intro l
  induction l with
  | nil => intro h; cases h; rfl
  | cons e l ih =>
    obtain ⟨k, q, port⟩ := e
    intro h
    cases q with
    | none => cases h
    | some p =>
      rw [firstKnown] at h
      split at h
      · rename_i hk
        cases h
        simp [Option.filter, hk]
      · rename_i hk
        rw [ih h]
        simp [Option.filter, hk]

theorem checkForNewPeers_membership {s s' : Network} (h : s.checkForNewPeers = .ok s') :
    s'.toMembership = s.toMembership.check := by
  obtain ⟨r, hr, h⟩ := bind_ok.mp h
  have hp : r.map Prod.fst = s.toMembership.pending? := by rw [firstKnown_waiting hr, s.toMembership.pending_eq]; rfl
  unfold Membership.check
  rw [← hp]
  split at h
  · exact answerJoinRequest_membership h
  · cases h; rfl

theorem completeJoin_membership {s s' : Network} {p : PeerRef} (h : s.completeJoin p = .ok s') :
    s'.toMembership = { s.setState p .connected with
      joinTimers := s.joinTimers.erase ((s.setState p .connected).getId p) }.check :=
  checkForNewPeers_membership h

theorem sendReady_membership {s s' : Network} {p : PeerRef} (h : s.sendReady p = .ok s') :
    s'.toMembership = { s.toMembership with readyTimers := s.readyTimers.erase (s.getId p) } := by
  obtain ⟨t, ht, h⟩ := bind_ok.mp h
  rw [← pure_ok.mp h]
  have := send_membership ht
  simp only [this]

/-! ### Disconnecting -/

theorem removePeer_again (m : Membership) (g : GroupRef) (p : PeerRef) :
    ((m.removePeer g p).2.removePeer g p).1 = false := by
  simp only [Membership.removePeer, Membership.modGroup, Group.removePeer, Function.update_self, Membership.getId]
  exact OrdMap.not_contains_iff.mpr (OrdMap.find_erase_self _ _)

/-- The loop looks at one group only; where that is the wrong one, it never ends. -/
theorem searchGroups_ok {s s' : Network} {p : PeerRef} : ∀ {rounds : Nat} {it : List (Bytes × GroupRef)},
    s.searchGroups p rounds it = .ok s' →
    (it = [] ∧ s' = s) ∨ ∃ k g rest, it = (k, g) :: rest ∧ (s.removePeer g p).1 = true ∧
      s' = { s with toMembership := s.toMembership.drop p g } := by
  intro rounds
  -- after one round that found nothing, the next finds nothing either
  have stuck : ∀ rounds (s : Network) k g rest, (s.removePeer g p).1 = false →
      s.searchGroups p rounds ((k, g) :: rest) = .error .running := by
    intro rounds
    induction rounds with
    | zero => intro s k g rest _; rfl
    | succ n ih =>
      intro s k g rest hf
      simp only [searchGroups, hf, Bool.false_eq_true, if_false]
      exact ih _ k g rest (removePeer_again s.toMembership g p)
  cases rounds with
  | zero => intro it h; cases h
  | succ n =>
    intro it h
    cases it with
    | nil => cases h; exact Or.inl ⟨rfl, rfl⟩
    | cons e rest =>
      obtain ⟨k, g⟩ := e
      right
      refine ⟨k, g, rest, rfl, ?_⟩
      simp only [searchGroups] at h
      split at h
      · rename_i hr
        cases h
        exact ⟨hr, rfl⟩
      · rw [stuck n _ k g rest (removePeer_again s.toMembership g p)] at h
        cases h

theorem leaveGroups_ok {s s' : Network} {p : PeerRef} {rounds : Nat} (h : s.leaveGroups p rounds = .ok s') :
    ∃ l, s.localGroup = some l ∧ s' = { s with toMembership := s.toMembership.leaveGroups l p } := by
  obtain ⟨l, hl, h⟩ := bind_ok.mp h
  refine ⟨l, derefLocalGroup_ok.mp hl, ?_⟩
  unfold Membership.leaveGroups
  simp only at h ⊢
  split at h
  · rename_i hr
    rw [if_pos hr]
    cases h
    rfl
  · rename_i hr
    rw [if_neg hr]
    rcases searchGroups_ok h with ⟨he, rfl⟩ | ⟨k, g, rest, he, -, hm⟩
    · have he : (s.removePeer l p).2.groups.entries = [] := he
      simp only [he, List.head?_nil]
    · have he : (s.removePeer l p).2.groups.entries = (k, g) :: rest := he
      simp only [he, List.head?_cons]
      exact hm

omit [Platform] in
theorem resetAlone_eq (s : Network) : s.resetAlone = { s with toMembership := s.toMembership.reset } := by
  unfold resetAlone Membership.reset
  split <;> rfl

/-- A disconnection changes the membership only. -/
theorem handleDisconnect_ok {s s' : Network} {p : PeerRef} {rounds : Nat} (h : s.handleDisconnect p rounds = .ok s') :
    s' = { s with toMembership := (s.toMembership.remove p).reset } := by
  unfold handleDisconnect at h
  unfold Membership.remove
  split at h
  · rename_i hc
    rw [if_pos hc]
    obtain ⟨t, ht, h⟩ := bind_ok.mp h
    obtain ⟨l, hl, rfl⟩ := leaveGroups_ok ht
    have hl : s.localGroup = some l := hl
    rw [← pure_ok.mp h, resetAlone_eq]
    simp only [hl]
  · rename_i hc
    rw [if_neg hc, ← pure_ok.mp h, resetAlone_eq]

theorem handleDisconnect_membership {s s' : Network} {p : PeerRef} {rounds : Nat}
    (h : s.handleDisconnect p rounds = .ok s') : s'.toMembership = (s.toMembership.remove p).reset := by
  rw [handleDisconnect_ok h]

/-! ### Processing a message -/

theorem foundGroup_membership (s : Network) :
    s.foundGroup.toMembership = s.toMembership.found (makeHash (s.getId s.localPeer ++ itos (s.clock 0))) := by
  have hid : (s.setState s.localPeer .connected).getId s.localPeer = s.getId s.localPeer := by
    simp [Membership.getId, Membership.setState, Membership.modPeer]
  rw [← hid]
  rfl

theorem processJoin_membership {s s' : Network} {m : Message} {p : PeerRef} {id pubK : Bytes} {port : Port}
    (h : s.processJoin m p id pubK port = .ok s') : s'.toMembership = s.toMembership.apply
      (.request p id pubK port (makeHash (s.getId s.localPeer ++ itos (s.clock 0)))) := by
  obtain ⟨t, ht, h⟩ := bind_ok.mp h
  have ht : t.toMembership = (((if s.localState ≠ .connected then s.foundGroup else s).initPeer p id pubK).setState p
      .joining) := logMessage_membership ht
  have hf : (if s.localState ≠ .connected then s.foundGroup else s).toMembership = if s.localState ≠ .connected then
      s.found (makeHash (s.getId s.localPeer ++ itos (s.clock 0))) else s.toMembership := by
    split
    · exact foundGroup_membership s
    · rfl
  rw [hf] at ht
  rw [Membership.apply, Membership.greet, ← ht]
  split at h
  · rename_i hj
    rw [if_pos hj]
    exact answerJoinRequest_membership h
  · rename_i hj
    rw [if_neg hj, ← pure_ok.mp h]

theorem processReadyNotif_membership {s s' : Network} {p : PeerRef} (h : s.processReadyNotif p = .ok s') :
    s'.toMembership = s.toMembership.apply (.completed p) :=
  checkForNewPeers_membership h

theorem hisGroup_membership (s : Network) (groupId : Bytes) :
    (s.hisGroup groupId).1 = (s.toMembership.ackGroup groupId).1 ∧
      (s.hisGroup groupId).2.toMembership = (s.toMembership.ackGroup groupId).2 := by
  cases hg : s.groups.find? groupId with
  | some g => simp only [hisGroup, Membership.ackGroup, hg, and_self]
  | none =>
    have hl' : (s.createGroup groupId).localGroup = s.localGroup := rfl
    cases hl : s.localGroup with
    | none => simp only [hisGroup, Membership.ackGroup, hg, hl', hl, and_self]
    | some l =>
      simp only [hisGroup, Membership.ackGroup, hg, hl', hl, true_and]
      rfl

theorem processJoinAck_membership {s s' : Network} {m : Message} {p : PeerRef} {groupId peerId pubK : Bytes}
    (h : s.processJoinAck m p groupId peerId pubK = .ok s') :
    s'.toMembership = s.toMembership.apply (.acked p groupId peerId pubK) := by
  obtain ⟨h₁, h₂⟩ := hisGroup_membership s groupId
  have h := logMessage_membership h
  rw [h, Membership.apply, ← h₁, ← h₂]
  rfl

theorem readyGroup_membership {s s' : Network} {g : GroupRef} (h : s.readyGroup g = .ok s') :
    s'.toMembership = s.toMembership.readyOne g := by
  obtain ⟨l, hl, h⟩ := bind_ok.mp h
  have hl : s.localGroup = some l := derefLocalGroup_ok.mp hl
  rw [Membership.readyOne, hl]
  simp only at h
  split at h
  · exact logMessage_membership h
  · rw [← pure_ok.mp h]

theorem processReady_membership {s s' : Network} (h : s.processReady = .ok s') :
    s'.toMembership = s.toMembership.apply .ready := by
  have run : ∀ (l : List GroupRef) (s s' : Network), l.foldlM readyGroup s = .ok s' →
      s'.toMembership = l.foldl Membership.readyOne s.toMembership := by
    intro l
    induction l with
    | nil => intro s s' h; rw [← pure_ok.mp h]; rfl
    | cons g l ih =>
      intro s s' h
      rw [List.foldlM_cons] at h
      obtain ⟨t, ht, h⟩ := bind_ok.mp h
      rw [ih t s' h, readyGroup_membership ht, List.foldl_cons]
  exact run _ s s' h

/-- Whether a JOIN Notification about this group is to be acknowledged. -/
def acknowledges (s : Network) (groupId : Bytes) (channel : Bool) : Bool :=
  s.groups.contains groupId && (decide (some groupId = s.localGroup.map fun l => (s.group l).id) ^^ channel)

/-- The change a new message brings. -/
def messageChange (s : Network) (m : Message) (emitter : PeerRef) (reached : Option Bytes) : Change :=
  match m.payload with
  | .join id pubK port => .request emitter id pubK port (makeHash (s.getId s.localPeer ++ itos (s.clock 0)))
  | .joinNotif _ channel groupId peerId pubK _ _ =>
    if s.acknowledges groupId channel then
      match reached with
      | some address => .notified groupId peerId pubK address
      | none => .unreached
    else if channel && s.groups.contains groupId then .channels peerId
    else .idle
  | .joinAck groupId peerId pubK => .acked emitter groupId peerId pubK
  | .ready => .ready
  | .readyNotif => .completed emitter
  | .data _ _ => .idle

def change (s : Network) : Event → Change
  | .accept address => .accept address
  | .read p received reached =>
    match parseMessage received with
    | .error _ => .idle
    | .ok m => if (s.findLog m).isSome then .idle else s.messageChange m p reached
  | .eof p => .closed p
  | .readError p => .failed p
  | .readyTimer id => .readySent id
  | .joinTimer id => .expired id
  | .join _ _ reached =>
    match reached with
    | some address => .contact address
    | none => .idle
  | .broadcast _ => .idle
  | .sendAll _ => .idle

/-- Which events bring which changes. -/
inductive Causes (s : Network) : Event → Change → Prop
  | idle (e : Event) : Causes s e .idle
  | accept (address : Bytes) : Causes s (.accept address) (.accept address)
  | contact (ip port address : Bytes) : Causes s (.join ip port (some address)) (.contact address)
  | request {received stamp id pubK : Bytes} {port : Port} (p : PeerRef) (reached : Option Bytes) (newId : Bytes)
      (hm : parseMessage received = .ok ⟨stamp, .join id pubK port⟩) :
      Causes s (.read p received reached) (.request p id pubK port newId)
  | notified {received stamp marker groupId peerId pubK ip address : Bytes} {channel : Bool} {port : Port} (p : PeerRef)
      (hm : parseMessage received = .ok ⟨stamp, .joinNotif marker channel groupId peerId pubK ip port⟩) :
      Causes s (.read p received (some address)) (.notified groupId peerId pubK address)
  | unreached {received stamp marker groupId peerId pubK ip : Bytes} {channel : Bool} {port : Port} (p : PeerRef)
      (hm : parseMessage received = .ok ⟨stamp, .joinNotif marker channel groupId peerId pubK ip port⟩) :
      Causes s (.read p received none) .unreached
  | channels {received stamp marker groupId peerId pubK ip : Bytes} {channel : Bool} {port : Port} (p : PeerRef)
      (reached : Option Bytes)
      (hm : parseMessage received = .ok ⟨stamp, .joinNotif marker channel groupId peerId pubK ip port⟩) :
      Causes s (.read p received reached) (.channels peerId)
  | acked {received stamp groupId peerId pubK : Bytes} (p : PeerRef) (reached : Option Bytes)
      (hm : parseMessage received = .ok ⟨stamp, .joinAck groupId peerId pubK⟩) :
      Causes s (.read p received reached) (.acked p groupId peerId pubK)
  | ready {received stamp : Bytes} (p : PeerRef) (reached : Option Bytes)
      (hm : parseMessage received = .ok ⟨stamp, .ready⟩) : Causes s (.read p received reached) .ready
  | completed {received stamp : Bytes} (p : PeerRef) (reached : Option Bytes)
      (hm : parseMessage received = .ok ⟨stamp, .readyNotif⟩) : Causes s (.read p received reached) (.completed p)
  | expired (id : Bytes) : Causes s (.joinTimer id) (.expired id)
  | readySent (id : Bytes) : Causes s (.readyTimer id) (.readySent id)
  | closed (p : PeerRef) : Causes s (.eof p) (.closed p)
  | failed (p : PeerRef) : Causes s (.readError p) (.failed p)

theorem change_causes (s : Network) (e : Event) : s.Causes e (s.change e) := by
  cases e with
  | read p received reached =>
    simp only [change]
    cases hm : parseMessage received with
    | error e => exact .idle _
    | ok m =>
      obtain ⟨stamp, payload⟩ := m
      by_cases hl : (s.findLog ⟨stamp, payload⟩).isSome
      · simp only [hl, if_true]
        exact .idle _
      · simp only [hl]
        cases payload with
        | join id pubK port => exact .request p reached _ hm
        | joinNotif marker channel groupId peerId pubK ip port =>
          simp only [messageChange, Bool.false_eq_true, if_false]
          split
          · cases reached with
            | none => exact .unreached p hm
            | some address => exact .notified p hm
          · split
            · exact .channels p reached hm
            · exact .idle _
        | joinAck groupId peerId pubK => exact .acked p reached hm
        | ready => exact .ready p reached hm
        | readyNotif => exact .completed p reached hm
        | data marker content => exact .idle _
  | join ip port reached =>
    cases reached with
    | none => exact .idle _
    | some address => exact .contact ip port address
  | accept address => exact .accept address
  | eof p => exact .closed p
  | readError p => exact .failed p
  | readyTimer id => exact .readySent id
  | joinTimer id => exact .expired id
  | broadcast content => exact .idle _
  | sendAll message => exact .idle _

/-! ### What throws -/

/-- No exception leaves the computation. -/
def Quiet {α : Type} (x : Except Stop α) : Prop := ∀ s, x ≠ .error (.thrown s)

omit [Platform] in
theorem quiet_ok {α : Type} (a : α) : Quiet (.ok a : Except Stop α) := by intro s h; cases h

omit [Platform] in
theorem quiet_fault {α : Type} (f : Fault) : Quiet (.error (.fault f) : Except Stop α) := by intro s h; cases h

omit [Platform] in
theorem quiet_bind {α β : Type} {x : Except Stop α} {f : α → Except Stop β} (hx : Quiet x)
    (hf : ∀ a, Quiet (f a)) : Quiet (x >>= f) := by
  intro s h
  cases x with
  | error e => exact hx s (by cases h; rfl)
  | ok a => exact hf a s h

omit [Platform] in
theorem derefLocalGroup_quiet (s : Network) : Quiet s.derefLocalGroup := by
  unfold derefLocalGroup
  split
  · exact quiet_ok _
  · exact quiet_fault _

omit [Platform] in
theorem markerGroup_quiet (s : Network) (marker : Bytes) : Quiet (s.markerGroup marker) := by
  simp only [markerGroup]
  split
  · exact quiet_ok _
  · exact quiet_fault _

omit [Platform] in
theorem logMessage_quiet (s : Network) (m : Message) (p : PeerRef) : Quiet (s.logMessage m p) := by
  refine quiet_bind ?_ fun t => quiet_ok _
  unfold enterLog
  split
  · exact quiet_ok _
  · split
    · rename_i marker _
      cases hm : s.markerGroup marker with
      | ok r => exact quiet_ok _
      | error e => exact fun u hu => markerGroup_quiet s marker u (by cases hu; exact hm)
    · exact quiet_ok _

theorem broadcast_quiet (s : Network) (g : GroupRef) (m : Message) (b : Bool) : Quiet (s.broadcast g m b) := by
  cases b
  · rw [broadcast_relayed]; exact logMessage_quiet _ _ _
  · rw [broadcast_stamped]; exact logMessage_quiet _ _ _

theorem acknowledgeJoin_quiet (s : Network) (p : PeerRef) (g : GroupRef) : Quiet (s.acknowledgeJoin p g) :=
  quiet_bind (derefLocalGroup_quiet _) fun _ => quiet_bind (by rw [send_eq]; exact logMessage_quiet _ _ _)
    fun _ => quiet_ok _

theorem answerJoinRequest_quiet (s : Network) (p : PeerRef) (port : Port) : Quiet (s.answerJoinRequest p port) :=
  quiet_bind (derefLocalGroup_quiet _) fun _ => quiet_bind (broadcast_quiet _ _ _ _)
    fun _ => quiet_bind (acknowledgeJoin_quiet _ _ _) fun _ => quiet_ok _

theorem processJoin_quiet (s : Network) (m : Message) (p : PeerRef) (id pubK : Bytes) (port : Port) :
    Quiet (s.processJoin m p id pubK port) := by
  refine quiet_bind (logMessage_quiet _ _ _) fun t => ?_
  split
  · exact answerJoinRequest_quiet _ _ _
  · exact quiet_ok _

theorem processJoinAck_quiet (s : Network) (m : Message) (p : PeerRef) (groupId peerId pubK : Bytes) :
    Quiet (s.processJoinAck m p groupId peerId pubK) := logMessage_quiet _ _ _

omit [Platform] in
theorem firstKnown_quiet (s : Network) : ∀ l : List (Bytes × Option PeerRef × Port), Quiet (s.firstKnown l) := by
  intro l
  induction l with
  | nil => exact quiet_ok _
  | cons e l ih =>
    obtain ⟨k, q, port⟩ := e
    cases q with
    | none => exact quiet_fault _
    | some p =>
      rw [firstKnown]
      split
      · exact quiet_ok _
      · exact ih

theorem checkForNewPeers_quiet (s : Network) : Quiet s.checkForNewPeers := by
  refine quiet_bind (firstKnown_quiet s _) fun r => ?_
  split
  · exact answerJoinRequest_quiet _ _ _
  · exact quiet_ok _

theorem readyGroup_quiet (s : Network) (g : GroupRef) : Quiet (s.readyGroup g) := by
  refine quiet_bind (derefLocalGroup_quiet s) fun l => ?_
  simp only
  split
  · exact logMessage_quiet _ _ _
  · exact quiet_ok _

theorem processReady_quiet (s : Network) : Quiet s.processReady := by
  have run : ∀ (l : List GroupRef) (s : Network), Quiet (l.foldlM readyGroup s) := by
    intro l
    induction l with
    | nil => intro s; exact quiet_ok _
    | cons g l ih => intro s; rw [List.foldlM_cons]; exact quiet_bind (readyGroup_quiet s g) ih
  exact run _ s

omit [Platform] in
theorem logKnown_quiet (s : Network) (m : Message) (p : PeerRef) : Quiet (s.logKnown m p) := by
  unfold logKnown
  split
  · exact logMessage_quiet _ _ _
  · exact quiet_ok _

theorem forward_quiet (s : Network) (m : Message) : Quiet (s.forward m) := by
  unfold forward
  split
  · exact quiet_ok _
  · split
    · exact quiet_ok _
    · split
      · exact quiet_fault _
      · exact broadcast_quiet _ _ _ _

/-! ## Messages -/

/-- Only a JOIN Notification throws, when its peer cannot be reached. -/
def outcome : Except Stop Network → Option Network
  | .ok s => some s
  | .error (.thrown s) => some s
  | .error _ => none

omit [Platform] in
theorem outcome_quiet {x : Except Stop Network} (hx : Quiet x) {s : Network} (h : outcome x = some s) : x = .ok s := by
  unfold outcome at h
  split at h
  · cases h; rfl
  · exact absurd rfl (hx _)
  · cases h

omit [Platform] in
theorem outcome_bind {α : Type} {x : Except Stop α} {f : α → Except Stop Network} (hx : Quiet x) {s : Network}
    (h : outcome (x >>= f) = some s) : ∃ a, x = .ok a ∧ outcome (f a) = some s := by
  cases x with
  | ok a => exact ⟨a, rfl, h⟩
  | error e =>
    cases e with
    | thrown u => exact absurd rfl (hx u)
    | fault f => cases h
    | running => cases h

theorem processJoinNotif_membership {s s' : Network} {m : Message} {p : PeerRef} {marker : Bytes} {channel : Bool}
    {groupId peerId pubK ip : Bytes} {port : Port} {reached : Option Bytes}
    (hm : m.payload = .joinNotif marker channel groupId peerId pubK ip port)
    (h : outcome (s.processJoinNotif channel groupId peerId pubK ip port reached) = some s') :
    s'.toMembership = s.toMembership.apply (s.messageChange m p reached) := by
  simp only [messageChange, hm]
  unfold processJoinNotif at h
  cases hg : s.groups.find? groupId with
  | none =>
    have hc : s.groups.contains groupId = false := OrdMap.not_contains_iff.mpr hg
    simp only [hg] at h
    simp only [acknowledges, hc, Bool.false_and, Bool.and_false, Bool.false_eq_true, if_false]
    cases h
    rfl
  | some g =>
    have hc : s.groups.contains groupId = true := OrdMap.contains_iff.mpr ⟨g, hg⟩
    simp only [hg] at h
    obtain ⟨l, hl, h⟩ := outcome_bind (derefLocalGroup_quiet s) h
    have hl : s.localGroup = some l := derefLocalGroup_ok.mp hl
    have ha : s.acknowledges groupId channel = (decide (groupId = (s.group l).id) ^^ channel) := by
      simp [acknowledges, hc, hl]
    rw [ha]
    split at h
    · rename_i hx
      rw [if_pos hx]
      cases reached with
      | none => cases h; rfl
      | some address =>
        obtain ⟨⟨q, t⟩, hq, h⟩ := outcome_bind (quiet_ok _) h
        cases hq
        have h := acknowledgeJoin_membership (outcome_quiet (acknowledgeJoin_quiet _ _ _) h)
        rw [h]
        simp only [Membership.apply, hg]
        rfl
    · rename_i hx
      rw [if_neg hx]
      cases channel with
      | false => cases h; rfl
      | true =>
        simp only [hc, Bool.and_self, if_true] at h ⊢
        cases hp : s.peers.find? peerId with
        | none =>
          simp only [hp] at h
          cases h
          simp only [Membership.apply, hp]
        | some q =>
          simp only [hp] at h
          cases h
          simp only [Membership.apply, hp, Membership.enterChannels, hl]

theorem process_membership {s s' : Network} {m : Message} {p : PeerRef} {reached : Option Bytes}
    (h : outcome (s.process m p reached) = some s') :
    s'.toMembership = s.toMembership.apply (s.messageChange m p reached) := by
  unfold process at h
  split at h
  case h_1 id pubK port hm =>
    rw [messageChange, hm]
    exact processJoin_membership (outcome_quiet (processJoin_quiet _ _ _ _ _ _) h)
  case h_2 marker channel groupId peerId pubK ip port hm => exact processJoinNotif_membership hm h
  case h_3 groupId peerId pubK hm =>
    rw [messageChange, hm]
    exact processJoinAck_membership (outcome_quiet (processJoinAck_quiet _ _ _ _ _ _) h)
  case h_4 hm =>
    rw [messageChange, hm]
    exact processReady_membership (outcome_quiet (processReady_quiet s) h)
  case h_5 hm =>
    rw [messageChange, hm]
    exact processReadyNotif_membership (outcome_quiet (checkForNewPeers_quiet _) h)
  case h_6 marker content hm =>
    rw [messageChange, hm]
    cases h
    rfl

/-- Logging and relaying leave what a message's effect depends on as it was. -/
theorem messageChange_congr {s t : Network} (h : t.toMembership = s.toMembership) (hc : t.clock = s.clock) (m : Message)
    (p : PeerRef) (reached : Option Bytes) : t.messageChange m p reached = s.messageChange m p reached := by
  have ha : ∀ groupId channel, t.acknowledges groupId channel = s.acknowledges groupId channel := by
    intro groupId channel
    simp only [acknowledges, h]
  simp only [messageChange, ha, h, hc]

theorem forward_clock {s s' : Network} {m : Message} (h : s.forward m = .ok s') : s'.clock = s.clock := by
  unfold forward at h
  split at h
  · cases h; rfl
  · split at h
    · cases h; rfl
    · split at h
      · cases h
      · rw [broadcast_relayed] at h
        rw [(logMessage_logs h).clock]
        rfl

theorem receive_membership {s s' : Network} {m : Message} {p : PeerRef} {reached : Option Bytes}
    (h : outcome (s.receive m p reached) = some s') :
    s'.toMembership = s.toMembership.apply (s.messageChange m p reached) := by
  obtain ⟨t, ht, h⟩ := outcome_bind (logKnown_quiet s m p) h
  obtain ⟨u, hu, h⟩ := outcome_bind (forward_quiet t m) h
  have htm := logKnown_membership ht
  have hum := forward_membership hu
  have htc : t.clock = s.clock := by
    unfold logKnown at ht
    split at ht
    · exact (logMessage_logs ht).clock
    · cases ht; rfl
  rw [process_membership h, messageChange_congr (hum.trans htm) ((forward_clock hu).trans htc), hum, htm]

theorem handleIncomingMessage_membership {s s' : Network} {received : Bytes} {p : PeerRef} {reached : Option Bytes}
    (h : s.handleIncomingMessage received p reached = .ok s') :
    s'.toMembership = s.toMembership.apply (s.change (.read p received reached)) := by
  cases hm : parseMessage received with
  | error e =>
    simp only [handleIncomingMessage, hm] at h
    cases h
    simp only [change, hm]
    rfl
  | ok m =>
    cases hl : s.findLog m with
    | some l =>
      simp only [handleIncomingMessage, hm, hl] at h
      cases h
      simp only [change, hm, hl, Option.isSome_some, if_true]
      rfl
    | none =>
      simp only [handleIncomingMessage, hm, hl] at h
      simp only [change, hm, hl, Option.isSome_none, Bool.false_eq_true, if_false]
      split at h
      · rename_i u hu
        cases h
        exact (receive_membership (by rw [hu]; rfl) :)
      · exact receive_membership (by rw [h]; rfl)

theorem join_membership {s s' : Network} {ip port : Bytes} {reached : Option Bytes}
    (h : s.join ip port reached = .ok s') : s'.toMembership = s.toMembership.apply (s.change (.join ip port reached)) := by
  cases reached with
  | none => cases h; rfl
  | some address => exact (send_membership h :)

/-- A handler that returns has exactly the effect of its change. -/
theorem handle_membership {rounds : Nat} {s s' : Network} {e : Event} (h : handle rounds s e = .ok s') :
    s'.toMembership = s.toMembership.apply (s.change e) := by
  cases e with
  | accept address => cases h; rfl
  | read p received reached => exact handleIncomingMessage_membership h
  | eof p => exact handleDisconnect_membership h
  | readError p => cases h; rfl
  | readyTimer id =>
    simp only [handle] at h
    simp only [change, Membership.apply]
    split at h
    · rename_i t ht
      simp only [ht]
      exact sendReady_membership h
    · rename_i ht
      cases h
      simp only [ht]
  | joinTimer id =>
    simp only [handle] at h
    simp only [change, Membership.apply]
    split at h
    · rename_i t ht
      simp only [ht]
      exact completeJoin_membership h
    · rename_i ht
      cases h
      simp only [ht]
  | join ip port reached => exact join_membership h
  | broadcast content =>
    obtain ⟨l, -, h⟩ := bind_ok.mp h
    exact broadcast_membership h
  | sendAll message => cases h; rfl

end Network

end RacKun
