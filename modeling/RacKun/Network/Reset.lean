/-
  RacKun.Network.Reset — whether a node that is alone again is as good as new.

  `handle_disconnect` clears the groups and the local group; the token, the timers and the
  channel markers stay as they are, and the log does too. The log alone does no harm: two
  nodes that differ in old entries only answer alike, as long as nobody uses an old stamp
  again.

  - `respond_same`: a sequence of events that brings no old stamp has the same outcome for both.
  - `reset_remove`: what the clean-up changes.
-/

import RacKun.Network.Frame
import RacKun.Network.Talk

namespace RacKun

open Lib (OrdMap Agree bind_ok pure_ok ok_bind)

open Scenario

namespace Network

/-! ## As good as new -/

/-- `Network::Network` once more, over the objects there are, the local peer `NEW`. -/
def construct (s : Network) : Network :=
  { s with
    toMembership :=
      { s.setState s.localPeer .new with
        peers := ∅
        groups := ∅
        localGroup := none
        newPeers := ∅
        joinToken := true
        readyTimers := ∅
        joinTimers := ∅ }
    channelMarkers := ∅
    logs := History.empty }

/-- The message log aside. -/
def unlogged (s : Network) : Network := { s with logs := History.empty }

def unloggedOutcome : Except Stop Network → Except Stop Network
  | .ok s => .ok s.unlogged
  | .error (.thrown s) => .error (.thrown s.unlogged)
  | .error x => .error x

variable [Platform]

/-- The outcome of a sequence of events, each possible when it comes. -/
def respond (rounds : Nat) (s : Network) : List Event → Except Stop Network
  | [] => .ok s
  | e :: es => if s.Enabled e then handle rounds s e >>= fun s => s.respond rounds es else .ok s

/-- A message the event brings has no stamp of the log. -/
def Unseen (old : History) : Event → Prop
  | .read _ received _ => ∀ m ∈ (parseMessage received).toOption, old.find? (stampOf m) = none
  | _ => True

/-- No stamp the node will make is one of the log. -/
def StampsNew (s : Network) (old : History) : Prop :=
  ∀ k payload, old.find? (stampOf (Message.makeStamp payload (s.getId s.localPeer) (s.clock k))) = none

/-- The message log aside, the node is a new one, and answers as a new one to whatever carries
    new stamps. -/
structure ResetComplete (s : Network) : Prop where
  state : s.unlogged = s.construct
  answers : ∀ rounds es, s.StampsNew s.logs → (∀ e ∈ es, Unseen s.logs e) →
    unloggedOutcome (s.respond rounds es) = unloggedOutcome (s.construct.respond rounds es)

/-! ## Two nodes with different logs -/

/-- The local peer is this object, and has this ID. -/
structure Us (own : Bytes) (me : PeerRef) (m : Membership) : Prop where
  localPeer : m.localPeer = me
  placed : me < m.peerCount
  author : m.getId me = own

section

variable (old : History) (own : Bytes) (me : PeerRef)

/-- The same node, up to entries of the old log; its own stamps are none of them. -/
structure Alike (t u : Network) : Prop where
  rest : u = { t with logs := u.logs }
  logs : ∀ stamp, old.find? stamp = none → u.logs.find? stamp = t.logs.find? stamp
  us : Us own me t.toMembership
  stamps : ∀ k payload, old.find? (stampOf (Message.makeStamp payload own (t.clock k))) = none

inductive StopAlike : Stop → Stop → Prop
  | thrown {t u : Network} (h : Alike old own me t u) : StopAlike (.thrown t) (.thrown u)
  | fault (f : Fault) : StopAlike (.fault f) (.fault f)
  | running : StopAlike .running .running

/-- Both get to an end, or none, and the ends are alike. -/
abbrev Same : Except Stop Network → Except Stop Network → Prop := Agree (StopAlike old own me) (Alike old own me)

end

variable {old : History} {own : Bytes} {me : PeerRef} {t u : Network}

/-! ### The local peer stays -/

omit [Platform] in
theorem Us.of_eq {m n : Membership} (h : Us own me m) (hl : n.localPeer = m.localPeer) (hc : n.peerCount = m.peerCount)
    (hi : n.getId = m.getId) : Us own me n :=
  ⟨hl.trans h.localPeer, hc ▸ h.placed, hi ▸ h.author⟩

omit [Platform] in
theorem Us.setState {m : Membership} (h : Us own me m) (p : PeerRef) (st : PeerState) : Us own me (m.setState p st) :=
  h.of_eq rfl rfl (Membership.setState_getId m p st)

omit [Platform] in
theorem Us.initPeer {m : Membership} (h : Us own me m) {p : PeerRef} (hp : p ≠ me) (id pubK : Bytes) :
    Us own me (m.initPeer p id pubK) := by
  refine ⟨h.localPeer, h.placed, ?_⟩
  rw [Membership.initPeer_ids, Membership.renamed, Function.update_of_ne hp.symm]
  exact h.author

omit [Platform] in
theorem Us.newPeer {m : Membership} (h : Us own me m) (address : Bytes) : Us own me (m.newPeer address) :=
  ⟨h.localPeer, Nat.lt_succ_of_lt h.placed, (Membership.newPeer_getId h.placed address).trans h.author⟩

omit [Platform] in
theorem Us.addNewPeer {m : Membership} (h : Us own me m) (p : PeerRef) : Us own me (m.addNewPeer p) :=
  h.of_eq rfl rfl (Membership.addNewPeer_getId m p)

omit [Platform] in
theorem Us.enrol {m : Membership} (h : Us own me m) {p : PeerRef} (hp : p ≠ me) (peerId pubK : Bytes) :
    Us own me (m.enrol p peerId pubK) :=
  ⟨h.localPeer, h.placed, (congrArg Peer.id (Membership.enrol_of_ne hp.symm peerId pubK)).trans h.author⟩

omit [Platform] in
/-- What every round keeps. -/
theorem Us.foldl {f : Membership → GroupRef → Membership} (hf : ∀ m g, Us own me m → Us own me (f m g)) {m : Membership}
    (h : Us own me m) (gs : List GroupRef) : Us own me (gs.foldl f m) :=
  List.foldlRecOn gs f h fun m hm g _ => hf m g hm

theorem Alike.log (h : Alike old own me t u) {L L' : History}
    (hl : ∀ stamp, old.find? stamp = none → L'.find? stamp = L.find? stamp) :
    Alike old own me { t with logs := L } { u with logs := L' } := by
  refine ⟨?_, hl, h.us, h.stamps⟩
  rw [h.rest]

theorem Alike.membership (h : Alike old own me t u) {m : Membership} (hm : Us own me m) :
    Alike old own me { t with toMembership := m } { u with toMembership := m } := by
  refine ⟨?_, h.logs, hm, h.stamps⟩
  rw [h.rest]

theorem Alike.markers (h : Alike old own me t u) (markers : OrdMap Bytes Bytes) :
    Alike old own me { t with channelMarkers := markers } { u with channelMarkers := markers } := by
  refine ⟨?_, h.logs, h.us, h.stamps⟩
  rw [h.rest]

theorem Alike.record (h : Alike old own me t u) (es : List Effect) : Alike old own me (t.record es) (u.record es) := by
  refine ⟨?_, h.logs, h.us, h.stamps⟩
  rw [h.rest]
  rfl

theorem Alike.now (h : Alike old own me t u) : Alike old own me t.now.2 u.now.2 := by
  refine ⟨?_, h.logs, h.us, fun k => h.stamps (k + 1)⟩
  rw [h.rest]
  rfl

theorem Alike.split (h : Alike old own me t u) : ∃ L, u = { t with logs := L } := ⟨u.logs, h.rest⟩

theorem Alike.toMembership (h : Alike old own me t u) : u.toMembership = t.toMembership := by
  rw [h.rest]

theorem Alike.channelMarkers (h : Alike old own me t u) : u.channelMarkers = t.channelMarkers := by
  rw [h.rest]

theorem Alike.ack (h : Alike old own me t u) (stamp id : Bytes) :
    Alike old own me { t with logs := t.logs.ack stamp id } { u with logs := u.logs.ack stamp id } := by
  refine h.log fun q hq => ?_
  rw [History.find_ack, History.find_ack, h.logs q hq]

/-- The stamp a node makes next. -/
theorem Alike.makeStamp (h : Alike old own me t u) (payload : Payload) :
    old.find? (stampOf (t.makeStamp payload).1) = none := by
  have hs := h.stamps 0 payload
  rw [← h.us.author, ← h.us.localPeer] at hs
  exact hs

/-! ### Logging -/

theorem Alike.findLog (h : Alike old own me t u) {m : Message} (hm : old.find? (stampOf m) = none) :
    u.findLog m = t.findLog m := h.logs _ hm

theorem Alike.enter (h : Alike old own me t u) {m : Message} (hm : old.find? (stampOf m) = none) (hl : t.findLog m = none)
    (control : OrdMap Bytes Nat) : Alike old own me { t with logs := t.logs.insert ⟨m.serialize, control⟩ }
      { u with logs := u.logs.insert ⟨m.serialize, control⟩ } := by
  refine h.log fun q hq => ?_
  have hl' : u.findLog m = none := (h.findLog hm).trans hl
  rw [History.find_insert (l := ⟨m.serialize, control⟩) hl q, History.find_insert (l := ⟨m.serialize, control⟩) hl' q,
    h.logs q hq]

theorem enterLog_same (h : Alike old own me t u) {m : Message} (hm : old.find? (stampOf m) = none) :
    Same old own me (t.enterLog m) (u.enterLog m) := by
  have hf := h.findLog hm
  cases hl : t.findLog m with
  | some l =>
    rw [enterLog_logged hl, enterLog_logged (hf.trans hl)]
    exact .ok h
  | none =>
    cases hb : m.bcastMarker? with
    | none =>
      rw [enterLog_plain hl hb, enterLog_plain (hf.trans hl) hb]
      exact .ok (h.enter hm hl ∅)
    | some marker =>
      have hgid : u.markerGid marker = t.markerGid marker := by rw [markerGid, h.channelMarkers, markerGid]
      cases hg : t.groups.find? (t.markerGid marker) with
      | none =>
        rw [enterLog_null hl hb hg, enterLog_null (hf.trans hl) hb (by rw [h.toMembership, hgid]; exact hg)]
        exact .error (.fault _)
      | some g =>
        have hg' : u.groups.find? (u.markerGid marker) = some g := by
          rw [h.toMembership, hgid]
          exact hg
        rw [enterLog_broadcast hl hb hg, enterLog_broadcast (hf.trans hl) hb hg']
        have hex : u.expected g = t.expected g := by
          rw [expected, h.toMembership]
          rfl
        rw [hex, h.channelMarkers]
        exact .ok ((h.enter hm hl (t.expected g)).markers _)

theorem logMessage_same (h : Alike old own me t u) {m : Message} (hm : old.find? (stampOf m) = none) (p : PeerRef) :
    Same old own me (t.logMessage m p) (u.logMessage m p) := by
  refine (enterLog_same h hm).bind fun a b hab => .ok ?_
  obtain ⟨L, rfl⟩ := hab.split
  by_cases hp : (a.peer p).isLocal
  · simp only [hp, if_true]
    exact hab
  · simp only [hp, Bool.false_eq_true, if_false]
    exact hab.ack _ _

/-! ### Sending -/

theorem broadcast_same (h : Alike old own me t u) (g : GroupRef) {m : Message} {b : Bool}
    (hm : b = false → old.find? (stampOf m) = none) : Same old own me (t.broadcast g m b) (u.broadcast g m b) := by
  obtain ⟨L, rfl⟩ := h.split
  cases b with
  | false => exact logMessage_same (h.record _) (hm rfl) t.localPeer
  | true => exact logMessage_same (h.now.record _) (h.makeStamp m.payload) t.localPeer

theorem send_same (h : Alike old own me t u) (payload : Payload) (p : PeerRef) :
    Same old own me (t.send payload p) (u.send payload p) := by
  obtain ⟨L, rfl⟩ := h.split
  exact logMessage_same (h.now.record _) (h.makeStamp payload) t.localPeer

theorem derefLocalGroup_same (h : Alike old own me t u) :
    Agree (StopAlike old own me) (fun a c => a = c ∧ t.localGroup = some a) t.derefLocalGroup u.derefLocalGroup := by
  obtain ⟨L, rfl⟩ := h.split
  cases hl : t.localGroup with
  | none =>
    simp only [derefLocalGroup, hl]
    exact .error (.fault _)
  | some g =>
    simp only [derefLocalGroup, hl]
    exact .ok ⟨rfl, rfl⟩

/-! ### Joining -/

theorem acknowledgeJoin_same (h : Alike old own me t u) (p : PeerRef) (g : GroupRef) :
    Same old own me (t.acknowledgeJoin p g) (u.acknowledgeJoin p g) := by
  obtain ⟨L, rfl⟩ := h.split
  have h' := h.membership (m := t.takeIn p g) (h.us.of_eq rfl rfl rfl)
  refine (derefLocalGroup_same h').bind ?_
  rintro l _ ⟨rfl, -⟩
  refine (send_same h' _ p).bind fun a b hab => .ok ?_
  obtain ⟨L', rfl⟩ := hab.split
  exact hab.membership (hab.us.of_eq rfl rfl rfl)

theorem answerJoinRequest_same (h : Alike old own me t u) (p : PeerRef) (port : Port) :
    Same old own me (t.answerJoinRequest p port) (u.answerJoinRequest p port) := by
  obtain ⟨L, rfl⟩ := h.split
  have h' := h.membership (m := { t.toMembership with joinToken := false }) (h.us.of_eq rfl rfl rfl)
  refine (derefLocalGroup_same h').bind ?_
  rintro l _ ⟨rfl, -⟩
  refine (broadcast_same h' l (by intro hc; cases hc)).bind fun a b hab => ?_
  obtain ⟨L', rfl⟩ := hab.split
  have hab' := hab.membership (m := { a.toMembership with newPeers := a.newPeers.erase (t.peer p).address })
    (hab.us.of_eq rfl rfl rfl)
  refine (acknowledgeJoin_same hab' p l).bind fun c d hcd => .ok ?_
  obtain ⟨L'', rfl⟩ := hcd.split
  exact hcd.membership (hcd.us.of_eq rfl rfl rfl)

omit [Platform] in
theorem firstKnown_logs (t : Network) (L : History) : ∀ l : List (Bytes × Option PeerRef × Port),
    { t with logs := L }.firstKnown l = t.firstKnown l := by
  intro l
  induction l with
  | nil => rfl
  | cons e l ih =>
    obtain ⟨k, q, port⟩ := e
    cases q with
    | none => rfl
    | some p => simp only [firstKnown, ih]

theorem checkForNewPeers_same (h : Alike old own me t u) : Same old own me t.checkForNewPeers u.checkForNewPeers := by
  obtain ⟨L, rfl⟩ := h.split
  have hf : Agree (StopAlike old own me) Eq (t.firstKnown t.newPeers.entries)
      ({ t with logs := L }.firstKnown t.newPeers.entries) := by
    rw [firstKnown_logs t L]
    cases hr : t.firstKnown t.newPeers.entries with
    | ok r => exact .ok rfl
    | error x =>
      cases x with
      | thrown s => exact absurd hr (firstKnown_quiet t _ s)
      | fault f => exact .error (.fault f)
      | running => exact .error .running
  refine hf.bind ?_
  rintro r _ rfl
  cases r with
  | none => exact .ok (h.membership (h.us.of_eq rfl rfl rfl))
  | some r => exact answerJoinRequest_same h r.1 r.2

theorem completeJoin_same (h : Alike old own me t u) (p : PeerRef) : Same old own me (t.completeJoin p) (u.completeJoin p) := by
  obtain ⟨L, rfl⟩ := h.split
  exact checkForNewPeers_same (h.membership ((h.us.setState p .connected).of_eq rfl rfl rfl))

theorem sendReady_same (h : Alike old own me t u) (p : PeerRef) : Same old own me (t.sendReady p) (u.sendReady p) := by
  refine (send_same h .ready p).bind fun a b hab => .ok ?_
  obtain ⟨L, rfl⟩ := hab.split
  exact hab.membership (hab.us.of_eq rfl rfl rfl)

theorem join_same (h : Alike old own me t u) (ip port : Bytes) (reached : Option Bytes) :
    Same old own me (t.join ip port reached) (u.join ip port reached) := by
  obtain ⟨L, rfl⟩ := h.split
  cases reached with
  | none => exact .ok h
  | some address =>
    exact send_same ((h.record _).membership (((h.us.newPeer address).setState t.localPeer .joining).addNewPeer _)) _ _

/-! ### Disconnecting -/

theorem searchGroups_same (p : PeerRef) : ∀ {rounds : Nat} {it : List (Bytes × GroupRef)} {t u : Network},
    Alike old own me t u → Same old own me (t.searchGroups p rounds it) (u.searchGroups p rounds it) := by
  intro rounds
  induction rounds with
  | zero => intro it t u _; exact .error .running
  | succ n ih =>
    intro it t u h
    obtain ⟨L, rfl⟩ := h.split
    cases it with
    | nil => exact .ok h
    | cons e it =>
      obtain ⟨k, g⟩ := e
      have h' := h.membership (m := (t.removePeer g p).2) (h.us.of_eq rfl rfl rfl)
      cases hr : (t.removePeer g p).1 with
      | true =>
        simp only [searchGroups, hr, if_true]
        exact .ok (h'.membership (h'.us.of_eq rfl rfl rfl))
      | false =>
        simp only [searchGroups, hr, Bool.false_eq_true, if_false]
        exact ih h'

theorem leaveGroups_same (h : Alike old own me t u) (p : PeerRef) (rounds : Nat) :
    Same old own me (t.leaveGroups p rounds) (u.leaveGroups p rounds) := by
  obtain ⟨L, rfl⟩ := h.split
  refine (derefLocalGroup_same h).bind ?_
  rintro l _ ⟨rfl, -⟩
  have h' := h.membership (m := (t.removePeer l p).2) (h.us.of_eq rfl rfl rfl)
  cases hr : (t.removePeer l p).1 with
  | true =>
    simp only [hr, if_true]
    have hfold : Us own me ((t.removePeer l p).2.groups.values.foldl
        (fun m g => (m.removePeer g p).2.updateNeighbours g) (t.removePeer l p).2) := by
      refine Us.foldl (fun m g hm => ?_) h'.us _
      exact hm.of_eq rfl rfl rfl
    exact .ok (h'.membership hfold)
  | false =>
    simp only [hr, Bool.false_eq_true, if_false]
    exact searchGroups_same p h'

theorem Alike.resetAlone (h : Alike old own me t u) : Alike old own me t.resetAlone u.resetAlone := by
  obtain ⟨L, rfl⟩ := h.split
  unfold Network.resetAlone
  split
  · have h' := h.membership (m := { t.toMembership with groups := ∅, localGroup := none }) (h.us.of_eq rfl rfl rfl)
    exact h'.membership (h'.us.setState _ .new)
  · exact h

theorem handleDisconnect_same (h : Alike old own me t u) (p : PeerRef) (rounds : Nat) :
    Same old own me (t.handleDisconnect p rounds) (u.handleDisconnect p rounds) := by
  obtain ⟨L, rfl⟩ := h.split
  unfold Network.handleDisconnect
  split
  · have h' := h.membership (m := { t.toMembership with peers := t.peers.erase (t.getId p) }) (h.us.of_eq rfl rfl rfl)
    exact (leaveGroups_same h' p rounds).bind fun a b hab => .ok hab.resetAlone
  · exact .ok (h.membership (m := { t.toMembership with newPeers := t.newPeers.erase (t.peer p).address })
      (h.us.of_eq rfl rfl rfl)).resetAlone

/-! ### Processing a message -/

theorem Alike.foundGroup (h : Alike old own me t u) : Alike old own me t.foundGroup u.foundGroup := by
  obtain ⟨L, rfl⟩ := h.split
  have h₁ := (h.membership (h.us.setState t.localPeer .connected)).now
  let id := makeHash ((t.setState t.localPeer .connected).getId t.localPeer ++ itos (t.clock 0))
  let g := t.groupCount
  have h₂ := h₁.membership (m := { (t.setState t.localPeer .connected).createGroup id with localGroup := some g })
    (h₁.us.of_eq rfl rfl rfl)
  have h₃ := h₂.markers (t.channelMarkers.insertNew
    (makeChannelMarker { t with toMembership := (t.setState t.localPeer .connected).createGroup id } g g) id)
  exact h₃.membership (m := { (t.setState t.localPeer .connected).createGroup id with localGroup := some g }.addToRings g
    t.localPeer) (h₃.us.of_eq rfl rfl rfl)

theorem processJoin_same (h : Alike old own me t u) {m : Message} (hm : old.find? (stampOf m) = none) {p : PeerRef}
    (hp : p ≠ me) (id pubK : Bytes) (port : Port) :
    Same old own me (t.processJoin m p id pubK port) (u.processJoin m p id pubK port) := by
  have h₁ : Alike old own me (if t.localState ≠ .connected then t.foundGroup else t)
      (if u.localState ≠ .connected then u.foundGroup else u) := by
    rw [show u.localState = t.localState by rw [h.toMembership]]
    split
    · exact h.foundGroup
    · exact h
  have greeted : ∀ {t u : Network}, Alike old own me t u → Same old own me
      (do let s ← { t with toMembership := (t.initPeer p id pubK).setState p .joining }.logMessage m p
          if s.joinToken then s.answerJoinRequest p port else pure { s with toMembership := s.pend p port })
      (do let s ← { u with toMembership := (u.initPeer p id pubK).setState p .joining }.logMessage m p
          if s.joinToken then s.answerJoinRequest p port else pure { s with toMembership := s.pend p port }) := by
    intro t u h
    obtain ⟨L, rfl⟩ := h.split
    refine (logMessage_same (h.membership ((h.us.initPeer hp id pubK).setState p .joining)) hm p).bind fun a b hab => ?_
    obtain ⟨L', rfl⟩ := hab.split
    split
    · exact answerJoinRequest_same hab p port
    · exact .ok (hab.membership (hab.us.of_eq rfl rfl rfl))
  exact greeted h₁

theorem processJoinNotif_same (h : Alike old own me t u) (channel : Bool) (groupId peerId pubK ip : Bytes) (port : Port)
    (reached : Option Bytes) : Same old own me (t.processJoinNotif channel groupId peerId pubK ip port reached)
      (u.processJoinNotif channel groupId peerId pubK ip port reached) := by
  obtain ⟨L, rfl⟩ := h.split
  unfold processJoinNotif
  cases hg : t.groups.find? groupId with
  | none =>
    simp only
    exact .ok h
  | some g =>
    simp only
    refine (derefLocalGroup_same h).bind ?_
    rintro l _ ⟨rfl, -⟩
    have h' := h.membership (m := { t.toMembership with joinToken := false }) (h.us.of_eq rfl rfl rfl)
    split
    · cases reached with
      | none => exact .error (.thrown h')
      | some address =>
        have hne : t.peerCount ≠ me := (Nat.ne_of_lt h.us.placed).symm
        exact acknowledgeJoin_same ((h'.record _).membership ((h'.us.newPeer address).enrol hne peerId pubK)) _ _
    · split
      · cases hp : t.peers.find? peerId with
        | none =>
          simp only
          exact .ok h
        | some q =>
          simp only
          refine .ok (h.membership ?_)
          refine Us.foldl (fun m g hm => ?_) h.us _
          split
          · exact hm.of_eq rfl rfl rfl
          · exact hm
      · exact .ok h

theorem hisGroup_same (h : Alike old own me t u) (groupId : Bytes) :
    (u.hisGroup groupId).1 = (t.hisGroup groupId).1 ∧ Alike old own me (t.hisGroup groupId).2 (u.hisGroup groupId).2 := by
  obtain ⟨L, rfl⟩ := h.split
  cases hg : t.groups.find? groupId with
  | some g =>
    simp only [hisGroup, hg]
    exact ⟨trivial, h⟩
  | none =>
    cases hl : t.localGroup with
    | none =>
      simp only [hisGroup, hg, Membership.createGroup, hl]
      exact ⟨trivial, rfl, h.logs, h.us.of_eq rfl rfl rfl, h.stamps⟩
    | some l =>
      simp only [hisGroup, hg, Membership.createGroup, hl]
      exact ⟨trivial, rfl, h.logs, h.us.of_eq rfl rfl rfl, h.stamps⟩

theorem processJoinAck_same (h : Alike old own me t u) {m : Message} (hm : old.find? (stampOf m) = none) {p : PeerRef}
    (hp : p ≠ me) (groupId peerId pubK : Bytes) :
    Same old own me (t.processJoinAck m p groupId peerId pubK) (u.processJoinAck m p groupId peerId pubK) := by
  obtain ⟨hg, h⟩ := hisGroup_same h groupId
  unfold processJoinAck
  simp only [hg]
  generalize (t.hisGroup groupId).2 = t at h
  generalize (u.hisGroup groupId).2 = u at h
  obtain ⟨L, rfl⟩ := h.split
  refine logMessage_same (h.membership ?_) hm p
  exact ((h.us.initPeer hp peerId pubK).setState p .connected).of_eq rfl rfl rfl

theorem readyGroup_same (h : Alike old own me t u) (g : GroupRef) : Same old own me (t.readyGroup g) (u.readyGroup g) := by
  obtain ⟨L, rfl⟩ := h.split
  refine (derefLocalGroup_same h).bind ?_
  rintro l _ ⟨rfl, -⟩
  have hus : Us own me (t.enterRings l g) := by
    unfold Membership.enterRings
    split
    · exact h.us.of_eq rfl rfl rfl
    · split
      · exact (h.us.setState t.localPeer .connected).of_eq rfl rfl rfl
      · exact h.us
  have h' := h.membership hus
  simp only
  split
  · exact logMessage_same (h'.now.record _) (h'.makeStamp .readyNotif) _
  · exact .ok h'

theorem processReady_same (h : Alike old own me t u) : Same old own me t.processReady u.processReady := by
  obtain ⟨L, rfl⟩ := h.split
  exact Agree.foldlM (fun b c g hbc => readyGroup_same hbc g) h

theorem process_same (h : Alike old own me t u) {m : Message} (hm : old.find? (stampOf m) = none) {p : PeerRef}
    (hp : p ≠ me) (reached : Option Bytes) : Same old own me (t.process m p reached) (u.process m p reached) := by
  unfold process
  cases m.payload with
  | join id pubK port => exact processJoin_same h hm hp id pubK port
  | joinNotif marker channel groupId peerId pubK ip port =>
    exact processJoinNotif_same h channel groupId peerId pubK ip port reached
  | joinAck groupId peerId pubK => exact processJoinAck_same h hm hp groupId peerId pubK
  | ready => exact processReady_same h
  | readyNotif =>
    obtain ⟨L, rfl⟩ := h.split
    exact checkForNewPeers_same (h.membership (h.us.setState p .connected))
  | data marker content =>
    obtain ⟨L, rfl⟩ := h.split
    exact .ok (h.record _)

theorem receive_same (h : Alike old own me t u) {m : Message} (hm : old.find? (stampOf m) = none) {p : PeerRef}
    (hp : p ≠ me) (reached : Option Bytes) : Same old own me (t.receive m p reached) (u.receive m p reached) := by
  have hlog : Same old own me (t.logKnown m p) (u.logKnown m p) := by
    obtain ⟨L, rfl⟩ := h.split
    unfold logKnown
    split
    · exact logMessage_same h hm p
    · exact .ok h
  refine hlog.bind fun a b hab => ?_
  have hforward : Same old own me (a.forward m) (b.forward m) := by
    obtain ⟨L, rfl⟩ := hab.split
    unfold forward
    cases m.bcastMarker? with
    | none => exact .ok hab
    | some marker =>
      cases hmk : a.channelMarkers.find? marker with
      | none =>
        simp only [hmk]
        exact .ok hab
      | some gid =>
        cases hg : a.groups.find? gid with
        | none =>
          simp only [hmk, hg]
          exact .error (.fault _)
        | some g =>
          simp only [hmk, hg]
          exact broadcast_same hab g fun _ => hm
  exact hforward.bind fun c d hcd => process_same hcd hm hp reached

theorem handleIncomingMessage_same (h : Alike old own me t u) {received : Bytes} {p : PeerRef} {reached : Option Bytes}
    (hu : Unseen old (.read p received reached)) (hp : p ≠ me) :
    Same old own me (t.handleIncomingMessage received p reached) (u.handleIncomingMessage received p reached) := by
  cases hm : parseMessage received with
  | error e =>
    simp only [handleIncomingMessage, hm]
    exact .ok (h.record _)
  | ok m =>
    have hnew : old.find? (stampOf m) = none := hu m (by rw [hm]; rfl)
    have hf := h.findLog hnew
    cases hl : t.findLog m with
    | some l =>
      have hid : u.getId p = t.getId p := by rw [h.toMembership]
      simp only [handleIncomingMessage, hm, hf, hl, hid]
      exact .ok (h.ack _ _)
    | none =>
      have hr := receive_same h hnew hp reached
      simp only [handleIncomingMessage, hm, hf, hl]
      generalize t.receive m p reached = x at hr
      generalize u.receive m p reached = y at hr
      cases hr with
      | ok h => exact .ok h
      | error h =>
        cases h with
        | thrown h => exact .ok (h.record _)
        | fault f => exact .error (.fault f)
        | running => exact .error .running

/-- An event that brings no old stamp has the same outcome, whatever the old log. -/
theorem handle_same (h : Alike old own me t u) (rounds : Nat) {e : Event} (hu : Unseen old e)
    (hp : ∀ p received reached, e = .read p received reached → p ≠ me) :
    Same old own me (handle rounds t e) (handle rounds u e) := by
  cases e with
  | accept address =>
    obtain ⟨L, rfl⟩ := h.split
    exact .ok (h.membership ((h.us.newPeer address).addNewPeer _))
  | read p received reached => exact handleIncomingMessage_same h hu (hp p received reached rfl)
  | eof p =>
    obtain ⟨L, rfl⟩ := h.split
    have hus : Us own me (t.stopListening p) := h.us.of_eq rfl rfl (Membership.stopListening_getId t.toMembership p)
    exact handleDisconnect_same (h.membership hus) p rounds
  | readError p =>
    obtain ⟨L, rfl⟩ := h.split
    have hus : Us own me (t.stopListening p) := h.us.of_eq rfl rfl (Membership.stopListening_getId t.toMembership p)
    exact .ok (h.membership hus)
  | readyTimer id =>
    obtain ⟨L, rfl⟩ := h.split
    cases ht : t.readyTimers.find? id with
    | none =>
      simp only [handle, ht]
      exact .ok h
    | some x =>
      simp only [handle, ht]
      have hus : Us own me { t.toMembership with readyTimers := t.readyTimers.insert id { x with armed := false } } :=
        h.us.of_eq rfl rfl rfl
      exact sendReady_same (h.membership hus) x.peer
  | joinTimer id =>
    obtain ⟨L, rfl⟩ := h.split
    cases ht : t.joinTimers.find? id with
    | none =>
      simp only [handle, ht]
      exact .ok h
    | some x =>
      simp only [handle, ht]
      have hus : Us own me { t.toMembership with joinTimers := t.joinTimers.insert id { x with armed := false } } :=
        h.us.of_eq rfl rfl rfl
      exact completeJoin_same (h.membership hus) x.peer
  | join ip port reached => exact join_same h ip port reached
  | broadcast content =>
    obtain ⟨L, rfl⟩ := h.split
    refine (derefLocalGroup_same h).bind ?_
    rintro l _ ⟨rfl, -⟩
    exact broadcast_same h l (by intro hc; cases hc)
  | sendAll message =>
    obtain ⟨L, rfl⟩ := h.split
    exact .ok (h.record _)

/-- Every sequence of events that brings no old stamp has the same outcome. -/
theorem respond_same (rounds : Nat) : ∀ {es : List Event} {t u : Network}, Alike old own me t u → Reachable u →
    (∀ e ∈ es, Unseen old e) → Same old own me (t.respond rounds es) (u.respond rounds es) := by
  intro es
  induction es with
  | nil => intro t u h _ _; exact .ok h
  | cons e es ih =>
    intro t u h hr hu
    have hen : u.Enabled e ↔ t.Enabled e := by
      obtain ⟨L, rfl⟩ := h.split
      cases e <;> exact Iff.rfl
    rw [respond, respond]
    by_cases he : u.Enabled e
    · rw [if_pos he, if_pos (hen.mp he)]
      have hp : ∀ p received reached, e = .read p received reached → p ≠ me := by
        rintro p received reached rfl rfl
        exact (hr.sound.listening p he).2 (by rw [h.toMembership, h.us.localPeer])
      have hstep := handle_same h rounds (hu e List.mem_cons_self) hp
      generalize handle rounds t e = x at hstep
      generalize hy : handle rounds u e = y at hstep
      cases hstep with
      | ok h' => exact ih h' (.step hr trivial ⟨he, rounds, hy⟩) fun e' he' => hu e' (List.mem_cons_of_mem _ he')
      | error h' => exact .error h'
    · rw [if_neg he, if_neg fun hc => he (hen.mpr hc)]
      exact .ok h

theorem Same.unlogged {x y : Except Stop Network} (h : Same old own me x y) : unloggedOutcome y = unloggedOutcome x := by
  have hu : ∀ {t u : Network}, Alike old own me t u → u.unlogged = t.unlogged := by
    intro t u h
    obtain ⟨L, rfl⟩ := h.split
    rfl
  cases h with
  | ok h => exact congrArg Except.ok (hu h)
  | error h =>
    cases h with
    | thrown h => exact congrArg (fun s => Except.error (Stop.thrown s)) (hu h)
    | fault f => rfl
    | running => rfl

/-- A node that is a new one but for its log answers as one. -/
theorem construct_answers {s : Network} (hs : Reachable s) (h : s.unlogged = s.construct) (rounds : Nat) {es : List Event}
    (hn : s.StampsNew s.logs) (hu : ∀ e ∈ es, Unseen s.logs e) :
    unloggedOutcome (s.respond rounds es) = unloggedOutcome (s.construct.respond rounds es) := by
  have halike : Alike s.logs (s.getId s.localPeer) s.localPeer s.construct s := by
    refine ⟨?_, fun stamp hs => hs, ⟨rfl, hs.sound.localPeer, ?_⟩, hn⟩
    · rw [← h]
      rfl
    · exact congrFun (Membership.setState_getId s.toMembership s.localPeer .new) s.localPeer
  exact Same.unlogged (respond_same rounds halike hs hu)

/-! ## The clean-up -/

omit [Platform] in
theorem setState_twice (m : Membership) (p : PeerRef) (st : PeerState) :
    (m.setState p st).setState p st = m.setState p st := by
  simp only [Membership.setState, Membership.modPeer, Function.update_self, Function.update_idem]

omit [Platform] in
theorem reset_alone {m : Membership} (hp : m.reset.peers = ∅) (hn : m.reset.newPeers = ∅) :
    m.reset = { m with groups := ∅, localGroup := none }.setState m.localPeer .new := by
  rw [Membership.reset, if_pos]
  by_contra hc
  rw [Membership.reset, if_neg hc] at hp hn
  exact hc ⟨by rw [hp]; rfl, by rw [hn]; rfl⟩

/-- The state of a node that has lost its last peer. -/
theorem reset_remove {m : Membership} (hs : m.Sound) {p : PeerRef} (hp : (m.remove p).reset.peers = ∅)
    (hn : (m.remove p).reset.newPeers = ∅) : (m.remove p).reset =
      { m with
        peers := ∅
        newPeers := ∅
        group := (m.remove p).group
        groups := ∅
        localGroup := none }.setState m.localPeer .new := by
  have hr := reset_alone hp hn
  rw [hr] at hp hn
  have hp : (m.remove p).peers = ∅ := hp
  have hn : (m.remove p).newPeers = ∅ := hn
  have hframe := Membership.remove_frame hs p
  rw [hp, hn] at hframe
  rw [hr, hframe]

/-- When the last peer disconnects, the node is as good as new exactly when the token is there,
    no timer is armed, and no marker has been entered. -/
theorem reset_complete_iff {s s' : Network} (hs : Reachable s) {p : PeerRef} {rounds : Nat} (he : s.Enabled (.eof p))
    (h : handle rounds s (.eof p) = .ok s') (hp : s'.peers = ∅) (hn : s'.newPeers = ∅) : s'.ResetComplete ↔
      s.joinToken = true ∧ s.channelMarkers = ∅ ∧ s.readyTimers = ∅ ∧ s.joinTimers = ∅ := by
  have hm : s'.toMembership = ((s.stopListening p).remove p).reset := handleDisconnect_membership h
  have hframe : s' = { s with toMembership := s'.toMembership } := by
    have hd := handleDisconnect_ok (s := { s with toMembership := s.stopListening p }) h
    rw [hd]
  have hsound : (s.stopListening p).Sound := hs.sound.stopListening (hs.sound.listening p he)
  have hm := hm.trans (reset_remove hsound (hm ▸ hp) (hm ▸ hn))
  rw [hm] at hframe
  constructor
  · intro hc
    have htoken := congrArg (fun s : Network => s.joinToken) hc.state
    have hmarkers := congrArg (fun s : Network => s.channelMarkers) hc.state
    have hready := congrArg (fun s : Network => s.readyTimers) hc.state
    have hjoin := congrArg (fun s : Network => s.joinTimers) hc.state
    rw [hframe] at htoken hmarkers hready hjoin
    exact ⟨htoken, hmarkers, hready, hjoin⟩
  · rintro ⟨htoken, hmarkers, hready, hjoin⟩
    have hstate : s'.unlogged = s'.construct := by
      have htwice : s'.toMembership.setState s'.localPeer .new = s'.toMembership := by
        rw [hm]
        exact setState_twice _ _ _
      rw [unlogged, construct, htwice, hframe]
      simp only [Membership.setState, Membership.modPeer, Membership.stopListening, htoken, hmarkers, hready, hjoin]
    refine ⟨hstate, fun rounds' es hnew hu => ?_⟩
    exact construct_answers (.step hs trivial ⟨he, rounds, h⟩) hstate rounds' hnew hu

omit [Platform] in
/-- The connection closes before our request is acknowledged. -/
theorem reset_complete_unanswered : ∃ s s' rounds, @Reachable sha1 s ∧ s.localState = .joining ∧
    @handle sha1 rounds s (.eof 1) = .ok s' ∧ @ResetComplete sha1 s' := by
  have hrun : @leadsTo sha1 (fun _ _ => True) _ node [.join [] [] (some [9])] (fun s =>
      decide (s.Enabled (.eof 1) ∧ s.localState = .joining ∧
        (s.joinToken = true ∧ s.channelMarkers = ∅ ∧ s.readyTimers = ∅ ∧ s.joinTimers = ∅) ∧
        (@handle sha1 1 s (.eof 1)).toOption.any (fun s' => decide (s'.peers = ∅ ∧ s'.newPeers = ∅)) = true)) = true := by
    decide +kernel
  obtain ⟨s, hs, ht⟩ := @reach_of_leadsTo sha1 _ _ _ _ _ _ _ _ hrun
  obtain ⟨he, hl, hc, hany⟩ := of_decide_eq_true ht
  obtain ⟨s', ⟨-, rounds, h⟩, ht'⟩ := @step_of_any sha1 _ _ _ he hany
  obtain ⟨hp, hn⟩ := of_decide_eq_true ht'
  exact ⟨s, s', rounds, hs, hl, h, (@reset_complete_iff sha1 s s' hs 1 rounds he h hp hn).mpr hc⟩

omit [Platform] in
/-- The only peer disconnects while his request is being answered: the token is not given back. -/
theorem reset_keeps_token : ¬ ∀ s s' p rounds, @Reachable sha1 s → s.Enabled (.eof p) →
    @handle sha1 rounds s (.eof p) = .ok s' → s'.peers = ∅ → s'.newPeers = ∅ → @ResetComplete sha1 s' := by
  intro hall
  have hrun : @leadsTo sha1 (fun _ _ => True) _ node [.accept [9], .read 1 (request 65) none] (fun s =>
      decide (s.Enabled (.eof 1) ∧ (@handle sha1 1 s (.eof 1)).toOption.any (fun s' =>
        decide (s'.peers = ∅ ∧ s'.newPeers = ∅ ∧ s'.joinToken = false)) = true)) = true := by
    decide +kernel
  obtain ⟨s, hs, ht⟩ := @reach_of_leadsTo sha1 _ _ _ _ _ _ _ _ hrun
  obtain ⟨he, hany⟩ := of_decide_eq_true ht
  obtain ⟨s', ⟨-, rounds, h⟩, ht'⟩ := @step_of_any sha1 _ _ _ he hany
  obtain ⟨hp, hn, htoken⟩ := of_decide_eq_true ht'
  have hstate := @ResetComplete.state sha1 _ (hall s s' 1 rounds hs he h hp hn)
  have ht := congrArg (fun s : Network => s.joinToken) hstate
  exact Bool.false_ne_true (htoken.symm.trans ht)

end Network

end RacKun
