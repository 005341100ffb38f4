/-
  RacKun.Network.Handlers — the message, timer and connection handlers of a node
  (`src/Network.cpp`), each a function from the node's state to its next state.

  A null pointer dereferenced is `Stop.fault`, a C++ exception `Stop.thrown`; the `try`
  of `handle_incoming_message` turns the second into a report. `connect_peer` is given
  its outcome: the address it reached, or none when it throws.

  The search of `handle_disconnect` never moves its iterator: `searchGroups` is that
  loop as it stands, cut off after a number of rounds (`Stop.running`).
-/

import RacKun.Lib.Fallible
import RacKun.Network.State

namespace RacKun

open Lib (OrdMap)

namespace Network

variable [Platform]

/-! ## Small steps -/

def record (s : Network) (es : List Effect) : Network := { s with trace := s.trace ++ es }

/-- `local_group->...`. -/
def derefLocalGroup (s : Network) : Except Stop GroupRef :=
  match s.localGroup with
  | some g => .ok g
  | none => .error (.fault .nullLocalGroup)

/-- `milliseconds_since_epoch()`. -/
def now (s : Network) : Nat × Network := (s.clock 0, { s with clock := fun k => s.clock (k + 1) })

/-- `message->make_stamp( local_peer->get_id() )`. -/
def makeStamp (s : Network) (payload : Payload) : Message × Network :=
  let (t, s) := s.now
  (Message.makeStamp payload (s.getId s.localPeer) t, s)

/-- put "lowest" ID first as a convention -/
def makeChannelMarker (s : Network) (g₁ g₂ : GroupRef) : Bytes :=
  let id₁ := (s.group g₁).id
  let id₂ := (s.group g₂).id
  if id₁ < id₂ then makeHash (id₁ ++ id₂) else makeHash (id₂ ++ id₁)

/-! ## Logging and sending -/

def stampOf (m : Message) : Bytes := (m.serialize.drop 1).take MSG_STAMP_LENGTH

def findLog (s : Network) (m : Message) : Option MessageLog := s.logs.find? (stampOf m)

/-- `groups[ channel_markers[marker] ]->`: an unknown marker is entered with an empty
    group ID; a missing group is dereferenced as null. -/
def markerGroup (s : Network) (marker : Bytes) : Except Stop (GroupRef × Network) :=
  let s := { s with channelMarkers := s.channelMarkers.insertNew marker [] }
  match s.groups.find? ((s.channelMarkers.find? marker).getD []) with
  | some g => .ok (g, s)
  | none => .error (.fault .nullGroup)

/-- The peers we expect to receive the message from, with no reception yet. -/
def expected (s : Network) (g : GroupRef) : OrdMap Bytes Nat :=
  (s.group g).predecessors.values.foldl (fun control p => control.insert (s.getId p) 0) ∅

/-- The first time we meet the message, its entry is built. -/
def enterLog (s : Network) (m : Message) : Except Stop Network :=
  match s.findLog m with
  | some _ => .ok s
  | none =>
    match m.bcastMarker? with
    | some marker =>
      match s.markerGroup marker with
      | .ok (g, s) => .ok { s with logs := s.logs.insert ⟨m.serialize, s.expected g⟩ }
      | .error e => .error e
    | none => .ok { s with logs := s.logs.insert ⟨m.serialize, ∅⟩ }

/-- Only a reception is acknowledged, not an emission of our own. -/
def logMessage (s : Network) (m : Message) (emitter : PeerRef) : Except Stop Network := do
  let s ← s.enterLog m
  pure (if (s.peer emitter).isLocal then s else { s with logs := s.logs.ack (stampOf m) (s.getId emitter) })

/-- Send to the successors of the group, then log. -/
def broadcast (s : Network) (g : GroupRef) (m : Message) (addStamp : Bool) : Except Stop Network :=
  let (m, s) := if addStamp then s.makeStamp m.payload else (m, s)
  (s.record ((s.group g).successors.values.map (.sent · m.serialize))).logMessage m s.localPeer

/-- A message of our own: stamped, sent, logged. -/
theorem broadcast_stamped (s : Network) (g : GroupRef) (m : Message) :
    s.broadcast g m true = ((s.makeStamp m.payload).2.record ((s.group g).successors.values.map
      (.sent · (s.makeStamp m.payload).1.serialize))).logMessage (s.makeStamp m.payload).1 s.localPeer := rfl

theorem broadcast_relayed (s : Network) (g : GroupRef) (m : Message) :
    s.broadcast g m false =
      (s.record ((s.group g).successors.values.map (.sent · m.serialize))).logMessage m s.localPeer := rfl

def broadcastData (s : Network) (content : Bytes) : Except Stop Network := do
  let g ← s.derefLocalGroup
  s.broadcast g ⟨[], .data (s.makeChannelMarker g g) content⟩ true

def sendAll (s : Network) (message : Bytes) : Network := s.record (s.peers.values.map (.sent · message))

def send (s : Network) (payload : Payload) (p : PeerRef) : Except Stop Network :=
  let (m, s) := s.makeStamp payload
  (s.record [.sent p m.serialize]).logMessage m s.localPeer

theorem send_eq (s : Network) (payload : Payload) (p : PeerRef) :
    s.send payload p = ((s.makeStamp payload).2.record [.sent p (s.makeStamp payload).1.serialize]).logMessage
      (s.makeStamp payload).1 s.localPeer := rfl

/-! ## Joining -/

def connectPeer (s : Network) (ip port : Bytes) (reached : Option Bytes) : Except Stop (PeerRef × Network) :=
  match reached with
  | some address =>
    .ok (s.peerCount, { s with toMembership := s.newPeer address }.record [.connected s.peerCount ip port])
  | none => .error (.thrown s)

/-- Called by the UI; a failed connection is only reported to the debug output. -/
def join (s : Network) (entryIp entryPort : Bytes) (reached : Option Bytes) : Except Stop Network :=
  match s.connectPeer entryIp entryPort reached with
  | .error (.thrown s) => pure s
  | .error e => throw e
  | .ok (entry, s) =>
    let s := { s with toMembership := (s.setState s.localPeer .joining).addNewPeer entry }
    s.send (.join (s.getId s.localPeer) (s.peer s.localPeer).pubIdKey s.listenPort) entry

def acknowledgeJoin (s : Network) (p : PeerRef) (g : GroupRef) : Except Stop Network := do
  let s := { s with toMembership := s.takeIn p g }
  let localGroup ← s.derefLocalGroup
  let s ← s.send (.joinAck (s.group localGroup).id (s.getId s.localPeer) (s.peer s.localPeer).pubIdKey) p
  pure { s with toMembership := s.armJoinTimer p g }

def answerJoinRequest (s : Network) (p : PeerRef) (port : Port) : Except Stop Network := do
  let s := { s with joinToken := false }
  let group ← s.derefLocalGroup
  let x := s.peer p
  let s ← s.broadcast group ⟨[], .joinNotif (s.makeChannelMarker group group) false (s.group group).id x.id x.pubIdKey
    x.address port⟩ true
  let s := { s with newPeers := s.newPeers.erase x.address }
  -- the group is the local group, so the peer is acknowledged right away
  let s ← s.acknowledgeJoin p group
  pure { s with toMembership := s.armReadyTimer p }

/-- The first pending peer that is known, in the order of addresses. -/
def firstKnown (s : Network) : List (Bytes × Option PeerRef × Port) → Except Stop (Option (PeerRef × Port))
  | [] => .ok none
  | (_, none, _) :: _ => .error (.fault .nullPeer)
  | (_, some p, port) :: rest => if (s.peer p).isKnown then .ok (some (p, port)) else s.firstKnown rest

def checkForNewPeers (s : Network) : Except Stop Network := do
  match (← s.firstKnown s.newPeers.entries) with
  | some (p, port) => s.answerJoinRequest p port
  | none => pure { s with joinToken := true }

/-- Handler of the join timer. -/
def completeJoin (s : Network) (p : PeerRef) : Except Stop Network :=
  let s := { s with toMembership := s.setState p .connected }
  let s := { s with joinTimers := s.joinTimers.erase (s.getId p) }
  s.checkForNewPeers

/-- Handler of the ready timer. -/
def sendReady (s : Network) (p : PeerRef) : Except Stop Network := do
  let s ← s.send .ready p
  pure { s with readyTimers := s.readyTimers.erase (s.getId p) }

/-! ## Disconnecting -/

/-- The loop over the groups of a peer that is not in ours. `it` is not advanced. -/
def searchGroups (s : Network) (p : PeerRef) : Nat → List (Bytes × GroupRef) → Except Stop Network
  | 0, _ => .error .running
  | _ + 1, [] => .ok s
  | rounds + 1, it@((_, g) :: _) =>
    let (removed, m) := s.removePeer g p
    let s := { s with toMembership := m }
    if removed then .ok { s with toMembership := s.updateNeighbours g }
    else s.searchGroups p rounds it

/-- A registered peer leaves its group: ours, then all our channels are updated; or
    another, which is searched for. -/
def leaveGroups (s : Network) (p : PeerRef) (rounds : Nat) : Except Stop Network := do
  let localGroup ← s.derefLocalGroup
  let (removed, m) := s.removePeer localGroup p
  let s := { s with toMembership := m }
  if removed then
    pure { s with toMembership := s.groups.values.foldl (fun m g => (m.removePeer g p).2.updateNeighbours g) m }
  else s.searchGroups p rounds s.groups.entries

/-- If we are alone, set ourselves as NEW again. -/
def resetAlone (s : Network) : Network :=
  if s.peers.size = 0 ∧ s.newPeers.size = 0 then
    let s := { s with groups := ∅, localGroup := none }
    { s with toMembership := s.setState s.localPeer .new }
  else s

def handleDisconnect (s : Network) (p : PeerRef) (rounds : Nat) : Except Stop Network :=
  if s.peers.contains (s.getId p) then do
    let s ← { s with peers := s.peers.erase (s.getId p) }.leaveGroups p rounds
    pure s.resetAlone
  else pure { s with newPeers := s.newPeers.erase (s.peer p).address }.resetAlone

/-! ## Processing a message -/

/-- We have been alone so far: create a group and pose as a functional network. -/
def foundGroup (s : Network) : Network :=
  let s := { s with toMembership := s.setState s.localPeer .connected }
  let (t, s) := s.now
  let id := makeHash (s.getId s.localPeer ++ itos t)
  let g := s.groupCount
  let s := { s with toMembership := { s.createGroup id with localGroup := some g } }
  let s := { s with channelMarkers := s.channelMarkers.insertNew (s.makeChannelMarker g g) id }
  { s with toMembership := s.addToRings g s.localPeer }

def processJoin (s : Network) (m : Message) (emitter : PeerRef) (id pubK : Bytes) (port : Port) : Except Stop Network := do
  let s := if s.localState ≠ .connected then s.foundGroup else s
  let s := { s with toMembership := (s.initPeer emitter id pubK).setState emitter .joining }
  let s ← s.logMessage m emitter
  if s.joinToken then s.answerJoinRequest emitter port
  else pure { s with toMembership := s.pend emitter port }

def processJoinNotif (s : Network) (channel : Bool) (groupId peerId pubK ip : Bytes) (port : Port)
    (reached : Option Bytes) : Except Stop Network := do
  match s.groups.find? groupId with
  | none => pure s
  | some group =>
    let localGroup ← s.derefLocalGroup
    if (decide (groupId = (s.group localGroup).id)) ^^ channel then
      let s := { s with joinToken := false }
      let (p, s) ← s.connectPeer ip (itos port.val) reached
      let s := { s with toMembership := s.enrol p peerId pubK }
      s.acknowledgeJoin p group
    else if channel then
      match s.peers.find? peerId with
      | none => pure s
      | some p =>
        pure { s with toMembership := s.groups.values.foldl (fun m g =>
          if (m.group g).id ≠ (m.group localGroup).id then (m.addToRings g p).updateNeighbours g else m) s.toMembership }
    else pure s

/-- The group an acknowledgement names; the first time, it is created and gets the
    members of our group in its channel rings. -/
def hisGroup (s : Network) (groupId : Bytes) : GroupRef × Network :=
  match s.groups.find? groupId with
  | some g => (g, s)
  | none =>
    let g := s.groupCount
    let s := { s with toMembership := s.createGroup groupId }
    let (localGroup, s) := match s.localGroup with
      | none => (g, { s with localGroup := some g })
      | some l => (l, { s with toMembership := s.modGroup g fun x => x.addGroupToRings s.getId (s.group l) })
    (g, { s with channelMarkers := s.channelMarkers.insertNew (s.makeChannelMarker localGroup g) groupId })

def processJoinAck (s : Network) (m : Message) (emitter : PeerRef) (groupId peerId pubK : Bytes) :
    Except Stop Network := do
  let (g, s) := s.hisGroup groupId
  let s := { s with toMembership := (s.initPeer emitter peerId pubK).setState emitter .connected }
  let s := { s with newPeers := s.newPeers.erase (s.peer emitter).address, peers := s.peers.insert peerId emitter }
  let s := { s with toMembership := s.addPeer g emitter }
  s.logMessage m emitter

/-- A READY Notification to our direct predecessors and successors. -/
def notifyDirects (s : Network) (g : GroupRef) : Except Stop Network :=
  let (notif, s) := s.makeStamp .readyNotif
  let directs := (s.group g).predecessors.union (s.group g).successors
  (s.record (directs.values.map (.sent · notif.serialize))).logMessage notif s.localPeer

/-- One round of the loop of READY. -/
def readyGroup (s : Network) (g : GroupRef) : Except Stop Network := do
  let localGroup ← s.derefLocalGroup
  -- only send notifications to the local group if we are not connected
  let notify := decide ((s.group g).id ≠ (s.group localGroup).id ∨ s.localState ≠ .connected)
  let s := { s with toMembership := s.enterRings localGroup g }
  if notify then s.notifyDirects g else pure s

def processReady (s : Network) : Except Stop Network := s.groups.values.foldlM readyGroup s

def processReadyNotif (s : Network) (emitter : PeerRef) : Except Stop Network :=
  { s with toMembership := s.setState emitter .connected }.checkForNewPeers

def processData (s : Network) (emitter : PeerRef) (content : Bytes) : Network :=
  let x := s.peer emitter
  s.record [.displayed (if x.isKnown then x.id else ascii "@" ++ x.address) content]

/-- The switch on the type. -/
def process (s : Network) (m : Message) (emitter : PeerRef) (reached : Option Bytes) : Except Stop Network :=
  match m.payload with
  | .join id pubK port => s.processJoin m emitter id pubK port
  | .joinNotif _ channel groupId peerId pubK ip port => s.processJoinNotif channel groupId peerId pubK ip port reached
  | .joinAck groupId peerId pubK => s.processJoinAck m emitter groupId peerId pubK
  | .ready => s.processReady
  | .readyNotif => s.processReadyNotif emitter
  | .data _ content => pure (s.processData emitter content)

def logKnown (s : Network) (m : Message) (emitter : PeerRef) : Except Stop Network :=
  if (s.peer emitter).isKnown then s.logMessage m emitter else pure s

/-- Use the broadcast marker to figure out in which rings the message belongs. -/
def forward (s : Network) (m : Message) : Except Stop Network :=
  match m.bcastMarker? with
  | none => pure s
  | some marker =>
    match s.channelMarkers.find? marker with
    | none => pure s
    | some gid =>
      match s.groups.find? gid with
      | none => throw (.fault .nullGroup)
      | some g => s.broadcast g m false

/-- What happens to a new message: log it, relay it, process it. -/
def receive (s : Network) (m : Message) (emitter : PeerRef) (reached : Option Bytes) : Except Stop Network := do
  let s ← s.logKnown m emitter
  let s ← s.forward m
  s.process m emitter reached

/-- `handle_incoming_message` on a read without error. -/
def handleIncomingMessage (s : Network) (received : Bytes) (emitter : PeerRef) (reached : Option Bytes) :
    Except Stop Network :=
  match parseMessage received with
  | .error _ => pure (s.record [.reported received])
  | .ok m =>
    match s.findLog m with
    | some _ => pure { s with logs := s.logs.ack (stampOf m) (s.getId emitter) }
    | none =>
      match s.receive m emitter reached with
      | .error (.thrown s) => pure (s.record [.reported received])
      | r => r

end Network

end RacKun
