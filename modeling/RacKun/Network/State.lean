/-
  RacKun.Network.State — what a node remembers (`include/Network.hpp`, `include/Peer.hpp`).

  `Membership` is who takes part: the `Peer` and `Group` objects, the maps that point to
  them, the join token and the timers. Objects live in two heaps (`peer`, `group`) and
  the maps hold references, because the program shares and mutates objects: one `init`
  changes a peer's ID wherever the peer is stored. `Network` adds the message log, the
  channel markers and what the node has done to the outside world so far.

  Simplifications. The local peer has no socket; it is never one of its own neighbours,
  so nothing is ever sent to it. `get_address` never fails. A timer that is erased or
  replaced before it expires is cancelled; one that has expired stays in its map, not
  armed, until it is erased.
-/

import RacKun.Group.Group
import RacKun.Wire.Message

namespace RacKun

open Lib (OrdMap)

inductive PeerState where
  | new
  | joining
  | connected
  deriving DecidableEq, Repr

structure Peer where
  id : Bytes
  pubIdKey : Bytes
  address : Bytes
  state : PeerState
  /-- An asynchronous read is pending on this peer's socket. -/
  listening : Bool
  isLocal : Bool
  deriving DecidableEq, Repr

def Peer.isKnown (p : Peer) : Bool := decide (p.state ≠ .new)

/-- `Peer::Peer` on a connected socket. -/
def Peer.remote (address : Bytes) : Peer := ⟨[], [], address, .new, false, false⟩

abbrev GroupRef := Nat

structure Timer where
  peer : PeerRef
  armed : Bool
  deriving DecidableEq, Repr

structure Membership where
  peer : PeerRef → Peer
  peerCount : Nat
  group : GroupRef → Group
  groupCount : Nat
  localPeer : PeerRef
  /-- All members except the local peer. -/
  peers : PeerMap
  groups : OrdMap Bytes GroupRef
  localGroup : Option GroupRef
  /-- By address: the pending peer and its listening port. -/
  newPeers : OrdMap Bytes (Option PeerRef × Port)
  joinToken : Bool
  readyTimers : OrdMap Bytes Timer
  joinTimers : OrdMap Bytes Timer

namespace Membership

def getId (m : Membership) (p : PeerRef) : Bytes := (m.peer p).id

/-- The state of the local peer. -/
def localState (m : Membership) : PeerState := (m.peer m.localPeer).state

def modPeer (m : Membership) (p : PeerRef) (f : Peer → Peer) : Membership :=
  { m with peer := Function.update m.peer p (f (m.peer p)) }

def modGroup (m : Membership) (g : GroupRef) (f : Group → Group) : Membership :=
  { m with group := Function.update m.group g (f (m.group g)) }

/-- `Peer::init`. -/
def initPeer (m : Membership) (p : PeerRef) (id pubK : Bytes) : Membership :=
  m.modPeer p fun x => { x with id := id, pubIdKey := pubK }

def setState (m : Membership) (p : PeerRef) (st : PeerState) : Membership := m.modPeer p fun x => { x with state := st }

/-- `start_listening`. -/
def startListening (m : Membership) (p : PeerRef) : Membership := m.modPeer p fun x => { x with listening := true }

def stopListening (m : Membership) (p : PeerRef) : Membership := m.modPeer p fun x => { x with listening := false }

/-- `new Peer(socket)`: the object is number `m.peerCount`. -/
def newPeer (m : Membership) (address : Bytes) : Membership :=
  { m with peer := Function.update m.peer m.peerCount (Peer.remote address), peerCount := m.peerCount + 1 }

def addNewPeer (m : Membership) (p : PeerRef) : Membership :=
  { m with newPeers := m.newPeers.insert (m.peer p).address (some p, 0) }.startListening p

/-- `create_group`: the object is number `m.groupCount`; an existing entry stays. -/
def createGroup (m : Membership) (id : Bytes) : Membership :=
  { m with
    group := Function.update m.group m.groupCount (Group.new id)
    groupCount := m.groupCount + 1
    groups := m.groups.insertNew id m.groupCount }

@[simp] theorem modPeer_self (m : Membership) (p : PeerRef) (f : Peer → Peer) :
    (m.modPeer p f).peer p = f (m.peer p) := Function.update_self ..

theorem modPeer_of_ne {m : Membership} {p q : PeerRef} (h : q ≠ p) (f : Peer → Peer) :
    (m.modPeer p f).peer q = m.peer q := Function.update_of_ne h ..

@[simp] theorem modGroup_self (m : Membership) (g : GroupRef) (f : Group → Group) :
    (m.modGroup g f).group g = f (m.group g) := Function.update_self ..

theorem modGroup_of_ne {m : Membership} {g g' : GroupRef} (h : g' ≠ g) (f : Group → Group) :
    (m.modGroup g f).group g' = m.group g' := Function.update_of_ne h ..

@[simp] theorem newPeer_self (m : Membership) (address : Bytes) :
    (m.newPeer address).peer m.peerCount = Peer.remote address := Function.update_self ..

theorem newPeer_of_ne {m : Membership} {q : PeerRef} (h : q ≠ m.peerCount) (address : Bytes) :
    (m.newPeer address).peer q = m.peer q := Function.update_of_ne h ..

@[simp] theorem createGroup_self (m : Membership) (id : Bytes) :
    (m.createGroup id).group m.groupCount = Group.new id := Function.update_self ..

theorem createGroup_of_ne {m : Membership} {g : GroupRef} (h : g ≠ m.groupCount) (id : Bytes) :
    (m.createGroup id).group g = m.group g := Function.update_of_ne h ..

variable [Platform]

def addToRings (m : Membership) (g : GroupRef) (p : PeerRef) : Membership := m.modGroup g (·.addToRings m.getId p)

def addPeer (m : Membership) (g : GroupRef) (p : PeerRef) : Membership := m.modGroup g (·.addPeer m.getId p)

def updateNeighbours (m : Membership) (g : GroupRef) : Membership :=
  m.modGroup g (·.updateNeighbours m.getId m.localPeer)

def removePeer (m : Membership) (g : GroupRef) (p : PeerRef) : Bool × Membership :=
  (((m.group g).removePeer m.getId p).1, m.modGroup g fun x => (x.removePeer m.getId p).2)

/-! The stages of the handlers that touch the membership only. -/

/-- JOIN Notification: the peer just reached is joining, and we listen to him. -/
def enrol (m : Membership) (p : PeerRef) (peerId pubK : Bytes) : Membership :=
  ((m.initPeer p peerId pubK).setState p .joining).startListening p

/-- `acknowledge_join`, first stage: the peer is added to our view and to the group. -/
def takeIn (m : Membership) (p : PeerRef) (g : GroupRef) : Membership :=
  ({ m with peers := m.peers.insert (m.getId p) p }.addPeer g p).updateNeighbours g

/-- Whether the peer is a direct predecessor or successor in the group. -/
def direct (m : Membership) (g : GroupRef) (p : PeerRef) : Bool :=
  (m.group g).predecessors.contains (m.getId p) || (m.group g).successors.contains (m.getId p)

/-- `acknowledge_join`, last stage: unless the peer is a direct neighbour, a timer. -/
def armJoinTimer (m : Membership) (p : PeerRef) (g : GroupRef) : Membership :=
  { m with joinTimers := if m.direct g p then m.joinTimers else m.joinTimers.insert (m.getId p) ⟨p, true⟩ }

def armReadyTimer (m : Membership) (p : PeerRef) : Membership :=
  { m with readyTimers := m.readyTimers.insert (m.getId p) ⟨p, true⟩ }

/-- READY, for one group: join the rings of a channel, or those of the local group if we
    are not connected yet. -/
def enterRings (m : Membership) (localGroup g : GroupRef) : Membership :=
  if (m.group g).id ≠ (m.group localGroup).id then (m.addToRings g m.localPeer).updateNeighbours g
  else if m.localState ≠ .connected then
    ((m.setState m.localPeer .connected).addToRings localGroup m.localPeer).updateNeighbours localGroup
  else m

/-- `new_peers[ emitter->get_address() ].second = port`: a missing entry is made, with a
    null peer. -/
def pend (m : Membership) (p : PeerRef) (port : Port) : Membership :=
  { m with
    newPeers := m.newPeers.insert (m.peer p).address (((m.newPeers.find? (m.peer p).address).map (·.1)).getD none, port) }

end Membership

/-! ## Logs -/

structure MessageLog where
  message : Bytes
  /-- By peer ID: the number of times this peer sent us this message. The program counts in
      an `int`, so this is its value up to 2^31 - 1. -/
  control : OrdMap Bytes Nat
  deriving DecidableEq

/-- What `operator<` compares. -/
def MessageLog.stamp (l : MessageLog) : Bytes := (l.message.drop 1).take MSG_STAMP_LENGTH

/-- `ack_message`: one more reception from this peer. -/
def MessageLog.ack (l : MessageLog) (id : Bytes) : MessageLog :=
  { l with control := l.control.insert id ((l.control.find? id).getD 0 + 1) }

/-- The log in order of reception, with one entry for each stamp. -/
structure History where
  entries : List MessageLog
  unique : (entries.map MessageLog.stamp).Nodup

namespace History

def empty : History := ⟨[], List.nodup_nil⟩

def find? (h : History) (stamp : Bytes) : Option MessageLog := h.entries.find? fun l => decide (l.stamp = stamp)

def insert (h : History) (l : MessageLog) : History :=
  if hn : l.stamp ∈ h.entries.map MessageLog.stamp then h
  else ⟨h.entries ++ [l], by
    rw [List.map_append, List.map_singleton]
    exact List.nodup_append.mpr ⟨h.unique, List.nodup_singleton _, fun a ha b hb => by
      rw [List.mem_singleton.mp hb]; exact fun e => hn (e ▸ ha)⟩⟩

/-- `h_logs.modify(it, ack_message(peer))`. -/
def ack (h : History) (stamp id : Bytes) : History where
  entries := h.entries.map fun l => if l.stamp = stamp then l.ack id else l
  unique := by
    have : (h.entries.map fun l => if l.stamp = stamp then l.ack id else l).map MessageLog.stamp =
        h.entries.map MessageLog.stamp := by
      rw [List.map_map]
      refine List.map_congr_left fun l _ => ?_
      simp only [Function.comp]
      split <;> rfl
    rw [this]
    exact h.unique

end History

/-! ## The node -/

/-- What a node does to the world outside. -/
inductive Effect where
  /-- `Peer::send`. -/
  | sent (peer : PeerRef) (msg : Bytes)
  /-- `connect_peer` reached this endpoint. -/
  | connected (peer : PeerRef) (ip port : Bytes)
  /-- A DATA message shown to the user, and whom it is said to come from. -/
  | displayed (emitter data : Bytes)
  /-- An exception reported with the bytes that caused it. -/
  | reported (msg : Bytes)
  deriving DecidableEq, Repr

structure Network extends Membership where
  channelMarkers : OrdMap Bytes Bytes
  logs : History
  /-- The readings of the clock still to come, in milliseconds since the epoch. -/
  clock : Nat → Nat
  /-- `settings.LISTEN_PORT`. -/
  listenPort : Port
  trace : List Effect

inductive Fault where
  /-- A group missing from `groups`, looked up through a channel marker. -/
  | nullGroup
  | nullLocalGroup
  /-- An entry of `new_peers` without a peer. -/
  | nullPeer
  deriving DecidableEq, Repr

/-- How a handler can end without returning. -/
inductive Stop where
  /-- A C++ exception; what was done before it stays done. -/
  | thrown (s : Network)
  /-- A null pointer is dereferenced. -/
  | fault (f : Fault)
  /-- A loop is still running after the given number of rounds. -/
  | running

end RacKun
