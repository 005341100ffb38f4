/-
  RacKun.Network.Run — the life of a node: the events the I/O service, the timers and
  the user interface deliver, one at a time, from start-up on.

  An event is possible (`Enabled`) when the object it comes from is waiting for it: a
  peer that is being listened to, a timer that is armed, a user interface that lets the
  command through (`src/Main.cpp`). `Reach allowed` are the states of the runs whose
  steps all satisfy `allowed`; `Reachable` are the states of all runs.
-/

import RacKun.Network.Handlers

namespace RacKun

inductive Event where
  /-- `Listener::handle_accept`: a connection from this address. -/
  | accept (address : Bytes)
  /-- A read of these bytes; `reached` is the outcome of `connect_peer`, if called. -/
  | read (p : PeerRef) (received : Bytes) (reached : Option Bytes)
  | eof (p : PeerRef)
  /-- Any other error on a read. -/
  | readError (p : PeerRef)
  | readyTimer (id : Bytes)
  | joinTimer (id : Bytes)
  | join (ip port : Bytes) (reached : Option Bytes)
  | broadcast (content : Bytes)
  | sendAll (message : Bytes)
  deriving DecidableEq, Repr

namespace Network

/-- `Network::Network` with the local peer of `create_local_peer`. -/
def start (id pubK : Bytes) (listenPort : Port) (clock : Nat → Nat) : Network where
  peer _ := ⟨id, pubK, ascii "localhost", .new, false, true⟩
  peerCount := 1
  group _ := Group.new []
  groupCount := 0
  localPeer := 0
  peers := ∅
  groups := ∅
  localGroup := none
  newPeers := ∅
  joinToken := true
  readyTimers := ∅
  joinTimers := ∅
  channelMarkers := ∅
  logs := History.empty
  clock := clock
  listenPort := listenPort
  trace := []

def Enabled (s : Network) : Event → Prop
  | .accept _ => True
  | .read p _ _ => (s.peer p).listening = true
  | .eof p => (s.peer p).listening = true
  | .readError p => (s.peer p).listening = true
  | .readyTimer id => ((s.readyTimers.find? id).map Timer.armed) = some true
  | .joinTimer id => ((s.joinTimers.find? id).map Timer.armed) = some true
  | .join .. => s.localState = .new
  | .broadcast _ => s.localState = .connected
  | .sendAll _ => True

instance (s : Network) (e : Event) : Decidable (s.Enabled e) := by
  cases e <;> simp only [Enabled] <;> infer_instance

/-- What was done between two states. -/
def effects (s s' : Network) : List Effect := s'.trace.drop s.trace.length

theorem effects_append {s s' : Network} {es : List Effect} (h : s'.trace = s.trace ++ es) : s.effects s' = es := by
  rw [effects, h, List.drop_left]

variable [Platform]

/-- The handler of an event. `rounds` cuts off the loop of `handle_disconnect`. -/
def handle (rounds : Nat) (s : Network) : Event → Except Stop Network
  | .accept address => pure { s with toMembership := (s.newPeer address).addNewPeer s.peerCount }
  | .read p received reached => s.handleIncomingMessage received p reached
  | .eof p => { s with toMembership := s.stopListening p }.handleDisconnect p rounds
  | .readError p => pure { s with toMembership := s.stopListening p }
  | .readyTimer id =>
    match s.readyTimers.find? id with
    | some t => { s with readyTimers := s.readyTimers.insert id { t with armed := false } }.sendReady t.peer
    | none => pure s
  | .joinTimer id =>
    match s.joinTimers.find? id with
    | some t => { s with joinTimers := s.joinTimers.insert id { t with armed := false } }.completeJoin t.peer
    | none => pure s
  | .join ip port reached => s.join ip port reached
  | .broadcast content => s.broadcastData content
  | .sendAll message => pure (s.sendAll message)

/-- One event, handled to the end. -/
def Step (s : Network) (e : Event) (s' : Network) : Prop := s.Enabled e ∧ ∃ rounds, handle rounds s e = .ok s'

inductive Reach (allowed : Network → Event → Prop) : Network → Prop
  | start (id pubK : Bytes) (listenPort : Port) (clock : Nat → Nat) : Reach allowed (start id pubK listenPort clock)
  | step {s s' : Network} {e : Event} : Reach allowed s → allowed s e → Step s e s' → Reach allowed s'

def Reachable (s : Network) : Prop := Reach (fun _ _ => True) s

theorem Reach.reachable {allowed : Network → Event → Prop} {s : Network} (h : Reach allowed s) : Reachable s := by
  induction h with
  | start id pubK port clock => exact .start id pubK port clock
  | step _ _ hs ih => exact .step ih trivial hs

/-- The events of a list, one after the other, each possible and allowed when it comes. -/
def run (allowed : Network → Event → Prop) [∀ s e, Decidable (allowed s e)] (s : Network) :
    List Event → Except Stop Network
  | [] => .ok s
  | e :: es => if s.Enabled e ∧ allowed s e then do (← handle 1 s e).run allowed es else .error .running

/-- The events lead to a state that passes the test. -/
def leadsTo (allowed : Network → Event → Prop) [∀ s e, Decidable (allowed s e)] (s : Network) (es : List Event)
    (test : Network → Bool) : Bool :=
  match s.run allowed es with
  | .ok s' => test s'
  | .error _ => false

/-- The event leads to a state that passes the test. -/
theorem step_of_any {s : Network} {e : Event} {test : Network → Bool} (he : s.Enabled e)
    (h : (handle 1 s e).toOption.any test = true) : ∃ s', Step s e s' ∧ test s' = true := by
  cases hh : handle 1 s e with
  | error x => rw [hh] at h; cases h
  | ok s' =>
    rw [hh] at h
    exact ⟨s', ⟨he, 1, hh⟩, h⟩

variable {allowed : Network → Event → Prop} [∀ s e, Decidable (allowed s e)]

theorem reach_run : ∀ {es : List Event} {s s' : Network}, Reach allowed s → s.run allowed es = .ok s' →
    Reach allowed s' := by
  intro es
  induction es with
  | nil => intro s s' hs h; cases h; exact hs
  | cons e es ih =>
    intro s s' hs h
    rw [run] at h
    split at h
    · rename_i he
      obtain ⟨t, ht, h⟩ := Lib.bind_ok.mp h
      exact ih (.step hs he.2 ⟨he.1, 1, ht⟩) h
    · cases h

theorem reach_of_leadsTo {id pubK : Bytes} {port : Port} {clock : Nat → Nat} {es : List Event}
    {test : Network → Bool} (h : (start id pubK port clock).leadsTo allowed es test = true) :
    ∃ s, Reach allowed s ∧ test s = true := by
  unfold leadsTo at h
  split at h
  · rename_i s hs
    exact ⟨s, reach_run (.start id pubK port clock) hs, h⟩
  · cases h

end Network

/-! ## Scenarios -/

namespace Scenario

/-- A node whose peers have IDs and stamps made of one byte, repeated. -/
def node : Network := Network.start (List.replicate 20 0) [] 7 fun t => t

def idOf (c : Byte) : Bytes := List.replicate 20 c

def msg (stamp : Byte) (payload : Payload) : Bytes := Message.serialize ⟨List.replicate 20 stamp, payload⟩

def request (c : Byte) : Bytes := msg c (.join (idOf c) (List.replicate 5 c) 7)

/-- A member of the group with ID 200 acknowledges us. -/
def ack (c : Byte) : Bytes := msg c (.joinAck (idOf 200) (idOf c) (List.replicate 5 c))

end Scenario

end RacKun
