/-
  RacKun.Group.Ring — one ring of a group (`src/Ring.cpp`): the members in the order of
  a hash of their ID and the ring's index.

  A `shared_ptr<Peer>` is a `PeerRef`, the number of the object it points to. A ring
  stores references; what a peer's ID is at the time of a call (`get_id`) is the
  argument `getId`.
-/

import RacKun.Lib.Fallible
import RacKun.Wire.Bytes

namespace RacKun

open Lib (OrdMap)

abbrev PeerRef := Nat

/-- Associates a string (ID, hash, ...) with a peer. -/
abbrev PeerMap := OrdMap Bytes PeerRef

/-- `PeerNotFoundException`. -/
inductive PeerNotFound where
  | mk
  deriving DecidableEq, Repr

structure Ring where
  index : Nat
  ring : PeerMap
  deriving DecidableEq

namespace Ring

variable [Platform]

def new (index : Nat) : Ring := ⟨index, ∅⟩

/-- key format: hash( peer ID || ring index ) -/
def createKey (r : Ring) (id : Bytes) : Bytes := makeHash (id ++ itos r.index)

variable (getId : PeerRef → Bytes)

def addPeer (r : Ring) (p : PeerRef) : Ring := { r with ring := r.ring.insert (r.createKey (getId p)) p }

def removePeer (r : Ring) (p : PeerRef) : Ring := { r with ring := r.ring.erase (r.createKey (getId p)) }

/-- The peer indexed right after `p`; throws if `p` is not found, or is alone. -/
def getSuccessor (r : Ring) (p : PeerRef) : Except PeerNotFound PeerRef :=
  match r.ring.succ? (r.createKey (getId p)) with
  | some e => if 1 < r.ring.size then .ok e.2 else .error .mk
  | none => .error .mk

/-- The peer indexed right before `p`; throws if `p` is not found, or is alone. -/
def getPredecessor (r : Ring) (p : PeerRef) : Except PeerNotFound PeerRef :=
  match r.ring.pred? (r.createKey (getId p)) with
  | some e => if 1 < r.ring.size then .ok e.2 else .error .mk
  | none => .error .mk

@[simp] theorem addPeer_index (r : Ring) (p : PeerRef) : (r.addPeer getId p).index = r.index := rfl
@[simp] theorem removePeer_index (r : Ring) (p : PeerRef) : (r.removePeer getId p).index = r.index := rfl

variable {getId}

theorem getSuccessor_ok {r : Ring} {p q : PeerRef} : r.getSuccessor getId p = .ok q ↔
    1 < r.ring.size ∧ ∃ k, r.ring.succ? (r.createKey (getId p)) = some (k, q) := by
  unfold getSuccessor
  split
  · rename_i e he
    by_cases hs : 1 < r.ring.size
    · obtain ⟨k, q'⟩ := e
      simp [he, hs]
    · simp [hs]
  · rename_i he
    simp [he]

theorem getPredecessor_ok {r : Ring} {p q : PeerRef} : r.getPredecessor getId p = .ok q ↔
    1 < r.ring.size ∧ ∃ k, r.ring.pred? (r.createKey (getId p)) = some (k, q) := by
  unfold getPredecessor
  split
  · rename_i e he
    by_cases hs : 1 < r.ring.size
    · obtain ⟨k, q'⟩ := e
      simp [he, hs]
    · simp [hs]
  · rename_i he
    simp [he]

theorem getSuccessor_mem {r : Ring} {p q : PeerRef} (h : r.getSuccessor getId p = .ok q) : q ∈ r.ring.values := by
  obtain ⟨-, k, hk⟩ := getSuccessor_ok.mp h
  exact OrdMap.mem_values.mpr ⟨k, OrdMap.mem_entries.mp (OrdMap.succ_mem hk)⟩

theorem getPredecessor_mem {r : Ring} {p q : PeerRef} (h : r.getPredecessor getId p = .ok q) :
    q ∈ r.ring.values := by
  obtain ⟨-, k, hk⟩ := getPredecessor_ok.mp h
  exact OrdMap.mem_values.mpr ⟨k, OrdMap.mem_entries.mp (OrdMap.pred_mem hk)⟩

theorem getSuccessor_exists {r : Ring} {p : PeerRef} : (∃ q, r.getSuccessor getId p = .ok q) ↔
    1 < r.ring.size ∧ r.ring.find? (r.createKey (getId p)) ≠ none := by
  simp only [getSuccessor_ok, exists_and_left]
  refine and_congr_right fun _ => ?_
  rw [← not_iff_not, ne_eq, not_not, ← OrdMap.succ_none_iff, Option.eq_none_iff_forall_not_mem]
  exact ⟨fun h e he => h ⟨e.2, e.1, he⟩, fun h ⟨q, k, hk⟩ => h (k, q) hk⟩

theorem getPredecessor_exists {r : Ring} {p : PeerRef} : (∃ q, r.getPredecessor getId p = .ok q) ↔
    1 < r.ring.size ∧ r.ring.find? (r.createKey (getId p)) ≠ none := by
  simp only [getPredecessor_ok, exists_and_left]
  refine and_congr_right fun _ => ?_
  rw [← not_iff_not, ne_eq, not_not, ← OrdMap.pred_none_iff, Option.eq_none_iff_forall_not_mem]
  exact ⟨fun h e he => h ⟨e.2, e.1, he⟩, fun h ⟨q, k, hk⟩ => h (k, q) hk⟩

end Ring

end RacKun
