/-
  RacKun.Group.Group — a group (`src/Group.cpp`): its members, its `RINGS_NB` rings and
  the local peer's neighbours, cached by `update_neighbours`.

  That the rings are numbered 0 to `RINGS_NB` - 1 is a field of the structure: no
  operation can lose, add or renumber a ring.
-/

import RacKun.Group.Ring

namespace RacKun

open Lib (OrdMap)

structure Group where
  id : Bytes
  peers : PeerMap
  predecessors : PeerMap
  successors : PeerMap
  rings : List Ring
  shape : rings.map Ring.index = List.range RINGS_NB

namespace Group

/-- `Group::Group`. -/
def new (id : Bytes) : Group where
  id := id
  peers := ∅
  predecessors := ∅
  successors := ∅
  rings := (List.range RINGS_NB).map Ring.new
  shape := by rw [List.map_map]; exact List.map_id' _

variable [Platform] (getId : PeerRef → Bytes)

/-- `add_to_rings(peer)`. -/
def addToRings (g : Group) (p : PeerRef) : Group :=
  { g with
    rings := g.rings.map (·.addPeer getId p)
    shape := by rw [List.map_map]; exact g.shape }

def addPeer (g : Group) (p : PeerRef) : Group :=
  addToRings getId { g with peers := g.peers.insertNew (getId p) p } p

/-- `add_to_rings(other_group)`: ring by ring, all its members. -/
def addGroupToRings (g : Group) (other : Group) : Group :=
  { g with
    rings := g.rings.map fun r => other.peers.values.foldl (fun r p => r.addPeer getId p) r
    shape := by
      have h : ∀ (l : List PeerRef) (r : Ring), (l.foldl (fun r p => r.addPeer getId p) r).index = r.index := by
        intro l
        induction l with
        | nil => intro r; rfl
        | cons p l ih => intro r; rw [List.foldl_cons, ih]; rfl
      rw [List.map_map, ← g.shape]
      exact List.map_congr_left fun r _ => h _ r }

/-- Whether the peer was a member, and the group without it. -/
def removePeer (g : Group) (p : PeerRef) : Bool × Group :=
  (g.peers.contains (getId p),
    { g with
      rings := g.rings.map (·.removePeer getId p)
      peers := g.peers.erase (getId p)
      shape := by rw [List.map_map]; exact g.shape })

/-- One round of `update_neighbours`: the predecessor and the successor in one ring. -/
def neighboursRound (localPeer : PeerRef) (acc : PeerMap × PeerMap) (r : Ring) :
    Except PeerNotFound (PeerMap × PeerMap) := do
  let p ← r.getPredecessor getId localPeer
  let preds := acc.1.insertNew (getId p) p
  let p ← r.getSuccessor getId localPeer
  let succs := acc.2.insertNew (getId p) p
  pure (preds, succs)

/-- The loop of `update_neighbours`. -/
def neighbours (g : Group) (localPeer : PeerRef) : Except PeerNotFound (PeerMap × PeerMap) :=
  g.rings.foldlM (neighboursRound getId localPeer) (∅, ∅)

/-- `update_neighbours`: both maps are cleared when the local peer is missing from a
    ring, or alone there. -/
def updateNeighbours (g : Group) (localPeer : PeerRef) : Group :=
  match g.neighbours getId localPeer with
  | .ok (preds, succs) => { g with predecessors := preds, successors := succs }
  | .error _ => { g with predecessors := ∅, successors := ∅ }

/-! What the handlers do to a group: change its rings, then update the neighbours. -/

def takeIn (localPeer p : PeerRef) (g : Group) : Group := (g.addPeer getId p).updateNeighbours getId localPeer

def enter (localPeer p : PeerRef) (g : Group) : Group := (g.addToRings getId p).updateNeighbours getId localPeer

def leave (localPeer p : PeerRef) (g : Group) : Group := (g.removePeer getId p).2.updateNeighbours getId localPeer

/-- An ID cached as a neighbour's. -/
def lists (g : Group) (id : Bytes) : Prop := g.predecessors.contains id = true ∨ g.successors.contains id = true

/-- A peer cached as a neighbour. -/
def Relays (g : Group) (p : PeerRef) : Prop := p ∈ g.predecessors.values ∨ p ∈ g.successors.values

/-- The cached neighbours are those of the rings. -/
def Fresh (localPeer : PeerRef) (g : Group) : Prop := g.updateNeighbours getId localPeer = g

variable {getId}

@[simp] theorem updateNeighbours_id (g : Group) (localPeer : PeerRef) :
    (g.updateNeighbours getId localPeer).id = g.id := by
  unfold updateNeighbours
  split <;> rfl

@[simp] theorem updateNeighbours_peers (g : Group) (localPeer : PeerRef) :
    (g.updateNeighbours getId localPeer).peers = g.peers := by
  unfold updateNeighbours
  split <;> rfl

@[simp] theorem updateNeighbours_rings (g : Group) (localPeer : PeerRef) :
    (g.updateNeighbours getId localPeer).rings = g.rings := by
  unfold updateNeighbours
  split <;> rfl

theorem updateNeighbours_ok {g : Group} {localPeer : PeerRef} {preds succs : PeerMap}
    (h : g.neighbours getId localPeer = .ok (preds, succs)) :
    g.updateNeighbours getId localPeer = { g with predecessors := preds, successors := succs } := by
  simp only [updateNeighbours, h]

theorem updateNeighbours_error {g : Group} {localPeer : PeerRef} {e : PeerNotFound}
    (h : g.neighbours getId localPeer = .error e) :
    g.updateNeighbours getId localPeer = { g with predecessors := ∅, successors := ∅ } := by
  simp only [updateNeighbours, h]

/-- An update leaves nothing to update. -/
theorem updateNeighbours_fresh (g : Group) (localPeer : PeerRef) :
    (g.updateNeighbours getId localPeer).Fresh getId localPeer := by
  unfold Fresh
  cases h : g.neighbours getId localPeer with
  | ok r =>
    obtain ⟨preds, succs⟩ := r
    rw [updateNeighbours_ok h]
    exact updateNeighbours_ok (g := { g with predecessors := preds, successors := succs }) h
  | error e =>
    rw [updateNeighbours_error h]
    exact updateNeighbours_error (g := { g with predecessors := ∅, successors := ∅ }) h

theorem fresh_iff {g : Group} {localPeer : PeerRef} : g.Fresh getId localPeer ↔
    (g.updateNeighbours getId localPeer).predecessors = g.predecessors ∧
      (g.updateNeighbours getId localPeer).successors = g.successors := by
  refine ⟨fun h => by rw [h]; exact ⟨rfl, rfl⟩, fun ⟨hp, hs⟩ => ?_⟩
  have hi := @updateNeighbours_id _ getId g localPeer
  have hps := @updateNeighbours_peers _ getId g localPeer
  have hr := @updateNeighbours_rings _ getId g localPeer
  unfold Fresh
  generalize g.updateNeighbours getId localPeer = g' at hp hs hi hps hr
  obtain ⟨id, peers, preds, succs, rings, shape⟩ := g
  obtain ⟨id', peers', preds', succs', rings', shape'⟩ := g'
  cases hp
  cases hs
  cases hi
  cases hps
  cases hr
  rfl

/-- Peers and rings decide what an update makes of a group. -/
theorem updateNeighbours_congr {g g' : Group} (hi : g.id = g'.id) (hp : g.peers = g'.peers) (hr : g.rings = g'.rings)
    (localPeer : PeerRef) : g.updateNeighbours getId localPeer = g'.updateNeighbours getId localPeer := by
  have hn : g.neighbours getId localPeer = g'.neighbours getId localPeer := by rw [neighbours, hr, neighbours]
  obtain ⟨id, peers, preds, succs, rings, shape⟩ := g
  obtain ⟨id', peers', preds', succs', rings', shape'⟩ := g'
  cases hi
  cases hp
  cases hr
  simp only [updateNeighbours, hn]

theorem removePeer_twice (g : Group) (p : PeerRef) :
    (((g.removePeer getId p).2).removePeer getId p).2 = (g.removePeer getId p).2 := by
  have he : ∀ (m : PeerMap) k, (m.erase k).erase k = m.erase k := fun m k => OrdMap.erase_absent (OrdMap.find_erase_self m k)
  have hr : ∀ r : Ring, (r.removePeer getId p).removePeer getId p = r.removePeer getId p := fun r => by
    obtain ⟨i, ring⟩ := r
    exact congrArg (Ring.mk i) (he ring _)
  obtain ⟨id, peers, preds, succs, rings, shape⟩ := g
  simp only [removePeer, List.map_map, he]
  congr 1
  exact List.map_congr_left fun r _ => hr r

/-- Removing a peer first changes nothing about his leaving. -/
theorem leave_removePeer (g : Group) (localPeer p : PeerRef) :
    (g.removePeer getId p).2.leave getId localPeer p = g.leave getId localPeer p := by
  rw [leave, removePeer_twice, leave]

theorem enter_twice (g : Group) (localPeer p : PeerRef) :
    (g.enter getId localPeer p).enter getId localPeer p = g.enter getId localPeer p := by
  have hi : ∀ (m : PeerMap) k (v : PeerRef), (m.insert k v).insert k v = m.insert k v := by
    intro m k v
    refine OrdMap.ext_find fun q => ?_
    simp only [OrdMap.find_insert]
    split <;> rfl
  have hr : ∀ r : Ring, (r.addPeer getId p).addPeer getId p = r.addPeer getId p := fun r => by
    obtain ⟨i, ring⟩ := r
    exact congrArg (Ring.mk i) (hi ring _ p)
  show ((g.enter getId localPeer p).addToRings getId p).updateNeighbours getId localPeer =
    (g.addToRings getId p).updateNeighbours getId localPeer
  refine updateNeighbours_congr ?_ ?_ ?_ localPeer
  · exact updateNeighbours_id _ _
  · exact updateNeighbours_peers _ _
  simp only [enter, addToRings, updateNeighbours_rings, List.map_map]
  exact List.map_congr_left fun r _ => hr r

/-! ## Who is in a group -/

/-- The peers a group refers to, its cached neighbours aside. -/
def Mentions (g : Group) (p : PeerRef) : Prop := p ∈ g.peers.values ∨ ∃ r ∈ g.rings, p ∈ r.ring.values

omit [Platform] in
theorem new_mentions {id : Bytes} {q : PeerRef} (h : (new id).Mentions q) : False := by
  rcases h with h | ⟨r, hr, h⟩
  · cases h
  · obtain ⟨i, -, rfl⟩ := List.mem_map.mp hr
    cases h

theorem addToRings_mentions {g : Group} {p q : PeerRef} (h : (g.addToRings getId p).Mentions q) :
    q = p ∨ g.Mentions q := by
  rcases h with h | ⟨r, hr, h⟩
  · exact Or.inr (Or.inl h)
  · obtain ⟨r', hr', rfl⟩ := List.mem_map.mp hr
    rcases OrdMap.mem_values_insert h with h | h
    · exact Or.inl h
    · exact Or.inr (Or.inr ⟨r', hr', h⟩)

theorem addPeer_mentions {g : Group} {p q : PeerRef} (h : (g.addPeer getId p).Mentions q) :
    q = p ∨ g.Mentions q := by
  rcases addToRings_mentions h with h | h | h
  · exact Or.inl h
  · exact (OrdMap.mem_values_insertNew h).imp_right Or.inl
  · exact Or.inr (Or.inr h)

theorem addGroupToRings_mentions {g other : Group} {q : PeerRef} (h : (g.addGroupToRings getId other).Mentions q) :
    g.Mentions q ∨ other.Mentions q := by
  rcases h with h | ⟨r, hr, h⟩
  · exact Or.inl (Or.inl h)
  · obtain ⟨r', hr', rfl⟩ := List.mem_map.mp hr
    have run : ∀ (l : List PeerRef) (r : Ring), q ∈ (l.foldl (fun r p => r.addPeer getId p) r).ring.values →
        q ∈ l ∨ q ∈ r.ring.values := by
      intro l
      induction l with
      | nil => intro r h; exact Or.inr h
      | cons p l ih =>
        intro r h
        rcases ih _ h with h | h
        · exact Or.inl (List.mem_cons_of_mem p h)
        · rcases OrdMap.mem_values_insert h with h | h
          · exact Or.inl (h ▸ List.mem_cons_self)
          · exact Or.inr h
    rcases run _ r' h with h | h
    · exact Or.inr (Or.inl h)
    · exact Or.inl (Or.inr ⟨r', hr', h⟩)

theorem removePeer_mentions {g : Group} {p q : PeerRef} (h : (g.removePeer getId p).2.Mentions q) :
    g.Mentions q := by
  rcases h with h | ⟨r, hr, h⟩
  · exact Or.inl (OrdMap.mem_values_erase h)
  · obtain ⟨r', hr', rfl⟩ := List.mem_map.mp hr
    exact Or.inr ⟨r', hr', OrdMap.mem_values_erase h⟩

theorem updateNeighbours_mentions {g : Group} {localPeer q : PeerRef} :
    (g.updateNeighbours getId localPeer).Mentions q ↔ g.Mentions q := by
  simp only [Mentions, updateNeighbours_peers, updateNeighbours_rings]

/-- The neighbours depend on the IDs of the group's members and the local peer only. -/
theorem neighbours_congr {getId' : PeerRef → Bytes} {g : Group} {localPeer : PeerRef}
    (h : ∀ q, g.Mentions q → getId' q = getId q) (hl : getId' localPeer = getId localPeer) :
    g.neighbours getId' localPeer = g.neighbours getId localPeer := by
  have round : ∀ r ∈ g.rings, ∀ acc,
      neighboursRound getId' localPeer acc r = neighboursRound getId localPeer acc r := by
    intro r hr acc
    have hv : ∀ q ∈ r.ring.values, getId' q = getId q := fun q hq => h q (Or.inr ⟨r, hr, hq⟩)
    have hp : r.getPredecessor getId' localPeer = r.getPredecessor getId localPeer := by
      simp only [Ring.getPredecessor, hl]
    have hs : r.getSuccessor getId' localPeer = r.getSuccessor getId localPeer := by
      simp only [Ring.getSuccessor, hl]
    rw [neighboursRound, neighboursRound, hp, hs]
    cases hp : r.getPredecessor getId localPeer with
    | error e => rfl
    | ok p =>
      cases hs : r.getSuccessor getId localPeer with
      | error e => rfl
      | ok q =>
        simp only [Lib.ok_bind, hv p (Ring.getPredecessor_mem hp), hv q (Ring.getSuccessor_mem hs)]
  exact Lib.foldlM_congr round _

/-- Neighbours are found by the lookups in the rings. -/
theorem neighbours_next {g : Group} {localPeer : PeerRef} {preds succs : PeerMap}
    (h : g.neighbours getId localPeer = .ok (preds, succs)) {p : PeerRef} (hp : p ∈ preds.values ∨ p ∈ succs.values) :
    ∃ r ∈ g.rings, r.getPredecessor getId localPeer = .ok p ∨ r.getSuccessor getId localPeer = .ok p := by
  refine Lib.foldlM_keeps (P := fun acc => ∀ p, p ∈ acc.1.values ∨ p ∈ acc.2.values → ∃ r ∈ g.rings,
    r.getPredecessor getId localPeer = .ok p ∨ r.getSuccessor getId localPeer = .ok p)
    ?_ (fun p hp => by rcases hp with hp | hp <;> cases hp) h p hp
  intro r hr acc acc' hacc hround q hq
  obtain ⟨p₁, h₁, hround⟩ := Lib.bind_ok.mp hround
  obtain ⟨p₂, h₂, hround⟩ := Lib.bind_ok.mp hround
  cases hround
  rcases hq with hq | hq
  · rcases OrdMap.mem_values_insertNew hq with rfl | hq
    · exact ⟨r, hr, Or.inl h₁⟩
    · exact hacc q (Or.inl hq)
  · rcases OrdMap.mem_values_insertNew hq with rfl | hq
    · exact ⟨r, hr, Or.inr h₂⟩
    · exact hacc q (Or.inr hq)

theorem updateNeighbours_next {g : Group} {localPeer p : PeerRef} (h : (g.updateNeighbours getId localPeer).Relays p) :
    ∃ r ∈ g.rings, r.getPredecessor getId localPeer = .ok p ∨ r.getSuccessor getId localPeer = .ok p := by
  cases hg : g.neighbours getId localPeer with
  | ok r =>
    obtain ⟨preds, succs⟩ := r
    rw [updateNeighbours_ok hg] at h
    exact neighbours_next hg h
  | error e =>
    rw [updateNeighbours_error hg] at h
    rcases h with h | h <;> cases h

theorem updateNeighbours_mem {g : Group} {localPeer p : PeerRef} (h : (g.updateNeighbours getId localPeer).Relays p) :
    ∃ r ∈ g.rings, p ∈ r.ring.values := by
  obtain ⟨r, hr, hp⟩ := updateNeighbours_next h
  exact ⟨r, hr, hp.elim Ring.getPredecessor_mem Ring.getSuccessor_mem⟩

end Group

end RacKun
