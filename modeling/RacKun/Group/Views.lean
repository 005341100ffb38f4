/-
  RacKun.Group.Views — the rings of one group as two nodes build them.

  Each node adds and removes peers as their messages arrive, in its own order and as often
  as they come. A ring files a peer under a hash of his ID, so only the IDs that are left
  at the end count: the history does not show.

  - `build_holds`: any history ends with the rings of the IDs it leaves.
  - `Holds.rows`: these IDs decide the keys, the IDs and their order.
-/

import RacKun.Group.Members

namespace RacKun

open Lib (OrdMap)

variable [Platform]

namespace Ring

variable {getId : PeerRef → Bytes} {r : Ring} {ids : Set Bytes}

/-- One member less. -/
theorem Holds.removePeer (h : r.Holds getId ids) {p : PeerRef} (hd : Set.InjOn r.createKey (insert (getId p) ids)) :
    (r.removePeer getId p).Holds getId (ids \ {getId p}) where
  keyed := by
    intro e he
    obtain ⟨he, hk⟩ := OrdMap.mem_erase.mp he
    obtain ⟨hm, hkey⟩ := h.keyed e he
    refine ⟨⟨hm, fun hid => hk ?_⟩, hkey⟩
    rw [hkey, Set.mem_singleton_iff.mp hid]
  held := by
    intro id hm
    have hk : r.createKey id ≠ r.createKey (getId p) := fun hk =>
      hm.2 (hd (Set.mem_insert_of_mem _ hm.1) (Set.mem_insert _ ids) hk)
    have hc : (r.ring.erase (r.createKey (getId p))).contains (r.createKey id) = true := by
      rw [OrdMap.contains, OrdMap.find_erase_ne _ hk]
      exact h.held id hm.1
    exact hc

theorem Holds.addAll (l : List PeerRef) (h : r.Holds getId ids) :
    (l.foldl (fun r p => r.addPeer getId p) r).Holds getId (ids ∪ {id | ∃ p ∈ l, getId p = id}) := by
  have hset : l.foldl (fun ids p => ids ∪ {getId p}) ids = ids ∪ {id | ∃ p ∈ l, getId p = id} := by
    rw [foldl_union]
    simp only [Set.mem_singleton_iff, eq_comm]
  rw [← hset]
  refine List.foldl_rel (r := fun (r : Ring) ids => r.Holds getId ids) h fun p _ r ids h => ?_
  rw [Set.union_singleton]
  exact h.addPeer p

/-- The keys and the IDs under them, in the order of the ring. -/
def rows (getId : PeerRef → Bytes) (r : Ring) : List (Bytes × Bytes) := r.ring.entries.map fun e => (e.1, getId e.2)

omit [Platform] in
theorem rows_ordered : Lib.Ordered (r.rows getId) := by
  have hk : (r.rows getId).map Prod.fst = r.ring.entries.map Prod.fst := by
    rw [rows, List.map_map]
    rfl
  rw [Lib.Ordered, hk]
  exact r.ring.ordered

theorem Holds.mem_rows (h : r.Holds getId ids) (hd : Set.InjOn r.createKey ids) {k id : Bytes} :
    (k, id) ∈ r.rows getId ↔ id ∈ ids ∧ k = r.createKey id := by
  rw [rows, List.mem_map]
  constructor
  · rintro ⟨e, he, heq⟩
    cases heq
    exact h.keyed e he
  · rintro ⟨hm, rfl⟩
    obtain ⟨p, hp, rfl⟩ := h.find hd hm
    exact ⟨(_, p), OrdMap.mem_entries.mpr hp, rfl⟩

theorem Holds.rows_eq {getId' : PeerRef → Bytes} {r' : Ring} (h : r.Holds getId ids) (h' : r'.Holds getId' ids)
    (hi : r.index = r'.index) (hd : Set.InjOn r.createKey ids) : r.rows getId = r'.rows getId' := by
  have hk : r.createKey = r'.createKey := funext fun id => by rw [createKey, hi, createKey]
  refine Lib.ordered_ext rows_ordered rows_ordered fun e => ?_
  obtain ⟨k, id⟩ := e
  rw [h.mem_rows hd, h'.mem_rows (hk ▸ hd), hk]

end Ring

namespace Group

/-! ## Histories -/

/-- What a node does to the rings of a group. -/
inductive Op where
  | addPeer (p : PeerRef)
  | addToRings (p : PeerRef)
  | addGroupToRings (other : Group)
  | removePeer (p : PeerRef)

/-- The peers an operation is about. -/
def Op.peers : Op → List PeerRef
  | .addPeer p => [p]
  | .addToRings p => [p]
  | .addGroupToRings other => other.peers.values
  | .removePeer p => [p]

section

variable (getId : PeerRef → Bytes)

def apply (g : Group) : Op → Group
  | .addPeer p => g.addPeer getId p
  | .addToRings p => g.addToRings getId p
  | .addGroupToRings other => g.addGroupToRings getId other
  | .removePeer p => (g.removePeer getId p).2

/-- The group a node has made, from the one with no peers. -/
def build (id : Bytes) (ops : List Op) : Group := ops.foldl (apply getId) (new id)

omit [Platform] in
/-- The IDs of these peers. -/
def idsOf (l : List PeerRef) : Set Bytes := {id | ∃ p ∈ l, getId p = id}

omit [Platform] in
/-- The members an operation leaves. -/
def Op.leaves (ids : Set Bytes) : Op → Set Bytes
  | .removePeer p => ids \ {getId p}
  | op => ids ∪ idsOf getId op.peers

/-- All IDs a history is about. -/
def named (ops : List Op) : Set Bytes := {id | ∃ op ∈ ops, id ∈ idsOf getId op.peers}

/-- The IDs of the peers in the rings. -/
def ringIds (g : Group) : Set Bytes := {id | ∃ r ∈ g.rings, id ∈ idsOf getId r.ring.values}

/-- The rings as they are: for each index the keys and the IDs, in order. -/
def rows (g : Group) : List (Nat × List (Bytes × Bytes)) := g.rings.map fun r => (r.index, r.rows getId)

end

variable {getId : PeerRef → Bytes} {g : Group} {ids : Set Bytes}

theorem new_holds {id : Bytes} : (new id).Holds getId ∅ := by
  intro r hr
  obtain ⟨i, -, rfl⟩ := List.mem_map.mp hr
  exact ⟨fun e he => absurd he List.not_mem_nil, fun id hm => absurd hm (Set.notMem_empty id)⟩

/-- What one operation leaves. -/
theorem apply_holds {all : Set Bytes} (hd : KeysDiffer all) {op : Op} (ho : idsOf getId op.peers ⊆ all) (hs : ids ⊆ all)
    (h : g.Holds getId ids) : (g.apply getId op).Holds getId (op.leaves getId ids) ∧ op.leaves getId ids ⊆ all := by
  have single : ∀ p, ids ∪ idsOf getId [p] = insert (getId p) ids := fun p => by
    ext id
    simp [idsOf, eq_comm, or_comm]
  cases op with
  | addPeer p =>
    refine ⟨?_, Set.union_subset hs ho⟩
    show Holds getId _ (ids ∪ idsOf getId [p])
    rw [single]
    exact Holds.addToRings (g := { g with peers := g.peers.insertNew (getId p) p }) h p
  | addToRings p =>
    refine ⟨?_, Set.union_subset hs ho⟩
    show Holds getId _ (ids ∪ idsOf getId [p])
    rw [single]
    exact h.addToRings p
  | addGroupToRings other =>
    refine ⟨fun r hr => ?_, Set.union_subset hs ho⟩
    obtain ⟨r', hr', rfl⟩ := List.mem_map.mp hr
    exact (h r' hr').addAll _
  | removePeer p =>
    refine ⟨fun r hr => ?_, Set.sdiff_subset.trans hs⟩
    obtain ⟨r', hr', rfl⟩ := List.mem_map.mp hr
    exact (h r' hr').removePeer ((keys_differ hd hr').mono (Set.insert_subset (ho ⟨p, List.mem_singleton_self p, rfl⟩) hs))

theorem run_holds {all : Set Bytes} (hd : KeysDiffer all) : ∀ (ops : List Op) {g : Group} {ids : Set Bytes},
    named getId ops ⊆ all → ids ⊆ all → g.Holds getId ids →
      (ops.foldl (apply getId) g).Holds getId (ops.foldl (Op.leaves getId) ids) ∧
        ops.foldl (Op.leaves getId) ids ⊆ all := by
  intro ops
  induction ops with
  | nil => exact fun _ hs h => ⟨h, hs⟩
  | cons op ops ih =>
    intro g ids hn hs h
    obtain ⟨h', hs'⟩ := apply_holds hd (fun id hid => hn ⟨op, List.mem_cons_self, hid⟩) hs h
    exact ih (fun id ⟨o, ho, hid⟩ => hn ⟨o, List.mem_cons_of_mem op ho, hid⟩) hs' h'

/-- Any history ends with the rings of the IDs it leaves. -/
theorem build_holds {all : Set Bytes} (hd : KeysDiffer all) (id : Bytes) {ops : List Op} (hn : named getId ops ⊆ all) :
    (build getId id ops).Holds getId (ops.foldl (Op.leaves getId) ∅) ∧ ops.foldl (Op.leaves getId) ∅ ⊆ all :=
  run_holds hd ops hn (Set.empty_subset all) new_holds

theorem Holds.ringIds (h : g.Holds getId ids) (hd : KeysDiffer ids) : g.ringIds getId = ids := by
  ext id
  constructor
  · rintro ⟨r, hr, p, hp, rfl⟩
    obtain ⟨k, hk⟩ := OrdMap.mem_values.mp hp
    exact ((h r hr).entry (OrdMap.mem_entries.mpr hk)).1
  · intro hm
    obtain ⟨r, hr, -⟩ := g.ring_at (i := 0) (by decide)
    obtain ⟨p, hp, he⟩ := (h r hr).find (keys_differ hd hr) hm
    exact ⟨r, hr, p, OrdMap.mem_values.mpr ⟨_, hp⟩, he⟩

/-- The IDs in the rings decide the rings. -/
theorem Holds.rows {getId' : PeerRef → Bytes} {g' : Group} (h : g.Holds getId ids) (h' : g'.Holds getId' ids)
    (hd : KeysDiffer ids) : g.rows getId = g'.rows getId' := by
  refine map_rings_congr fun r hr r' hr' hi => ?_
  rw [hi, (h r hr).rows_eq (h' r' hr') hi (keys_differ hd hr)]

/-- Two nodes whose rings end with the same IDs hold the same rings, whatever the
    histories, and follow each other in them. -/
theorem views_agree {getId getId' : PeerRef → Bytes} {id id' : Bytes} {ops ops' : List Op} {u v : PeerRef}
    (hd : KeysDiffer (named getId ops ∪ named getId' ops'))
    (hsame : ringIds getId (build getId id ops) = ringIds getId' (build getId' id' ops'))
    (hu : getId u ∈ ringIds getId (build getId id ops)) (hv : getId' v ∈ ringIds getId (build getId id ops))
    (huv : getId u ≠ getId' v) :
    rows getId (build getId id ops) = rows getId' (build getId' id' ops') ∧
      Keyed getId ((build getId id ops).updateNeighbours getId u).successors ∧
      Keyed getId' ((build getId' id' ops').updateNeighbours getId' v).predecessors ∧
      (((build getId id ops).updateNeighbours getId u).successors.contains (getId' v) = true ↔
        ((build getId' id' ops').updateNeighbours getId' v).predecessors.contains (getId u) = true) := by
  obtain ⟨h, hsub⟩ := build_holds hd id Set.subset_union_left
  obtain ⟨h', hsub'⟩ := build_holds hd id' Set.subset_union_right
  have differ : ∀ {s : Set Bytes}, s ⊆ named getId ops ∪ named getId' ops' → KeysDiffer s := fun hs i hi =>
    (hd i hi).mono hs
  rw [h.ringIds (differ hsub)] at hu hv hsame
  rw [h'.ringIds (differ hsub')] at hsame
  rw [← hsame] at h'
  have hn : (ops.foldl (Op.leaves getId) ∅).Nontrivial := ⟨getId u, hu, getId' v, hv, huv⟩
  obtain ⟨-, hks, -, hs⟩ := updateNeighbours_spec h (differ hsub) hn hu
  obtain ⟨hkp, -, hp, -⟩ := updateNeighbours_spec h' (differ hsub) hn hv
  exact ⟨h.rows h' (differ hsub), hks, hkp, (hs _ hv).trans ((next_congr h h').trans (hp _ hu).symm)⟩

omit [Platform] in
/-- One node has removed the other and added it again; the other has taken the members
    over from another group. -/
theorem views_agree_two :
    let here : PeerRef → Bytes := fun p => [Fin.ofNat 256 p]
    let there : PeerRef → Bytes := fun p => [Fin.ofNat 256 (1 - p)]
    let g := @build sha1 here [] [.addPeer 0, .addPeer 1, .removePeer 1, .addToRings 1]
    let g' := @build sha1 there [] [.addPeer 0, .addGroupToRings (@build sha1 there [] [.addPeer 1])]
    g.rows here = g'.rows there ∧ ((@updateNeighbours sha1 here g 0).successors.contains [1] = true ↔
      (@updateNeighbours sha1 there g' 0).predecessors.contains [0] = true) := by
  intro here there g g'
  have hkeys : ∀ i < RINGS_NB, @makeHash sha1 ([0] ++ itos i) ≠ @makeHash sha1 ([1] ++ itos i) := by
    decide +kernel
  have hd : @KeysDiffer sha1 {[0], [1]} := by
    rintro i hi _ (rfl | rfl) _ (rfl | rfl) h
    · rfl
    · exact absurd h (hkeys i hi)
    · exact absurd h.symm (hkeys i hi)
    · rfl
  have ids : ∀ (f : PeerRef → Bytes) (g : Group), (∀ r ∈ g.rings, ∀ p ∈ r.ring.values, f p = [0] ∨ f p = [1]) →
      (∃ r ∈ g.rings, ∃ p ∈ r.ring.values, f p = [0]) → (∃ r ∈ g.rings, ∃ p ∈ r.ring.values, f p = [1]) →
      ringIds f g = {[0], [1]} := by
    rintro f g hall h0 h1
    ext id
    constructor
    · rintro ⟨r, hr, p, hp, rfl⟩
      exact hall r hr p hp
    · rintro (rfl | rfl)
      · exact h0
      · exact h1
  have hg := ids here g (by decide +kernel) (by decide +kernel) (by decide +kernel)
  have hg' := ids there g' (by decide +kernel) (by decide +kernel) (by decide +kernel)
  have hnamed : named here [.addPeer 0, .addPeer 1, .removePeer 1, .addToRings 1] ∪ named there
      [.addPeer 0, .addGroupToRings (@build sha1 there [] [.addPeer 1])] ⊆ {[0], [1]} := by
    have h : ∀ op ∈ [Op.addPeer 0, .addPeer 1, .removePeer 1, .addToRings 1], ∀ p ∈ op.peers,
        here p = [0] ∨ here p = [1] := by
      decide +kernel
    have h' : ∀ op ∈ [Op.addPeer 0, .addGroupToRings (@build sha1 there [] [.addPeer 1])], ∀ p ∈ op.peers,
        there p = [0] ∨ there p = [1] := by
      decide +kernel
    rintro id (⟨op, ho, p, hp, rfl⟩ | ⟨op, ho, p, hp, rfl⟩)
    · exact h op ho p hp
    · exact h' op ho p hp
  have agree := @views_agree sha1 here there [] [] _ _ 0 0 (fun i hi => (hd i hi).mono hnamed) (hg.trans hg'.symm)
    (by rw [hg]; exact Or.inl rfl) (by rw [hg]; exact Or.inr rfl) (by decide)
  exact ⟨agree.1, agree.2.2.2⟩

end Group

end RacKun
