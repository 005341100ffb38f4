/-
  RacKun.System.StaticGroup — a group at rest: its members are connected, know each other
  and hold the same members.

  Every node has peer objects of its own, so what they agree on is said by IDs: who
  follows whom in the rings (`follows`), and hence that a node counts as its predecessors
  exactly those who send to it (`mem_preds`).
-/

import RacKun.Network.Relay
import RacKun.System.Delivery

namespace RacKun

open Lib (OrdMap)

namespace System

variable [Platform] {ι : Type}

/-- The connections of the members of a group, all connected and known to each other, who
    hold the same members; `grp` is where each node keeps the group. -/
structure StaticGroup (sys : System ι) (id : ι → Bytes) (gid : Bytes) (grp : ι → GroupRef) : Prop where
  distinct : Function.Injective id
  differ : KeysDiffer (Set.range id)
  localId : ∀ i, (sys.node i).getId (sys.node i).localPeer = id i
  isLocal : ∀ i, ((sys.node i).peer (sys.node i).localPeer).isLocal = true
  connected : ∀ i, (sys.node i).localState = .connected
  localGroup : ∀ i, (sys.node i).localGroup = some (grp i)
  group : ∀ i, (sys.node i).groups.find? gid = some (grp i) ∧ ((sys.node i).group (grp i)).id = gid
  marker : ∀ i, (sys.node i).channelMarkers.find? (makeHash (gid ++ gid)) = some gid
  holds : ∀ i, ((sys.node i).group (grp i)).Holds (sys.node i).getId (Set.range id)
  fresh : ∀ i, ((sys.node i).group (grp i)).Fresh (sys.node i).getId (sys.node i).localPeer
  linked : ∀ i, ∀ r ∈ ((sys.node i).group (grp i)).rings, ∀ p ∈ r.ring.values, (sys.node i).getId p ≠ id i →
    ∃ j q, sys.link i p = some (j, q) ∧ id j = (sys.node i).getId p ∧ (sys.node j).getId q = id i ∧
      ((sys.node j).peer q).listening = true ∧ ((sys.node j).peer q).isKnown = true ∧
      ((sys.node j).peer q).isLocal = false

/-- Where the copies go that a node sends to its successors. -/
def target (sys : System ι) (i : ι) (p : PeerRef) : ι := ((sys.link i p).map Prod.fst).getD i

/-- The object a successor has for the connection. -/
def back (sys : System ι) (i : ι) (p : PeerRef) : PeerRef := ((sys.link i p).map Prod.snd).getD p

/-- A node's successors and predecessors in its group. -/
def succs (sys : System ι) (grp : ι → GroupRef) (i : ι) : PeerMap := ((sys.node i).group (grp i)).successors

def preds (sys : System ι) (grp : ι → GroupRef) (i : ι) : PeerMap := ((sys.node i).group (grp i)).predecessors

def successors (sys : System ι) (grp : ι → GroupRef) (i : ι) : List ι := (sys.succs grp i).values.map (sys.target i)

variable {sys : System ι} {id : ι → Bytes} {gid : Bytes} {grp : ι → GroupRef}

namespace StaticGroup

section

variable (h : sys.StaticGroup id gid grp)

include h

theorem marker_eq (i : ι) : (sys.node i).makeChannelMarker (grp i) (grp i) = makeHash (gid ++ gid) := by
  rw [Network.makeChannelMarker, (h.group i).2]
  split <;> rfl

theorem leads (i : ι) : (sys.node i).Leads (makeHash (gid ++ gid)) (grp i) := by
  refine ⟨OrdMap.contains_iff.mpr ⟨gid, h.marker i⟩, ?_⟩
  rw [Network.markerGid, h.marker i]
  exact (h.group i).1

/-- Whose turn it is after whom; all nodes agree (`follows`). -/
theorem follows (i j : ι) {a b : Bytes} :
    ((sys.node i).group (grp i)).Next a b ↔ ((sys.node j).group (grp j)).Next a b :=
  Group.next_congr (h.holds i) (h.holds j)

variable [Nontrivial ι]

theorem nontrivial : (Set.range id).Nontrivial := by
  obtain ⟨i, j, hij⟩ := exists_pair_ne ι
  exact ⟨id i, Set.mem_range_self i, id j, Set.mem_range_self j, fun hc => hij (h.distinct hc)⟩

/-- The cached neighbours of a member, by their IDs. -/
theorem neighbours (i : ι) : Group.Keyed (sys.node i).getId (sys.preds grp i) ∧
    Group.Keyed (sys.node i).getId (sys.succs grp i) ∧
    (∀ j, (sys.preds grp i).contains (id j) = true ↔ ((sys.node i).group (grp i)).Next (id j) (id i)) ∧
    (∀ j, (sys.succs grp i).contains (id j) = true ↔ ((sys.node i).group (grp i)).Next (id i) (id j)) := by
  have hm : (sys.node i).getId (sys.node i).localPeer ∈ Set.range id := by
    rw [h.localId i]
    exact Set.mem_range_self i
  obtain ⟨kp, ks, cp, cs⟩ := Group.updateNeighbours_spec (h.holds i) h.differ h.nontrivial hm
  rw [h.fresh i] at kp ks cp cs
  rw [h.localId i] at cp cs
  exact ⟨kp, ks, fun j => cp _ (Set.mem_range_self j), fun j => cs _ (Set.mem_range_self j)⟩

omit [Nontrivial ι] in
/-- Neighbours are members. -/
theorem neighbour_mem (i : ι) {p : PeerRef} (hp : p ∈ (sys.preds grp i).values ∨ p ∈ (sys.succs grp i).values) :
    ∃ r ∈ ((sys.node i).group (grp i)).rings, p ∈ r.ring.values := by
  have hf := h.fresh i
  rw [Group.Fresh] at hf
  exact Group.updateNeighbours_mem (by rw [hf]; exact hp)

theorem pred_mem (i : ι) {k : Bytes} (hk : (sys.preds grp i).contains k = true) : ∃ j, id j = k := by
  obtain ⟨p, hp⟩ := OrdMap.contains_iff.mp hk
  have he := OrdMap.mem_entries.mpr hp
  obtain ⟨r, hr, hm⟩ := h.neighbour_mem i (Or.inl (List.mem_map_of_mem he))
  obtain ⟨e, he', rfl⟩ := List.mem_map.mp hm
  obtain ⟨j, hj⟩ := ((h.holds i r hr).keyed e he').1
  exact ⟨j, hj.trans ((h.neighbours i).1 _ he).symm⟩

/-- A successor is somebody else, at the other end of a connection. -/
theorem succ_linked (i : ι) {p : PeerRef} (hp : p ∈ (sys.succs grp i).values) :
    sys.link i p = some (sys.target i p, sys.back i p) ∧ id (sys.target i p) = (sys.node i).getId p ∧
      (sys.node (sys.target i p)).getId (sys.back i p) = id i ∧
      ((sys.node (sys.target i p)).peer (sys.back i p)).listening = true ∧
      ((sys.node (sys.target i p)).peer (sys.back i p)).isKnown = true ∧
      ((sys.node (sys.target i p)).peer (sys.back i p)).isLocal = false := by
  obtain ⟨e, he, rfl⟩ := List.mem_map.mp hp
  obtain ⟨r, hr, hm⟩ := h.neighbour_mem i (Or.inr hp)
  obtain ⟨e', he', hee⟩ := List.mem_map.mp hm
  obtain ⟨j', hj'⟩ := ((h.holds i r hr).keyed e' he').1
  rw [hee] at hj'
  have hk : e.1 = (sys.node i).getId e.2 := (h.neighbours i).2.1 e he
  have hc : (sys.succs grp i).contains (id j') = true :=
    OrdMap.contains_iff.mpr ⟨e.2, OrdMap.mem_entries.mp (by rw [hj', ← hk]; exact he)⟩
  have hnext := ((h.neighbours i).2.2.2 j').mp hc
  have hne := (h.holds i).next_ne h.differ h.nontrivial hnext
  obtain ⟨j, q, hl, hid, hrest⟩ := h.linked i r hr e.2 hm fun hc => hne (hc.symm.trans hj'.symm)
  have ht : sys.target i e.2 = j := by rw [target, hl]; rfl
  have hb : sys.back i e.2 = q := by rw [back, hl]; rfl
  rw [ht, hb]
  exact ⟨hl, hid, hrest⟩

theorem mem_successors {i j : ι} : j ∈ sys.successors grp i ↔ ((sys.node i).group (grp i)).Next (id i) (id j) := by
  rw [← (h.neighbours i).2.2.2 j, OrdMap.contains_iff]
  constructor
  · intro hj
    obtain ⟨p, hp, rfl⟩ := List.mem_map.mp hj
    obtain ⟨e, he, rfl⟩ := List.mem_map.mp hp
    refine ⟨e.2, OrdMap.mem_entries.mp ?_⟩
    rw [(h.succ_linked i hp).2.1, ← (h.neighbours i).2.1 e he]
    exact he
  · rintro ⟨p, hp⟩
    have he := OrdMap.mem_entries.mpr hp
    have hm : p ∈ (sys.succs grp i).values := List.mem_map_of_mem he
    refine List.mem_map.mpr ⟨p, hm, h.distinct ?_⟩
    rw [(h.succ_linked i hm).2.1]
    exact ((h.neighbours i).2.1 _ he).symm

/-- Whoever counts `i` among his predecessors is one of `i`'s successors. -/
theorem mem_preds {i j : ι} : (sys.preds grp j).contains (id i) = true ↔ j ∈ sys.successors grp i := by
  rw [h.mem_successors, (h.neighbours j).2.2.1 i]
  exact h.follows j i

theorem successors_nodup (i : ι) : (sys.successors grp i).Nodup := by
  have hm : (sys.successors grp i).map id = (sys.succs grp i).keys := by
    rw [successors, List.map_map, OrdMap.values, List.map_map, OrdMap.keys]
    refine List.map_congr_left fun e he => ?_
    show id (sys.target i e.2) = e.1
    rw [(h.succ_linked i (List.mem_map_of_mem he)).2.1]
    exact ((h.neighbours i).2.1 e he).symm
  exact List.Nodup.of_map id (hm ▸ (sys.succs grp i).keys_nodup)

omit h [Platform] [Nontrivial ι] in
theorem successors_length (i : ι) : (sys.successors grp i).length = (sys.succs grp i).size := by
  rw [successors, OrdMap.values, List.length_map, List.length_map, OrdMap.size]

/-- A set of nodes closed under the edges has all of them, or none. -/
theorem closed {P : ι → Prop} {o : ι} (ho : P o) (hstep : ∀ i, P i → ∀ j ∈ sys.successors grp i, P j) : ∀ i, P i := by
  intro i
  obtain ⟨j, hj, hP⟩ := (h.holds o).closed (P := fun b => ∃ j, id j = b ∧ P j) h.differ (Set.mem_range_self o)
    ⟨o, rfl, ho⟩ (by
      rintro _ - _ ⟨j, rfl⟩ ⟨i, rfl, hi⟩ hnext
      exact ⟨j, rfl, hstep i hi j (h.mem_successors.mpr ((h.follows i o).mpr hnext))⟩) (id i) (Set.mem_range_self i)
  exact h.distinct hj ▸ hP

/-- The copies a node sends to its successors. -/
theorem posted_copies (i : ι) (m : Message) {es : List Effect} (hes : ∀ p b, Effect.sent p b ∉ es) :
    sys.posted i ((sys.node i).copies (grp i) m ++ es) =
      (sys.succs grp i).values.map fun p => ⟨i, sys.target i p, sys.back i p, m.serialize⟩ := by
  have none : sys.posted i es = [] := by
    refine List.filterMap_eq_nil_iff.mpr fun e he => ?_
    cases e with
    | sent p b => exact absurd he (hes p b)
    | connected p ip port => rfl
    | displayed emitter data => rfl
    | reported msg => rfl
  have hc : sys.posted i ((sys.node i).copies (grp i) m) = (sys.succs grp i).values.filterMap fun p =>
      (sys.link i p).map fun e => ⟨i, e.1, e.2, m.serialize⟩ := List.filterMap_map ..
  have happ : sys.posted i ((sys.node i).copies (grp i) m ++ es) =
      sys.posted i ((sys.node i).copies (grp i) m) ++ sys.posted i es := List.filterMap_append ..
  rw [happ, none, List.append_nil, hc, ← List.filterMap_eq_map]
  refine List.filterMap_congr fun p hp => ?_
  rw [(h.succ_linked i hp).1]
  rfl

end

end StaticGroup

end System

/-! ## Two nodes -/

namespace Scenario

section

variable [Platform]

/-- A node hears what another one has sent it, on its first connection. -/
def hear (s : Network) (es : List Effect) : Except Stop Network :=
  (es.filterMap Effect.sent?).foldlM (fun s e => Network.handle 1 s (.read 1 e.2 none)) s

/-- Two nodes meet: the second joins through the first. -/
def meet : Except Stop (Network × Network) := do
  let s := Network.start (idOf 1) (List.replicate 5 1) 7 fun t => t
  let t := Network.start (idOf 2) (List.replicate 5 2) 7 fun t => t
  let s₁ ← Network.handle 1 s (.accept [9])
  let t₁ ← Network.handle 1 t (.join [] [] (some [8]))
  let s₂ ← hear s₁ (t.effects t₁)
  let t₂ ← hear t₁ (s₁.effects s₂)
  let s₃ ← Network.handle 1 s₂ (.readyTimer (idOf 2))
  let t₃ ← hear t₂ (s₂.effects s₃)
  let s₄ ← hear s₃ (t₂.effects t₃)
  pure (s₄, t₃)

/-- Connected to each other, with nothing on its way. -/
def pair (s t : Network) : System (Fin 2) where
  node i := if i = 0 then s else t
  link i p := if p = 1 then some (1 - i, 1) else none
  wire := []

def pairId (i : Fin 2) : Bytes := if i = 0 then idOf 1 else idOf 2

/-- What is to be checked of the two. -/
def Met (sys : System (Fin 2)) (gid : Bytes) (content : Bytes) : Prop :=
  (∀ x < RINGS_NB, makeHash (pairId 0 ++ itos x) ≠ makeHash (pairId 1 ++ itos x)) ∧
  ∀ i, (sys.node i).getId (sys.node i).localPeer = pairId i ∧
    ((sys.node i).peer (sys.node i).localPeer).isLocal = true ∧ (sys.node i).localState = .connected ∧
    (sys.node i).localGroup = some 0 ∧ (sys.node i).groups.find? gid = some 0 ∧ ((sys.node i).group 0).id = gid ∧
    (sys.node i).channelMarkers.find? (makeHash (gid ++ gid)) = some gid ∧
    (∀ r ∈ ((sys.node i).group 0).rings,
      (∀ e ∈ r.ring.entries, (∃ j, pairId j = (sys.node i).getId e.2) ∧ e.1 = r.createKey ((sys.node i).getId e.2)) ∧
      (∀ j, r.ring.contains (r.createKey (pairId j)) = true) ∧
      ∀ p ∈ r.ring.values, (sys.node i).getId p ≠ pairId i → p = 1) ∧
    (((sys.node i).group 0).updateNeighbours (sys.node i).getId (sys.node i).localPeer).predecessors =
      ((sys.node i).group 0).predecessors ∧
    (((sys.node i).group 0).updateNeighbours (sys.node i).getId (sys.node i).localPeer).successors =
      ((sys.node i).group 0).successors ∧
    (sys.node i).getId 1 = pairId (1 - i) ∧ ((sys.node i).peer 1).listening = true ∧
    ((sys.node i).peer 1).isKnown = true ∧ ((sys.node i).peer 1).isLocal = false ∧
    ((sys.node i).findLog ((sys.node 0).dataMessage 0 content)).isNone

instance (sys : System (Fin 2)) (gid content : Bytes) : Decidable (Met sys gid content) := by
  unfold Met
  infer_instance

/-- Two nodes that pass the check are a group at rest. -/
theorem Met.static {s t : Network} {gid content : Bytes} (h : Met (pair s t) gid content) :
    (pair s t).StaticGroup pairId gid (fun _ => 0) := by
  obtain ⟨hd, h⟩ := h
  have two : ∀ i j : Fin 2, pairId i = pairId j → i = j := by decide
  have back : ∀ i : Fin 2, 1 - (1 - i) = i := by decide
  refine ⟨fun i j => two i j, ?_, fun i => (h i).1, fun i => (h i).2.1, fun i => (h i).2.2.1, fun i => (h i).2.2.2.1,
    fun i => ⟨(h i).2.2.2.2.1, (h i).2.2.2.2.2.1⟩, fun i => (h i).2.2.2.2.2.2.1, fun i r hr => ?_, fun i => ?_, ?_⟩
  · rintro x hx _ ⟨i, rfl⟩ _ ⟨j, rfl⟩ hk
    match i, j, hk with
    | 0, 0, _ => rfl
    | 0, 1, hk => exact absurd hk (hd x hx)
    | 1, 0, hk => exact absurd hk.symm (hd x hx)
    | 1, 1, _ => rfl
  · obtain ⟨hk, hc, -⟩ := (h i).2.2.2.2.2.2.2.1 r hr
    refine ⟨hk, ?_⟩
    rintro _ ⟨j, rfl⟩
    exact hc j
  · exact Group.fresh_iff.mpr ⟨(h i).2.2.2.2.2.2.2.2.1, (h i).2.2.2.2.2.2.2.2.2.1⟩
  · intro i r hr p hp hne
    obtain ⟨-, -, hp'⟩ := (h i).2.2.2.2.2.2.2.1 r hr
    obtain rfl := hp' p hp hne
    obtain ⟨-, -, -, -, -, -, -, -, -, -, hid, -⟩ := h i
    obtain ⟨-, -, -, -, -, -, -, -, -, -, hid', hrest⟩ := h (1 - i)
    rw [back] at hid'
    exact ⟨1 - i, 1, rfl, hid.symm, hid', hrest.1, hrest.2.1, hrest.2.2.1⟩

end

/-- Two nodes that met are a group at rest, and new to a message of either. -/
theorem pair_static : ∃ (sys : System (Fin 2)) (gid : Bytes),
    @System.StaticGroup sha1 _ sys pairId gid (fun _ => 0) ∧ sys.wire = [] ∧
      ∀ i, (sys.node i).findLog (@Network.dataMessage sha1 (sys.node 0) 0 [42]) = none := by
  have hmet : (match @meet sha1 with
      | .ok r => decide (@Met sha1 (pair r.1 r.2) (r.1.group 0).id [42])
      | .error _ => false) = true := by
    decide +kernel
  split at hmet
  · rename_i r _
    have h := of_decide_eq_true hmet
    refine ⟨pair r.1 r.2, _, @Met.static sha1 _ _ _ _ h, rfl, fun i => ?_⟩
    exact Option.isNone_iff_eq_none.mp (h.2 i).2.2.2.2.2.2.2.2.2.2.2.2.2.2
  · cases hmet

end Scenario

end RacKun
