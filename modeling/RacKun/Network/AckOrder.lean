/-
  RacKun.Network.AckOrder — the JOIN Acknowledgements a newcomer gets, in the order they
  come.

  The first one names the newcomer's group. The first one of any other group makes that
  group, and takes the members of our group that have acknowledged so far over into its
  rings: `Inside` says whom. Nobody adds those who acknowledge later, though a member who
  is notified of a join adds the peer to all his channels.

  - `Took.take` / `takes`: what the acknowledgements leave, one by one and all.
  - `complete_iff`: the rings of the channels are complete in which order.
  - `took_same`: complete rings are the same in any order.
-/

import RacKun.Group.Members
import RacKun.Network.LocalGroup

namespace RacKun

open Lib (OrdMap bind_ok pure_ok ok_bind)

open Scenario

/-- A JOIN Acknowledgement, and the peer it has come from. -/
structure Ack where
  stamp : Bytes
  emitter : PeerRef
  groupId : Bytes
  peerId : Bytes
  pubK : Bytes
  deriving DecidableEq

def Ack.message (a : Ack) : Message := ⟨a.stamp, .joinAck a.groupId a.peerId a.pubK⟩

namespace Ack

/-- The acknowledgements before the first one of a group. -/
def before (gid : Bytes) (acks : List Ack) : List Ack := acks.takeWhile fun a => decide (a.groupId ≠ gid)

/-- The peers in the rings of a group: its members, and those of our own that have
    acknowledged before it was made. -/
def Inside (own gid : Bytes) (acks : List Ack) (a : Ack) : Prop :=
  a ∈ acks ∧ a.groupId = gid ∨ a ∈ before gid acks ∧ a.groupId = own

/-- After a member of another group, no member of ours acknowledges. -/
def OwnFirst (own : Bytes) (acks : List Ack) : Prop := acks.Pairwise fun a b => b.groupId = own → a.groupId = own

instance (own : Bytes) (acks : List Ack) : Decidable (OwnFirst own acks) :=
  inferInstanceAs (Decidable (acks.Pairwise _))

/-! ## Lists of acknowledgements -/

variable {own gid : Bytes} {acks : List Ack} {a b : Ack}

theorem before_cons (gid : Bytes) (a : Ack) (acks : List Ack) :
    before gid (a :: acks) = if a.groupId = gid then [] else a :: before gid acks := by
  rw [before, List.takeWhile_cons]
  split <;> simp_all [before]

theorem before_append_known (h : ∃ b ∈ acks, b.groupId = gid) (more : List Ack) :
    before gid (acks ++ more) = before gid acks := by
  induction acks with
  | nil =>
    obtain ⟨b, hb, -⟩ := h
    cases hb
  | cons c acks ih =>
    rw [List.cons_append, before_cons, before_cons]
    split
    · rfl
    · rename_i hc
      obtain ⟨b, hb, hg⟩ := h
      have hb : b ∈ acks := (List.mem_cons.mp hb).resolve_left fun hbc => hc (hbc ▸ hg)
      rw [ih ⟨b, hb, hg⟩]

theorem before_append_new (h : ∀ b ∈ acks, b.groupId ≠ a.groupId) : before a.groupId (acks ++ [a]) = acks := by
  induction acks with
  | nil => rw [List.nil_append, before_cons, if_pos rfl]
  | cons c acks ih =>
    rw [List.cons_append, before_cons, if_neg (h c List.mem_cons_self),
      ih fun b hb => h b (List.mem_cons_of_mem c hb)]

theorem mem_of_before (h : a ∈ before gid acks) : a ∈ acks := (List.takeWhile_sublist _).subset h

theorem inside_mem (h : Inside own gid acks a) : a ∈ acks := h.elim And.left fun h => mem_of_before h.1

/-- One more acknowledgement of a group that is there: its peer is inside from now on. -/
theorem inside_known (h : ∃ b ∈ acks, b.groupId = gid) :
    Inside own gid (acks ++ [a]) b ↔ b = a ∧ a.groupId = gid ∨ Inside own gid acks b := by
  rw [Inside, Inside, before_append_known h, List.mem_append, List.mem_singleton]
  constructor
  · rintro (⟨hb | rfl, hg⟩ | hb)
    · exact Or.inr (Or.inl ⟨hb, hg⟩)
    · exact Or.inl ⟨rfl, hg⟩
    · exact Or.inr (Or.inr hb)
  · rintro (⟨rfl, hg⟩ | ⟨hb, hg⟩ | hb)
    · exact Or.inl ⟨Or.inr rfl, hg⟩
    · exact Or.inl ⟨Or.inl hb, hg⟩
    · exact Or.inr hb

/-- The first acknowledgement of a group: its peer and our members so far. -/
theorem inside_new (h : ∀ b ∈ acks, b.groupId ≠ a.groupId) :
    Inside own a.groupId (acks ++ [a]) b ↔ b = a ∨ b ∈ acks ∧ b.groupId = own := by
  rw [Inside, before_append_new h, List.mem_append, List.mem_singleton]
  constructor
  · rintro (⟨hb | rfl, hg⟩ | hb)
    · exact absurd hg (h b hb)
    · exact Or.inl rfl
    · exact Or.inr hb
  · rintro (rfl | hb)
    · exact Or.inl ⟨Or.inr rfl, rfl⟩
    · exact Or.inr hb

/-- Our members come before everybody else exactly when they come before the first of
    every other group. -/
theorem ownFirst_iff (hn : acks.Nodup) : OwnFirst own acks ↔
    ∀ a ∈ acks, a.groupId ≠ own → ∀ b ∈ acks, b.groupId = own → b ∈ before a.groupId acks := by
  induction acks with
  | nil => exact ⟨fun _ a ha => absurd ha List.not_mem_nil, fun _ => List.Pairwise.nil⟩
  | cons c acks ih =>
    obtain ⟨hc, hn⟩ := List.nodup_cons.mp hn
    have ih := ih hn
    rw [OwnFirst, List.pairwise_cons]
    constructor
    · rintro ⟨hfirst, hrest⟩ a ha hao b hb hbo
      have hbc : b ∈ acks → c.groupId = own := fun hb => hfirst b hb hbo
      rw [before_cons]
      split
      · rename_i hca
        rcases List.mem_cons.mp hb with rfl | hb
        · exact absurd (hca.symm.trans hbo) hao
        · exact absurd (hca.symm.trans (hbc hb)) hao
      · rename_i hca
        rcases List.mem_cons.mp ha with rfl | ha
        · exact absurd rfl hca
        · rcases List.mem_cons.mp hb with rfl | hb
          · exact List.mem_cons_self
          · exact List.mem_cons_of_mem c (ih.mp hrest a ha hao b hb hbo)
    · intro h
      refine ⟨fun b hb hbo => by_contra fun hco => ?_, ih.mpr fun a ha hao b hb hbo => ?_⟩
      · have hm := h c List.mem_cons_self hco b (List.mem_cons_of_mem c hb) hbo
        rw [before_cons, if_pos rfl] at hm
        cases hm
      · have hm := h a (List.mem_cons_of_mem c ha) hao b (List.mem_cons_of_mem c hb) hbo
        rw [before_cons] at hm
        split at hm
        · cases hm
        · exact (List.mem_cons.mp hm).resolve_left fun hbc => hc (hbc ▸ hb)

end Ack

open Ack

variable [Platform]

/-! ## Rings and groups of acknowledged peers -/

/-- The ring holds the peers of these acknowledgements, each under the key of the ID he has given. -/
def Ring.Files (r : Ring) (acks : Set Ack) : Prop :=
  ∀ k p, r.ring.find? k = some p ↔ ∃ a ∈ acks, k = r.createKey a.peerId ∧ p = a.emitter

/-- A group with the members who have acknowledged it, and these peers in its rings. -/
structure Group.Files (gid : Bytes) (acks : List Ack) (inside : Set Ack) (g : Group) : Prop where
  id : g.id = gid
  peers : ∀ id p, g.peers.find? id = some p ↔ ∃ a ∈ acks, a.groupId = gid ∧ id = a.peerId ∧ p = a.emitter
  predecessors : g.predecessors = ∅
  successors : g.successors = ∅
  rings : ∀ r ∈ g.rings, r.Files inside

/-- The acknowledgements come from different peers. -/
structure Distinct (acks : List Ack) : Prop where
  once : acks.Nodup
  emitters : ∀ a ∈ acks, ∀ b ∈ acks, a.emitter = b.emitter → a = b
  ids : ∀ a ∈ acks, ∀ b ∈ acks, a.peerId = b.peerId → a = b
  keys : KeysDiffer {id | ∃ a ∈ acks, a.peerId = id}

theorem Distinct.of_subset {acks acks' : List Ack} (h : Distinct acks) (hs : acks' ⊆ acks) (hn : acks'.Nodup) :
    Distinct acks' where
  once := hn
  emitters a ha b hb := h.emitters a (hs ha) b (hs hb)
  ids a ha b hb := h.ids a (hs ha) b (hs hb)
  keys i hi := by
    refine (h.keys i hi).mono ?_
    rintro id ⟨a, ha, rfl⟩
    exact ⟨a, hs ha, rfl⟩

theorem Distinct.sub {acks acks' : List Ack} (h : Distinct acks) (hs : acks'.Sublist acks) : Distinct acks' :=
  h.of_subset hs.subset (hs.nodup h.once)

theorem Distinct.key {acks : List Ack} (h : Distinct acks) {g : Group} {r : Ring} (hr : r ∈ g.rings) {a b : Ack}
    (ha : a ∈ acks) (hb : b ∈ acks) (hk : r.createKey a.peerId = r.createKey b.peerId) : a = b :=
  h.ids a ha b hb (Group.keys_differ h.keys hr ⟨a, ha, rfl⟩ ⟨b, hb, rfl⟩ hk)

namespace Ring

variable {getId : PeerRef → Bytes} {r : Ring} {acks : Set Ack}

theorem Files.congr {acks' : Set Ack} (h : r.Files acks) (he : ∀ a, a ∈ acks ↔ a ∈ acks') : r.Files acks' := by
  intro k p
  rw [h k p]
  simp only [he]

theorem Files.addPeer (h : r.Files acks) {a : Ack} (hid : getId a.emitter = a.peerId)
    (hk : ∀ b ∈ acks, r.createKey a.peerId = r.createKey b.peerId → a = b) :
    (r.addPeer getId a.emitter).Files (insert a acks) := by
  intro k p
  show (r.ring.insert (r.createKey (getId a.emitter)) a.emitter).find? k = some p ↔ _
  rw [hid, OrdMap.find_insert]
  split
  · rename_i hka
    subst hka
    constructor
    · rintro hp
      exact ⟨a, Set.mem_insert a acks, rfl, (Option.some.inj hp).symm⟩
    · rintro ⟨b, rfl | hb, hkb, rfl⟩
      · rfl
      · rw [hk b hb hkb]
  · rename_i hka
    rw [h k p]
    constructor
    · rintro ⟨b, hb, he⟩
      exact ⟨b, Set.mem_insert_of_mem a hb, he⟩
    · rintro ⟨b, rfl | hb, hkb, hp⟩
      · exact absurd hkb hka
      · exact ⟨b, hb, hkb, hp⟩

/-- The members of another group, one by one. -/
theorem Files.addAll {members all : Set Ack} (hm : members ⊆ all) (hid : ∀ a ∈ members, getId a.emitter = a.peerId)
    (he : Set.InjOn Ack.emitter all) (l : List PeerRef) {r : Ring} {acks : Set Ack}
    (hk : ∀ a ∈ all, ∀ b ∈ all, r.createKey a.peerId = r.createKey b.peerId → a = b) (hs : acks ⊆ all) (h : r.Files acks)
    (hl : ∀ p ∈ l, ∃ a ∈ members, a.emitter = p) :
    (l.foldl (fun r p => r.addPeer getId p) r).Files (acks ∪ {a | a ∈ members ∧ a.emitter ∈ l}) := by
  let Kept (r : Ring) (acks : Set Ack) : Prop :=
    (∀ a ∈ all, ∀ b ∈ all, r.createKey a.peerId = r.createKey b.peerId → a = b) ∧ acks ⊆ all ∧ r.Files acks
  have hkept : Kept (l.foldl (fun r p => r.addPeer getId p) r)
      (l.foldl (fun acks p => acks ∪ {a | a ∈ members ∧ a.emitter = p}) acks) := by
    refine List.foldl_rel (r := Kept) ⟨hk, hs, h⟩ fun p hp r acks hr => ?_
    obtain ⟨hk, hs, h⟩ := hr
    obtain ⟨a, ha, rfl⟩ := hl p hp
    -- one acknowledgement from each connection
    have hone : acks ∪ {b | b ∈ members ∧ b.emitter = a.emitter} = insert a acks := by
      ext b
      simp only [Set.mem_union, Set.mem_insert_iff, Set.mem_ofPred_eq]
      constructor
      · rintro (hb | ⟨hb, hba⟩)
        · exact Or.inr hb
        · exact Or.inl (he (hm hb) (hm ha) hba)
      · rintro (rfl | hb)
        · exact Or.inr ⟨ha, rfl⟩
        · exact Or.inl hb
    rw [hone]
    exact ⟨hk, Set.insert_subset (hm ha) hs, h.addPeer (hid a ha) fun b hb => hk a (hm ha) b (hs hb)⟩
  rw [foldl_union] at hkept
  refine hkept.2.2.congr fun b => ?_
  simp only [Set.mem_union, Set.mem_ofPred_eq]
  constructor
  · rintro (hb | ⟨p, hp, hb, rfl⟩)
    · exact Or.inl hb
    · exact Or.inr ⟨hb, hp⟩
  · rintro (hb | ⟨hb, hbl⟩)
    · exact Or.inl hb
    · exact Or.inr ⟨_, hbl, hb, rfl⟩

end Ring

namespace Group

variable {getId : PeerRef → Bytes} {gid : Bytes} {acks : List Ack} {inside : Set Ack} {g : Group} {a : Ack}

/-- A member more. -/
theorem Files.addPeer (h : g.Files gid acks inside) (hi : ∀ b ∈ inside, b ∈ acks) (hg : a.groupId = gid)
    (hd : Distinct (acks ++ [a])) (hid : getId a.emitter = a.peerId) :
    (g.addPeer getId a.emitter).Files gid (acks ++ [a]) (insert a inside) := by
  have hlast : a ∈ acks ++ [a] := List.mem_append_right acks (List.mem_singleton_self a)
  have hnew : a ∉ acks := fun ha => (List.nodup_append.mp hd.once).2.2 a ha a (List.mem_singleton_self a) rfl
  have hfree : g.peers.find? a.peerId = none := by
    refine Option.eq_none_iff_forall_ne_some.mpr fun p hp => ?_
    obtain ⟨b, hb, -, hab, -⟩ := (h.peers _ p).mp hp
    exact hnew (hd.ids b (List.mem_append_left _ hb) a hlast hab.symm ▸ hb)
  refine ⟨h.id, fun id p => ?_, h.predecessors, h.successors, fun r hr => ?_⟩
  · show (g.peers.insertNew (getId a.emitter) a.emitter).find? id = some p ↔ _
    rw [hid, OrdMap.find_insertNew]
    split
    · rename_i hida
      rw [hida, hfree]
      constructor
      · intro hp
        exact ⟨a, hlast, hg, rfl, (Option.some.inj hp).symm⟩
      · rintro ⟨b, hb, -, hab, rfl⟩
        rw [hd.ids a hlast b hb hab]
        rfl
    · rename_i hida
      rw [h.peers]
      constructor
      · rintro ⟨b, hb, hb'⟩
        exact ⟨b, List.mem_append_left _ hb, hb'⟩
      · rintro ⟨b, hb, hbg, hbid, hp⟩
        rcases List.mem_append.mp hb with hb | hb
        · exact ⟨b, hb, hbg, hbid, hp⟩
        · exact absurd (List.mem_singleton.mp hb ▸ hbid) hida
  · obtain ⟨r', hr', rfl⟩ := List.mem_map.mp hr
    exact (h.rings r' hr').addPeer hid fun b hb => hd.key hr' hlast (List.mem_append_left _ (hi b hb))

/-- A member of another group. -/
theorem Files.other (h : g.Files gid acks inside) (hg : a.groupId ≠ gid) : g.Files gid (acks ++ [a]) inside := by
  refine { h with peers := fun id p => ?_ }
  rw [h.peers]
  constructor
  · rintro ⟨b, hb, hb'⟩
    exact ⟨b, List.mem_append_left _ hb, hb'⟩
  · rintro ⟨b, hb, hbg, hb'⟩
    rcases List.mem_append.mp hb with hb | hb
    · exact ⟨b, hb, hbg, hb'⟩
    · exact absurd (List.mem_singleton.mp hb ▸ hbg) hg

theorem new_files (h : ∀ b ∈ acks, b.groupId ≠ gid) : (Group.new gid).Files gid acks ∅ := by
  refine ⟨rfl, fun id p => ?_, rfl, rfl, fun r hr k p => ?_⟩
  · constructor
    · intro hp
      cases hp
    · rintro ⟨b, hb, hbg, -⟩
      exact absurd hbg (h b hb)
  · obtain ⟨i, -, rfl⟩ := List.mem_map.mp hr
    constructor
    · intro hp
      cases hp
    · rintro ⟨b, hb, -⟩
      exact absurd hb (Set.notMem_empty b)

/-- The members of our own group, as it is. -/
theorem Files.addGroup {own : Bytes} {inside' : Set Ack} {other : Group} (h : g.Files gid acks ∅)
    (ho : other.Files own acks inside') (hd : Distinct acks) (hid : ∀ b ∈ acks, getId b.emitter = b.peerId) :
    (g.addGroupToRings getId other).Files gid acks {b | b ∈ acks ∧ b.groupId = own} := by
  refine { h with rings := fun r hr => ?_ }
  obtain ⟨r', hr', rfl⟩ := List.mem_map.mp hr
  have hvalues : ∀ p, p ∈ other.peers.values ↔ ∃ b ∈ acks, b.groupId = own ∧ p = b.emitter := by
    intro p
    rw [OrdMap.mem_values]
    constructor
    · rintro ⟨id, hp⟩
      obtain ⟨b, hb, hbo, -, hbp⟩ := (ho.peers id p).mp hp
      exact ⟨b, hb, hbo, hbp⟩
    · rintro ⟨b, hb, hbo, hbp⟩
      exact ⟨b.peerId, (ho.peers _ p).mpr ⟨b, hb, hbo, rfl, hbp⟩⟩
  have hsub : {b : Ack | b ∈ acks ∧ b.groupId = own} ⊆ {b : Ack | b ∈ acks} := fun b hb => hb.1
  refine (Ring.Files.addAll hsub (fun b hb => hid b hb.1) (fun b hb c hc => hd.emitters b hb c hc) _
    (fun b hb c hc => hd.key hr' hb hc) (Set.empty_subset _) (h.rings r' hr') fun p hp => ?_).congr fun b => ?_
  · obtain ⟨b, hb, hbo, rfl⟩ := (hvalues p).mp hp
    exact ⟨b, ⟨hb, hbo⟩, rfl⟩
  · simp only [Set.empty_union, Set.mem_ofPred_eq, and_iff_left_iff_imp]
    rintro ⟨hb, hbo⟩
    exact (hvalues _).mpr ⟨b, hb, hbo, rfl⟩

/-- The same peers make the same group. -/
theorem Files.eq {acks' : List Ack} {inside' : Set Ack} {g' : Group} (h : g.Files gid acks inside)
    (h' : g'.Files gid acks' inside') (ha : ∀ a, a ∈ acks ↔ a ∈ acks') (hi : ∀ a, a ∈ inside ↔ a ∈ inside') : g = g' := by
  have hp : g.peers = g'.peers := OrdMap.ext_find fun id => Option.ext fun p => by
    rw [h.peers, h'.peers]
    simp only [ha]
  have hr : g.rings = g'.rings := by
    have : g.rings.map (fun r => r) = g'.rings.map fun r => r := map_rings_congr fun r hr r' hr' hindex => by
      obtain ⟨i, ring⟩ := r
      obtain ⟨i', ring'⟩ := r'
      obtain rfl : i = i' := hindex
      have hring : ring = ring' := OrdMap.ext_find fun k => Option.ext fun p => by
        have h₁ := h.rings _ hr k p
        have h₂ := h'.rings _ hr' k p
        simp only [Ring.createKey, hi] at h₁ h₂
        rw [h₁, h₂]
      rw [hring]
    rwa [List.map_id', List.map_id'] at this
  obtain ⟨id, peers, preds, succs, rings, shape⟩ := g
  obtain ⟨id', peers', preds', succs', rings', shape'⟩ := g'
  obtain rfl : id = id' := h.id.trans h'.id.symm
  obtain rfl : preds = preds' := h.predecessors.trans h'.predecessors.symm
  obtain rfl : succs = succs' := h.successors.trans h'.successors.symm
  cases hp
  cases hr
  rfl

end Group

/-! ## What the acknowledgements leave -/

namespace Membership

variable {own : Bytes} {acks : List Ack} {m : Membership} {a : Ack}

/-- The newcomer has processed these acknowledgements, and had no group before. -/
structure Took (own : Bytes) (acks : List Ack) (m : Membership) : Prop where
  named : ∀ a ∈ acks, m.getId a.emitter = a.peerId
  filed : ∀ gid, m.groups.contains gid = true ↔ ∃ a ∈ acks, a.groupId = gid
  groups : ∀ gid g, m.groups.find? gid = some g →
    g < m.groupCount ∧ (m.group g).Files gid acks {a | Inside own gid acks a}
  localGroup : m.localGroup = m.groups.find? own
  first : acks ≠ [] → ∃ a ∈ acks, a.groupId = own

theorem Took.find (h : m.Took own acks) {gid : Bytes} (hg : ∃ a ∈ acks, a.groupId = gid) :
    ∃ g, m.groups.find? gid = some g := OrdMap.contains_iff.mp ((h.filed gid).mpr hg)

theorem Took.absent (h : m.Took own acks) {gid : Bytes} (hg : m.groups.find? gid = none) :
    ∀ b ∈ acks, b.groupId ≠ gid := fun b hb hbg => by
  obtain ⟨g, hf⟩ := h.find ⟨b, hb, hbg⟩
  cases hg.symm.trans hf

/-- Before the first acknowledgement there is no local group. -/
theorem Took.empty (h : m.Took own acks) (hl : m.localGroup = none) : acks = [] := by
  by_contra hn
  obtain ⟨g, hg⟩ := h.find (h.first hn)
  rw [h.localGroup, hg] at hl
  cases hl

theorem ackGroup_find (m : Membership) (gid id : Bytes) : (m.ackGroup gid).2.groups.find? id =
    if id = gid then some (m.ackGroup gid).1 else m.groups.find? id := by
  unfold ackGroup
  cases hg : m.groups.find? gid with
  | some g =>
    simp only
    split
    · rename_i hid
      rw [hid, hg]
    · rfl
  | none =>
    have hgs : (m.groups.insertNew gid m.groupCount).find? id =
        if id = gid then some m.groupCount else m.groups.find? id := by
      rw [OrdMap.find_insertNew, hg]
      by_cases hid : id = gid
      · rw [if_pos hid, if_pos hid]
        rfl
      · rw [if_neg hid, if_neg hid]
    cases m.localGroup <;> exact hgs

/-- The group of an acknowledgement: the group there is, or a new one with our members. -/
theorem Took.place (h : m.Took own acks) (hd : Distinct (acks ++ [a])) (hf : acks = [] → a.groupId = own) :
    ∃ inside : Set Ack, (∀ b, Inside own a.groupId (acks ++ [a]) b ↔ b = a ∨ b ∈ inside) ∧ (∀ b ∈ inside, b ∈ acks) ∧
      (m.ackGroup a.groupId).1 < (m.ackGroup a.groupId).2.groupCount ∧
      m.groupCount ≤ (m.ackGroup a.groupId).2.groupCount ∧
      ((m.ackGroup a.groupId).2.group (m.ackGroup a.groupId).1).Files a.groupId acks inside ∧
      (∀ gid g, gid ≠ a.groupId → m.groups.find? gid = some g → g ≠ (m.ackGroup a.groupId).1) ∧
      (m.ackGroup a.groupId).2.localGroup = (m.ackGroup a.groupId).2.groups.find? own := by
  cases hg : m.groups.find? a.groupId with
  | some g =>
    have hack : m.ackGroup a.groupId = (g, m) := by simp only [ackGroup, hg]
    obtain ⟨hlt, hfiles⟩ := h.groups _ g hg
    have hknown := (h.filed a.groupId).mp (OrdMap.contains_iff.mpr ⟨g, hg⟩)
    rw [hack]
    refine ⟨{b | Inside own a.groupId acks b}, fun b => ?_, fun b => inside_mem, hlt, Nat.le_refl _, hfiles,
      fun gid g' hne hg' hgg => hne ?_, h.localGroup⟩
    · rw [inside_known hknown]
      simp
    · rw [← (h.groups gid g' hg').2.id, hgg, hfiles.id]
  | none =>
    have habsent := h.absent hg
    have hdone : Distinct acks := hd.sub (List.sublist_append_left acks [a])
    have hone : (m.ackGroup a.groupId).1 = m.groupCount := by simp only [ackGroup, hg]
    have hcount : (m.ackGroup a.groupId).2.groupCount = m.groupCount + 1 := by
      simp only [ackGroup, hg]
      cases m.localGroup <;> rfl
    have hnew : (Group.new a.groupId).Files a.groupId acks ∅ := Group.new_files habsent
    refine ⟨{b | b ∈ acks ∧ b.groupId = own}, fun b => inside_new habsent, fun b => And.left, ?_, ?_, ?_,
      fun gid g _ hg' hgg => ?_, ?_⟩
    · rw [hone, hcount]
      exact Nat.lt_succ_self _
    · rw [hcount]
      exact Nat.le_succ _
    · rw [hone]
      cases hl : m.localGroup with
      | none =>
        obtain rfl := h.empty hl
        have hgroup : (m.ackGroup a.groupId).2.group m.groupCount = Group.new a.groupId := by
          simp only [ackGroup, hg, hl]
          exact createGroup_self m a.groupId
        rw [hgroup]
        exact { hnew with rings := fun r hr => (hnew.rings r hr).congr fun b => by simp }
      | some l =>
        have hlocal : m.groups.find? own = some l := h.localGroup.symm.trans hl
        obtain ⟨hlt, hfiles⟩ := h.groups own l hlocal
        have hgroup : (m.ackGroup a.groupId).2.group m.groupCount =
            (Group.new a.groupId).addGroupToRings m.getId (m.group l) := by
          simp only [ackGroup, hg, hl]
          rw [modGroup_self, createGroup_self, createGroup_of_ne (Nat.ne_of_lt hlt)]
        rw [hgroup]
        exact hnew.addGroup hfiles hdone h.named
    · rw [hone] at hgg
      exact absurd hgg (Nat.ne_of_lt (h.groups gid g hg').1)
    · rw [ackGroup_find, hone]
      cases hl : m.localGroup with
      | none =>
        obtain rfl := h.empty hl
        rw [if_pos (hf rfl).symm]
        simp only [ackGroup, hg, hl]
      | some l =>
        have hlocal : m.groups.find? own = some l := h.localGroup.symm.trans hl
        have hne : own ≠ a.groupId := by
          rintro rfl
          cases hg.symm.trans hlocal
        rw [if_neg hne, hlocal]
        simp only [ackGroup, hg, hl]
        exact hl

/-- One more acknowledgement. -/
theorem Took.take (h : m.Took own acks) (hd : Distinct (acks ++ [a])) (hf : acks = [] → a.groupId = own) :
    (m.apply (.acked a.emitter a.groupId a.peerId a.pubK)).Took own (acks ++ [a]) := by
  obtain ⟨inside, hin, hsub, hlt, hmono, hfiles, hne, hlocal⟩ := h.place hd hf
  have hlast : a ∈ acks ++ [a] := List.mem_append_right acks (List.mem_singleton_self a)
  have hids : (m.apply (.acked a.emitter a.groupId a.peerId a.pubK)).getId = m.renamed a.emitter a.peerId := by
    rw [Membership.apply, ackPeer_ids, renamed, (ackGroup_ids m a.groupId).1, renamed]
  have hgroup : ∀ g, (m.apply (.acked a.emitter a.groupId a.peerId a.pubK)).group g =
      if g = (m.ackGroup a.groupId).1
      then ((m.ackGroup a.groupId).2.group g).addPeer (m.renamed a.emitter a.peerId) a.emitter
      else (m.ackGroup a.groupId).2.group g := by
    intro g
    rw [Membership.apply, ackPeer_group, renamed, (ackGroup_ids m a.groupId).1, renamed]
  have hgroups : (m.apply (.acked a.emitter a.groupId a.peerId a.pubK)).groups = (m.ackGroup a.groupId).2.groups := rfl
  have hself : m.renamed a.emitter a.peerId a.emitter = a.peerId := Function.update_self ..
  refine ⟨fun b hb => ?_, fun gid => ?_, fun gid g hg => ?_, hlocal, fun _ => ?_⟩
  · rw [hids]
    rcases List.mem_append.mp hb with hb | hb
    · rcases renamed_cases m a.emitter b.emitter a.peerId with hn | ⟨he, hn⟩
      · rw [hn, h.named b hb]
      · rw [hn, hd.emitters b (List.mem_append_left _ hb) a hlast he]
    · rw [List.mem_singleton.mp hb, hself]
  · rw [hgroups, OrdMap.contains, ackGroup_find]
    split
    · rename_i hgid
      exact ⟨fun _ => ⟨a, hlast, hgid.symm⟩, fun _ => rfl⟩
    · rename_i hgid
      rw [← OrdMap.contains, h.filed gid]
      constructor
      · rintro ⟨b, hb, hbg⟩
        exact ⟨b, List.mem_append_left _ hb, hbg⟩
      · rintro ⟨b, hb, hbg⟩
        rcases List.mem_append.mp hb with hb | hb
        · exact ⟨b, hb, hbg⟩
        · exact absurd (List.mem_singleton.mp hb ▸ hbg).symm hgid
  · rw [hgroups, ackGroup_find] at hg
    rw [hgroup]
    split at hg
    · rename_i hgid
      cases hg
      subst hgid
      rw [if_pos rfl]
      have hfiles := hfiles.addPeer hsub rfl hd hself
      exact ⟨hlt, { hfiles with rings := fun r hr => (hfiles.rings r hr).congr fun b => (hin b).symm }⟩
    · rename_i hgid
      obtain ⟨hlt', hfiles'⟩ := h.groups gid g hg
      rw [if_neg (hne gid g hgid hg), ackGroup_old hlt']
      have hother : a.groupId ≠ gid := Ne.symm hgid
      have hknown := (h.filed gid).mp (OrdMap.contains_iff.mpr ⟨g, hg⟩)
      have hsame : ∀ b, Inside own gid acks b ↔ Inside own gid (acks ++ [a]) b := fun b => by
        rw [inside_known hknown]
        exact ⟨Or.inr, fun hb => hb.resolve_left fun hb => hother hb.2⟩
      exact ⟨Nat.lt_of_lt_of_le hlt' hmono,
        { hfiles'.other hother with rings := fun r hr => (hfiles'.rings r hr).congr hsame }⟩
  · rcases List.eq_nil_or_concat acks with rfl | ⟨l, b, rfl⟩
    · exact ⟨a, hlast, hf rfl⟩
    · obtain ⟨b, hb, hbo⟩ := h.first (by simp)
      exact ⟨b, List.mem_append_left _ hb, hbo⟩

end Membership

namespace Network

/-- The newcomer processes an acknowledgement. -/
def takeAck (s : Network) (a : Ack) : Except Stop Network := s.process a.message a.emitter none

def takeAcks (s : Network) (acks : List Ack) : Except Stop Network := acks.foldlM takeAck s

/-- The group that a marker leads to: the first one that asks for it. -/
def claimant (own : Bytes) (acks : List Ack) (marker : Bytes) : Option Bytes :=
  (acks.find? fun a => decide (markerOf own a.groupId = marker)).map Ack.groupId

/-- The same groups, whatever objects they are: members, neighbours and rings. -/
structure SameGroups (s s' : Network) : Prop where
  groups : ∀ gid, (s.groups.find? gid).map s.group = (s'.groups.find? gid).map s'.group
  localGroup : s.localGroup.map s.group = s'.localGroup.map s'.group
  markers : s.channelMarkers = s'.channelMarkers

/-- In the rings of every group there are all its acknowledged members, and all of ours. -/
def Complete (own : Bytes) (acks : List Ack) (s : Network) : Prop :=
  ∀ gid g, s.groups.find? gid = some g → ∀ a ∈ acks, a.groupId = own ∨ a.groupId = gid →
    ∀ r ∈ (s.group g).rings, r.ring.find? (r.createKey a.peerId) = some a.emitter

variable {own : Bytes} {acks acks' : List Ack} {s t t' : Network} {a : Ack}

/-! ### Markers -/

theorem claimant_append (own : Bytes) (acks : List Ack) (a : Ack) (marker : Bytes) :
    claimant own (acks ++ [a]) marker =
      (claimant own acks marker).or (if markerOf own a.groupId = marker then some a.groupId else none) := by
  rw [claimant, List.find?_append, Option.map_or, ← claimant]
  congr 1
  rw [List.find?_singleton]
  by_cases hm : markerOf own a.groupId = marker
  · simp [hm]
  · simp [hm]

theorem claimant_none {marker : Bytes} (h : claimant own acks marker = none) :
    ∀ b ∈ acks, markerOf own b.groupId ≠ marker := by
  intro b hb hm
  rw [claimant, Option.map_eq_none_iff] at h
  exact List.find?_eq_none.mp h b hb (decide_eq_true hm)

theorem claimant_some {marker gid : Bytes} (h : claimant own acks marker = some gid) :
    ∃ a ∈ acks, markerOf own a.groupId = marker ∧ a.groupId = gid := by
  obtain ⟨a, ha, rfl⟩ := Option.map_eq_some_iff.mp h
  have hm := List.find?_some ha
  exact ⟨a, List.mem_of_find?_eq_some ha, of_decide_eq_true hm, rfl⟩

/-- The markers there were stay, and a group that is made gets its own if that is free. -/
def MarkersOf (s : Network) (own : Bytes) (acks : List Ack) (t : Network) : Prop :=
  ∀ k, t.channelMarkers.find? k = (s.channelMarkers.find? k).or (claimant own acks k)

theorem MarkersOf.take (hm : s.MarkersOf own acks t) (h : t.Took own acks) (hf : acks = [] → a.groupId = own)
    (ht : t.takeAck a = .ok t') : s.MarkersOf own (acks ++ [a]) t' := by
  intro k
  have hlog : t'.channelMarkers.find? k = (t.hisGroup a.groupId).2.channelMarkers.find? k :=
    ((logMessage_logs ht).markers k).resolve_right fun hb => by cases hb.2.1
  rw [hlog, claimant_append]
  cases hg : t.groups.find? a.groupId with
  | some g =>
    have hsame : (t.hisGroup a.groupId).2 = t := by simp only [hisGroup, hg]
    rw [hsame, hm k]
    cases hc : claimant own acks k with
    | some gid => rfl
    | none =>
      -- its group has asked for the marker before
      obtain ⟨b, hb, hbg⟩ := (h.filed a.groupId).mp (OrdMap.contains_iff.mpr ⟨g, hg⟩)
      rw [if_neg (hbg ▸ claimant_none hc b hb)]
      rfl
  | none =>
    have hown : (t.localGroup.map fun l => (t.group l).id).getD a.groupId = own := by
      cases hl : t.localGroup with
      | none => exact hf (h.empty hl)
      | some l => exact (h.groups own l (h.localGroup.symm.trans hl)).2.id
    rw [hisGroup_markers (fun l hl => (h.groups own l (h.localGroup.symm.trans hl)).1) hg, hown, OrdMap.find_insertNew]
    split
    · rename_i hk
      rw [if_pos hk.symm, ← hk, hm k]
      cases s.channelMarkers.find? k with
      | some gid => rfl
      | none => cases claimant own acks k <;> rfl
    · rename_i hk
      rw [if_neg (Ne.symm hk), Option.or_none]
      exact hm k

/-! ### All of them -/

theorem takeAck_total (t : Network) (a : Ack) : ∃ t', t.takeAck a = .ok t' :=
  logMessage_total a.emitter fun marker _ hb => by cases hb

theorem takes (hd : Distinct acks) : ∀ (rest done : List Ack) {t : Network}, done ++ rest = acks → t.Took own done →
    s.MarkersOf own done t → (∀ a, rest.head? = some a → done = [] → a.groupId = own) →
      ∃ t', t.takeAcks rest = .ok t' ∧ t'.Took own acks ∧ s.MarkersOf own acks t' := by
  intro rest
  induction rest with
  | nil =>
    intro done t he h hm _
    rw [List.append_nil] at he
    exact ⟨t, rfl, he ▸ h, he ▸ hm⟩
  | cons a rest ih =>
    intro done t he h hm hf
    have hf := hf a rfl
    obtain ⟨t', ht⟩ := t.takeAck_total a
    have he' : (done ++ [a]) ++ rest = acks := by
      rw [List.append_assoc, List.singleton_append]
      exact he
    have hd' : Distinct (done ++ [a]) := hd.sub (he' ▸ List.sublist_append_left _ _)
    have h' : t'.Took own (done ++ [a]) := by
      rw [processJoinAck_membership (s := t) (m := a.message) ht]
      exact h.take hd' hf
    obtain ⟨u, hu, hrest⟩ := ih (done ++ [a]) he' h' (hm.take h hf ht) fun b _ hn => by simp at hn
    refine ⟨u, ?_, hrest⟩
    rw [takeAcks, List.foldlM_cons, ht, ok_bind]
    exact hu

/-- A newcomer processes them all, in any order. -/
theorem newcomer_takes (hs : Reachable s) (hl : s.localGroup = none) (hd : Distinct acks)
    (hf : ∀ a, acks.head? = some a → a.groupId = own) :
    ∃ t, s.takeAcks acks = .ok t ∧ t.Took own acks ∧ s.MarkersOf own acks t := by
  have hg := (hs.sound.alone hl).1
  refine takes hd acks [] rfl
    ⟨fun a ha => absurd ha List.not_mem_nil, fun gid => ?_, fun gid g hf => ?_, ?_, fun hn => absurd rfl hn⟩
    (fun k => ?_) fun a ha _ => hf a ha
  · rw [hg]
    exact ⟨fun hc => absurd hc Bool.false_ne_true, fun ⟨a, ha, _⟩ => absurd ha List.not_mem_nil⟩
  · rw [hg] at hf
    cases hf
  · rw [hl, hg]
    rfl
  · exact (Option.or_none).symm

/-! ## Complete rings -/

/-- The rings of all channels are complete exactly when our own members have come first. -/
theorem complete_iff (h : t.Took own acks) (hd : Distinct acks) : t.Complete own acks ↔ OwnFirst own acks := by
  rw [ownFirst_iff hd.once]
  constructor
  · intro hc a ha hao b hb hbo
    obtain ⟨g, hg⟩ := h.find ⟨a, ha, rfl⟩
    obtain ⟨r, hr, -⟩ := (t.group g).ring_at (i := 0) (by decide)
    obtain ⟨c, hin, hk, -⟩ := (((h.groups _ g hg).2.rings r hr) _ _).mp (hc _ g hg b hb (Or.inl hbo) r hr)
    rw [← hd.key hr hb (inside_mem hin) hk] at hin
    rcases hin with ⟨-, hba⟩ | ⟨hin, -⟩
    · exact absurd (hba.symm.trans hbo) hao
    · exact hin
  · intro hc gid g hg a ha hag r hr
    refine ((h.groups gid g hg).2.rings r hr _ _).mpr ⟨a, ?_, rfl, rfl⟩
    rcases hag with hao | hag
    · by_cases hgo : gid = own
      · exact Or.inl ⟨ha, hao.trans hgo.symm⟩
      · obtain ⟨b, hb, rfl⟩ := (h.filed gid).mp (OrdMap.contains_iff.mpr ⟨g, hg⟩)
        exact Or.inr ⟨hc b hb hgo a ha hao, hao⟩
    · exact Or.inl ⟨ha, hag⟩

omit [Platform] in
theorem inside_complete (hn : acks.Nodup) (h : OwnFirst own acks) {gid : Bytes} (hg : ∃ b ∈ acks, b.groupId = gid) :
    Inside own gid acks a ↔ a ∈ acks ∧ (a.groupId = gid ∨ a.groupId = own) := by
  constructor
  · rintro (⟨ha, hag⟩ | ⟨ha, hao⟩)
    · exact ⟨ha, Or.inl hag⟩
    · exact ⟨mem_of_before ha, Or.inr hao⟩
  · rintro ⟨ha, hag | hao⟩
    · exact Or.inl ⟨ha, hag⟩
    · obtain ⟨b, hb, rfl⟩ := hg
      by_cases hbo : b.groupId = own
      · exact Or.inl ⟨ha, hao.trans hbo.symm⟩
      · exact Or.inr ⟨(ownFirst_iff hn).mp h b hb hbo a ha hao, hao⟩

/-- Complete rings are the same in any order. -/
theorem took_same (h : t.Took own acks) (h' : t'.Took own acks') (hd : Distinct acks) (hd' : Distinct acks')
    (hp : ∀ a, a ∈ acks ↔ a ∈ acks') (ho : OwnFirst own acks) (ho' : OwnFirst own acks')
    (hm : t.channelMarkers = t'.channelMarkers) : t.SameGroups t' := by
  have groups : ∀ gid, (t.groups.find? gid).map t.group = (t'.groups.find? gid).map t'.group := by
    intro gid
    by_cases hg : ∃ a ∈ acks, a.groupId = gid
    · have hg' : ∃ a ∈ acks', a.groupId = gid := hg.imp fun a ha => ⟨(hp a).mp ha.1, ha.2⟩
      obtain ⟨g, hf⟩ := h.find hg
      obtain ⟨g', hf'⟩ := h'.find hg'
      rw [hf, hf', Option.map_some, Option.map_some]
      refine congrArg some ((h.groups gid g hf).2.eq (h'.groups gid g' hf').2 hp fun a => ?_)
      show Inside own gid acks a ↔ Inside own gid acks' a
      rw [inside_complete hd.once ho hg, inside_complete hd'.once ho' hg', hp]
    · have hg' : ¬ ∃ a ∈ acks', a.groupId = gid := fun hc => hg (hc.imp fun a ha => ⟨(hp a).mpr ha.1, ha.2⟩)
      have hf : t.groups.find? gid = none := by
        rw [← OrdMap.not_contains_iff, ← Bool.not_eq_true, h.filed]
        exact hg
      have hf' : t'.groups.find? gid = none := by
        rw [← OrdMap.not_contains_iff, ← Bool.not_eq_true, h'.filed]
        exact hg'
      rw [hf, hf']
      rfl
  exact ⟨groups, by rw [h.localGroup, h'.localGroup]; exact groups own, hm⟩

/-! ## Two orders -/

/-- Groups with IDs of the full length ask for different markers. -/
theorem claimant_same (hp : ∀ a, a ∈ acks ↔ a ∈ acks') (hf : ∃ a ∈ acks, a.groupId = own)
    (hlen : ∀ a ∈ acks, a.groupId.length = GROUP_ID_LENGTH)
    (hi : Set.InjOn makeHash {x | ∃ a ∈ acks, ∃ b ∈ acks, x = a.groupId ++ b.groupId}) (k : Bytes) :
    claimant own acks k = claimant own acks' k := by
  obtain ⟨o, ho, rfl⟩ := hf
  have pair : ∀ a ∈ acks, pairOf o.groupId a.groupId ∈
      {x | ∃ a ∈ acks, ∃ b ∈ acks, x = a.groupId ++ b.groupId} := fun a ha => by
    unfold pairOf
    split
    · exact ⟨o, ho, a, ha, rfl⟩
    · exact ⟨a, ha, o, ho, rfl⟩
  have differ : ∀ a ∈ acks, ∀ b ∈ acks, markerOf o.groupId a.groupId = markerOf o.groupId b.groupId →
      a.groupId = b.groupId := fun a ha b hb hm => by
    rw [markerOf_pair, markerOf_pair] at hm
    rcases pairOf_eq (hlen o ho) (hlen a ha) (hlen o ho) (hlen b hb) (hi (pair a ha) (pair b hb) hm) with h | h
    · exact h.2
    · exact h.2.trans h.1
  cases hc : claimant o.groupId acks k with
  | none =>
    cases hc' : claimant o.groupId acks' k with
    | none => rfl
    | some gid =>
      obtain ⟨b, hb, hm, -⟩ := claimant_some hc'
      exact absurd hm (claimant_none hc b ((hp b).mpr hb))
  | some gid =>
    obtain ⟨a, ha, hm, rfl⟩ := claimant_some hc
    cases hc' : claimant o.groupId acks' k with
    | none => exact absurd hm (claimant_none hc' a ((hp a).mp ha))
    | some gid' =>
      obtain ⟨b, hb, hm', rfl⟩ := claimant_some hc'
      exact congrArg some (differ a ha b ((hp b).mpr hb) (hm.trans hm'.symm))

theorem Distinct.perm (hd : Distinct acks) (hp : acks.Perm acks') : Distinct acks' :=
  hd.of_subset hp.symm.subset (hp.nodup hd.once)

omit [Platform] in
theorem distinct_of_lists {P : Platform} {acks : List Ack} (he : (acks.map Ack.emitter).Nodup)
    (hk : ∀ i < RINGS_NB, (acks.map fun a => makeHash (a.peerId ++ itos i)).Nodup) : Distinct acks := by
  have keys : ∀ i < RINGS_NB, ∀ a ∈ acks, ∀ b ∈ acks, makeHash (a.peerId ++ itos i) = makeHash (b.peerId ++ itos i) →
      a = b := fun i hi a ha b hb h => List.inj_on_of_nodup_map (hk i hi) ha hb h
  refine ⟨he.of_map _, fun a ha b hb => List.inj_on_of_nodup_map he ha hb, fun a ha b hb h => ?_, fun i hi => ?_⟩
  · exact keys 0 (by decide) a ha b hb (by rw [h])
  · rintro _ ⟨a, ha, rfl⟩ _ ⟨b, hb, rfl⟩ h
    rw [keys i hi a ha b hb h]

/-- Two orders of the same acknowledgements, both begun by a member of our group, make the
    same groups with complete rings exactly when in both our members come first; and where
    groups compete for a marker, they do it in the same order. -/
theorem acks_commute_iff (hs : Reachable s) (hl : s.localGroup = none) {first first' : Ack} {rest rest' : List Ack}
    (hp : (first :: rest).Perm (first' :: rest')) (hf : first'.groupId = first.groupId) (hd : Distinct (first :: rest)) :
    ∃ t t', s.takeAcks (first :: rest) = .ok t ∧ s.takeAcks (first' :: rest') = .ok t' ∧
      (t.SameGroups t' ∧ t.Complete first.groupId (first :: rest) ∧ t'.Complete first.groupId (first' :: rest') ↔
        OwnFirst first.groupId (first :: rest) ∧ OwnFirst first.groupId (first' :: rest') ∧
          ∀ k, s.channelMarkers.find? k = none →
            claimant first.groupId (first :: rest) k = claimant first.groupId (first' :: rest') k) ∧
      ((∀ a ∈ first :: rest, a.groupId.length = GROUP_ID_LENGTH) →
        Set.InjOn makeHash {x | ∃ a ∈ first :: rest, ∃ b ∈ first :: rest, x = a.groupId ++ b.groupId} →
          ∀ k, claimant first.groupId (first :: rest) k = claimant first.groupId (first' :: rest') k) := by
  have hd' := Distinct.perm hd hp
  have hown : ∀ a, (first :: rest).head? = some a → a.groupId = first.groupId := fun a ha => by cases ha; rfl
  have hown' : ∀ a, (first' :: rest').head? = some a → a.groupId = first.groupId := fun a ha => by cases ha; exact hf
  obtain ⟨t, ht, took, marks⟩ := newcomer_takes hs hl hd hown
  obtain ⟨t', ht', took', marks'⟩ := newcomer_takes hs hl hd' hown'
  refine ⟨t, t', ht, ht', ⟨?_, ?_⟩, fun hlen hi => claimant_same (fun a => hp.mem_iff) ⟨first, List.mem_cons_self, rfl⟩
    hlen hi⟩
  · rintro ⟨hsame, hc, hc'⟩
    refine ⟨(complete_iff took hd).mp hc, (complete_iff took' hd').mp hc', fun k hk => ?_⟩
    have h := marks k
    rw [hsame.markers, marks' k, hk, Option.none_or, Option.none_or] at h
    exact h.symm
  · rintro ⟨ho, ho', hk⟩
    refine ⟨took_same took took' hd hd' (fun a => hp.mem_iff) ho ho' (OrdMap.ext_find fun k => ?_),
      (complete_iff took hd).mpr ho, (complete_iff took' hd').mpr ho'⟩
    rw [marks, marks']
    cases hm : s.channelMarkers.find? k with
    | none => rw [hk k hm]
    | some gid => rfl

omit [Platform] in
/-- Both members of our group come before the one of another group, in either order. -/
theorem acks_commute_iff_three :
    let a : Ack := ⟨idOf 1, 1, idOf 200, idOf 65, []⟩
    let b : Ack := ⟨idOf 2, 2, idOf 199, idOf 66, []⟩
    let c : Ack := ⟨idOf 3, 3, idOf 200, idOf 67, []⟩
    ∃ s t t', @Reachable sha1 s ∧ s.localGroup = none ∧ @takeAcks sha1 s [a, c, b] = .ok t ∧
      @takeAcks sha1 s [c, a, b] = .ok t' ∧ t.SameGroups t' ∧ @Complete sha1 (idOf 200) [a, c, b] t := by
  intro a b c
  have hrun : @leadsTo sha1 (fun _ _ => True) _ node [.join [] [] (some [9]), .accept [8], .accept [7]]
      (fun s => decide (s.localGroup = none)) = true := by
    decide +kernel
  obtain ⟨s, hs, hl⟩ := @reach_of_leadsTo sha1 _ _ _ _ _ _ _ _ hrun
  have hl := of_decide_eq_true hl
  have hd : @Distinct sha1 [a, c, b] := distinct_of_lists (by decide) (by decide +kernel)
  obtain ⟨t, t', ht, ht', h, hm⟩ := @acks_commute_iff sha1 s hs hl a c [c, b] [a, b] (by decide) rfl hd
  have hi : Set.InjOn (@makeHash sha1) {x | ∃ a' ∈ [a, c, b], ∃ b' ∈ [a, c, b], x = a'.groupId ++ b'.groupId} := by
    have hn : ([idOf 200 ++ idOf 200, idOf 200 ++ idOf 199, idOf 199 ++ idOf 200, idOf 199 ++ idOf 199].map
        (@makeHash sha1)).Nodup := by
      decide +kernel
    have hmem : ∀ a' ∈ [a, c, b], ∀ b' ∈ [a, c, b], a'.groupId ++ b'.groupId ∈
        [idOf 200 ++ idOf 200, idOf 200 ++ idOf 199, idOf 199 ++ idOf 200, idOf 199 ++ idOf 199] := by
      decide
    rintro _ ⟨x, hx, y, hy, rfl⟩ _ ⟨z, hz, w, hw, rfl⟩ he
    exact List.inj_on_of_nodup_map hn (hmem x hx y hy) (hmem z hz w hw) he
  obtain ⟨hsame, hc, -⟩ := h.mpr ⟨by decide, by decide, fun k _ => hm (by decide) hi k⟩
  exact ⟨s, t, t', hs, hl, ht, ht', hsame, hc⟩

omit [Platform] in
/-- A member of our group acknowledges after one of another group. -/
theorem late_member_left_out : ¬ ∀ s, @Reachable sha1 s → s.localGroup = none → ∀ first first' rest rest',
    (first :: rest).Perm (first' :: rest') → first'.groupId = first.groupId → @Distinct sha1 (first :: rest) →
      ∀ t t', @takeAcks sha1 s (first :: rest) = .ok t → @takeAcks sha1 s (first' :: rest') = .ok t' →
        t.SameGroups t' ∧ @Complete sha1 first.groupId (first :: rest) t ∧
          @Complete sha1 first.groupId (first' :: rest') t' := by
  intro hall
  let a : Ack := ⟨idOf 1, 1, idOf 200, idOf 65, []⟩
  let b : Ack := ⟨idOf 2, 2, idOf 199, idOf 66, []⟩
  let c : Ack := ⟨idOf 3, 3, idOf 200, idOf 67, []⟩
  have hrun : @leadsTo sha1 (fun _ _ => True) _ node [.join [] [] (some [9]), .accept [8], .accept [7]]
      (fun s => decide (s.localGroup = none ∧ (@takeAcks sha1 s [a, b, c]).toOption.any (fun t =>
        decide (t.groups.find? (idOf 199) = some 1 ∧ ∀ r ∈ (t.group 1).rings,
          r.ring.find? (@Ring.createKey sha1 r (idOf 67)) = none)) = true)) = true := by
    decide +kernel
  obtain ⟨s, hs, hl⟩ := @reach_of_leadsTo sha1 _ _ _ _ _ _ _ _ hrun
  obtain ⟨hl, hany⟩ := of_decide_eq_true hl
  have hd : @Distinct sha1 [a, b, c] := distinct_of_lists (by decide) (by decide +kernel)
  obtain ⟨t', ht', -⟩ := @newcomer_takes sha1 (idOf 200) [a, c, b] s hs hl (@Distinct.perm sha1 _ _ hd (by decide))
    fun a' ha => by cases ha; rfl
  obtain ⟨t, ht, -⟩ := @newcomer_takes sha1 (idOf 200) [a, b, c] s hs hl hd fun a' ha => by cases ha; rfl
  rw [ht] at hany
  obtain ⟨hg, hr⟩ := of_decide_eq_true hany
  obtain ⟨-, hc, -⟩ := hall s hs hl a a [b, c] [c, b] (by decide) rfl hd t t' ht ht'
  obtain ⟨r, hmem, -⟩ := (t.group 1).ring_at (i := 0) (by decide)
  have h := hc (idOf 199) 1 hg c (by decide) (Or.inl rfl) r hmem
  rw [show c.peerId = idOf 67 from rfl, hr r hmem] at h
  cases h

end Network

end RacKun
