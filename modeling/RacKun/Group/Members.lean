/-
  RacKun.Group.Members — a group whose rings hold exactly the peers with certain IDs.

  Who follows whom in a ring then depends on the IDs alone, not on who looks: two nodes
  with the same members agree on it (`Group.next_congr`), so the successors of one and
  the predecessors of the other are the same relation (`neighbours_spec`).
-/

import Mathlib.Data.Set.Function
import RacKun.Group.Group

namespace RacKun

open Lib (OrdMap bind_ok ok_bind)

variable [Platform]

/-- In none of the rings `make_hash` gives two of these IDs the same key. -/
def KeysDiffer (ids : Set Bytes) : Prop := ∀ i < RINGS_NB, Set.InjOn (fun id => makeHash (id ++ itos i)) ids

omit [Platform] in
/-- What is added one after the other is added together. -/
theorem foldl_union {α β : Type} (S : α → Set β) (l : List α) : ∀ s : Set β,
    l.foldl (fun s a => s ∪ S a) s = s ∪ {b | ∃ a ∈ l, b ∈ S a} := by
  induction l with
  | nil => intro s; simp
  | cons a l ih =>
    intro s
    rw [List.foldl_cons, ih]
    ext b
    simp only [Set.mem_union, Set.mem_ofPred_eq, List.mem_cons, exists_eq_or_imp]
    exact or_assoc

namespace Ring

/-- The peers with these IDs, each under his key. -/
structure Holds (getId : PeerRef → Bytes) (r : Ring) (ids : Set Bytes) : Prop where
  keyed : ∀ e ∈ r.ring.entries, getId e.2 ∈ ids ∧ e.1 = r.createKey (getId e.2)
  held : ∀ id ∈ ids, r.ring.contains (r.createKey id) = true

theorem Holds.entry {getId : PeerRef → Bytes} {r : Ring} {ids : Set Bytes} (h : r.Holds getId ids) {k : Bytes}
    {p : PeerRef} (he : (k, p) ∈ r.ring.entries) : getId p ∈ ids ∧ k = r.createKey (getId p) := h.keyed (k, p) he

/-- The peer with ID `b` comes right after the one with ID `a`. -/
def Next (r : Ring) (a b : Bytes) : Prop := ∃ q, r.ring.succ? (r.createKey a) = some (r.createKey b, q)

variable {getId : PeerRef → Bytes} {r : Ring} {ids : Set Bytes}

theorem Holds.mem_keys (h : r.Holds getId ids) {k : Bytes} : k ∈ r.ring.keys ↔ ∃ id ∈ ids, k = r.createKey id := by
  rw [OrdMap.mem_keys]
  constructor
  · rintro ⟨p, hp⟩
    obtain ⟨hm, hk⟩ := h.entry (OrdMap.mem_entries.mpr hp)
    exact ⟨getId p, hm, hk⟩
  · rintro ⟨id, hm, rfl⟩
    exact OrdMap.contains_iff.mp (h.held id hm)

theorem next_iff {a b : Bytes} : r.Next a b ↔
    (r.ring.succ? (r.createKey a)).map Prod.fst = some (r.createKey b) := by
  simp only [Next, Option.map_eq_some_iff, Prod.exists, exists_and_right, exists_eq_right]

/-- Two rings with the same index and the same members have the same order. -/
theorem next_congr {getId' : PeerRef → Bytes} {r' : Ring} (h : r.Holds getId ids) (h' : r'.Holds getId' ids)
    (hi : r.index = r'.index) {a b : Bytes} : r.Next a b ↔ r'.Next a b := by
  have hk : r.createKey = r'.createKey := funext fun id => by rw [createKey, hi, createKey]
  have hm : ∀ k, k ∈ r.ring.keys ↔ k ∈ r'.ring.keys := fun k => by rw [h.mem_keys, h'.mem_keys, hk]
  rw [next_iff, next_iff, hk, OrdMap.succ_key_congr hm]

theorem next_unique (hd : Set.InjOn r.createKey ids) {a b c : Bytes} (hb : b ∈ ids) (hc : c ∈ ids) (h₁ : r.Next a b)
    (h₂ : r.Next a c) : b = c :=
  hd hb hc (Option.some.inj ((next_iff.mp h₁).symm.trans (next_iff.mp h₂)))

/-- Each member is found under his key. -/
theorem Holds.find (h : r.Holds getId ids) (hd : Set.InjOn r.createKey ids) {id : Bytes} (hm : id ∈ ids) :
    ∃ p, r.ring.find? (r.createKey id) = some p ∧ getId p = id := by
  obtain ⟨p, hp⟩ := OrdMap.contains_iff.mp (h.held id hm)
  obtain ⟨hp', hk⟩ := h.entry (OrdMap.mem_entries.mpr hp)
  exact ⟨p, hp, (hd hm hp' hk).symm⟩

/-- One more member. -/
theorem Holds.addPeer (h : r.Holds getId ids) (p : PeerRef) : (r.addPeer getId p).Holds getId (insert (getId p) ids) where
  keyed := by
    rintro ⟨k, q⟩ he
    have hf : (r.ring.insert (r.createKey (getId p)) p).find? k = some q := OrdMap.mem_entries.mp he
    rcases OrdMap.find_insert_some hf with ⟨hk, rfl⟩ | hold
    · exact ⟨Set.mem_insert _ ids, hk⟩
    · obtain ⟨hm, hk⟩ := h.entry (OrdMap.mem_entries.mpr hold)
      exact ⟨Set.mem_insert_of_mem _ hm, hk⟩
  held := by
    intro id hm
    have hc : (r.ring.insert (r.createKey (getId p)) p).contains (r.createKey id) = true := by
      rw [OrdMap.contains, OrdMap.find_insert]
      split
      · rfl
      · rename_i hk
        refine h.held id (Set.mem_of_mem_insert_of_ne hm fun hid => hk ?_)
        rw [hid]
    exact hc

/-- The members keep their IDs; those of other peers do not matter. -/
theorem Holds.congr {getId' : PeerRef → Bytes} (h : r.Holds getId ids) (hi : ∀ q ∈ r.ring.values, getId' q = getId q) :
    r.Holds getId' ids := by
  refine ⟨fun e he => ?_, h.held⟩
  rw [hi e.2 (List.mem_map_of_mem he)]
  exact h.keyed e he

theorem Holds.size (h : r.Holds getId ids) (hd : Set.InjOn r.createKey ids) (hn : ids.Nontrivial) :
    1 < r.ring.size := by
  obtain ⟨a, ha, b, hb, hab⟩ := hn
  obtain ⟨p, hp, -⟩ := h.find hd ha
  obtain ⟨q, hq, -⟩ := h.find hd hb
  have hp := OrdMap.mem_entries.mpr hp
  have hq := OrdMap.mem_entries.mpr hq
  refine Nat.lt_of_not_le fun hle => hab (hd ha hb ?_)
  obtain ⟨e, he⟩ := List.length_eq_one_iff.mp (Nat.le_antisymm hle (List.length_pos_of_mem hp))
  rw [he] at hp hq
  exact congrArg Prod.fst ((List.mem_singleton.mp hp).trans (List.mem_singleton.mp hq).symm)

theorem Holds.getSuccessor (h : r.Holds getId ids) (hd : Set.InjOn r.createKey ids) (hn : ids.Nontrivial) {p : PeerRef}
    (hp : getId p ∈ ids) : ∃ q, r.getSuccessor getId p = .ok q ∧ getId q ∈ ids ∧ r.Next (getId p) (getId q) := by
  obtain ⟨p', hp', -⟩ := h.find hd hp
  obtain ⟨q, hq⟩ := getSuccessor_exists.mpr ⟨h.size hd hn, by rw [hp']; exact Option.some_ne_none p'⟩
  obtain ⟨-, k, hk⟩ := getSuccessor_ok.mp hq
  obtain ⟨hm, rfl⟩ := h.entry (OrdMap.succ_mem hk)
  exact ⟨q, hq, hm, q, hk⟩

theorem Holds.getPredecessor (h : r.Holds getId ids) (hd : Set.InjOn r.createKey ids) (hn : ids.Nontrivial)
    {p : PeerRef} (hp : getId p ∈ ids) :
    ∃ q, r.getPredecessor getId p = .ok q ∧ getId q ∈ ids ∧ r.Next (getId q) (getId p) := by
  obtain ⟨p', hp', -⟩ := h.find hd hp
  obtain ⟨q, hq⟩ := getPredecessor_exists.mpr ⟨h.size hd hn, by rw [hp']; exact Option.some_ne_none p'⟩
  obtain ⟨-, k, hk⟩ := getPredecessor_ok.mp hq
  obtain ⟨hm, rfl⟩ := h.entry (OrdMap.pred_mem hk)
  exact ⟨q, hq, hm, p', OrdMap.succ_pred hp' hk⟩

/-- Going forward and back: whoever comes before `b` is unique. -/
theorem Holds.next_unique_left (h : r.Holds getId ids) (hd : Set.InjOn r.createKey ids) {a b c : Bytes} (ha : a ∈ ids)
    (hc : c ∈ ids) (h₁ : r.Next a b) (h₂ : r.Next c b) : a = c := by
  obtain ⟨p, hp, -⟩ := h.find hd ha
  obtain ⟨q, hq, -⟩ := h.find hd hc
  obtain ⟨x, hx⟩ := h₁
  obtain ⟨y, hy⟩ := h₂
  have h₁ : r.ring.pred? (r.createKey b) = some (r.createKey a, p) := OrdMap.pred_succ hp hx
  have h₂ : r.ring.pred? (r.createKey b) = some (r.createKey c, q) := OrdMap.pred_succ hq hy
  exact hd ha hc (congrArg Prod.fst (Option.some.inj (h₁.symm.trans h₂)))

theorem Holds.next_ne (h : r.Holds getId ids) (hd : Set.InjOn r.createKey ids) (hn : ids.Nontrivial) {a b : Bytes}
    (hab : r.Next a b) : a ≠ b := by
  rintro rfl
  obtain ⟨q, hq⟩ := hab
  exact OrdMap.succ_ne (h.size hd hn) hq rfl

/-- A property that one member has, and whoever comes next, all members have. -/
theorem Holds.closed (h : r.Holds getId ids) (hd : Set.InjOn r.createKey ids) {P : Bytes → Prop} {a : Bytes}
    (ha : a ∈ ids) (hP : P a) (hstep : ∀ b ∈ ids, ∀ c ∈ ids, P b → r.Next b c → P c) : ∀ b ∈ ids, P b := by
  obtain ⟨p, hp, -⟩ := h.find hd ha
  have hall := OrdMap.succ_closed (P := fun k => ∃ b ∈ ids, k = r.createKey b ∧ P b) hp ⟨a, ha, rfl, hP⟩ (by
    rintro k ⟨k', q⟩ ⟨b, hb, rfl, hPb⟩ he
    obtain ⟨hc, rfl⟩ := h.entry (OrdMap.succ_mem he)
    exact ⟨getId q, hc, rfl, hstep b hb (getId q) hc hPb ⟨q, he⟩⟩)
  intro b hb
  obtain ⟨c, hc, hk, hPc⟩ := hall _ (h.mem_keys.mpr ⟨b, hb, rfl⟩)
  exact hd hb hc hk ▸ hPc

end Ring

namespace Group

/-- Every ring holds the peers with these IDs. -/
def Holds (getId : PeerRef → Bytes) (g : Group) (ids : Set Bytes) : Prop := ∀ r ∈ g.rings, r.Holds getId ids

/-- In one of the rings, the peer with ID `b` comes right after the one with ID `a`. -/
def Next (g : Group) (a b : Bytes) : Prop := ∃ r ∈ g.rings, r.Next a b

variable {getId : PeerRef → Bytes} {g : Group} {ids : Set Bytes}

omit [Platform] in
theorem index_lt {r : Ring} (hr : r ∈ g.rings) : r.index < RINGS_NB := by
  have : r.index ∈ g.rings.map Ring.index := List.mem_map_of_mem hr
  rw [g.shape] at this
  exact List.mem_range.mp this

omit [Platform] in
theorem ring_at (g : Group) {i : Nat} (hi : i < RINGS_NB) : ∃ r ∈ g.rings, r.index = i := by
  have : i ∈ g.rings.map Ring.index := by
    rw [g.shape]
    exact List.mem_range.mpr hi
  exact List.mem_map.mp this

omit [Platform] in
/-- Two groups have their rings in the same order. -/
theorem map_rings_congr {α : Type} {f f' : Ring → α} {g g' : Group}
    (h : ∀ r ∈ g.rings, ∀ r' ∈ g'.rings, r.index = r'.index → f r = f' r') : g.rings.map f = g'.rings.map f' := by
  have run : ∀ l l' : List Ring, l.map Ring.index = l'.map Ring.index →
      (∀ r ∈ l, ∀ r' ∈ l', r.index = r'.index → f r = f' r') → l.map f = l'.map f' := by
    intro l
    induction l with
    | nil =>
      intro l' hi _
      rw [List.map_nil] at hi
      rw [List.map_eq_nil_iff.mp hi.symm]
      rfl
    | cons r l ih =>
      intro l' hi h
      obtain ⟨r', l', rfl, hr, hl⟩ := List.map_eq_cons_iff.mp hi.symm
      rw [List.map_cons, List.map_cons, h r List.mem_cons_self r' List.mem_cons_self hr.symm,
        ih l' hl.symm fun x hx x' hx' => h x (List.mem_cons_of_mem r hx) x' (List.mem_cons_of_mem r' hx')]
  exact run _ _ (g.shape.trans g'.shape.symm) h

theorem keys_differ (hd : KeysDiffer ids) {r : Ring} (hr : r ∈ g.rings) : Set.InjOn r.createKey ids :=
  hd r.index (index_lt hr)

/-- Nodes that hold the same members agree on the order. -/
theorem next_congr {getId' : PeerRef → Bytes} {g' : Group} (h : g.Holds getId ids) (h' : g'.Holds getId' ids)
    {a b : Bytes} : g.Next a b ↔ g'.Next a b := by
  have half : ∀ {x x' : PeerRef → Bytes} {g g' : Group}, g.Holds x ids → g'.Holds x' ids → g.Next a b →
      g'.Next a b := by
    rintro x x' g g' h h' ⟨r, hr, hab⟩
    obtain ⟨r', hr', hi⟩ := g'.ring_at (index_lt hr)
    exact ⟨r', hr', (Ring.next_congr (h r hr) (h' r' hr') hi.symm).mp hab⟩
  exact ⟨half h h', half h' h⟩

theorem Holds.next_ne (h : g.Holds getId ids) (hd : KeysDiffer ids) (hn : ids.Nontrivial) {a b : Bytes}
    (hab : g.Next a b) : a ≠ b := by
  obtain ⟨r, hr, hab⟩ := hab
  exact (h r hr).next_ne (keys_differ hd hr) hn hab

theorem Holds.closed (h : g.Holds getId ids) (hd : KeysDiffer ids) {P : Bytes → Prop} {a : Bytes} (ha : a ∈ ids)
    (hP : P a) (hstep : ∀ b ∈ ids, ∀ c ∈ ids, P b → g.Next b c → P c) : ∀ b ∈ ids, P b := by
  obtain ⟨r, hr, -⟩ := g.ring_at (i := 0) (by decide)
  exact (h r hr).closed (keys_differ hd hr) ha hP fun b hb c hc hPb hbc => hstep b hb c hc hPb ⟨r, hr, hbc⟩

/-! ## Neighbours -/

/-- A map of peers by their IDs. -/
def Keyed (getId : PeerRef → Bytes) (m : PeerMap) : Prop := ∀ e ∈ m.entries, e.1 = getId e.2

omit [Platform] in
theorem keyed_insertNew {m : PeerMap} (h : Keyed getId m) (p : PeerRef) : Keyed getId (m.insertNew (getId p) p) := by
  rintro ⟨k, q⟩ he
  have hf : (m.insertNew (getId p) p).find? k = some q := OrdMap.mem_entries.mp he
  rcases OrdMap.find_insertNew_some hf with ⟨hk, rfl⟩ | hold
  · exact hk
  · exact h (k, q) (OrdMap.mem_entries.mpr hold)

omit [Platform] in
theorem contains_insertNew (m : PeerMap) (k q : Bytes) (p : PeerRef) :
    (m.insertNew k p).contains q = true ↔ q = k ∨ m.contains q = true := by
  simp only [OrdMap.contains, OrdMap.find_insertNew]
  split
  · rename_i h
    subst h
    cases m.find? q <;> simp
  · rename_i h
    simp [h]

/-- The loop of `update_neighbours` collects the neighbours ring by ring. -/
theorem collect {localPeer : PeerRef} : ∀ (l : List Ring) (acc : PeerMap × PeerMap),
    (∀ r ∈ l, (∃ p, r.getPredecessor getId localPeer = .ok p) ∧ ∃ q, r.getSuccessor getId localPeer = .ok q) →
    Keyed getId acc.1 → Keyed getId acc.2 →
    ∃ preds succs, l.foldlM (neighboursRound getId localPeer) acc = .ok (preds, succs) ∧
      Keyed getId preds ∧ Keyed getId succs ∧
      (∀ k, preds.contains k = true ↔ acc.1.contains k = true ∨
        ∃ r ∈ l, ∃ p, r.getPredecessor getId localPeer = .ok p ∧ k = getId p) ∧
      (∀ k, succs.contains k = true ↔ acc.2.contains k = true ∨
        ∃ r ∈ l, ∃ q, r.getSuccessor getId localPeer = .ok q ∧ k = getId q) := by
  intro l
  induction l with
  | nil => intro acc _ h₁ h₂; exact ⟨acc.1, acc.2, rfl, h₁, h₂, by simp, by simp⟩
  | cons r l ih =>
    intro acc hl h₁ h₂
    obtain ⟨⟨p, hp⟩, q, hq⟩ := hl r List.mem_cons_self
    have hround : neighboursRound getId localPeer acc r =
        .ok (acc.1.insertNew (getId p) p, acc.2.insertNew (getId q) q) := by
      rw [neighboursRound, hp, ok_bind, hq, ok_bind]
      rfl
    obtain ⟨preds, succs, hf, k₁, k₂, c₁, c₂⟩ := ih
      (acc.1.insertNew (getId p) p, acc.2.insertNew (getId q) q)
      (fun r' hr' => hl r' (List.mem_cons_of_mem r hr')) (keyed_insertNew h₁ p) (keyed_insertNew h₂ q)
    refine ⟨preds, succs, ?_, k₁, k₂, fun k => ?_, fun k => ?_⟩
    · rw [List.foldlM_cons, hround, ok_bind]
      exact hf
    · rw [c₁, contains_insertNew]
      simp only [List.mem_cons, exists_eq_or_imp, hp, Except.ok.injEq, exists_eq_left']
      tauto
    · rw [c₂, contains_insertNew]
      simp only [List.mem_cons, exists_eq_or_imp, hq, Except.ok.injEq, exists_eq_left']
      tauto

/-- The neighbours of a member of a group of two or more: who comes next to him in one of
    the rings. -/
theorem neighbours_spec (h : g.Holds getId ids) (hd : KeysDiffer ids) (hn : ids.Nontrivial) {localPeer : PeerRef}
    (hl : getId localPeer ∈ ids) : ∃ preds succs, g.neighbours getId localPeer = .ok (preds, succs) ∧
      Keyed getId preds ∧ Keyed getId succs ∧
      (∀ id ∈ ids, preds.contains id = true ↔ g.Next id (getId localPeer)) ∧
      (∀ id ∈ ids, succs.contains id = true ↔ g.Next (getId localPeer) id) := by
  have hp := fun r hr => (h r hr).getPredecessor (keys_differ hd hr) hn hl
  have hs := fun r hr => (h r hr).getSuccessor (keys_differ hd hr) hn hl
  have keyed : Keyed getId (∅ : PeerMap) := by rintro e he; cases he
  obtain ⟨preds, succs, hf, k₁, k₂, c₁, c₂⟩ := collect g.rings (∅, ∅)
    (fun r hr => ⟨(hp r hr).imp fun _ => And.left, (hs r hr).imp fun _ => And.left⟩) keyed keyed
  have none : ∀ k, (∅ : PeerMap).contains k = true ↔ False := fun k => by simp [OrdMap.contains]
  refine ⟨preds, succs, hf, k₁, k₂, fun id hm => ?_, fun id hm => ?_⟩
  · rw [c₁, none, false_or]
    constructor
    · rintro ⟨r, hr, p, hpr, rfl⟩
      obtain ⟨p', hp', -, hnext⟩ := hp r hr
      cases hpr.symm.trans hp'
      exact ⟨r, hr, hnext⟩
    · rintro ⟨r, hr, hnext⟩
      obtain ⟨p, hpr, hpm, hnext'⟩ := hp r hr
      exact ⟨r, hr, p, hpr, (h r hr).next_unique_left (keys_differ hd hr) hm hpm hnext hnext'⟩
  · rw [c₂, none, false_or]
    constructor
    · rintro ⟨r, hr, q, hqr, rfl⟩
      obtain ⟨q', hq', -, hnext⟩ := hs r hr
      cases hqr.symm.trans hq'
      exact ⟨r, hr, hnext⟩
    · rintro ⟨r, hr, hnext⟩
      obtain ⟨q, hqr, hqm, hnext'⟩ := hs r hr
      exact ⟨r, hr, q, hqr, Ring.next_unique (keys_differ hd hr) hm hqm hnext hnext'⟩

omit [Platform] in
/-- Whoever is a direct neighbour is listed. -/
theorem directs_lists (hp : Keyed getId g.predecessors) (hs : Keyed getId g.successors) {q : PeerRef}
    (hq : q ∈ (g.predecessors.union g.successors).values) : g.lists (getId q) := by
  obtain ⟨k, hk⟩ := OrdMap.mem_values.mp hq
  rw [OrdMap.find_union, Option.or_eq_some_iff] at hk
  rcases hk with hk | ⟨-, hk⟩
  · left
    rw [← hp (k, q) (OrdMap.mem_entries.mpr hk)]
    exact OrdMap.contains_iff.mpr ⟨q, hk⟩
  · right
    rw [← hs (k, q) (OrdMap.mem_entries.mpr hk)]
    exact OrdMap.contains_iff.mpr ⟨q, hk⟩

omit [Platform] in
/-- Whoever is listed is a direct neighbour. -/
theorem lists_directs (hp : Keyed getId g.predecessors) (hs : Keyed getId g.successors) {id : Bytes} (h : g.lists id) :
    ∃ q, q ∈ (g.predecessors.union g.successors).values ∧ (q ∈ g.predecessors.values ∨ q ∈ g.successors.values) ∧
      getId q = id := by
  have hf := OrdMap.find_union g.predecessors g.successors id
  cases hpf : g.predecessors.find? id with
  | some q =>
    rw [hpf, Option.some_or] at hf
    exact ⟨q, OrdMap.mem_values.mpr ⟨id, hf⟩, Or.inl (OrdMap.mem_values.mpr ⟨id, hpf⟩),
      (hp (id, q) (OrdMap.mem_entries.mpr hpf)).symm⟩
  | none =>
    rcases h with h | h
    · obtain ⟨q, hq⟩ := OrdMap.contains_iff.mp h
      cases hpf.symm.trans hq
    · obtain ⟨q, hq⟩ := OrdMap.contains_iff.mp h
      rw [hpf, Option.none_or, hq] at hf
      exact ⟨q, OrdMap.mem_values.mpr ⟨id, hf⟩, Or.inr (OrdMap.mem_values.mpr ⟨id, hq⟩),
        (hs (id, q) (OrdMap.mem_entries.mpr hq)).symm⟩

theorem updateNeighbours_spec (h : g.Holds getId ids) (hd : KeysDiffer ids) (hn : ids.Nontrivial) {localPeer : PeerRef}
    (hl : getId localPeer ∈ ids) : Keyed getId (g.updateNeighbours getId localPeer).predecessors ∧
      Keyed getId (g.updateNeighbours getId localPeer).successors ∧
      (∀ id ∈ ids, (g.updateNeighbours getId localPeer).predecessors.contains id = true ↔ g.Next id (getId localPeer)) ∧
      (∀ id ∈ ids, (g.updateNeighbours getId localPeer).successors.contains id = true ↔ g.Next (getId localPeer) id) := by
  obtain ⟨preds, succs, hg, hs⟩ := neighbours_spec h hd hn hl
  rw [updateNeighbours_ok hg]
  exact hs

theorem Holds.addToRings (h : g.Holds getId ids) (p : PeerRef) :
    (g.addToRings getId p).Holds getId (insert (getId p) ids) := by
  intro r hr
  obtain ⟨r', hr', rfl⟩ := List.mem_map.mp hr
  exact (h r' hr').addPeer p

theorem Holds.congr {getId' : PeerRef → Bytes} (h : g.Holds getId ids)
    (hi : ∀ r ∈ g.rings, ∀ q ∈ r.ring.values, getId' q = getId q) : g.Holds getId' ids :=
  fun r hr => (h r hr).congr (hi r hr)

/-- Of two members with the same view, each lists the other as a neighbour, or none does. -/
theorem lists_comm {getId' : PeerRef → Bytes} {g' : Group} (h : g.Holds getId ids) (h' : g'.Holds getId' ids)
    (hd : KeysDiffer ids) (hn : ids.Nontrivial) {a b : PeerRef} (ha : getId a ∈ ids) (hb : getId' b ∈ ids) :
    (g.updateNeighbours getId a).lists (getId' b) ↔ (g'.updateNeighbours getId' b).lists (getId a) := by
  obtain ⟨-, -, hp, hs⟩ := updateNeighbours_spec h hd hn ha
  obtain ⟨-, -, hp', hs'⟩ := updateNeighbours_spec h' hd hn hb
  rw [lists, lists, hp _ hb, hs _ hb, hp' _ ha, hs' _ ha, next_congr h h', next_congr h h', or_comm]

end Group

end RacKun
