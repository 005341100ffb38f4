/-
  RacKun.Group.Cycle — a ring is one cycle, whatever has been added and removed.

  Adding a peer replaces whoever has his ID, so a ring files the peers added last and not
  removed since (`build_files`), each under a key of his own. `get_successor` then is the
  next place among the entries, modulo their number (`successor_at`), and following it
  from any member passes all places before it is back (`follow_at`).
-/

import Mathlib.Data.Finset.Card
import RacKun.Lib.Directory
import RacKun.Group.Views

namespace RacKun

open Lib (OrdMap Directory ok_bind)

/-- What is done about one peer, to a ring or to a group. -/
inductive PeerOp where
  | addPeer (p : PeerRef)
  | removePeer (p : PeerRef)

namespace PeerOp

variable (getId : PeerRef → Bytes)

def peer : PeerOp → PeerRef
  | .addPeer p => p
  | .removePeer p => p

/-- The IDs these operations are about. -/
def ids (ops : List PeerOp) : Set Bytes := {id | ∃ op ∈ ops, getId op.peer = id}

/-- Who is in after an operation. -/
def file (d : Directory getId) : PeerOp → Directory getId
  | .addPeer p => d.enter p
  | .removePeer p => d.strike (getId p)

/-- For each ID the peer added last, unless he has been removed since. -/
def filed (ops : List PeerOp) : Directory getId := ops.foldl (file getId) ∅

end PeerOp

variable [Platform]

namespace Ring

section

variable (getId : PeerRef → Bytes)

def apply (r : Ring) : PeerOp → Ring
  | .addPeer p => r.addPeer getId p
  | .removePeer p => r.removePeer getId p

def build (index : Nat) (ops : List PeerOp) : Ring := ops.foldl (apply getId) (new index)

/-- The distinct IDs in the ring. -/
def members (r : Ring) : Finset Bytes := (r.ring.values.map getId).toFinset

/-- `get_successor`, so many times. -/
def follow (r : Ring) : Nat → PeerRef → Except PeerNotFound PeerRef
  | 0, p => .ok p
  | k + 1, p => do
    let q ← r.getSuccessor getId p
    r.follow k q

/-- From here the ring is one cycle through all its members. -/
structure OnCycle (r : Ring) (p : PeerRef) : Prop where
  back : ∃ q, r.getSuccessor getId p = .ok q ∧ r.getPredecessor getId q = .ok p ∧ getId q ≠ getId p
  forth : ∃ q, r.getPredecessor getId p = .ok q ∧ r.getSuccessor getId q = .ok p
  visits : ∀ q ∈ r.ring.values, ∃! k, k < (r.members getId).card ∧ r.follow getId k p = .ok q
  inside : ∀ k, ∃ q ∈ r.ring.values, r.follow getId k p = .ok q
  returns : r.follow getId (r.members getId).card p = .ok p

end

variable {getId : PeerRef → Bytes} {r : Ring} {d : Directory getId}

/-! ## What a history files -/

theorem apply_files {all : Set Bytes} (hd : Set.InjOn r.createKey all) {op : PeerOp} (ho : getId op.peer ∈ all)
    (hs : d.names ⊆ all) (h : r.ring.Files r.createKey d) :
    (r.apply getId op).ring.Files r.createKey (op.file getId d) ∧ (op.file getId d).names ⊆ all := by
  have hsub : insert (getId op.peer) d.names ⊆ all := Set.insert_subset ho hs
  cases op with
  | addPeer p =>
    refine ⟨h.insert (hd.mono hsub), ?_⟩
    show (d.enter p).names ⊆ all
    rw [Directory.names_enter]
    exact hsub
  | removePeer p =>
    refine ⟨h.erase (hd.mono hsub), ?_⟩
    show (d.strike (getId p)).names ⊆ all
    rw [Directory.names_strike]
    exact Set.sdiff_subset.trans hs

theorem run_files {all : Set Bytes} : ∀ (ops : List PeerOp) {r : Ring} {d : Directory getId},
    Set.InjOn r.createKey all → PeerOp.ids getId ops ⊆ all → d.names ⊆ all → r.ring.Files r.createKey d →
      (ops.foldl (apply getId) r).ring.Files r.createKey (ops.foldl (PeerOp.file getId) d) ∧
        (ops.foldl (PeerOp.file getId) d).names ⊆ all := by
  intro ops
  induction ops with
  | nil => exact fun _ _ hs h => ⟨h, hs⟩
  | cons op ops ih =>
    intro r d hd hn hs h
    obtain ⟨h', hs'⟩ := apply_files hd (hn ⟨op, List.mem_cons_self, rfl⟩) hs h
    have hkey : (r.apply getId op).createKey = r.createKey := by cases op <;> rfl
    rw [← hkey] at h' hd ⊢
    exact ih hd (fun id ⟨o, ho, hid⟩ => hn ⟨o, List.mem_cons_of_mem op ho, hid⟩) hs' h'

theorem build_index (index : Nat) (ops : List PeerOp) : (build getId index ops).index = index := by
  have run : ∀ (ops : List PeerOp) (r : Ring), (ops.foldl (apply getId) r).index = r.index := by
    intro ops
    induction ops with
    | nil => intro r; rfl
    | cons op ops ih =>
      intro r
      rw [List.foldl_cons, ih]
      cases op with
      | addPeer p => exact addPeer_index getId r p
      | removePeer p => exact removePeer_index getId r p
  exact run ops (new index)

theorem build_createKey (index : Nat) (ops : List PeerOp) :
    (build getId index ops).createKey = (new index).createKey := by
  funext id
  rw [createKey, build_index, createKey]
  rfl

/-- A ring files the peers its history leaves. -/
theorem build_files {index : Nat} {ops : List PeerOp} {all : Set Bytes} (hd : Set.InjOn (new index).createKey all)
    (hn : PeerOp.ids getId ops ⊆ all) :
    (build getId index ops).ring.Files (build getId index ops).createKey (PeerOp.filed getId ops) ∧
      (PeerOp.filed getId ops).names ⊆ all := by
  rw [build_createKey]
  have hnames : (∅ : Directory getId).names ⊆ all := by
    rw [Directory.names_empty]
    exact Set.empty_subset all
  exact run_files ops (r := new index) hd hn hnames Lib.OrdMap.files_empty

/-! ## Places -/

omit [Platform] in
theorem mem_members {id : Bytes} : id ∈ r.members getId ↔ ∃ p ∈ r.ring.values, getId p = id := by
  rw [members, List.mem_toFinset, List.mem_map]

theorem files_members (h : r.ring.Files r.createKey d) : (r.members getId : Set Bytes) = d.names := by
  ext id
  rw [Finset.mem_coe, mem_members]
  constructor
  · rintro ⟨p, hp, rfl⟩
    obtain ⟨k, hk⟩ := OrdMap.mem_values.mp hp
    exact Directory.mem_names ((h k p).mp hk).2
  · intro hid
    obtain ⟨p, hp⟩ := Option.ne_none_iff_exists'.mp hid
    exact ⟨p, OrdMap.mem_values.mpr ⟨_, h.get hp⟩, d.named hp⟩

/-- The keys are those of the IDs, place by place. -/
theorem files_keys (h : r.ring.Files r.createKey d) : r.ring.keys = (r.ring.values.map getId).map r.createKey := by
  rw [OrdMap.keys, OrdMap.values, List.map_map, List.map_map]
  refine List.map_congr_left fun e he => ?_
  obtain ⟨k, p⟩ := e
  exact ((h k p).mp (OrdMap.mem_entries.mp he)).1

theorem files_nodup (h : r.ring.Files r.createKey d) : (r.ring.values.map getId).Nodup := by
  have hk := r.ring.keys_nodup
  rw [files_keys h] at hk
  exact hk.of_map

theorem members_size (h : r.ring.Files r.createKey d) : (r.members getId).card = r.ring.size := by
  rw [members, List.toFinset_card_of_nodup (files_nodup h), List.length_map, OrdMap.values, List.length_map,
    OrdMap.size]

theorem entry_at (h : r.ring.Files r.createKey d) {i : Nat} {p : PeerRef} (hp : r.ring.values[i]? = some p) :
    r.ring.entries[i]? = some (r.createKey (getId p), p) := by
  rw [OrdMap.values, List.getElem?_map, Option.map_eq_some_iff] at hp
  obtain ⟨e, he, rfl⟩ := hp
  obtain ⟨k, p⟩ := e
  rw [he, ((h k p).mp (OrdMap.mem_entries.mp (List.mem_of_getElem? he))).1]

omit [Platform] in
theorem value_lt {i : Nat} {p : PeerRef} (hp : r.ring.values[i]? = some p) : i < r.ring.size := by
  have hi := (List.getElem?_eq_some_iff.mp hp).1
  rw [OrdMap.values, List.length_map] at hi
  exact hi

/-- `get_successor` goes to the next place, and from the last one to the first. -/
theorem successor_at (h : r.ring.Files r.createKey d) (hs : 1 < r.ring.size) {i : Nat} {p : PeerRef}
    (hp : r.ring.values[i]? = some p) :
    ∃ q, r.ring.values[(i + 1) % r.ring.size]? = some q ∧ r.getSuccessor getId p = .ok q := by
  have hsucc := OrdMap.succ_at (entry_at h hp)
  have hlt : (i + 1) % r.ring.size < r.ring.entries.length := Nat.mod_lt _ (Nat.lt_trans Nat.zero_lt_one hs)
  rw [List.getElem?_eq_getElem hlt] at hsucc
  refine ⟨r.ring.entries[(i + 1) % r.ring.size].2, ?_, getSuccessor_ok.mpr ⟨hs, _, hsucc⟩⟩
  rw [OrdMap.values, List.getElem?_map, List.getElem?_eq_getElem hlt]
  rfl

theorem follow_at (h : r.ring.Files r.createKey d) (hs : 1 < r.ring.size) :
    ∀ (k : Nat) {i : Nat} {p : PeerRef}, r.ring.values[i]? = some p →
      ∃ q, r.ring.values[(i + k) % r.ring.size]? = some q ∧ r.follow getId k p = .ok q := by
  intro k
  induction k with
  | zero =>
    intro i p hp
    rw [Nat.add_zero, Nat.mod_eq_of_lt (value_lt hp)]
    exact ⟨p, hp, rfl⟩
  | succ k ih =>
    intro i p hp
    obtain ⟨q, hq, hsucc⟩ := successor_at h hs hp
    obtain ⟨q', hq', hfollow⟩ := ih hq
    refine ⟨q', ?_, ?_⟩
    · rw [← hq', Nat.mod_add_mod, Nat.add_assoc, Nat.add_comm 1 k]
    · rw [follow, hsucc, ok_bind, hfollow]

omit [Platform] in
/-- Each place is so many steps ahead, and no other number of steps below `n`. -/
theorem steps_to {n i j : Nat} (hi : i < n) (hj : j < n) : ∃! k, k < n ∧ (i + k) % n = j := by
  have wrap : ∀ k < n, (i + k) % n = if i + k < n then i + k else i + k - n := by
    intro k hk
    split
    · rename_i hlt
      exact Nat.mod_eq_of_lt hlt
    · rw [Nat.mod_eq_sub_mod (by omega), Nat.mod_eq_of_lt (by omega)]
  by_cases hij : i ≤ j
  · refine ⟨j - i, ⟨by omega, by rw [wrap _ (by omega), if_pos (by omega)]; omega⟩, ?_⟩
    rintro k ⟨hk, he⟩
    rw [wrap k hk] at he
    split at he <;> omega
  · refine ⟨j + n - i, ⟨by omega, by rw [wrap _ (by omega), if_neg (by omega)]; omega⟩, ?_⟩
    rintro k ⟨hk, he⟩
    rw [wrap k hk] at he
    split at he <;> omega

/-! ## The cycle -/

theorem back_again (h : r.ring.Files r.createKey d) {p q : PeerRef} (hp : p ∈ r.ring.values)
    (hq : r.getSuccessor getId p = .ok q) : r.getPredecessor getId q = .ok p := by
  obtain ⟨hs, k, hk⟩ := getSuccessor_ok.mp hq
  obtain ⟨k', hk'⟩ := OrdMap.mem_values.mp hp
  obtain rfl := ((h k' p).mp hk').1
  obtain rfl := ((h k q).mp (OrdMap.mem_entries.mp (OrdMap.succ_mem hk))).1
  exact getPredecessor_ok.mpr ⟨hs, _, OrdMap.pred_succ hk' hk⟩

theorem forth_again (h : r.ring.Files r.createKey d) {p q : PeerRef} (hp : p ∈ r.ring.values)
    (hq : r.getPredecessor getId p = .ok q) : r.getSuccessor getId q = .ok p := by
  obtain ⟨hs, k, hk⟩ := getPredecessor_ok.mp hq
  obtain ⟨k', hk'⟩ := OrdMap.mem_values.mp hp
  obtain rfl := ((h k' p).mp hk').1
  obtain rfl := ((h k q).mp (OrdMap.mem_entries.mp (OrdMap.pred_mem hk))).1
  exact getSuccessor_ok.mpr ⟨hs, _, OrdMap.succ_pred hk' hk⟩

theorem successor_other (h : r.ring.Files r.createKey d) {p q : PeerRef} (hq : r.getSuccessor getId p = .ok q) :
    getId q ≠ getId p := by
  intro he
  obtain ⟨hs, k, hk⟩ := getSuccessor_ok.mp hq
  obtain rfl := ((h k q).mp (OrdMap.mem_entries.mp (OrdMap.succ_mem hk))).1
  exact OrdMap.succ_ne hs hk (by rw [he])

theorem predecessor_other (h : r.ring.Files r.createKey d) {p q : PeerRef} (hq : r.getPredecessor getId p = .ok q) :
    getId q ≠ getId p := by
  intro he
  obtain ⟨hs, k, hk⟩ := getPredecessor_ok.mp hq
  obtain rfl := ((h k q).mp (OrdMap.mem_entries.mp (OrdMap.pred_mem hk))).1
  exact OrdMap.pred_ne hs hk (by rw [he])

theorem on_cycle (h : r.ring.Files r.createKey d) (hs : 1 < r.ring.size) {p : PeerRef} (hp : p ∈ r.ring.values) :
    r.OnCycle getId p := by
  obtain ⟨i, hi⟩ := List.mem_iff_getElem?.mp hp
  have hlt := value_lt hi
  have hfound : 1 < r.ring.size ∧ r.ring.find? (r.createKey (getId p)) ≠ none := by
    obtain ⟨k, hk⟩ := OrdMap.mem_values.mp hp
    obtain rfl := ((h k p).mp hk).1
    exact ⟨hs, by rw [hk]; exact Option.some_ne_none p⟩
  have hdistinct : ∀ {j j' : Nat} {q : PeerRef},
      r.ring.values[j]? = some q → r.ring.values[j']? = some q → j = j' := by
    intro j j' q hj hj'
    have hn := (files_nodup h).of_map
    exact (List.getElem?_inj (List.getElem?_eq_some_iff.mp hj).1 hn).mp (hj.trans hj'.symm)
  refine ⟨?_, ?_, ?_, ?_, ?_⟩
  · obtain ⟨q, hq⟩ := getSuccessor_exists.mpr hfound
    exact ⟨q, hq, back_again h hp hq, successor_other h hq⟩
  · obtain ⟨q, hq⟩ := getPredecessor_exists.mpr hfound
    exact ⟨q, hq, forth_again h hp hq⟩
  · intro q hq
    obtain ⟨j, hj⟩ := List.mem_iff_getElem?.mp hq
    obtain ⟨k, ⟨hk, he⟩, honly⟩ := steps_to hlt (value_lt hj)
    rw [members_size h]
    refine ⟨k, ⟨hk, ?_⟩, ?_⟩
    · obtain ⟨q', hq', hfollow⟩ := follow_at h hs k hi
      rw [he, hj] at hq'
      rw [hfollow, Option.some.inj hq']
    · intro k' hk'
      obtain ⟨hk', hfollow'⟩ := hk'
      obtain ⟨q', hq', hfollow⟩ := follow_at h hs k' hi
      rw [hfollow] at hfollow'
      cases hfollow'
      exact honly k' ⟨hk', hdistinct hq' hj⟩
  · intro k
    obtain ⟨q, hq, hfollow⟩ := follow_at h hs k hi
    exact ⟨q, List.mem_of_getElem? hq, hfollow⟩
  · obtain ⟨q, hq, hfollow⟩ := follow_at h hs r.ring.size hi
    rw [Nat.add_mod_right, Nat.mod_eq_of_lt hlt, hi] at hq
    rw [members_size h, hfollow, Option.some.inj hq]

omit [Platform] in
theorem throws_iff {x : Except PeerNotFound PeerRef} : x = .error .mk ↔ ¬∃ q, x = .ok q := by
  cases x with
  | ok q => simp
  | error e => cases e; simp

/-- After any history the ring is one cycle through the members it leaves, and the two
    functions fail for whoever is not among them, or is alone. -/
theorem ring_cycle {getId : PeerRef → Bytes} {index : Nat} {ops : List PeerOp} {p : PeerRef}
    (hd : Set.InjOn (fun id => makeHash (id ++ itos index)) (insert (getId p) (PeerOp.ids getId ops))) :
    let r := build getId index ops
    (r.members getId : Set Bytes) = (PeerOp.filed getId ops).names ∧
      (2 ≤ (r.members getId).card → p ∈ r.ring.values → r.OnCycle getId p) ∧
      (r.getSuccessor getId p = .error .mk ↔ getId p ∉ r.members getId ∨ (r.members getId).card ≤ 1) ∧
      (r.getPredecessor getId p = .error .mk ↔ getId p ∉ r.members getId ∨ (r.members getId).card ≤ 1) := by
  intro r
  have hnamed : Set.InjOn (new index).createKey (PeerOp.ids getId ops) := hd.mono (Set.subset_insert _ _)
  obtain ⟨h, hnames⟩ := build_files hnamed (Set.Subset.refl _)
  have hinj : Set.InjOn r.createKey (insert (getId p) (PeerOp.filed getId ops).names) := by
    rw [build_createKey]
    exact hd.mono (Set.insert_subset_insert hnames)
  have hmem : getId p ∈ r.members getId ↔ r.ring.find? (r.createKey (getId p)) ≠ none := by
    rw [h.find hinj, ← Finset.mem_coe, files_members h]
    rfl
  have hthrows : ¬(1 < r.ring.size ∧ r.ring.find? (r.createKey (getId p)) ≠ none) ↔
      getId p ∉ r.members getId ∨ (r.members getId).card ≤ 1 := by
    rw [← hmem, members_size h, not_and_or, Nat.not_lt, or_comm]
  refine ⟨files_members h, ?_, ?_, ?_⟩
  · intro hn hp
    rw [members_size h] at hn
    exact on_cycle h hn hp
  · rw [throws_iff, getSuccessor_exists]
    exact hthrows
  · rw [throws_iff, getPredecessor_exists]
    exact hthrows

omit [Platform] in
/-- Three peers are added, one of them again under a new connection, one is removed. -/
theorem ring_cycle_two :
    let getId : PeerRef → Bytes := fun p => [Fin.ofNat 256 (p % 10)]
    let r := @build sha1 getId 0 [.addPeer 0, .addPeer 1, .addPeer 2, .addPeer 10, .removePeer 1]
    @OnCycle sha1 getId r 10 ∧ ¬@getSuccessor sha1 getId r 10 = .error .mk := by
  intro getId r
  have hids : PeerOp.ids getId [.addPeer 0, .addPeer 1, .addPeer 2, .addPeer 10, .removePeer 1] ⊆
      {id | id ∈ [[(0 : Byte)], [1], [2]]} := by
    have h : ∀ op ∈ [PeerOp.addPeer 0, .addPeer 1, .addPeer 2, .addPeer 10, .removePeer 1],
        getId op.peer ∈ [[(0 : Byte)], [1], [2]] := by
      decide +kernel
    rintro id ⟨op, ho, rfl⟩
    exact h op ho
  have hd : Set.InjOn (fun id => @makeHash sha1 (id ++ itos 0)) {id | id ∈ [[(0 : Byte)], [1], [2]]} := by
    have h : ∀ a ∈ [[(0 : Byte)], [1], [2]], ∀ b ∈ [[(0 : Byte)], [1], [2]],
        @makeHash sha1 (a ++ itos 0) = @makeHash sha1 (b ++ itos 0) → a = b := by
      decide +kernel
    intro a ha b hb hab
    exact h a ha b hb hab
  have cycle := @ring_cycle sha1 getId 0 [.addPeer 0, .addPeer 1, .addPeer 2, .addPeer 10, .removePeer 1] 10
    (hd.mono (Set.insert_subset (by decide) hids))
  have hcard : (r.members getId).card = 2 := by decide +kernel
  have hmem : getId 10 ∈ r.members getId := by decide +kernel
  refine ⟨cycle.2.1 hcard.ge (by decide +kernel), fun he => ?_⟩
  rcases cycle.2.2.1.mp he with h | h
  · exact h hmem
  · exact absurd (hcard ▸ h) (by decide)

end Ring

end RacKun
