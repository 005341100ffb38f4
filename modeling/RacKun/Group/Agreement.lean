/-
  RacKun.Group.Agreement — the rings of a group agree, and an update of the neighbours is
  all or nothing.

  Every call that changes one ring changes all of them alike: they file one directory
  (`run_agrees`). So the local peer is a member of all rings or of none, with the same
  company in each, and `update_neighbours` either fails in the first ring, before it has
  collected anything, or in none (`updated_from`, `update_fails`).
-/

import RacKun.Group.Cycle

namespace RacKun

open Lib (OrdMap Directory bind_ok foldlM_keeps)

namespace Group

/-- What is called on a group. -/
inductive Call where
  | change (op : Op)
  | updateNeighbours (localPeer : PeerRef)

section

variable (getId : PeerRef → Bytes)

/-- Who is in the rings after an operation. -/
def Op.file (d : Directory getId) : Op → Directory getId
  | .addPeer p => d.enter p
  | .addToRings p => d.enter p
  | .addGroupToRings other => d.enterAll other.peers.values
  | .removePeer p => d.strike (getId p)

def Call.file (d : Directory getId) : Call → Directory getId
  | .change op => op.file getId d
  | .updateNeighbours _ => d

/-- All IDs that calls put into the rings or take out. -/
def Call.named (calls : List Call) : Set Bytes :=
  {id | ∃ op, Call.change op ∈ calls ∧ id ∈ idsOf getId op.peers}

variable [Platform]

def call (g : Group) : Call → Group
  | .change op => g.apply getId op
  | .updateNeighbours localPeer => g.updateNeighbours getId localPeer

def run (id : Bytes) (calls : List Call) : Group := calls.foldl (call getId) (new id)

/-- Every ring files the directory, and the group's own members are in it. -/
structure Agrees (g : Group) (d : Directory getId) : Prop where
  rings : ∀ r ∈ g.rings, r.ring.Files r.createKey d
  peers : ∀ id, g.peers.contains id = true → id ∈ d.names

/-- The neighbours in all rings, and nobody else. -/
structure Updated (localPeer : PeerRef) (g : Group) : Prop where
  company : ∀ r ∈ g.rings, getId localPeer ∈ r.members getId ∧ ∃ id ∈ r.members getId, id ≠ getId localPeer
  nonempty : g.predecessors ≠ ∅ ∧ g.successors ≠ ∅
  others : g.predecessors.contains (getId localPeer) = false ∧ g.successors.contains (getId localPeer) = false
  predecessors : ∀ r ∈ g.rings, ∃ p, r.getPredecessor getId localPeer = .ok p ∧ g.predecessors.find? (getId p) = some p
  successors : ∀ r ∈ g.rings, ∃ p, r.getSuccessor getId localPeer = .ok p ∧ g.successors.find? (getId p) = some p
  onlyPredecessors : ∀ id p, g.predecessors.find? id = some p → ∃ r ∈ g.rings, r.getPredecessor getId localPeer = .ok p
  onlySuccessors : ∀ id p, g.successors.find? id = some p → ∃ r ∈ g.rings, r.getSuccessor getId localPeer = .ok p

/-- The first ring has no neighbours to give, and none are kept. -/
structure Cleared (localPeer : PeerRef) (g : Group) : Prop where
  first : ∃ r, g.rings.head? = some r ∧ r.getPredecessor getId localPeer = .error .mk
  predecessors : g.predecessors = ∅
  successors : g.successors = ∅

end

variable [Platform] {getId : PeerRef → Bytes} {g : Group} {d : Directory getId}

/-! ## One directory for all rings -/

omit [Platform] in
theorem file_names (d : Directory getId) (op : Op) : (op.file getId d).names = op.leaves getId d.names := by
  have enter : ∀ p, (d.enter p).names = d.names ∪ idsOf getId [p] := by
    intro p
    ext id
    simp [Directory.names_enter, idsOf, eq_comm, or_comm]
  cases op with
  | addPeer p => exact enter p
  | addToRings p => exact enter p
  | addGroupToRings other => exact Directory.names_enterAll other.peers.values d
  | removePeer p => exact Directory.names_strike d (getId p)

omit [Platform] in
theorem leaves_subset {all ids : Set Bytes} {op : Op} (ho : idsOf getId op.peers ⊆ all) (hs : ids ⊆ all) :
    op.leaves getId ids ⊆ all := by
  cases op with
  | addPeer p => exact Set.union_subset hs ho
  | addToRings p => exact Set.union_subset hs ho
  | addGroupToRings other => exact Set.union_subset hs ho
  | removePeer p => exact Set.sdiff_subset.trans hs

/-- A whole range of peers, in one ring. -/
theorem addAll_files {all : Set Bytes} (l : List PeerRef) {r : Ring} {d : Directory getId}
    (hd : Set.InjOn r.createKey all) (hl : ∀ p ∈ l, getId p ∈ all) (hs : d.names ⊆ all)
    (h : r.ring.Files r.createKey d) : (l.foldl (fun r p => r.addPeer getId p) r).ring.Files
      (l.foldl (fun r p => r.addPeer getId p) r).createKey (d.enterAll l) := by
  let Kept (r : Ring) (d : Directory getId) : Prop :=
    Set.InjOn r.createKey all ∧ d.names ⊆ all ∧ r.ring.Files r.createKey d
  have hkept : Kept (l.foldl (fun r p => r.addPeer getId p) r) (d.enterAll l) := by
    refine List.foldl_rel (r := Kept) ⟨hd, hs, h⟩ fun p hp r d hk => ?_
    obtain ⟨hd, hs, h⟩ := hk
    have hsub : insert (getId p) d.names ⊆ all := Set.insert_subset (hl p hp) hs
    refine ⟨hd, ?_, h.insert (hd.mono hsub)⟩
    rw [Directory.names_enter]
    exact hsub
  exact hkept.2.2

/-- What is in the rings after an operation: the peers concerned are in or out, the members
    among them too. -/
theorem apply_agrees {all : Set Bytes} (hd : KeysDiffer all) {op : Op} (ho : idsOf getId op.peers ⊆ all)
    (hs : d.names ⊆ all) (h : g.Agrees getId d) : (g.apply getId op).Agrees getId (op.file getId d) := by
  have differ : ∀ {r p}, r ∈ g.rings → p ∈ op.peers →
      Set.InjOn r.createKey (insert (getId p) d.names) := fun hr hp =>
    (keys_differ hd hr).mono (Set.insert_subset (ho ⟨_, hp, rfl⟩) hs)
  refine ⟨fun r' hr' => ?_, fun id hid => ?_⟩
  · cases op with
    | addPeer p =>
      obtain ⟨r, hr, rfl⟩ := List.mem_map.mp hr'
      exact (h.rings r hr).insert (differ hr (List.mem_singleton_self p))
    | addToRings p =>
      obtain ⟨r, hr, rfl⟩ := List.mem_map.mp hr'
      exact (h.rings r hr).insert (differ hr (List.mem_singleton_self p))
    | addGroupToRings other =>
      obtain ⟨r, hr, rfl⟩ := List.mem_map.mp hr'
      exact addAll_files other.peers.values (keys_differ hd hr) (fun p hp => ho ⟨p, hp, rfl⟩) hs (h.rings r hr)
    | removePeer p =>
      obtain ⟨r, hr, rfl⟩ := List.mem_map.mp hr'
      exact (h.rings r hr).erase (differ hr (List.mem_singleton_self p))
  · rw [file_names]
    cases op with
    | addPeer p =>
      rcases (contains_insertNew g.peers (getId p) id p).mp hid with rfl | hid
      · exact Or.inr ⟨p, List.mem_singleton_self p, rfl⟩
      · exact Or.inl (h.peers id hid)
    | addToRings p => exact Or.inl (h.peers id hid)
    | addGroupToRings other => exact Or.inl (h.peers id hid)
    | removePeer p =>
      obtain ⟨q, hq⟩ := OrdMap.contains_iff.mp hid
      obtain ⟨hne, hq⟩ := OrdMap.find_erase_some (m := g.peers) hq
      exact ⟨h.peers id (OrdMap.contains_iff.mpr ⟨q, hq⟩), hne⟩

theorem call_agrees {all : Set Bytes} (hd : KeysDiffer all) {c : Call} (hc : Call.named getId [c] ⊆ all)
    (hs : d.names ⊆ all) (h : g.Agrees getId d) :
    (g.call getId c).Agrees getId (c.file getId d) ∧ (c.file getId d).names ⊆ all := by
  cases c with
  | change op =>
    have ho : idsOf getId op.peers ⊆ all := fun id hid => hc ⟨op, List.mem_singleton_self _, hid⟩
    refine ⟨apply_agrees hd ho hs h, ?_⟩
    show (op.file getId d).names ⊆ all
    rw [file_names]
    exact leaves_subset ho hs
  | updateNeighbours localPeer =>
    refine ⟨⟨fun r hr => h.rings r ?_, fun id hid => h.peers id ?_⟩, hs⟩
    · exact @updateNeighbours_rings _ getId g localPeer ▸ hr
    · exact @updateNeighbours_peers _ getId g localPeer ▸ hid

theorem calls_agree {all : Set Bytes} (hd : KeysDiffer all) : ∀ (calls : List Call) {g : Group} {d : Directory getId},
    Call.named getId calls ⊆ all → d.names ⊆ all → g.Agrees getId d →
      (calls.foldl (call getId) g).Agrees getId (calls.foldl (Call.file getId) d) ∧
        (calls.foldl (Call.file getId) d).names ⊆ all := by
  intro calls
  induction calls with
  | nil => exact fun _ hs h => ⟨h, hs⟩
  | cons c calls ih =>
    intro g d hn hs h
    have hc : Call.named getId [c] ⊆ all := fun id ⟨op, ho, hid⟩ =>
      hn ⟨op, by rw [List.mem_singleton.mp ho]; exact List.mem_cons_self, hid⟩
    obtain ⟨h', hs'⟩ := call_agrees hd hc hs h
    exact ih (fun id ⟨op, ho, hid⟩ => hn ⟨op, List.mem_cons_of_mem c ho, hid⟩) hs' h'

/-- The rings of a group all file the directory its history leaves. -/
theorem run_agrees {all : Set Bytes} (hd : KeysDiffer all) (id : Bytes) {calls : List Call}
    (hn : Call.named getId calls ⊆ all) :
    (run getId id calls).Agrees getId (calls.foldl (Call.file getId) ∅) ∧
      (calls.foldl (Call.file getId) (∅ : Directory getId)).names ⊆ all := by
  refine calls_agree hd calls hn ?_ ⟨fun r hr => ?_, fun m hm => ?_⟩
  · rw [Directory.names_empty]
    exact Set.empty_subset all
  · obtain ⟨i, -, rfl⟩ := List.mem_map.mp hr
    exact OrdMap.files_empty
  · cases hm

/-! ## An update of the neighbours -/

theorem Agrees.members (h : g.Agrees getId d) {r : Ring} (hr : r ∈ g.rings) :
    (r.members getId : Set Bytes) = d.names :=
  Ring.files_members (h.rings r hr)

theorem Agrees.members_eq (h : g.Agrees getId d) {r r' : Ring} (hr : r ∈ g.rings) (hr' : r' ∈ g.rings) :
    r.members getId = r'.members getId := Finset.coe_injective ((h.members hr).trans (h.members hr').symm)

/-- Whoever a ring names is the one filed under his ID. -/
theorem Agrees.value (h : g.Agrees getId d) {r : Ring} (hr : r ∈ g.rings) {p : PeerRef} (hp : p ∈ r.ring.values) :
    d.get (getId p) = some p := by
  obtain ⟨k, hk⟩ := OrdMap.mem_values.mp hp
  exact ((h.rings r hr k p).mp hk).2

/-- A neighbour in one ring, and someone listed with the same ID, are the same object. -/
theorem collected {f : Ring → Except PeerNotFound PeerRef} (h : g.Agrees getId d)
    (hf : ∀ r p, f r = .ok p → p ∈ r.ring.values) {m : PeerMap}
    (honly : ∀ id p, m.find? id = some p → id = getId p ∧ ∃ r ∈ g.rings, f r = .ok p) {r : Ring} (hr : r ∈ g.rings)
    {p : PeerRef} (hp : f r = .ok p) (hm : m.contains (getId p) = true) : m.find? (getId p) = some p := by
  obtain ⟨q, hq⟩ := OrdMap.contains_iff.mp hm
  obtain ⟨hid, r', hr', hfq⟩ := honly (getId p) q hq
  have hdp := h.value hr (hf r p hp)
  have hdq := h.value hr' (hf r' q hfq)
  rw [← hid, hdp] at hdq
  rw [hq, Option.some.inj hdq]

/-- What the loop has collected came from the rings. -/
theorem neighbours_only {localPeer : PeerRef} {preds succs : PeerMap}
    (h : g.neighbours getId localPeer = .ok (preds, succs)) :
    (∀ id p, preds.find? id = some p → id = getId p ∧ ∃ r ∈ g.rings, r.getPredecessor getId localPeer = .ok p) ∧
      ∀ id p, succs.find? id = some p → id = getId p ∧ ∃ r ∈ g.rings, r.getSuccessor getId localPeer = .ok p := by
  refine foldlM_keeps (P := fun acc : PeerMap × PeerMap =>
    (∀ id p, acc.1.find? id = some p → id = getId p ∧ ∃ r ∈ g.rings, r.getPredecessor getId localPeer = .ok p) ∧
      ∀ id p, acc.2.find? id = some p → id = getId p ∧ ∃ r ∈ g.rings, r.getSuccessor getId localPeer = .ok p)
    ?_ ?_ h
  · intro r hr acc acc' hacc hround
    obtain ⟨p, hp, hround⟩ := bind_ok.mp hround
    obtain ⟨q, hq, hround⟩ := bind_ok.mp hround
    cases hround
    refine ⟨fun id x hx => ?_, fun id x hx => ?_⟩
    · rcases OrdMap.find_insertNew_some hx with ⟨rfl, rfl⟩ | hold
      · exact ⟨rfl, r, hr, hp⟩
      · exact hacc.1 id x hold
    · rcases OrdMap.find_insertNew_some hx with ⟨rfl, rfl⟩ | hold
      · exact ⟨rfl, r, hr, hq⟩
      · exact hacc.2 id x hold
  · refine ⟨fun id p hp => ?_, fun id p hp => ?_⟩
    · cases hp
    · cases hp

/-- What a ring's functions ask for, by the directory. -/
theorem Agrees.company (h : g.Agrees getId d) {localPeer : PeerRef} (hd : KeysDiffer (insert (getId localPeer) d.names))
    {r : Ring} (hr : r ∈ g.rings) : 1 < r.ring.size ∧ r.ring.find? (r.createKey (getId localPeer)) ≠ none ↔
      getId localPeer ∈ r.members getId ∧ ∃ id ∈ r.members getId, id ≠ getId localPeer := by
  have hmem : getId localPeer ∈ r.members getId ↔ r.ring.find? (r.createKey (getId localPeer)) ≠ none := by
    rw [(h.rings r hr).find (keys_differ hd hr), ← Finset.mem_coe, h.members hr]
    rfl
  rw [← hmem, ← Ring.members_size (h.rings r hr)]
  constructor
  · intro hin
    exact ⟨hin.2, Finset.exists_mem_ne hin.1 _⟩
  · intro hin
    obtain ⟨hl, id, hid, hne⟩ := hin
    exact ⟨Finset.one_lt_card.mpr ⟨id, hid, getId localPeer, hl, hne⟩, hl⟩

/-- The local peer has company in the rings: nothing fails. -/
theorem updated_from (h : g.Agrees getId d) {localPeer : PeerRef} (hd : KeysDiffer (insert (getId localPeer) d.names))
    (hcompany : ∀ r ∈ g.rings, getId localPeer ∈ r.members getId ∧ ∃ id ∈ r.members getId, id ≠ getId localPeer) :
    (g.updateNeighbours getId localPeer).Updated getId localPeer := by
  have hall := fun r hr => (h.company hd hr).mpr (hcompany r hr)
  have keyed : Keyed getId (∅ : PeerMap) := by
    intro e he
    cases he
  obtain ⟨preds, succs, hn, -, -, hpreds, hsuccs⟩ := collect g.rings (∅, ∅)
    (fun r hr => ⟨Ring.getPredecessor_exists.mpr (hall r hr), Ring.getSuccessor_exists.mpr (hall r hr)⟩) keyed keyed
  obtain ⟨honly, honly'⟩ := neighbours_only hn
  have hp : ∀ r ∈ g.rings, ∃ p, r.getPredecessor getId localPeer = .ok p ∧ preds.find? (getId p) = some p := by
    intro r hr
    obtain ⟨p, hp⟩ := Ring.getPredecessor_exists.mpr (hall r hr)
    exact ⟨p, hp, collected h (fun r p => Ring.getPredecessor_mem) honly hr hp
      ((hpreds _).mpr (Or.inr ⟨r, hr, p, hp, rfl⟩))⟩
  have hs : ∀ r ∈ g.rings, ∃ p, r.getSuccessor getId localPeer = .ok p ∧ succs.find? (getId p) = some p := by
    intro r hr
    obtain ⟨p, hp⟩ := Ring.getSuccessor_exists.mpr (hall r hr)
    exact ⟨p, hp, collected h (fun r p => Ring.getSuccessor_mem) honly' hr hp
      ((hsuccs _).mpr (Or.inr ⟨r, hr, p, hp, rfl⟩))⟩
  obtain ⟨r₀, hr₀, -⟩ := g.ring_at (i := 0) (by decide)
  rw [updateNeighbours_ok hn]
  refine ⟨hcompany, ⟨?_, ?_⟩, ⟨?_, ?_⟩, hp, hs, fun id p hf => (honly id p hf).2,
    fun id p hf => (honly' id p hf).2⟩
  · rintro rfl
    obtain ⟨p, -, hf⟩ := hp r₀ hr₀
    cases hf
  · rintro rfl
    obtain ⟨p, -, hf⟩ := hs r₀ hr₀
    cases hf
  · refine OrdMap.not_contains_iff.mpr (Option.eq_none_iff_forall_ne_some.mpr fun q hq => ?_)
    obtain ⟨hid, r, hr, hq⟩ := honly _ q hq
    exact Ring.predecessor_other (h.rings r hr) hq hid.symm
  · refine OrdMap.not_contains_iff.mpr (Option.eq_none_iff_forall_ne_some.mpr fun q hq => ?_)
    obtain ⟨hid, r, hr, hq⟩ := honly' _ q hq
    exact Ring.successor_other (h.rings r hr) hq hid.symm

/-- He is missing or alone: the first ring fails, before anything is collected. -/
theorem update_fails (h : g.Agrees getId d) {localPeer : PeerRef} (hd : KeysDiffer (insert (getId localPeer) d.names))
    {r₀ : Ring} (hr₀ : r₀ ∈ g.rings)
    (halone : ¬(getId localPeer ∈ r₀.members getId ∧ ∃ id ∈ r₀.members getId, id ≠ getId localPeer)) :
    (g.updateNeighbours getId localPeer).Cleared getId localPeer := by
  obtain ⟨r, rest, hrings⟩ := List.exists_cons_of_ne_nil (List.ne_nil_of_mem hr₀)
  have hr : r ∈ g.rings := hrings ▸ List.mem_cons_self
  have hfail : r.getPredecessor getId localPeer = .error .mk := by
    rw [Ring.throws_iff, Ring.getPredecessor_exists, h.company hd hr, h.members_eq hr hr₀]
    exact halone
  have hn : g.neighbours getId localPeer = .error .mk := by
    rw [neighbours, hrings, List.foldlM_cons, neighboursRound, hfail]
    rfl
  rw [updateNeighbours_error hn]
  exact ⟨⟨r, by rw [hrings]; rfl, hfail⟩, rfl, rfl⟩

/-- After any calls the rings have the same members, the group's own among them, and an
    update finds the local peer's neighbours in all rings or fails in the first. -/
theorem rings_agree {getId : PeerRef → Bytes} {id : Bytes} {calls : List Call} {localPeer : PeerRef}
    (hd : KeysDiffer (insert (getId localPeer) (Call.named getId calls))) :
    let g := run getId id calls
    g.rings.length = RINGS_NB ∧
      (∀ r ∈ g.rings, ∀ r' ∈ g.rings, r.members getId = r'.members getId) ∧
      (∀ r ∈ g.rings, ∀ m, g.peers.contains m = true → m ∈ r.members getId) ∧
      ((g.updateNeighbours getId localPeer).Updated getId localPeer ∨
        (g.updateNeighbours getId localPeer).Cleared getId localPeer) := by
  intro g
  have hnamed : KeysDiffer (Call.named getId calls) := fun i hi => (hd i hi).mono (Set.subset_insert _ _)
  obtain ⟨h, hsub⟩ := run_agrees hnamed id (Set.Subset.refl (Call.named getId calls))
  have hd : KeysDiffer (insert (getId localPeer) (calls.foldl (Call.file getId) (∅ : Directory getId)).names) :=
    fun i hi => (hd i hi).mono (Set.insert_subset_insert hsub)
  refine ⟨?_, fun r hr r' hr' => h.members_eq hr hr', fun r hr m hm => ?_, ?_⟩
  · rw [← List.length_map (f := Ring.index), g.shape, List.length_range]
  · rw [← Finset.mem_coe, h.members hr]
    exact h.peers m hm
  · by_cases hall : ∀ r ∈ g.rings, getId localPeer ∈ r.members getId ∧ ∃ m ∈ r.members getId, m ≠ getId localPeer
    · exact Or.inl (updated_from h hd hall)
    · obtain ⟨r, hr, halone⟩ := not_forall₂.mp hall
      exact Or.inr (update_fails h hd hr halone)

omit [Platform] in
/-- Two members and a peer of another group: the local peer has neighbours. -/
theorem rings_agree_three :
    let getId : PeerRef → Bytes := fun p => [Fin.ofNat 256 p]
    let g := @run getId sha1 []
      [.change (.addPeer 0), .change (.addPeer 1), .change (.addToRings 2), .updateNeighbours 0]
    (∀ r ∈ g.rings, ∀ r' ∈ g.rings, r.members getId = r'.members getId) ∧
      @Updated getId sha1 0 (@updateNeighbours sha1 getId g 0) := by
  intro getId g
  have hnamed : insert (getId 0) (Call.named getId
      [.change (.addPeer 0), .change (.addPeer 1), .change (.addToRings 2), .updateNeighbours 0]) ⊆
      {id | id ∈ [[(0 : Byte)], [1], [2]]} := by
    rintro id (rfl | ⟨op, ho, p, hp, rfl⟩)
    · decide
    · simp only [List.mem_cons, Call.change.injEq, reduceCtorEq, List.not_mem_nil, or_false] at ho
      rcases ho with rfl | rfl | rfl
      · rw [List.mem_singleton.mp hp]
        decide
      · rw [List.mem_singleton.mp hp]
        decide
      · rw [List.mem_singleton.mp hp]
        decide
  have hd : @KeysDiffer sha1 {id | id ∈ [[(0 : Byte)], [1], [2]]} := by
    have h : ∀ i < RINGS_NB, ∀ a ∈ [[(0 : Byte)], [1], [2]], ∀ b ∈ [[(0 : Byte)], [1], [2]],
        @makeHash sha1 (a ++ itos i) = @makeHash sha1 (b ++ itos i) → a = b := by
      decide +kernel
    intro i hi a ha b hb hab
    exact h i hi a ha b hb hab
  have agree := @rings_agree sha1 getId [] _ 0 fun i hi => (hd i hi).mono hnamed
  refine ⟨agree.2.1, ?_⟩
  rcases agree.2.2.2 with h | h
  · exact h
  · have hsome : (@updateNeighbours sha1 getId g 0).predecessors ≠ ∅ := by decide +kernel
    exact absurd (@Cleared.predecessors getId sha1 0 _ h) hsome

end Group

end RacKun
