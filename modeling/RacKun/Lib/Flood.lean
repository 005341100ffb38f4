/-
  RacKun.Lib.Flood — flooding a directed graph: a node that meets the message for the
  first time sends a copy along each of its edges, and drops every further copy.

  `wire` holds the copies in flight, `got` and `lost` those delivered and those that never
  will be. Copies are delivered in any order, and any of them may get lost.

  - `Inv`: the copies ever sent are one for each edge of each node that has the message.
  - `covered`: when nothing was lost and nothing is in flight, the nodes that have the
    message are closed under the edges.
-/

import Mathlib.Algebra.BigOperators.Group.Finset.Piecewise
import Mathlib.Algebra.Order.BigOperators.Group.Finset

namespace RacKun.Lib.Flood

structure State (V : Type) where
  seen : Finset V
  wire : Multiset (V × V)
  got : Multiset (V × V)
  lost : Multiset (V × V)

variable {V : Type} (succ : V → List V)

/-- The copies a node sends. -/
def copies (v : V) : Multiset (V × V) := (succ v : Multiset V).map (v, ·)

def start (origin : V) : State V := ⟨{origin}, copies succ origin, 0, 0⟩

variable [DecidableEq V]

def State.deliver (s : State V) (e : V × V) : State V where
  seen := insert e.2 s.seen
  wire := s.wire.erase e + if e.2 ∈ s.seen then 0 else copies succ e.2
  got := e ::ₘ s.got
  lost := s.lost

def State.lose (s : State V) (e : V × V) : State V := { s with wire := s.wire.erase e, lost := e ::ₘ s.lost }

/-- All copies there have been. -/
def State.sent (s : State V) : Multiset (V × V) := s.wire + s.got + s.lost

/-- What holds from the start on. -/
structure Inv (origin : V) (s : State V) : Prop where
  sent : s.sent = ∑ v ∈ s.seen, copies succ v
  seen : ∀ v, v ∈ s.seen ↔ v = origin ∨ ∃ u, (u, v) ∈ s.got

variable {succ}

omit [DecidableEq V] in
theorem start_inv (origin : V) : Inv succ origin (start succ origin) where
  sent := by simp [State.sent, start]
  seen v := by simp [start]

theorem Inv.deliver {origin : V} {s : State V} (h : Inv succ origin s) {e : V × V} (he : e ∈ s.wire) :
    Inv succ origin (s.deliver succ e) where
  sent := by
    have hw : s.wire.erase e + e ::ₘ s.got + s.lost = s.sent := by
      rw [Multiset.add_cons, ← Multiset.cons_add, Multiset.cons_erase he, State.sent]
    show s.wire.erase e + _ + e ::ₘ s.got + s.lost = ∑ v ∈ insert e.2 s.seen, copies succ v
    split
    · rename_i hs
      rw [add_zero, hw, h.sent, Finset.insert_eq_of_mem hs]
    · rename_i hs
      rw [Finset.sum_insert hs, ← h.sent, ← hw]
      ac_rfl
  seen v := by
    obtain ⟨u, w⟩ := e
    show v ∈ insert w s.seen ↔ v = origin ∨ ∃ x, (x, v) ∈ (u, w) ::ₘ s.got
    simp only [Finset.mem_insert, h.seen v, Multiset.mem_cons, Prod.mk.injEq]
    constructor
    · rintro (rfl | rfl | ⟨x, hx⟩)
      · exact Or.inr ⟨u, Or.inl ⟨rfl, rfl⟩⟩
      · exact Or.inl rfl
      · exact Or.inr ⟨x, Or.inr hx⟩
    · rintro (rfl | ⟨x, ⟨-, rfl⟩ | hx⟩)
      · exact Or.inr (Or.inl rfl)
      · exact Or.inl rfl
      · exact Or.inr (Or.inr ⟨x, hx⟩)

theorem Inv.lose {origin : V} {s : State V} (h : Inv succ origin s) {e : V × V} (he : e ∈ s.wire) :
    Inv succ origin (s.lose e) where
  sent := by
    refine Eq.trans ?_ h.sent
    show s.wire.erase e + s.got + e ::ₘ s.lost = s.sent
    rw [Multiset.add_cons, ← Multiset.cons_add, ← Multiset.cons_add, Multiset.cons_erase he, State.sent]
  seen := h.seen

/-- Every node sends one copy along each of its edges, or none. -/
theorem Inv.count {origin : V} {s : State V} (h : Inv succ origin s) (hn : ∀ v, (succ v).Nodup) (u v : V) :
    s.sent.count (u, v) = if u ∈ s.seen ∧ v ∈ succ u then 1 else 0 := by
  have hc : ∀ w, (copies succ w).count (u, v) = if w = u ∧ v ∈ succ u then 1 else 0 := by
    intro w
    by_cases hw : w = u
    · subst hw
      rw [copies, Multiset.count_map_eq_count' _ _ (Prod.mk_right_injective w)]
      simp only [true_and]
      split
      · rename_i hv
        exact Multiset.count_eq_one_of_mem (Multiset.coe_nodup.mpr (hn w)) (Multiset.mem_coe.mpr hv)
      · rename_i hv
        exact Multiset.count_eq_zero_of_notMem fun hm => hv (Multiset.mem_coe.mp hm)
    · rw [if_neg fun hc => hw hc.1, Multiset.count_eq_zero]
      intro hm
      obtain ⟨x, -, hx⟩ := Multiset.mem_map.mp hm
      exact hw (congrArg Prod.fst hx)
  rw [h.sent, Multiset.count_sum']
  simp only [hc]
  by_cases hv : v ∈ succ u
  · simp only [hv, and_true, Finset.sum_ite_eq']
  · simp only [hv, and_false, if_false, Finset.sum_const_zero]

omit [DecidableEq V] in
/-- The copies ever sent are bounded by the number of edges. -/
theorem Inv.bound [Fintype V] {origin : V} {s : State V} (h : Inv succ origin s) :
    s.sent.card ≤ ∑ v, (succ v).length := by
  rw [h.sent, Multiset.card_sum]
  refine (Finset.sum_le_sum_of_subset (Finset.subset_univ _)).trans_eq (Finset.sum_congr rfl fun v _ => ?_)
  rw [copies, Multiset.card_map, Multiset.coe_card]

omit [DecidableEq V] in
theorem Inv.covered {origin : V} {s : State V} (h : Inv succ origin s) (hl : s.lost = 0) (hw : s.wire = 0) {u v : V}
    (hu : u ∈ s.seen) (hv : v ∈ succ u) : v ∈ s.seen := by
  have hm : (u, v) ∈ s.sent := by
    rw [h.sent, Multiset.mem_sum]
    exact ⟨u, hu, Multiset.mem_map_of_mem _ (Multiset.mem_coe.mpr hv)⟩
  rw [State.sent, hw, hl, zero_add, add_zero] at hm
  exact (h.seen v).mpr (Or.inr ⟨u, hm⟩)

end RacKun.Lib.Flood
