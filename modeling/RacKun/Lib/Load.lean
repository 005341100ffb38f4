/-
  RacKun.Lib.Load — why a network of processes falls silent.

  Every message on its way has a price, and so has every connection not accepted yet; their
  sum is the load. A read takes off the price of what is read, an answer puts on no more
  than what it sends and dials.

  - `Acted.load`: the load after a move.
  - `again_and_again`: where all moves but some lower a rank, those come again and again.
  - `Run.follow`: a run may go on without end.
-/

import Mathlib.Algebra.BigOperators.Group.Finset.Piecewise
import Mathlib.Algebra.GroupWithZero.Nat
import Mathlib.Algebra.Order.BigOperators.Group.Finset
import Mathlib.Order.OrderIsoNat
import RacKun.Lib.Record

namespace RacKun.Lib

/-- A run without end in which every move that is not a prompt lowers the rank. -/
theorem again_and_again {S A β : Type} [Preorder β] [WellFoundedLT β] {step : S → A → S → Prop} {I : S → Prop}
    {rank : S → β} {prompt : A → Prop} (hkeep : ∀ s a s', I s → step s a s' → I s')
    (hlow : ∀ s a s', I s → step s a s' → ¬ prompt a → rank s' < rank s) (f : Nat → S) (a : Nat → A) (h₀ : I (f 0))
    (hs : ∀ n, step (f n) (a n) (f (n + 1))) (n : Nat) : ∃ k, n ≤ k ∧ prompt (a k) := by
  have hI : ∀ n, I (f n) := by
    intro n
    induction n with
    | zero => exact h₀
    | succ n ih => exact hkeep _ _ _ ih (hs n)
  by_contra hno
  push Not at hno
  -- from there on the rank would fall for ever
  have hfall : StrictAnti fun k => rank (f (n + k)) := strictAnti_nat_of_succ_lt fun k =>
    hlow _ _ _ (hI (n + k)) (hs (n + k)) (hno (n + k) (Nat.le_add_right n k))
  exact not_strictAnti_of_wellFoundedLT _ hfall

namespace Net

variable {ι σ π μ α : Type} [DecidableEq ι] [DecidableEq π]

/-- Some moves, then those of a run without end. -/
def follow (moves : List (Action ι π μ α)) (a : Nat → Action ι π μ α) (n : Nat) : Action ι π μ α :=
  (moves[n]?).getD (a (n - moves.length))

/-- A run that is followed by one without end. -/
theorem Run.follow {M : Machine ι σ π μ α} {w w' : Net ι σ π μ} {moves : List (Action ι π μ α)} (h : Run M w moves w') :
    ∀ {f : Nat → Net ι σ π μ} {a : Nat → Action ι π μ α}, f 0 = w' → (∀ n, Step M (f n) (a n) (f (n + 1))) →
      ∃ g : Nat → Net ι σ π μ, g 0 = w ∧ (∀ n, Step M (g n) (Net.follow moves a n) (g (n + 1))) ∧
        ∀ n, g (moves.length + n) = f n := by
  induction h with
  | refl =>
    intro f a h₀ hs
    exact ⟨f, h₀, hs, fun n => by rw [List.length_nil, Nat.zero_add]⟩
  | @step moves v v' b _ hst ih =>
    intro f a h₀ hs
    -- the last move comes first in what follows
    obtain ⟨g, hg, hstep, hv⟩ := ih (f := fun n => Nat.casesOn n v f) (a := fun n => Nat.casesOn n b a) rfl fun n => by
      cases n with
      | zero =>
        show Step M v b (f 0)
        exact h₀ ▸ hst
      | succ n => exact hs n
    have hfollow : Net.follow (moves ++ [b]) a = Net.follow moves fun n => Nat.casesOn n b a := by
      funext n
      unfold Net.follow
      rcases Nat.lt_trichotomy n moves.length with hn | rfl | hn
      · rw [List.getElem?_append_left hn, List.getElem?_eq_getElem hn, Option.getD_some, Option.getD_some]
      · rw [List.getElem?_concat_length, List.getElem?_eq_none (Nat.le_refl _), Nat.sub_self]
        rfl
      · obtain ⟨k, rfl⟩ := Nat.exists_eq_add_of_lt hn
        rw [List.getElem?_eq_none (by simp), List.getElem?_eq_none (by omega), List.length_append, List.length_singleton,
          show moves.length + k + 1 - moves.length = k + 1 by omega,
          show moves.length + k + 1 - (moves.length + 1) = k by omega]
    refine ⟨g, hg, fun n => hfollow ▸ hstep n, fun n => ?_⟩
    rw [List.length_append, List.length_singleton, Nat.add_assoc, Nat.add_comm 1 n]
    exact hv (n + 1)

/-- What an output puts on the net, at these prices. -/
def Output.price (price : μ → Nat) (call : Nat) : Output ι π μ → Nat
  | .send _ m => price m
  | .dial _ _ => call

def bill (price : μ → Nat) (call : Nat) (out : List (Output ι π μ)) : Nat := (out.map (Output.price price call)).sum

/-- What an input takes off it. -/
def earned (price : μ → Nat) (call : Nat) : Input ι π μ α → Nat
  | .read _ m => price m
  | .accept _ _ _ => call
  | _ => 0

/-- One end: what is written on it, and whether it waits to be accepted. -/
def due (price : μ → Nat) (call : Nat) (w : Net ι σ π μ) (i : ι) (p : π) : Nat :=
  ((w.queue i p).map price).sum + if (w.peer i p).isSome && (w.mate i p).isNone then call else 0

/-- Each process knows the names of its ends. -/
structure Housed (ends : σ → Finset π) (w : Net ι σ π μ) : Prop where
  peer : ∀ i p, (w.peer i p).isSome → p ∈ ends (w.node i)
  queue : ∀ i p, w.queue i p ≠ [] → p ∈ ends (w.node i)

variable {ends : σ → Finset π} {w v w' : Net ι σ π μ} {price : μ → Nat} {call : Nat} {i j : ι} {p q : π} {s' : σ}
  {out : List (Output ι π μ)}

omit [DecidableEq ι] [DecidableEq π] in
theorem Housed.due_out (h : Housed ends w) (hp : p ∉ ends (w.node i)) : due price call w i p = 0 := by
  have hq : w.queue i p = [] := by_contra fun hne => hp (h.queue i p hne)
  have hn : (w.peer i p).isSome = false := Bool.eq_false_iff.mpr fun hc => hp (h.peer i p hc)
  rw [due, hq, hn]
  rfl

omit [DecidableEq ι] in
/-- What is put on some ends is part of the bill. -/
theorem put_le_bill (F : Finset π) : ∀ out : List (Output ι π μ),
    ∑ p ∈ F, (((sentTo p out).map price).sum + if (dialed p out).isSome then call else 0) ≤ bill price call out := by
  intro out
  induction out with
  | nil => simp [sentTo, dialed]
  | cons o out ih =>
    have one : ∀ (q : π) (c : Nat), ∑ p ∈ F, (if q = p then c else 0) ≤ c := by
      intro q c
      rw [Finset.sum_ite_eq]
      split <;> omega
    have hbill : bill price call (o :: out) = o.price price call + bill price call out := rfl
    rw [hbill]
    cases o with
    | send q m =>
      refine le_trans ?_ (Nat.add_le_add (one q (price m)) ih)
      rw [← Finset.sum_add_distrib]
      refine Finset.sum_le_sum fun p _ => ?_
      by_cases hq : q = p
      · simp [sentTo, dialed, hq]
        omega
      · simp [sentTo, dialed, hq]
    | dial q j =>
      refine le_trans ?_ (Nat.add_le_add (one q call) ih)
      rw [← Finset.sum_add_distrib]
      refine Finset.sum_le_sum fun p _ => ?_
      by_cases hq : q = p
      · simp [sentTo, dialed, hq]
        omega
      · simp [sentTo, dialed, hq]

omit [DecidableEq ι] [DecidableEq π] in
/-- One end is due what is written on it. -/
theorem due_congr (hq : v.queue i p = w.queue i p) (hp : v.peer i p = w.peer i p) (hm : v.mate i p = w.mate i p) :
    due price call v i p = due price call w i p := by
  rw [due, due, hq, hp, hm]

theorem due_take {ms : List μ} {k : ι} {r : π} (hk : ¬ (k = j ∧ r = q)) :
    due price call (w.take j q ms) k r = due price call w k r := due_congr (if_neg hk) rfl rfl

/-! ## The load -/

variable [Fintype ι]

/-- Everything that is on its way, at these prices. -/
def load (ends : σ → Finset π) (price : μ → Nat) (call : Nat) (w : Net ι σ π μ) : Nat :=
  ∑ i, ∑ p ∈ ends (w.node i), due price call w i p

theorem load_after (h : ∀ p, p ∉ ends (v.node i) → due price call v i p = 0) : load ends price call (v.after i s' out) ≤
    load ends price call v + bill price call out := by
  have hnode : (v.after i s' out).node = Function.update v.node i s' := rfl
  rw [load, load, ← Finset.add_sum_erase _ _ (Finset.mem_univ i),
    ← Finset.add_sum_erase Finset.univ _ (Finset.mem_univ i), hnode, Function.update_self]
  -- the other processes' ends are as they were
  have hrest : ∑ k ∈ Finset.univ.erase i, ∑ p ∈ ends (Function.update v.node i s' k),
      due price call (v.after i s' out) k p = ∑ k ∈ Finset.univ.erase i, ∑ p ∈ ends (v.node k), due price call v k p := by
    refine Finset.sum_congr rfl fun k hk => ?_
    have hk := Finset.ne_of_mem_erase hk
    rw [Function.update_of_ne hk]
    refine Finset.sum_congr rfl fun p _ => ?_
    simp only [due, after, if_neg hk]
  have hone : ∀ p, due price call (v.after i s' out) i p ≤ due price call v i p +
      (((sentTo p out).map price).sum + if (dialed p out).isSome then call else 0) := by
    intro p
    simp only [due, after, if_true, List.map_append, List.sum_append]
    by_cases hd : (dialed p out).isSome = true
    · simp only [hd, if_true, List.map_nil, List.sum_nil, Option.isSome_or, Bool.true_or, Bool.true_and]
      split <;> omega
    · simp only [hd, Bool.false_eq_true, if_false, Option.isSome_or, Bool.false_or]
      omega
  have hold : ∑ p ∈ ends s', due price call v i p ≤ ∑ p ∈ ends (v.node i), due price call v i p := by
    refine (Finset.sum_subset_zero_on_sdiff Finset.inter_subset_left (fun p hp => ?_) fun p _ => rfl).symm.trans_le
      (Finset.sum_le_sum_of_subset Finset.inter_subset_right)
    rw [Finset.mem_sdiff, Finset.mem_inter, not_and] at hp
    exact h p (hp.2 hp.1)
  have hput : _ ≤ bill price call out := put_le_bill (ends s') out
  have hi := Finset.sum_le_sum fun p (_ : p ∈ ends s') => hone p
  rw [Finset.sum_add_distrib] at hi
  omega

theorem load_take {m : μ} {ms : List μ} (h : Housed ends w) (hq : w.queue j q = m :: ms) :
    load ends price call (w.take j q ms) + price m ≤ load ends price call w := by
  have hmem : q ∈ ends (w.node j) := h.queue j q (by rw [hq]; exact List.cons_ne_nil _ _)
  have hnode : (w.take j q ms).node = w.node := rfl
  rw [load, load, hnode, ← Finset.add_sum_erase _ _ (Finset.mem_univ j),
    ← Finset.add_sum_erase Finset.univ _ (Finset.mem_univ j), ← Finset.add_sum_erase _ _ hmem, ← Finset.add_sum_erase (ends (w.node j)) _ hmem]
  have hend : due price call (w.take j q ms) j q + price m = due price call w j q := by
    have hqueue : (w.take j q ms).queue j q = ms := if_pos ⟨rfl, rfl⟩
    rw [due, due, hqueue, hq, List.map_cons, List.sum_cons]
    show (ms.map price).sum + (if (w.peer j q).isSome && (w.mate j q).isNone then call else 0) + price m = _
    omega
  have hends : ∑ r ∈ (ends (w.node j)).erase q, due price call (w.take j q ms) j r =
      ∑ r ∈ (ends (w.node j)).erase q, due price call w j r := by
    exact Finset.sum_congr rfl fun r hr => due_take fun hk => Finset.ne_of_mem_erase hr hk.2
  have hrest : ∑ k ∈ Finset.univ.erase j, ∑ r ∈ ends (w.node k), due price call (w.take j q ms) k r =
      ∑ k ∈ Finset.univ.erase j, ∑ r ∈ ends (w.node k), due price call w k r := by
    exact Finset.sum_congr rfl fun k hk => Finset.sum_congr rfl fun r _ => due_take fun hkj =>
      Finset.ne_of_mem_erase hk hkj.1
  omega

theorem load_meet (h : Housed ends w) (hp : w.peer j p = some i) (hm : w.mate j p = none) (hq : w.peer i q = none) :
    load ends price call (w.meet j p i q) + call ≤ load ends price call w := by
  have hmem : p ∈ ends (w.node j) := h.peer j p (by rw [hp]; rfl)
  have hne : ¬ (j = i ∧ p = q) := by
    rintro ⟨rfl, rfl⟩
    rw [hp] at hq
    cases hq
  have hle : ∀ k r, due price call (w.meet j p i q) k r ≤ due price call w k r := by
    intro k r
    simp only [due, meet]
    by_cases hki : k = i ∧ r = q
    · simp [hki]
    · by_cases hkj : k = j ∧ r = p
      · simp [hkj, hne]
      · simp [hki, hkj]
  have hnode : (w.meet j p i q).node = w.node := rfl
  rw [load, load, hnode, ← Finset.add_sum_erase _ _ (Finset.mem_univ j),
    ← Finset.add_sum_erase Finset.univ _ (Finset.mem_univ j), ← Finset.add_sum_erase _ _ hmem, ← Finset.add_sum_erase (ends (w.node j)) _ hmem]
  have hend : due price call (w.meet j p i q) j p + call = due price call w j p := by
    simp [due, meet, hne, hp, hm]
  have hends := Finset.sum_le_sum fun r (_ : r ∈ (ends (w.node j)).erase p) => hle j r
  have hrest := Finset.sum_le_sum fun k (_ : k ∈ Finset.univ.erase j) =>
    Finset.sum_le_sum fun r (_ : r ∈ ends (w.node k)) => hle k r
  omega

/-! ## One move -/

variable {M : Machine ι σ π μ α} {A : ι → α → Prop} {Q : ι → ι → μ → Prop} {inp : Input ι π μ α}

omit [Fintype ι] in
/-- What an input brings keeps the books. -/
theorem Brings.housed (hb : Brings w i inp v) (h : Housed ends w) (he : ∀ j p q, inp = .accept j p q → q ∈ ends s')
    (hg : ends (w.node i) ⊆ ends s') : Housed ends { v with node := Function.update w.node i s' } := by
  have old : ∀ k r, r ∈ ends (w.node k) → r ∈ ends (Function.update w.node i s' k) := by
    intro k r hr
    by_cases hk : k = i
    · subst hk
      rw [Function.update_self]
      exact hg hr
    · rwa [Function.update_of_ne hk]
  cases hb with
  | own a => exact ⟨fun k r hr => old k r (h.peer k r hr), fun k r hr => old k r (h.queue k r hr)⟩
  | close hp hgone => exact ⟨fun k r hr => old k r (h.peer k r hr), fun k r hr => old k r (h.queue k r hr)⟩
  | @accept j p q hp hm hq =>
    have hnew : ∀ k r, k = i ∧ r = q → r ∈ ends (Function.update w.node i s' k) := by
      rintro k r ⟨rfl, rfl⟩
      rw [Function.update_self]
      exact he j p r rfl
    refine ⟨fun k r hr => ?_, fun k r hr => ?_⟩
    · by_cases hk : k = i ∧ r = q
      · exact hnew k r hk
      · exact old k r (h.peer k r (by simpa only [meet, if_neg hk] using hr))
    · by_cases hk : k = i ∧ r = q
      · exact hnew k r hk
      · exact old k r (h.queue k r (by simpa only [meet, if_neg hk] using hr))
  | @read j p q m ms hp hm hq =>
    refine ⟨fun k r hr => old k r (h.peer k r hr), fun k r hr => old k r (h.queue k r ?_)⟩
    by_cases hk : k = j ∧ r = q
    · rw [hk.1, hk.2, hq]
      exact List.cons_ne_nil _ _
    · simpa only [take, if_neg hk] using hr

omit [Fintype ι] in
theorem Acted.housed (ha : Acted M A Q w w' i inp s' out) (h : Housed ends w) (hg : ends (w.node i) ⊆ ends s')
    (he : ∀ j p q, inp = .accept j p q → q ∈ ends s') (hs : ∀ p m, .send p m ∈ out → p ∈ ends s')
    (hd : ∀ p j, .dial p j ∈ out → p ∈ ends s') : Housed ends w' := by
  obtain ⟨v, hb, rfl⟩ := ha.after
  have hv := hb.housed h he hg
  have hself : (v.after i s' out).node = Function.update w.node i s' := ha.node
  refine ⟨fun k r hr => ?_, fun k r hr => ?_⟩
  · rw [hself]
    simp only [Net.after] at hr
    split at hr
    · rename_i hk
      subst hk
      cases hdial : dialed r out with
      | some j =>
        rw [Function.update_self]
        exact hd r j (dialed_mem hdial)
      | none =>
        rw [hdial, Option.none_or] at hr
        exact hv.peer k r hr
    · exact hv.peer k r hr
  · rw [hself]
    obtain ⟨m, hm⟩ := List.exists_mem_of_ne_nil _ hr
    rcases mem_after hm with hm | ⟨rfl, hm⟩
    · exact hv.queue k r (List.ne_nil_of_mem hm)
    · rw [Function.update_self]
      exact hs r m (by assumption)

/-- The load after a move. -/
theorem Acted.load (ha : Acted M A Q w w' i inp s' out) (h : Housed ends w) :
    load ends price call w' + earned price call inp ≤ load ends price call w + bill price call out := by
  obtain ⟨v, hb, rfl⟩ := ha.after
  cases hb with
  | own a => exact load_after fun p hp => h.due_out hp
  | close hp hgone => exact load_after fun p hp => h.due_out hp
  | @accept j p q hp hm hq =>
    have hmeet : Net.load ends price call _ + call ≤ Net.load ends price call w := load_meet h hp hm hq
    have hafter : Net.load ends price call ((w.meet j p i q).after i s' out) ≤ _ := load_after fun r hr => by
      by_cases hrq : r = q
      · simp [due, meet, hrq]
      · have hz : due price call w i r = 0 := h.due_out hr
        have hne : ¬ (i = j ∧ r = p) := by
          rintro ⟨rfl, rfl⟩
          exact hr (h.peer i r (by rw [hp]; rfl))
        simpa [due, meet, hrq, hne] using hz
    simp only [earned]
    omega
  | @read j p q m ms hp hm hq =>
    have htake : Net.load ends price call _ + price m ≤ Net.load ends price call w := load_take h hq
    have hafter : Net.load ends price call ((w.take j q ms).after i s' out) ≤ _ := load_after fun r hr => by
      have hne : ¬ (i = j ∧ r = q) := by
        rintro ⟨rfl, rfl⟩
        exact hr (h.queue i r (by rw [hq]; exact List.cons_ne_nil _ _))
      exact (due_take hne).trans (h.due_out hr)
    simp only [earned]
    omega

end Net

end RacKun.Lib
