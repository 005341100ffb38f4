/-
  RacKun.Lib.Record — what is read on a connection was written at its other end.

  Processes that keep a record of what they write, and a run of them: on each connection
  the record is what has been read at the other end, and then what is on its way. So nobody
  has read more from another one than that one has written to him.

  - `Conserved.run`: that holds in every run.
  - `Conserved.readMated_subperm`: over all connections of two processes.
-/

import Mathlib.Data.List.Count
import Mathlib.Data.List.Perm.Subperm
import RacKun.Lib.Net

namespace RacKun.Lib.Net

variable {ι σ π μ α : Type} [DecidableEq ι] [DecidableEq π]

/-! ## What is added to a promise -/

omit [DecidableEq ι] in
/-- A property of its own state that each process keeps, as long as the promises are kept. -/
theorem Contract.add {M : Machine ι σ π μ α} {A : ι → α → Prop} {P : ι → (π → Option ι) → σ → Prop}
    {Q : ι → ι → μ → Prop} (hc : Contract M A P Q) {R : ι → σ → Prop}
    (hr : ∀ {i far s inp s' out}, P i far s → R i s → M i s inp s' out → R i s') :
    Contract M A (fun i far s => P i far s ∧ R i s) Q where
  fresh h hf hm := hc.fresh h.1 hf hm
  keeps h hf hm := ⟨hc.keeps h.1 hf hm, hr h.1 h.2 hm⟩
  sends h hf hm := hc.sends h.1 hf hm

/-! ## Records -/

/-- What a record says of one end. -/
def on (p : π) (xs : List (π × μ)) : List μ := xs.filterMap fun x => if x.1 = p then some x.2 else none

def sends (out : List (Output ι π μ)) : List (π × μ) :=
  out.filterMap fun
    | .send p m => some (p, m)
    | .dial _ _ => none

/-- What a process has read on one of its ends. -/
def readOn (i : ι) (p : π) (moves : List (Action ι π μ α)) : List μ :=
  moves.filterMap fun
    | .act k (.read q m) => if k = i ∧ q = p then some m else none
    | _ => none

/-- Each process records what it writes; on a new end it has written nothing. -/
structure Recorder (M : Machine ι σ π μ α) (P : ι → (π → Option ι) → σ → Prop) (wrote : σ → List (π × μ)) : Prop where
  writes : ∀ {i far s inp s' out}, P i far s → M i s inp s' out → wrote s' = wrote s ++ sends out
  blank : ∀ {i far s inp s' out}, P i far s → M i s inp s' out → ∀ p, far p = none →
    ((dialed p out).or (inp.ends far p)).isSome → on p (wrote s) = []

/-- What has been written on an end is what has been read at the other one, if the connection
    has been accepted, and then what is on its way. -/
structure Conserved (wrote : σ → List (π × μ)) (moves : List (Action ι π μ α)) (w : Net ι σ π μ) : Prop where
  unread : ∀ i p, w.mate i p = none → readOn i p moves = []
  written : ∀ i p j, w.peer i p = some j →
    on p (wrote (w.node i)) = (w.mate i p).elim [] (fun q => readOn j q moves) ++ w.queue i p

omit [DecidableEq ι] in
theorem on_append (p : π) (xs ys : List (π × μ)) : on p (xs ++ ys) = on p xs ++ on p ys := List.filterMap_append ..

omit [DecidableEq ι] in
theorem on_sends (p : π) (out : List (Output ι π μ)) : on p (sends out) = sentTo p out := by
  rw [on, sends, sentTo, List.filterMap_filterMap]
  refine List.filterMap_congr fun o _ => ?_
  cases o <;> rfl

theorem readOn_append (i : ι) (p : π) (moves moves' : List (Action ι π μ α)) :
    readOn i p (moves ++ moves') = readOn i p moves ++ readOn i p moves' := List.filterMap_append ..

/-- The move reads nothing on this end. -/
theorem readOn_other {i : ι} {p : π} {moves : List (Action ι π μ α)} {a : Action ι π μ α}
    (ha : ∀ m, a ≠ .act i (.read p m)) : readOn i p (moves ++ [a]) = readOn i p moves := by
  have hn : readOn i p [a] = [] := by
    cases a with
    | leave k => rfl
    | act k inp =>
      cases inp with
      | read q m =>
        have hne : ¬ (k = i ∧ q = p) := by
          intro h
          obtain ⟨rfl, rfl⟩ := h
          exact ha m rfl
        simp only [readOn, List.filterMap_cons, if_neg hne, List.filterMap_nil]
      | own a => rfl
      | accept j r q => rfl
      | close q => rfl
  rw [readOn_append, hn, List.append_nil]

theorem readOn_read (i : ι) (p : π) (m : μ) (moves : List (Action ι π μ α)) :
    readOn i p (moves ++ [.act i (.read p m)]) = readOn i p moves ++ [m] := by
  rw [readOn_append]
  simp [readOn]

section

variable {M : Machine ι σ π μ α} {A : ι → α → Prop} {P : ι → (π → Option ι) → σ → Prop} {Q : ι → ι → μ → Prop}
  {wrote : σ → List (π × μ)} {w v w' : Net ι σ π μ} {moves : List (Action ι π μ α)} {a : Action ι π μ α}
  {i j : ι} {p q : π}

/-! ## One step -/

omit [DecidableEq ι] [DecidableEq π] in
/-- Only an end that exists has another one. -/
theorem Linked.alone (h : w.Linked) (hp : w.peer i p = none) : w.mate i p = none := by
  cases hm : w.mate i p with
  | none => rfl
  | some q =>
    obtain ⟨j, hj, -⟩ := h.mates i p q hm
    rw [hp] at hj
    cases hj

omit [DecidableEq ι] [DecidableEq π] in
/-- An end is the other end of one end only. -/
theorem Linked.mate_unique (h : w.Linked) {k l : ι} {r s : π} (hk : w.mate k r = some s) (hl : w.peer k r = some l) :
    w.peer l s = some k ∧ w.mate l s = some r := by
  obtain ⟨l', hl', hback, hmate⟩ := h.mates k r s hk
  obtain rfl : l' = l := Option.some.inj (hl'.symm.trans hl)
  exact ⟨hback, hmate⟩

/-- The connection that is accepted has nothing read on it yet. -/
theorem Conserved.meet (h : Conserved wrote moves w) (hl : w.Linked) (hp : w.peer j p = some i) (hm : w.mate j p = none)
    (hq : w.peer i q = none) (hblank : on q (wrote (w.node i)) = []) : Conserved wrote moves (w.meet j p i q) := by
  have hne : ¬ (j = i ∧ p = q) := by
    rintro ⟨rfl, rfl⟩
    rw [hp] at hq
    cases hq
  refine ⟨fun k r hr => ?_, fun k r l hk => ?_⟩
  · simp only [Net.meet] at hr
    split at hr
    · cases hr
    · split at hr
      · cases hr
      · exact h.unread k r hr
  · simp only [Net.meet] at hk ⊢
    by_cases hki : k = i ∧ r = q
    · -- the new end
      obtain ⟨rfl, rfl⟩ := hki
      simp only [and_self, if_true, Option.some.injEq] at hk ⊢
      subst hk
      rw [hblank, Option.elim_some, h.unread _ p hm]
      rfl
    · rw [if_neg hki] at hk ⊢
      rw [if_neg hki, h.written k r l hk]
      by_cases hkj : k = j ∧ r = p
      · -- the end it was dialed on
        obtain ⟨rfl, rfl⟩ := hkj
        obtain rfl : l = i := Option.some.inj (hk.symm.trans hp)
        rw [if_pos ⟨rfl, rfl⟩, hm, Option.elim_some, Option.elim_none, h.unread _ q (hl.alone hq)]
      · rw [if_neg hkj]

/-- What is read is no longer on its way. -/
theorem Conserved.take (h : Conserved wrote moves w) (hl : w.Linked) {m : μ} {ms : List μ} (hp : w.peer i p = some j)
    (hm : w.mate i p = some q) (hqueue : w.queue j q = m :: ms) :
    Conserved wrote (moves ++ [.act i (.read p m)]) (w.take j q ms) := by
  obtain ⟨hback, hmate⟩ := hl.mate_unique hm hp
  refine ⟨fun k r hr => ?_, fun k r l hk => ?_⟩
  · have hr : w.mate k r = none := hr
    rw [readOn_other, h.unread k r hr]
    intro m' he
    cases he
    rw [hm] at hr
    cases hr
  · have hk : w.peer k r = some l := hk
    show on r (wrote (w.node k)) = (w.mate k r).elim [] _ ++ if k = j ∧ r = q then ms else w.queue k r
    rw [h.written k r l hk]
    by_cases hkj : k = j ∧ r = q
    · obtain ⟨rfl, rfl⟩ := hkj
      obtain rfl : l = i := Option.some.inj (hk.symm.trans hback)
      rw [if_pos ⟨rfl, rfl⟩, hmate, hqueue, Option.elim_some, Option.elim_some, readOn_read, List.append_assoc]
      rfl
    · rw [if_neg hkj]
      cases hs : w.mate k r with
      | none => rfl
      | some s =>
        rw [Option.elim_some, Option.elim_some, readOn_other]
        intro m' he
        cases he
        -- its other end would be the one that is read
        obtain ⟨hl', hs'⟩ := hl.mate_unique hs hk
        obtain rfl : j = k := Option.some.inj (hp.symm.trans hl')
        obtain rfl : q = r := Option.some.inj (hm.symm.trans hs')
        exact hkj ⟨rfl, rfl⟩

/-- What is written is on its way. -/
theorem Conserved.after (h : Conserved wrote moves v) (hl : v.Linked) {s' : σ} {out : List (Output ι π μ)}
    (hf : v.Fresh i out) (hw : wrote s' = wrote (v.node i) ++ sends out)
    (hb : ∀ r, (dialed r out).isSome → on r (wrote (v.node i)) = []) : Conserved wrote moves (v.after i s' out) := by
  refine ⟨h.unread, fun k r l hk => ?_⟩
  by_cases hki : k = i
  · subst hki
    have hk : (dialed r out).or (v.peer k r) = some l := by
      rw [← hk]
      exact (if_pos rfl).symm
    show on r (wrote (Function.update v.node k s' k)) =
      (v.mate k r).elim [] _ ++ if k = k then (if (dialed r out).isSome then [] else v.queue k r) ++ sentTo r out else _
    rw [Function.update_self, if_pos rfl, hw, on_append, on_sends, ← List.append_assoc]
    congr 1
    by_cases hd : (dialed r out).isSome
    · rw [if_pos hd, hb r hd, hl.alone (hf r hd)]
      rfl
    · rw [if_neg hd]
      rw [Option.not_isSome_iff_eq_none.mp hd] at hk
      exact h.written k r l hk
  · have hk : v.peer k r = some l := by
      rw [← hk]
      exact (if_neg hki).symm
    show on r (wrote (Function.update v.node i s' k)) = _ ++ if k = i then _ else v.queue k r
    rw [Function.update_of_ne hki, if_neg hki]
    exact h.written k r l hk

/-- A move reads, or does not. -/
theorem Conserved.idle (h : Conserved wrote moves w) (ha : ∀ i p m, a ≠ .act i (.read p m)) :
    Conserved wrote (moves ++ [a]) w := by
  refine ⟨fun k r hr => ?_, fun k r l hk => ?_⟩
  · rw [readOn_other (ha k r), h.unread k r hr]
  · rw [h.written k r l hk]
    congr 2
    funext q
    rw [readOn_other (ha l q)]

/-! ## Runs -/

theorem Conserved.step (h : Conserved wrote moves w) (hc : Contract M A P Q) (hr : Recorder M P wrote) (hk : Kept P Q w)
    (ha : a.Allowed A) (hs : Step M w a w') : Conserved wrote (moves ++ [a]) w' := by
  cases hs with
  | @own i a s' out hg hm =>
    have hfair : (Input.own a).Fair A Q i (w.peer i) := ha
    have hfresh := hc.fresh (hk.node i) hfair hm
    exact (h.idle fun _ _ _ hc => by cases hc).after hk.toLinked hfresh (hr.writes (hk.node i) hm)
      fun r hd => hr.blank (hk.node i) hm r (hfresh r hd) (by simp [hd])
  | @accept i j p q s' out hg hp hmate hq hm =>
    have hfair : (Input.accept j p q : Input ι π μ α).Fair A Q i (w.peer i) := hq
    have hfresh : ∀ r, (dialed r out).isSome → Function.update (w.peer i) q (some j) r = none := fun r hd =>
      hc.fresh (hk.node i) hfair hm r hd
    have hold : ∀ r, (dialed r out).isSome → w.peer i r = none := by
      intro r hd
      have hn := hfresh r hd
      by_cases hrq : r = q
      · rw [hrq]
        exact hq
      · rwa [Function.update_of_ne hrq] at hn
    have hmeet : Conserved wrote moves (w.meet j p i q) := h.meet hk.toLinked hp hmate hq
      (hr.blank (hk.node i) hm q hq (by simp [Input.ends]))
    refine (hmeet.idle fun _ _ _ hc => by cases hc).after (hk.toLinked.meet hp hmate hq) (fun r hd => ?_)
      (hr.writes (hk.node i) hm) fun r hd => hr.blank (hk.node i) hm r (hold r hd) (by simp [hd])
    have hn := hfresh r hd
    rw [Function.update_apply] at hn
    simpa [Net.meet] using hn
  | @read i j p q m ms s' out hg hp hmate hqueue hm =>
    have hfair : (Input.read p m : Input ι π μ α).Fair A Q i (w.peer i) := by
      intro l hl
      obtain rfl : l = j := Option.some.inj (hl.symm.trans hp)
      exact hk.queue l q i (hk.toLinked.mate_unique hmate hp).1 m (by rw [hqueue]; exact List.mem_cons_self)
    have hfresh := hc.fresh (hk.node i) hfair hm
    exact (h.take hk.toLinked hp hmate hqueue).after (hk.toLinked.take j q ms) hfresh (hr.writes (hk.node i) hm)
      fun r hd => hr.blank (hk.node i) hm r (hfresh r hd) (by simp [hd])
  | @close i j p s' out hg hp hgone hm =>
    have hfair : (Input.close p : Input ι π μ α).Fair A Q i (w.peer i) := trivial
    have hfresh := hc.fresh (hk.node i) hfair hm
    exact (h.idle fun _ _ _ hc => by cases hc).after hk.toLinked hfresh (hr.writes (hk.node i) hm)
      fun r hd => hr.blank (hk.node i) hm r (hfresh r hd) (by simp [hd])
  | @leave i hg =>
    have hi : Conserved wrote (moves ++ [Action.leave i]) w := h.idle fun _ _ _ hc => by cases hc
    exact ⟨hi.unread, hi.written⟩

/-- In every run, what has been written is what has been read and what is on its way. -/
theorem Conserved.run (hc : Contract M A P Q) (hr : Recorder M P wrote) (hk : Kept P Q w)
    (h : Conserved wrote ([] : List (Action ι π μ α)) w) (ha : ∀ a ∈ moves, a.Allowed A) (hrun : Run M w moves w') : Conserved wrote moves w' := by
  induction hrun with
  | refl => exact h
  | step hrun hs ih =>
    have hold := fun a hm => ha a (List.mem_append_left _ hm)
    exact (ih hold).step hc hr (hc.run hk hold hrun) (ha _ (List.mem_append_right _ List.mem_cons_self)) hs

/-! ## What a move does -/

/-- What an input itself does to the net. -/
inductive Brings (w : Net ι σ π μ) (i : ι) : Input ι π μ α → Net ι σ π μ → Prop
  | own (a : α) : Brings w i (.own a) w
  | accept {j : ι} {p q : π} : w.peer j p = some i → w.mate j p = none → w.peer i q = none →
    Brings w i (.accept j p q) (w.meet j p i q)
  | read {j : ι} {p q : π} {m : μ} {ms : List μ} : w.peer i p = some j → w.mate i p = some q → w.queue j q = m :: ms →
    Brings w i (.read p m) (w.take j q ms)
  | close {j : ι} {p : π} : w.peer i p = some j → w.gone j = true → Brings w i (.close p) w

/-- A process answers an input: whatever it reads was on its way, and what is on its way was
    before or has been sent now. -/
structure Acted (M : Machine ι σ π μ α) (A : ι → α → Prop) (Q : ι → ι → μ → Prop) (w w' : Net ι σ π μ) (i : ι)
    (inp : Input ι π μ α) (s' : σ) (out : List (Output ι π μ)) : Prop where
  fair : inp.Fair A Q i (w.peer i)
  answer : M i (w.node i) inp s' out
  node : w'.node = Function.update w.node i s'
  peer : ∀ {k p j}, w.peer k p = some j → w'.peer k p = some j
  queue : ∀ {k p m}, m ∈ w'.queue k p → m ∈ w.queue k p ∨ k = i ∧ .send p m ∈ out
  heard : ∀ {p m}, inp = .read p m → ∃ j q, w.peer i p = some j ∧ w.peer j q = some i ∧ m ∈ w.queue j q
  after : ∃ v, w.Brings i inp v ∧ w' = v.after i s' out

/-- What is on its way after an answer. -/
theorem mem_after {s' : σ} {out : List (Output ι π μ)} {k : ι} {m : μ} (hm : m ∈ (v.after i s' out).queue k p) :
    m ∈ v.queue k p ∨ k = i ∧ .send p m ∈ out := by
  simp only [Net.after] at hm
  split at hm
  · rename_i hk
    subst hk
    rcases List.mem_append.mp hm with hm | hm
    · split at hm
      · cases hm
      · exact Or.inl hm
    · exact Or.inr ⟨rfl, mem_sentTo.mp hm⟩
  · exact Or.inl hm

theorem Contract.acted (hc : Contract M A P Q) (hk : Kept P Q w) {inp : Input ι π μ α}
    (ha : (Action.act i inp).Allowed A) (hs : Step M w (.act i inp) w') : ∃ s' out, Acted M A Q w w' i inp s' out := by
  cases hs with
  | @own _ a s' out hg hm =>
    have hfair : (Input.own a).Fair A Q i (w.peer i) := ha
    exact ⟨s', out, hfair, hm, rfl, after_peer (hc.fresh (hk.node i) hfair hm), mem_after, fun h => (by cases h),
      w, .own a, rfl⟩
  | @accept _ j p q s' out hg hp hmate hq hm =>
    have hfair : (Input.accept j p q : Input ι π μ α).Fair A Q i (w.peer i) := hq
    have hfresh : (w.meet j p i q).Fresh i out := by
      intro r hd
      have hn : Function.update (w.peer i) q (some j) r = none := hc.fresh (hk.node i) hfair hm r hd
      rw [Function.update_apply] at hn
      simpa [Net.meet] using hn
    refine ⟨s', out, hfair, hm, rfl, fun {k r l} hold => after_peer hfresh ?_, fun {k r m} hmem => ?_,
      fun h => (by cases h), _, .accept hp hmate hq, rfl⟩
    · simp only [Net.meet]
      rw [if_neg ?_]
      · exact hold
      · rintro ⟨rfl, rfl⟩
        rw [hq] at hold
        cases hold
    · refine (mem_after hmem).imp_left fun hmem => ?_
      simp only [Net.meet] at hmem
      split at hmem
      · cases hmem
      · exact hmem
  | @read _ j p q m ms s' out hg hp hmate hqueue hm =>
    obtain ⟨hback, -⟩ := hk.toLinked.mate_unique hmate hp
    have hfair : (Input.read p m : Input ι π μ α).Fair A Q i (w.peer i) := by
      intro l hl
      obtain rfl : l = j := Option.some.inj (hl.symm.trans hp)
      exact hk.queue l q i hback m (by rw [hqueue]; exact List.mem_cons_self)
    refine ⟨s', out, hfair, hm, rfl, after_peer (w := w.take j q ms) (hc.fresh (hk.node i) hfair hm),
      fun {k r m'} hmem => ?_, fun h => ?_, _, .read hp hmate hqueue, rfl⟩
    · refine (mem_after hmem).imp_left fun hmem => ?_
      simp only [Net.take] at hmem
      split at hmem
      · rename_i hkr
        rw [hkr.1, hkr.2, hqueue]
        exact List.mem_cons_of_mem _ hmem
      · exact hmem
    · cases h
      exact ⟨j, q, hp, hback, by rw [hqueue]; exact List.mem_cons_self⟩
  | @close _ j p s' out hg hp hgone hm =>
    have hfair : (Input.close p : Input ι π μ α).Fair A Q i (w.peer i) := trivial
    exact ⟨s', out, hfair, hm, rfl, after_peer (hc.fresh (hk.node i) hfair hm), mem_after, fun h => (by cases h),
      w, .close hp hgone, rfl⟩

/-! ## Two processes -/

/-- What one has read from the other, and on which ends. -/
def readFrom (w : Net ι σ π μ) (i j : ι) (moves : List (Action ι π μ α)) : List (π × μ) :=
  moves.filterMap fun
    | .act k (.read p m) => if k = i ∧ w.peer i p = some j then some (p, m) else none
    | _ => none

omit [DecidableEq π] in
theorem readFrom_append (w : Net ι σ π μ) (i j : ι) (moves moves' : List (Action ι π μ α)) :
    readFrom w i j (moves ++ moves') = readFrom w i j moves ++ readFrom w i j moves' := List.filterMap_append ..

/-- By the names the other one has for these ends. -/
def readMated (w : Net ι σ π μ) (i j : ι) (moves : List (Action ι π μ α)) : List (π × μ) :=
  (readFrom w i j moves).map fun x => ((w.mate i x.1).getD x.1, x.2)

omit [DecidableEq π] in
theorem mem_readFrom {x : π × μ} (h : x ∈ readFrom w i j moves) :
    .act i (.read x.1 x.2) ∈ moves ∧ w.peer i x.1 = some j := by
  obtain ⟨a, ha, hx⟩ := List.mem_filterMap.mp h
  split at hx
  · split at hx
    · rename_i hc
      cases hx
      exact ⟨hc.1 ▸ ha, hc.2⟩
    · cases hx
  · cases hx

omit [DecidableEq π] in
/-- Connections last. -/
theorem readFrom_congr (h : ∀ p m, .act i (.read p m) ∈ moves → w'.peer i p = w.peer i p) :
    readFrom w' i j moves = readFrom w i j moves := by
  refine List.filterMap_congr fun a ha => ?_
  split
  · rename_i k p m
    by_cases hk : k = i
    · subst hk
      rw [h p m ha]
    · rw [if_neg fun hc => hk hc.1, if_neg fun hc => hk hc.1]
  · rfl

/-- Whatever has been read was read on an accepted connection. -/
theorem Conserved.read_mated (h : Conserved wrote moves w) {m : μ} (hm : .act i (.read p m) ∈ moves) :
    ∃ q, w.mate i p = some q := by
  refine Option.ne_none_iff_exists'.mp fun hn => ?_
  have hmem : m ∈ readOn i p moves := List.mem_filterMap.mpr ⟨_, hm, by simp⟩
  rw [h.unread i p hn] at hmem
  cases hmem

omit [DecidableEq ι] in
theorem count_on [DecidableEq μ] (p : π) (m : μ) (xs : List (π × μ)) : xs.count (p, m) = (on p xs).count m := by
  induction xs with
  | nil => rfl
  | cons x xs ih =>
    obtain ⟨q, m'⟩ := x
    rw [List.count_cons, ih]
    by_cases hq : q = p
    · subst hq
      simp [on, List.count_cons]
    · simp [on, hq]

/-- Nobody has read more than was written to him. -/
theorem Conserved.readMated_subperm [DecidableEq μ] (h : Conserved wrote moves w) (hl : w.Linked) (i j : ι) :
    List.Subperm (readMated w i j moves) ((wrote (w.node j)).filter fun x => decide (w.peer j x.1 = some i)) := by
  refine List.subperm_ext_iff.mpr fun x hx => ?_
  obtain ⟨⟨p, m⟩, hpm, rfl⟩ := List.mem_map.mp hx
  obtain ⟨hmem, hpeer⟩ := mem_readFrom hpm
  obtain ⟨q, hq⟩ := h.read_mated hmem
  obtain ⟨hback, hmate⟩ := hl.mate_unique hq hpeer
  simp only [hq, Option.getD_some]
  rw [count_on, count_on]
  -- no other end of his is called `q` by the other one
  have hread : on q (readMated w i j moves) = readOn i p moves := by
    rw [readMated, readFrom, on, readOn, List.map_filterMap, List.filterMap_filterMap]
    refine List.filterMap_congr fun a ha => ?_
    cases a with
    | leave k => rfl
    | act k inp =>
      cases inp with
      | read p' m' =>
        by_cases hk : k = i ∧ w.peer i p' = some j
        · obtain ⟨rfl, hp'⟩ := hk
          obtain ⟨q', hq'⟩ := h.read_mated ha
          have hiff : q' = q ↔ p' = p := by
            constructor
            · rintro rfl
              have hmate' := (hl.mate_unique hq' hp').2
              exact Option.some.inj (hmate'.symm.trans hmate)
            · rintro rfl
              exact Option.some.inj (hq'.symm.trans hq)
          simp [hp', hq', hiff]
        · have hne : ¬ (k = i ∧ p' = p) := by
            rintro ⟨rfl, rfl⟩
            exact hk ⟨rfl, hpeer⟩
          simp [hk, hne]
      | own a => rfl
      | accept j r q => rfl
      | close q => rfl
  have hwrote : on q ((wrote (w.node j)).filter fun x => decide (w.peer j x.1 = some i)) = on q (wrote (w.node j)) := by
    rw [on, on, List.filterMap_filter]
    refine List.filterMap_congr fun x _ => ?_
    by_cases hx : x.1 = q
    · subst hx
      simp [hback]
    · simp [hx]
  rw [hread, hwrote, h.written j q i hback, hmate, Option.elim_some, List.count_append]
  exact Nat.le_add_right _ _

end

end RacKun.Lib.Net
