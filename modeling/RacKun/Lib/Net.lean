/-
  RacKun.Lib.Net — processes joined by connections.

  A process reaches another one by dialing him; he accepts the connection later, or never.
  Each of the two has a name of his own for his end of it. What is written on an end is
  read at the other in the order it was written, however late. A process may leave at any
  moment; the others then find their connections with him closed, with or without what was
  still on its way.

  - `Contract.run`: processes that keep a promise about what they send as long as the
    others do, all keep it, whatever the order of their steps.
-/

import Mathlib.Logic.Function.Basic

namespace RacKun.Lib

structure Net (ι σ π μ : Type) where
  node : ι → σ
  /-- Who is at the other side of an end. -/
  peer : ι → π → Option ι
  /-- What he calls his end, once he has accepted the connection. -/
  mate : ι → π → Option π
  /-- Written on this end, not read at the other yet. -/
  queue : ι → π → List μ
  gone : ι → Bool

namespace Net

inductive Input (ι π μ α : Type) where
  /-- Something of the process's own: a timer, a command. -/
  | own (a : α)
  /-- The connection that the caller calls `r`, to be called `p` here. -/
  | accept (caller : ι) (r p : π)
  | read (p : π) (m : μ)
  | close (p : π)

inductive Output (ι π μ : Type) where
  | send (p : π) (m : μ)
  /-- A new connection, to be called `p`. -/
  | dial (p : π) (j : ι)

inductive Action (ι π μ α : Type) where
  | act (i : ι) (inp : Input ι π μ α)
  | leave (i : ι)

/-- How each process answers its inputs. -/
abbrev Machine (ι σ π μ α : Type) := ι → σ → Input ι π μ α → σ → List (Output ι π μ) → Prop

variable {ι σ π μ α : Type} [DecidableEq ι] [DecidableEq π]

/-! ## Steps -/

def dialed (p : π) (out : List (Output ι π μ)) : Option ι :=
  out.findSome? fun
    | .dial q j => if q = p then some j else none
    | .send _ _ => none

def sentTo (p : π) (out : List (Output ι π μ)) : List μ :=
  out.filterMap fun
    | .send q m => if q = p then some m else none
    | .dial _ _ => none

/-- A process has answered: its dials make new connections, its writes are on their way. -/
def after (w : Net ι σ π μ) (i : ι) (s' : σ) (out : List (Output ι π μ)) : Net ι σ π μ :=
  { w with
    node := Function.update w.node i s'
    peer := fun k p => if k = i then (dialed p out).or (w.peer i p) else w.peer k p
    queue := fun k p => if k = i then (if (dialed p out).isSome then [] else w.queue i p) ++ sentTo p out
      else w.queue k p }

/-- The connection that `j` calls `p` is accepted by `i`, who calls it `q`. -/
def meet (w : Net ι σ π μ) (j : ι) (p : π) (i : ι) (q : π) : Net ι σ π μ :=
  { w with
    peer := fun k r => if k = i ∧ r = q then some j else w.peer k r
    mate := fun k r => if k = i ∧ r = q then some p else if k = j ∧ r = p then some q else w.mate k r
    queue := fun k r => if k = i ∧ r = q then [] else w.queue k r }

/-- What is left unread of one end. -/
def take (w : Net ι σ π μ) (j : ι) (q : π) (ms : List μ) : Net ι σ π μ :=
  { w with queue := fun k r => if k = j ∧ r = q then ms else w.queue k r }

inductive Step (M : Machine ι σ π μ α) : Net ι σ π μ → Action ι π μ α → Net ι σ π μ → Prop
  | own {w : Net ι σ π μ} {i : ι} {a : α} {s' : σ} {out : List (Output ι π μ)} : w.gone i = false →
    M i (w.node i) (.own a) s' out → Step M w (.act i (.own a)) (w.after i s' out)
  | accept {w : Net ι σ π μ} {i j : ι} {p q : π} {s' : σ} {out : List (Output ι π μ)} : w.gone i = false →
    w.peer j p = some i → w.mate j p = none → w.peer i q = none → M i (w.node i) (.accept j p q) s' out →
    Step M w (.act i (.accept j p q)) ((w.meet j p i q).after i s' out)
  | read {w : Net ι σ π μ} {i j : ι} {p q : π} {m : μ} {ms : List μ} {s' : σ} {out : List (Output ι π μ)} : w.gone i = false →
    w.peer i p = some j → w.mate i p = some q → w.queue j q = m :: ms → M i (w.node i) (.read p m) s' out →
    Step M w (.act i (.read p m)) ((w.take j q ms).after i s' out)
  | close {w : Net ι σ π μ} {i j : ι} {p : π} {s' : σ} {out : List (Output ι π μ)} : w.gone i = false →
    w.peer i p = some j → w.gone j = true → M i (w.node i) (.close p) s' out →
    Step M w (.act i (.close p)) (w.after i s' out)
  | leave {w : Net ι σ π μ} {i : ι} : w.gone i = false →
    Step M w (.leave i) { w with gone := Function.update w.gone i true }

/-- The moves, one after the other. -/
inductive Run (M : Machine ι σ π μ α) (w : Net ι σ π μ) : List (Action ι π μ α) → Net ι σ π μ → Prop
  | refl : Run M w [] w
  | step {moves : List (Action ι π μ α)} {w' w'' : Net ι σ π μ} {a : Action ι π μ α} :
    Run M w moves w' → Step M w' a w'' → Run M w (moves ++ [a]) w''

theorem Run.append {M : Machine ι σ π μ α} {w w' w'' : Net ι σ π μ} {moves moves' : List (Action ι π μ α)}
    (h : Run M w moves w') (h' : Run M w' moves' w'') : Run M w (moves ++ moves') w'' := by
  induction h' with
  | refl => rwa [List.append_nil]
  | step _ hs ih =>
    rw [← List.append_assoc]
    exact ih.step hs

/-! ## Runs that are computed -/

/-- One answer of each process. -/
abbrev Player (ι σ π μ α : Type) := ι → σ → Input ι π μ α → Option (σ × List (Output ι π μ))

section

variable [DecidableEq μ]

/-- What an input takes from the net or adds to it, if it may come. -/
def bring (w : Net ι σ π μ) (i : ι) : Input ι π μ α → Option (Net ι σ π μ)
  | .own _ => some w
  | .accept j p q => if w.peer j p = some i ∧ w.mate j p = none ∧ w.peer i q = none then some (w.meet j p i q) else none
  | .read p m => do
    let j ← w.peer i p
    let q ← w.mate i p
    match w.queue j q with
    | [] => none
    | m' :: ms => if m' = m then some (w.take j q ms) else none
  | .close p => do
    let j ← w.peer i p
    if w.gone j = true then some w else none

/-- The state after a move, if it is possible. -/
def play (r : Player ι σ π μ α) (w : Net ι σ π μ) : Action ι π μ α → Option (Net ι σ π μ)
  | .leave i => if w.gone i = false then some { w with gone := Function.update w.gone i true } else none
  | .act i inp =>
    if w.gone i = false then
      (w.bring i inp).bind fun v => (r i (w.node i) inp).map fun x => v.after i x.1 x.2
    else none

theorem play_step {M : Machine ι σ π μ α} {r : Player ι σ π μ α}
    (hr : ∀ i s inp s' out, r i s inp = some (s', out) → M i s inp s' out) {w w' : Net ι σ π μ} {a : Action ι π μ α}
    (h : play r w a = some w') : Step M w a w' := by
  cases a with
  | leave i =>
    simp only [play] at h
    split at h
    · cases h
      exact .leave ‹_›
    · cases h
  | act i inp =>
    simp only [play] at h
    split at h
    · rename_i hg
      obtain ⟨v, hv, h⟩ := Option.bind_eq_some_iff.mp h
      obtain ⟨⟨s', out⟩, hm, h⟩ := Option.map_eq_some_iff.mp h
      subst h
      have hm := hr _ _ _ _ _ hm
      cases inp with
      | own a =>
        cases hv
        exact .own hg hm
      | accept j p q =>
        simp only [bring] at hv
        split at hv
        · rename_i hc
          cases hv
          exact .accept hg hc.1 hc.2.1 hc.2.2 hm
        · cases hv
      | read p m =>
        obtain ⟨j, hj, hv⟩ := Option.bind_eq_some_iff.mp hv
        obtain ⟨q, hq, hv⟩ := Option.bind_eq_some_iff.mp hv
        cases hqueue : w.queue j q with
        | nil => simp [hqueue] at hv
        | cons m' ms =>
          simp only [hqueue, Option.ite_none_right_eq_some, Option.some.injEq] at hv
          obtain ⟨rfl, rfl⟩ := hv
          exact .read hg hj hq hqueue hm
      | close p =>
        obtain ⟨j, hj, hv⟩ := Option.bind_eq_some_iff.mp hv
        split at hv
        · cases hv
          exact .close hg hj ‹_› hm
        · cases hv
    · cases h

/-- A move, or to read whatever comes next. -/
inductive Cue (ι π μ α : Type) where
  | move (a : Action ι π μ α)
  | next (i : ι) (p : π)

def Cue.move? (w : Net ι σ π μ) : Cue ι π μ α → Option (Action ι π μ α)
  | .move a => some a
  | .next i p => do
    let j ← w.peer i p
    let q ← w.mate i p
    let m ← (w.queue j q).head?
    some (.act i (.read p m))

/-- The moves that the cues become, and the last state. -/
def perform (r : Player ι σ π μ α) (w : Net ι σ π μ) : List (Cue ι π μ α) → Option (List (Action ι π μ α) × Net ι σ π μ)
  | [] => some ([], w)
  | c :: cs =>
    (c.move? w).bind fun a => (play r w a).bind fun v => (perform r v cs).map fun x => (a :: x.1, x.2)

/-- What has been performed is a run. -/
theorem perform_run {M : Machine ι σ π μ α} {r : Player ι σ π μ α}
    (hr : ∀ i s inp s' out, r i s inp = some (s', out) → M i s inp s' out) {cs : List (Cue ι π μ α)} :
    ∀ {w : Net ι σ π μ} {x : List (Action ι π μ α) × Net ι σ π μ}, perform r w cs = some x → Run M w x.1 x.2 := by
  induction cs with
  | nil =>
    intro w x h
    cases h
    exact .refl
  | cons c cs ih =>
    intro w x h
    obtain ⟨a, -, h⟩ := Option.bind_eq_some_iff.mp h
    obtain ⟨v, hv, h⟩ := Option.bind_eq_some_iff.mp h
    obtain ⟨y, hy, rfl⟩ := Option.map_eq_some_iff.mp h
    exact Run.append (.step .refl (play_step hr hv)) (ih hy)

end

omit [DecidableEq ι] in
theorem mem_sentTo {p : π} {m : μ} {out : List (Output ι π μ)} : m ∈ sentTo p out ↔ .send p m ∈ out := by
  rw [sentTo, List.mem_filterMap]
  constructor
  · rintro ⟨o, ho, he⟩
    cases o with
    | send q m' =>
      simp only at he
      split at he
      · rename_i hq
        cases he
        exact hq ▸ ho
      · cases he
    | dial q j => cases he
  · intro h
    exact ⟨_, h, by simp only [if_pos]⟩

omit [DecidableEq ι] in
theorem dialed_mem {p : π} {j : ι} {out : List (Output ι π μ)} (h : dialed p out = some j) : .dial p j ∈ out := by
  obtain ⟨o, ho, he⟩ := List.exists_of_findSome?_eq_some h
  cases o with
  | send q m => cases he
  | dial q j' =>
    simp only at he
    split at he
    · rename_i hq
      cases he
      exact hq ▸ ho
    · cases he

/-! ## Connections -/

/-- The two ends of a connection name each other. -/
structure Linked (w : Net ι σ π μ) : Prop where
  mates : ∀ i p q, w.mate i p = some q → ∃ j, w.peer i p = some j ∧ w.peer j q = some i ∧ w.mate j q = some p

/-- New connections get new names. -/
def Fresh (w : Net ι σ π μ) (i : ι) (out : List (Output ι π μ)) : Prop :=
  ∀ p, (dialed p out).isSome → w.peer i p = none

/-- An answer leaves the old connections as they are. -/
theorem after_peer {w : Net ι σ π μ} {i : ι} {s' : σ} {out : List (Output ι π μ)} (hf : w.Fresh i out) {k : ι} {p : π}
    {j : ι} (h : w.peer k p = some j) : (w.after i s' out).peer k p = some j := by
  show (if k = i then (dialed p out).or (w.peer i p) else w.peer k p) = some j
  split
  · rename_i hk
    subst hk
    cases hd : dialed p out with
    | none => exact h
    | some j' =>
      rw [hf p (by rw [hd]; rfl)] at h
      cases h
  · exact h

theorem Linked.after {w : Net ι σ π μ} (h : w.Linked) {i : ι} {out : List (Output ι π μ)} (hf : w.Fresh i out) (s' : σ) :
    (w.after i s' out).Linked := by
  refine ⟨fun k p q hm => ?_⟩
  obtain ⟨j, h₁, h₂, h₃⟩ := h.mates k p q hm
  exact ⟨j, after_peer hf h₁, after_peer hf h₂, h₃⟩

theorem Linked.meet {w : Net ι σ π μ} (h : w.Linked) {i j : ι} {p q : π} (hp : w.peer j p = some i)
    (hm : w.mate j p = none) (hq : w.peer i q = none) : (w.meet j p i q).Linked := by
  have hne : ¬ (j = i ∧ p = q) := by
    rintro ⟨rfl, rfl⟩
    rw [hp] at hq
    cases hq
  -- an end that was named before is neither of these two
  have old : ∀ {k r r'}, w.mate k r = some r' → (¬ (k = i ∧ r = q)) ∧ ¬ (k = j ∧ r = p) := by
    intro k r r' hr
    obtain ⟨j', h₁, -⟩ := h.mates k r r' hr
    constructor
    · rintro ⟨rfl, rfl⟩
      rw [hq] at h₁
      cases h₁
    · rintro ⟨rfl, rfl⟩
      rw [hm] at hr
      cases hr
  refine ⟨fun k r r' hr => ?_⟩
  simp only [Net.meet] at hr ⊢
  split at hr
  · rename_i hk
    obtain ⟨rfl, rfl⟩ := hk
    cases hr
    exact ⟨j, by simp, by rw [if_neg hne, hp], by rw [if_neg hne, if_pos ⟨rfl, rfl⟩]⟩
  · rename_i hk
    split at hr
    · rename_i hk'
      obtain ⟨rfl, rfl⟩ := hk'
      cases hr
      exact ⟨i, by rw [if_neg hk, hp], by simp, by simp⟩
    · obtain ⟨j', h₁, h₂, h₃⟩ := h.mates k r r' hr
      obtain ⟨ho, ho'⟩ := old h₃
      exact ⟨j', by rw [if_neg hk, h₁], by rw [if_neg ho, h₂], by rw [if_neg ho, if_neg ho', h₃]⟩

theorem Linked.take {w : Net ι σ π μ} (h : w.Linked) (j : ι) (q : π) (ms : List μ) : (w.take j q ms).Linked :=
  ⟨h.mates⟩

/-! ## Promises -/

/-- The connections of a process after it has been given this input. -/
def Input.ends (far : π → Option ι) : Input ι π μ α → π → Option ι
  | .accept j _ q => Function.update far q (some j)
  | _ => far

/-- The input is one the others may give: what they send, they have promised. -/
def Input.Fair (A : ι → α → Prop) (Q : ι → ι → μ → Prop) (i : ι) (far : π → Option ι) : Input ι π μ α → Prop
  | .own a => A i a
  | .accept _ _ q => far q = none
  | .read p m => ∀ j, far p = some j → Q j i m
  | .close _ => True

/-- What each process promises about itself (`P`, of its connections and its state) and about
    what it sends to whom (`Q`), as long as its own actions are allowed (`A`) and the others
    keep their promises. -/
structure Contract (M : Machine ι σ π μ α) (A : ι → α → Prop) (P : ι → (π → Option ι) → σ → Prop)
    (Q : ι → ι → μ → Prop) : Prop where
  fresh : ∀ {i far s inp s' out}, P i far s → inp.Fair A Q i far → M i s inp s' out →
    ∀ p, (dialed p out).isSome → inp.ends far p = none
  keeps : ∀ {i far s inp s' out}, P i far s → inp.Fair A Q i far → M i s inp s' out →
    P i (fun p => (dialed p out).or (inp.ends far p)) s'
  sends : ∀ {i far s inp s' out}, P i far s → inp.Fair A Q i far → M i s inp s' out →
    ∀ p j m, .send p m ∈ out → (dialed p out).or (inp.ends far p) = some j → Q i j m

/-- All promises are kept. -/
structure Kept (P : ι → (π → Option ι) → σ → Prop) (Q : ι → ι → μ → Prop) (w : Net ι σ π μ) : Prop extends
    Linked w where
  node : ∀ i, P i (w.peer i) (w.node i)
  queue : ∀ i p j, w.peer i p = some j → ∀ m ∈ w.queue i p, Q i j m

variable {M : Machine ι σ π μ α} {A : ι → α → Prop} {P : ι → (π → Option ι) → σ → Prop} {Q : ι → ι → μ → Prop}

/-- What is allowed on the side of the processes' own actions. -/
def Action.Allowed (A : ι → α → Prop) : Action ι π μ α → Prop
  | .act i (.own a) => A i a
  | _ => True

/-- The answer to an input, once the input's own effect on the net is there. -/
theorem Contract.answer (hc : Contract M A P Q) {v : Net ι σ π μ} {i : ι} {far : π → Option ι}
    {inp : Input ι π μ α} {s' : σ} {out : List (Output ι π μ)} (hm : M i (v.node i) inp s' out) (hl : v.Linked)
    (hn : ∀ k, k ≠ i → P k (v.peer k) (v.node k)) (hq : ∀ k p j, v.peer k p = some j → ∀ m ∈ v.queue k p, Q k j m)
    (hv : v.peer i = inp.ends far) (hp : P i far (v.node i)) (hf : inp.Fair A Q i far) : Kept P Q (v.after i s' out) := by
  have hfresh : v.Fresh i out := fun p h => by
    rw [hv]
    exact hc.fresh hp hf hm p h
  refine ⟨hl.after hfresh s', fun k => ?_, fun k p j hk m hmem => ?_⟩
  · by_cases hk : k = i
    · subst hk
      have hpeer : (v.after k s' out).peer k = fun p => (dialed p out).or (inp.ends far p) := by
        funext p
        rw [← hv]
        exact if_pos rfl
      rw [hpeer, show (v.after k s' out).node k = s' from Function.update_self ..]
      exact hc.keeps hp hf hm
    · have hpeer : (v.after i s' out).peer k = v.peer k := by
        funext p
        exact if_neg hk
      rw [hpeer, show (v.after i s' out).node k = v.node k from Function.update_of_ne hk ..]
      exact hn k hk
  · simp only [Net.after] at hk hmem
    split at hk
    · rename_i hki
      subst hki
      rw [if_pos rfl] at hmem
      rcases List.mem_append.mp hmem with hmem | hmem
      · -- written before: the connection is an old one
        split at hmem
        · cases hmem
        · rename_i hd
          have hd : dialed p out = none := by
            cases h : dialed p out with
            | none => rfl
            | some j' => exact absurd (by rw [h]; rfl) hd
          rw [hd] at hk
          exact hq k p j hk m hmem
      · rw [hv] at hk
        exact hc.sends hp hf hm p j m (mem_sentTo.mp hmem) hk
    · rename_i hki
      rw [if_neg hki] at hmem
      exact hq k p j hk m hmem

theorem Contract.step (hc : Contract M A P Q) {w w' : Net ι σ π μ} {a : Action ι π μ α} (h : Kept P Q w)
    (ha : a.Allowed A) (hs : Step M w a w') : Kept P Q w' := by
  cases hs with
  | own hg hm => exact hc.answer hm h.toLinked (fun k _ => h.node k) h.queue rfl (h.node _) ha
  | @accept i j p q s' out hg hp hmate hq hm =>
    refine hc.answer (v := w.meet j p i q) hm (h.toLinked.meet hp hmate hq) (fun k hk => ?_)
      (fun k r j' hk m hmem => ?_) ?_ (h.node i) hq
    · have hpeer : (w.meet j p i q).peer k = w.peer k := by
        funext r
        exact if_neg fun hr => hk hr.1
      rw [hpeer]
      exact h.node k
    · simp only [Net.meet] at hk hmem
      split at hk
      · rename_i hr
        rw [if_pos hr] at hmem
        cases hmem
      · rename_i hr
        rw [if_neg hr] at hmem
        exact h.queue k r j' hk m hmem
    · funext r
      simp only [Net.meet, Input.ends, Function.update_apply, true_and]
  | @read i j p q m ms s' out hg hp hmate hqueue hm =>
    -- what is read was written at the other end
    obtain ⟨j', hj', hback, -⟩ := h.mates i p q hmate
    obtain rfl : j' = j := Option.some.inj (hj'.symm.trans hp)
    refine hc.answer (v := w.take j' q ms) hm (h.toLinked.take j' q ms) (fun k _ => h.node k)
      (fun k r l hk m' hmem => ?_) rfl (h.node i) fun l hl => ?_
    · simp only [Net.take] at hmem
      split at hmem
      · rename_i hr
        obtain ⟨rfl, rfl⟩ := hr
        exact h.queue k r l hk m' (by rw [hqueue]; exact List.mem_cons_of_mem _ hmem)
      · exact h.queue k r l hk m' hmem
    · obtain rfl : l = j' := Option.some.inj (hl.symm.trans hp)
      exact h.queue l q i hback m (by rw [hqueue]; exact List.mem_cons_self)
  | close hg hp hgone hm => exact hc.answer hm h.toLinked (fun k _ => h.node k) h.queue rfl (h.node _) trivial
  | leave hg => exact ⟨⟨h.mates⟩, h.node, h.queue⟩

/-- Whatever the order of the steps, all promises are kept. -/
theorem Contract.run (hc : Contract M A P Q) {w w' : Net ι σ π μ} {moves : List (Action ι π μ α)} (h : Kept P Q w)
    (ha : ∀ a ∈ moves, a.Allowed A) (hr : Run M w moves w') : Kept P Q w' := by
  induction hr with
  | refl => exact h
  | step _ hs ih =>
    exact hc.step (ih fun a hm => ha a (List.mem_append_left _ hm)) (ha _ (List.mem_append_right _ List.mem_cons_self)) hs

end Net

end RacKun.Lib
