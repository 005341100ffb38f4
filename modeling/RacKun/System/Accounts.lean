/-
  RacKun.System.Accounts — what the nodes have said, sent, read, counted and shown adds up.

  Freerider checks will rely on the counters of the log, and users on what is shown. Groups
  come and go, messages are late, peers leave: all the same, a node has counted no more
  copies from another one than that one has written to it, and it has shown nothing twice.

  - `run_record`: what is written is what is read and what is on its way.
  - `Earned.step`, `Told.step`: one move of one node.
-/

import Mathlib.Algebra.Order.BigOperators.Group.List
import RacKun.Lib.Record
import RacKun.Network.Targets
import RacKun.System.Delivery
import RacKun.System.Identity

namespace RacKun

open Lib (OrdMap Net bind_ok)

open Lib.Net (Input Output Action)

namespace Site

variable {ι : Type} {site : Site ι} [Platform] {contents texts : Set Bytes}

/-! ## Records -/

omit [Platform] in
/-- What a node has written so far, and on which of its ends. -/
def record (s : Network) : List (PeerRef × Bytes) := s.trace.filterMap Effect.sent?

omit [Platform] in
theorem sends_outputs (es : List Effect) : Lib.Net.sends (site.outputs es) = es.filterMap Effect.sent? := by
  rw [Lib.Net.sends, outputs, List.filterMap_filterMap]
  refine List.filterMap_congr fun e _ => ?_
  cases e with
  | connected p ip port => simp only [output, Effect.sent?]; cases site.listens ip port <;> rfl
  | _ => rfl

/-- What a node promises, and that it is in a state it can reach. -/
abbrev Living (site : Site ι) (contents : Set Bytes) (i : ι) (far : PeerRef → Option ι) (s : Network) : Prop :=
  site.Faithful contents i far s ∧ Network.Reachable s

theorem Proper.living (hp : site.Proper) (contents texts : Set Bytes) :
    Lib.Net.Contract site.Acts (fun _ => Says contents texts) (site.Living contents)
      (fun i _ => site.Spoken contents texts i) :=
  (hp.contract contents texts).add (R := fun _ => Network.Reachable) fun h hr hm => by
    obtain ⟨e, -, hst, -⟩ := hm.event h.sound
    exact .step hr trivial hst

theorem record_step {s s' : Network} {e : Event} (hs : s.toMembership.Sound) (hst : s.Step e s') :
    record s' = record s ++ (s.effects s').filterMap Effect.sent? := by
  obtain ⟨he, rounds, hh⟩ := hst
  obtain ⟨es, hes, -⟩ := Network.handle_voices hs he hh
  rw [record, hes, List.filterMap_append, Network.effects_append hes, record]

theorem recorder (site : Site ι) (contents : Set Bytes) : Lib.Net.Recorder site.Acts (site.Living contents) record where
  writes h hm := by
    obtain ⟨e, -, hst, -, rfl⟩ := hm.event h.1.sound
    rw [sends_outputs]
    exact record_step h.1.sound hst
  blank {i far s inp s' out} h hm p hfar hd := by
    obtain ⟨e, hcause, hst, -, rfl⟩ := hm.event h.1.sound
    -- a new end has the next name
    have hp : p = s.peerCount := by
      by_contra hne
      have hold : site.ends far inp (s.effects s') p = far p := ends_old h.1.sound hst hcause hne
      rw [ends, hfar] at hold
      rw [hold] at hd
      cases hd
    subst hp
    refine List.filterMap_eq_nil_iff.mpr fun x hx => ?_
    obtain ⟨eff, heff, hx⟩ := List.mem_filterMap.mp hx
    cases eff with
    | sent q bytes =>
      cases hx
      exact if_neg (Nat.ne_of_lt (h.2.targets heff))
    | _ => cases hx

variable [DecidableEq ι] {ports : ι → Port} {clocks : ι → Nat → Nat} {moves : List (Action ι PeerRef Bytes Event)}
  {w : World ι}

omit [DecidableEq ι] in
theorem start_living (contents texts : Set Bytes) : Lib.Net.Kept (site.Living contents)
    (fun i _ => site.Spoken contents texts i) (site.start ports clocks) where
  mates := (start_kept contents texts).mates
  node i := ⟨(start_kept contents texts).node i, .start _ _ _ _⟩
  queue := (start_kept contents texts).queue

/-- Every node of a run is in a reachable state, and what has been written is what has been
    read and what is on its way. -/
theorem run_record (hp : site.Proper) (hr : Lib.Net.Run site.Acts (site.start ports clocks) moves w)
    (ha : ∀ a ∈ moves, a.Allowed fun _ => Says contents texts) :
    Lib.Net.Kept (site.Living contents) (fun i _ => site.Spoken contents texts i) w ∧
      Lib.Net.Conserved record moves w :=
  ⟨(hp.living contents texts).run (start_living _ _) ha hr,
    Lib.Net.Conserved.run (hp.living contents texts) (recorder site contents) (start_living _ _)
      ⟨fun _ _ _ => rfl, fun _ _ _ h => by cases h⟩ ha hr⟩

/-! ## Counters -/

/-- A JOIN or a JOIN Acknowledgement, which a node counts twice when it knows the emitter. -/
def isIntroduction (bytes : Bytes) : Bool :=
  match parseMessage bytes with
  | .ok m => decide (Network.LoggedType m.payload)
  | .error _ => false

/-- What a copy may add to the counter of its emitter for this stamp. -/
def worth (stamp bytes : Bytes) : Nat :=
  if Network.stampIn bytes = stamp then (if isIntroduction bytes then 2 else 1) else 0

/-- What these copies may add up to. -/
def tally (stamp : Bytes) (xs : List (PeerRef × Bytes)) : Nat := (xs.map fun x => worth stamp x.2).sum

variable {i : ι} {far : PeerRef → Option ι} {s s' : Network}

omit [Platform] [DecidableEq ι] in
/-- A peer that has an ID has the one of the node at the other end. -/
theorem named_far (hp : site.Proper) (hd : Function.Injective site.id) (h : site.Introduced i far s.toMembership)
    {p : PeerRef} (hr : s.Remote p) {j : ι} (hj : s.getId p = site.id j) : far p = some j := by
  obtain ⟨k, hk⟩ := Option.isSome_iff_exists.mp ((h.remote p).mp hr)
  rcases (h.named p k hk).2 with hc | hc
  · have hid : s.getId p = [] := (Prod.mk.inj hc).1
    have := hp.id j
    rw [← hj, hid] at this
    cases this
  · have hid : s.getId p = site.id k := (Prod.mk.inj hc).1
    rw [hk, hd (hid.symm.trans hj)]

/-- A read counts its emitter, once or twice. -/
theorem credits_worth (hp : site.Proper) (hd : Function.Injective site.id) (hs : s.toMembership.Sound)
    (h : site.Introduced i far s.toMembership) {p : PeerRef} {received : Bytes} {reached : Option Bytes}
    (he : s.Enabled (.read p received reached)) (hr : site.Heard contents texts far (.read p received reached))
    (stamp : Bytes) (j : ι) : (s.credits (.read p received reached)).count (stamp, site.id j) ≤
      if far p = some j then worth stamp received else 0 := by
  cases hm : parseMessage received with
  | error e => simp only [Network.credits, hm, List.count_nil, Nat.zero_le]
  | ok m =>
    have hst := Network.stampOf_parsed hm
    have hrem := hs.listening p he
    have hintro : isIntroduction received = decide (Network.LoggedType m.payload) := by rw [isIntroduction, hm]
    -- whoever is counted is the emitter
    have one : [(Network.stampOf m, s.getId p)].count (stamp, site.id j) ≤
        if far p = some j ∧ Network.stampIn received = stamp then 1 else 0 := by
      rw [Network.count_one]
      split
      · rename_i hc
        rw [if_pos ⟨named_far hp hd h hrem hc.2.symm, by rw [← hst, hc.1]⟩]
      · exact Nat.zero_le _
    have announced : (Network.credited m).count (stamp, site.id j) ≤
        if (far p = some j ∧ Network.stampIn received = stamp) ∧ Network.LoggedType m.payload then 1 else 0 := by
      obtain ⟨k, hk, -, ht, -⟩ := heard_parsed hs h he hr hm
      have own : ∀ {id}, id = site.id k → [(Network.stampOf m, id)].count (stamp, site.id j) ≤
          if far p = some j ∧ Network.stampIn received = stamp then 1 else 0 := by
        rintro id rfl
        rw [Network.count_one]
        split
        · rename_i hc
          rw [if_pos ⟨by rw [hk, hd hc.2], by rw [← hst, hc.1]⟩]
        · exact Nat.zero_le _
      by_cases hlog : Network.LoggedType m.payload
      · simp only [hlog, and_true]
        obtain ⟨stamp', payload⟩ := m
        cases payload with
        | join id pubK port => exact own ht.1
        | joinAck groupId peerId pubK => exact own ht.1
        | _ => cases hlog
      · rw [Network.credited_nil.mpr hlog, List.count_nil]
        exact Nat.zero_le _
    simp only [Network.credits, hm]
    cases hl : s.findLog m with
    | some l =>
      refine one.trans ?_
      unfold worth
      by_cases hf : far p = some j <;> by_cases hq : Network.stampIn received = stamp <;>
        by_cases hi : isIntroduction received = true <;> simp [hf, hq, hi]
    | none =>
      simp only [List.count_append]
      have hk : (if (s.peer p).isKnown then [(Network.stampOf m, s.getId p)] else []).count (stamp, site.id j) ≤
          if far p = some j ∧ Network.stampIn received = stamp then 1 else 0 := by
        split
        · exact one
        · exact Nat.zero_le _
      refine (Nat.add_le_add hk announced).trans ?_
      unfold worth
      by_cases hf : far p = some j <;> by_cases hq : Network.stampIn received = stamp <;>
        by_cases hi : Network.LoggedType m.payload <;> simp [hf, hq, hi, hintro]

omit [DecidableEq ι] in
theorem tally_append (stamp : Bytes) (xs ys : List (PeerRef × Bytes)) :
    tally stamp (xs ++ ys) = tally stamp xs + tally stamp ys := by
  rw [tally, List.map_append, List.sum_append, tally, tally]

/-- Nobody is credited with more than has been read from him. -/
def Earned (site : Site ι) (moves : List (Action ι PeerRef Bytes Event)) (w : World ι) : Prop :=
  ∀ i j stamp, (w.node i).counter stamp (site.id j) ≤ tally stamp (Lib.Net.readFrom w i j moves)

theorem Earned.step {w' : World ι} {a : Action ι PeerRef Bytes Event} (hp : site.Proper) (hd : Function.Injective site.id)
    (hk : Lib.Net.Kept (site.Living contents) (fun i _ => site.Spoken contents texts i) w)
    (hc : Lib.Net.Conserved record moves w) (ha : a.Allowed fun _ => Says contents texts)
    (hst : Lib.Net.Step site.Acts w a w') (h : site.Earned moves w) : site.Earned (moves ++ [a]) w' := by
  intro i j stamp
  rw [Lib.Net.readFrom_append, tally_append]
  cases a with
  | leave k =>
    cases hst
    exact Nat.le_add_right_of_le (h i j stamp)
  | act k inp =>
    obtain ⟨s', out, hact⟩ := (hp.living contents texts).acted hk ha hst
    -- what has been read before was read from the same nodes
    have hold : Lib.Net.readFrom w' i j moves = Lib.Net.readFrom w i j moves := by
      refine Lib.Net.readFrom_congr fun p m hm => ?_
      obtain ⟨q, hq⟩ := hc.read_mated hm
      obtain ⟨l, hl, -⟩ := hk.mates i p q hq
      rw [hact.peer hl, hl]
    rw [hold]
    by_cases hik : i = k
    · subst hik
      obtain ⟨hf, hreach⟩ := hk.node i
      obtain ⟨e, hcause, hstep, -⟩ := hact.answer.event hf.sound
      have hheard := (hcause.heard hact.fair).1
      rw [hact.node, Function.update_self, (Network.step_books hreach hstep).counts]
      refine Nat.add_le_add (h i j stamp) ?_
      cases hcause with
      | read p received reached =>
        refine (credits_worth hp hd hf.sound hf.introduced hstep.1 hheard stamp j).trans ?_
        split
        · rename_i hj
          simp [Lib.Net.readFrom, hact.peer hj, tally]
        · exact Nat.zero_le _
      | @own e ho =>
        have hn : (w.node i).credits e = [] := by
          cases e with
          | read p received reached => exact ho.elim
          | _ => rfl
        rw [hn]
        exact Nat.zero_le _
      | accept l r => exact Nat.zero_le _
      | close p => exact Nat.zero_le _
    · rw [hact.node, Function.update_of_ne hik]
      exact Nat.le_add_right_of_le (h i j stamp)

theorem run_earned (hp : site.Proper) (hd : Function.Injective site.id)
    (hr : Lib.Net.Run site.Acts (site.start ports clocks) moves w)
    (ha : ∀ a ∈ moves, a.Allowed fun _ => Says contents texts) : site.Earned moves w := by
  induction hr with
  | refl => exact fun i j stamp => Nat.zero_le _
  | step hr hst ih =>
    have hold := fun a hm => ha a (List.mem_append_left _ hm)
    obtain ⟨hk, hc⟩ := run_record hp hr hold
    exact (ih hold).step hp hd hk hc (ha _ (List.mem_append_right _ List.mem_cons_self)) hst

omit [DecidableEq ι] in
theorem tally_subperm {stamp : Bytes} {xs ys : List (PeerRef × Bytes)} (h : List.Subperm xs ys) :
    tally stamp xs ≤ tally stamp ys := by
  obtain ⟨zs, hperm, hsub⟩ := h
  have hx : tally stamp xs = tally stamp zs := ((hperm.map _).sum_eq).symm
  rw [hx]
  exact (hsub.map _).sum_le_sum fun n _ => Nat.zero_le n

/-- What a node has written to another one, in this order. -/
def written (w : World ι) (j i : ι) : List (PeerRef × Bytes) :=
  (record (w.node j)).filter fun x => decide (w.peer j x.1 = some i)

/-- Whatever the order of the steps, a node counts no more copies from another one than that
    one has written to it; only a JOIN or a JOIN Acknowledgement may count twice. -/
theorem credit_earned (hp : site.Proper) (hd : Function.Injective site.id)
    (hr : Lib.Net.Run site.Acts (site.start ports clocks) moves w)
    (ht : ∀ text ∈ textsSent moves, ∀ m, parseMessage text ≠ .ok m) (i j : ι) (stamp : Bytes) :
    (w.node i).counter stamp (site.id j) ≤ ((written w j i).map fun x => worth stamp x.2).sum := by
  have ha := moves_allowed ht
  obtain ⟨hk, hc⟩ := run_record hp hr ha
  have hmated : tally stamp (Lib.Net.readMated w i j moves) = tally stamp (Lib.Net.readFrom w i j moves) := by
    rw [tally, Lib.Net.readMated, List.map_map]
    rfl
  calc (w.node i).counter stamp (site.id j)
      ≤ tally stamp (Lib.Net.readFrom w i j moves) := run_earned hp hd hr ha i j stamp
    _ = tally stamp (Lib.Net.readMated w i j moves) := hmated.symm
    _ ≤ tally stamp (written w j i) := tally_subperm (hc.readMated_subperm hk.toLinked i j)

end Site

/-! ## Two nodes -/

namespace Scenario

/-- The second node has counted a copy of the first one. -/
def Counted (x : List (Action Bool PeerRef Bytes Event) × World Bool) : Prop :=
  (∀ a ∈ x.1, isBrief a = true) ∧ ∃ l ∈ (x.2.node true).logs.entries, 0 < (x.2.node true).counter l.stamp (idOf 1)

instance (x : List (Action Bool PeerRef Bytes Event) × World Bool) : Decidable (Counted x) := by
  unfold Counted
  infer_instance

end Scenario

namespace Site

theorem credit_earned_two : ∃ (w : World Bool) (stamp : Bytes), 0 < (w.node true).counter stamp (Scenario.idOf 1) ∧
    (w.node true).counter stamp (Scenario.idOf 1) ≤ ((written w false true).map fun x => @worth sha1 stamp x.2).sum := by
  have hs : (match @Scenario.visited sha1 with | some x => decide (Scenario.Counted x) | none => false) = true := by
    decide +kernel
  split at hs
  · rename_i x hx
    obtain ⟨hb, l, -, hl⟩ := of_decide_eq_true hs
    have hr := Lib.Net.perform_run (fun i s inp s' out h => @Site.reply_acts _ _ sha1 i s s' inp out h) hx
    refine ⟨x.2, l.stamp, hl, @credit_earned _ Scenario.town sha1 _ _ _ _ _ Scenario.town_proper ?_ hr ?_ true false l.stamp⟩
    · exact fun i j => (by decide : ∀ i j, Scenario.town.id i = Scenario.town.id j → i = j) i j
    · rintro text ⟨i, ha⟩
      cases hb _ ha
  · cases hs

end Site

end RacKun
