/-
  RacKun.Network.Past — runs that remember their steps.

  What a connection has sent, who has been answered, which messages have been processed:
  none of it is in the state of a node. `Past allowed h s` is a run that ends in `s`
  after the steps `h`, the last one first, each with the state it started from.

  - `Past.membership`: a property of the past and the membership that every possible
    change keeps holds along every run.
-/

import RacKun.Network.Soundness

namespace RacKun

namespace Network

/-- The steps of a run, the last one first: the state before, and the event. -/
abbrev Steps := List (Network × Event)

variable [Platform]

inductive Past (allowed : Steps → Network → Event → Prop) : Steps → Network → Prop
  | start (id pubK : Bytes) (listenPort : Port) (clock : Nat → Nat) : Past allowed [] (start id pubK listenPort clock)
  | step {h : Steps} {s s' : Network} {e : Event} :
      Past allowed h s → allowed h s e → Step s e s' → Past allowed ((s, e) :: h) s'

variable {allowed : Steps → Network → Event → Prop}

theorem Past.reach {h : Steps} {s : Network} (hp : Past allowed h s) : Reachable s := by
  induction hp with
  | start id pubK port clock => exact .start id pubK port clock
  | step _ _ hs ih => exact .step ih trivial hs

theorem Past.weaken {h : Steps} {s : Network} (hp : Past allowed h s) : Past (fun _ _ _ => True) h s := by
  induction hp with
  | start id pubK port clock => exact .start id pubK port clock
  | step _ _ hs ih => exact .step ih trivial hs

theorem Past.sound {h : Steps} {s : Network} (hp : Past allowed h s) : s.toMembership.Sound := hp.reach.sound

/-- What every possible change keeps, given the past, holds along every run. -/
theorem Past.membership {I : Steps → Membership → Prop}
    (hstart : ∀ id pubK port clock, I [] (Network.start id pubK port clock).toMembership)
    (hstep : ∀ h s s' e, Past allowed h s → I h s.toMembership → s.Enabled e → allowed h s e →
      Step s e s' → I ((s, e) :: h) (s.toMembership.apply (s.change e)))
    {h : Steps} {s : Network} (hp : Past allowed h s) : I h s.toMembership := by
  induction hp with
  | start id pubK port clock => exact hstart id pubK port clock
  | step hp ha hs ih =>
    obtain ⟨he, rounds, hh⟩ := hs
    rw [handle_membership hh]
    exact hstep _ _ _ _ hp ih he ha ⟨he, rounds, hh⟩

/-! ## Runs that can be computed -/

section

variable (allowed : Steps → Network → Event → Prop) [∀ h s e, Decidable (allowed h s e)]

/-- The events of a list, one after the other, each possible and allowed when it comes. -/
def relive (h : Steps) (s : Network) : List Event → Except Stop (Steps × Network)
  | [] => .ok (h, s)
  | e :: es => if s.Enabled e ∧ allowed h s e then do relive ((s, e) :: h) (← handle 1 s e) es else .error .running

/-- The events lead to a past and a state that pass the test. -/
def livesTo (s : Network) (es : List Event) (test : Steps → Network → Bool) : Bool :=
  match relive allowed [] s es with
  | .ok r => test r.1 r.2
  | .error _ => false

variable {allowed}

theorem past_relive : ∀ {es : List Event} {h : Steps} {s : Network} {r : Steps × Network}, Past allowed h s →
    relive allowed h s es = .ok r → Past allowed r.1 r.2 := by
  intro es
  induction es with
  | nil => intro h s r hp hr; cases hr; exact hp
  | cons e es ih =>
    intro h s r hp hr
    rw [relive] at hr
    split at hr
    · rename_i he
      obtain ⟨t, ht, hr⟩ := Lib.bind_ok.mp hr
      exact ih (.step hp he.2 ⟨he.1, 1, ht⟩) hr
    · cases hr

theorem relive_of_livesTo {s : Network} {es : List Event} {test : Steps → Network → Bool}
    (h : livesTo allowed s es test = true) : ∃ r, relive allowed [] s es = .ok r ∧ test r.1 r.2 = true := by
  unfold livesTo at h
  split at h
  · rename_i r hr
    exact ⟨r, hr, h⟩
  · cases h

theorem past_of_livesTo {id pubK : Bytes} {port : Port} {clock : Nat → Nat} {es : List Event}
    {test : Steps → Network → Bool} (h : livesTo allowed (start id pubK port clock) es test = true) :
    ∃ h s, Past allowed h s ∧ test h s = true := by
  obtain ⟨r, hr, ht⟩ := relive_of_livesTo h
  exact ⟨r.1, r.2, past_relive (.start id pubK port clock) hr, ht⟩

end

end Network

end RacKun
