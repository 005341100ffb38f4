/-
  RacKun.System.Silence — left to itself, the network falls silent.

  Relays, acknowledgements, notifications of newcomers and answers to their requests set off
  one another, in groups of any shape and whatever stamps collide. Still they run out: READY
  is only ever sent by a timer; a request is answered once; a message is passed on by a node
  once; and whatever else is done takes more off the net than it puts on it. The rank counts
  these four, in this order.

  - `rank_lt`: every move without a prompt lowers the rank.
-/

import Mathlib.Data.Prod.Lex
import Mathlib.Order.WellFounded
import RacKun.Lib.Load
import RacKun.Network.Costs
import RacKun.System.Identity

namespace RacKun

open Lib (OrdMap Net)

open Lib.Net (Input Output Action)

namespace Site

variable {ι : Type} {site : Site ι} [Platform]

/-! ## The ends of a node -/

omit [Platform] in
def names (s : Network) : Finset PeerRef := Finset.range s.peerCount

/-- A state that a node can reach; its connections bear the names of its peers. -/
def Alive (_ : ι) (far : PeerRef → Option ι) (s : Network) : Prop :=
  Network.Reachable s ∧ ∀ p, (far p).isSome → p ∈ names s

theorem step_peerCount {s s' : Network} {e : Event} (hs : s.toMembership.Sound) (hst : s.Step e s') :
    s'.peerCount = s.peerCount + if (s.newcomer (s.change e)).isSome then 1 else 0 := by
  obtain ⟨he, rounds, hh⟩ := hst
  rw [Network.handle_membership hh]
  cases hn : s.newcomer (s.change e) with
  | none => exact Membership.apply_no_newcomer hs (Network.change_awaits he) hn
  | some x =>
    obtain ⟨address, id, key⟩ := x
    exact (Membership.apply_newcomer hs hn).1

theorem step_names {s s' : Network} {e : Event} (hs : s.toMembership.Sound) (hst : s.Step e s') :
    names s ⊆ names s' := by
  refine Finset.range_subset_range.mpr ?_
  rw [step_peerCount hs hst]
  exact Nat.le_add_right _ _

/-- The new name, if there is a new peer. -/
theorem newcomer_name {s s' : Network} {e : Event} (hs : s.toMembership.Sound) (hst : s.Step e s')
    (hn : (s.newcomer (s.change e)).isSome) : s.peerCount ∈ names s' := by
  rw [names, Finset.mem_range, step_peerCount hs hst, if_pos hn]
  exact Nat.lt_succ_self _

theorem dialed_name {s s' : Network} {e : Event} (hs : s.toMembership.Sound) (hst : s.Step e s') {p : PeerRef}
    (hd : (Lib.Net.dialed p (site.outputs (s.effects s'))).isSome) : p = s.peerCount ∧ p ∈ names s' := by
  rw [dialed_step hs hst] at hd
  split at hd
  · rename_i hp
    subst hp
    obtain ⟨j, hj⟩ := Option.isSome_iff_exists.mp hd
    obtain ⟨x, hx, -⟩ := Option.bind_eq_some_iff.mp hj
    exact ⟨rfl, newcomer_name hs hst ((s.change_newcomer e).mpr (Or.inr (by rw [hx]; rfl)))⟩
  · cases hd

/-- Nodes stay alive, whatever they are told. -/
theorem alive_contract (site : Site ι) : Lib.Net.Contract site.Acts (fun _ _ => True) Alive (fun _ _ _ => True) where
  fresh := by
    intro i far s inp s' out h _ hm p hd
    obtain ⟨e, hcause, hst, -, rfl⟩ := hm.event h.1.sound
    obtain ⟨rfl, -⟩ := dialed_name h.1.sound hst hd
    have hnone : far s.peerCount = none := Option.not_isSome_iff_eq_none.mp fun hf =>
      Nat.lt_irrefl _ (Finset.mem_range.mp (h.2 _ hf))
    cases hcause with
    | accept j r =>
      rw [dialed_step h.1.sound hst, if_pos rfl] at hd
      cases hd
    | own h => exact hnone
    | read p received reached => exact hnone
    | close p => exact hnone
  keeps := by
    intro i far s inp s' out h _ hm
    obtain ⟨e, hcause, hst, -, rfl⟩ := hm.event h.1.sound
    refine ⟨.step h.1 trivial hst, fun p hp => ?_⟩
    rw [Option.isSome_or, Bool.or_eq_true] at hp
    rcases hp with hp | hp
    · exact (dialed_name h.1.sound hst hp).2
    · have old : ∀ {q}, (far q).isSome → q ∈ names s' := fun hq => step_names h.1.sound hst (h.2 _ hq)
      cases hcause with
      | accept j r =>
        rw [Input.ends, Function.update_apply] at hp
        split at hp
        · rename_i hpc
          exact hpc ▸ newcomer_name h.1.sound hst rfl
        · exact old hp
      | own h => exact old hp
      | read p received reached => exact old hp
      | close p => exact old hp
  sends := fun _ _ _ _ _ _ _ _ => trivial

variable [DecidableEq ι]

/-! ## What holds of all nodes -/

/-- All nodes are alive, and nothing is on its way on connections they do not have. -/
structure Running (w : World ι) : Prop where
  kept : Lib.Net.Kept Alive (fun _ _ _ => True) w
  housed : Lib.Net.Housed names w

omit [DecidableEq ι] in
theorem start_running (ports : ι → Port) (clocks : ι → Nat → Nat) : Running (site.start ports clocks) where
  kept := ⟨⟨fun i p q h => by cases h⟩, fun i => ⟨.start _ _ _ _, fun p h => by cases h⟩, fun _ _ _ _ _ _ => trivial⟩
  housed := ⟨fun i p h => (by cases h), fun i p h => absurd rfl h⟩

variable {w w' : World ι} {a : Action ι PeerRef Bytes Event} {i : ι} {inp : Input ι PeerRef Bytes Event}

omit [Platform] [DecidableEq ι] in
theorem allowed_any (a : Action ι PeerRef Bytes Event) : a.Allowed fun _ _ => True := by
  cases a with
  | leave i => trivial
  | act i inp => cases inp <;> trivial

/-- One node's move: it handles an event, and what that puts on the net is put there. -/
structure Moved (site : Site ι) (w w' : World ι) (i : ι) (inp : Input ι PeerRef Bytes Event) (e : Event)
    (s' : Network) : Prop where
  acted : Lib.Net.Acted site.Acts (fun _ _ => True) (fun _ _ _ => True) w w' i inp s'
    (site.outputs ((w.node i).effects s'))
  caused : site.Caused (w.node i) inp e
  step : (w.node i).Step e s'

theorem Running.moved (h : Running w) (hst : Lib.Net.Step site.Acts w (.act i inp) w') :
    ∃ e s', site.Moved w w' i inp e s' := by
  obtain ⟨s', out, hact⟩ := (alive_contract site).acted h.kept (allowed_any _) hst
  obtain ⟨e, hcause, hstep, -, rfl⟩ := hact.answer.event (h.kept.node i).1.sound
  exact ⟨e, s', hact, hcause, hstep⟩

theorem Running.step (h : Running w) (hst : Lib.Net.Step site.Acts w a w') : Running w' := by
  refine ⟨(alive_contract site).step h.kept (allowed_any a) hst, ?_⟩
  cases a with
  | leave i =>
    cases hst
    exact ⟨h.housed.peer, h.housed.queue⟩
  | act i inp =>
    obtain ⟨e, s', hact, hcause, hstep⟩ := h.moved hst
    have hr := (h.kept.node i).1
    refine hact.housed h.housed (step_names hr.sound hstep) (fun j p q he => ?_)
      (fun p m hm => Finset.mem_range.mpr (Network.step_targets hr hstep (send_mem.mp hm))) fun p j hm => ?_
    · subst he
      cases hcause
      exact newcomer_name hr.sound hstep rfl
    · obtain ⟨ip, port, hc, hl⟩ := dial_mem.mp hm
      obtain ⟨hen, rounds, hh⟩ := hstep
      have hp := Network.speech_plain ((Network.handle_speech hr.sound hen hh).other hc fun q b hq => by cases hq)
      cases hp with
      | connected hd =>
        have hdials : ((w.node i).dials e).isSome := by rw [hd]; rfl
        exact newcomer_name hr.sound ⟨hen, rounds, hh⟩ ((Network.change_newcomer _ e).mpr (Or.inr hdials))

/-! ## What is left to be done -/

/-- A timer of a node, or a command to it. -/
def Prompt : Action ι PeerRef Bytes Event → Prop
  | .act _ (.own e) => e.Prompted
  | _ => False

omit [DecidableEq ι] [Platform] in
theorem bill_outputs (cost : Option Byte → Nat) (call : Nat) (es : List Effect) :
    Lib.Net.bill (fun bytes : Bytes => cost bytes.head?) call (site.outputs es) ≤
      (es.map (Effect.price cost call)).sum := by
  induction es with
  | nil => exact Nat.le_refl _
  | cons x es ih =>
    rw [List.map_cons, List.sum_cons, outputs, List.filterMap_cons]
    split
    · exact Nat.le_add_left_of_le ih
    · rename_i o ho
      have hone : o.price (fun bytes : Bytes => cost bytes.head?) call ≤ x.price cost call := by
        cases x with
        | sent p bytes => cases ho; exact Nat.le_refl _
        | connected p ip port =>
          obtain ⟨j, -, hj⟩ := Option.map_eq_some_iff.mp ho
          cases hj
          exact Nat.le_refl _
        | displayed emitter data => cases ho
        | reported msg => cases ho
      exact Nat.add_le_add hone ih

variable [Fintype ι]

/-- The READY messages on their way. -/
def cue (head : Option Byte) : Nat := if head = some MessageType.ready.code then 1 else 0

/-- The requests on their way, which make peers known who may be waiting. -/
def plea (head : Option Byte) : Nat :=
  if head = some MessageType.join.code ∨ head = some MessageType.readyNotif.code then 2 else 0

def isFlood (bytes : Bytes) : Bool :=
  decide (bytes.head? = some MessageType.joinNotif.code ∨ bytes.head? = some MessageType.data.code)

/-- The stamps of the broadcasts on their way. -/
def afloat (w : World ι) : Finset Bytes :=
  Finset.univ.biUnion fun i => (names (w.node i)).biUnion fun p =>
    (((w.queue i p).filter isFlood).map Network.stampIn).toFinset

/-- Those a node has not logged. -/
def unheard (w : World ι) (i : ι) : Finset Bytes :=
  (afloat w).filter fun stamp => ((w.node i).logs.find? stamp).isNone = true

def cues (w : World ι) : Nat := Lib.Net.load names (fun bytes : Bytes => cue bytes.head?) 0 w

def pleas (w : World ι) : Nat :=
  Lib.Net.load names (fun bytes : Bytes => plea bytes.head?) 0 w + ∑ i, (w.node i).waiters.card

def floods (w : World ι) : Nat := ∑ i, (unheard w i).card

def chores (w : World ι) : Nat :=
  Lib.Net.load names (fun bytes : Bytes => Network.word bytes.head?) 2 w + ∑ i, (w.node i).listeners.card +
    (Finset.univ.filter fun i => w.gone i = false).card

/-- What is left to be done. -/
def rank (w : World ι) : Nat ×ₗ Nat ×ₗ Nat ×ₗ Nat := toLex (cues w, toLex (pleas w, toLex (floods w, chores w)))

omit [DecidableEq ι] [Platform] in
theorem rank_lt_of {w w' : World ι} (h₁ : cues w' ≤ cues w) (h₂ : cues w' = cues w → pleas w' ≤ pleas w)
    (h₃ : cues w' = cues w → pleas w' = pleas w → floods w' ≤ floods w)
    (h₄ : cues w' = cues w → pleas w' = pleas w → floods w' = floods w → chores w' < chores w) : rank w' < rank w := by
  rw [rank, rank, Prod.Lex.toLex_lt_toLex]
  rcases h₁.lt_or_eq with h | e₁
  · exact Or.inl h
  · refine Or.inr ⟨e₁, ?_⟩
    show toLex (_, _) < toLex (_, _)
    rw [Prod.Lex.toLex_lt_toLex]
    rcases (h₂ e₁).lt_or_eq with h | e₂
    · exact Or.inl h
    · refine Or.inr ⟨e₂, ?_⟩
      show toLex (_, _) < toLex (_, _)
      rw [Prod.Lex.toLex_lt_toLex]
      exact (h₃ e₁ e₂).lt_or_eq.imp (fun h => h) fun e₃ => ⟨e₃, h₄ e₁ e₂ e₃⟩

omit [DecidableEq ι] in
theorem mem_afloat (h : Running w) {stamp : Bytes} : stamp ∈ afloat w ↔
    ∃ i p bytes, bytes ∈ w.queue i p ∧ isFlood bytes = true ∧ Network.stampIn bytes = stamp := by
  simp only [afloat, Finset.mem_biUnion, Finset.mem_univ, true_and, List.mem_toFinset, List.mem_map, List.mem_filter]
  constructor
  · rintro ⟨i, p, -, bytes, ⟨hq, hf⟩, hs⟩
    exact ⟨i, p, bytes, hq, hf, hs⟩
  · rintro ⟨i, p, bytes, hq, hf, hs⟩
    exact ⟨i, p, h.housed.queue i p (List.ne_nil_of_mem hq), bytes, ⟨hq, hf⟩, hs⟩

/-! ## One move -/

variable {e : Event} {s' : Network}

omit [Platform] in
/-- The other nodes are as they were. -/
theorem sum_update (f : Network → Nat) (hn : w'.node = Function.update w.node i s') :
    ∑ k, f (w'.node k) + f (w.node i) = ∑ k, f (w.node k) + f s' := by
  rw [hn, ← Finset.add_sum_erase _ _ (Finset.mem_univ i),
    ← Finset.add_sum_erase Finset.univ (fun k => f (w.node k)) (Finset.mem_univ i), Function.update_self]
  have hrest : ∑ k ∈ Finset.univ.erase i, f (Function.update w.node i s' k) = ∑ k ∈ Finset.univ.erase i, f (w.node k) :=
    Finset.sum_congr rfl fun k hk => by rw [Function.update_of_ne (Finset.ne_of_mem_erase hk)]
  omega

/-- What a move adds to the load, and what it takes off it. -/
theorem Moved.load (h : Running w) (hm : site.Moved w w' i inp e s') (cost : Option Byte → Nat) (call : Nat) :
    Lib.Net.load names (fun bytes : Bytes => cost bytes.head?) call w' +
        Lib.Net.earned (fun bytes : Bytes => cost bytes.head?) call inp ≤
      Lib.Net.load names (fun bytes : Bytes => cost bytes.head?) call w +
        (((w.node i).effects s').map (Effect.price cost call)).sum :=
  (hm.acted.load h.housed).trans (Nat.add_le_add_left (bill_outputs cost call _) _)

omit [Platform] [DecidableEq ι] [Fintype ι] in
theorem elicits_cue : ∀ t : MessageType, ∀ t' ∈ t.elicits, cue (some t'.code) = 0 := by
  intro t
  cases t <;> decide

omit [Platform] [DecidableEq ι] [Fintype ι] in
theorem elicits_plea : ∀ t : MessageType, t ≠ .ready → ∀ t' ∈ t.elicits, plea (some t'.code) = 0 := by
  intro t ht
  cases t with
  | ready => exact absurd rfl ht
  | _ => decide

section

variable (h : Running w) (hm : site.Moved w w' i inp e s') (hp : ¬ e.Prompted)

include h hm hp

/-- READY is only sent by a timer. -/
theorem Moved.cues : cues w' ≤ cues w ∧ ((w.node i).Opens e .ready → cues w' < cues w) := by
  have hs := (h.kept.node i).1.sound
  have hload := hm.load h cue 0
  rw [Network.step_free hs hp hm.step (fun t _ => elicits_cue t) rfl rfl] at hload
  refine ⟨Nat.le_of_add_right_le hload, fun ho => ?_⟩
  obtain ⟨p, received, reached, m, rfl, hparse, -, ht⟩ := ho
  have hc := hm.caused
  cases hc with
  | own hown => exact hown.elim
  | read =>
    have hone : cue received.head? = 1 := by rw [parse_head hparse, ht]; rfl
    have hload : Site.cues w' + cue received.head? ≤ Site.cues w := hload
    omega

/-- Requests are not sent but by the user, and READY Notifications only when READY comes. -/
theorem Moved.pleas : (¬ (w.node i).Opens e .ready → pleas w' ≤ pleas w) ∧
    ((w.node i).Opens e .join ∨ (w.node i).Opens e .readyNotif → pleas w' < pleas w) := by
  obtain ⟨hs, hk⟩ := And.intro (h.kept.node i).1.sound (h.kept.node i).1.kempt
  have hload := hm.load h plea 0
  obtain ⟨hone, hsame⟩ := Network.step_waiters hs hk hm.step
  have hfree : ¬ (w.node i).Opens e .ready → (((w.node i).effects s').map (Effect.price plea 0)).sum = 0 := fun hr =>
    Network.step_free hs hp hm.step (fun t ho => elicits_plea t fun ht => hr (ht ▸ ho)) rfl rfl
  have hread : (w.node i).Opens e .join ∨ (w.node i).Opens e .readyNotif → Site.pleas w' < Site.pleas w := by
    intro ho
    have hr : ¬ (w.node i).Opens e .ready := by
      rintro ⟨p, received, reached, m, rfl, hparse, -, ht⟩
      rcases ho with ⟨_, _, _, m', he, hparse', -, ht'⟩ | ⟨_, _, _, m', he, hparse', -, ht'⟩
      all_goals
        cases he
        cases hparse.symm.trans hparse'
        rw [ht] at ht'
        cases ht'
    rw [hfree hr] at hload
    have hpaid : Lib.Net.earned (fun bytes : Bytes => plea bytes.head?) 0 inp = 2 := by
      have hc := hm.caused
      rcases ho with ⟨p, received, reached, m, rfl, hparse, -, ht⟩ | ⟨p, received, reached, m, rfl, hparse, -, ht⟩
      all_goals
        cases hc with
        | own hown => exact hown.elim
        | read =>
          show plea received.head? = 2
          rw [parse_head hparse, ht]
          rfl
    have hsum := sum_update (fun s => s.waiters.card) hm.acted.node
    simp only [Site.pleas]
    omega
  refine ⟨fun hr => ?_, hread⟩
  by_cases ho : (w.node i).Opens e .join ∨ (w.node i).Opens e .readyNotif
  · exact Nat.le_of_lt (hread ho)
  · rw [hfree hr] at hload
    have hsum := sum_update (fun s => s.waiters.card) hm.acted.node
    have hle := hsame (fun hj => ho (Or.inl hj)) fun hn => ho (Or.inr hn)
    simp only [Site.pleas]
    omega

/-- Broadcasts are passed on, but new ones are only made for requests. -/
theorem Moved.afloat (hj : ¬ (w.node i).Opens e .join) (hn : ¬ (w.node i).Opens e .readyNotif) :
    afloat w' ⊆ afloat w := by
  have hs := (h.kept.node i).1.sound
  intro stamp hstamp
  simp only [Site.afloat, Finset.mem_biUnion, Finset.mem_univ, true_and, List.mem_toFinset, List.mem_map,
    List.mem_filter] at hstamp
  obtain ⟨k, q, -, bytes, ⟨hq, hf⟩, rfl⟩ := hstamp
  rw [mem_afloat h]
  rcases hm.acted.queue hq with hq | ⟨rfl, hq⟩
  · exact ⟨k, q, bytes, hq, hf, rfl⟩
  · obtain ⟨p, received, reached, m, rfl, hparse, hl, ⟨t, ht, hhead⟩ | hpass⟩ :=
      Network.step_puts hs hp hm.step (send_mem.mp hq)
    · -- an answer is no broadcast
      exfalso
      have hne : ∀ t₀ : MessageType, t₀ ≠ .join → t₀ ≠ .readyNotif → ∀ t ∈ t₀.elicits,
          ¬ (some t.code = some MessageType.joinNotif.code ∨ some t.code = some MessageType.data.code) := by
        intro t₀ h₁ h₂
        cases t₀ with
        | join => exact absurd rfl h₁
        | readyNotif => exact absurd rfl h₂
        | _ => decide
      rw [isFlood, hhead] at hf
      exact hne m.type (fun hty => hj ⟨p, received, reached, m, rfl, hparse, hl, hty⟩)
        (fun hty => hn ⟨p, received, reached, m, rfl, hparse, hl, hty⟩) t ht (of_decide_eq_true hf)
    · have hc := hm.caused
      cases hc with
      | own hown => exact hown.elim
      | read =>
        obtain ⟨j, r, -, -, hr⟩ := hm.acted.heard rfl
        refine ⟨j, r, received, hr, ?_, hpass.stamp.symm⟩
        rw [isFlood, hpass.head, ← parse_head hparse] at hf
        exact hf

/-- A node passes a message on once. -/
theorem Moved.floods (hj : ¬ (w.node i).Opens e .join) (hn : ¬ (w.node i).Opens e .readyNotif) :
    floods w' ≤ floods w ∧ (∀ p received reached m, e = .read p received reached → parseMessage received = .ok m →
      (w.node i).findLog m = none → (w.node i).relay m p ≠ [] → floods w' < floods w) := by
  have hs := (h.kept.node i).1.sound
  have hlogs : ∀ stamp, ((w.node i).logs.find? stamp).isSome → (s'.logs.find? stamp).isSome := by
    obtain ⟨-, rounds, hh⟩ := hm.step
    exact (Network.handle_talks (fun message he => hp (by rw [he]; trivial)) hh).logs
  have hsub : ∀ k, unheard w' k ⊆ unheard w k := by
    intro k stamp hk
    obtain ⟨hk, hl⟩ := Finset.mem_filter.mp hk
    refine Finset.mem_filter.mpr ⟨hm.afloat h hp hj hn hk, ?_⟩
    rw [hm.acted.node] at hl
    by_cases hki : k = i
    · subst hki
      rw [Function.update_self] at hl
      rw [← Option.not_isSome, Bool.not_eq_true'] at hl ⊢
      exact Bool.eq_false_iff.mpr fun hc => absurd (hlogs stamp hc) (by rw [hl]; exact Bool.false_ne_true)
    · rwa [Function.update_of_ne hki] at hl
  refine ⟨Finset.sum_le_sum fun k _ => Finset.card_le_card (hsub k), fun p received reached m he hparse hl hrelay => ?_⟩
  subst he
  obtain ⟨hb, hlog⟩ := Network.relay_logged hs hm.step hparse hl hrelay
  have hc := hm.caused
  cases hc with
  | own hown => exact hown.elim
  | read =>
    obtain ⟨j, r, -, -, hr⟩ := hm.acted.heard rfl
    have hflood : isFlood received = true := by
      rw [isFlood, parse_head hparse]
      rcases Network.broadcast_type hb with ht | ht <;> rw [ht] <;> rfl
    refine Finset.sum_lt_sum (fun k _ => Finset.card_le_card (hsub k)) ⟨i, Finset.mem_univ i, Finset.card_lt_card ?_⟩
    refine (Finset.ssubset_iff_of_subset (hsub i)).mpr ⟨Network.stampIn received, ?_, fun hmem => ?_⟩
    · refine Finset.mem_filter.mpr ⟨(mem_afloat h).mpr ⟨j, r, received, hr, hflood, rfl⟩, ?_⟩
      rw [← Network.stampOf_parsed hparse, show (w.node i).logs.find? (Network.stampOf m) = none from hl]
      rfl
    · have hn := (Finset.mem_filter.mp hmem).2
      rw [hm.acted.node, Function.update_self, ← Option.not_isSome, hlog] at hn
      cases hn

/-- Where nothing of this goes on, more is taken off the net than is put on it. -/
theorem Moved.chores (hr : ¬ (w.node i).Opens e .ready) (hj : ¬ (w.node i).Opens e .join)
    (hn : ¬ (w.node i).Opens e .readyNotif)
    (hrelay : ∀ p received reached m, e = .read p received reached → parseMessage received = .ok m →
      (w.node i).findLog m = none → (w.node i).relay m p = []) : chores w' < chores w := by
  have hs := (h.kept.node i).1.sound
  have hload := hm.load h Network.word 2
  have hsaves := Network.step_saves hs hp hm.step hrelay hj hr hn
  have htaken : Lib.Net.earned (fun bytes : Bytes => Network.word bytes.head?) 2 inp = Network.taken e := by
    have hc := hm.caused
    cases hc with
    | own hown =>
      cases e with
      | readError p => rfl
      | accept address => exact hown.elim
      | read p received reached => exact hown.elim
      | eof p => exact hown.elim
      | _ => exact absurd trivial hp
    | accept j r => rfl
    | read p received reached => rfl
    | close p => rfl
  have hgone : w'.gone = w.gone := by
    obtain ⟨v, hb, rfl⟩ := hm.acted.after
    cases hb <;> rfl
  have hsum := sum_update (fun s => s.listeners.card) hm.acted.node
  rw [htaken] at hload
  simp only [Site.chores, hgone]
  omega

end

/-! ## All moves -/

theorem rank_lt {a : Action ι PeerRef Bytes Event} (h : Running w) (hst : Lib.Net.Step site.Acts w a w')
    (ha : ¬ Prompt a) : rank w' < rank w := by
  cases a with
  | leave i =>
    cases hst with
    | leave hgone =>
      refine rank_lt_of (Nat.le_refl _) (fun _ => Nat.le_refl _) (fun _ _ => Nat.le_refl _) fun _ _ _ => ?_
      refine Nat.add_lt_add_left (Finset.card_lt_card ?_) _
      refine (Finset.ssubset_iff_of_subset fun k hk => ?_).mpr
        ⟨i, Finset.mem_filter.mpr ⟨Finset.mem_univ i, hgone⟩, fun hi => ?_⟩
      · have hk := (Finset.mem_filter.mp hk).2
        refine Finset.mem_filter.mpr ⟨Finset.mem_univ k, ?_⟩
        by_cases hki : k = i
        · subst hki
          exact hgone
        · exact (Function.update_of_ne hki true w.gone).symm.trans hk
      · have hi : Function.update w.gone i true i = false := (Finset.mem_filter.mp hi).2
        rw [Function.update_self] at hi
        cases hi
  | act i inp =>
    obtain ⟨e, s', hm⟩ := h.moved hst
    have hp : ¬ e.Prompted := by
      have hc := hm.caused
      cases hc with
      | own hown => exact ha
      | _ => exact fun hf => hf
    obtain ⟨hle, hlt⟩ := hm.cues h hp
    refine rank_lt_of hle (fun he => ?_) (fun he he' => ?_) fun he he' he'' => ?_
    all_goals
      have hr : ¬ (w.node i).Opens e .ready := fun ho => Nat.ne_of_lt (hlt ho) he
      obtain ⟨hle', hlt'⟩ := hm.pleas h hp
    · exact hle' hr
    all_goals
      have hj : ¬ (w.node i).Opens e .join := fun ho => Nat.ne_of_lt (hlt' (Or.inl ho)) he'
      have hn : ¬ (w.node i).Opens e .readyNotif := fun ho => Nat.ne_of_lt (hlt' (Or.inr ho)) he'
      obtain ⟨hle'', hlt''⟩ := hm.floods h hp hj hn
    · exact hle''
    · refine hm.chores h hp hr hj hn fun p received reached m he₁ hparse hl => ?_
      by_contra hrelay
      exact Nat.ne_of_lt (hlt'' p received reached m he₁ hparse hl hrelay) he''

/-- Whatever the nodes do, timers and commands keep them going: in every run without end
    these come again and again. -/
theorem falls_silent (ports : ι → Port) (clocks : ι → Nat → Nat) {f : Nat → World ι}
    {moves : Nat → Action ι PeerRef Bytes Event} (h₀ : f 0 = site.start ports clocks)
    (hs : ∀ n, Lib.Net.Step site.Acts (f n) (moves n) (f (n + 1))) (n : Nat) : ∃ k, n ≤ k ∧ Prompt (moves k) := by
  have h : Running (f 0) := by
    rw [h₀]
    exact start_running ports clocks
  have hkeep : ∀ v a v', Running v → Lib.Net.Step site.Acts v a v' → Running v' := fun _ _ _ hv hst => hv.step hst
  have hlow : ∀ v a v', Running v → Lib.Net.Step site.Acts v a v' → ¬ Prompt a → rank v' < rank v :=
    fun _ _ _ hv hst ha => rank_lt hv hst ha
  exact Lib.again_and_again hkeep hlow f moves h hs n

/-- What becomes of the net when a user sends a text. -/
def told (site : Site ι) (i : ι) (text : Bytes) (v : World ι) : World ι :=
  v.after i ((v.node i).sendAll text) (site.outputs ((v.node i).effects ((v.node i).sendAll text)))

omit [Fintype ι] in
/-- He may do so at any time. -/
theorem told_step {v : World ι} (hg : v.gone i = false) (text : Bytes) :
    Lib.Net.Step site.Acts v (.act i (.own (.sendAll text))) (site.told i text v) := by
  have hsent : (v.node i).effects ((v.node i).sendAll text) = (v.node i).peers.values.map (.sent · text) :=
    Network.effects_append rfl
  refine .own hg (.own trivial ⟨trivial, 1, rfl⟩ fun p ip port hc => ?_)
  rw [hsent] at hc
  obtain ⟨q, -, hq⟩ := List.mem_map.mp hc
  cases hq

omit [Platform] in
/-- The first node joins the second one and says something, and this is passed on; then its
    user sends texts for ever. -/
theorem falls_silent_two : ∃ (f : Nat → World Bool) (moves : Nat → Action Bool PeerRef Bytes Event) (n : Nat),
    f 0 = Scenario.town.start (fun _ => 7) (fun _ t => t) ∧
      (∀ n, Lib.Net.Step (@Site.Acts _ Scenario.town sha1) (f n) (moves n) (f (n + 1))) ∧
      .displayed (Scenario.idOf 1) (ascii "hi") ∈ ((f n).node true).trace ∧ (∃ bytes, bytes ∈ (f n).queue true 1) ∧
      ∃ k, n ≤ k ∧ Prompt (moves k) := by
  obtain ⟨moves, w, hr, -, -, -, hd, hg, hq⟩ := Scenario.visit_run
  let tail (n : Nat) : World Bool := (Scenario.town.told false (ascii "x"))^[n] w
  have hgone : ∀ n, (tail n).gone false = false := by
    intro n
    induction n with
    | zero => exact hg
    | succ n ih =>
      show ((Scenario.town.told false (ascii "x"))^[n + 1] w).gone false = false
      rw [Function.iterate_succ_apply']
      exact ih
  have htail : ∀ n, Lib.Net.Step (@Site.Acts _ Scenario.town sha1) (tail n) (.act false (.own (.sendAll (ascii "x"))))
      (tail (n + 1)) := by
    intro n
    show Lib.Net.Step _ _ _ ((Scenario.town.told false (ascii "x"))^[n + 1] w)
    rw [Function.iterate_succ_apply']
    exact @told_step _ _ sha1 _ _ _ (hgone n) _
  obtain ⟨f, h₀, hs, hf⟩ := hr.follow (f := tail) (a := fun _ => .act false (.own (.sendAll (ascii "x")))) rfl htail
  have hw : f moves.length = w := hf 0
  exact ⟨f, _, moves.length, h₀, hs, by rw [hw]; exact hd, by rw [hw]; exact hq,
    @falls_silent _ Scenario.town sha1 _ _ _ _ f _ h₀ hs moves.length⟩

end Site

end RacKun
