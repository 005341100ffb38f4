/-
  RacKun.Network.Costs — what a step costs, and what it leaves to be done.

  An event is prompted when it comes from a timer or from the user. Any other one uses
  something up: a message, a connection not accepted yet, a peer we listen to. What it puts
  on the net in return is a matter of the type of the message: a READY is answered with READY
  Notifications, a JOIN and a READY Notification at most with a JOIN Notification and an
  acknowledgement, a JOIN Notification with an acknowledgement; the rest with nothing. A
  relay passes a message on, and logs it.

  - `speech_puts`: the types of what is sent.
  - `apply_waiters`: who is answered later is somebody who has asked.
  - `step_saves`: where nothing of this goes on, the step puts on the net less than it takes.
-/

import Mathlib.Algebra.BigOperators.Group.List.Basic
import Mathlib.Data.Finset.Card
import Mathlib.Data.Finset.Range
import RacKun.Network.Requests
import RacKun.Network.Targets
import RacKun.Wire.Codec

namespace RacKun

open Lib (OrdMap)

/-- A timer, or a command. -/
def Event.Prompted : Event → Prop
  | .readyTimer _ | .joinTimer _ | .join .. | .broadcast _ | .sendAll _ => True
  | _ => False

/-- What a message of this type is answered with. -/
def MessageType.elicits : MessageType → List MessageType
  | .join | .readyNotif => [.joinNotif, .joinAck]
  | .joinNotif => [.joinAck]
  | .ready => [.readyNotif]
  | _ => []

theorem parse_head [Platform] {received : Bytes} {m : Message} (hm : parseMessage received = .ok m) :
    received.head? = some m.type.code := by
  obtain ⟨⟨-, hlen⟩, hc, -⟩ := parse_layout hm
  cases received with
  | nil => cases hlen
  | cons c rest => exact congrArg some hc

/-! ## Prices -/

/-- What an effect puts on the net: messages cost by their first byte. -/
def Effect.price (cost : Option Byte → Nat) (call : Nat) : Effect → Nat
  | .sent _ bytes => cost bytes.head?
  | .connected .. => call
  | _ => 0

def Utterance.price (cost : Option Byte → Nat) (call : Nat) : Utterance → Nat
  | .own targets payload => targets.length * cost (some payload.type.code)
  | .plain e => e.price cost call

variable {cost : Option Byte → Nat} {call : Nat}

theorem Renders.price [Platform] {author : Bytes} {us : List Utterance} {es : List Effect} (h : Renders author us es) :
    (es.map (Effect.price cost call)).sum = (us.map (Utterance.price cost call)).sum := by
  induction h with
  | nil => rfl
  | @own targets payload now us es _ ih =>
    have hown : ((targets.map (Effect.sent · (Message.makeStamp payload author now).serialize)).map
        (Effect.price cost call)).sum = targets.length * cost (some payload.type.code) := by
      have hconst : (targets.map (Effect.sent · (Message.makeStamp payload author now).serialize)).map
          (Effect.price cost call) = targets.map fun _ => cost (some payload.type.code) := by
        rw [List.map_map]
        rfl
      rw [hconst, List.map_const', List.sum_replicate_nat]
    rw [List.map_append, List.sum_append, ih, hown]
    rfl
  | plain e _ ih =>
    rw [List.map_cons, List.sum_cons, ih]
    rfl

namespace Membership

/-! ## Peers we listen to -/

def listeners (m : Membership) : Finset PeerRef :=
  (Finset.range m.peerCount).filter fun p => (m.peer p).listening = true

theorem mem_listeners {m : Membership} (hs : m.Sound) {p : PeerRef} :
    p ∈ m.listeners ↔ (m.peer p).listening = true := by
  rw [listeners, Finset.mem_filter, Finset.mem_range]
  exact ⟨fun h => h.2, fun h => ⟨(hs.listening p h).1, h⟩⟩

/-- The waiting peers who are known: by address. -/
def waiters (m : Membership) : Finset Bytes :=
  ((m.newPeers.entries.filter fun e => e.2.1.any fun p => (m.peer p).isKnown).map Prod.fst).toFinset

theorem mem_waiters {m : Membership} {address : Bytes} : address ∈ m.waiters ↔
    ∃ p port, m.newPeers.find? address = some (some p, port) ∧ (m.peer p).isKnown = true := by
  rw [waiters, List.mem_toFinset, List.mem_map]
  constructor
  · rintro ⟨⟨a, q, port⟩, he, rfl⟩
    obtain ⟨he, hk⟩ := List.mem_filter.mp he
    cases q with
    | none => cases hk
    | some p => exact ⟨p, port, OrdMap.mem_entries.mp he, hk⟩
  · rintro ⟨p, port, hf, hk⟩
    exact ⟨(address, some p, port), List.mem_filter.mpr ⟨OrdMap.mem_entries.mpr hf, hk⟩, rfl⟩

variable [Platform]

omit [Platform] in
theorem modPeer_listening (m : Membership) (p q : PeerRef) {f : Peer → Peer}
    (hf : (f (m.peer q)).listening = (m.peer q).listening) :
    ((m.modPeer q f).peer p).listening = (m.peer p).listening := by
  by_cases h : p = q
  · subst h
    rw [modPeer_self, hf]
  · rw [modPeer_of_ne h]

omit [Platform] in
theorem setState_listening (m : Membership) (p q : PeerRef) (st : PeerState) :
    ((m.setState q st).peer p).listening = (m.peer p).listening := m.modPeer_listening p q rfl

theorem closed_listening {m : Membership} (hs : m.Sound) {p q : PeerRef} (hq : (m.peer q).listening = true)
    (hp : p ≠ m.localPeer) : ((m.apply (.closed q)).peer p).listening = ((m.stopListening q).peer p).listening := by
  rw [Membership.apply, remove_frame (hs.stopListening (hs.listening q hq)) q]
  unfold reset
  split
  · exact congrArg Peer.listening (modPeer_of_ne hp _)
  · rfl

/-- Who is listened to was so before, or is new. -/
theorem apply_listening {m : Membership} (hs : m.Sound) {c : Change} (hc : m.Awaits c) {p : PeerRef} (hp : m.Remote p)
    (hl : ((m.apply c).peer p).listening = true) : (m.peer p).listening = true := by
  have hne : p ≠ m.peerCount := Nat.ne_of_lt hp.1
  have old : ∀ address, ((m.newPeer address).peer p).listening = (m.peer p).listening := fun address =>
    congrArg Peer.listening (newPeer_of_ne hne address)
  have stop : ∀ q, ((m.stopListening q).peer p).listening = true → (m.peer p).listening = true := by
    intro q hq
    by_cases h : p = q
    · subst h
      rw [stopListening, modPeer_self] at hq
      cases hq
    · rwa [stopListening, modPeer_of_ne h] at hq
  cases c with
  | idle => exact hl
  | accept address =>
    rw [Membership.apply, addNewPeer, startListening, modPeer_of_ne hne] at hl
    exact (old address).symm.trans hl
  | contact address =>
    rw [Membership.apply, addNewPeer, startListening, modPeer_of_ne hne] at hl
    exact (old address).symm.trans ((setState_listening _ p m.localPeer .joining).symm.trans hl)
  | request q id pubK port newId =>
    have hg : ((m.apply (.request q id pubK port newId)).peer p).listening =
        ((m.greet q id pubK newId).peer p).listening := by
      simp only [Membership.apply]
      split
      · rw [(answer_peer _ q).1]
      · rfl
    rw [hg, greet, setState_listening, initPeer, modPeer_listening _ _ _ rfl] at hl
    split at hl
    · exact (setState_listening m p m.localPeer .connected).symm.trans hl
    · exact hl
  | notified groupId peerId pubK address =>
    simp only [Membership.apply] at hl
    split at hl
    · exact hl
    · have henrol := enrol_of_ne (m := { m with joinToken := false }.newPeer address) hne peerId pubK
      exact (old address).symm.trans ((congrArg Peer.listening henrol).symm.trans hl)
  | unreached => exact hl
  | channels peerId =>
    simp only [Membership.apply] at hl
    split at hl
    · exact hl
    · rwa [enterChannels_peer hs] at hl
  | acked q groupId peerId pubK =>
    have hg : ((m.apply (.acked q groupId peerId pubK)).peer p).listening =
        (((m.ackGroup groupId).2.initPeer q peerId pubK).setState q .connected |>.peer p).listening := rfl
    rwa [hg, setState_listening, initPeer, modPeer_listening _ _ _ rfl, (ackGroup_rest m groupId).2.1] at hl
  | ready => exact (congrArg Peer.listening ((ready_entered m).peer p hp.2)).symm.trans hl
  | completed q =>
    rw [Membership.apply, (check_peer _).1] at hl
    exact (setState_listening m p q .connected).symm.trans hl
  | expired id =>
    simp only [Membership.apply] at hl
    split at hl
    · exact hl
    · rename_i t _
      rw [(check_peer _).1] at hl
      exact (setState_listening m p t.peer .connected).symm.trans hl
  | readySent id =>
    simp only [Membership.apply] at hl
    split at hl <;> exact hl
  | closed q => exact stop q ((closed_listening hs hc hp.2).symm.trans hl)
  | failed q => exact stop q hl

/-- At most one more, and that is somebody new. -/
theorem apply_listeners {m : Membership} (hs : m.Sound) {c : Change} (hc : m.Awaits c) :
    (m.apply c).listeners.card ≤ m.listeners.card + if (m.newcomer c).isSome then 1 else 0 := by
  have hs' := hs.apply hc
  cases hn : m.newcomer c with
  | none =>
    refine Nat.le_add_right_of_le (Finset.card_le_card fun p hp => ?_)
    have hl := (mem_listeners hs').mp hp
    have hr := hs'.listening p hl
    rw [Remote, apply_no_newcomer hs hc hn, apply_localPeer hs hc] at hr
    exact (mem_listeners hs).mpr (apply_listening hs hc hr hl)
  | some x =>
    obtain ⟨address, id, key⟩ := x
    refine (Finset.card_le_card (t := insert m.peerCount m.listeners) fun p hp => ?_).trans (Finset.card_insert_le _ _)
    have hl := (mem_listeners hs').mp hp
    have hr := hs'.listening p hl
    rw [Remote, (apply_newcomer hs hn).1, apply_localPeer hs hc] at hr
    by_cases hlast : p = m.peerCount
    · exact hlast ▸ Finset.mem_insert_self _ _
    · have hlt : p < m.peerCount := Nat.lt_of_le_of_ne (Nat.le_of_lt_succ hr.1) hlast
      exact Finset.mem_insert_of_mem ((mem_listeners hs).mpr (apply_listening hs hc ⟨hlt, hr.2⟩ hl))

/-- We stop listening to whoever is closed. -/
theorem closed_listeners {m : Membership} (hs : m.Sound) {p : PeerRef} {c : Change} (hl : (m.peer p).listening = true)
    (hc : c = .closed p ∨ c = .failed p) : (m.apply c).listeners.card < m.listeners.card := by
  have ha : m.Awaits c := by rcases hc with rfl | rfl <;> exact hl
  have hn : m.newcomer c = none := by rcases hc with rfl | rfl <;> rfl
  have hs' := hs.apply ha
  have hdeaf : ((m.apply c).peer p).listening = false := by
    have hstop : ((m.stopListening p).peer p).listening = false := by rw [stopListening, modPeer_self]
    rcases hc with rfl | rfl
    · exact (closed_listening hs hl (hs.listening p hl).2).trans hstop
    · exact hstop
  refine Finset.card_lt_card ((Finset.ssubset_iff_of_subset fun q hq => ?_).mpr
    ⟨p, (mem_listeners hs).mpr hl, fun hp => ?_⟩)
  · have hlq := (mem_listeners hs').mp hq
    have hr := hs'.listening q hlq
    rw [Remote, apply_no_newcomer hs ha hn, apply_localPeer hs ha] at hr
    exact (mem_listeners hs).mpr (apply_listening hs ha hr hlq)
  · rw [mem_listeners hs', hdeaf] at hp
    cases hp

/-! ## Peers who wait for an answer -/

/-- Whoever waits has waited before, or has just become known. -/
theorem apply_waiters {m : Membership} (hs : m.Sound) (hk : m.Kempt) {c : Change} (hc : m.Awaits c) {address : Bytes}
    (ha : address ∈ (m.apply c).waiters) : address ∈ m.waiters ∨ ∃ p, address = (m.peer p).address ∧
      ((∃ id pubK port newId, c = .request p id pubK port newId) ∨ c = .completed p) := by
  obtain ⟨p, port, hf, hp⟩ := mem_waiters.mp ha
  have hpend := apply_pends hs hc
  rcases hpend.entry hf with hold | ⟨hc', he, -⟩ | ⟨q, id, pubK, newId, rfl, -, haddr, -⟩
  · have hkey := hk.keyed _ _ _ hold
    rcases apply_state hs hc (hs.newPeers _ _ _ hold) with hst | hst
    · left
      rw [Peer.isKnown, hst] at hp
      exact mem_waiters.mpr ⟨p, port, hold, hp⟩
    · generalize ((m.apply c).peer p).state = st at hst
      cases hst with
      | request id pubK port' newId => exact Or.inr ⟨p, hkey.symm, Or.inl ⟨id, pubK, port', newId, rfl⟩⟩
      | acked groupId peerId pubK =>
        -- whoever acknowledges us is not pending any more
        rw [acked_pends hpend, hkey, OrdMap.find_erase_self] at hf
        cases hf
      | completed => exact Or.inr ⟨p, hkey.symm, Or.inr rfl⟩
      | expired id t ht htp => exact Or.inl (mem_waiters.mpr ⟨p, port, hold, htp ▸ hk.timed id t ht⟩)
  · cases he
    rw [(entered_peer hs hc').2] at hp
    cases hp
  · exact Or.inr ⟨q, haddr, Or.inl ⟨id, pubK, _, newId, rfl⟩⟩

theorem waiters_le {m : Membership} (hs : m.Sound) (hk : m.Kempt) {c : Change} (hc : m.Awaits c) :
    (m.apply c).waiters.card ≤ m.waiters.card + 1 := by
  by_cases h : ∃ p, (∃ id pubK port newId, c = .request p id pubK port newId) ∨ c = .completed p
  · obtain ⟨p, hp⟩ := h
    refine (Finset.card_le_card (t := insert (m.peer p).address m.waiters) fun a ha => ?_).trans
      (Finset.card_insert_le _ _)
    rcases apply_waiters hs hk hc ha with ha | ⟨q, rfl, hq⟩
    · exact Finset.mem_insert_of_mem ha
    · have hpq : p = q := by
        rcases hp with ⟨id, pubK, port, newId, rfl⟩ | rfl <;> rcases hq with ⟨_, _, _, _, hq⟩ | hq <;> cases hq <;> rfl
      exact hpq ▸ Finset.mem_insert_self _ _
  · refine (Finset.card_le_card fun a ha => ?_).trans (Nat.le_succ _)
    rcases apply_waiters hs hk hc ha with ha | ⟨q, -, hq⟩
    · exact ha
    · exact absurd ⟨q, hq⟩ h

theorem waiters_le_of_ne {m : Membership} (hs : m.Sound) (hk : m.Kempt) {c : Change} (hc : m.Awaits c)
    (hr : ∀ p id pubK port newId, c ≠ .request p id pubK port newId) (hd : ∀ p, c ≠ .completed p) :
    (m.apply c).waiters.card ≤ m.waiters.card := by
  refine Finset.card_le_card fun a ha => ?_
  rcases apply_waiters hs hk hc ha with ha | ⟨q, -, ⟨_, _, _, _, hq⟩ | hq⟩
  · exact ha
  · exact absurd hq (hr _ _ _ _ _)
  · exact absurd hq (hd _)

end Membership

namespace Network

variable [Platform]

/-! ## What is sent -/

omit [Platform] in
theorem ackSpeech_type {m : Membership} {p : PeerRef} {targets : List PeerRef} {payload : Payload}
    (h : .own targets payload ∈ m.ackSpeech p) : payload.type = .joinAck := by
  unfold Membership.ackSpeech at h
  split at h
  · cases h
  · cases List.mem_singleton.mp h
    rfl

theorem answerSpeech_type {m : Membership} {p : PeerRef} {port : Port} {targets : List PeerRef} {payload : Payload}
    (h : .own targets payload ∈ m.answerSpeech p port) : payload.type ∈ [MessageType.joinNotif, .joinAck] := by
  unfold Membership.answerSpeech at h
  split at h
  · cases h
  · rcases List.mem_cons.mp h with h | h
    · cases h
      exact List.mem_cons_self
    · rw [ackSpeech_type h]
      exact List.mem_cons_of_mem _ List.mem_cons_self

theorem checkSpeech_type {m : Membership} {targets : List PeerRef} {payload : Payload}
    (h : .own targets payload ∈ m.checkSpeech) : payload.type ∈ [MessageType.joinNotif, .joinAck] := by
  unfold Membership.checkSpeech at h
  split at h
  · cases h
  · exact answerSpeech_type h

/-- What a node sends of its own without a prompt is an answer to the message it has read. -/
theorem speech_elicits {s : Network} {e : Event} (he : ¬ e.Prompted) {targets : List PeerRef} {payload : Payload}
    (h : .own targets payload ∈ s.speech e) : ∃ p received reached m, e = .read p received reached ∧
      parseMessage received = .ok m ∧ s.findLog m = none ∧ payload.type ∈ m.type.elicits := by
  cases e with
  | read p received reached =>
    cases hm : parseMessage received with
    | error err =>
      simp only [speech, hm] at h
      cases List.mem_singleton.mp h
    | ok m =>
      by_cases hl : (s.findLog m).isSome = true
      · simp only [speech, hm, hl, if_true] at h
        cases h
      · simp only [speech, hm, hl, Bool.false_eq_true, if_false] at h
        refine ⟨p, received, reached, m, rfl, hm, Option.not_isSome_iff_eq_none.mp hl, ?_⟩
        rcases List.mem_append.mp h with h | h
        · obtain ⟨_, q, -, hu⟩ := relay_plain h
          cases hu
        · obtain ⟨stamp, sent⟩ := m
          cases sent with
          | join id pubK port =>
            simp only [messageSpeech] at h
            split at h
            · exact answerSpeech_type h
            · cases h
          | joinNotif marker channel groupId peerId pubK ip port =>
            simp only [messageSpeech, notifSpeech] at h
            split at h
            · cases reached with
              | none => cases List.mem_singleton.mp h
              | some address =>
                rcases List.mem_cons.mp h with h | h
                · cases h
                · rw [ackSpeech_type h]
                  exact List.mem_cons_self
            · cases h
          | joinAck groupId peerId pubK => cases h
          | ready =>
            obtain ⟨targets, hu⟩ := readySpeech_mem _ _ _ h
            cases hu
            exact List.mem_cons_self
          | readyNotif => exact checkSpeech_type h
          | data marker content => cases List.mem_singleton.mp h
  | accept address => cases h
  | eof p => cases h
  | readError p => cases h
  | _ => exact absurd trivial he

/-- The message that was read, passed on: it bears the same stamp, and is logged by now. -/
structure Passes (s' : Network) (received : Bytes) (m : Message) (sent : Bytes) : Prop where
  broadcast : m.bcastMarker?.isSome
  head : sent.head? = some m.type.code
  stamp : stampIn sent = stampIn received
  logged : (s'.logs.find? (stampIn received)).isSome

/-- Without a prompt, a node sends answers to what it reads, and copies of it. -/
theorem step_puts {s s' : Network} (hs : s.toMembership.Sound) {e : Event} (he : ¬ e.Prompted) (hst : Step s e s')
    {q : PeerRef} {bytes : Bytes} (hb : .sent q bytes ∈ s.effects s') : ∃ p received reached m,
      e = .read p received reached ∧ parseMessage received = .ok m ∧ s.findLog m = none ∧
        ((∃ t ∈ m.type.elicits, bytes.head? = some t.code) ∨ Passes s' received m bytes) := by
  obtain ⟨hen, rounds, hh⟩ := hst
  have hlogged : (s'.logs.find? (stampIn bytes)).isSome := by
    obtain ⟨es, hes, hall⟩ := (handle_talks (fun message hm => he (by rw [hm]; trivial)) hh).trace
    exact hall q bytes (effects_append hes ▸ hb)
  rcases (handle_speech hs hen hh).sent hb with ⟨targets, payload, now, hu, -, rfl⟩ | hu
  · obtain ⟨p, received, reached, m, rfl, hm, hl, ht⟩ := speech_elicits he hu
    exact ⟨p, received, reached, m, rfl, hm, hl, Or.inl ⟨_, ht, rfl⟩⟩
  · have hp := speech_plain hu
    cases hp with
    | text => exact absurd trivial he
    | @relayed p received marker reached m hm hbc =>
      have hstamp : stampIn m.serialize = stampIn received := stampOf_parsed hm
      refine ⟨p, received, reached, m, rfl, hm, ?_, Or.inr ⟨by rw [hbc]; rfl, rfl, hstamp, hstamp ▸ hlogged⟩⟩
      by_contra hl
      simp only [speech, hm, Option.isSome_iff_ne_none.mpr hl, if_true] at hu
      cases hu

/-- The event is the first reading of a message of this type. -/
def Opens (s : Network) (e : Event) (t : MessageType) : Prop := ∃ p received reached m,
  e = .read p received reached ∧ parseMessage received = .ok m ∧ s.findLog m = none ∧ m.type = t

omit [Platform] in
theorem broadcast_type {m : Message} (h : m.bcastMarker?.isSome) : m.type = .joinNotif ∨ m.type = .data := by
  obtain ⟨stamp, payload⟩ := m
  cases payload with
  | joinNotif marker channel groupId peerId pubK ip port => exact Or.inl rfl
  | data marker content => exact Or.inr rfl
  | _ => cases h

/-- A step is free where neither the answers to what is read cost anything, nor broadcasts. -/
theorem step_free {s s' : Network} (hs : s.toMembership.Sound) {e : Event} (he : ¬ e.Prompted) (hst : Step s e s')
    (hown : ∀ t, s.Opens e t → ∀ t' ∈ t.elicits, cost (some t'.code) = 0)
    (hn : cost (some MessageType.joinNotif.code) = 0) (hd : cost (some MessageType.data.code) = 0) :
    ((s.effects s').map (Effect.price cost 0)).sum = 0 := by
  refine List.sum_eq_zero fun c hc => ?_
  obtain ⟨x, hx, rfl⟩ := List.mem_map.mp hc
  cases x with
  | sent q bytes =>
    obtain ⟨p, received, reached, m, rfl, hm, hl, ⟨t, ht, hhead⟩ | hpass⟩ := step_puts hs he hst hx
    · rw [Effect.price, hhead]
      exact hown m.type ⟨p, received, reached, m, rfl, hm, hl, rfl⟩ t ht
    · rw [Effect.price, hpass.head]
      rcases broadcast_type hpass.broadcast with ht | ht
      · rw [ht, hn]
      · rw [ht, hd]
  | _ => rfl

/-- Peers wait for an answer only once a request has made them known. -/
theorem step_waiters {s s' : Network} (hs : s.toMembership.Sound) (hk : s.toMembership.Kempt) {e : Event}
    (hst : Step s e s') : s'.waiters.card ≤ s.waiters.card + 1 ∧
      (¬ s.Opens e .join → ¬ s.Opens e .readyNotif → s'.waiters.card ≤ s.waiters.card) := by
  obtain ⟨hen, rounds, hh⟩ := hst
  have ha := change_awaits hen
  rw [handle_membership hh]
  refine ⟨Membership.waiters_le hs hk ha, fun hj hn => Membership.waiters_le_of_ne hs hk ha
    (fun p id pubK port newId hc => ?_) fun p hc => ?_⟩
  all_goals
    cases e with
    | read q received reached =>
      cases hm : parseMessage received with
      | error err =>
        simp only [change, hm] at hc
        cases hc
      | ok m =>
        by_cases hl : (s.findLog m).isSome = true
        · simp only [change, hm, hl, if_true] at hc
          cases hc
        · simp only [change, hm, hl, Bool.false_eq_true, if_false] at hc
          have hl := Option.not_isSome_iff_eq_none.mp hl
          obtain ⟨stamp, payload⟩ := m
          cases payload with
          | join id' pubK' port' => exact hj ⟨q, received, reached, _, rfl, hm, hl, rfl⟩
          | readyNotif => exact hn ⟨q, received, reached, _, rfl, hm, hl, rfl⟩
          | joinNotif marker channel groupId peerId pubK ip port =>
            simp only [messageChange] at hc
            split at hc
            · cases reached <;> cases hc
            · split at hc <;> cases hc
          | _ => cases hc
    | join ip port reached => cases reached <;> cases hc
    | _ => cases hc

/-- What is passed on has been logged. -/
theorem relay_logged {s s' : Network} (hs : s.toMembership.Sound) {p : PeerRef} {received : Bytes}
    {reached : Option Bytes} {m : Message} (hst : Step s (.read p received reached) s')
    (hm : parseMessage received = .ok m) (hl : s.findLog m = none) (hr : s.relay m p ≠ []) : m.bcastMarker?.isSome ∧ (s'.logs.find? (stampIn received)).isSome := by
  obtain ⟨hen, rounds, hh⟩ := hst
  obtain ⟨u, hu⟩ := List.exists_mem_of_ne_nil _ hr
  obtain ⟨marker, q, hb, rfl⟩ := relay_plain hu
  have hsp : .plain (.sent q m.serialize) ∈ s.speech (.read p received reached) := by
    simp only [speech, hm, hl, Option.isSome_none, Bool.false_eq_true, if_false]
    exact List.mem_append_left _ hu
  obtain ⟨es, hes, hall⟩ := (handle_talks (fun message h => by cases h) hh).trace
  have hlog := hall q m.serialize (effects_append hes ▸ (handle_speech hs hen hh).done hsp)
  refine ⟨by rw [hb]; rfl, ?_⟩
  rwa [show stampIn m.serialize = stampIn received from stampOf_parsed hm] at hlog

/-! ## What is saved -/

/-- The price of a message where only answers to JOIN Notifications count. -/
def word (head : Option Byte) : Nat := if head = some MessageType.joinNotif.code then 5 else 1

/-- What an event takes off the net. -/
def taken : Event → Nat
  | .read _ received _ => word received.head?
  | .accept _ => 2
  | _ => 0

/-- What we make of a message that asks for nothing costs less than the message: at most a
    connection and an acknowledgement, and somebody new to listen to. -/
theorem messageSpeech_saves (s : Network) {m : Message} (received : Bytes) (p : PeerRef) (reached : Option Bytes)
    (hj : m.type ≠ .join) (hr : m.type ≠ .ready) (hn : m.type ≠ .readyNotif) :
    ((s.messageSpeech m received p reached).map (Utterance.price word 2)).sum +
      (if (s.newcomer (s.messageChange m p reached)).isSome then 1 else 0) < word (some m.type.code) := by
  obtain ⟨stamp, payload⟩ := m
  cases payload with
  | join id pubK port => exact absurd rfl hj
  | ready => exact absurd rfl hr
  | readyNotif => exact absurd rfl hn
  | joinAck groupId peerId pubK => exact Nat.zero_lt_one
  | data marker content => exact Nat.zero_lt_one
  | joinNotif marker channel groupId peerId pubK ip port =>
    have hone : ∀ c : Change, (if (s.newcomer c).isSome then 1 else 0) ≤ 1 := by
      intro c
      split <;> omega
    have hack : ∀ n : Membership, ((n.ackSpeech s.peerCount).map (Utterance.price word 2)).sum ≤ 1 := by
      intro n
      unfold Membership.ackSpeech
      split
      · exact Nat.zero_le _
      · exact Nat.le_refl _
    have hsum : ((s.notifSpeech received groupId peerId pubK ip channel port reached).map
        (Utterance.price word 2)).sum ≤ 3 := by
      unfold notifSpeech
      split
      · cases reached with
        | none => exact Nat.zero_le _
        | some address => exact Nat.add_le_add_left (hack _) 2
      · exact Nat.zero_le _
    have hprice : 3 + 1 < word (some MessageType.joinNotif.code) := Nat.lt_succ_self 4
    exact Nat.lt_of_le_of_lt (Nat.add_le_add hsum (hone _)) hprice

/-- A step that passes nothing on and answers no request puts less on the net than it takes. -/
theorem step_saves {s s' : Network} (hs : s.toMembership.Sound) {e : Event} (he : ¬ e.Prompted) (hst : Step s e s')
    (hrelay : ∀ p received reached m, e = .read p received reached → parseMessage received = .ok m →
      s.findLog m = none → s.relay m p = []) (hj : ¬ s.Opens e .join) (hr : ¬ s.Opens e .ready)
    (hn : ¬ s.Opens e .readyNotif) :
    ((s.effects s').map (Effect.price word 2)).sum + s'.listeners.card < s.listeners.card + taken e := by
  obtain ⟨hen, rounds, hh⟩ := hst
  have hl := Membership.apply_listeners hs (change_awaits hen)
  rw [(handle_speech hs hen hh).price, handle_membership hh]
  have hword : ∀ head, 0 < word head := by
    intro head
    unfold word
    split <;> omega
  cases e with
  | accept address =>
    have hl : _ ≤ s.listeners.card + 1 := hl
    show 0 + _ < s.listeners.card + 2
    omega
  | eof p =>
    show 0 + _ < _
    rw [Nat.zero_add]
    exact Membership.closed_listeners hs hen (Or.inl rfl)
  | readError p =>
    show 0 + _ < _
    rw [Nat.zero_add]
    exact Membership.closed_listeners hs hen (Or.inr rfl)
  | read p received reached =>
    have hpays : ((s.speech (.read p received reached)).map (Utterance.price word 2)).sum +
        (if (s.newcomer (s.change (.read p received reached))).isSome then 1 else 0) <
          taken (.read p received reached) := by
      cases hm : parseMessage received with
      | error err =>
        simp only [speech, change, hm]
        exact hword _
      | ok m =>
        by_cases hlog : (s.findLog m).isSome = true
        · simp only [speech, change, hm, hlog, if_true]
          exact hword _
        · have hnone := Option.not_isSome_iff_eq_none.mp hlog
          have hopens : ∀ t, m.type = t → s.Opens (.read p received reached) t := fun t ht =>
            ⟨p, received, reached, m, rfl, hm, hnone, ht⟩
          simp only [speech, change, hm, hlog, Bool.false_eq_true, if_false,
            hrelay p received reached m rfl hm hnone, List.nil_append, taken, parse_head hm]
          exact messageSpeech_saves s received p reached (fun h => hj (hopens _ h)) (fun h => hr (hopens _ h))
            fun h => hn (hopens _ h)
    omega
  | _ => exact absurd trivial he

end Network

end RacKun
