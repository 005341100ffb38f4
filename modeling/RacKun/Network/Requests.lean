/-
  RacKun.Network.Requests — who is in the table of pending peers, and who is answered.

  The table is kept by address, so connections from one address overwrite, rename and
  erase each other's entry (`KeepsRequests` says when they do not). Whoever is in it and
  known counts as having sent a request; a READY Notification makes a connection known
  too (`OnlyRequests` says when that does no harm).

  - `Kempt`: entries stand under their peer's address, timers belong to known peers.
  - `Asked.step`: known peers in the table have asked, with the port noted there.
  - `RequestsKept.step`: whoever has asked and waits is in the table.
-/

import RacKun.Network.Frame
import RacKun.Network.Past

namespace RacKun

open Lib (OrdMap)

open Scenario

/-! ## What has been asked -/

section

variable [Platform]

/-- The JOIN request an event brings: from whom, and the port it announces. -/
def Event.asks : Event → Option (PeerRef × Port)
  | .read p received _ =>
    match parseMessage received with
    | .ok ⟨_, .join _ _ port⟩ => some (p, port)
    | _ => none
  | _ => none

namespace Network

/-- The connection has sent a JOIN request with this port. -/
def Requested (h : Steps) (p : PeerRef) (port : Port) : Prop := ∃ x ∈ h, x.2.asks = some (p, port)

/-- The port the connection has announced, in its last request. -/
def announced (h : Steps) (p : PeerRef) : Option Port :=
  h.findSome? fun x => x.2.asks.bind fun r => if r.1 = p then some r.2 else none

/-- `answer_join_request` has been executed for the peer. -/
def Answered (h : Steps) (p : PeerRef) : Prop := ∃ x ∈ h, (x.1.answering x.2).map (fun r => r.2.1) = some p

omit [Platform] in
/-- The connection has closed. -/
def Closed (h : Steps) (p : PeerRef) : Prop := ∃ x ∈ h, x.2 = .eof p

/-- He has asked, and is still there. -/
def Waits (h : Steps) (p : PeerRef) : Prop := announced h p ≠ none ∧ ¬ Answered h p ∧ ¬ Closed h p

instance (h : Steps) (p : PeerRef) : Decidable (Answered h p) := inferInstanceAs (Decidable (∃ x ∈ h, _ = _))

instance (h : Steps) (p : PeerRef) : Decidable (Closed h p) := inferInstanceAs (Decidable (∃ x ∈ h, _ = _))

instance (h : Steps) (p : PeerRef) : Decidable (Waits h p) := inferInstanceAs (Decidable (_ ∧ _ ∧ _))

theorem announced_cons (s : Network) (e : Event) (h : Steps) (p : PeerRef) : announced ((s, e) :: h) p =
    (e.asks.bind fun r => if r.1 = p then some r.2 else none).or (announced h p) := by
  rw [announced, List.findSome?_cons]
  cases e.asks.bind fun r => if r.1 = p then some r.2 else none <;> rfl

theorem announced_asks {s : Network} {e : Event} {p : PeerRef} {port : Port} (h : Steps)
    (he : e.asks = some (p, port)) : announced ((s, e) :: h) p = some port := by
  rw [announced_cons, he]
  simp

theorem announced_other {s : Network} {e : Event} {p : PeerRef} (h : Steps) (he : ∀ port, e.asks ≠ some (p, port)) :
    announced ((s, e) :: h) p = announced h p := by
  rw [announced_cons]
  cases ha : e.asks with
  | none => rfl
  | some r =>
    obtain ⟨q, port⟩ := r
    have hq : q ≠ p := fun hq => he port (hq ▸ ha)
    simp [hq]

/-- A request is greeted, or it is a copy and dropped. -/
theorem asks_change {s : Network} {e : Event} {p : PeerRef} {port : Port} (h : e.asks = some (p, port)) :
    (∃ id pubK newId, s.change e = .request p id pubK port newId) ∨ s.change e = .idle := by
  have hc := change_causes s e
  generalize s.change e = c at hc
  cases hc with
  | idle e => exact Or.inr rfl
  | request q reached newId hm =>
    simp only [Event.asks, hm, Option.some.injEq, Prod.mk.injEq] at h
    obtain ⟨rfl, rfl⟩ := h
    exact Or.inl ⟨_, _, newId, rfl⟩
  | notified q hm => simp only [Event.asks, hm] at h; cases h
  | unreached q hm => simp only [Event.asks, hm] at h; cases h
  | channels q reached hm => simp only [Event.asks, hm] at h; cases h
  | acked q reached hm => simp only [Event.asks, hm] at h; cases h
  | ready q reached hm => simp only [Event.asks, hm] at h; cases h
  | completed q reached hm => simp only [Event.asks, hm] at h; cases h
  | accept address => cases h
  | contact ip port' address => cases h
  | expired id => cases h
  | readySent id => cases h
  | closed q => cases h
  | failed q => cases h

theorem change_asks {s : Network} {e : Event} {p : PeerRef} {id pubK : Bytes} {port : Port} {newId : Bytes}
    (h : s.change e = .request p id pubK port newId) : e.asks = some (p, port) := by
  have hc := change_causes s e
  rw [h] at hc
  cases hc with
  | request q reached newId hm => simp only [Event.asks, hm]

theorem change_closed {s : Network} {e : Event} {p : PeerRef} (h : s.change e = .closed p) : e = .eof p := by
  have hc := change_causes s e
  rw [h] at hc
  cases hc
  rfl

end Network

end

namespace Membership

/-! ## The table, whatever comes -/

/-- Entries stand under their peer's address, and timers belong to known peers. -/
structure Kempt (m : Membership) : Prop where
  keyed : ∀ address p port, m.newPeers.find? address = some (some p, port) → (m.peer p).address = address
  timed : ∀ id t, m.joinTimers.find? id = some t → (m.peer t.peer).isKnown = true

variable [Platform]

omit [Platform] in
/-- An entry of the table after a change: an old one, the connection just made, or the
    one under the address of whoever has just asked. -/
theorem Pends.entry {m : Membership} {c : Change} {table : OrdMap Bytes (Option PeerRef × Port)} (h : m.Pends c table)
    {address : Bytes} {q : Option PeerRef} {port : Port} (hf : table.find? address = some (q, port)) :
    m.newPeers.find? address = some (q, port) ∨
      ((c = .accept address ∨ c = .contact address) ∧ q = some m.peerCount ∧ port = 0) ∨
      ∃ p id pubK newId, c = .request p id pubK port newId ∧ m.joinToken = false ∧ address = (m.peer p).address ∧
        q = ((m.newPeers.find? address).map Prod.fst).getD none := by
  have erased : ∀ a, (m.newPeers.erase a).find? address = some (q, port) →
      m.newPeers.find? address = some (q, port) := fun a hf => (OrdMap.find_erase_some hf).2
  cases h with
  | same hc hc' => exact Or.inl hf
  | enters a hc =>
    rcases OrdMap.find_insert_some hf with ⟨ha, he⟩ | hold
    · cases he
      exact Or.inr (Or.inl ⟨ha ▸ hc, rfl, rfl⟩)
    · exact Or.inl hold
  | answers hc => exact Or.inl (erased _ hf)
  | asks p id pubK port' newId ht =>
    have hf : (m.newPeers.insert (m.peer p).address _).find? address = some (q, port) := hf
    rcases OrdMap.find_insert_some hf with ⟨ha, he⟩ | hold
    · cases he
      exact Or.inr (Or.inr ⟨p, id, pubK, newId, rfl, ht, ha, ha ▸ rfl⟩)
    · exact Or.inl hold
  | acked p groupId peerId pubK => exact Or.inl (erased _ hf)
  | closed p hp => exact Or.inl (erased _ hf)

omit [Platform] in
theorem request_pends {m : Membership} {p : PeerRef} {id pubK : Bytes} {port : Port} {newId : Bytes}
    {table : OrdMap Bytes (Option PeerRef × Port)} (h : m.Pends (.request p id pubK port newId) table) :
    m.joinToken = true ∧ table = m.newPeers.erase (m.peer p).address ∨
      m.joinToken = false ∧ table = (m.pend p port).newPeers := by
  cases h with
  | same hc hc' => exact absurd rfl (hc p id pubK port newId)
  | enters a hc => rcases hc with hc | hc <;> cases hc
  | answers hc =>
    left
    simp only [answers] at hc
    split at hc
    · rename_i ht
      cases hc
      exact ⟨ht, rfl⟩
    · cases hc
  | asks _ _ _ _ _ ht => exact Or.inr ⟨ht, rfl⟩

omit [Platform] in
theorem acked_pends {m : Membership} {p : PeerRef} {groupId peerId pubK : Bytes}
    {table : OrdMap Bytes (Option PeerRef × Port)} (h : m.Pends (.acked p groupId peerId pubK) table) :
    table = m.newPeers.erase (m.peer p).address := by
  cases h with
  | same hc hc' => exact absurd rfl (hc' p groupId peerId pubK)
  | enters a hc => rcases hc with hc | hc <;> cases hc
  | answers hc => cases hc
  | acked => rfl

/-- A connection just made: nobody we know. -/
theorem entered_peer {m : Membership} (hs : m.Sound) {address : Bytes} {c : Change}
    (hc : c = .accept address ∨ c = .contact address) : ((m.apply c).peer m.peerCount).address = address ∧
      ((m.apply c).peer m.peerCount).isKnown = false := by
  have hn : m.localPeer ≠ m.peerCount := Nat.ne_of_lt hs.localPeer
  have listen : ∀ n : Membership, ((n.addNewPeer m.peerCount).peer m.peerCount).address = (n.peer m.peerCount).address ∧
      ((n.addNewPeer m.peerCount).peer m.peerCount).isKnown = (n.peer m.peerCount).isKnown := by
    intro n
    rw [addNewPeer, startListening, modPeer_self]
    exact ⟨rfl, rfl⟩
  rcases hc with rfl | rfl
  · rw [Membership.apply, (listen _).1, (listen _).2, newPeer_self]
    exact ⟨rfl, rfl⟩
  · rw [Membership.apply, (listen _).1, (listen _).2, setState, modPeer_of_ne hn.symm, newPeer_self]
    exact ⟨rfl, rfl⟩

theorem Kempt.apply {m : Membership} (h : m.Kempt) (hs : m.Sound) {c : Change} (hc : m.Awaits c) : (m.apply c).Kempt := by
  refine ⟨fun address p port hf => ?_, apply_timers hs hc h.timed⟩
  have old : ∀ {port}, m.newPeers.find? address = some (some p, port) → ((m.apply c).peer p).address = address :=
    fun ho => (apply_stays hs hc (hs.newPeers _ _ _ ho)).address.trans (h.keyed _ _ _ ho)
  rcases (apply_pends hs hc).entry hf with ho | ⟨hc', hp, -⟩ | ⟨q, _, _, _, -, -, -, hp⟩
  · exact old ho
  · cases hp
    exact (entered_peer hs hc').1
  · cases ho : m.newPeers.find? address with
    | none => rw [ho] at hp; cases hp
    | some x =>
      obtain ⟨q', port'⟩ := x
      rw [ho] at hp
      cases hp
      exact old ho

end Membership

namespace Network

variable [Platform]

theorem Reach.kempt {allowed : Network → Event → Prop} {s : Network} (hs : Reach allowed s) : s.toMembership.Kempt :=
  hs.membership (I := Membership.Kempt)
    (fun id pubK port clock => ⟨fun a p port h => (by cases h), fun id t h => (by cases h)⟩)
    fun s e hr h he _ => h.apply hr.sound (change_awaits he)

end Network

/-! ## Who is answered -/

namespace Membership

/-- A READY Notification comes from somebody we know, or who is not in the table; a request
    that has to wait is not noted for another peer we know. -/
def OnlyRequests (m : Membership) : Change → Prop
  | .completed p => (m.peer p).isKnown = true ∨ ∀ e ∈ m.newPeers.entries, e.2.1 ≠ some p
  | .request p _ _ _ _ => m.joinToken = true ∨
      ∀ e ∈ m.newPeers.find? (m.peer p).address, ∀ q ∈ e.1, q = p ∨ (m.peer q).isKnown = false
  | _ => True

instance (m : Membership) : (c : Change) → Decidable (m.OnlyRequests c)
  | .completed _ => inferInstanceAs (Decidable (_ ∨ ∀ e ∈ m.newPeers.entries, _))
  | .request p _ _ _ _ => inferInstanceAs (Decidable (_ ∨ ∀ e ∈ m.newPeers.find? (m.peer p).address, ∀ q ∈ e.1, _))
  | .idle | .accept _ | .contact _ | .notified .. | .unreached | .channels _ | .acked .. | .ready | .expired _ |
    .readySent _ | .closed _ | .failed _ => inferInstanceAs (Decidable True)

variable [Platform]

/-- Whoever is in the table and becomes known has asked, or acknowledges us. -/
theorem OnlyRequests.known {m : Membership} (hs : m.Sound) (hk : m.Kempt) {c : Change} (hc : m.Awaits c)
    (ho : m.OnlyRequests c) {address : Bytes} {p : PeerRef} {port : Port}
    (hf : m.newPeers.find? address = some (some p, port)) (hp : ((m.apply c).peer p).isKnown = true) :
    (m.peer p).isKnown = true ∨ (∃ id pubK port newId, c = .request p id pubK port newId) ∨
      ∃ groupId peerId pubK, c = .acked p groupId peerId pubK := by
  rcases apply_state hs hc (hs.newPeers _ _ _ hf) with h | h
  · left
    unfold Peer.isKnown at hp ⊢
    rw [← h]
    exact hp
  · generalize ((m.apply c).peer p).state = st at h
    cases h with
    | request id pubK port newId => exact Or.inr (Or.inl ⟨id, pubK, port, newId, rfl⟩)
    | acked groupId peerId pubK => exact Or.inr (Or.inr ⟨groupId, peerId, pubK, rfl⟩)
    | completed => exact Or.inl (ho.resolve_right fun h => h _ (OrdMap.mem_entries.mpr hf) rfl)
    | expired id t ht htp => exact Or.inl (htp ▸ hk.timed id t ht)

end Membership

namespace Network

open RacKun.Membership (OnlyRequests)

variable [Platform]

/-- Known peers in the table have asked, with the port noted there, and we have a group. -/
def Asked (h : Steps) (m : Membership) : Prop := ∀ address p port, m.newPeers.find? address = some (some p, port) →
  (m.peer p).isKnown = true → Requested h p port ∧ m.localGroup ≠ none

theorem Asked.step {h : Steps} {s : Network} {e : Event} (ha : Asked h s.toMembership) (hr : Reachable s)
    (he : s.Enabled e) (ho : s.toMembership.OnlyRequests (s.change e)) :
    Asked ((s, e) :: h) (s.toMembership.apply (s.change e)) := by
  have hs := hr.sound
  have hk := hr.kempt
  have hc := change_awaits he
  intro address p port hf hp
  -- a table with an entry is not one that has been cleared
  have group : s.localGroup ≠ none → (s.toMembership.apply (s.change e)).localGroup ≠ none := by
    intro hl hn
    have hloc := Membership.apply_regroups hs hc
    generalize s.change e = c at hf hloc hn
    generalize (s.toMembership.apply c).groups = gs at hloc
    rw [hn] at hloc
    generalize hl' : (none : Option GroupRef) = l at hloc
    cases hloc with
    | same => exact hl hl'.symm
    | founded p id pubK port newId hc => cases hl'
    | joined p groupId peerId pubK hl => cases hl'
    | entered => exact hl hl'.symm
    | cleared q hq hnew =>
      rw [hnew] at hf
      cases hf
  have old : ∀ {port}, s.newPeers.find? address = some (some p, port) → (s.peer p).isKnown = true →
      Requested ((s, e) :: h) p port ∧ (s.toMembership.apply (s.change e)).localGroup ≠ none := by
    intro port ho hn
    obtain ⟨⟨x, hx, hxp⟩, hl⟩ := ha address p port ho hn
    exact ⟨⟨x, List.mem_cons_of_mem _ hx, hxp⟩, group hl⟩
  have asked : ∀ id pubK port newId, s.change e = .request p id pubK port newId →
      Requested ((s, e) :: h) p port ∧ (s.toMembership.apply (s.change e)).localGroup ≠ none := by
    intro id pubK port newId heq
    refine ⟨⟨(s, e), List.mem_cons_self, change_asks heq⟩, ?_⟩
    obtain ⟨l, hl⟩ := Membership.request_localGroup hs p id pubK port newId
    rw [heq, hl]
    exact Option.some_ne_none l
  have pends := Membership.apply_pends hs hc
  rcases pends.entry hf with ho' | ⟨hc', hp', -⟩ | ⟨q, id, pubK, newId, heq, ht, haddr, hq⟩
  · rcases ho.known hs hk hc ho' hp with hn | ⟨id, pubK, port', newId, heq⟩ | ⟨groupId, peerId, pubK, heq⟩
    · exact old ho' hn
    · -- the entry is the one of the peer who asks now
      have haddr := hk.keyed _ _ _ ho'
      rw [heq] at pends
      rcases Membership.request_pends pends with ⟨-, htable⟩ | ⟨-, htable⟩
      · rw [heq, htable, haddr, OrdMap.find_erase_self] at hf
        cases hf
      · rw [heq, htable, Membership.pend, haddr, OrdMap.find_insert_self] at hf
        obtain rfl : port' = port := congrArg Prod.snd (Option.some.inj hf)
        exact asked id pubK port' newId heq
    · have haddr := hk.keyed _ _ _ ho'
      rw [heq] at pends
      rw [heq, Membership.acked_pends pends, haddr, OrdMap.find_erase_self] at hf
      cases hf
  · cases hp'
    rw [(Membership.entered_peer hs hc').2] at hp
    cases hp
  · -- the port is noted in the entry that stands under the address of `q`
    cases ho' : s.newPeers.find? address with
    | none =>
      simp only [ho', Option.map_none, Option.getD_none] at hq
      cases hq
    | some x =>
      obtain ⟨q', port'⟩ := x
      simp only [ho', Option.map_some, Option.getD_some] at hq
      cases hq
      have hno := ho
      rw [heq] at hno
      rcases hno with ht' | hno
      · cases ht.symm.trans ht'
      · rcases hno _ (haddr ▸ ho') p rfl with rfl | hn
        · exact asked id pubK port newId heq
        · rcases ho.known hs hk hc ho' hp with hn' | ⟨_, _, _, _, heq'⟩ | ⟨_, _, _, heq'⟩
          · cases hn.symm.trans hn'
          · cases heq.symm.trans heq'
            exact asked id pubK port newId heq
          · cases heq.symm.trans heq'

theorem Past.asked {h : Steps} {s : Network} (hp : Past (fun _ s e => s.toMembership.OnlyRequests (s.change e)) h s) :
    Asked h s.toMembership :=
  hp.membership (I := Asked) (fun id pubK port clock a p q hf => by cases hf)
    fun h s s' e hp ih he ho _ => ih.step hp.reach he ho

/-- In a run of such steps, whoever is answered has asked, with the port he is answered
    with, and we have a group to let him into. -/
theorem answers_requested {h : Steps} {s : Network} {e : Event}
    (hp : Past (fun _ s e => s.toMembership.OnlyRequests (s.change e)) h s) (he : s.Enabled e)
    (ho : s.toMembership.OnlyRequests (s.change e)) {t : Network} {p : PeerRef} {port : Port}
    (ha : s.answering e = some (t, p, port)) : Requested ((s, e) :: h) p port ∧ t.localGroup ≠ none := by
  have hs := hp.sound
  have hk := hp.reach.kempt
  have hc := change_awaits he
  obtain ⟨hans, hl⟩ := answering_some hs ha
  -- in the table there was a known peer, who had asked
  have table : (∀ id pubK newId, s.change e ≠ .request p id pubK port newId) → ∀ m : Membership,
      m.newPeers = s.newPeers → m.waiting? = some (p, port) →
      (∀ address, s.newPeers.find? address = some (some p, port) → (m.peer p).isKnown = true →
        (s.peer p).isKnown = true) → Requested ((s, e) :: h) p port ∧ t.localGroup ≠ none := by
    intro hno m hm hw hkn
    obtain ⟨address, hf, hknown⟩ := Membership.waiting_mem hw
    obtain ⟨⟨x, hx, hxp⟩, hloc⟩ := hp.asked address p port (hm ▸ hf) (hkn address (hm ▸ hf) hknown)
    refine ⟨⟨x, List.mem_cons_of_mem _ hx, hxp⟩, ?_⟩
    rcases hl with hl | ⟨hl, -⟩
    · exact hl
    · rw [hl]
      exact hloc
  cases hce : s.change e with
  | request q id pubK port' newId =>
    rw [hce] at hans
    simp only [Membership.answers] at hans
    split at hans
    · cases hans
      exact ⟨⟨(s, e), List.mem_cons_self, change_asks hce⟩,
        hl.resolve_right fun h => h.2 id pubK newId hce⟩
    · cases hans
  | completed q =>
    rw [hce] at hans ho
    refine table (by simp [hce]) (s.setState q .connected) rfl hans fun address hf hk' => ?_
    rcases Membership.setState_turns s.toMembership p q .connected with hst | ⟨rfl, -⟩
    · unfold Peer.isKnown at hk' ⊢
      rw [← hst]
      exact hk'
    · exact ho.resolve_right fun hno => hno _ (OrdMap.mem_entries.mpr hf) rfl
  | expired id =>
    rw [hce] at hans
    simp only [Membership.answers] at hans
    obtain ⟨u, hu, hw⟩ := Option.bind_eq_some_iff.mp hans
    refine table (by simp [hce]) (s.setState u.peer .connected) rfl hw fun address hf hk' => ?_
    rcases Membership.setState_turns s.toMembership p u.peer .connected with hst | ⟨hup, -⟩
    · unfold Peer.isKnown at hk' ⊢
      rw [← hst]
      exact hk'
    · rw [hup]
      exact hk.timed id u hu
  | idle => rw [hce] at hans; cases hans
  | accept address => rw [hce] at hans; cases hans
  | contact address => rw [hce] at hans; cases hans
  | notified groupId peerId pubK address => rw [hce] at hans; cases hans
  | unreached => rw [hce] at hans; cases hans
  | channels peerId => rw [hce] at hans; cases hans
  | acked q groupId peerId pubK => rw [hce] at hans; cases hans
  | ready => rw [hce] at hans; cases hans
  | readySent id => rw [hce] at hans; cases hans
  | closed q => rw [hce] at hans; cases hans
  | failed q => rw [hce] at hans; cases hans

omit [Platform] in
/-- A connection asks while another is joining, and is answered when that one is done. -/
theorem answers_requested_next : ∃ h s e t p port, @Past sha1 (fun _ _ _ => True) h s ∧
    @answering sha1 s e = some (t, p, port) ∧ p = 2 ∧ @Requested sha1 ((s, e) :: h) p port ∧ t.localGroup ≠ none := by
  have hrun : @livesTo sha1 (fun _ s e => s.toMembership.OnlyRequests (@change sha1 s e)) _ node
      [.accept [9], .read 1 (request 65) none, .accept [8], .read 2 (request 66) none]
      (fun _ s => decide (s.Enabled (.read 1 (msg 1 .readyNotif) none) ∧
        s.toMembership.OnlyRequests (@change sha1 s (.read 1 (msg 1 .readyNotif) none)) ∧
        (@answering sha1 s (.read 1 (msg 1 .readyNotif) none)).map Prod.snd = some (2, 7))) = true := by
    decide +kernel
  obtain ⟨h, s, hp, ht⟩ := @past_of_livesTo sha1 _ _ _ _ _ _ _ _ hrun
  obtain ⟨he, ho, ha⟩ := of_decide_eq_true ht
  obtain ⟨⟨t, p, port⟩, ha, hr⟩ := Option.map_eq_some_iff.mp ha
  cases hr
  exact ⟨h, s, _, t, 2, 7, @Past.weaken sha1 _ _ _ hp, ha, rfl, @answers_requested sha1 h s _ hp he ho t 2 7 ha⟩

omit [Platform] in
/-- A connection sends nothing but a READY Notification. -/
theorem answers_stranger : ¬ ∀ h s e t p port, @Past sha1 (fun _ _ _ => True) h s → s.Enabled e →
    @answering sha1 s e = some (t, p, port) → @Requested sha1 ((s, e) :: h) p port ∧ t.localGroup ≠ none := by
  intro hall
  have hrun : @livesTo sha1 (fun _ _ _ => True) _ node [.accept [9]] (fun _ s =>
      decide (s.Enabled (.read 1 (msg 1 .readyNotif) none) ∧
        (@answering sha1 s (.read 1 (msg 1 .readyNotif) none)).map (fun r => (r.2, r.1.localGroup)) =
          some ((1, 0), none))) = true := by
    decide +kernel
  obtain ⟨h, s, hp, ht⟩ := @past_of_livesTo sha1 _ _ _ _ _ _ _ _ hrun
  obtain ⟨he, ha⟩ := of_decide_eq_true ht
  obtain ⟨⟨t, p, port⟩, ha, hr⟩ := Option.map_eq_some_iff.mp ha
  obtain ⟨-, hl⟩ := hall h s _ t p port hp he ha
  exact hl (congrArg Prod.snd hr)

/-! ## Who is in the table -/

/-- Nobody in the entry of this address waits, except maybe this peer. -/
def Free (h : Steps) (m : Membership) (address : Bytes) (p : Option PeerRef) : Prop :=
  ∀ x ∈ m.newPeers.find? address, ∀ q ∈ x.1, some q = p ∨ ¬ Waits h q

/-- The step does not touch the entry of a peer who waits, but to note his port: a new
    connection does not come from his address; a request is new, and finds its own entry when it
    has to wait; nobody else at his address is answered, acknowledges us or disconnects. -/
def KeepsRequests (h : Steps) (m : Membership) (e : Event) : Change → Prop
  | .idle => ∀ r ∈ e.asks, Answered h r.1 ∨ announced h r.1 = some r.2
  | .accept address => Free h m address none
  | .contact address => Free h m address none
  | .request p _ _ _ _ =>
    if m.joinToken then Free h m (m.peer p).address (some p)
    else ∃ x ∈ m.newPeers.find? (m.peer p).address, ∃ q ∈ x.1, q = p ∨ Answered h p ∧ ¬ Waits h q
  | .acked p _ _ _ => Free h m (m.peer p).address none
  | .closed p => m.peers.contains (m.getId p) = true ∨ Free h m (m.peer p).address (some p)
  | _ => True

instance (h : Steps) (m : Membership) (address : Bytes) (p : Option PeerRef) : Decidable (Free h m address p) :=
  inferInstanceAs (Decidable (∀ x ∈ m.newPeers.find? address, ∀ q ∈ x.1, _))

instance (h : Steps) (m : Membership) (e : Event) : (c : Change) → Decidable (KeepsRequests h m e c)
  | .idle => inferInstanceAs (Decidable (∀ r ∈ e.asks, _ ∨ _))
  | .accept address => inferInstanceAs (Decidable (Free h m address none))
  | .contact address => inferInstanceAs (Decidable (Free h m address none))
  | .request p _ _ _ _ => inferInstanceAs (Decidable (if m.joinToken then Free h m (m.peer p).address (some p)
      else ∃ x ∈ m.newPeers.find? (m.peer p).address, ∃ q ∈ x.1, _))
  | .acked p _ _ _ => inferInstanceAs (Decidable (Free h m (m.peer p).address none))
  | .closed _ => inferInstanceAs (Decidable (_ ∨ Free h m _ _))
  | .notified .. | .unreached | .channels _ | .ready | .completed _ | .expired _ | .readySent _ | .failed _ =>
    inferInstanceAs (Decidable True)

/-- No pending request is lost. -/
structure RequestsKept (h : Steps) (m : Membership) : Prop where
  entries : ∀ address x, m.newPeers.find? address = some x → ∃ p port, x = (some p, port) ∧ (m.peer p).address = address
  waiting : ∀ p port, announced h p = some port → ¬ Answered h p → ¬ Closed h p →
    m.newPeers.find? (m.peer p).address = some (some p, port) ∧ (m.peer p).isKnown = true

theorem RequestsKept.waits {h : Steps} {m : Membership} (hk : RequestsKept h m) {p : PeerRef} (hw : Waits h p) :
    ∃ port, m.newPeers.find? (m.peer p).address = some (some p, port) := by
  obtain ⟨hn, ha, hc⟩ := hw
  obtain ⟨port, hport⟩ := Option.ne_none_iff_exists'.mp hn
  exact ⟨port, (hk.waiting p port hport ha hc).1⟩

/-- Entries stay in order: a port is noted only where there is a peer. -/
theorem RequestsKept.entries_step {h : Steps} {m : Membership} (hk : RequestsKept h m) (hs : m.Sound) {e : Event}
    {c : Change} (hc : m.Awaits c) (hkeep : KeepsRequests h m e c) {address : Bytes} {x : Option PeerRef × Port}
    (hf : (m.apply c).newPeers.find? address = some x) :
    ∃ p port, x = (some p, port) ∧ ((m.apply c).peer p).address = address := by
  obtain ⟨q, port⟩ := x
  have old : ∀ {q port'}, m.newPeers.find? address = some (q, port') →
      ∃ p, q = some p ∧ ((m.apply c).peer p).address = address := by
    intro q port' ho
    obtain ⟨p, _, hp, ha⟩ := hk.entries address _ ho
    cases hp
    exact ⟨p, rfl, (Membership.apply_stays hs hc (hs.newPeers _ _ _ ho)).address.trans ha⟩
  rcases (Membership.apply_pends hs hc).entry hf with ho | ⟨hc', rfl, rfl⟩ | ⟨p, id, pubK, newId, rfl, ht, ha, hq⟩
  · obtain ⟨p, rfl, ha⟩ := old ho
    exact ⟨p, port, rfl, ha⟩
  · exact ⟨m.peerCount, 0, rfl, (Membership.entered_peer hs hc').1⟩
  · simp only [KeepsRequests, ht, Bool.false_eq_true, if_false] at hkeep
    obtain ⟨⟨q', port'⟩, hx, -⟩ := hkeep
    rw [← ha] at hx
    obtain ⟨p', rfl, ha'⟩ := old hx
    rw [hx] at hq
    exact ⟨p', port, by rw [hq]; rfl, ha'⟩

/-- The entry of a peer who waits is untouched, unless he asks again. -/
theorem RequestsKept.waiting_step {h : Steps} {s : Network} (hk : RequestsKept h s.toMembership)
    (hs : s.toMembership.Sound) {e : Event} (hc : s.toMembership.Awaits (s.change e))
    (hkeep : KeepsRequests h s.toMembership e (s.change e)) {p : PeerRef} {port : Port}
    (hf : s.newPeers.find? (s.peer p).address = some (some p, port)) (hw : Waits h p)
    (hask : ∀ port, e.asks ≠ some (p, port)) (hans : ∀ port, s.toMembership.answers (s.change e) ≠ some (p, port))
    (hclose : e ≠ .eof p) : (s.toMembership.apply (s.change e)).newPeers.find? (s.peer p).address =
      some (some p, port) := by
  have hpends := Membership.apply_pends hs hc
  have free : ∀ {q}, Free h s.toMembership (s.peer p).address q → some p = q := fun hfree =>
    (hfree _ hf p rfl).resolve_right fun h => h hw
  generalize hch : s.change e = c at hkeep hans hpends
  generalize (s.toMembership.apply c).newPeers = table at hpends
  cases hpends with
  | same => exact hf
  | enters address hc =>
    by_cases ha : (s.peer p).address = address
    · subst ha
      rcases hc with rfl | rfl <;> cases free hkeep
    · rw [OrdMap.find_insert_ne _ _ ha]
      exact hf
  | answers hq =>
    rename_i q port'
    by_cases ha : (s.peer p).address = (s.peer q).address
    · exfalso
      rcases Membership.answers_entry hq with ⟨id, pubK, newId, rfl, ht⟩ | ⟨address, hfq⟩
      · simp only [KeepsRequests, ht, if_true] at hkeep
        rw [← ha] at hkeep
        cases free hkeep
        exact hask port' (change_asks hch)
      · obtain ⟨_, _, hp, hadr⟩ := hk.entries address _ hfq
        cases hp
        rw [← hadr, ← ha, hf] at hfq
        cases hfq
        exact hans port hq
    · rw [OrdMap.find_erase_ne _ ha]
      exact hf
  | asks q id pubK port' newId ht =>
    by_cases ha : (s.peer p).address = (s.peer q).address
    · exfalso
      simp only [KeepsRequests, ht, Bool.false_eq_true, if_false] at hkeep
      rw [← ha] at hkeep
      obtain ⟨x, hx, q', hq', hor⟩ := hkeep
      cases hf.symm.trans hx
      cases hq'
      rcases hor with rfl | ⟨-, hn⟩
      · exact hask port' (change_asks hch)
      · exact hn hw
    · show (s.newPeers.insert (s.peer q).address _).find? _ = _
      rw [OrdMap.find_insert_ne _ _ ha]
      exact hf
  | acked q groupId peerId pubK =>
    by_cases ha : (s.peer p).address = (s.peer q).address
    · simp only [KeepsRequests] at hkeep
      rw [← ha] at hkeep
      cases free hkeep
    · rw [OrdMap.find_erase_ne _ ha]
      exact hf
  | closed q hq =>
    by_cases ha : (s.peer p).address = (s.peer q).address
    · exfalso
      simp only [KeepsRequests, hq, Bool.false_eq_true, false_or] at hkeep
      rw [← ha] at hkeep
      cases free hkeep
      exact hclose (change_closed hch)
    · rw [OrdMap.find_erase_ne _ ha]
      exact hf

theorem RequestsKept.step {h : Steps} {s s' : Network} {e : Event} (hk : RequestsKept h s.toMembership)
    (hs : s.toMembership.Sound) (hst : Step s e s') (hkeep : KeepsRequests h s.toMembership e (s.change e)) :
    RequestsKept ((s, e) :: h) (s.toMembership.apply (s.change e)) := by
  obtain ⟨he, rounds, hh⟩ := hst
  have hc := change_awaits he
  have hans := answering_answers hh
  refine ⟨fun address x hf => hk.entries_step hs hc hkeep hf, fun p port hann hna hnc => ?_⟩
  have hna' : ¬ Answered h p := fun ⟨x, hx, hxp⟩ => hna ⟨x, List.mem_cons_of_mem _ hx, hxp⟩
  have hnc' : ¬ Closed h p := fun ⟨x, hx, hxp⟩ => hnc ⟨x, List.mem_cons_of_mem _ hx, hxp⟩
  have hnow : ∀ port, s.toMembership.answers (s.change e) ≠ some (p, port) := by
    intro port' ha
    rw [← hans] at ha
    obtain ⟨r, hr, hrp⟩ := Option.map_eq_some_iff.mp ha
    exact hna ⟨(s, e), List.mem_cons_self, by rw [hr]; exact congrArg (fun x => some x.1) hrp⟩
  have hclose : e ≠ .eof p := fun h => hnc ⟨(s, e), List.mem_cons_self, h⟩
  -- a peer who has waited so far
  have stays : announced h p = some port → (∀ port, e.asks ≠ some (p, port)) →
      (s.toMembership.apply (s.change e)).newPeers.find? ((s.toMembership.apply (s.change e)).peer p).address =
        some (some p, port) ∧ ((s.toMembership.apply (s.change e)).peer p).isKnown = true := by
    intro ha hask
    obtain ⟨hf, hkn⟩ := hk.waiting p port ha hna' hnc'
    have hstay := Membership.apply_stays hs hc (hs.newPeers _ _ _ hf)
    rw [hstay.address]
    exact ⟨hk.waiting_step hs hc hkeep hf ⟨by simp [ha], hna', hnc'⟩ hask hnow hclose, hstay.known hkn⟩
  by_cases hask : ∃ port', e.asks = some (p, port')
  · obtain ⟨port', hask⟩ := hask
    rw [announced_asks h hask] at hann
    cases hann
    rcases asks_change (s := s) hask with ⟨id, pubK, newId, hch⟩ | hch
    · -- his request is noted, since it is not answered
      have ht : s.joinToken = false := by
        have := hnow port
        rw [hch] at this
        simpa [Membership.answers] using this
      rw [hch] at hkeep hc ⊢
      have hrem := hs.listening p hc
      have hpends := Membership.apply_pends hs hc
      have hstay := Membership.apply_stays hs hc hrem
      simp only [KeepsRequests, ht, Bool.false_eq_true, if_false] at hkeep
      obtain ⟨⟨q, port'⟩, hx, q', hq', hor⟩ := hkeep
      cases hq'
      obtain rfl : q' = p := hor.resolve_right fun h => hna' h.1
      rcases Membership.request_pends hpends with ⟨ht', -⟩ | ⟨-, htable⟩
      · cases ht.symm.trans ht'
      · refine ⟨?_, ?_⟩
        · rw [hstay.address, htable, Membership.pend, OrdMap.find_insert_self, hx]
          rfl
        · exact Membership.request_known s.toMembership q' id pubK port newId
    · -- a copy of the request he waits with
      rw [hch] at hkeep
      have hold := (hkeep _ hask).resolve_left hna'
      rw [hch]
      exact hk.waiting p port hold hna' hnc'
  · have hask : ∀ port, e.asks ≠ some (p, port) := fun port' ha => hask ⟨port', ha⟩
    rw [announced_other h hask] at hann
    exact stays hann hask

/-- What the check for new peers finds: no null peer, and a known one if somebody waits. -/
structure Findable (h : Steps) (s : Network) : Prop where
  kept : RequestsKept h s.toMembership
  found : ∃ r, s.firstKnown s.newPeers.entries = .ok r ∧ ((∃ p, Waits h p) → r ≠ none)

/-- In a run of such steps no pending request is lost. -/
theorem requests_kept {h : Steps} {s : Network}
    (hp : Past (fun h s e => KeepsRequests h s.toMembership e (s.change e)) h s) : Findable h s := by
  have hk : RequestsKept h s.toMembership :=
    hp.membership (I := RequestsKept)
      (fun id pubK port clock => ⟨fun a x hf => (by cases hf), fun p q ha => (by cases ha)⟩)
      fun h s s' e hp ih he hkeep hst => ih.step hp.sound hst hkeep
  refine ⟨hk, ?_⟩
  obtain ⟨r, hr⟩ := s.firstKnown_total (l := s.newPeers.entries) fun x hx hn => by
    obtain ⟨p, port, hxp, -⟩ := hk.entries x.1 x.2 (OrdMap.mem_entries.mp hx)
    rw [hxp] at hn
    cases hn
  refine ⟨r, hr, fun ⟨p, hw⟩ hn => ?_⟩
  obtain ⟨port, hf⟩ := hk.waits hw
  obtain ⟨hna, hnc⟩ := hw.2
  obtain ⟨port', hann⟩ := Option.ne_none_iff_exists'.mp hw.1
  have hkn := (hk.waiting p port' hann hna hnc).2
  have hnone := firstKnown_waiting hr
  rw [hn] at hnone
  have := List.findSome?_eq_none_iff.mp hnone.symm _ (OrdMap.mem_entries.mpr hf)
  simp [Option.filter, hkn] at this

omit [Platform] in
/-- Two connections from different addresses ask, one after the other; the second waits. -/
theorem requests_kept_two : ∃ h s, @Past sha1 (fun _ _ _ => True) h s ∧ @Waits sha1 h 2 ∧ @Findable sha1 h s := by
  have hrun : @livesTo sha1 (fun h s e => @KeepsRequests sha1 h s.toMembership e (@change sha1 s e)) _ node
      [.accept [9], .accept [8], .read 1 (request 65) none, .read 2 (request 66) none]
      (fun h _ => decide (@Waits sha1 h 2)) = true := by
    decide +kernel
  obtain ⟨h, s, hp, ht⟩ := @past_of_livesTo sha1 _ _ _ _ _ _ _ _ hrun
  exact ⟨h, s, @Past.weaken sha1 _ _ _ hp, of_decide_eq_true ht, @requests_kept sha1 h s hp⟩

omit [Platform] in
/-- Two connections from one address ask: the entry of the second goes with the first one's
    answer, and the port of the second is noted for nobody. -/
theorem request_lost : ¬ ∀ h s, @Past sha1 (fun _ _ _ => True) h s → @Findable sha1 h s := by
  intro hall
  have hrun : @livesTo sha1 (fun _ _ _ => True) _ node
      [.accept [9], .accept [9], .read 1 (request 65) none, .read 2 (request 66) none]
      (fun _ s => decide (s.newPeers.find? [9] = some (none, 7))) = true := by
    decide +kernel
  obtain ⟨h, s, hp, ht⟩ := @past_of_livesTo sha1 _ _ _ _ _ _ _ _ hrun
  have hk := @Findable.kept sha1 _ _ (hall h s hp)
  obtain ⟨p, port, hx, -⟩ := @RequestsKept.entries sha1 _ _ hk [9] _ (of_decide_eq_true ht)
  cases hx

end Network

end RacKun
