/-
  RacKun.System.Identity — who is who, as far as the nodes keep to the program.

  Nobody proves his identity: a node believes what a peer says of himself, and what an
  entry point says of a newcomer it is to connect to. Here all nodes run the program, each
  has an IPv4 address of its own, and no text given to `send_all` passes for a message;
  then whatever the order of the steps, what they are told is true.

  - `Proper.contract`: what each node promises the others.
-/

import RacKun.Network.GroupTable
import RacKun.Network.Stamps
import RacKun.System.World
import RacKun.Wire.Framing

namespace RacKun

open Lib (OrdMap Net)

open Lib.Net (Input Output Action)

namespace Site

variable {ι : Type} (site : Site ι)

/-- The nodes have IDs and keys of the right length, and each an address of its own, where
    nobody else answers. -/
structure Proper : Prop where
  id : ∀ i, (site.id i).length = ID_LENGTH
  key : ∀ i, (site.key i).length = KEY_LENGTH
  address : ∀ i, (site.address i).length ≤ 15 ∧ colon ∉ site.address i
  sole : ∀ i port j, site.listens (site.address i) port = some j → j = i

/-- What a node says of itself and of others is true; it shows what users have broadcast. -/
def Truthful (contents : Set Bytes) (i : ι) : Payload → Prop
  | .join id pubK _ => id = site.id i ∧ pubK = site.key i
  | .joinNotif _ _ _ peerId pubK ip _ => ∃ k, peerId = site.id k ∧ pubK = site.key k ∧ ip = site.address k
  | .joinAck _ peerId pubK => peerId = site.id i ∧ pubK = site.key i
  | .ready => True
  | .readyNotif => True
  | .data _ content => content ∈ contents

/-- The Notification about a peer who has not introduced himself: it has no ID and no key. -/
def Nameless (bytes : Bytes) : Prop :=
  ∃ stamp marker groupId ip port, stamp.length = MSG_STAMP_LENGTH ∧ marker.length = BCAST_MARKER_LENGTH ∧
    groupId.length = GROUP_ID_LENGTH ∧ ip.length ≤ 15 ∧
      bytes = Message.serialize ⟨stamp, .joinNotif marker false groupId [] [] ip port⟩

/-- A true message; or a string that no node takes for a message: a text of a user, or a
    nameless Notification. -/
def Spoken [Platform] (contents texts : Set Bytes) (i : ι) (bytes : Bytes) : Prop :=
  (∃ m : Message, m.WellFormed ∧ site.Truthful contents i m.payload ∧ bytes = m.serialize) ∨
    (bytes ∈ texts ∧ ∀ m, parseMessage bytes ≠ .ok m) ∨ Nameless bytes

/-- What is allowed to the users. -/
def Says [Platform] (contents texts : Set Bytes) : Event → Prop
  | .broadcast content => content ∈ contents
  | .sendAll message => message ∈ texts ∧ ∀ m, parseMessage message ≠ .ok m
  | _ => True

/-- The peers of node `i` are known for who they are; `far` leads to them. -/
structure Introduced (i : ι) (far : PeerRef → Option ι) (m : Membership) : Prop where
  self : (m.peer m.localPeer).card = (site.id i, site.key i)
  remote : ∀ p, m.Remote p ↔ (far p).isSome
  named : ∀ p j, far p = some j → (m.peer p).address = site.address j ∧
    ((m.peer p).card = ([], []) ∨ (m.peer p).card = (site.id j, site.key j))
  peers : ∀ k p j, m.peers.find? k = some p → far p = some j → k = [] ∨ k = site.id j
  group : ∀ l, m.localGroup = some l → (m.group l).id.length = GROUP_ID_LENGTH

variable {site} {contents texts : Set Bytes} {i : ι} {far : PeerRef → Option ι}

/-! ## Messages -/

section

variable [Platform]

/-- That one is too short to be read. -/
theorem nameless_unread {stamp marker groupId ip : Bytes} {port : Port} (hs : stamp.length = MSG_STAMP_LENGTH)
    (hm : marker.length = BCAST_MARKER_LENGTH) (hg : groupId.length = GROUP_ID_LENGTH) (hi : ip.length ≤ 15) :
    (Message.serialize ⟨stamp, .joinNotif marker false groupId [] [] ip port⟩).length < 87 ∧
      ∀ m, parseMessage (Message.serialize ⟨stamp, .joinNotif marker false groupId [] [] ip port⟩) ≠ .ok m := by
  have hp : (itos port.val).length ≤ 5 := itos_length_le (by omega) (lt_of_lt_of_le port.isLt (by norm_num))
  have hlen : (Message.serialize ⟨stamp, .joinNotif marker false groupId [] [] ip port⟩).length < 87 := by
    simp only [Message.serialize, Payload.fields, List.length_cons, List.length_append, hs, hm, hg, List.length_nil,
      MSG_STAMP_LENGTH, BCAST_MARKER_LENGTH, GROUP_ID_LENGTH]
    omega
  refine ⟨hlen, fun m h => ?_⟩
  obtain ⟨-, hc, hl⟩ := parse_layout h
  have hc : MessageType.joinNotif.code = m.type.code := hc
  obtain ⟨s', payload⟩ := m
  cases payload with
  | joinNotif marker' channel groupId' peerId pubK ip' port' => exact absurd hl.1 (Nat.not_le_of_lt hlen)
  | _ => cases code_injective hc

theorem Nameless.unread {bytes : Bytes} (h : Nameless bytes) : bytes.length < 87 ∧ ∀ m, parseMessage bytes ≠ .ok m := by
  obtain ⟨stamp, marker, groupId, ip, port, hs, hm, hg, hi, rfl⟩ := h
  exact nameless_unread hs hm hg hi

theorem Spoken.parsed {bytes : Bytes} {m : Message} (h : site.Spoken contents texts i bytes)
    (hm : parseMessage bytes = .ok m) :
    m.WellFormed ∧ site.Truthful contents i m.payload ∧ bytes = m.serialize := by
  rcases h with ⟨m', hw, ht, rfl⟩ | ⟨-, hn⟩ | hn
  · obtain rfl : m' = m := Except.ok.inj ((parse_serialize hw).symm.trans hm)
    exact ⟨hw, ht, rfl⟩
  · exact absurd hm (hn m)
  · exact absurd hm (hn.unread.2 m)

/-- A message of our own is true, or says that a peer joins who has not introduced himself. -/
def Sincere (site : Site ι) (contents : Set Bytes) (i : ι) (payload : Payload) : Prop :=
  payload.WellFormed ∧ site.Truthful contents i payload ∨ ∃ marker groupId ip port,
    payload = .joinNotif marker false groupId [] [] ip port ∧ marker.length = BCAST_MARKER_LENGTH ∧
      groupId.length = GROUP_ID_LENGTH ∧ ip.length ≤ 15

theorem Sincere.spoken {payload : Payload} (h : site.Sincere contents i payload) (author : Bytes) (now : Nat) :
    site.Spoken contents texts i (Message.makeStamp payload author now).serialize := by
  rcases h with ⟨hw, ht⟩ | ⟨marker, groupId, ip, port, rfl, hm, hg, hi⟩
  · exact Or.inl ⟨Message.makeStamp payload author now, ⟨Platform.makeHash_length _, hw⟩, ht, rfl⟩
  · exact Or.inr (Or.inr ⟨_, marker, groupId, ip, port, Platform.makeHash_length _, hm, hg, hi, rfl⟩)

end

/-! ## What a node says of its own -/

section

variable [Platform] {m : Membership}

omit [Platform] in
theorem ackSpeech_sincere (hp : site.Proper) (hself : (m.peer m.localPeer).card = (site.id i, site.key i))
    (hgroup : ∀ l, m.localGroup = some l → (m.group l).id.length = GROUP_ID_LENGTH) {p : PeerRef}
    {targets : List PeerRef} {payload : Payload} (h : .own targets payload ∈ m.ackSpeech p) :
    site.Sincere contents i payload := by
  obtain ⟨hid, hkey⟩ := Prod.mk.inj hself
  unfold Membership.ackSpeech at h
  split at h
  · cases h
  · rename_i l hl
    cases List.mem_singleton.mp h
    refine Or.inl ⟨⟨hgroup l hl, ?_, ?_⟩, hid, hkey⟩
    · rw [Membership.getId, hid]
      exact hp.id i
    · rw [hkey]
      exact hp.key i

theorem answerSpeech_sincere (hp : site.Proper) (hself : (m.peer m.localPeer).card = (site.id i, site.key i))
    (hgroup : ∀ l, m.localGroup = some l → (m.group l).id.length = GROUP_ID_LENGTH) {p : PeerRef} {j : ι} {port : Port}
    (hj : (m.peer p).address = site.address j ∧
      ((m.peer p).card = ([], []) ∨ (m.peer p).card = (site.id j, site.key j)))
    {targets : List PeerRef} {payload : Payload} (h : .own targets payload ∈ m.answerSpeech p port) :
    site.Sincere contents i payload := by
  unfold Membership.answerSpeech at h
  split at h
  · cases h
  · rename_i l hl
    rcases List.mem_cons.mp h with h | h
    · cases h
      have hmarker : (m.ownMarker l).length = BCAST_MARKER_LENGTH := Platform.makeHash_length _
      obtain ⟨ha, hc | hc⟩ := hj
      · obtain ⟨hid, hkey⟩ := Prod.mk.inj hc
        exact Or.inr ⟨_, _, _, port, by rw [hid, hkey], hmarker, hgroup l hl, by rw [ha]; exact (hp.address j).1⟩
      · obtain ⟨hid, hkey⟩ := Prod.mk.inj hc
        rw [hid, hkey, ha]
        exact Or.inl ⟨⟨hmarker, hgroup l hl, hp.id j, hp.key j, (hp.address j).2⟩, j, rfl, rfl, rfl⟩
    · exact ackSpeech_sincere hp hself hgroup h

theorem checkSpeech_sincere (hp : site.Proper) (hs : m.Sound) (h : site.Introduced i far m) {targets : List PeerRef}
    {payload : Payload} (hm : .own targets payload ∈ m.checkSpeech) : site.Sincere contents i payload := by
  unfold Membership.checkSpeech at hm
  split at hm
  · cases hm
  · rename_i p port hw
    obtain ⟨address, hf, -⟩ := Membership.waiting_mem hw
    obtain ⟨j, hj⟩ := Option.isSome_iff_exists.mp ((h.remote p).mp (hs.newPeers address p port hf))
    exact answerSpeech_sincere hp h.self h.group (h.named p j hj) hm

omit [Platform] in
theorem Introduced.setState (h : site.Introduced i far m) {p : PeerRef} (st : PeerState) :
    site.Introduced i far (m.setState p st) := by
  refine ⟨?_, h.remote, fun q j hq => ?_, h.peers, h.group⟩
  · exact (Membership.setState_card m m.localPeer p st).trans h.self
  · rw [Membership.setState_card]
    refine ⟨?_, (h.named q j hq).2⟩
    rw [← (h.named q j hq).1]
    by_cases hqp : q = p
    · subst hqp
      rw [Membership.setState, Membership.modPeer_self]
    · rw [Membership.setState, Membership.modPeer_of_ne hqp]

/-- Whoever asks has introduced himself. -/
theorem greet_named (h : site.Introduced i far m) {p : PeerRef} {j : ι} (hp : m.Remote p)
    (hj : far p = some j) (newId : Bytes) :
    ((m.greet p (site.id j) (site.key j) newId).peer m.localPeer).card = (site.id i, site.key i) ∧
      ((m.greet p (site.id j) (site.key j) newId).peer p).address = site.address j ∧
      ((m.greet p (site.id j) (site.key j) newId).peer p).card = (site.id j, site.key j) := by
  refine ⟨?_, ?_, ?_⟩
  · rw [Membership.greet_card, if_neg hp.2, h.self]
  · rw [(Membership.greet_stays m p p _ _ _).address, (h.named p j hj).1]
  · rw [Membership.greet_card, if_pos rfl]

/-- The group a node lets somebody into, founded or not, has an ID of the right length. -/
theorem greet_groupId (h : site.Introduced i far m) (p : PeerRef) (id pubK : Bytes) {newId : Bytes}
    (hn : newId.length = GROUP_ID_LENGTH) : ∀ l, (m.greet p id pubK newId).localGroup = some l →
      ((m.greet p id pubK newId).group l).id.length = GROUP_ID_LENGTH := by
  intro l hl
  have hg : (m.greet p id pubK newId).group = (if m.localState ≠ .connected then m.found newId else m).group := rfl
  have hl : (if m.localState ≠ .connected then m.found newId else m).localGroup = some l := hl
  rw [hg]
  split at hl
  · rename_i hc
    rw [if_pos hc]
    obtain rfl : m.groupCount = l := Option.some.inj hl
    rw [Membership.found_group, if_pos rfl]
    exact hn
  · rename_i hc
    rw [if_neg hc]
    exact h.group l hl

end

section

variable [Platform] {s : Network}

/-- What it reads is what the other has promised. -/
def Heard (site : Site ι) (contents texts : Set Bytes) (far : PeerRef → Option ι) (e : Event) : Prop :=
  ∀ p received reached, e = .read p received reached → ∀ j, far p = some j → site.Spoken contents texts j received

theorem heard_parsed (hs : s.toMembership.Sound) (h : site.Introduced i far s.toMembership) {p : PeerRef}
    {received : Bytes} {reached : Option Bytes} (he : s.Enabled (.read p received reached))
    (hr : site.Heard contents texts far (.read p received reached)) {m : Message}
    (hm : parseMessage received = .ok m) :
    ∃ j, far p = some j ∧ m.WellFormed ∧ site.Truthful contents j m.payload ∧ received = m.serialize := by
  obtain ⟨j, hj⟩ := Option.isSome_iff_exists.mp ((h.remote p).mp (hs.listening p he))
  exact ⟨j, hj, (hr p received reached rfl j hj).parsed hm⟩

/-- Whatever a node says of its own is sincere. -/
theorem speech_sincere (hp : site.Proper) (hs : s.toMembership.Sound) (h : site.Introduced i far s.toMembership) {e : Event}
    (he : s.Enabled e) (hr : site.Heard contents texts far e) (hallow : Says contents texts e) {targets : List PeerRef}
    {payload : Payload} (hm : .own targets payload ∈ s.speech e) : site.Sincere contents i payload := by
  cases e with
  | read p received reached =>
    cases hparse : parseMessage received with
    | error err =>
      simp only [Network.speech, hparse] at hm
      cases List.mem_singleton.mp hm
    | ok msg =>
      obtain ⟨j, hj, hw, ht, -⟩ := heard_parsed hs h he hr hparse
      obtain ⟨stamp, said⟩ := msg
      by_cases hl : (s.findLog ⟨stamp, said⟩).isSome = true
      · simp only [Network.speech, hparse, hl, if_true] at hm
        cases hm
      · simp only [Network.speech, hparse, hl, Bool.false_eq_true, if_false] at hm
        rcases List.mem_append.mp hm with hm | hm
        · obtain ⟨_, _, _, hu⟩ := Network.relay_plain hm
          cases hu
        · cases said with
          | join id pubK port =>
            obtain ⟨rfl, rfl⟩ : id = site.id j ∧ pubK = site.key j := ht
            have hremote := hs.listening p he
            simp only [Network.messageSpeech] at hm
            split at hm
            · obtain ⟨h₁, h₂, h₃⟩ := greet_named h hremote hj (makeHash (s.getId s.localPeer ++ itos (s.clock 0)))
              refine answerSpeech_sincere hp ?_ (greet_groupId h p _ _ (Platform.makeHash_length _)) ⟨h₂, Or.inr h₃⟩ hm
              rw [Membership.greet_localPeer]
              exact h₁
            · cases hm
          | joinNotif marker channel groupId peerId pubK ip port =>
            simp only [Network.messageSpeech, Network.notifSpeech] at hm
            split at hm
            · cases reached with
              | none => cases List.mem_singleton.mp hm
              | some address =>
                rcases List.mem_cons.mp hm with hm | hm
                · cases hm
                · refine ackSpeech_sincere (m := (s.newPeer address).enrol s.peerCount peerId pubK) hp ?_ h.group hm
                  have hlp := Nat.ne_of_lt hs.localPeer
                  show ((((s.newPeer address).enrol s.peerCount peerId pubK).peer s.localPeer)).card = _
                  rw [Membership.enrol_of_ne hlp, Membership.newPeer_of_ne hlp]
                  exact h.self
            · cases hm
          | joinAck groupId peerId pubK => cases hm
          | ready =>
            obtain ⟨_, hu⟩ := Network.readySpeech_mem _ _ _ hm
            cases hu
            exact Or.inl ⟨trivial, trivial⟩
          | readyNotif =>
            exact checkSpeech_sincere hp (hs.setState (hs.listening p he) .connected) (h.setState .connected) hm
          | data marker content => cases List.mem_singleton.mp hm
  | readyTimer id =>
    simp only [Network.speech] at hm
    split at hm
    · cases hm
    · cases List.mem_singleton.mp hm
      exact Or.inl ⟨trivial, trivial⟩
  | joinTimer id =>
    simp only [Network.speech] at hm
    split at hm
    · cases hm
    · rename_i t ht
      exact checkSpeech_sincere hp (hs.setState (hs.joinTimers id t ht) .connected) (h.setState .connected) hm
  | join ip port reached =>
    cases reached with
    | none => cases hm
    | some address =>
      rcases List.mem_cons.mp hm with hm | hm
      · cases hm
      · cases List.mem_singleton.mp hm
        obtain ⟨hid, hkey⟩ := Prod.mk.inj h.self
        refine Or.inl ⟨⟨?_, ?_⟩, hid, hkey⟩
        · rw [Membership.getId, hid]
          exact hp.id i
        · rw [hkey]
          exact hp.key i
  | broadcast content =>
    simp only [Network.speech] at hm
    split at hm
    · cases hm
    · cases List.mem_singleton.mp hm
      exact Or.inl ⟨Platform.makeHash_length _, hallow⟩
  | sendAll message =>
    obtain ⟨p, -, hu⟩ := List.mem_map.mp hm
    cases hu
  | accept address => cases hm
  | eof p => cases hm
  | readError p => cases hm

/-- So is what it passes on. -/
theorem sent_spoken (hp : site.Proper) (hs : s.toMembership.Sound) (h : site.Introduced i far s.toMembership) {e : Event}
    (he : s.Enabled e) (hr : site.Heard contents texts far e) (hallow : Says contents texts e) {es : List Effect}
    (hes : Renders (s.getId s.localPeer) (s.speech e) es) {p : PeerRef} {bytes : Bytes} (hb : .sent p bytes ∈ es) :
    site.Spoken contents texts i bytes := by
  rcases hes.sent hb with ⟨targets, payload, now, hm, -, rfl⟩ | hm
  · exact (speech_sincere hp hs h he hr hallow hm).spoken _ now
  · cases Network.speech_plain hm with
    | text => exact Or.inr (Or.inl hallow)
    | @relayed q received marker reached m hparse hmarker _ =>
      obtain ⟨j, -, hw, ht, -⟩ := heard_parsed hs h he hr hparse
      -- what is broadcast is true of everybody who says it
      refine Or.inl ⟨m, hw, ?_, rfl⟩
      obtain ⟨stamp, said⟩ := m
      cases said with
      | joinNotif marker channel groupId peerId pubK ip port => exact ht
      | data marker content => exact ht
      | join id pubK port => cases hmarker
      | joinAck groupId peerId pubK => cases hmarker
      | ready => cases hmarker
      | readyNotif => cases hmarker

/-! ## What a node learns -/

/-- What a peer says of himself is true. -/
theorem told_card (hs : s.toMembership.Sound) (h : site.Introduced i far s.toMembership) {e : Event} (he : s.Enabled e)
    (hr : site.Heard contents texts far e) {p : PeerRef} {j : ι} (hj : far p = some j) {card : Bytes × Bytes}
    (hc : (s.change e).card? p = some card) : card = (site.id j, site.key j) := by
  have hcause := Network.change_causes s e
  generalize s.change e = c at hc hcause
  cases hcause with
  | @request received stamp id pubK port q reached newId hm =>
    simp only [Change.card?] at hc
    split at hc
    · rename_i hqp
      obtain ⟨j', hj', -, ⟨rfl, rfl⟩, -⟩ := heard_parsed hs h he hr hm
      rw [hqp, hj] at hj'
      cases hj'
      exact (Option.some.inj hc).symm
    · cases hc
  | @acked received stamp groupId peerId pubK q reached hm =>
    simp only [Change.card?] at hc
    split at hc
    · rename_i hqp
      obtain ⟨j', hj', -, ⟨rfl, rfl⟩, -⟩ := heard_parsed hs h he hr hm
      rw [hqp, hj] at hj'
      cases hj'
      exact (Option.some.inj hc).symm
    · cases hc
  | _ => cases hc

/-- Nobody is told to be the local peer. -/
theorem card_self (hs : s.toMembership.Sound) {e : Event} (he : s.Enabled e) :
    (s.change e).card? s.localPeer = none := by
  have ha := Network.change_awaits he
  cases hc : s.change e with
  | request q id pubK port newId =>
    rw [hc] at ha
    exact if_neg (hs.listening q ha).2
  | acked q groupId peerId pubK =>
    rw [hc] at ha
    exact if_neg (hs.listening q ha).2
  | _ => rfl

/-- The ID of the local group after a step: the old one, a hash of our own, or as somebody says. -/
theorem step_groupId (hs : s.toMembership.Sound) (h : site.Introduced i far s.toMembership) {e : Event} (he : s.Enabled e)
    (hr : site.Heard contents texts far e) : ∀ l, (s.toMembership.apply (s.change e)).localGroup = some l →
      ((s.toMembership.apply (s.change e)).group l).id.length = GROUP_ID_LENGTH := by
  have ha := Network.change_awaits he
  intro l hl
  rw [Membership.apply_groupId hs ha]
  have old : ∀ l, s.localGroup = some l → ((s.made (s.change e)).group l).id.length = GROUP_ID_LENGTH := by
    intro l hl
    rw [Membership.made_old (hs.localGroup l hl)]
    exact h.group l hl
  have hre := Membership.apply_regroups hs ha
  have hcause := Network.change_causes s e
  generalize hlg : (s.toMembership.apply (s.change e)).localGroup = lg at hl hre
  generalize (s.toMembership.apply (s.change e)).groups = gs at hre
  generalize hce : s.change e = c at old hcause hre
  cases hre with
  | same => exact old l hl
  | founded p id pubK port newId hn =>
    obtain rfl : s.groupCount = l := Option.some.inj hl
    have hid : newId ∈ s.chosenId (s.change e) := by
      rw [hce, Network.chosenId, if_neg hn]
      exact List.mem_singleton_self _
    rw [Membership.made, if_pos hn, Membership.found_group, if_pos rfl]
    exact Network.chosenId_length hid
  | joined p groupId peerId pubK hn hg =>
    obtain rfl : s.groupCount = l := Option.some.inj hl
    cases hcause with
    | acked _ reached hm =>
      obtain ⟨-, -, hw, -⟩ := heard_parsed hs h he hr hm
      have hm : (s.made (.acked p groupId peerId pubK)).group s.groupCount = Group.new groupId := by
        simp only [Membership.made, Membership.ackGroup, hg, hn]
        exact Membership.createGroup_self _ _
      rw [hm]
      exact hw.2.1
  | entered => exact old l hl
  | cleared => cases hl

/-! ## Whom a node meets -/

variable {e : Event} {s' : Network} {inp : Input ι PeerRef Bytes Event}

/-- Its connections after a step. -/
def ends (site : Site ι) (far : PeerRef → Option ι) (inp : Input ι PeerRef Bytes Event) (es : List Effect) (p : PeerRef) :
    Option ι := (Lib.Net.dialed p (site.outputs es)).or (inp.ends far p)

theorem ends_old (hs : s.toMembership.Sound) (hst : s.Step e s') (hcause : site.Caused s inp e) {p : PeerRef}
    (hp : p ≠ s.peerCount) : site.ends far inp (s.effects s') p = far p := by
  rw [ends, dialed_step hs hst, if_neg hp, Option.none_or]
  cases hcause with
  | accept j r => exact Function.update_of_ne hp ..
  | own h => rfl
  | read p received reached => rfl
  | close p => rfl

theorem ends_none (hs : s.toMembership.Sound) (hst : s.Step e s') (hcause : site.Caused s inp e)
    (hfar : far s.peerCount = none) (hn : s.newcomer (s.change e) = none) :
    site.ends far inp (s.effects s') s.peerCount = none := by
  have hnew := s.change_newcomer e
  rw [hn, Option.isSome_none, Bool.false_eq_true, false_iff, not_or, Bool.not_eq_true, Option.isSome_eq_false_iff,
    Option.isNone_iff_eq_none] at hnew
  rw [ends, dialed_step hs hst, if_pos rfl, hnew.2, Option.bind_none, Option.none_or]
  cases hcause with
  | accept j r => exact absurd ⟨_, rfl⟩ hnew.1
  | own h => exact hfar
  | read p received reached => exact hfar
  | close p => exact hfar

/-- Whoever it connects to answers, from his own address. -/
theorem dials_reached (hs : s.toMembership.Sound) (hst : s.Step e s') (hreach : site.Reaches e (s.effects s'))
    {ip port : Bytes} (hd : s.dials e = some (ip, port)) :
    ∃ j, site.ends far inp (s.effects s') s.peerCount = some j ∧ site.listens ip port = some j ∧
      e.reached = some (site.address j) := by
  obtain ⟨he, rounds, hh⟩ := hst
  obtain ⟨j, hl, hj⟩ := hreach _ _ _ ((Network.handle_speech hs he hh).done (Network.dials_connected hd))
  refine ⟨j, ?_, hl, hj⟩
  rw [ends, dialed_step hs ⟨he, rounds, hh⟩, if_pos rfl, hd, Option.bind_some, hl, Option.some_or]

/-- What it is told of a newcomer is true. -/
theorem newcomer_introduced (hp : site.Proper) (hs : s.toMembership.Sound) (h : site.Introduced i far s.toMembership)
    (hst : s.Step e s') (hcause : site.Caused s inp e) (hreach : site.Reaches e (s.effects s'))
    (hr : site.Heard contents texts far e) {address id key : Bytes}
    (hn : s.newcomer (s.change e) = some (address, id, key)) :
    ∃ j, site.ends far inp (s.effects s') s.peerCount = some j ∧ address = site.address j ∧
      ((id, key) = ([], []) ∨ (id, key) = (site.id j, site.key j)) := by
  have hnew := (s.change_newcomer e).mp (by rw [hn]; rfl)
  have hchange := Network.change_causes s e
  generalize s.change e = c at hn hchange
  cases hchange with
  | accept a =>
    cases hn
    cases hcause with
    | own h => exact h.elim
    | accept j r =>
      refine ⟨j, ?_, rfl, Or.inl rfl⟩
      rw [ends, dialed_step hs hst, if_pos rfl]
      exact Function.update_self ..
  | contact ip port a =>
    cases hn
    obtain ⟨j, hj, -, ha⟩ := dials_reached hs hst hreach (rfl : s.dials (.join ip port (some address)) = some (ip, port))
    exact ⟨j, hj, Option.some.inj ha, Or.inl rfl⟩
  | @notified received stamp marker groupId peerId pubK ip a channel port p hm =>
    simp only [Membership.newcomer] at hn
    split at hn
    · cases hn
      rcases hnew with ⟨a, ha⟩ | hd
      · cases ha
      · obtain ⟨⟨ip', port'⟩, hd⟩ := Option.isSome_iff_exists.mp hd
        obtain ⟨j, hj, hl, ha⟩ : ∃ j, site.ends far inp (s.effects s') s.peerCount = some j ∧
            site.listens ip' port' = some j ∧ some address = some (site.address j) := dials_reached hs hst hreach hd
        obtain ⟨j', -, -, ⟨k, rfl, rfl, rfl⟩, -⟩ := heard_parsed hs h hst.1 hr hm
        have hip : ip' = site.address k := by
          simp only [Network.dials, hm] at hd
          split at hd
          · cases hd
          · split at hd
            · cases hd
              rfl
            · cases hd
        -- the address is his who answers there
        obtain rfl : j = k := hp.sole k port' j (hip ▸ hl)
        exact ⟨j, hj, Option.some.inj ha, Or.inr rfl⟩
    · cases hn
  | _ => cases hn

theorem Introduced.step (hp : site.Proper) (hs : s.toMembership.Sound) (h : site.Introduced i far s.toMembership)
    (hst : s.Step e s') (hcause : site.Caused s inp e) (hreach : site.Reaches e (s.effects s'))
    (hr : site.Heard contents texts far e) :
    site.Introduced i (site.ends far inp (s.effects s')) s'.toMembership := by
  obtain ⟨he, rounds, hh⟩ := hst
  have hst : s.Step e s' := ⟨he, rounds, hh⟩
  have ha := Network.change_awaits he
  have hnone : far s.peerCount = none :=
    Option.not_isSome_iff_eq_none.mp fun hf => Nat.lt_irrefl _ ((h.remote s.peerCount).mpr hf).1
  have hcount : s.localPeer ≠ s.peerCount := Nat.ne_of_lt hs.localPeer
  rw [Network.handle_membership hh]
  -- a peer known after the step was known before, or is the newcomer
  have known : ∀ p j, site.ends far inp (s.effects s') p = some j → (s.Remote p ∧ far p = some j) ∨
      p = s.peerCount ∧ ∃ address id key, s.newcomer (s.change e) = some (address, id, key) ∧
        address = site.address j ∧ ((id, key) = ([], []) ∨ (id, key) = (site.id j, site.key j)) := by
    intro p j hj
    by_cases hpc : p = s.peerCount
    · subst hpc
      cases hn : s.newcomer (s.change e) with
      | none =>
        rw [ends_none hs hst hcause hnone hn] at hj
        cases hj
      | some x =>
        obtain ⟨address, id, key⟩ := x
        obtain ⟨j', hj', hx⟩ := newcomer_introduced hp hs h hst hcause hreach hr hn
        obtain rfl : j' = j := Option.some.inj (hj'.symm.trans hj)
        exact Or.inr ⟨rfl, address, id, key, rfl, hx⟩
    · rw [ends_old hs hst hcause hpc] at hj
      exact Or.inl ⟨(h.remote p).mpr (by rw [hj]; rfl), hj⟩
  have hnamed : ∀ p j, site.ends far inp (s.effects s') p = some j →
      ((s.toMembership.apply (s.change e)).peer p).address = site.address j ∧
        (((s.toMembership.apply (s.change e)).peer p).card = ([], []) ∨
          ((s.toMembership.apply (s.change e)).peer p).card = (site.id j, site.key j)) := by
    intro p j hj
    rcases known p j hj with ⟨hrem, hf⟩ | ⟨rfl, address, id, key, hn, rfl, hc⟩
    · obtain ⟨haddr, hcard⟩ := h.named p j hf
      refine ⟨(Membership.apply_stays hs ha hrem).address.trans haddr, ?_⟩
      rw [Membership.apply_card hs ha hrem.1]
      cases hc : (s.change e).card? p with
      | none => exact hcard
      | some card => exact Or.inr (told_card hs h he hr hf hc)
    · obtain ⟨-, haddr, hcard⟩ := Membership.apply_newcomer hs hn
      rw [hcard]
      exact ⟨haddr, hc⟩
  refine ⟨?_, fun p => ?_, hnamed, fun k p j hk hj => ?_, step_groupId hs h he hr⟩
  · rw [Membership.apply_localPeer hs ha, Membership.apply_card hs ha hs.localPeer, card_self hs he]
    exact h.self
  · rw [Membership.Remote, Membership.apply_localPeer hs ha]
    cases hn : s.newcomer (s.change e) with
    | none =>
      rw [Membership.apply_no_newcomer hs ha hn]
      by_cases hpc : p = s.peerCount
      · subst hpc
        rw [ends_none hs hst hcause hnone hn]
        simp
      · rw [ends_old hs hst hcause hpc]
        exact h.remote p
    | some x =>
      obtain ⟨address, id, key⟩ := x
      rw [(Membership.apply_newcomer hs hn).1]
      by_cases hpc : p = s.peerCount
      · subst hpc
        obtain ⟨j, hj, -⟩ := newcomer_introduced hp hs h hst hcause hreach hr hn
        rw [hj]
        exact iff_of_true ⟨Nat.lt_succ_self _, hcount.symm⟩ rfl
      · rw [ends_old hs hst hcause hpc, ← h.remote p]
        exact and_congr_left fun _ => ⟨fun hlt => Nat.lt_of_le_of_ne (Nat.le_of_lt_succ hlt) hpc, Nat.lt_succ_of_lt⟩
  · have hid : (s.toMembership.apply (s.change e)).getId p = k → k = [] ∨ k = site.id j := by
      rintro rfl
      rcases (hnamed p j hj).2 with hc | hc
      · exact Or.inl (Prod.mk.inj hc).1
      · exact Or.inr (Prod.mk.inj hc).1
    rcases Membership.apply_peers hs ha hk with hold | hnow
    · rcases known p j hj with ⟨-, hf⟩ | ⟨rfl, -⟩
      · exact h.peers k p j hold hf
      · exact absurd (hs.peers k s.peerCount hold).1 (Nat.lt_irrefl _)
    · exact hid hnow

/-! ## What it shows -/

/-- What a node has shown was broadcast, and came from the one it was said to come from. -/
def Shown (site : Site ι) (contents : Set Bytes) (far : PeerRef → Option ι) (s : Network) : Prop :=
  ∀ who content, .displayed who content ∈ s.trace → content ∈ contents ∧
    ∃ p j, far p = some j ∧ (who = [] ∨ who = site.id j ∨ who = ascii "@" ++ site.address j)

theorem Shown.step (hs : s.toMembership.Sound) (h : site.Introduced i far s.toMembership)
    (hshown : site.Shown contents far s) (hst : s.Step e s') (hcause : site.Caused s inp e)
    (hr : site.Heard contents texts far e) : site.Shown contents (site.ends far inp (s.effects s')) s' := by
  obtain ⟨he, rounds, hh⟩ := hst
  obtain ⟨es, hes, hvoice⟩ := Network.handle_voices hs he hh
  have kept : ∀ {p j}, far p = some j → site.ends far inp (s.effects s') p = some j := by
    intro p j hj
    rw [ends_old hs ⟨he, rounds, hh⟩ hcause (Nat.ne_of_lt ((h.remote p).mpr (by rw [hj]; rfl)).1), hj]
  intro who content hd
  rw [hes, List.mem_append] at hd
  rcases hd with hd | hd
  · obtain ⟨hc, p, j, hj, hw⟩ := hshown who content hd
    exact ⟨hc, p, j, kept hj, hw⟩
  · cases Network.speech_plain (hvoice.other hd fun q b hq => by cases hq) with
    | @displayed p received stamp marker _ reached hm =>
      obtain ⟨j, hj, -, hc, -⟩ := heard_parsed hs h he hr hm
      obtain ⟨haddress, hcard⟩ := h.named p j hj
      refine ⟨hc, p, j, kept hj, ?_⟩
      split
      · rcases hcard with hcard | hcard
        · exact Or.inl (Prod.mk.inj hcard).1
        · exact Or.inr (Or.inl (Prod.mk.inj hcard).1)
      · exact Or.inr (Or.inr (by rw [haddress]))

/-! ## All nodes -/

/-- What a node promises about itself. -/
structure Faithful (site : Site ι) (contents : Set Bytes) (i : ι) (far : PeerRef → Option ι) (s : Network) : Prop where
  sound : s.toMembership.Sound
  introduced : site.Introduced i far s.toMembership
  shown : site.Shown contents far s

theorem Caused.heard (hcause : site.Caused s inp e)
    (hf : inp.Fair (fun _ => Says contents texts) (fun j _ => site.Spoken contents texts j) i far) :
    site.Heard contents texts far e ∧ Says contents texts e := by
  cases hcause with
  | @own _ ho =>
    refine ⟨fun p received reached he => ?_, hf⟩
    subst he
    exact ho.elim
  | accept j r => exact ⟨fun p received reached he => (by cases he), trivial⟩
  | read p received reached =>
    refine ⟨fun q received' reached' he j hj => ?_, trivial⟩
    cases he
    exact hf j hj
  | close p => exact ⟨fun p received reached he => (by cases he), trivial⟩

/-- What each node promises the others: to say what is true, as long as they do. -/
theorem Proper.contract (hp : site.Proper) (contents texts : Set Bytes) :
    Lib.Net.Contract site.Acts (fun _ => Says contents texts) (site.Faithful contents)
      (fun i _ => site.Spoken contents texts i) where
  fresh := by
    intro i far s inp s' out h hf hm p hd
    obtain ⟨e, hcause, hst, -, rfl⟩ := hm.event h.sound
    rw [dialed_step h.sound hst] at hd
    split at hd
    · rename_i hpc
      subst hpc
      have hnone : far s.peerCount = none :=
        Option.not_isSome_iff_eq_none.mp fun hf => Nat.lt_irrefl _ ((h.introduced.remote s.peerCount).mpr hf).1
      cases hcause with
      | accept j r => cases hd
      | own h => exact hnone
      | read p received reached => exact hnone
      | close p => exact hnone
    · cases hd
  keeps := by
    intro i far s inp s' out h hf hm
    obtain ⟨e, hcause, hst, hreach, rfl⟩ := hm.event h.sound
    obtain ⟨hheard, -⟩ := hcause.heard hf
    refine ⟨?_, h.introduced.step hp h.sound hst hcause hreach hheard, h.shown.step h.sound h.introduced hst hcause hheard⟩
    obtain ⟨he, rounds, hh⟩ := hst
    rw [Network.handle_membership hh]
    exact h.sound.apply (Network.change_awaits he)
  sends := by
    intro i far s inp s' out h hf hm p j bytes hb hj
    obtain ⟨e, hcause, ⟨he, rounds, hh⟩, hreach, rfl⟩ := hm.event h.sound
    obtain ⟨hheard, hallow⟩ := hcause.heard hf
    exact sent_spoken hp h.sound h.introduced he hheard hallow (Network.handle_speech h.sound he hh) (send_mem.mp hb)

variable {ports : ι → Port} {clocks : ι → Nat → Nat}

theorem start_kept (contents texts : Set Bytes) : Lib.Net.Kept (site.Faithful contents)
    (fun i _ => site.Spoken contents texts i) (site.start ports clocks) where
  mates i p q h := by cases h
  node i := by
    refine ⟨Network.start_sound _ _ _ _, ⟨rfl, fun p => ?_, fun p j h => (by cases h), fun k p j h => (by cases h),
      fun l h => (by cases h)⟩, fun who content h => (by cases h)⟩
    refine iff_of_false ?_ Bool.false_ne_true
    rintro ⟨hlt, hne⟩
    exact hne (Nat.lt_one_iff.mp hlt)
  queue i p j h := by cases h

/-! ## What the users have done -/

def broadcasts (moves : List (Action ι PeerRef Bytes Event)) : Set Bytes :=
  { content | ∃ i, .act i (.own (.broadcast content)) ∈ moves }

def textsSent (moves : List (Action ι PeerRef Bytes Event)) : Set Bytes := { text | ∃ i, .act i (.own (.sendAll text)) ∈ moves }

variable {moves : List (Action ι PeerRef Bytes Event)} {w : World ι}

/-- What the users have done is allowed, as long as no text passes for a message. -/
theorem moves_allowed (ht : ∀ text ∈ textsSent moves, ∀ m, parseMessage text ≠ .ok m) :
    ∀ a ∈ moves, a.Allowed fun _ => Says (broadcasts moves) (textsSent moves) := by
  intro a ha
  cases a with
  | leave i => trivial
  | act i inp =>
    cases inp with
    | own e =>
      cases e with
      | broadcast content => exact ⟨i, ha⟩
      | sendAll text => exact ⟨⟨i, ha⟩, ht text ⟨i, ha⟩⟩
      | _ => trivial
    | _ => trivial

/-- All nodes keep their promises in every run, as long as no text passes for a message. -/
theorem run_kept [DecidableEq ι] (hp : site.Proper) (hr : Lib.Net.Run site.Acts (site.start ports clocks) moves w)
    (ht : ∀ text ∈ textsSent moves, ∀ m, parseMessage text ≠ .ok m) :
    Lib.Net.Kept (site.Faithful (broadcasts moves)) (fun i _ => site.Spoken (broadcasts moves) (textsSent moves) i) w :=
  (hp.contract (broadcasts moves) (textsSent moves)).run (start_kept _ _) (moves_allowed ht) hr

omit [Platform] in
theorem Truthful.short {contents : Set Bytes} {m : Message} (hp : site.Proper) (hw : m.WellFormed)
    (ht : site.Truthful contents i m.payload) (hc : ∀ content ∈ contents, content.length ≤ 983) :
    m.serialize.length ≤ MESSAGE_SIZE := by
  obtain ⟨stamp, payload⟩ := m
  obtain ⟨hs, hw⟩ := hw
  have port : ∀ n : Port, (itos n.val).length ≤ 5 := fun n =>
    itos_length_le (by omega) (lt_of_lt_of_le n.isLt (by norm_num))
  simp only [Message.serialize, List.length_append, List.length_cons, hs, MSG_STAMP_LENGTH, MESSAGE_SIZE]
  cases payload with
  | join id pubK n =>
    have := port n
    simp only [Payload.fields, List.length_append, hw.1, hw.2, ID_LENGTH, KEY_LENGTH]
    omega
  | joinNotif marker channel groupId peerId pubK ip n =>
    obtain ⟨h₁, h₂, h₃, h₄, -⟩ := hw
    obtain ⟨k, -, -, rfl⟩ := ht
    have := port n
    have := (hp.address k).1
    simp only [Payload.fields, List.length_append, List.length_cons, List.length_nil, h₁, h₂, h₃, h₄, BCAST_MARKER_LENGTH,
      GROUP_ID_LENGTH, ID_LENGTH, KEY_LENGTH]
    omega
  | joinAck groupId peerId pubK =>
    obtain ⟨h₁, h₂, h₃⟩ := hw
    simp only [Payload.fields, List.length_append, h₁, h₂, h₃, GROUP_ID_LENGTH, ID_LENGTH, KEY_LENGTH]
    omega
  | ready => simp [Payload.fields]
  | readyNotif => simp [Payload.fields]
  | data marker content =>
    have := hc content ht
    have hw : marker.length = BCAST_MARKER_LENGTH := hw
    simp only [Payload.fields, List.length_append, hw, BCAST_MARKER_LENGTH]
    omega

end

end Site

/-! ## Two nodes -/

namespace Scenario

theorem town_proper : town.Proper where
  id := by decide
  key := by decide
  address := by decide
  sole i port j h := by
    have hab : ascii "b" ≠ ascii "a" := by decide
    cases i with
    | false => simpa [town, eq_comm] using h
    | true => simpa [town, hab, eq_comm] using h

/-- No text is sent, and nothing long is said. -/
def isBrief : Action Bool PeerRef Bytes Event → Bool
  | .act _ (.own (.sendAll _)) => false
  | .act _ (.own (.broadcast content)) => content.length ≤ 983
  | _ => true

/-- The second node has shown what the first one said, and passes it on; the first one is
    still there. -/
def Seen (x : List (Action Bool PeerRef Bytes Event) × World Bool) : Prop :=
  (∀ a ∈ x.1, isBrief a = true) ∧ x.2.peer true 1 = some false ∧ .displayed (idOf 1) (ascii "hi") ∈ (x.2.node true).trace ∧
    x.2.gone false = false ∧ (x.2.queue true 1).head?.isSome

instance (x : List (Action Bool PeerRef Bytes Event) × World Bool) : Decidable (Seen x) := by
  unfold Seen
  infer_instance

theorem visit_run : ∃ (moves : List (Action Bool PeerRef Bytes Event)) (w : World Bool),
    Lib.Net.Run (@Site.Acts _ town sha1) (town.start (fun _ => 7) fun _ t => t) moves w ∧
      (∀ text, text ∉ Site.textsSent moves) ∧ (∀ content ∈ Site.broadcasts moves, content.length ≤ 983) ∧
      w.peer true 1 = some false ∧ .displayed (idOf 1) (ascii "hi") ∈ (w.node true).trace ∧ w.gone false = false ∧
      ∃ bytes, bytes ∈ w.queue true 1 := by
  have hs : (match @visited sha1 with | some x => decide (Seen x) | none => false) = true := by decide +kernel
  split at hs
  · rename_i x hx
    obtain ⟨hb, hp, hd, hg, hq⟩ := of_decide_eq_true hs
    obtain ⟨bytes, hq⟩ := Option.isSome_iff_exists.mp hq
    refine ⟨x.1, x.2, Lib.Net.perform_run (fun i s inp s' out h => @Site.reply_acts _ _ sha1 i s s' inp out h) hx,
      ?_, ?_, hp, hd, hg, bytes, List.mem_of_mem_head? hq⟩
    · rintro text ⟨i, ha⟩
      cases hb _ ha
    · rintro content ⟨i, ha⟩
      exact of_decide_eq_true (hb _ ha)
  · cases hs

end Scenario

namespace Site

section

variable {ι : Type} {site : Site ι} [Platform] {ports : ι → Port} {clocks : ι → Nat → Nat}
  {moves : List (Action ι PeerRef Bytes Event)} {w : World ι}

/-! ## Every run -/

/-- Whatever the order of the steps, nobody is taken for somebody else: what a node has for
    its peer is the address, the ID and the key of the node at the other end. -/
theorem nobody_impersonated [DecidableEq ι] (hp : site.Proper)
    (hr : Lib.Net.Run site.Acts (site.start ports clocks) moves w)
    (ht : ∀ text ∈ textsSent moves, ∀ m, parseMessage text ≠ .ok m) (i : ι) (p : PeerRef) :
    ((w.node i).Remote p ↔ ∃ j, w.peer i p = some j) ∧ ∀ j, w.peer i p = some j →
      ((w.node i).peer p).address = site.address j ∧
      (((w.node i).peer p).card = ([], []) ∨ ((w.node i).peer p).card = (site.id j, site.key j)) ∧
      (∀ k, (w.node i).peers.find? k = some p → k = [] ∨ k = site.id j) ∧
      ∀ q, w.mate i p = some q → ((w.node j).peer q).address = site.address i := by
  have hk := run_kept hp hr ht
  refine ⟨((hk.node i).introduced.remote p).trans Option.isSome_iff_exists, fun j hj => ?_⟩
  refine ⟨((hk.node i).introduced.named p j hj).1, ((hk.node i).introduced.named p j hj).2,
    fun k hf => (hk.node i).introduced.peers k p j hf hj, fun q hq => ?_⟩
  obtain ⟨j', hj', hback, -⟩ := hk.mates i p q hq
  obtain rfl : j' = j := Option.some.inj (hj'.symm.trans hj)
  exact ((hk.node j').introduced.named q i hback).1

omit [Platform] in
theorem nobody_impersonated_two : ∃ w : World Bool, w.peer true 1 = some false ∧ ((w.node true).peer 1).address = ascii "a" ∧
    (((w.node true).peer 1).card = ([], []) ∨ ((w.node true).peer 1).id = Scenario.idOf 1) := by
  obtain ⟨moves, w, hr, ht, -, hp, -⟩ := Scenario.visit_run
  obtain ⟨-, h⟩ := @nobody_impersonated _ Scenario.town sha1 _ _ _ _ _ Scenario.town_proper hr
    (fun text h => absurd h (ht text)) true 1
  obtain ⟨ha, hc, -⟩ := h false hp
  exact ⟨w, hp, ha, hc.imp_right (congrArg Prod.fst)⟩

/-- Whatever the order of the steps, a node shows only what somebody has broadcast, as said by
    a node it is connected to. -/
theorem shown_authentic [DecidableEq ι] (hp : site.Proper)
    (hr : Lib.Net.Run site.Acts (site.start ports clocks) moves w)
    (ht : ∀ text ∈ textsSent moves, ∀ m, parseMessage text ≠ .ok m) {i : ι} {who content : Bytes}
    (hd : .displayed who content ∈ (w.node i).trace) : (∃ k, .act k (.own (.broadcast content)) ∈ moves) ∧
      ∃ p j, w.peer i p = some j ∧ (who = [] ∨ who = site.id j ∨ who = ascii "@" ++ site.address j) :=
  ((run_kept hp hr ht).node i).shown who content hd

omit [Platform] in
theorem shown_authentic_two : ∃ (moves : List (Action Bool PeerRef Bytes Event)) (w : World Bool),
    .displayed (Scenario.idOf 1) (ascii "hi") ∈ (w.node true).trace ∧ ∃ k, .act k (.own (.broadcast (ascii "hi"))) ∈ moves := by
  obtain ⟨moves, w, hr, ht, -, -, hd, -⟩ := Scenario.visit_run
  exact ⟨moves, w, hd, (@shown_authentic _ Scenario.town sha1 _ _ _ _ _ Scenario.town_proper hr
    (fun text h => absurd h (ht text)) _ _ _ hd).1⟩

/-- Whatever the order of the steps, what is on its way is read in one read, if what the users
    say is not too long; and it is read as it was written, unless it is a text, or the
    Notification about a peer who has not introduced himself, which no node can read. -/
theorem messages_fit [DecidableEq ι] (hp : site.Proper)
    (hr : Lib.Net.Run site.Acts (site.start ports clocks) moves w)
    (ht : ∀ text ∈ textsSent moves, (∀ m, parseMessage text ≠ .ok m) ∧ text.length ≤ MESSAGE_SIZE)
    (hc : ∀ content ∈ broadcasts moves, content.length ≤ 983) {i : ι} {p : PeerRef} {j : ι} (hj : w.peer i p = some j)
    {bytes : Bytes} (hb : bytes ∈ w.queue i p) : bytes.length ≤ MESSAGE_SIZE ∧
      ((∃ m, parseMessage bytes = .ok m ∧ m.serialize = bytes) ∨ bytes ∈ textsSent moves ∨
        Nameless bytes ∧ bytes.length < 87 ∧ ∀ m, parseMessage bytes ≠ .ok m) := by
  rcases (run_kept hp hr fun text h => (ht text h).1).queue i p j hj bytes hb with ⟨m, hw, hm, rfl⟩ | ⟨h, -⟩ | h
  · exact ⟨Truthful.short hp hw hm hc, Or.inl ⟨m, parse_serialize hw, rfl⟩⟩
  · exact ⟨(ht bytes h).2, Or.inr (Or.inl h)⟩
  · exact ⟨(Nat.le_of_lt h.unread.1).trans (by decide), Or.inr (Or.inr ⟨h, h.unread⟩)⟩

omit [Platform] in
theorem messages_fit_two : ∃ (w : World Bool) (bytes : Bytes), bytes ∈ w.queue true 1 ∧ bytes.length ≤ MESSAGE_SIZE ∧
    ((∃ m, @parseMessage sha1 bytes = .ok m ∧ m.serialize = bytes) ∨ Nameless bytes) := by
  obtain ⟨moves, w, hr, ht, hc, hp, -, -, bytes, hb⟩ := Scenario.visit_run
  obtain ⟨hl, h⟩ := @messages_fit _ Scenario.town sha1 _ _ _ _ _ Scenario.town_proper hr (fun text h => absurd h (ht text))
    hc _ _ _ hp _ hb
  refine ⟨w, bytes, hb, hl, h.imp_right fun h => ?_⟩
  rcases h with h | ⟨h, -⟩
  · exact absurd h (ht bytes)
  · exact h

end

end Site

end RacKun
