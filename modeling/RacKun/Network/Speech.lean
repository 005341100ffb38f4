/-
  RacKun.Network.Speech — what an event makes a node do to the world outside.

  `Change` is what an event does to the membership; this is the other half. `speech` reads
  off a node and an event what will be sent, in order and to whom: the copies a relay
  passes on, and the messages of our own, which get their stamps on the way.

  - `handle_speech`: a handler that returns has done exactly that.
  So a property of everything that is sent needs one case per kind of message, and no
  handler.
-/

import RacKun.Network.Failure
import RacKun.Network.Ledger
import RacKun.Network.Relay

namespace RacKun

open Lib (OrdMap bind_ok pure_ok ok_bind)

inductive Utterance where
  /-- A message of our own, to each of these peers. -/
  | own (targets : List PeerRef) (payload : Payload)
  | plain (e : Effect)
  deriving DecidableEq, Repr

/-- The effects of some utterances of this author, each message stamped at some time. -/
inductive Renders [Platform] (author : Bytes) : List Utterance → List Effect → Prop
  | nil : Renders author [] []
  | own (targets : List PeerRef) (payload : Payload) (now : Nat) {us : List Utterance} {es : List Effect} :
    Renders author us es → Renders author (.own targets payload :: us)
      (targets.map (Effect.sent · (Message.makeStamp payload author now).serialize) ++ es)
  | plain (e : Effect) {us : List Utterance} {es : List Effect} :
    Renders author us es → Renders author (.plain e :: us) (e :: es)

namespace Renders

variable [Platform] {author : Bytes} {us us' : List Utterance} {es es' : List Effect}

theorem append (h : Renders author us es) (h' : Renders author us' es') :
    Renders author (us ++ us') (es ++ es') := by
  induction h with
  | nil => exact h'
  | own targets payload now _ ih =>
    rw [List.append_assoc]
    exact .own targets payload now ih
  | plain e _ ih => exact .plain e ih

theorem plains (es : List Effect) : Renders author (es.map .plain) es := by
  induction es with
  | nil => exact .nil
  | cons e es ih => exact .plain e ih

/-- What has been sent is one of the messages of our own, or was passed on. -/
theorem sent (h : Renders author us es) {p : PeerRef} {bytes : Bytes} (hb : .sent p bytes ∈ es) :
    (∃ targets payload now, .own targets payload ∈ us ∧ p ∈ targets ∧ bytes = (Message.makeStamp payload author now).serialize) ∨
      .plain (.sent p bytes) ∈ us := by
  induction h with
  | nil => cases hb
  | @own targets payload now us es _ ih =>
    rcases List.mem_append.mp hb with hb | hb
    · obtain ⟨q, hq, he⟩ := List.mem_map.mp hb
      cases he
      exact Or.inl ⟨targets, payload, now, List.mem_cons_self, hq, rfl⟩
    · rcases ih hb with ⟨targets', payload', now', hm, hp, he⟩ | hm
      · exact Or.inl ⟨targets', payload', now', List.mem_cons_of_mem _ hm, hp, he⟩
      · exact Or.inr (List.mem_cons_of_mem _ hm)
  | plain e _ ih =>
    rcases List.mem_cons.mp hb with rfl | hb
    · exact Or.inr List.mem_cons_self
    · rcases ih hb with ⟨targets', payload', now', hm, hp, he⟩ | hm
      · exact Or.inl ⟨targets', payload', now', List.mem_cons_of_mem _ hm, hp, he⟩
      · exact Or.inr (List.mem_cons_of_mem _ hm)

/-- Whatever else has been done was to be done. -/
theorem other (h : Renders author us es) {e : Effect} (he : e ∈ es) (hs : ∀ p bytes, e ≠ .sent p bytes) :
    .plain e ∈ us := by
  induction h with
  | nil => cases he
  | own targets payload now _ ih =>
    rcases List.mem_append.mp he with he | he
    · obtain ⟨q, -, he⟩ := List.mem_map.mp he
      exact absurd he.symm (hs q _)
    · exact List.mem_cons_of_mem _ (ih he)
  | plain e' _ ih =>
    rcases List.mem_cons.mp he with rfl | he
    · exact List.mem_cons_self
    · exact List.mem_cons_of_mem _ (ih he)

theorem done (h : Renders author us es) {e : Effect} (he : .plain e ∈ us) : e ∈ es := by
  induction h with
  | nil => cases he
  | own targets payload now _ ih =>
    rcases List.mem_cons.mp he with he | he
    · cases he
    · exact List.mem_append_right _ (ih he)
  | plain e' _ ih =>
    rcases List.mem_cons.mp he with he | he
    · cases he
      exact List.mem_cons_self
    · exact List.mem_cons_of_mem _ (ih he)

end Renders

namespace Membership

variable [Platform]

/-- The marker of a group's own broadcasts. -/
def ownMarker (m : Membership) (g : GroupRef) : Bytes := makeHash ((m.group g).id ++ (m.group g).id)

/-- `acknowledge_join`. -/
def ackSpeech (m : Membership) (p : PeerRef) : List Utterance :=
  match m.localGroup with
  | none => []
  | some l => [.own [p] (.joinAck (m.group l).id (m.getId m.localPeer) (m.peer m.localPeer).pubIdKey)]

/-- `answer_join_request`. -/
def answerSpeech (m : Membership) (p : PeerRef) (port : Port) : List Utterance :=
  match m.localGroup with
  | none => []
  | some l => .own (m.group l).successors.values (.joinNotif (m.ownMarker l) false (m.group l).id (m.peer p).id
      (m.peer p).pubIdKey (m.peer p).address port) :: m.ackSpeech p

/-- `check_for_new_peers`. -/
def checkSpeech (m : Membership) : List Utterance :=
  match m.waiting? with
  | none => []
  | some (p, port) => m.answerSpeech p port

/-- READY, for one group. -/
def readyOneSpeech (m : Membership) (g : GroupRef) : List Utterance :=
  match m.localGroup with
  | none => []
  | some l =>
    if (m.group g).id ≠ (m.group l).id ∨ m.localState ≠ .connected then
      [.own (((m.readyOne g).group g).predecessors.union ((m.readyOne g).group g).successors).values .readyNotif]
    else []

def readySpeech (m : Membership) : List GroupRef → List Utterance
  | [] => []
  | g :: gs => m.readyOneSpeech g ++ (m.readyOne g).readySpeech gs

end Membership

namespace Network

variable [Platform]

/-- The copies of a new message that are passed on. -/
def relay (s : Network) (m : Message) (p : PeerRef) : List Utterance :=
  match m.bcastMarker? with
  | none => []
  | some marker =>
    let markers := if (s.peer p).isKnown then s.channelMarkers.insertNew marker [] else s.channelMarkers
    match (markers.find? marker).bind s.groups.find? with
    | none => []
    | some g => (s.copies g m).map .plain

/-- What a JOIN Notification makes a node do. -/
def notifSpeech (s : Network) (received groupId peerId pubK ip : Bytes) (channel : Bool) (port : Port)
    (reached : Option Bytes) : List Utterance :=
  if s.acknowledges groupId channel then
    match reached with
    | some address => .plain (.connected s.peerCount ip (itos port.val)) ::
        ((s.newPeer address).enrol s.peerCount peerId pubK).ackSpeech s.peerCount
    | none => [.plain (.reported received)]
  else []

/-- The switch on the type. -/
def messageSpeech (s : Network) (m : Message) (received : Bytes) (p : PeerRef) (reached : Option Bytes) :
    List Utterance :=
  match m.payload with
  | .join id pubK port =>
    if s.joinToken then (s.greet p id pubK (makeHash (s.getId s.localPeer ++ itos (s.clock 0)))).answerSpeech p port
    else []
  | .joinNotif _ channel groupId peerId pubK ip port =>
    s.notifSpeech received groupId peerId pubK ip channel port reached
  | .joinAck _ _ _ => []
  | .ready => s.readySpeech s.groups.values
  | .readyNotif => (s.setState p .connected).checkSpeech
  | .data _ content =>
    [.plain (.displayed (if (s.peer p).isKnown then (s.peer p).id else ascii "@" ++ (s.peer p).address) content)]

/-- What the event makes the node do. -/
def speech (s : Network) : Event → List Utterance
  | .accept _ => []
  | .read p received reached =>
    match parseMessage received with
    | .error _ => [.plain (.reported received)]
    | .ok m => if (s.findLog m).isSome then [] else s.relay m p ++ s.messageSpeech m received p reached
  | .eof _ => []
  | .readError _ => []
  | .readyTimer id =>
    match s.readyTimers.find? id with
    | none => []
    | some t => [.own [t.peer] .ready]
  | .joinTimer id =>
    match s.joinTimers.find? id with
    | none => []
    | some t => (s.setState t.peer .connected).checkSpeech
  | .join ip port reached =>
    match reached with
    | none => []
    | some _ => [.plain (.connected s.peerCount ip port),
        .own [s.peerCount] (.join (s.getId s.localPeer) (s.peer s.localPeer).pubIdKey s.listenPort)]
  | .broadcast content =>
    match s.localGroup with
    | none => []
    | some g => [.own (s.group g).successors.values (.data (s.ownMarker g) content)]
  | .sendAll message => s.peers.values.map fun p => .plain (.sent p message)

/-- The trace has grown by the effects of these utterances. -/
def Voices (author : Bytes) (s : Network) (us : List Utterance) (s' : Network) : Prop :=
  ∃ es, s'.trace = s.trace ++ es ∧ Renders author us es

variable {author : Bytes}

theorem Voices.nothing {s s' : Network} (h : s'.trace = s.trace) : Voices author s [] s' :=
  ⟨[], by rw [h, List.append_nil], .nil⟩

theorem Voices.trans {s t u : Network} {us us' : List Utterance} (h : Voices author s us t)
    (h' : Voices author t us' u) : Voices author s (us ++ us') u := by
  obtain ⟨es, he, hr⟩ := h
  obtain ⟨es', he', hr'⟩ := h'
  exact ⟨es ++ es', by rw [he', he, List.append_assoc], hr.append hr'⟩

theorem record_voices (s : Network) (es : List Effect) : Voices author s (es.map .plain) (s.record es) :=
  ⟨es, rfl, .plains es⟩

/-! ## Handlers -/

theorem own_voices {s s' : Network} {payload : Payload} {targets : List PeerRef} (ha : s.getId s.localPeer = author)
    (h : ((s.makeStamp payload).2.record (targets.map (.sent · (s.makeStamp payload).1.serialize))).logMessage
      (s.makeStamp payload).1 s.localPeer = .ok s') : Voices author s [.own targets payload] s' := by
  refine ⟨_, (logMessage_logs h).trace, ?_⟩
  have hr : Renders author _ _ := .own targets payload (s.clock 0) .nil
  rw [List.append_nil, ← ha] at hr
  rw [← ha]
  exact hr

theorem send_voices {s s' : Network} {payload : Payload} {p : PeerRef} (ha : s.getId s.localPeer = author)
    (h : s.send payload p = .ok s') : Voices author s [.own [p] payload] s' := own_voices ha h

theorem makeChannelMarker_self (s : Network) (g : GroupRef) : s.makeChannelMarker g g = s.ownMarker g := by
  rw [makeChannelMarker]
  split <;> rfl

theorem acknowledgeJoin_voices {s s' : Network} {p : PeerRef} {g : GroupRef} (ha : s.getId s.localPeer = author)
    (h : s.acknowledgeJoin p g = .ok s') : Voices author s (s.ackSpeech p) s' := by
  obtain ⟨l, hl, h⟩ := bind_ok.mp h
  obtain ⟨t, ht, h⟩ := bind_ok.mp h
  have hl : s.localGroup = some l := derefLocalGroup_ok.mp hl
  have hid : ((s.takeIn p g).group l).id = (s.group l).id := by
    by_cases hlg : l = g
    · subst hlg
      rw [Membership.takeIn, Membership.updateNeighbours, Membership.modGroup_self, Group.updateNeighbours_id,
        Membership.addPeer, Membership.modGroup_self]
      rfl
    · rw [Membership.takeIn, Membership.updateNeighbours, Membership.modGroup_of_ne hlg, Membership.addPeer,
        Membership.modGroup_of_ne hlg]
  have hv : Voices author s [.own [p] (.joinAck ((s.takeIn p g).group l).id (s.getId s.localPeer)
      (s.peer s.localPeer).pubIdKey)] t := send_voices (s := { s with toMembership := s.takeIn p g }) ha ht
  rw [← pure_ok.mp h, Membership.ackSpeech]
  simp only [hl]
  rw [← hid]
  exact hv

theorem answerJoinRequest_voices {s s' : Network} {p : PeerRef} {port : Port} (ha : s.getId s.localPeer = author)
    (h : s.answerJoinRequest p port = .ok s') : Voices author s (s.answerSpeech p port) s' := by
  obtain ⟨l, hl, h⟩ := bind_ok.mp h
  obtain ⟨t, ht, h⟩ := bind_ok.mp h
  obtain ⟨u, hu, h⟩ := bind_ok.mp h
  have hl : s.localGroup = some l := derefLocalGroup_ok.mp hl
  rw [broadcast_stamped] at ht
  have hv := own_voices (s := { s with joinToken := false }) ha ht
  rw [makeChannelMarker_self] at hv
  have htm : t.toMembership = { s.toMembership with joinToken := false } := logMessage_membership ht
  have hu : Voices author _ _ u := acknowledgeJoin_voices (s := { t with
    newPeers := t.newPeers.erase (s.peer p).address }) (by rw [htm]; exact ha) hu
  have hspeech : ({ t.toMembership with newPeers := t.newPeers.erase (s.peer p).address } : Membership).ackSpeech p =
      s.ackSpeech p := by
    rw [htm]
    rfl
  rw [hspeech] at hu
  rw [← pure_ok.mp h, Membership.answerSpeech]
  simp only [hl]
  exact hv.trans hu

theorem checkForNewPeers_voices {s s' : Network} (ha : s.getId s.localPeer = author)
    (h : s.checkForNewPeers = .ok s') : Voices author s s.checkSpeech s' := by
  obtain ⟨r, hr, h⟩ := bind_ok.mp h
  have hw : r = s.toMembership.waiting? := firstKnown_waiting hr
  rw [Membership.checkSpeech, ← hw]
  split at h
  · exact answerJoinRequest_voices ha h
  · cases h
    exact .nothing rfl

theorem sendReady_voices {s s' : Network} {p : PeerRef} (ha : s.getId s.localPeer = author)
    (h : s.sendReady p = .ok s') : Voices author s [.own [p] .ready] s' := by
  obtain ⟨t, ht, h⟩ := bind_ok.mp h
  have hv := send_voices ha ht
  rw [← pure_ok.mp h]
  exact hv

/-! ### Messages -/

theorem forward_voices {s t u : Network} {m : Message} {p : PeerRef} (hn : s.findLog m = none)
    (ht : s.logKnown m p = .ok t) (hu : t.forward m = .ok u) : Voices author s (s.relay m p) u := by
  have htm := logKnown_membership ht
  have htr : t.trace = s.trace := by
    unfold logKnown at ht
    split at ht
    · exact (logMessage_logs ht).trace
    · cases ht; rfl
  unfold forward at hu
  unfold relay
  cases hb : m.bcastMarker? with
  | none =>
    simp only [hb] at hu
    cases hu
    exact .nothing htr
  | some marker =>
    have hmark : t.channelMarkers = if (s.peer p).isKnown then s.channelMarkers.insertNew marker []
        else s.channelMarkers := by
      unfold logKnown at ht
      split at ht
      · rename_i hk
        rw [if_pos hk]
        obtain ⟨v, hv, ht⟩ := bind_ok.mp ht
        cases hg : s.groups.find? (s.markerGid marker) with
        | none => rw [enterLog_null hn hb hg] at hv; cases hv
        | some g =>
          rw [enterLog_broadcast hn hb hg] at hv
          cases hv
          rw [← pure_ok.mp ht]
          split <;> rfl
      · rename_i hk
        rw [if_neg hk]
        cases ht
        rfl
    simp only [hb] at hu ⊢
    rw [← hmark]
    cases hf : t.channelMarkers.find? marker with
    | none =>
      simp only [hf] at hu
      cases hu
      exact .nothing htr
    | some gid =>
      simp only [hf, Option.bind_some] at hu ⊢
      rw [htm] at hu
      cases hg : s.groups.find? gid with
      | none => simp only [hg] at hu; cases hu
      | some g =>
        simp only [hg] at hu ⊢
        rw [broadcast_relayed] at hu
        refine ⟨s.copies g m, ?_, .plains _⟩
        rw [(logMessage_logs hu).trace, ← htr, copies, ← htm]
        rfl

theorem greeted_voices {s t : Network} {m : Message} {p : PeerRef} {id pubK : Bytes}
    (h : s.greeted m p id pubK = .ok t) : t.trace = s.trace := by
  refine (logMessage_logs h).trace.trans ?_
  show (if s.localState ≠ .connected then s.foundGroup else s).trace = s.trace
  split <;> rfl

theorem processJoin_voices {s s' : Network} (ha : s.getId s.localPeer = author) {m : Message} {p : PeerRef}
    (hp : p ≠ s.localPeer) {id pubK : Bytes} {port : Port} (h : s.processJoin m p id pubK port = .ok s') :
    Voices author s (if s.joinToken then
      (s.greet p id pubK (makeHash (s.getId s.localPeer ++ itos (s.clock 0)))).answerSpeech p port else []) s' := by
  rw [processJoin_eq] at h
  obtain ⟨t, ht, h⟩ := bind_ok.mp h
  have htm := greeted_membership ht
  have htr := greeted_voices ht
  have hj : t.joinToken = s.joinToken := by rw [htm, Membership.greet_token]
  have hta : t.getId t.localPeer = author := by
    rw [htm, Membership.greet_localPeer, Membership.greet_ids, Membership.renamed, Function.update_of_ne hp.symm, ha]
  rw [hj] at h
  by_cases hs : s.joinToken = true
  · rw [if_pos hs] at h ⊢
    rw [← htm]
    exact (Voices.nothing htr).trans (answerJoinRequest_voices hta h)
  · rw [if_neg hs] at h ⊢
    cases h
    exact .nothing htr

omit [Platform] in
/-- A JOIN Notification that is acknowledged. -/
theorem acknowledges_iff {s : Network} {groupId : Bytes} {channel : Bool} {g l : GroupRef}
    (hg : s.groups.find? groupId = some g) (hl : s.localGroup = some l) :
    s.acknowledges groupId channel = (decide (groupId = (s.group l).id) ^^ channel) := by
  have hc : s.groups.contains groupId = true := OrdMap.contains_iff.mpr ⟨g, hg⟩
  rw [acknowledges, hc, hl]
  simp

omit [Platform] in
theorem unfiled_acknowledges {s : Network} {groupId : Bytes} (channel : Bool) (hg : s.groups.find? groupId = none) :
    s.acknowledges groupId channel = false := by
  rw [acknowledges, OrdMap.not_contains_iff.mpr hg, Bool.false_and]

theorem processJoinNotif_voices {s s' : Network} (ha : s.getId s.localPeer = author) (hs : s.toMembership.Sound)
    (received : Bytes) {channel : Bool} {groupId peerId pubK ip : Bytes} {port : Port} {reached : Option Bytes}
    (h : s.processJoinNotif channel groupId peerId pubK ip port reached = .ok s') :
    Voices author s (s.notifSpeech received groupId peerId pubK ip channel port reached) s' := by
  unfold processJoinNotif at h
  unfold notifSpeech
  cases hg : s.groups.find? groupId with
  | none =>
    simp only [hg] at h
    rw [unfiled_acknowledges channel hg, if_neg (by simp)]
    cases h
    exact .nothing rfl
  | some g =>
    simp only [hg] at h
    obtain ⟨l, hl, h⟩ := bind_ok.mp h
    rw [acknowledges_iff hg (derefLocalGroup_ok.mp hl)]
    split at h
    · rename_i hack
      rw [if_pos hack]
      cases reached with
      | none => cases h
      | some address =>
        obtain ⟨⟨q, t⟩, hq, h⟩ := bind_ok.mp h
        cases hq
        refine (record_voices s [.connected s.peerCount ip (itos port.val)]).trans
          (acknowledgeJoin_voices (s := { s with
            toMembership := ({ s.toMembership with joinToken := false }.newPeer address).enrol s.peerCount peerId pubK
            trace := s.trace ++ [.connected s.peerCount ip (itos port.val)] }) ?_ h)
        rw [← ha]
        refine congrArg Peer.id ?_
        show ((({ s.toMembership with joinToken := false }.newPeer address).enrol s.peerCount peerId pubK).peer
          s.localPeer) = s.peer s.localPeer
        rw [Membership.enrol_of_ne (Nat.ne_of_lt hs.localPeer)]
        exact Membership.newPeer_of_ne (Nat.ne_of_lt hs.localPeer) address
    · rename_i hack
      rw [if_neg hack]
      split at h
      · split at h <;> cases h <;> exact .nothing rfl
      · cases h
        exact .nothing rfl

theorem processJoinNotif_thrown {s t : Network} {channel : Bool} {groupId peerId pubK ip : Bytes} {port : Port}
    {reached : Option Bytes} (h : s.processJoinNotif channel groupId peerId pubK ip port reached = .error (.thrown t)) :
    s.acknowledges groupId channel = true ∧ reached = none ∧ t.trace = s.trace := by
  unfold processJoinNotif at h
  cases hg : s.groups.find? groupId with
  | none => simp only [hg] at h; cases h
  | some g =>
    simp only [hg] at h
    cases hl : s.localGroup with
    | none => simp only [derefLocalGroup, hl] at h; cases h
    | some l =>
      rw [derefLocalGroup_ok.mpr hl, ok_bind] at h
      rw [acknowledges_iff hg hl]
      split at h
      · rename_i hack
        cases reached with
        | none => cases h; exact ⟨hack, rfl, rfl⟩
        | some address => exact absurd h (acknowledgeJoin_quiet _ _ _ t)
      · split at h
        · split at h <;> cases h
        · cases h

theorem readyOne_entered (s : Network) (g : GroupRef) : s.toMembership.Entered (s.readyOne g) := by
  unfold Membership.readyOne
  split
  · exact .refl _
  · rename_i l _
    unfold Membership.enterRings
    split
    · exact (Membership.Entered.refl _).enter g
    · split
      · exact ((Membership.Entered.refl _).setLocalState .connected).enter l
      · exact .refl _

theorem readyGroup_voices {s s' : Network} {g : GroupRef} (ha : s.getId s.localPeer = author)
    (h : s.readyGroup g = .ok s') : Voices author s (s.readyOneSpeech g) s' := by
  obtain ⟨l, hl, h⟩ := bind_ok.mp h
  have hl := derefLocalGroup_ok.mp hl
  have hone : s.readyOne g = s.enterRings l g := by rw [Membership.readyOne, hl]
  have he : (s.enterRings l g).getId s.localPeer = s.getId s.localPeer := by
    rw [← hone]
    exact congrFun (readyOne_entered s g).ids s.localPeer
  have hlp : (s.enterRings l g).localPeer = s.localPeer := by
    rw [← hone, (readyOne_entered s g).rest]
  simp only [decide_eq_true_eq] at h
  rw [Membership.readyOneSpeech, hl]
  simp only
  split at h
  · rename_i hn
    rw [if_pos hn, hone]
    exact own_voices (s := { s with toMembership := s.enterRings l g }) (by rw [hlp, he, ha]) h
  · rename_i hn
    rw [if_neg hn]
    cases h
    exact .nothing rfl

theorem processReady_voices {s s' : Network} (ha : s.getId s.localPeer = author) (h : s.processReady = .ok s') :
    Voices author s (s.readySpeech s.groups.values) s' := by
  have run : ∀ (gs : List GroupRef) (s s' : Network), s.getId s.localPeer = author → gs.foldlM readyGroup s = .ok s' →
      Voices author s (s.readySpeech gs) s' := by
    intro gs
    induction gs with
    | nil =>
      intro s s' _ h
      rw [← pure_ok.mp h]
      exact .nothing rfl
    | cons g gs ih =>
      intro s s' ha h
      rw [List.foldlM_cons] at h
      obtain ⟨t, ht, h⟩ := bind_ok.mp h
      have htm := readyGroup_membership ht
      have he := readyOne_entered s g
      have hta : t.getId t.localPeer = author := by
        rw [htm, he.rest]
        exact (congrFun he.ids s.localPeer).trans ha
      have hv := ih t s' hta h
      rw [htm] at hv
      exact (readyGroup_voices ha ht).trans hv
  exact run _ s s' ha h

/-! ### Events -/

theorem join_voices {s s' : Network} (ha : s.getId s.localPeer = author) (hs : s.toMembership.Sound) {ip port : Bytes}
    {reached : Option Bytes} (h : s.join ip port reached = .ok s') :
    Voices author s (s.speech (.join ip port reached)) s' := by
  cases reached with
  | none => cases h; exact .nothing rfl
  | some address =>
    have hlp : s.localPeer ≠ s.peerCount := Nat.ne_of_lt hs.localPeer
    let n := ((s.newPeer address).setState s.localPeer .joining).addNewPeer s.peerCount
    -- the local peer is as before, but for its state
    have hx : n.peer s.localPeer = { s.peer s.localPeer with state := .joining } := by
      show (Membership.addNewPeer _ s.peerCount).peer s.localPeer = _
      rw [Membership.addNewPeer, Membership.startListening, Membership.modPeer_of_ne hlp]
      show ((s.newPeer address).setState s.localPeer .joining).peer s.localPeer = _
      rw [Membership.setState, Membership.modPeer_self, Membership.newPeer_of_ne hlp]
    have hid : n.getId s.localPeer = s.getId s.localPeer := by rw [Membership.getId, hx, Membership.getId]
    have hk : (n.peer s.localPeer).pubIdKey = (s.peer s.localPeer).pubIdKey := by rw [hx]
    have h : ({ s with toMembership := n, trace := s.trace ++ [.connected s.peerCount ip port] } : Network).send
        (.join (n.getId s.localPeer) (n.peer s.localPeer).pubIdKey s.listenPort) s.peerCount = .ok s' := h
    rw [hid, hk] at h
    exact (record_voices s [.connected s.peerCount ip port]).trans (send_voices
      (s := { s with toMembership := n, trace := s.trace ++ [.connected s.peerCount ip port] }) (hid.trans ha) h)

theorem process_voices {s s' : Network} (ha : s.getId s.localPeer = author) (hs : s.toMembership.Sound) {m : Message}
    (received : Bytes) {p : PeerRef} (hp : p ≠ s.localPeer) {reached : Option Bytes}
    (h : s.process m p reached = .ok s') : Voices author s (s.messageSpeech m received p reached) s' := by
  unfold process at h
  unfold messageSpeech
  cases hm : m.payload with
  | join id pubK port =>
    simp only [hm] at h
    exact processJoin_voices ha hp h
  | joinNotif marker channel groupId peerId pubK ip port =>
    simp only [hm] at h
    exact processJoinNotif_voices ha hs received h
  | joinAck groupId peerId pubK =>
    simp only [hm] at h
    refine .nothing ((logMessage_logs h).trace.trans ?_)
    show (s.hisGroup groupId).2.trace = s.trace
    unfold hisGroup
    split
    · rfl
    · simp only
      split <;> rfl
  | ready =>
    simp only [hm] at h
    exact processReady_voices ha h
  | readyNotif =>
    simp only [hm] at h
    refine checkForNewPeers_voices (s := { s with toMembership := s.setState p .connected }) ?_ h
    exact (congrFun (Membership.setState_getId s.toMembership p .connected) s.localPeer).trans ha
  | data marker content =>
    simp only [hm] at h
    cases h
    exact record_voices s [_]

theorem process_thrown_voices {s t : Network} {m : Message} {received : Bytes} {p : PeerRef} {reached : Option Bytes}
    (h : s.process m p reached = .error (.thrown t)) :
    Voices author s (s.messageSpeech m received p reached) (t.record [.reported received]) := by
  obtain ⟨⟨marker, hb⟩, -⟩ := process_thrown h
  unfold process at h
  unfold messageSpeech
  cases hm : m.payload with
  | joinNotif marker channel groupId peerId pubK ip port =>
    simp only [hm] at h
    obtain ⟨hack, rfl, ht⟩ := processJoinNotif_thrown h
    simp only [notifSpeech, hack, if_true]
    exact ⟨[.reported received], by rw [record, ht], .plains [_]⟩
  | data marker content =>
    simp only [hm] at h
    cases h
  | join id pubK port => rw [Message.bcastMarker?, hm] at hb; cases hb
  | joinAck groupId peerId pubK => rw [Message.bcastMarker?, hm] at hb; cases hb
  | ready => rw [Message.bcastMarker?, hm] at hb; cases hb
  | readyNotif => rw [Message.bcastMarker?, hm] at hb; cases hb

/-- Logging and relaying change nothing that the switch looks at. -/
theorem messageSpeech_congr {s t : Network} (hm : t.toMembership = s.toMembership) (hc : t.clock = s.clock)
    (m : Message) (received : Bytes) (p : PeerRef) (reached : Option Bytes) :
    t.messageSpeech m received p reached = s.messageSpeech m received p reached := by
  unfold messageSpeech notifSpeech acknowledges
  rw [hm, hc]

theorem handleIncomingMessage_voices {s s' : Network} (ha : s.getId s.localPeer = author) (hs : s.toMembership.Sound)
    {received : Bytes} {p : PeerRef} (hp : p ≠ s.localPeer) {reached : Option Bytes}
    (h : s.handleIncomingMessage received p reached = .ok s') :
    Voices author s (s.speech (.read p received reached)) s' := by
  cases hm : parseMessage received with
  | error e =>
    simp only [handleIncomingMessage, hm] at h
    cases h
    simp only [speech, hm]
    exact record_voices s [.reported received]
  | ok m =>
    cases hl : s.findLog m with
    | some l =>
      rw [handle_logged p reached hm hl] at h
      cases h
      simp only [speech, hm, hl, Option.isSome_some, if_true]
      exact .nothing rfl
    | none =>
      -- the relay, and then the switch, returning or throwing
      have both : ∀ {t u v : Network}, s.logKnown m p = .ok t → t.forward m = .ok u →
          Voices author u (u.messageSpeech m received p reached) v →
          Voices author s (s.relay m p ++ s.messageSpeech m received p reached) v := by
        intro t u v ht hu hv
        obtain ⟨hum, huc⟩ := relayed_same ht hu
        rw [messageSpeech_congr hum huc] at hv
        exact (forward_voices hl ht hu).trans hv
      simp only [speech, hm, hl, Option.isSome_none, Bool.false_eq_true, if_false]
      simp only [handleIncomingMessage, hm, hl] at h
      split at h
      · rename_i v hv
        obtain ⟨t, ht, hv⟩ := bind_thrown (logKnown_quiet s m p) hv
        obtain ⟨u, hu, hv⟩ := bind_thrown (forward_quiet t m) hv
        cases h
        exact both ht hu (process_thrown_voices hv)
      · obtain ⟨t, ht, h⟩ := bind_ok.mp h
        obtain ⟨u, hu, h⟩ := bind_ok.mp h
        have hum := (relayed_same ht hu).1
        exact both ht hu (process_voices (by rw [hum]; exact ha) (by rw [hum]; exact hs) received
          (by rw [hum]; exact hp) h)

theorem handle_voices {rounds : Nat} {s s' : Network} {e : Event} (hs : s.toMembership.Sound) (he : s.Enabled e)
    (h : handle rounds s e = .ok s') : Voices (s.getId s.localPeer) s (s.speech e) s' := by
  cases e with
  | accept address => cases h; exact .nothing rfl
  | read p received reached => exact handleIncomingMessage_voices rfl hs (hs.listening p he).2 h
  | eof p =>
    have hd := handleDisconnect_ok (s := { s with toMembership := s.stopListening p }) h
    exact .nothing (by rw [hd])
  | readError p => cases h; exact .nothing rfl
  | readyTimer id =>
    simp only [handle] at h
    simp only [speech]
    split at h
    · rename_i t ht
      simp only [ht]
      exact sendReady_voices (s := { s with readyTimers := s.readyTimers.insert id { t with armed := false } }) rfl h
    · rename_i ht
      cases h
      simp only [ht]
      exact .nothing rfl
  | joinTimer id =>
    simp only [handle] at h
    simp only [speech]
    split at h
    · rename_i t ht
      simp only [ht]
      exact checkForNewPeers_voices
        (congrFun (Membership.setState_getId s.toMembership t.peer .connected) s.localPeer) h
    · rename_i ht
      cases h
      simp only [ht]
      exact .nothing rfl
  | join ip port reached => exact join_voices rfl hs h
  | broadcast content =>
    obtain ⟨g, hg, h⟩ := bind_ok.mp h
    have hg := derefLocalGroup_ok.mp hg
    rw [makeChannelMarker_self, broadcast_stamped] at h
    simp only [speech, hg]
    exact own_voices rfl h
  | sendAll message =>
    cases h
    have hv : Voices (s.getId s.localPeer) s _ _ := record_voices s (s.peers.values.map (.sent · message))
    rw [List.map_map] at hv
    exact hv

/-- What a handler that returns has done to the world outside. -/
theorem handle_speech {rounds : Nat} {s s' : Network} {e : Event} (hs : s.toMembership.Sound) (he : s.Enabled e)
    (h : handle rounds s e = .ok s') : Renders (s.getId s.localPeer) (s.speech e) (s.effects s') := by
  obtain ⟨es, hes, hr⟩ := handle_voices hs he h
  rw [effects_append hes]
  exact hr

/-! ## What is not our own -/

/-- The endpoint an event connects us to. -/
def dials (s : Network) : Event → Option (Bytes × Bytes)
  | .join ip port (some _) => some (ip, port)
  | .read _ received (some _) =>
    match parseMessage received with
    | .error _ => none
    | .ok m =>
      if (s.findLog m).isSome then none
      else match m.payload with
        | .joinNotif _ channel groupId _ _ ip port =>
          if s.acknowledges groupId channel then some (ip, itos port.val) else none
        | _ => none
  | _ => none

/-- The effects of an event other than the messages of our own. -/
inductive Plain (s : Network) : Event → Effect → Prop
  | text (p : PeerRef) (message : Bytes) : Plain s (.sendAll message) (.sent p message)
  | connected {e : Event} {ip port : Bytes} (h : s.dials e = some (ip, port)) : Plain s e (.connected s.peerCount ip port)
  | reported (p : PeerRef) (received : Bytes) (reached : Option Bytes) :
    Plain s (.read p received reached) (.reported received)
  | relayed {p : PeerRef} {received marker : Bytes} {reached : Option Bytes} {m : Message}
    (hm : parseMessage received = .ok m) (hb : m.bcastMarker? = some marker) (q : PeerRef) :
    Plain s (.read p received reached) (.sent q m.serialize)
  | displayed {p : PeerRef} {received stamp marker content : Bytes} {reached : Option Bytes}
    (hm : parseMessage received = .ok ⟨stamp, .data marker content⟩) : Plain s (.read p received reached)
      (.displayed (if (s.peer p).isKnown then (s.peer p).id else ascii "@" ++ (s.peer p).address) content)

/-- All utterances are messages of our own. -/
def Own (us : List Utterance) : Prop := ∀ e, .plain e ∉ us

omit [Platform] in
theorem nil_own : Own [] := fun _ h => by cases h

omit [Platform] in
theorem cons_own {targets : List PeerRef} {payload : Payload} {us : List Utterance} (h : Own us) :
    Own (.own targets payload :: us) := by
  intro e he
  rcases List.mem_cons.mp he with he | he
  · cases he
  · exact h e he

omit [Platform] in
theorem ackSpeech_own (m : Membership) (p : PeerRef) : Own (m.ackSpeech p) := by
  unfold Membership.ackSpeech
  split
  · exact nil_own
  · exact cons_own nil_own

theorem answerSpeech_own (m : Membership) (p : PeerRef) (port : Port) : Own (m.answerSpeech p port) := by
  unfold Membership.answerSpeech
  split
  · exact nil_own
  · exact cons_own (ackSpeech_own m p)

theorem checkSpeech_own (m : Membership) : Own m.checkSpeech := by
  unfold Membership.checkSpeech
  split
  · exact nil_own
  · exact answerSpeech_own m _ _

/-- READY makes a node send nothing but READY Notifications. -/
theorem readySpeech_mem : ∀ (gs : List GroupRef) (m : Membership), ∀ u ∈ m.readySpeech gs,
    ∃ targets, u = .own targets .readyNotif := by
  intro gs
  induction gs with
  | nil => intro m u hu; cases hu
  | cons g gs ih =>
    intro m u hu
    rcases List.mem_append.mp hu with hu | hu
    · unfold Membership.readyOneSpeech at hu
      split at hu
      · cases hu
      · split at hu
        · exact ⟨_, List.mem_singleton.mp hu⟩
        · cases hu
    · exact ih _ u hu

omit [Platform] in
theorem relay_plain {s : Network} {m : Message} {p : PeerRef} {u : Utterance} (h : u ∈ s.relay m p) :
    ∃ marker q, m.bcastMarker? = some marker ∧ u = .plain (.sent q m.serialize) := by
  unfold relay at h
  split at h
  · cases h
  · rename_i marker hb
    simp only at h
    split at h
    · cases h
    · obtain ⟨e, he, rfl⟩ := List.mem_map.mp h
      obtain ⟨q, -, rfl⟩ := List.mem_map.mp he
      exact ⟨marker, q, hb, rfl⟩

theorem dials_notif {s : Network} {p : PeerRef} {received stamp marker groupId peerId pubK ip address : Bytes}
    {channel : Bool} {port : Port}
    (hm : parseMessage received = .ok ⟨stamp, .joinNotif marker channel groupId peerId pubK ip port⟩)
    (hl : ¬ (s.findLog ⟨stamp, .joinNotif marker channel groupId peerId pubK ip port⟩).isSome = true)
    (hack : s.acknowledges groupId channel = true) : s.dials (.read p received (some address)) = some (ip, itos port.val) := by
  simp only [dials, hm, hl, hack, if_true, Bool.false_eq_true, if_false]

theorem speech_plain {s : Network} {e : Event} {x : Effect} (h : .plain x ∈ s.speech e) : s.Plain e x := by
  cases e with
  | read p received reached =>
    cases hm : parseMessage received with
    | error err =>
      simp only [speech, hm, List.mem_singleton, Utterance.plain.injEq] at h
      subst h
      exact .reported p received reached
    | ok m =>
      obtain ⟨stamp, payload⟩ := m
      by_cases hl : (s.findLog ⟨stamp, payload⟩).isSome = true
      · simp only [speech, hm, hl, if_true] at h
        cases h
      · simp only [speech, hm, hl, Bool.false_eq_true, if_false] at h
        rcases List.mem_append.mp h with h | h
        · obtain ⟨marker, q, hb, he⟩ := relay_plain h
          cases he
          exact .relayed hm hb q
        · cases payload with
          | join id pubK port =>
            simp only [messageSpeech] at h
            split at h
            · exact absurd h (answerSpeech_own _ _ _ x)
            · cases h
          | joinNotif marker channel groupId peerId pubK ip port =>
            simp only [messageSpeech, notifSpeech] at h
            split at h
            · rename_i hack
              cases reached with
              | none =>
                simp only [List.mem_singleton, Utterance.plain.injEq] at h
                subst h
                exact .reported p received none
              | some address =>
                rcases List.mem_cons.mp h with h | h
                · cases h
                  exact .connected (dials_notif hm hl hack)
                · exact absurd h (ackSpeech_own _ _ x)
            · cases h
          | joinAck groupId peerId pubK => cases h
          | ready =>
            obtain ⟨targets, hu⟩ := readySpeech_mem _ _ _ h
            cases hu
          | readyNotif => exact absurd h (checkSpeech_own _ x)
          | data marker content =>
            simp only [messageSpeech, List.mem_singleton, Utterance.plain.injEq] at h
            subst h
            exact .displayed hm
  | join ip port reached =>
    cases reached with
    | none => cases h
    | some address =>
      rcases List.mem_cons.mp h with h | h
      · cases h
        exact .connected rfl
      · exact absurd h (cons_own nil_own x)
  | sendAll message =>
    obtain ⟨p, -, hp⟩ := List.mem_map.mp h
    cases hp
    exact .text p message
  | accept address => cases h
  | eof p => cases h
  | readError p => cases h
  | readyTimer id =>
    simp only [speech] at h
    split at h
    · cases h
    · exact absurd h (cons_own nil_own x)
  | joinTimer id =>
    simp only [speech] at h
    split at h
    · cases h
    · exact absurd h (checkSpeech_own _ x)
  | broadcast content =>
    simp only [speech] at h
    split at h
    · cases h
    · exact absurd h (cons_own nil_own x)

/-- The connection is made. -/
theorem dials_connected {s : Network} {e : Event} {ip port : Bytes} (h : s.dials e = some (ip, port)) :
    .plain (.connected s.peerCount ip port) ∈ s.speech e := by
  unfold dials at h
  split at h
  · cases h
    exact List.mem_cons_self
  · rename_i p received address
    split at h
    · cases h
    · rename_i m hm
      obtain ⟨stamp, payload⟩ := m
      split at h
      · cases h
      · rename_i hl
        split at h
        · rename_i hp
          obtain rfl : payload = _ := hp
          split at h
          · rename_i hack
            cases h
            simp only [speech, hm, hl, Bool.false_eq_true, if_false, messageSpeech, notifSpeech, hack, if_true]
            exact List.mem_append_right _ List.mem_cons_self
          · cases h
        · cases h
  · cases h

end Network

end RacKun
