/-
  RacKun.Network.Markers — the groups a broadcast message is looked up in.

  The relay of `handle_incoming_message` checks that it knows the marker before it
  looks the group up; `log_message`, which runs first when the emitter is known, does
  not. So an unknown marker from a known peer, and the marker of a group that has been
  cleared, end in a null dereference (`handle_null`).

  - `safe_of_guard` / `guard_of_safe`: exactly when a broadcast message is handled to the
    end, and not relayed unless its group is there.
-/

import RacKun.Network.Soundness

namespace RacKun

open Lib (OrdMap bind_ok pure_ok ok_bind)

open Scenario

namespace Network

/-- `channel_markers` leads from the marker to a group of ours. -/
def MarkerKnown (s : Network) (marker : Bytes) : Prop :=
  ∃ gid g, s.channelMarkers.find? marker = some gid ∧ s.groups.find? gid = some g

variable [Platform]

/-- The message is handled to the end; without a group for its marker, it is not sent on. -/
def MarkerSafe (s : Network) (m : Message) (marker received : Bytes) (p : PeerRef) (reached : Option Bytes) : Prop :=
  ∃ s', s.handleIncomingMessage received p reached = .ok s' ∧
    (¬ s.MarkerKnown marker → ∀ q, Effect.sent q m.serialize ∉ s.effects s')

/-- The message is old, or its group is there; or its marker is unknown to us, and its
    emitter too. What a group with an empty ID adds: an unknown marker leads to it. -/
def MarkerGuard (s : Network) (m : Message) (marker : Bytes) (p : PeerRef) : Prop :=
  (s.findLog m).isSome ∨ s.MarkerKnown marker ∨
    s.channelMarkers.find? marker = none ∧
      ((s.peer p).isKnown = false ∨ ∃ g, s.groups.find? [] = some g ∧ (s.group g).successors.values = [])

/-! ## What follows the lookups -/

theorem sendAck_ok (s : Network) (groupId peerId pubK : Bytes) (p : PeerRef) :
    ∃ s' b, s.send (.joinAck groupId peerId pubK) p = .ok s' ∧ s'.trace = s.trace ++ [.sent p b] ∧
      b.head? = some MessageType.joinAck.code := by
  rw [send_eq]
  obtain ⟨s', hs'⟩ := logMessage_total (s := (s.makeStamp (.joinAck groupId peerId pubK)).2.record
    [.sent p (s.makeStamp (.joinAck groupId peerId pubK)).1.serialize])
    (m := (s.makeStamp (.joinAck groupId peerId pubK)).1) s.localPeer fun marker _ hb => by cases hb
  exact ⟨s', _, hs', (logMessage_logs hs').trace, rfl⟩

theorem acknowledgeJoin_ok {s : Network} {l : GroupRef} (hl : s.localGroup = some l) (p : PeerRef) (g : GroupRef) :
    ∃ s' b, s.acknowledgeJoin p g = .ok s' ∧ s'.trace = s.trace ++ [.sent p b] ∧
      b.head? = some MessageType.joinAck.code := by
  have hl' : ({ s with toMembership := s.takeIn p g } : Network).derefLocalGroup = .ok l := derefLocalGroup_ok.mpr hl
  obtain ⟨t, b, ht, htr, hb⟩ := sendAck_ok { s with toMembership := s.takeIn p g } ((s.takeIn p g).group l).id
    ((s.takeIn p g).getId s.localPeer) ((s.takeIn p g).peer s.localPeer).pubIdKey p
  exact ⟨{ t with toMembership := t.armJoinTimer p g }, b, bind_ok.mpr ⟨l, hl', bind_ok.mpr ⟨t, ht, rfl⟩⟩, htr, hb⟩

theorem processJoinNotif_ok {s : Network} (hs : s.toMembership.Sound) (channel : Bool)
    (groupId peerId pubK ip : Bytes) (port : Port) (reached : Option Bytes) :
    ∃ s' es, outcome (s.processJoinNotif channel groupId peerId pubK ip port reached) = some s' ∧
      s'.trace = s.trace ++ es ∧ ∀ q b, Effect.sent q b ∈ es → b.head? = some MessageType.joinAck.code := by
  have quiet : ∀ q b, Effect.sent q b ∈ ([] : List Effect) → b.head? = some MessageType.joinAck.code :=
    fun _ _ h => by cases h
  unfold processJoinNotif
  cases hg : s.groups.find? groupId with
  | none => exact ⟨s, [], rfl, (List.append_nil _).symm, quiet⟩
  | some g =>
    obtain ⟨l, hl⟩ : ∃ l, s.localGroup = some l := by
      refine Option.ne_none_iff_exists'.mp fun hn => ?_
      rw [(hs.alone hn).1] at hg
      cases hg
    simp only [derefLocalGroup_ok.mpr hl, ok_bind]
    split
    · cases reached with
      | none => exact ⟨_, [], rfl, (List.append_nil _).symm, quiet⟩
      | some address =>
        have hl' : ((({ s.toMembership with joinToken := false }.newPeer address).enrol s.peerCount peerId
            pubK).localGroup = some l) := hl
        obtain ⟨t, b, ht, htr, hb⟩ := acknowledgeJoin_ok (s := { s with
          toMembership := ({ s.toMembership with joinToken := false }.newPeer address).enrol s.peerCount peerId pubK
          trace := s.trace ++ [.connected s.peerCount ip (itos port.val)] }) hl' s.peerCount g
        refine ⟨t, [.connected s.peerCount ip (itos port.val), .sent s.peerCount b], congrArg outcome ht, ?_, ?_⟩
        · rw [htr, List.append_assoc]
          rfl
        · intro q b' hq
          rcases List.mem_cons.mp hq with hq | hq
          · cases hq
          · cases List.mem_singleton.mp hq
            exact hb
    · split
      · split <;> exact ⟨_, [], rfl, (List.append_nil _).symm, quiet⟩
      · exact ⟨s, [], rfl, (List.append_nil _).symm, quiet⟩

/-- Once a broadcast message is logged and relayed, nothing can go wrong, and it is not
    sent again. -/
theorem process_ok {s : Network} (hs : s.toMembership.Sound) {m : Message} {marker : Bytes}
    (hb : m.bcastMarker? = some marker) (p : PeerRef) (reached : Option Bytes) :
    ∃ s' es, outcome (s.process m p reached) = some s' ∧ s'.trace = s.trace ++ es ∧
      ∀ q, Effect.sent q m.serialize ∉ es := by
  obtain ⟨stamp, payload⟩ := m
  cases payload with
  | data marker' content =>
    refine ⟨_, _, rfl, rfl, fun q hq => ?_⟩
    cases List.mem_singleton.mp hq
  | joinNotif marker' channel groupId peerId pubK ip port =>
    obtain ⟨s', es, ho, ht, he⟩ := processJoinNotif_ok hs channel groupId peerId pubK ip port reached
    exact ⟨s', es, ho, ht, fun q hq => absurd (he q _ hq) (by simp [Message.serialize, Message.type, Payload.type,
      MessageType.code])⟩
  | join id pubK port => cases hb
  | joinAck groupId peerId pubK => cases hb
  | ready => cases hb
  | readyNotif => cases hb

/-! ## The lookups -/

/-- A relay sends the message to the group's successors. -/
theorem broadcast_ok {s : Network} {m : Message} {marker : Bytes} {g g' : GroupRef} (hb : m.bcastMarker? = some marker)
    (hg : s.groups.find? (s.markerGid marker) = some g') : ∃ s', s.broadcast g m false = .ok s' ∧
      s'.toMembership = s.toMembership ∧
      s'.trace = s.trace ++ (s.group g).successors.values.map (.sent · m.serialize) := by
  rw [broadcast_relayed]
  obtain ⟨s', hs'⟩ := logMessage_total
    (s := s.record ((s.group g).successors.values.map (.sent · m.serialize))) (m := m) s.localPeer
    fun marker' _ hb' => by
      cases hb.symm.trans hb'
      exact fun hn => by cases hg.symm.trans hn
  exact ⟨s', hs', (logMessage_logs hs').membership, (logMessage_logs hs').trace⟩

theorem forward_known {s : Network} {m : Message} {marker gid : Bytes} {g : GroupRef}
    (hb : m.bcastMarker? = some marker) (hm : s.channelMarkers.find? marker = some gid)
    (hg : s.groups.find? gid = some g) : ∃ s', s.forward m = .ok s' ∧ s'.toMembership = s.toMembership ∧
      s'.trace = s.trace ++ (s.group g).successors.values.map (.sent · m.serialize) := by
  simp only [forward, hb, hm, hg]
  exact broadcast_ok hb (by rw [markerGid, hm]; exact hg)

theorem forward_unknown {s : Network} {m : Message} {marker : Bytes} (hb : m.bcastMarker? = some marker)
    (hm : s.channelMarkers.find? marker = none) : s.forward m = .ok s := by
  simp only [forward, hb, hm]
  rfl

theorem forward_null {s : Network} {m : Message} {marker gid : Bytes} (hb : m.bcastMarker? = some marker)
    (hm : s.channelMarkers.find? marker = some gid) (hg : s.groups.find? gid = none) :
    s.forward m = .error (.fault .nullGroup) := by
  simp only [forward, hb, hm, hg]
  rfl

omit [Platform] in
theorem logKnown_new {s : Network} {m : Message} {p : PeerRef} (hk : (s.peer p).isKnown = false) :
    s.logKnown m p = .ok s := by
  simp only [logKnown, hk]
  rfl

omit [Platform] in
theorem logKnown_ok {s : Network} {m : Message} {marker : Bytes} (p : PeerRef)
    (hb : m.bcastMarker? = some marker) (hg : s.groups.find? (s.markerGid marker) ≠ none) :
    ∃ s', s.logKnown m p = .ok s' ∧ s'.toMembership = s.toMembership ∧ s'.trace = s.trace ∧
      (s'.channelMarkers.find? marker = s.channelMarkers.find? marker ∨
        s.channelMarkers.find? marker = none ∧ s'.channelMarkers.find? marker = some []) := by
  cases hk : (s.peer p).isKnown with
  | false => exact ⟨s, logKnown_new hk, rfl, rfl, Or.inl rfl⟩
  | true =>
    obtain ⟨s', hs'⟩ := logMessage_total (s := s) (m := m) p fun marker' _ hb' => by
      cases hb.symm.trans hb'
      exact hg
    have hl := logMessage_logs hs'
    exact ⟨s', by rw [logKnown, if_pos hk, hs'], hl.membership, hl.trace,
      (hl.markers marker).imp id fun h => ⟨h.1, h.2.2.2⟩⟩

omit [Platform] in
/-- A new message of a known emitter enters its marker. -/
theorem logKnown_enters {s : Network} {m : Message} {marker : Bytes} {g : GroupRef} {p : PeerRef}
    (hl : s.findLog m = none) (hb : m.bcastMarker? = some marker) (hk : (s.peer p).isKnown = true)
    (hg : s.groups.find? (s.markerGid marker) = some g) : ∃ s', s.logKnown m p = .ok s' ∧
      s'.toMembership = s.toMembership ∧ s'.trace = s.trace ∧
      s'.channelMarkers.find? marker = some (s.markerGid marker) := by
  have hf : (s.channelMarkers.insertNew marker []).find? marker = some (s.markerGid marker) := by
    rw [OrdMap.find_insertNew, if_pos rfl]
    rfl
  refine ⟨_, by rw [logKnown, if_pos hk, logMessage_eq p (enterLog_broadcast hl hb hg)], ?_⟩
  split <;> exact ⟨rfl, rfl, hf⟩

omit [Platform] in
theorem logKnown_null {s : Network} {m : Message} {marker : Bytes} {p : PeerRef} (hl : s.findLog m = none)
    (hb : m.bcastMarker? = some marker) (hk : (s.peer p).isKnown = true)
    (hg : s.groups.find? (s.markerGid marker) = none) : s.logKnown m p = .error (.fault .nullGroup) := by
  rw [logKnown, if_pos hk]
  exact logMessage_null p hl hb hg

/-! ## A broadcast message, from start to end -/

/-- A new message that gets past its lookups is handled to the end. -/
theorem handle_relayed {s t u : Network} (hs : s.toMembership.Sound) {m : Message} {marker received : Bytes}
    {p : PeerRef} (reached : Option Bytes) (es : List Effect) (hm : parseMessage received = .ok m)
    (hb : m.bcastMarker? = some marker) (hl : s.findLog m = none) (ht : s.logKnown m p = .ok t)
    (hu : t.forward m = .ok u) (hum : u.toMembership = s.toMembership) (hut : u.trace = s.trace ++ es) :
    ∃ s' es', s.handleIncomingMessage received p reached = .ok s' ∧ s.effects s' = es ++ es' ∧
      ∀ q, Effect.sent q m.serialize ∉ es' := by
  obtain ⟨v, es', hv, hvt, he⟩ := process_ok (hum ▸ hs) hb p reached
  have hr : s.receive m p reached = u.process m p reached := by
    rw [receive, ht, ok_bind, hu, ok_bind]
  have hvt' : v.trace = s.trace ++ (es ++ es') := by rw [hvt, hut, List.append_assoc]
  simp only [handleIncomingMessage, hm, hl, hr]
  unfold outcome at hv
  split at hv
  · rename_i w hw
    cases hv
    exact ⟨_, es', by rw [hw], effects_append hvt', he⟩
  · rename_i w hw
    cases hv
    refine ⟨_, es' ++ [.reported received], by rw [hw]; rfl, effects_append ?_, fun q hq => ?_⟩
    · show v.trace ++ [.reported received] = _
      rw [hvt', List.append_assoc, List.append_assoc]
    · rcases List.mem_append.mp hq with hq | hq
      · exact he q hq
      · cases List.mem_singleton.mp hq
  · cases hv

/-- A message whose lookup fails stops the node. -/
theorem handle_null {s : Network} {m : Message} {received : Bytes} {p : PeerRef} {reached : Option Bytes}
    (hm : parseMessage received = .ok m) (hl : s.findLog m = none)
    (hr : (do (← s.logKnown m p).forward m) = .error (.fault .nullGroup)) :
    s.handleIncomingMessage received p reached = .error (.fault .nullGroup) := by
  have : s.receive m p reached = .error (.fault .nullGroup) := by
    cases ht : s.logKnown m p with
    | error e =>
      rw [ht] at hr
      cases hr
      rw [receive, ht]
      rfl
    | ok t =>
      rw [ht, ok_bind] at hr
      rw [receive, ht, ok_bind, hr]
      rfl
  simp only [handleIncomingMessage, hm, hl, this]

theorem safe_of_guard {s : Network} (hs : s.toMembership.Sound) {m : Message} {marker received : Bytes} {p : PeerRef}
    {reached : Option Bytes} (hm : parseMessage received = .ok m) (hb : m.bcastMarker? = some marker)
    (h : s.MarkerGuard m marker p) : s.MarkerSafe m marker received p reached := by
  cases hl : s.findLog m with
  | some l =>
    have he : s.effects { s with logs := s.logs.ack (stampOf m) (s.getId p) } = [] :=
      effects_append (List.append_nil _).symm
    exact ⟨_, handle_logged p reached hm hl, fun _ q hq => by rw [he] at hq; cases hq⟩
  | none =>
    rcases h with h | ⟨gid, g, hg₁, hg₂⟩ | ⟨hn, h⟩
    · rw [hl] at h
      cases h
    · -- the lookups succeed, in the logging and in the relay
      have hgid : s.groups.find? (s.markerGid marker) = some g := by rw [markerGid, hg₁]; exact hg₂
      obtain ⟨t, ht, htm, htt, hc⟩ := logKnown_ok p hb (by rw [hgid]; exact Option.some_ne_none g)
      have htg : t.channelMarkers.find? marker = some gid := by
        rcases hc with hc | hc
        · rw [hc, hg₁]
        · rw [hg₁] at hc
          cases hc.1
      obtain ⟨u, hu, hum, hut⟩ := forward_known hb htg (by rw [htm]; exact hg₂)
      rw [htt] at hut
      obtain ⟨s', es', hs', -, -⟩ := handle_relayed hs reached _ hm hb hl ht hu (hum.trans htm) hut
      exact ⟨s', hs', fun hk => absurd ⟨gid, g, hg₁, hg₂⟩ hk⟩
    · rcases h with hk | ⟨g, hg, hsucc⟩
      · -- an unknown emitter: nothing is logged, nothing is relayed
        obtain ⟨s', es', hs', he, hno⟩ := handle_relayed hs reached [] hm hb hl (logKnown_new hk)
          (forward_unknown hb hn) rfl (List.append_nil _).symm
        exact ⟨s', hs', fun _ q hq => hno q (by rwa [he, List.nil_append] at hq)⟩
      · -- the unknown marker is entered for the group with the empty ID, which relays to nobody
        have hgid : s.groups.find? (s.markerGid marker) = some g := by rw [markerGid, hn]; exact hg
        obtain ⟨t, ht, htm, htt, hc⟩ := logKnown_ok p hb (by rw [hgid]; exact Option.some_ne_none g)
        have hu : ∃ u, t.forward m = .ok u ∧ u.toMembership = s.toMembership ∧ u.trace = s.trace ++ [] := by
          rcases hc with hc | ⟨-, hc⟩
          · exact ⟨t, forward_unknown hb (hc.trans hn), htm, by rw [htt, List.append_nil]⟩
          · obtain ⟨u, hu, hum, hut⟩ := forward_known hb hc (by rw [htm]; exact hg)
            refine ⟨u, hu, hum.trans htm, ?_⟩
            rw [hut, htt, htm, hsucc]
            rfl
        obtain ⟨u, hu, hum, hut⟩ := hu
        obtain ⟨s', es', hs', he, hno⟩ := handle_relayed hs reached _ hm hb hl ht hu hum hut
        exact ⟨s', hs', fun _ q hq => hno q (by rwa [he, List.nil_append] at hq)⟩

theorem guard_of_safe {s : Network} (hs : s.toMembership.Sound) {m : Message} {marker received : Bytes} {p : PeerRef}
    {reached : Option Bytes} (hm : parseMessage received = .ok m) (hb : m.bcastMarker? = some marker)
    (h : s.MarkerSafe m marker received p reached) : s.MarkerGuard m marker p := by
  by_contra hc
  simp only [MarkerGuard, not_or, not_and, not_exists] at hc
  obtain ⟨hl, hk, hc⟩ := hc
  have hl : s.findLog m = none := by simpa using hl
  obtain ⟨s', hs', hno⟩ := h
  have stops : (do (← s.logKnown m p).forward m) ≠ .error (.fault .nullGroup) := fun hr => by
    cases hs'.symm.trans (handle_null hm hl hr)
  cases hn : s.channelMarkers.find? marker with
  | some gid =>
    -- the marker of a group that is gone: the first lookup faults, or the relay does
    have hg : s.groups.find? gid = none := by
      cases hg : s.groups.find? gid with
      | none => rfl
      | some g => exact absurd ⟨gid, g, hn, hg⟩ hk
    refine stops ?_
    cases hp : (s.peer p).isKnown with
    | true => rw [logKnown_null hl hb hp (by rw [markerGid, hn]; exact hg)]; rfl
    | false => rw [logKnown_new hp, ok_bind]; exact forward_null hb hn hg
  | none =>
    obtain ⟨hp, hg⟩ := hc hn
    have hp : (s.peer p).isKnown = true := by simpa using hp
    cases hf : s.groups.find? [] with
    | none =>
      refine stops ?_
      rw [logKnown_null hl hb hp (by rw [markerGid, hn]; exact hf)]
      rfl
    | some g =>
      -- logging has entered the marker, so the relay finds the group and sends the message on
      have hgid : s.groups.find? (s.markerGid marker) = some g := by rw [markerGid, hn]; exact hf
      obtain ⟨t, ht, htm, htt, htg⟩ := logKnown_enters hl hb hp hgid
      have htg : t.channelMarkers.find? marker = some [] := by rw [htg, markerGid, hn]; rfl
      obtain ⟨u, hu, hum, hut⟩ := forward_known hb htg (by rw [htm]; exact hf)
      rw [htt] at hut
      obtain ⟨v, es', hv, he, -⟩ := handle_relayed hs reached _ hm hb hl ht hu (hum.trans htm) hut
      cases hs'.symm.trans hv
      obtain ⟨q, hq⟩ := List.exists_mem_of_ne_nil _ (hg g hf)
      refine hno (fun ⟨_, _, hk', _⟩ => by cases hn.symm.trans hk') q ?_
      rw [he, htm]
      exact List.mem_append_left _ (List.mem_map_of_mem hq)

/-- A broadcast message that is guarded against, and no other, is handled to the end and
    relayed only within a group of ours. -/
theorem marker_safety {s : Network} (hs : Reachable s) {m : Message} {marker received : Bytes} {p : PeerRef}
    {reached : Option Bytes} (hm : parseMessage received = .ok m) (hb : m.bcastMarker? = some marker) :
    s.MarkerSafe m marker received p reached ↔ s.MarkerGuard m marker p :=
  ⟨guard_of_safe hs.sound hm hb, safe_of_guard hs.sound hm hb⟩

omit [Platform] in
/-- Data for a channel we do not know, from a stranger, does no harm. -/
theorem stray_data_ignored : ∃ s, @Reachable sha1 s ∧ s.Enabled (.read 1 (msg 66 (.data (idOf 67) [])) none) ∧
    @MarkerSafe sha1 s ⟨idOf 66, .data (idOf 67) []⟩ (idOf 67) (msg 66 (.data (idOf 67) [])) 1 none := by
  have hrun : @leadsTo sha1 (fun _ _ => True) _ node [.accept [9]] (fun s =>
      decide (s.Enabled (.read 1 (msg 66 (.data (idOf 67) [])) none) ∧ s.channelMarkers.find? (idOf 67) = none ∧
        (s.peer 1).isKnown = false)) = true := by
    decide +kernel
  obtain ⟨s, hs, ht⟩ := @reach_of_leadsTo sha1 _ _ _ _ _ _ _ _ hrun
  obtain ⟨he, hn, hk⟩ := of_decide_eq_true ht
  exact ⟨s, hs, he, (@marker_safety sha1 s hs _ _ _ 1 none (by decide +kernel) rfl).mpr
    (Or.inr (Or.inr ⟨hn, Or.inl hk⟩))⟩

omit [Platform] in
/-- A peer joins through us, then broadcasts the same data. -/
theorem stray_marker : ¬ ∀ s, @Reachable sha1 s → ∀ m marker received p reached,
    s.Enabled (.read p received reached) → @parseMessage sha1 received = .ok m → m.bcastMarker? = some marker →
    @MarkerSafe sha1 s m marker received p reached := by
  intro h
  have hrun : @leadsTo sha1 (fun _ _ => True) _ node [.accept [9], .read 1 (request 65) none]
      (fun s => decide (s.Enabled (.read 1 (msg 66 (.data (idOf 67) [])) none)) &&
        match @handleIncomingMessage sha1 s (msg 66 (.data (idOf 67) [])) 1 none with
        | .error _ => true
        | .ok _ => false) = true := by
    decide +kernel
  obtain ⟨s, hs, ht⟩ := @reach_of_leadsTo sha1 _ _ _ _ _ _ _ _ hrun
  obtain ⟨he, ht⟩ := Bool.and_eq_true_iff.mp ht
  obtain ⟨s', hs', -⟩ := h s hs ⟨idOf 66, .data (idOf 67) []⟩ (idOf 67) (msg 66 (.data (idOf 67) [])) 1 none
    (of_decide_eq_true he) (by decide +kernel) rfl
  rw [hs'] at ht
  cases ht

end Network

end RacKun
