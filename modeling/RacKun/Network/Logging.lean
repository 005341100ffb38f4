/-
  RacKun.Network.Logging — what `log_message`, `broadcast` and the relay do to the log,
  the markers and the wire.

  A message is logged once: later calls find the entry and only count the reception.
  The first call for a broadcast message looks its group up through the channel
  markers, and is the only place besides the relay that does.

  - `enterLog_broadcast` / `enterLog_null`: the lookup, found and not found.
  - `logMessage_logs`: what logging leaves alone.
  - `handle_logged`: a logged message that comes again.
-/

import RacKun.Network.Handlers

namespace RacKun

open Lib (OrdMap bind_ok pure_ok ok_bind)

/-! ## The history -/

namespace History

theorem find_insert {h : History} {l : MessageLog} (hn : h.find? l.stamp = none) (stamp : Bytes) :
    (h.insert l).find? stamp = if stamp = l.stamp then some l else h.find? stamp := by
  have hm : l.stamp ∉ h.entries.map MessageLog.stamp := by
    intro hm
    obtain ⟨l', hl', he⟩ := List.mem_map.mp hm
    exact (List.find?_eq_none.mp hn l' hl') (by simpa using he)
  simp only [History.insert, dif_neg hm, History.find?, List.find?_append]
  by_cases hs : stamp = l.stamp
  · subst hs
    have hn' : h.entries.find? (fun l' => decide (l'.stamp = l.stamp)) = none := hn
    simp [hn']
  · have hl : ([l] : List MessageLog).find? (fun l' => decide (l'.stamp = stamp)) = none := by
      simp [Ne.symm hs]
    rw [hl, if_neg hs, Option.or_none]

theorem find_ack (h : History) (stamp id : Bytes) (q : Bytes) :
    (h.ack stamp id).find? q = (h.find? q).map fun l => if q = stamp then l.ack id else l := by
  obtain ⟨entries, hu⟩ := h
  simp only [History.ack, History.find?]
  induction entries with
  | nil => rfl
  | cons l entries ih =>
    have ih := ih (List.nodup_cons.mp (by simpa using hu)).2
    have hst : (if l.stamp = stamp then l.ack id else l).stamp = l.stamp := by split <;> rfl
    rw [List.map_cons, List.find?_cons, List.find?_cons, hst]
    by_cases hq : l.stamp = q
    · subst hq
      simp
    · simp only [hq, decide_false]
      exact ih

end History

namespace Network

/-! ## Logging -/

/-- The group ID a marker stands for; an unknown marker gets an empty one. -/
def markerGid (s : Network) (marker : Bytes) : Bytes := (s.channelMarkers.find? marker).getD []

theorem enterLog_logged {s : Network} {m : Message} {l : MessageLog} (h : s.findLog m = some l) :
    s.enterLog m = .ok s := by
  simp only [enterLog, h]

theorem enterLog_plain {s : Network} {m : Message} (h : s.findLog m = none) (hb : m.bcastMarker? = none) :
    s.enterLog m = .ok { s with logs := s.logs.insert ⟨m.serialize, ∅⟩ } := by
  simp only [enterLog, h, hb]

theorem markerGroup_eq (s : Network) (marker : Bytes) : s.markerGroup marker =
    match s.groups.find? (s.markerGid marker) with
    | some g => .ok (g, { s with channelMarkers := s.channelMarkers.insertNew marker [] })
    | none => .error (.fault .nullGroup) := by
  have hf : ((s.channelMarkers.insertNew marker []).find? marker).getD [] = s.markerGid marker := by
    rw [OrdMap.find_insertNew, if_pos rfl]
    rfl
  cases hg : s.groups.find? (s.markerGid marker) with
  | some g => simp only [markerGroup, hf, hg]
  | none => simp only [markerGroup, hf, hg]

theorem enterLog_broadcast {s : Network} {m : Message} {marker : Bytes} {g : GroupRef} (h : s.findLog m = none)
    (hb : m.bcastMarker? = some marker) (hg : s.groups.find? (s.markerGid marker) = some g) :
    s.enterLog m = .ok { s with
      channelMarkers := s.channelMarkers.insertNew marker []
      logs := s.logs.insert ⟨m.serialize, s.expected g⟩ } := by
  simp only [enterLog, h, hb, markerGroup_eq, hg]
  rfl

theorem enterLog_null {s : Network} {m : Message} {marker : Bytes} (h : s.findLog m = none)
    (hb : m.bcastMarker? = some marker) (hg : s.groups.find? (s.markerGid marker) = none) :
    s.enterLog m = .error (.fault .nullGroup) := by
  simp only [enterLog, h, hb, markerGroup_eq, hg]

theorem logMessage_eq {s t : Network} {m : Message} (p : PeerRef) (h : s.enterLog m = .ok t) :
    s.logMessage m p =
      .ok (if (t.peer p).isLocal then t else { t with logs := t.logs.ack (stampOf m) (t.getId p) }) := by
  rw [logMessage, h, ok_bind]
  rfl

theorem logMessage_null {s : Network} {m : Message} {marker : Bytes} (p : PeerRef) (h : s.findLog m = none)
    (hb : m.bcastMarker? = some marker) (hg : s.groups.find? (s.markerGid marker) = none) :
    s.logMessage m p = .error (.fault .nullGroup) := by
  rw [logMessage, enterLog_null h hb hg]
  rfl

/-- What every call of `log_message` leaves alone, and what it establishes. -/
structure Logs (s s' : Network) (m : Message) : Prop where
  membership : s'.toMembership = s.toMembership
  trace : s'.trace = s.trace
  clock : s'.clock = s.clock
  logged : (s'.findLog m).isSome
  markers : ∀ marker, s'.channelMarkers.find? marker = s.channelMarkers.find? marker ∨
    s.channelMarkers.find? marker = none ∧ m.bcastMarker? = some marker ∧ s.findLog m = none ∧
      s'.channelMarkers.find? marker = some []

theorem findLog_insert {s s' : Network} {m : Message} {control : OrdMap Bytes Nat} (h : s.findLog m = none)
    (hs : s'.logs = s.logs.insert ⟨m.serialize, control⟩) : s'.findLog m = some ⟨m.serialize, control⟩ := by
  rw [findLog, hs]
  exact (History.find_insert (l := ⟨m.serialize, control⟩) h _).trans (if_pos rfl)

theorem enterLog_logs {s s' : Network} {m : Message} (h : s.enterLog m = .ok s') : s.Logs s' m := by
  cases hl : s.findLog m with
  | some l =>
    rw [enterLog_logged hl] at h
    cases h
    exact ⟨rfl, rfl, rfl, by rw [hl]; rfl, fun _ => Or.inl rfl⟩
  | none =>
    cases hb : m.bcastMarker? with
    | none =>
      rw [enterLog_plain hl hb] at h
      cases h
      exact ⟨rfl, rfl, rfl, by rw [findLog_insert hl rfl]; rfl, fun _ => Or.inl rfl⟩
    | some marker =>
      cases hg : s.groups.find? (s.markerGid marker) with
      | none => rw [enterLog_null hl hb hg] at h; cases h
      | some g =>
        rw [enterLog_broadcast hl hb hg] at h
        cases h
        refine ⟨rfl, rfl, rfl, by rw [findLog_insert hl rfl]; rfl, fun marker' => ?_⟩
        show (s.channelMarkers.insertNew marker []).find? marker' = _ ∨ _
        rw [OrdMap.find_insertNew]
        split
        · rename_i he
          subst he
          cases hm : s.channelMarkers.find? marker' with
          | none => exact Or.inr ⟨rfl, hb, hl, rfl⟩
          | some gid => exact Or.inl rfl
        · exact Or.inl rfl

theorem logMessage_logs {s s' : Network} {m : Message} {p : PeerRef} (h : s.logMessage m p = .ok s') :
    s.Logs s' m := by
  obtain ⟨t, ht, h⟩ := bind_ok.mp h
  have hl := enterLog_logs ht
  rw [← pure_ok.mp h]
  split
  · exact hl
  · refine ⟨hl.membership, hl.trace, hl.clock, ?_, hl.markers⟩
    have hf := History.find_ack t.logs (stampOf m) (t.getId p) (stampOf m)
    rw [findLog, hf, Option.isSome_map]
    exact hl.logged

/-- Logging fails only when the message is new, broadcast, and its group missing. -/
theorem logMessage_total {s : Network} {m : Message} (p : PeerRef) (h : ∀ marker, s.findLog m = none →
    m.bcastMarker? = some marker → s.groups.find? (s.markerGid marker) ≠ none) : ∃ s', s.logMessage m p = .ok s' := by
  suffices ∃ t, s.enterLog m = .ok t by
    obtain ⟨t, ht⟩ := this
    exact ⟨_, logMessage_eq p ht⟩
  cases hl : s.findLog m with
  | some l => exact ⟨s, enterLog_logged hl⟩
  | none =>
    cases hb : m.bcastMarker? with
    | none => exact ⟨_, enterLog_plain hl hb⟩
    | some marker =>
      obtain ⟨g, hg⟩ := Option.ne_none_iff_exists'.mp (h marker hl hb)
      exact ⟨_, enterLog_broadcast hl hb hg⟩

/-- Further copies of a logged message are counted and dropped. -/
theorem handle_logged [Platform] {s : Network} {m : Message} {l : MessageLog} {received : Bytes} (p : PeerRef)
    (reached : Option Bytes) (hm : parseMessage received = .ok m) (hl : s.findLog m = some l) :
    s.handleIncomingMessage received p reached =
      .ok { s with logs := s.logs.ack (stampOf m) (s.getId p) } := by
  simp only [handleIncomingMessage, hm, hl]
  rfl

end Network

end RacKun
