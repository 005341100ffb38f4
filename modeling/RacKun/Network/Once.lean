/-
  RacKun.Network.Once — a message is processed once, as long as it is logged when it is.

  A copy is recognised by the log. Whether a message gets there is decided in four places:
  before the relay, when the emitter is known; by the relay, when the marker is known; and
  in the switch, for a JOIN and a JOIN Acknowledgement. A READY or a READY Notification
  from an emitter that is not known, or a broadcast under a marker that is not, misses all
  of them (`LogsRead` says when one of them is taken).

  - `switched_logged`: a message processed by such an event is logged after it.
  - `Remembered.step`: what has been processed or sent is in the log.
-/

import RacKun.Network.Past
import RacKun.Network.Talk

namespace RacKun

open Lib (OrdMap bind_ok pure_ok ok_bind)

open Scenario

namespace Network

variable [Platform]

/-- The message for which an event executes the switch. -/
def switched (s : Network) : Event → Option Message
  | .read p received _ =>
    match parseMessage received with
    | .error _ => none
    | .ok m =>
      match s.findLog m with
      | some _ => none
      | none =>
        match (do (← s.logKnown m p).forward m) with
        | .ok _ => some m
        | .error _ => none
  | _ => none

/-- The stamps of the messages processed so far. -/
def processed (h : Steps) : List Bytes := h.filterMap fun x => (x.1.switched x.2).map stampOf

/-- A message with this stamp has been sent. -/
def HasSent (s : Network) (stamp : Bytes) : Prop :=
  ∃ q bytes m, .sent q bytes ∈ s.trace ∧ parseMessage bytes = .ok m ∧ stampOf m = stamp

/-- Nothing is processed twice, and a copy of what has been processed or sent is counted
    and dropped. -/
structure OnceOnly (h : Steps) (s : Network) : Prop where
  processed : (processed h).Nodup
  dropped : ∀ received m p reached, parseMessage received = .ok m → stampOf m ∈ Network.processed h ∨ s.HasSent (stampOf m) →
    s.handleIncomingMessage received p reached = .ok { s with logs := s.logs.ack (stampOf m) (s.getId p) }

/-- The message is of a type the switch logs. -/
def LoggedType : Payload → Prop
  | .join .. => True
  | .joinAck .. => True
  | _ => False

instance : (payload : Payload) → Decidable (LoggedType payload)
  | .join .. | .joinAck .. => inferInstanceAs (Decidable True)
  | .joinNotif .. | .ready | .readyNotif | .data .. => inferInstanceAs (Decidable False)

/-- A new message comes from an emitter we know, or is of a type the switch logs, or has a
    marker we know; and what the user sends to all is not a message that is not logged. -/
def LogsRead (s : Network) : Event → Prop
  | .read p received _ => ∀ m ∈ (parseMessage received).toOption, s.findLog m = none →
      (s.peer p).isKnown = true ∨ LoggedType m.payload ∨
        ∃ marker ∈ m.bcastMarker?, s.channelMarkers.contains marker = true
  | .sendAll message => ∀ m ∈ (parseMessage message).toOption, s.findLog m ≠ none
  | _ => True

instance (s : Network) : (e : Event) → Decidable (s.LogsRead e)
  | .read _ received _ => inferInstanceAs (Decidable (∀ m ∈ (parseMessage received).toOption, _ → _))
  | .sendAll message => inferInstanceAs (Decidable (∀ m ∈ (parseMessage message).toOption, _))
  | .accept _ | .eof _ | .readError _ | .readyTimer _ | .joinTimer _ | .join .. | .broadcast _ =>
    inferInstanceAs (Decidable True)

/-! ## What is processed is logged -/

theorem switched_read {s : Network} {e : Event} {m : Message} (h : s.switched e = some m) : ∃ p received reached,
    e = .read p received reached ∧ parseMessage received = .ok m ∧ s.findLog m = none := by
  cases e with
  | read p received reached =>
    refine ⟨p, received, reached, rfl, ?_⟩
    simp only [switched] at h
    split at h
    · cases h
    · rename_i m' hm
      split at h
      · cases h
      · rename_i hl
        split at h
        · cases h
          exact ⟨hm, hl⟩
        · cases h
  | accept address => cases h
  | eof p => cases h
  | readError p => cases h
  | readyTimer id => cases h
  | joinTimer id => cases h
  | join ip port reached => cases h
  | broadcast content => cases h
  | sendAll message => cases h

/-- The relay logs a message whose marker is known. -/
theorem forward_logged {s s' : Network} {m : Message} {marker : Bytes} (hb : m.bcastMarker? = some marker)
    (hc : s.channelMarkers.contains marker = true) (h : s.forward m = .ok s') : (s'.findLog m).isSome := by
  obtain ⟨gid, hgid⟩ := OrdMap.contains_iff.mp hc
  simp only [forward, hb, hgid] at h
  split at h
  · cases h
  · rw [broadcast_relayed] at h
    exact (logMessage_logs h).logged

/-- So does the switch, for two types. -/
theorem process_logged {s s' : Network} {m : Message} {p : PeerRef} {reached : Option Bytes}
    (ht : LoggedType m.payload) (h : outcome (s.process m p reached) = some s') : (s'.findLog m).isSome := by
  unfold process at h
  cases hm : m.payload with
  | join id pubK port =>
    simp only [hm, processJoin_eq] at h
    obtain ⟨t, htm, h⟩ := outcome_bind (x := s.greeted m p id pubK) (logMessage_quiet _ _ _) h
    have hl : (t.findLog m).isSome := (logMessage_logs htm).logged
    split at h
    · exact (answerJoinRequest_talks (outcome_quiet (answerJoinRequest_quiet _ _ _) h)).logs _ hl
    · cases h
      exact hl
  | joinAck groupId peerId pubK =>
    simp only [hm] at h
    exact (logMessage_logs (outcome_quiet (logMessage_quiet _ _ _) h)).logged
  | joinNotif marker channel groupId peerId pubK ip port => rw [hm] at ht; cases ht
  | ready => rw [hm] at ht; cases ht
  | readyNotif => rw [hm] at ht; cases ht
  | data marker content => rw [hm] at ht; cases ht

theorem switched_logged {rounds : Nat} {s s' : Network} {e : Event} {m : Message} (hm : s.switched e = some m)
    (ha : s.LogsRead e) (h : handle rounds s e = .ok s') : (s'.findLog m).isSome := by
  obtain ⟨p, received, reached, rfl, hp, hl⟩ := switched_read hm
  obtain ⟨t, u, v, ht, hu, hv, hs'⟩ := handle_received hp hl h
  have hlog : (v.findLog m).isSome := by
    rcases ha m (by rw [hp]; rfl) hl with hk | hty | ⟨marker, hb, hc⟩
    · rw [logKnown, if_pos hk] at ht
      exact (process_talks hv).logs _ ((forward_talks hu).logs _ (logMessage_logs ht).logged)
    · exact process_logged hty hv
    · obtain ⟨gid, hgid⟩ := OrdMap.contains_iff.mp hc
      have hc' := OrdMap.contains_iff.mpr ⟨gid, (logKnown_talks ht).markers _ _ hgid⟩
      exact (process_talks hv).logs _ (forward_logged hb hc' hu)
  rcases hs' with rfl | rfl <;> exact hlog

/-! ## Runs -/

/-- What has been processed or sent is in the log. -/
structure Remembered (h : Steps) (s : Network) : Prop where
  processed : ∀ stamp ∈ processed h, (s.logs.find? stamp).isSome
  sent : ∀ stamp, s.HasSent stamp → (s.logs.find? stamp).isSome

theorem Remembered.step {h : Steps} {s s' : Network} {e : Event} {rounds : Nat} (hr : Remembered h s) (ha : s.LogsRead e)
    (hh : handle rounds s e = .ok s') : Remembered ((s, e) :: h) s' := by
  have keeps : ∀ stamp, (s.logs.find? stamp).isSome → (s'.logs.find? stamp).isSome := by
    intro stamp hs
    by_cases he : ∃ message, e = .sendAll message
    · obtain ⟨message, rfl⟩ := he
      cases hh
      exact hs
    · exact (handle_talks (fun message hm => he ⟨message, hm⟩) hh).logs _ hs
  constructor
  · intro stamp hs
    rw [Network.processed, List.filterMap_cons] at hs
    split at hs
    · exact keeps _ (hr.processed _ hs)
    · rename_i x hx
      rcases List.mem_cons.mp hs with rfl | hs
      · obtain ⟨m, hm, rfl⟩ := Option.map_eq_some_iff.mp hx
        exact switched_logged hm ha hh
      · exact keeps _ (hr.processed _ hs)
  · rintro stamp ⟨q, bytes, m, hq, hm, rfl⟩
    have old : .sent q bytes ∈ s.trace → (s'.logs.find? (stampOf m)).isSome := fun ho =>
      keeps _ (hr.sent _ ⟨q, bytes, m, ho, hm, rfl⟩)
    by_cases he : ∃ message, e = .sendAll message
    · obtain ⟨message, rfl⟩ := he
      cases hh
      rcases List.mem_append.mp hq with hq | hq
      · exact old hq
      · rw [copies_of hq] at hm
        exact Option.isSome_iff_ne_none.mpr (ha m (by rw [hm]; rfl))
    · obtain ⟨es, ht, hes⟩ := (handle_talks (fun message hm => he ⟨message, hm⟩) hh).trace
      rw [ht] at hq
      rcases List.mem_append.mp hq with hq | hq
      · exact old hq
      · rw [stampOf_parsed hm]
        exact hes q bytes hq

theorem Past.remembered {h : Steps} {s : Network} (hp : Past (fun _ s e => s.LogsRead e) h s) : Remembered h s := by
  induction hp with
  | start id pubK port clock =>
    refine ⟨fun stamp hs => (by cases hs), ?_⟩
    rintro stamp ⟨q, bytes, m, hq, -⟩
    cases hq
  | step hp ha hs ih =>
    obtain ⟨-, rounds, hh⟩ := hs
    exact ih.step ha hh

theorem Past.processed_nodup {h : Steps} {s : Network} (hp : Past (fun _ s e => s.LogsRead e) h s) :
    (processed h).Nodup := by
  induction hp with
  | start id pubK port clock => exact List.nodup_nil
  | step hp ha hs ih =>
    rw [processed, List.filterMap_cons]
    split
    · exact ih
    · rename_i stamp hx
      obtain ⟨m, hm, rfl⟩ := Option.map_eq_some_iff.mp hx
      refine List.nodup_cons.mpr ⟨fun hmem => ?_, ih⟩
      -- what has been processed is logged, and what is logged is not processed
      obtain ⟨p, received, reached, -, -, hl⟩ := switched_read hm
      have := hp.remembered.processed _ hmem
      rw [findLog] at hl
      rw [hl] at this
      cases this

/-- In a run of such steps, nothing is processed twice. -/
theorem processed_once {h : Steps} {s : Network} (hp : Past (fun _ s e => s.LogsRead e) h s) : OnceOnly h s := by
  refine ⟨hp.processed_nodup, fun received m p reached hm hs => ?_⟩
  have hl : (s.findLog m).isSome := hs.elim (hp.remembered.processed _) (hp.remembered.sent _)
  obtain ⟨l, hl⟩ := Option.isSome_iff_exists.mp hl
  exact handle_logged p reached hm hl

omit [Platform] in
/-- A request is processed, and the answer to it sent. -/
theorem processed_once_request : ∃ h s, @Past sha1 (fun _ _ _ => True) h s ∧
    @processed sha1 h = [List.replicate 20 65] ∧ s.trace ≠ [] ∧ @OnceOnly sha1 h s := by
  have hrun : @livesTo sha1 (fun _ s e => @LogsRead sha1 s e) _ node [.accept [9], .read 1 (request 65) none]
      (fun h s => decide (@processed sha1 h = [List.replicate 20 65] ∧ s.trace ≠ [])) = true := by
    decide +kernel
  obtain ⟨h, s, hp, ht⟩ := @past_of_livesTo sha1 _ _ _ _ _ _ _ _ hrun
  obtain ⟨hpr, htr⟩ := of_decide_eq_true ht
  exact ⟨h, s, @Past.weaken sha1 _ _ _ hp, hpr, htr, @processed_once sha1 h s hp⟩

omit [Platform] in
/-- An emitter we do not know sends a READY twice. -/
theorem ready_twice : ¬ ∀ h s, @Past sha1 (fun _ _ _ => True) h s → @OnceOnly sha1 h s := by
  intro hall
  have hrun : @livesTo sha1 (fun _ _ _ => True) _ node
      [.accept [9], .read 1 (msg 1 .ready) none, .read 1 (msg 1 .ready) none]
      (fun h _ => decide (¬ (@processed sha1 h).Nodup)) = true := by
    decide +kernel
  obtain ⟨h, s, hp, ht⟩ := @past_of_livesTo sha1 _ _ _ _ _ _ _ _ hrun
  exact of_decide_eq_true ht (@OnceOnly.processed sha1 h s (hall h s hp))

end Network

end RacKun
