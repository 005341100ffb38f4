/-
  RacKun.Network.Failure — what is left of a message whose processing raises an exception.

  A string that does not parse is reported before anything is done. The one call that
  throws later is `connect_peer`, for a JOIN Notification: the message has been logged and
  relayed by then, and the join token has been taken.

  - `logKnown_frame`, `forward_frame`: logging and relaying change the log, the trace and
    the markers only.
  - `receive_thrown`: what has happened when `receive` throws.
-/

import RacKun.Network.Talk

namespace RacKun

open Lib (OrdMap bind_ok pure_ok ok_bind)

open Scenario

namespace Network

/-! ## Logging and relaying -/

theorem enterLog_frame {s s' : Network} {m : Message} (h : s.enterLog m = .ok s') :
    s' = { s with channelMarkers := s'.channelMarkers, logs := s'.logs } ∧
      ∀ stamp, stamp ≠ stampOf m → s'.logs.find? stamp = s.logs.find? stamp := by
  cases hl : s.findLog m with
  | some l =>
    rw [enterLog_logged hl] at h
    cases h
    exact ⟨rfl, fun _ _ => rfl⟩
  | none =>
    have other : ∀ control stamp, stamp ≠ stampOf m →
        (s.logs.insert ⟨m.serialize, control⟩).find? stamp = s.logs.find? stamp := by
      intro control stamp hs
      exact (History.find_insert (l := ⟨m.serialize, control⟩) hl stamp).trans (if_neg hs)
    cases hb : m.bcastMarker? with
    | none =>
      rw [enterLog_plain hl hb] at h
      cases h
      exact ⟨rfl, other _⟩
    | some marker =>
      cases hg : s.groups.find? (s.markerGid marker) with
      | none => rw [enterLog_null hl hb hg] at h; cases h
      | some g =>
        rw [enterLog_broadcast hl hb hg] at h
        cases h
        exact ⟨rfl, other _⟩

theorem logMessage_frame {s s' : Network} {m : Message} {p : PeerRef} (h : s.logMessage m p = .ok s') :
    s' = { s with channelMarkers := s'.channelMarkers, logs := s'.logs } ∧
      ∀ stamp, stamp ≠ stampOf m → s'.logs.find? stamp = s.logs.find? stamp := by
  obtain ⟨t, ht, h⟩ := bind_ok.mp h
  obtain ⟨hf, hl⟩ := enterLog_frame ht
  rw [← pure_ok.mp h]
  split
  · exact ⟨hf, hl⟩
  · refine ⟨?_, fun stamp hs => ?_⟩
    · exact congrArg (fun u : Network => { u with logs := t.logs.ack (stampOf m) (t.getId p) }) hf
    · show (t.logs.ack (stampOf m) (t.getId p)).find? stamp = _
      rw [History.find_ack, ← hl stamp hs]
      simp only [hs, if_false, Option.map_id']

/-- The message is logged when its emitter is known, and then its marker is entered. -/
theorem logKnown_markers {s t : Network} {m : Message} {marker : Bytes} {p : PeerRef} (hl : s.findLog m = none)
    (hb : m.bcastMarker? = some marker) (h : s.logKnown m p = .ok t) : t.channelMarkers =
      if (s.peer p).isKnown then s.channelMarkers.insertNew marker [] else s.channelMarkers := by
  unfold logKnown at h
  split at h
  · rename_i hk
    rw [if_pos hk]
    obtain ⟨u, hu, h⟩ := bind_ok.mp h
    cases hg : s.groups.find? (s.markerGid marker) with
    | none => rw [enterLog_null hl hb hg] at hu; cases hu
    | some g =>
      rw [enterLog_broadcast hl hb hg] at hu
      cases hu
      rw [← pure_ok.mp h]
      split <;> rfl
  · rename_i hk
    cases h
    rw [if_neg hk]

theorem logKnown_frame {s t : Network} {m : Message} {p : PeerRef} (h : s.logKnown m p = .ok t) :
    t = { s with channelMarkers := t.channelMarkers, logs := t.logs } ∧
      ∀ stamp, stamp ≠ stampOf m → t.logs.find? stamp = s.logs.find? stamp := by
  unfold logKnown at h
  split at h
  · exact logMessage_frame h
  · cases h
    exact ⟨rfl, fun _ _ => rfl⟩

variable [Platform]

/-- The relay sends copies, and enters no marker. -/
theorem forward_frame {s s' : Network} {m : Message} (h : s.forward m = .ok s') :
    ∃ es, s' = { s with logs := s'.logs, trace := s.trace ++ es } ∧ (∀ x ∈ es, ∃ q, x = .sent q m.serialize) ∧
      ∀ stamp, stamp ≠ stampOf m → s'.logs.find? stamp = s.logs.find? stamp := by
  have still : ∃ es, s = { s with logs := s.logs, trace := s.trace ++ es } ∧
      (∀ x ∈ es, ∃ q, x = .sent q m.serialize) ∧
        ∀ stamp, stamp ≠ stampOf m → s.logs.find? stamp = s.logs.find? stamp := by
    refine ⟨[], by rw [List.append_nil], fun x hx => ?_, fun _ _ => rfl⟩
    cases hx
  unfold forward at h
  split at h
  · cases h; exact still
  · rename_i marker hb
    split at h
    · cases h; exact still
    · rename_i gid hm
      split at h
      · cases h
      · rename_i g _
        rw [broadcast_relayed] at h
        obtain ⟨hf, hl⟩ := logMessage_frame h
        have hmk : s'.channelMarkers = s.channelMarkers := by
          refine OrdMap.ext_find fun k => ?_
          rcases (logMessage_logs h).markers k with hk | ⟨hk, hbk, -⟩
          · exact hk
          · rw [hb] at hbk
            cases hbk
            have hk : s.channelMarkers.find? marker = .none := hk
            rw [hm] at hk
            cases hk
        refine ⟨(s.group g).successors.values.map (.sent · m.serialize), ?_, fun x hx => ?_, hl⟩
        · rw [hmk] at hf
          exact hf
        · obtain ⟨q, -, rfl⟩ := List.mem_map.mp hx
          exact ⟨q, rfl⟩

/-! ## What throws -/

/-- Processing the string raises an exception: it does not parse, or a new message is not
    handled to the end. -/
def raises (s : Network) (received : Bytes) (p : PeerRef) (reached : Option Bytes) : Bool :=
  match parseMessage received with
  | .error _ => true
  | .ok m =>
    match s.findLog m with
    | some _ => false
    | none =>
      match s.receive m p reached with
      | .error (.thrown _) => true
      | _ => false

/-- An exception leaves nothing but the log entry, the copies sent on and the report. -/
structure Unharmed (s : Network) (received : Bytes) (s' : Network) : Prop where
  rest : s' = { s with logs := s'.logs, trace := s'.trace }
  logs : ∀ stamp, stamp ≠ stampIn received → s'.logs.find? stamp = s.logs.find? stamp
  trace : ∃ es, s'.trace = s.trace ++ es ++ [.reported received] ∧ ∀ x ∈ es, ∃ m q, parseMessage received = .ok m ∧
    x = .sent q m.serialize

/-- The string does not parse; or the token is taken already, and the marker of the message
    known, or its emitter not. -/
def FailsClean (s : Network) (received : Bytes) (p : PeerRef) : Prop := ∀ m ∈ (parseMessage received).toOption,
  s.joinToken = false ∧ ((s.peer p).isKnown = false ∨ ∀ marker ∈ m.bcastMarker?, s.channelMarkers.contains marker = true)

instance (s : Network) (received : Bytes) (p : PeerRef) : Decidable (s.FailsClean received p) :=
  inferInstanceAs (Decidable (∀ m ∈ (parseMessage received).toOption, _))

omit [Platform] in
theorem bind_thrown {α : Type} {x : Except Stop α} {f : α → Except Stop Network} (hx : Quiet x) {t : Network}
    (h : x >>= f = .error (.thrown t)) : ∃ a, x = .ok a ∧ f a = .error (.thrown t) := by
  cases x with
  | ok a => exact ⟨a, rfl, h⟩
  | error e => exact absurd (congrArg Except.error (Except.error.inj h)) (hx t)

/-- The connection for a JOIN Notification fails, with the token taken. -/
theorem process_thrown {s t : Network} {m : Message} {p : PeerRef} {reached : Option Bytes}
    (h : s.process m p reached = .error (.thrown t)) :
    (∃ marker, m.bcastMarker? = some marker) ∧ t = { s with joinToken := false } := by
  unfold process at h
  cases hm : m.payload with
  | join id pubK port =>
    simp only [hm] at h
    exact absurd h (processJoin_quiet s m p id pubK port t)
  | joinAck groupId peerId pubK =>
    simp only [hm] at h
    exact absurd h (logMessage_quiet _ _ _ t)
  | ready =>
    simp only [hm] at h
    exact absurd h (processReady_quiet s t)
  | readyNotif =>
    simp only [hm] at h
    exact absurd h (checkForNewPeers_quiet _ t)
  | data marker content =>
    simp only [hm] at h
    cases h
  | joinNotif marker channel groupId peerId pubK ip port =>
    refine ⟨⟨marker, by rw [Message.bcastMarker?, hm]; rfl⟩, ?_⟩
    simp only [hm] at h
    unfold processJoinNotif at h
    split at h
    · cases h
    · obtain ⟨l, -, h⟩ := bind_thrown (derefLocalGroup_quiet s) h
      split at h
      · cases reached with
        | none => cases h; rfl
        | some address => exact absurd h (acknowledgeJoin_quiet _ _ _ t)
      · split at h
        · split at h <;> cases h
        · cases h

/-- What has happened when a new message is not handled to the end. -/
theorem receive_thrown {s v : Network} {m : Message} {p : PeerRef} {reached : Option Bytes}
    (h : s.receive m p reached = .error (.thrown v)) : ∃ t u, s.logKnown m p = .ok t ∧ t.forward m = .ok u ∧
      (∃ marker, m.bcastMarker? = some marker) ∧ v = { u with joinToken := false } := by
  obtain ⟨t, ht, h⟩ := bind_thrown (logKnown_quiet s m p) h
  obtain ⟨u, hu, h⟩ := bind_thrown (forward_quiet t m) h
  exact ⟨t, u, ht, hu, process_thrown h⟩

omit [Platform] in
theorem insertNew_eq {t : OrdMap Bytes Bytes} {k v : Bytes} : t.insertNew k v = t ↔ t.contains k = true := by
  constructor
  · intro h
    refine OrdMap.contains_iff.mpr ⟨(t.find? k).getD v, ?_⟩
    have := OrdMap.find_insertNew t k v k
    rw [h, if_pos rfl] at this
    exact this
  · intro h
    rw [OrdMap.insertNew, if_pos h]

/-- What an exception leaves of a new message. -/
theorem thrown_unharmed {s v : Network} {m : Message} {received : Bytes} {p : PeerRef} {reached : Option Bytes}
    (hm : parseMessage received = .ok m) (hl : s.findLog m = none) (h : s.receive m p reached = .error (.thrown v)) :
    s.Unharmed received (v.record [.reported received]) ↔
      s.joinToken = false ∧ ((s.peer p).isKnown = false ∨ ∀ marker ∈ m.bcastMarker?, s.channelMarkers.contains marker = true) := by
  obtain ⟨t, u, ht, hu, ⟨marker, hb⟩, rfl⟩ := receive_thrown h
  obtain ⟨hft, hlt⟩ := logKnown_frame ht
  obtain ⟨es, hfu, hes, hlu⟩ := forward_frame hu
  have hmk := logKnown_markers hl hb ht
  have hu : u = { s with channelMarkers := t.channelMarkers, logs := u.logs, trace := s.trace ++ es } := by
    rw [hft] at hfu
    exact hfu
  have kept : t.channelMarkers = s.channelMarkers ↔
      (s.peer p).isKnown = false ∨ ∀ marker ∈ m.bcastMarker?, s.channelMarkers.contains marker = true := by
    rw [hmk, hb]
    simp only [Option.mem_some_iff, forall_eq']
    cases (s.peer p).isKnown with
    | false => simp
    | true => simpa using insertNew_eq
  rw [← kept]
  constructor
  · intro hun
    have hj := congrArg (fun x : Network => x.joinToken) hun.rest
    change false = s.joinToken at hj
    have hc := congrArg (fun x : Network => x.channelMarkers) hun.rest
    change u.channelMarkers = s.channelMarkers at hc
    rw [hu] at hc
    exact ⟨hj.symm, hc⟩
  · rintro ⟨hj, hc⟩
    refine ⟨?_, fun stamp hs => ?_, es, ?_, fun x hx => ?_⟩
    · rw [hu, hc, ← hj]
      rfl
    · rw [← stampOf_parsed hm] at hs
      exact (hlu stamp hs).trans (hlt stamp hs)
    · rw [hu]
      rfl
    · obtain ⟨q, rfl⟩ := hes x hx
      exact ⟨m, q, hm, rfl⟩

/-- An exception leaves the membership as it was exactly when the token was taken before, or
    nothing had been done yet. -/
theorem failure_clean_iff {s s' : Network} {received : Bytes} {p : PeerRef} {reached : Option Bytes}
    (hr : s.raises received p reached = true) (h : s.handleIncomingMessage received p reached = .ok s') :
    s.Unharmed received s' ↔ s.FailsClean received p := by
  unfold FailsClean
  cases hm : parseMessage received with
  | error e =>
    simp only [handleIncomingMessage, hm] at h
    cases h
    constructor
    · intro _ m hm
      cases hm
    refine fun _ => ⟨rfl, fun _ _ => rfl, [], ?_, fun x hx => by cases hx⟩
    rw [List.append_nil]
    rfl
  | ok m =>
    simp only [raises, hm] at hr
    simp only [handleIncomingMessage, hm] at h
    cases hl : s.findLog m with
    | some l => simp only [hl] at hr; cases hr
    | none =>
      simp only [hl] at hr h
      split at hr
      · rename_i v hv
        simp only [hv] at h
        cases h
        rw [thrown_unharmed hm hl hv]
        simp [Except.toOption]
      · cases hr

omit [Platform] in
/-- The peers of two JOIN Notifications are out of reach, one after the other. -/
theorem failure_clean_twice : ∃ s received s', @Reachable sha1 s ∧ (@parseMessage sha1 received).isOk = true ∧
    @raises sha1 s received 1 none = true ∧ @handleIncomingMessage sha1 s received 1 none = .ok s' ∧
    @Unharmed sha1 s received s' := by
  let notif (stamp : Byte) : Bytes := msg stamp (.joinNotif (@makeHash sha1 (idOf 200 ++ idOf 200)) false (idOf 200)
    (idOf stamp) (List.replicate 5 stamp) [1] 7)
  have hrun : @leadsTo sha1 (fun _ _ => True) _ node [.join [] [] (some [9]), .read 1 (ack 65) none,
      .read 1 (notif 66) none] (fun s => decide (s.Enabled (.read 1 (notif 67) none) ∧
        (@parseMessage sha1 (notif 67)).isOk = true ∧ @raises sha1 s (notif 67) 1 none = true ∧
        @FailsClean sha1 s (notif 67) 1 ∧ (@handle sha1 1 s (.read 1 (notif 67) none)).toOption.any (fun _ => true) = true)) =
        true := by
    decide +kernel
  obtain ⟨s, hs, ht⟩ := @reach_of_leadsTo sha1 _ _ _ _ _ _ _ _ hrun
  obtain ⟨he, hp, hr, hc, hok⟩ := of_decide_eq_true ht
  obtain ⟨s', ⟨-, rounds, hh⟩, -⟩ := @step_of_any sha1 _ _ _ he hok
  exact ⟨s, notif 67, s', hs, hp, hr, hh, (@failure_clean_iff sha1 s s' _ 1 none hr hh).mpr hc⟩

omit [Platform] in
/-- The peer of a JOIN Notification is out of reach: the token stays taken. -/
theorem failure_keeps_token : ¬ ∀ s received p reached s', @Reachable sha1 s → s.Enabled (.read p received reached) →
    @raises sha1 s received p reached = true → @handleIncomingMessage sha1 s received p reached = .ok s' →
    @Unharmed sha1 s received s' := by
  intro hall
  let notif : Bytes := msg 66 (.joinNotif (@makeHash sha1 (idOf 200 ++ idOf 200)) false (idOf 200) (idOf 66)
    (List.replicate 5 66) [1] 7)
  have hrun : @leadsTo sha1 (fun _ _ => True) _ node [.join [] [] (some [9]), .read 1 (ack 65) none]
      (fun s => decide (s.Enabled (.read 1 notif none) ∧ s.joinToken = true ∧ @raises sha1 s notif 1 none = true ∧
        (@handle sha1 1 s (.read 1 notif none)).toOption.any (fun s' => !s'.joinToken) = true)) = true := by
    decide +kernel
  obtain ⟨s, hs, ht⟩ := @reach_of_leadsTo sha1 _ _ _ _ _ _ _ _ hrun
  obtain ⟨he, hj, hr, hok⟩ := of_decide_eq_true ht
  obtain ⟨s', ⟨-, rounds, hh⟩, hf⟩ := @step_of_any sha1 _ _ _ he hok
  have hun := hall s notif 1 none s' hs he hr hh
  have hj' := congrArg (fun x : Network => x.joinToken) (@Unharmed.rest sha1 _ _ _ hun)
  change s'.joinToken = s.joinToken at hj'
  rw [hj', hj] at hf
  cases hf

end Network

end RacKun
