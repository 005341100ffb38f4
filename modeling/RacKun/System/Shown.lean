/-
  RacKun.System.Shown — what is broadcast is shown once.

  A copy of a broadcast may reach a node on many ways, and again after the groups have
  changed. It is shown when its stamp is new to the node; from a peer who has an ID it is
  logged then, and never shown again. So there is a broadcast of somebody else for
  everything a node shows, and a different one each time.

  - `speech_shown`: what an event makes a node show.
  - `Told.step`: one move of one node.
-/

import RacKun.System.Accounts

namespace RacKun

open Lib (OrdMap Net bind_ok pure_ok)

open Lib.Net (Input Output Action)

/-! ## One node -/

/-- This content is shown as said by a peer who has an ID. -/
def Effect.isShown (content : Bytes) : Effect → Bool
  | .displayed who c => decide (c = content ∧ who.length = ID_LENGTH)
  | _ => false

def Utterance.isShown (content : Bytes) : Utterance → Bool
  | .plain e => e.isShown content
  | .own _ _ => false

theorem Renders.shown [Platform] {author : Bytes} {us : List Utterance} {es : List Effect} (h : Renders author us es)
    (content : Bytes) : es.countP (Effect.isShown content) = us.countP (Utterance.isShown content) := by
  induction h with
  | nil => rfl
  | own targets payload now _ ih =>
    have hn : (targets.map (Effect.sent · (Message.makeStamp payload author now).serialize)).countP
        (Effect.isShown content) = 0 := by
      rw [List.countP_map]
      exact List.countP_eq_zero.mpr fun p _ => Bool.false_ne_true
    rw [List.countP_append, hn, ih, Nat.zero_add, List.countP_cons_of_neg Bool.false_ne_true]
  | plain e _ ih => rw [List.countP_cons, List.countP_cons, ih]; rfl

namespace Network

/-- How often a node has shown this content, as said by a peer who has an ID. -/
def timesShown (s : Network) (content : Bytes) : Nat := s.trace.countP (Effect.isShown content)

variable [Platform] {s s' : Network} {e : Event}

/-- What is logged stays logged. -/
theorem step_logs (hst : Step s e s') {stamp : Bytes} (h : (s.logs.find? stamp).isSome) :
    (s'.logs.find? stamp).isSome := by
  obtain ⟨-, rounds, hh⟩ := hst
  by_cases he : ∃ message, e = .sendAll message
  · obtain ⟨message, rfl⟩ := he
    cases hh
    exact h
  · exact (handle_talks (fun message hm => he ⟨message, hm⟩) hh).logs _ h

/-- A new message from a peer we know is logged. -/
theorem read_logged {p : PeerRef} {received : Bytes} {reached : Option Bytes} {m : Message}
    (hst : Step s (.read p received reached) s') (hm : parseMessage received = .ok m) (hl : s.findLog m = none)
    (hk : (s.peer p).isKnown = true) : (s'.logs.find? (stampIn received)).isSome := by
  obtain ⟨-, rounds, hh⟩ := hst
  obtain ⟨t, u, v, ht, hu, hv, hs'⟩ := handle_received hm hl hh
  rw [logKnown, if_pos hk] at ht
  have hlog : (v.logs.find? (stampOf m)).isSome :=
    (process_talks hv).logs _ ((forward_talks hu).logs _ (logMessage_logs ht).logged)
  rw [← stampOf_parsed hm]
  rcases hs' with rfl | rfl <;> exact hlog

/-- A broadcast of our own is one message, which is logged. -/
theorem broadcast_says {content : Bytes} (hst : Step s (.broadcast content) s') : ∃ (m : Message) (marker : Bytes)
    (targets : List PeerRef), m.payload = .data marker content ∧ s.effects s' = targets.map (Effect.sent · m.serialize) ∧
      (s'.logs.find? (stampIn m.serialize)).isSome := by
  obtain ⟨-, rounds, hh⟩ := hst
  obtain ⟨g, -, hh⟩ := bind_ok.mp hh
  rw [broadcast_stamped] at hh
  have hl := logMessage_logs hh
  refine ⟨_, _, _, rfl, effects_append hl.trace, hl.logged⟩

/-- Only new DATA is shown, and once. -/
theorem speech_shown {content who : Bytes} (h : .plain (.displayed who content) ∈ s.speech e) :
    ∃ p received reached m marker, e = .read p received reached ∧ parseMessage received = .ok m ∧
      m.payload = .data marker content ∧ s.findLog m = none ∧
      who = (if (s.peer p).isKnown then (s.peer p).id else ascii "@" ++ (s.peer p).address) ∧
      (s.speech e).countP (Utterance.isShown content) ≤ 1 := by
  have hp := speech_plain h
  cases hp with
  | @displayed p received stamp marker _ reached hm =>
    refine ⟨p, received, reached, _, marker, rfl, hm, rfl, ?_, rfl, ?_⟩
    all_goals
      by_cases hl : (s.findLog ⟨stamp, .data marker content⟩).isSome = true
      · simp only [speech, hm, hl, if_true] at h
        cases h
    · exact Option.not_isSome_iff_eq_none.mp hl
    · simp only [speech, hm, hl, Bool.false_eq_true, if_false, List.countP_append, messageSpeech]
      have hrelay : (s.relay ⟨stamp, .data marker content⟩ p).countP (Utterance.isShown content) = 0 := by
        refine List.countP_eq_zero.mpr fun u hu => ?_
        obtain ⟨_, q, -, rfl⟩ := relay_plain hu
        exact Bool.false_ne_true
      rw [hrelay, Nat.zero_add]
      exact List.countP_le_length

/-- Only a broadcast makes DATA of our own. -/
theorem own_data {targets : List PeerRef} {marker content : Bytes}
    (h : .own targets (.data marker content) ∈ s.speech e) : e = .broadcast content := by
  have answer : ∀ {m : Membership} {p port}, .own targets (.data marker content) ∉ m.answerSpeech p port := by
    intro m p port h
    unfold Membership.answerSpeech Membership.ackSpeech at h
    split at h
    · cases h
    · simp at h
  have check : ∀ {m : Membership}, .own targets (.data marker content) ∉ m.checkSpeech := by
    intro m h
    unfold Membership.checkSpeech at h
    split at h
    · cases h
    · exact answer h
  cases e with
  | broadcast c =>
    simp only [speech] at h
    split at h
    · cases h
    · cases List.mem_singleton.mp h
      rfl
  | read p received reached =>
    cases hm : parseMessage received with
    | error err =>
      simp only [speech, hm] at h
      cases List.mem_singleton.mp h
    | ok m =>
      obtain ⟨stamp, payload⟩ := m
      simp only [speech, hm] at h
      split at h
      · cases h
      · rcases List.mem_append.mp h with h | h
        · obtain ⟨_, _, _, hu⟩ := relay_plain h
          cases hu
        · cases payload with
          | join id pubK port =>
            simp only [messageSpeech] at h
            split at h
            · exact absurd h answer
            · cases h
          | joinNotif marker' channel groupId peerId pubK ip port =>
            simp only [messageSpeech, notifSpeech] at h
            split at h
            · split at h
              · unfold Membership.ackSpeech at h
                split at h <;> simp at h
              · cases List.mem_singleton.mp h
            · cases h
          | joinAck groupId peerId pubK => cases h
          | ready =>
            obtain ⟨_, hu⟩ := readySpeech_mem _ _ _ h
            cases hu
          | readyNotif => exact absurd h check
          | data marker' content' => cases List.mem_singleton.mp h
  | readyTimer id =>
    simp only [speech] at h
    split at h
    · cases h
    · cases List.mem_singleton.mp h
  | joinTimer id =>
    simp only [speech] at h
    split at h
    · cases h
    · exact absurd h check
  | join ip port reached => cases reached <;> simp [speech] at h
  | sendAll message =>
    obtain ⟨q, -, hu⟩ := List.mem_map.mp h
    cases hu
  | accept address => cases h
  | eof q => cases h
  | readError q => cases h

/-- What a node has shown after an event. -/
theorem step_shown (hs : s.toMembership.Sound) (hst : Step s e s') (content : Bytes) :
    s'.timesShown content = s.timesShown content ∨ s'.timesShown content = s.timesShown content + 1 ∧
      ∃ p received reached m marker, e = .read p received reached ∧ parseMessage received = .ok m ∧
        m.payload = .data marker content ∧ s.findLog m = none ∧
        (if (s.peer p).isKnown then (s.peer p).id else ascii "@" ++ (s.peer p).address).length = ID_LENGTH := by
  obtain ⟨he, rounds, hh⟩ := hst
  obtain ⟨es, hes, hr⟩ := handle_voices hs he hh
  have hcount : s'.timesShown content = s.timesShown content + (s.speech e).countP (Utterance.isShown content) := by
    rw [timesShown, hes, List.countP_append, hr.shown content, timesShown]
  rw [hcount]
  rcases Nat.eq_zero_or_pos ((s.speech e).countP (Utterance.isShown content)) with hz | hpos
  · exact Or.inl (by rw [hz, Nat.add_zero])
  · obtain ⟨u, hu, hshown⟩ := List.countP_pos_iff.mp hpos
    cases u with
    | own targets payload => cases hshown
    | plain x =>
      cases x with
      | displayed who c =>
        obtain ⟨rfl, hlen⟩ := of_decide_eq_true hshown
        obtain ⟨p, received, reached, m, marker, rfl, hm, hp, hl, rfl, hone⟩ := speech_shown hu
        exact Or.inr ⟨by omega, p, received, reached, m, marker, rfl, hm, hp, hl, hlen⟩
      | _ => cases hshown

end Network

namespace Site

variable {ι : Type} {site : Site ι} [Platform] {contents texts : Set Bytes} {i : ι} {far : PeerRef → Option ι}
  {s s' : Network} {e : Event}

/-- DATA that a node sends is a new message of its own, or what it has read. -/
theorem data_sent (hp : site.Proper) (h : site.Faithful contents i far s) (hst : s.Step e s')
    (hr : site.Heard contents texts far e) (hallow : Says contents texts e) {p : PeerRef} {bytes : Bytes}
    (hb : .sent p bytes ∈ s.effects s') {m : Message} (hm : parseMessage bytes = .ok m) {marker content : Bytes}
    (hd : m.payload = .data marker content) :
    (∃ q reached, e = .read q bytes reached) ∨ e = .broadcast content := by
  obtain ⟨he, rounds, hh⟩ := hst
  rcases (Network.handle_speech h.sound he hh).sent hb with ⟨targets, payload, now, hu, -, rfl⟩ | hu
  · right
    have hsincere := speech_sincere hp h.sound h.introduced he hr hallow hu
    have hpay : payload = .data marker content := by
      rcases hsincere with ⟨hw, -⟩ | ⟨marker', groupId, ip, port, rfl, hmk, hg, hip⟩
      · have hwf : (Message.makeStamp payload (s.getId s.localPeer) now).WellFormed := ⟨Platform.makeHash_length _, hw⟩
        cases (parse_serialize hwf).symm.trans hm
        exact hd
      · exact absurd hm ((nameless_unread (Platform.makeHash_length _) hmk hg hip).2 m)
    subst hpay
    exact Network.own_data hu
  · left
    cases Network.speech_plain hu with
    | text => exact absurd hm (hallow.2 m)
    | @relayed q received _ reached m' hparse =>
      obtain ⟨j, -, hw, -, rfl⟩ := heard_parsed h.sound h.introduced he hr hparse
      exact ⟨q, reached, rfl⟩

/-! ## All nodes -/

/-- A broadcast of a user: at which node, and what. -/
def said? : Action ι PeerRef Bytes Event → Option (ι × Bytes)
  | .act i (.own (.broadcast content)) => some (i, content)
  | _ => none

/-- The broadcasts made so far, each with its stamp: whoever has made one has logged it, DATA
    on its way is one of them, and what a node has shown are different ones of others. -/
structure Told (made : List (ι × Bytes × Bytes)) (moves : List (Action ι PeerRef Bytes Event)) (w : World ι) : Prop where
  said : made.map (fun x => (x.1, x.2.2)) = moves.filterMap said?
  logged : ∀ i stamp content, (i, stamp, content) ∈ made → ((w.node i).logs.find? stamp).isSome
  queued : ∀ i p bytes m marker content, bytes ∈ w.queue i p → parseMessage bytes = .ok m →
    m.payload = .data marker content → ∃ k, (k, Network.stampIn bytes, content) ∈ made
  shown : ∀ i content, ∃ stamps : List Bytes, stamps.Nodup ∧ stamps.length = (w.node i).timesShown content ∧
    ∀ stamp ∈ stamps, ((w.node i).logs.find? stamp).isSome ∧ ∃ k, k ≠ i ∧ (k, stamp, content) ∈ made

variable [DecidableEq ι] {ports : ι → Port} {clocks : ι → Nat → Nat} {moves : List (Action ι PeerRef Bytes Event)}
  {w w' : World ι} {made : List (ι × Bytes × Bytes)}

omit [Platform] [DecidableEq ι] in
/-- A peer shown by an ID is known. -/
theorem shown_known (hp : site.Proper) (h : site.Introduced i far s.toMembership) {p : PeerRef} (hr : s.Remote p)
    (hlen : (if (s.peer p).isKnown then (s.peer p).id else ascii "@" ++ (s.peer p).address).length = ID_LENGTH) :
    (s.peer p).isKnown = true := by
  by_contra hk
  obtain ⟨j, hj⟩ := Option.isSome_iff_exists.mp ((h.remote p).mp hr)
  rw [if_neg hk, (h.named p j hj).1, List.length_append] at hlen
  have hshort := (hp.address j).1
  have hat : (ascii "@").length = 1 := rfl
  rw [hat, ID_LENGTH] at hlen
  omega

/-- One node has answered; `new` is what it has broadcast. -/
theorem Told.answered (hp : site.Proper)
    (hk : Lib.Net.Kept (site.Living contents) (fun i _ => site.Spoken contents texts i) w) (h : Told made moves w)
    {inp : Input ι PeerRef Bytes Event} {out : List (Output ι PeerRef Bytes)}
    (hact : Lib.Net.Acted site.Acts (fun _ => Says contents texts) (fun i _ => site.Spoken contents texts i) w w' i inp
      s' out) (hcause : site.Caused (w.node i) inp e) (hst : Network.Step (w.node i) e s')
    (hout : out = site.outputs ((w.node i).effects s')) (new : List (ι × Bytes × Bytes))
    (hsaid : new.map (fun x => (x.1, x.2.2)) = [Action.act i inp].filterMap said?)
    (hlog : ∀ k stamp content, (k, stamp, content) ∈ new → k = i ∧ (s'.logs.find? stamp).isSome)
    (hsent : ∀ p bytes m marker content, .sent p bytes ∈ (w.node i).effects s' → parseMessage bytes = .ok m →
      m.payload = .data marker content → ∃ k, (k, Network.stampIn bytes, content) ∈ made ++ new) :
    Told (made ++ new) (moves ++ [.act i inp]) w' := by
  obtain ⟨hf, -⟩ := hk.node i
  refine ⟨?_, fun k stamp content hm => ?_, fun k p bytes m marker content hb hm hd => ?_, fun k content => ?_⟩
  · rw [List.map_append, List.filterMap_append, h.said, hsaid]
  · rw [hact.node]
    rcases List.mem_append.mp hm with hm | hm
    · have hold := h.logged k stamp content hm
      by_cases hki : k = i
      · subst hki
        rw [Function.update_self]
        exact Network.step_logs hst hold
      · rwa [Function.update_of_ne hki]
    · obtain ⟨rfl, hl⟩ := hlog k stamp content hm
      rwa [Function.update_self]
  · rcases hact.queue hb with hb | ⟨rfl, hb⟩
    · obtain ⟨l, hl⟩ := h.queued k p bytes m marker content hb hm hd
      exact ⟨l, List.mem_append_left _ hl⟩
    · rw [hout, send_mem] at hb
      exact hsent p bytes m marker content hb hm hd
  · obtain ⟨stamps, hnodup, hlen, hall⟩ := h.shown k content
    rw [hact.node]
    by_cases hki : k = i
    · subst hki
      rw [Function.update_self]
      have hkeep : ∀ stamp ∈ stamps, (s'.logs.find? stamp).isSome ∧ ∃ l, l ≠ k ∧ (l, stamp, content) ∈ made ++ new := by
        intro stamp hs
        obtain ⟨hl, l, hlk, hm⟩ := hall stamp hs
        exact ⟨Network.step_logs hst hl, l, hlk, List.mem_append_left _ hm⟩
      rcases Network.step_shown hf.sound hst content with hsame | ⟨hone, p, received, reached, m, marker, rfl, hm, hd, hl, hw⟩
      · exact ⟨stamps, hnodup, hsame ▸ hlen, hkeep⟩
      · -- the copy it shows is new to it, and was broadcast by somebody else
        cases hcause with
        | own ho => exact ho.elim
        | read =>
          obtain ⟨j, q, hj, -, hq⟩ := hact.heard rfl
          obtain ⟨l, hmade⟩ := h.queued j q received m marker content hq hm hd
          have hnone : (w.node k).logs.find? (Network.stampIn received) = none := by
            rw [← Network.stampOf_parsed hm]
            exact hl
          have hfresh : Network.stampIn received ∉ stamps := by
            intro hs
            have := (hall _ hs).1
            rw [hnone] at this
            cases this
          have hlk : l ≠ k := by
            rintro rfl
            have := h.logged l _ content hmade
            rw [hnone] at this
            cases this
          have hknown := shown_known hp hf.introduced (hf.sound.listening p hst.1) hw
          refine ⟨Network.stampIn received :: stamps, List.nodup_cons.mpr ⟨hfresh, hnodup⟩, ?_, fun stamp hs => ?_⟩
          · rw [List.length_cons, hlen, hone]
          · rcases List.mem_cons.mp hs with rfl | hs
            · exact ⟨Network.read_logged hst hm hl hknown, l, hlk, List.mem_append_left _ hmade⟩
            · exact hkeep stamp hs
    · rw [Function.update_of_ne hki]
      refine ⟨stamps, hnodup, hlen, fun stamp hs => ?_⟩
      obtain ⟨hl, l, hlk, hm⟩ := hall stamp hs
      exact ⟨hl, l, hlk, List.mem_append_left _ hm⟩

theorem Told.step (hp : site.Proper)
    (hk : Lib.Net.Kept (site.Living contents) (fun i _ => site.Spoken contents texts i) w) (h : Told made moves w)
    {a : Action ι PeerRef Bytes Event} (ha : a.Allowed fun _ => Says contents texts)
    (hst : Lib.Net.Step site.Acts w a w') : ∃ made', Told made' (moves ++ [a]) w' := by
  cases a with
  | leave k =>
    cases hst
    refine ⟨made, ?_, h.logged, h.queued, h.shown⟩
    rw [List.filterMap_append, h.said]
    exact (List.append_nil _).symm
  | act i inp =>
    obtain ⟨s', out, hact⟩ := (hp.living contents texts).acted hk ha hst
    obtain ⟨hf, -⟩ := hk.node i
    obtain ⟨e, hcause, hstep, -, hout⟩ := hact.answer.event hf.sound
    obtain ⟨hheard, hallow⟩ := hcause.heard hact.fair
    by_cases hb : ∃ content, e = .broadcast content
    · obtain ⟨content, rfl⟩ := hb
      obtain ⟨m, marker, targets, hpay, heff, hlog⟩ := Network.broadcast_says hstep
      cases hcause
      refine ⟨_, h.answered hp hk hact (.own trivial) hstep hout [(i, Network.stampIn m.serialize, content)] rfl
        (fun k stamp c hm => ?_) fun p bytes m' marker' c hs hm' hd => ?_⟩
      · cases List.mem_singleton.mp hm
        exact ⟨rfl, hlog⟩
      · rcases data_sent hp hf hstep hheard hallow hs hm' hd with ⟨q, reached, he⟩ | he
        · cases he
        · cases he
          rw [heff] at hs
          obtain ⟨q, -, hq⟩ := List.mem_map.mp hs
          cases hq
          exact ⟨i, List.mem_append_right _ (List.mem_singleton_self _)⟩
    · have hnone : [Action.act i inp].filterMap said? = [] := by
        cases hcause with
        | @own e ho =>
          cases e with
          | broadcast content => exact absurd ⟨content, rfl⟩ hb
          | _ => rfl
        | _ => rfl
      refine ⟨_, h.answered hp hk hact hcause hstep hout [] hnone.symm (fun k stamp c hm => by cases hm)
        fun p bytes m marker c hs hm hd => ?_⟩
      rcases data_sent hp hf hstep hheard hallow hs hm hd with ⟨q, reached, rfl⟩ | he
      · cases hcause with
        | own ho => exact ho.elim
        | read =>
          obtain ⟨j, r, -, -, hr⟩ := hact.heard rfl
          obtain ⟨k, hmade⟩ := h.queued j r bytes m marker c hr hm hd
          exact ⟨k, List.mem_append_left _ hmade⟩
      · exact absurd ⟨c, he⟩ hb

theorem run_told (hp : site.Proper) (hr : Lib.Net.Run site.Acts (site.start ports clocks) moves w)
    (ha : ∀ a ∈ moves, a.Allowed fun _ => Says contents texts) : ∃ made, Told made moves w := by
  induction hr with
  | refl => exact ⟨[], rfl, fun _ _ _ h => (by cases h), fun _ _ _ _ _ _ h => (by cases h), fun i content =>
      ⟨[], List.nodup_nil, rfl, fun _ h => (by cases h)⟩⟩
  | step hr hst ih =>
    have hold := fun a hm => ha a (List.mem_append_left _ hm)
    obtain ⟨made, h⟩ := ih hold
    exact h.step hp (run_record hp hr hold).1 (ha _ (List.mem_append_right _ List.mem_cons_self)) hst

/-- Whatever the order of the steps, a node shows nothing twice: not more often, as said by a
    peer who has an ID, than it has been broadcast at other nodes. -/
theorem shown_once (hp : site.Proper) (hr : Lib.Net.Run site.Acts (site.start ports clocks) moves w)
    (ht : ∀ text ∈ textsSent moves, ∀ m, parseMessage text ≠ .ok m) (i : ι) (content : Bytes) :
    (w.node i).timesShown content ≤
      (moves.filterMap said?).countP fun x => decide (x.1 ≠ i ∧ x.2 = content) := by
  obtain ⟨made, h⟩ := run_told hp hr (moves_allowed ht)
  obtain ⟨stamps, hnodup, hlen, hall⟩ := h.shown i content
  -- the stamps of the others' broadcasts of this content
  let others := (made.filter fun x => decide (x.1 ≠ i ∧ x.2.2 = content)).map fun x => x.2.1
  have hsub : stamps ⊆ others := by
    intro stamp hs
    obtain ⟨-, k, hk, hm⟩ := hall stamp hs
    exact List.mem_map.mpr ⟨_, List.mem_filter.mpr ⟨hm, decide_eq_true ⟨hk, rfl⟩⟩, rfl⟩
  calc (w.node i).timesShown content
      = stamps.length := hlen.symm
    _ ≤ others.length := (List.subperm_of_subset hnodup hsub).length_le
    _ = (moves.filterMap said?).countP fun x => decide (x.1 ≠ i ∧ x.2 = content) := by
      rw [List.length_map, ← List.countP_eq_length_filter, ← h.said, List.countP_map]
      rfl

omit [Platform] [DecidableEq ι] in
theorem shown_once_two : ∃ (moves : List (Action Bool PeerRef Bytes Event)) (w : World Bool),
    0 < (w.node true).timesShown (ascii "hi") ∧ (w.node true).timesShown (ascii "hi") ≤
      (moves.filterMap said?).countP fun x => decide (x.1 ≠ true ∧ x.2 = ascii "hi") := by
  obtain ⟨moves, w, hr, ht, -, -, hd, -⟩ := Scenario.visit_run
  exact ⟨moves, w, List.countP_pos_iff.mpr ⟨_, hd, by decide⟩, @shown_once _ Scenario.town sha1 _ _ _ _ _
    Scenario.town_proper hr (fun text h => absurd h (ht text)) true (ascii "hi")⟩

end Site

end RacKun
