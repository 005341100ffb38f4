/-
  RacKun.Network.Targets — a node writes only to peers it has.

  Groups refer to their members and to the neighbours they have cached, which may have left
  the rings since; all of them are objects. So is whoever an event makes a node write to: an
  old peer, or the one it has just connected to.
-/

import RacKun.Network.Introductions

namespace RacKun

open Lib (OrdMap)

/-- The group holds this peer, or has cached him as a neighbour. -/
def Group.Refers (g : Group) (p : PeerRef) : Prop := g.Mentions p ∨ g.Relays p

namespace Membership

variable [Platform]

theorem refers_kept (localPeer : PeerRef) (own : Bytes) (n : Nat) :
    Kept localPeer own (· < n) fun x => ∀ q, x.Refers q → q < n where
  new _ _ hq := hq.elim (fun h => (Group.new_mentions h).elim) fun h => h.elim (fun h => by cases h) fun h => by cases h
  addToRings _ hp hx q hq := by
    rcases hq with hq | hq
    · exact (Group.addToRings_mentions hq).elim (fun e => e ▸ hp) fun h => hx q (Or.inl h)
    · exact hx q (Or.inr hq)
  addPeer _ hp hx q hq := by
    rcases hq with hq | hq
    · exact (Group.addPeer_mentions hq).elim (fun e => e ▸ hp) fun h => hx q (Or.inl h)
    · exact hx q (Or.inr hq)
  addGroup _ hx hy q hq := by
    rcases hq with hq | hq
    · exact (Group.addGroupToRings_mentions hq).elim (fun h => hx q (Or.inl h)) fun h => hy q (Or.inl h)
    · exact hx q (Or.inr hq)
  removePeer hx q hq := by
    rcases hq with hq | hq
    · exact hx q (Or.inl (Group.removePeer_mentions hq))
    · exact hx q (Or.inr hq)
  update _ hx q hq := by
    rcases hq with hq | hq
    · exact hx q (Or.inl (Group.updateNeighbours_mentions.mp hq))
    · exact hx q (Or.inl (Or.inr (Group.updateNeighbours_mem hq)))

/-- Every peer a group refers to is an object. -/
def Pointed (m : Membership) : Prop := ∀ g q, (m.group g).Refers q → q < m.peerCount

theorem Pointed.apply {m : Membership} (h : m.Pointed) (hs : m.Sound) {c : Change} (hc : m.Awaits c) :
    (m.apply c).Pointed := by
  have hle := apply_peerCount hs hc
  exact (refers_kept m.localPeer _ _).apply rfl (fun g q hq => Nat.lt_of_lt_of_le (h g q hq) hle) hs hc (fun _ => id) hle

theorem Pointed.greet {m : Membership} (h : m.Pointed) (hs : m.Sound) (p : PeerRef) (id pubK newId : Bytes)
    {g : GroupRef} {q : PeerRef} (hq : ((m.greet p id pubK newId).group g).Refers q) : q < m.peerCount :=
  (refers_kept m.localPeer _ m.peerCount).greet rfl h hs.localPeer p id pubK newId g q hq

end Membership

namespace Network

variable [Platform]

theorem Reach.pointed {allowed : Network → Event → Prop} {s : Network} (hs : Reach allowed s) : s.toMembership.Pointed := by
  refine hs.membership (fun id pubK port clock g q hq => ?_) fun s e hr h he _ => h.apply hr.sound (change_awaits he)
  exact hq.elim (fun h => (Group.new_mentions h).elim) fun h => h.elim (fun h => by cases h) fun h => by cases h

section

variable {m : Membership} {n : Nat} (h : ∀ g q, (m.group g).Refers q → q < n) {p : PeerRef} {targets : List PeerRef}
  {payload : Payload}

include h

omit h [Platform] in
theorem ackSpeech_targets {q : PeerRef} (hm : .own targets payload ∈ m.ackSpeech q) : targets = [q] := by
  unfold Membership.ackSpeech at hm
  split at hm
  · cases hm
  · cases List.mem_singleton.mp hm
    rfl

theorem answerSpeech_targets {q : PeerRef} {port : Port} (hq : q < n) (hm : .own targets payload ∈ m.answerSpeech q port)
    (hp : p ∈ targets) : p < n := by
  unfold Membership.answerSpeech at hm
  split at hm
  · cases hm
  · rename_i l _
    rcases List.mem_cons.mp hm with hm | hm
    · cases hm
      exact h l p (Or.inr (Or.inr hp))
    · rw [ackSpeech_targets hm] at hp
      rwa [List.mem_singleton.mp hp]

theorem checkSpeech_targets (hw : ∀ q port, m.waiting? = some (q, port) → q < n)
    (hm : .own targets payload ∈ m.checkSpeech) (hp : p ∈ targets) : p < n := by
  unfold Membership.checkSpeech at hm
  split at hm
  · cases hm
  · rename_i q port hq
    exact answerSpeech_targets h (hw q port hq) hm hp

end

omit [Platform] in
/-- Whoever waits is a peer. -/
theorem waiting_lt {m : Membership} (hs : m.Sound) {q : PeerRef} {port : Port} (h : m.waiting? = some (q, port)) :
    q < m.peerCount := by
  obtain ⟨address, hf, -⟩ := Membership.waiting_mem h
  exact (hs.newPeers address q port hf).1

theorem readySpeech_targets {n : Nat} : ∀ (gs : List GroupRef) (m : Membership), m.localPeer < n →
    (∀ g q, (m.group g).Refers q → q < n) → ∀ {targets payload p}, .own targets payload ∈ m.readySpeech gs →
      p ∈ targets → p < n := by
  intro gs
  induction gs with
  | nil => intro m _ _ targets payload p hm; cases hm
  | cons g gs ih =>
    intro m hl h targets payload p hm hp
    have he : m.Entered (m.readyOne g) := readyOne_entered { start [] [] 0 id with toMembership := m } g
    have hone : ∀ g' q, ((m.readyOne g).group g').Refers q → q < n := by
      intro g' q hq
      rcases he.group g' with hg | hg
      · rw [hg] at hq
        exact h g' q hq
      · rw [hg] at hq
        have hk := Membership.refers_kept m.localPeer (m.getId m.localPeer) n
        exact hk.update rfl (hk.addToRings rfl hl (h g')) q hq
    rcases List.mem_append.mp hm with hm | hm
    · unfold Membership.readyOneSpeech at hm
      split at hm
      · cases hm
      · split at hm
        · cases List.mem_singleton.mp hm
          exact hone g p (Or.inr ((OrdMap.mem_values_union hp)))
        · cases hm
    · exact ih _ (by rw [he.rest]; exact hl) hone hm hp

/-- What a node says itself is for a peer it has, or for the one it connects to. -/
theorem speech_targets {s : Network} (hs : s.toMembership.Sound) (hn : s.toMembership.Pointed) {e : Event}
    (he : s.Enabled e) {targets : List PeerRef} {payload : Payload} (hm : .own targets payload ∈ s.speech e) {p : PeerRef}
    (hp : p ∈ targets) : p < s.peerCount ∨ p = s.peerCount ∧ (s.dials e).isSome := by
  cases e with
  | read q received reached =>
    have hq := (hs.listening q he).1
    cases hparse : parseMessage received with
    | error err =>
      simp only [speech, hparse] at hm
      cases List.mem_singleton.mp hm
    | ok msg =>
      obtain ⟨stamp, payload'⟩ := msg
      by_cases hl : (s.findLog ⟨stamp, payload'⟩).isSome = true
      · simp only [speech, hparse, hl, if_true] at hm
        cases hm
      · simp only [speech, hparse, hl, Bool.false_eq_true, if_false] at hm
        rcases List.mem_append.mp hm with hm | hm
        · obtain ⟨_, _, _, hu⟩ := relay_plain hm
          cases hu
        · cases payload' with
          | join id pubK port =>
            simp only [messageSpeech] at hm
            split at hm
            · exact Or.inl (answerSpeech_targets (fun g r hr => hn.greet hs q _ _ _ hr) hq hm hp)
            · cases hm
          | joinNotif marker channel groupId peerId pubK ip port =>
            simp only [messageSpeech, notifSpeech] at hm
            split at hm
            · rename_i hack
              cases reached with
              | none => cases List.mem_singleton.mp hm
              | some address =>
                rcases List.mem_cons.mp hm with hm | hm
                · cases hm
                · rw [ackSpeech_targets hm] at hp
                  exact Or.inr ⟨List.mem_singleton.mp hp, by rw [dials_notif hparse hl hack]; rfl⟩
            · cases hm
          | joinAck groupId peerId pubK => cases hm
          | ready => exact Or.inl (readySpeech_targets _ s.toMembership hs.localPeer hn hm hp)
          | readyNotif =>
            exact Or.inl (checkSpeech_targets (m := s.setState q .connected) hn
              (fun r port hr => waiting_lt (hs.setState (hs.listening q he) .connected) hr) hm hp)
          | data marker content => cases List.mem_singleton.mp hm
  | readyTimer id =>
    simp only [speech] at hm
    split at hm
    · cases hm
    · rename_i t ht
      cases List.mem_singleton.mp hm
      rw [List.mem_singleton.mp hp]
      exact Or.inl (hs.readyTimers id t ht).1
  | joinTimer id =>
    simp only [speech] at hm
    split at hm
    · cases hm
    · rename_i t ht
      exact Or.inl (checkSpeech_targets (m := s.setState t.peer .connected) hn
        (fun r port hr => waiting_lt (hs.setState (hs.joinTimers id t ht) .connected) hr) hm hp)
  | join ip port reached =>
    cases reached with
    | none => cases hm
    | some address =>
      rcases List.mem_cons.mp hm with hm | hm
      · cases hm
      · cases List.mem_singleton.mp hm
        exact Or.inr ⟨List.mem_singleton.mp hp, rfl⟩
  | broadcast content =>
    simp only [speech] at hm
    split at hm
    · cases hm
    · rename_i g hg
      cases List.mem_singleton.mp hm
      exact Or.inl (hn g p (Or.inr (Or.inr hp)))
  | sendAll message =>
    obtain ⟨q, -, hu⟩ := List.mem_map.mp hm
    cases hu
  | accept address => cases hm
  | eof q => cases hm
  | readError q => cases hm

/-- The switch sends nothing but messages of our own. -/
theorem messageSpeech_sends (s : Network) (m : Message) (received : Bytes) (q : PeerRef) (reached : Option Bytes)
    {p : PeerRef} {bytes : Bytes} : .plain (.sent p bytes) ∉ s.messageSpeech m received q reached := by
  intro h
  obtain ⟨stamp, payload⟩ := m
  cases payload with
  | join id pubK port =>
    simp only [messageSpeech] at h
    split at h
    · exact answerSpeech_own _ _ _ _ h
    · cases h
  | joinNotif marker channel groupId peerId pubK ip port =>
    simp only [messageSpeech, notifSpeech] at h
    split at h
    · cases reached with
      | none => cases List.mem_singleton.mp h
      | some address =>
        rcases List.mem_cons.mp h with h | h
        · cases h
        · exact ackSpeech_own _ _ _ h
    · cases h
  | joinAck groupId peerId pubK => cases h
  | ready =>
    obtain ⟨targets, hu⟩ := readySpeech_mem _ _ _ h
    cases hu
  | readyNotif => exact checkSpeech_own _ _ h
  | data marker content => cases List.mem_singleton.mp h

/-- So is what it passes on. -/
theorem speech_passes {s : Network} (hs : s.toMembership.Sound) (hn : s.toMembership.Pointed) {e : Event} {p : PeerRef}
    {bytes : Bytes} (hm : .plain (.sent p bytes) ∈ s.speech e) : p < s.peerCount := by
  cases e with
  | read q received reached =>
    cases hparse : parseMessage received with
    | error err =>
      simp only [speech, hparse] at hm
      cases List.mem_singleton.mp hm
    | ok msg =>
      by_cases hl : (s.findLog msg).isSome = true
      · simp only [speech, hparse, hl, if_true] at hm
        cases hm
      · simp only [speech, hparse, hl, Bool.false_eq_true, if_false] at hm
        rcases List.mem_append.mp hm with hm | hm
        · unfold relay at hm
          split at hm
          · cases hm
          · simp only at hm
            split at hm
            · cases hm
            · rename_i g _
              obtain ⟨x, hx, he⟩ := List.mem_map.mp hm
              cases he
              obtain ⟨r, hr, he⟩ := List.mem_map.mp hx
              cases he
              exact hn g p (Or.inr (Or.inr hr))
        · exact absurd hm (messageSpeech_sends s msg received q reached)
  | sendAll message =>
    obtain ⟨q, hq, hu⟩ := List.mem_map.mp hm
    cases hu
    obtain ⟨x, hx, rfl⟩ := List.mem_map.mp hq
    exact (hs.peers x.1 x.2 (OrdMap.mem_entries.mp hx)).1
  | accept address => cases hm
  | eof q => cases hm
  | readError q => cases hm
  | readyTimer id =>
    simp only [speech] at hm
    split at hm
    · cases hm
    · exact absurd hm (cons_own nil_own _)
  | joinTimer id =>
    simp only [speech] at hm
    split at hm
    · cases hm
    · exact absurd hm (checkSpeech_own _ _)
  | join ip port reached =>
    cases reached with
    | none => cases hm
    | some address =>
      rcases List.mem_cons.mp hm with hm | hm
      · cases hm
      · exact absurd hm (cons_own nil_own _)
  | broadcast content =>
    simp only [speech] at hm
    split at hm
    · cases hm
    · exact absurd hm (cons_own nil_own _)

/-- Whatever a node has sent went to a peer it has. -/
theorem step_targets {s s' : Network} {e : Event} (hs : Reachable s) (hst : Step s e s') {p : PeerRef} {bytes : Bytes}
    (hm : .sent p bytes ∈ s.effects s') : p < s'.peerCount := by
  obtain ⟨he, rounds, hh⟩ := hst
  have hle : s.peerCount ≤ s'.peerCount := by
    rw [handle_membership hh]
    exact Membership.apply_peerCount hs.sound (change_awaits he)
  rcases (handle_speech hs.sound he hh).sent hm with ⟨targets, payload, now, hu, hp, -⟩ | hu
  · rcases speech_targets hs.sound hs.pointed he hu hp with hp | ⟨rfl, hd⟩
    · exact Nat.lt_of_lt_of_le hp hle
    · obtain ⟨⟨address, id, key⟩, hn⟩ := Option.isSome_iff_exists.mp ((change_newcomer s e).mpr (Or.inr hd))
      rw [handle_membership hh, (Membership.apply_newcomer hs.sound hn).1]
      exact Nat.lt_succ_self _
  · exact Nat.lt_of_lt_of_le (speech_passes hs.sound hs.pointed hu) hle

theorem Reach.targets {allowed : Network → Event → Prop} {s : Network} (hs : Reach allowed s) {p : PeerRef}
    {bytes : Bytes} (hm : .sent p bytes ∈ s.trace) : p < s.peerCount := by
  induction hs with
  | start id pubK port clock => cases hm
  | @step s s' e hs _ hst ih =>
    obtain ⟨he, rounds, hh⟩ := id hst
    obtain ⟨es, hes, -⟩ := handle_voices hs.sound he hh
    rw [hes, List.mem_append] at hm
    rcases hm with hm | hm
    · refine Nat.lt_of_lt_of_le (ih hm) ?_
      rw [handle_membership hh]
      exact Membership.apply_peerCount hs.sound (change_awaits he)
    · rw [← effects_append hes] at hm
      exact step_targets hs.reachable hst hm

end Network

end RacKun
