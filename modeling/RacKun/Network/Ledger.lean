/-
  RacKun.Network.Ledger — what an event enters in the log, and whom it counts.

  A counter is that of an ID for a stamp, 0 where there is none. Whatever a node says
  itself only makes entries whose counters are 0 (`Books` with no credits); a reception
  is credited in three places: when the message is logged already, when its emitter is
  known, and once more in the switch for a JOIN and a JOIN Acknowledgement, by then under
  the ID the message announces.

  - `logMessage_books`: one call of `log_message`.
  - `step_books`: the credits of an event, and the messages it logs.
-/

import RacKun.Network.Frame
import RacKun.Network.Once

namespace RacKun

open Lib (OrdMap bind_ok pure_ok ok_bind)

open Scenario

/-! ## The history -/

namespace History

/-- The counter of an ID for a stamp. -/
def count (h : History) (stamp id : Bytes) : Nat := ((h.find? stamp).bind fun l => l.control.find? id).getD 0

theorem mem_insert {h : History} {l l' : MessageLog} (hl : l' ∈ (h.insert l).entries) : l' ∈ h.entries ∨ l' = l := by
  unfold insert at hl
  split at hl
  · exact Or.inl hl
  · exact (List.mem_append.mp hl).imp_right List.mem_singleton.mp

theorem mem_ack {h : History} {stamp id : Bytes} {l' : MessageLog} (hl : l' ∈ (h.ack stamp id).entries) :
    ∃ l ∈ h.entries, l.message = l'.message := by
  obtain ⟨l, hm, rfl⟩ := List.mem_map.mp hl
  refine ⟨l, hm, ?_⟩
  split <;> rfl

/-- An entry that has counted nothing changes no counter. -/
theorem count_insert {h : History} {l : MessageLog} (hz : ∀ id, (l.control.find? id).getD 0 = 0) (stamp id : Bytes) :
    (h.insert l).count stamp id = h.count stamp id := by
  cases hn : h.find? l.stamp with
  | none =>
    rw [count, count, find_insert hn]
    split
    · rename_i hs
      subst hs
      rw [hn]
      exact hz id
    · rfl
  | some l' =>
    have hm : l.stamp ∈ h.entries.map MessageLog.stamp :=
      List.mem_map.mpr ⟨l', List.mem_of_find?_eq_some hn, by simpa using List.find?_some hn⟩
    rw [insert, dif_pos hm]

theorem count_ack {h : History} {stamp : Bytes} (hs : (h.find? stamp).isSome) (id q i : Bytes) :
    (h.ack stamp id).count q i = h.count q i + if q = stamp ∧ i = id then 1 else 0 := by
  rw [count, count, find_ack]
  by_cases hq : q = stamp
  · subst hq
    obtain ⟨l, hl⟩ := Option.isSome_iff_exists.mp hs
    by_cases hi : i = id
    · subst hi
      simp [hl, MessageLog.ack]
    · simp [hl, MessageLog.ack, OrdMap.find_insert, hi]
  · simp [hq]

end History

/-! ## Who is local -/

namespace Membership

/-- The local peer is, and no other. -/
def OneLocal (m : Membership) : Prop := ∀ q, q < m.peerCount → ((m.peer q).isLocal = true ↔ q = m.localPeer)

section

variable {m : Membership}

theorem OneLocal.modPeer (h : m.OneLocal) (p : PeerRef) {f : Peer → Peer}
    (hf : (f (m.peer p)).isLocal = (m.peer p).isLocal) : (m.modPeer p f).OneLocal := by
  intro q hq
  show _ ↔ q = m.localPeer
  rw [← h q hq]
  by_cases hqp : q = p
  · subst hqp
    rw [modPeer_self, hf]
  · rw [modPeer_of_ne hqp]

theorem OneLocal.setState (h : m.OneLocal) (p : PeerRef) (st : PeerState) : (m.setState p st).OneLocal := h.modPeer p rfl

theorem OneLocal.initPeer (h : m.OneLocal) (p : PeerRef) (id pubK : Bytes) : (m.initPeer p id pubK).OneLocal :=
  h.modPeer p rfl

theorem OneLocal.startListening (h : m.OneLocal) (p : PeerRef) : (m.startListening p).OneLocal := h.modPeer p rfl

theorem OneLocal.newPeer (h : m.OneLocal) (hl : m.localPeer < m.peerCount) (address : Bytes) :
    (m.newPeer address).OneLocal := by
  intro q hq
  by_cases hqm : q = m.peerCount
  · subst hqm
    rw [newPeer_self]
    exact ⟨fun hc => (by cases hc), fun hc => absurd hc (Nat.ne_of_gt hl)⟩
  · rw [newPeer_of_ne hqm]
    exact h q (Nat.lt_of_le_of_ne (Nat.le_of_lt_succ hq) hqm)

theorem OneLocal.of_eq (h : m.OneLocal) {n : Membership} (hp : n.peer = m.peer) (hl : n.localPeer = m.localPeer)
    (hc : n.peerCount = m.peerCount) : n.OneLocal := by
  intro q hq
  rw [hp, hl]
  exact h q (hc ▸ hq)

variable [Platform]

theorem enterChannels_localPeer (hs : m.Sound) (p : PeerRef) :
    (m.enterChannels p).localPeer = m.localPeer := by
  cases hl : m.localGroup with
  | none => simp only [enterChannels, hl]
  | some l => rw [enterChannels_eq hl, modGroups_eq _ hs.values_nodup]

theorem OneLocal.check (h : m.OneLocal) : m.check.OneLocal :=
  h.of_eq (check_peer m).1 (check_peer m).2.1 (check_peer m).2.2

theorem OneLocal.greet (h : m.OneLocal) (p : PeerRef) (id pubK newId : Bytes) : (m.greet p id pubK newId).OneLocal := by
  have hf : (if m.localState ≠ .connected then m.found newId else m).OneLocal := by
    split
    · exact h.setState m.localPeer .connected
    · exact h
  exact (hf.initPeer p id pubK).setState p .joining

theorem OneLocal.apply (h : m.OneLocal) (hs : m.Sound) {c : Change} (hc : m.Awaits c) : (m.apply c).OneLocal := by
  have started : ∀ {n : Membership} (p : PeerRef), n.OneLocal → (n.addNewPeer p).OneLocal := fun p hn =>
    hn.startListening p
  cases c with
  | idle => exact h
  | accept address => exact started _ (h.newPeer hs.localPeer address)
  | contact address => exact started _ ((h.newPeer hs.localPeer address).setState _ .joining)
  | request p id pubK port newId =>
    have hg := h.greet p id pubK newId
    simp only [Membership.apply]
    split
    · exact hg.of_eq (answer_peer _ p).1 (answer_peer _ p).2.1 (answer_peer _ p).2.2
    · exact hg
  | notified groupId peerId pubK address =>
    simp only [Membership.apply]
    split
    · exact h
    · have hn : ({ m with joinToken := false }.newPeer address).OneLocal :=
        OneLocal.newPeer (m := { m with joinToken := false }) h hs.localPeer address
      exact ((hn.initPeer m.peerCount peerId pubK).setState m.peerCount .joining).startListening m.peerCount
  | unreached => exact h
  | channels peerId =>
    simp only [Membership.apply]
    split
    · exact h
    · cases hl : m.localGroup with
      | none => simp only [enterChannels, hl]; exact h
      | some l => rw [enterChannels_eq hl, modGroups_eq _ hs.values_nodup]; exact h
  | acked p groupId peerId pubK =>
    have hg : (m.ackGroup groupId).2.OneLocal := by
      unfold ackGroup
      split
      · exact h
      · split <;> exact h
    exact (hg.initPeer p peerId pubK).setState p .connected
  | ready =>
    refine List.foldlRecOn m.groups.values readyOne h fun n hn g _ => ?_
    unfold readyOne
    split
    · exact hn
    · unfold enterRings
      split
      · exact hn
      · split
        · exact hn.setState n.localPeer .connected
        · exact hn
  | completed p => exact (h.setState p .connected).check
  | expired id =>
    simp only [Membership.apply]
    split
    · exact h
    · rename_i t _
      refine OneLocal.check ?_
      exact h.setState t.peer .connected
  | readySent id =>
    simp only [Membership.apply]
    split <;> exact h
  | closed p =>
    have hr : ((m.stopListening p).remove p).OneLocal := by
      rw [remove_frame (hs.stopListening (hs.listening p hc)) p]
      exact h.modPeer p (f := fun x => { x with listening := false }) rfl
    simp only [Membership.apply, reset]
    split
    · exact hr.setState _ .new
    · exact hr
  | failed p => exact h.modPeer p rfl

end

end Membership

namespace Network

/-! ## The books -/

def counter (s : Network) (stamp id : Bytes) : Nat := s.logs.count stamp id

/-- What has been logged is logged still or is one of these messages, and the counters
    have gone up by these credits. -/
structure Books (E : Bytes → Prop) (credits : List (Bytes × Bytes)) (s s' : Network) : Prop where
  messages : ∀ l' ∈ s'.logs.entries, (∃ l ∈ s.logs.entries, l.message = l'.message) ∨ E l'.message
  counts : ∀ stamp id, s'.counter stamp id = s.counter stamp id + credits.count (stamp, id)

variable {E : Bytes → Prop}

theorem Books.same {s s' : Network} (h : s'.logs = s.logs) : Books E [] s s' :=
  ⟨fun l hl => Or.inl ⟨l, h ▸ hl, rfl⟩, fun stamp id => by rw [counter, h]; rfl⟩

theorem Books.trans {c c' : List (Bytes × Bytes)} {s t u : Network} (h : Books E c s t) (h' : Books E c' t u) :
    Books E (c ++ c') s u := by
  refine ⟨fun l hl => ?_, fun stamp id => ?_⟩
  · rcases h'.messages l hl with ⟨k, hk, he⟩ | he
    · rw [← he]
      exact h.messages k hk
    · exact Or.inr he
  · rw [h'.counts, h.counts, List.count_append, Nat.add_assoc]

/-- The same, with nothing credited before. -/
theorem Books.after {c : List (Bytes × Bytes)} {s t u : Network} (h : Books E [] s t) (h' : Books E c t u) :
    Books E c s u := h.trans h'

/-- The same, with nothing credited afterwards. -/
theorem Books.before {c : List (Bytes × Bytes)} {s t u : Network} (h : Books E c s t) (h' : Books E [] t u) :
    Books E c s u := List.append_nil c ▸ h.trans h'

theorem expected_zero (s : Network) (g : GroupRef) (id : Bytes) : ((s.expected g).find? id).getD 0 = 0 := by
  refine List.foldlRecOn (motive := fun control => (OrdMap.find? control id).getD 0 = 0) _ _ rfl fun control hc p _ => ?_
  rw [OrdMap.find_insert]
  split
  · rfl
  · exact hc

theorem enterLog_books {s s' : Network} {m : Message} (he : E m.serialize) (h : s.enterLog m = .ok s') :
    Books E [] s s' := by
  have entry : ∀ {t : Network} {control : OrdMap Bytes Nat}, (∀ id, (control.find? id).getD 0 = 0) →
      t.logs = s.logs.insert ⟨m.serialize, control⟩ → Books E [] s t := by
    intro t control hz ht
    refine ⟨fun l hl => ?_, fun stamp id => ?_⟩
    · rw [ht] at hl
      rcases History.mem_insert hl with hl | rfl
      · exact Or.inl ⟨l, hl, rfl⟩
      · exact Or.inr he
    · rw [counter, ht, History.count_insert hz]
      rfl
  cases hl : s.findLog m with
  | some l =>
    rw [enterLog_logged hl] at h
    cases h
    exact .same rfl
  | none =>
    cases hb : m.bcastMarker? with
    | none =>
      rw [enterLog_plain hl hb] at h
      cases h
      exact entry (fun id => rfl) rfl
    | some marker =>
      cases hg : s.groups.find? (s.markerGid marker) with
      | none => rw [enterLog_null hl hb hg] at h; cases h
      | some g =>
        rw [enterLog_broadcast hl hb hg] at h
        cases h
        exact entry (expected_zero s g) rfl

theorem count_one (stamp id q i : Bytes) : [(stamp, id)].count (q, i) = if q = stamp ∧ i = id then 1 else 0 := by
  rw [List.count_singleton]
  simp only [beq_iff_eq, Prod.mk.injEq, @eq_comm _ q, @eq_comm _ i]

theorem logMessage_books {s s' : Network} {m : Message} {p : PeerRef} (he : E m.serialize)
    (h : s.logMessage m p = .ok s') :
    Books E (if (s.peer p).isLocal then [] else [(stampOf m, s.getId p)]) s s' := by
  obtain ⟨t, ht, h⟩ := bind_ok.mp h
  have hb := enterLog_books he ht
  have hl := enterLog_logs ht
  have hm := hl.membership
  rw [← pure_ok.mp h, hm]
  split
  · exact hb
  · refine hb.after ⟨fun l hl => Or.inl (History.mem_ack hl), fun stamp id => ?_⟩
    rw [counter, History.count_ack hl.logged, count_one, Membership.getId]
    rfl

/-! ## What a node says itself -/

/-- Stamped by this author. -/
def MadeBy [Platform] (author : Bytes) (bytes : Bytes) : Prop :=
  ∃ payload now, bytes = (Message.makeStamp payload author now).serialize

/-- The local peer, under this ID. -/
structure Author (author : Bytes) (s : Network) : Prop where
  id : s.getId s.localPeer = author
  isLocal : (s.peer s.localPeer).isLocal = true

variable [Platform]

/-- Nothing is counted, and only messages of our own are entered. -/
structure Says (author : Bytes) (s s' : Network) : Prop where
  books : Books (MadeBy author) [] s s'
  author : Author author s'

variable {author : Bytes}

theorem Says.trans {s t u : Network} (h : Says author s t) (h' : Says author t u) : Says author s u :=
  ⟨h.books.after h'.books, h'.author⟩

/-- The membership before does not matter. -/
theorem Says.before {s s' : Network} {m : Membership} (h : Says author { s with toMembership := m } s') :
    Says author s s' := ⟨⟨h.books.messages, h.books.counts⟩, h.author⟩

theorem says_nothing {s s' : Network} (hl : s'.logs = s.logs) (ha : Author author s') : Says author s s' :=
  ⟨.same hl, ha⟩

/-- A message of our own is stamped, sent and logged. -/
theorem utters {s s' : Network} {payload : Payload} {es : List Effect} (ha : Author author s)
    (h : ((s.makeStamp payload).2.record es).logMessage (s.makeStamp payload).1 s.localPeer = .ok s') :
    Says author s s' := by
  have hb := logMessage_books (E := MadeBy author) ⟨payload, s.clock 0, by rw [← ha.id]; rfl⟩ h
  have hi : (((s.makeStamp payload).2.record es).peer s.localPeer).isLocal = true := ha.isLocal
  rw [hi, if_pos rfl] at hb
  have hs : Books (MadeBy author) [] s ((s.makeStamp payload).2.record es) := .same rfl
  have hm : s'.toMembership = ((s.makeStamp payload).2.record es).toMembership := logMessage_membership h
  exact ⟨hs.after hb, by rw [hm]; exact ha.id, by rw [hm]; exact ha.isLocal⟩

theorem send_speaks {s s' : Network} {payload : Payload} {p : PeerRef} (ha : Author author s)
    (h : s.send payload p = .ok s') : Says author s s' := utters ha h

theorem originate_speaks {s s' : Network} {g : GroupRef} {m : Message} (ha : Author author s)
    (h : s.broadcast g m true = .ok s') : Says author s s' := by
  rw [broadcast_stamped] at h
  exact utters ha h

theorem acknowledgeJoin_speaks {s s' : Network} {p : PeerRef} {g : GroupRef} (ha : Author author s)
    (h : s.acknowledgeJoin p g = .ok s') : Says author s s' := by
  obtain ⟨l, -, h⟩ := bind_ok.mp h
  obtain ⟨t, ht, h⟩ := bind_ok.mp h
  have hs := send_speaks (s := { s with toMembership := s.takeIn p g }) ⟨ha.id, ha.isLocal⟩ ht
  rw [← pure_ok.mp h]
  exact hs.before.trans (says_nothing rfl ⟨hs.author.id, hs.author.isLocal⟩)

theorem answerJoinRequest_speaks {s s' : Network} {p : PeerRef} {port : Port} (ha : Author author s)
    (h : s.answerJoinRequest p port = .ok s') : Says author s s' := by
  obtain ⟨l, -, h⟩ := bind_ok.mp h
  obtain ⟨t, ht, h⟩ := bind_ok.mp h
  obtain ⟨u, hu, h⟩ := bind_ok.mp h
  have hs := originate_speaks (s := { s with joinToken := false }) ⟨ha.id, ha.isLocal⟩ ht
  have hs' := acknowledgeJoin_speaks (s := { t with newPeers := t.newPeers.erase (s.peer p).address })
    ⟨hs.author.id, hs.author.isLocal⟩ hu
  rw [← pure_ok.mp h]
  exact hs.before.trans (hs'.before.trans (says_nothing rfl ⟨hs'.author.id, hs'.author.isLocal⟩))

theorem checkForNewPeers_speaks {s s' : Network} (ha : Author author s) (h : s.checkForNewPeers = .ok s') :
    Says author s s' := by
  obtain ⟨r, -, h⟩ := bind_ok.mp h
  split at h
  · exact answerJoinRequest_speaks ha h
  · cases h
    exact says_nothing rfl ⟨ha.id, ha.isLocal⟩

omit [Platform] in
/-- Turning a state changes neither the ID nor who is local. -/
theorem Author.setState {s : Network} (ha : Author author s) (p : PeerRef) (st : PeerState) :
    Author author { s with toMembership := s.setState p st } := by
  refine ⟨(congrFun (Membership.setState_getId s.toMembership p st) s.localPeer).trans ha.id, ?_⟩
  show ((s.setState p st).peer s.localPeer).isLocal = true
  by_cases hp : s.localPeer = p
  · rw [hp, Membership.setState, Membership.modPeer_self, ← hp]
    exact ha.isLocal
  · rw [Membership.setState, Membership.modPeer_of_ne hp]
    exact ha.isLocal

omit [Platform] in
/-- Nor does naming another peer. -/
theorem Author.initPeer {s : Network} (ha : Author author s) {p : PeerRef} (hp : p ≠ s.localPeer) (id pubK : Bytes) :
    Author author { s with toMembership := s.initPeer p id pubK } := by
  have hl : (s.initPeer p id pubK).peer s.localPeer = s.peer s.localPeer := Membership.modPeer_of_ne hp.symm _
  exact ⟨(congrArg Peer.id hl).trans ha.id, (congrArg Peer.isLocal hl).trans ha.isLocal⟩

theorem completeJoin_speaks {s s' : Network} {p : PeerRef} (ha : Author author s) (h : s.completeJoin p = .ok s') :
    Says author s s' := by
  have ha' := ha.setState p .connected
  have hs := checkForNewPeers_speaks (s := { s with toMembership := { s.setState p .connected with
    joinTimers := s.joinTimers.erase ((s.setState p .connected).getId p) } }) ⟨ha'.id, ha'.isLocal⟩ h
  exact hs.before

theorem sendReady_speaks {s s' : Network} {p : PeerRef} (ha : Author author s) (h : s.sendReady p = .ok s') :
    Says author s s' := by
  obtain ⟨t, ht, h⟩ := bind_ok.mp h
  have hs := send_speaks ha ht
  rw [← pure_ok.mp h]
  exact hs.trans (says_nothing rfl ⟨hs.author.id, hs.author.isLocal⟩)

theorem enterRings_author {s : Network} (ha : Author author s) (l g : GroupRef) :
    Author author { s with toMembership := s.enterRings l g } := by
  have hc := ha.setState s.localPeer .connected
  unfold Membership.enterRings
  split
  · exact ⟨ha.id, ha.isLocal⟩
  · split
    · exact ⟨hc.id, hc.isLocal⟩
    · exact ha

theorem processReady_speaks {s s' : Network} (ha : Author author s) (h : s.processReady = .ok s') : Says author s s' := by
  have run : ∀ (l : List GroupRef) (s s' : Network), Author author s → l.foldlM readyGroup s = .ok s' →
      Says author s s' := by
    intro l
    induction l with
    | nil =>
      intro s s' ha h
      rw [← pure_ok.mp h]
      exact says_nothing rfl ha
    | cons g l ih =>
      intro s s' ha h
      rw [List.foldlM_cons] at h
      obtain ⟨t, ht, h⟩ := bind_ok.mp h
      have hs : Says author s t := by
        obtain ⟨k, -, ht⟩ := bind_ok.mp ht
        have hr := enterRings_author ha k g
        simp only at ht
        split at ht
        · exact (utters (s := { s with toMembership := s.enterRings k g }) hr ht).before
        · cases ht
          exact says_nothing rfl hr
      exact hs.trans (ih t s' hs.author h)
  exact run _ s s' ha h

/-! ## What a node hears -/

/-- The credits of the switch: one for the ID a message announces. -/
def credited (m : Message) : List (Bytes × Bytes) :=
  match m.payload with
  | .join id _ _ => [(stampOf m, id)]
  | .joinAck _ peerId _ => [(stampOf m, peerId)]
  | _ => []

/-- The credits of an event. -/
def credits (s : Network) : Event → List (Bytes × Bytes)
  | .read p received _ =>
    match parseMessage received with
    | .error _ => []
    | .ok m =>
      match s.findLog m with
      | some _ => [(stampOf m, s.getId p)]
      | none => (if (s.peer p).isKnown then [(stampOf m, s.getId p)] else []) ++ credited m
  | _ => []

/-- These credits, and besides our own messages only this one is entered. -/
structure Hears (author : Bytes) (m : Message) (credits : List (Bytes × Bytes)) (s s' : Network) : Prop where
  books : Books (fun b => MadeBy author b ∨ b = m.serialize) credits s s'
  author : Author author s'

omit [Platform] in
theorem Books.mono {E' : Bytes → Prop} {c : List (Bytes × Bytes)} {s s' : Network} (h : Books E c s s')
    (he : ∀ b, E b → E' b) : Books E' c s s' :=
  ⟨fun l hl => (h.messages l hl).imp_right (he _), h.counts⟩

theorem Says.hears {s s' : Network} (h : Says author s s') (m : Message) : Hears author m [] s s' :=
  ⟨h.books.mono fun _ => Or.inl, h.author⟩

theorem Hears.trans {m : Message} {c c' : List (Bytes × Bytes)} {s t u : Network} (h : Hears author m c s t)
    (h' : Hears author m c' t u) : Hears author m (c ++ c') s u := ⟨h.books.trans h'.books, h'.author⟩

theorem Hears.then {m : Message} {c : List (Bytes × Bytes)} {s t u : Network} (h : Hears author m c s t)
    (h' : Says author t u) : Hears author m c s u := ⟨h.books.before (h'.hears m).books, h'.author⟩

theorem Hears.before {m : Message} {c : List (Bytes × Bytes)} {s s' : Network} {n : Membership}
    (h : Hears author m c { s with toMembership := n } s') : Hears author m c s s' :=
  ⟨⟨h.books.messages, h.books.counts⟩, h.author⟩

/-- The message received is logged, for a peer that is not local. -/
theorem noted {s s' : Network} {m : Message} {p : PeerRef} (ha : Author author s) (hp : (s.peer p).isLocal = false)
    (h : s.logMessage m p = .ok s') : Hears author m [(stampOf m, s.getId p)] s s' := by
  have hb := logMessage_books (E := fun b => MadeBy author b ∨ b = m.serialize) (Or.inr rfl) h
  have hm := logMessage_membership h
  rw [hp] at hb
  exact ⟨hb, by rw [hm]; exact ha.id, by rw [hm]; exact ha.isLocal⟩

theorem logKnown_hears {s s' : Network} {m : Message} {p : PeerRef} (ha : Author author s)
    (hp : (s.peer p).isLocal = false) (h : s.logKnown m p = .ok s') :
    Hears author m (if (s.peer p).isKnown then [(stampOf m, s.getId p)] else []) s s' := by
  unfold logKnown at h
  split at h
  · rename_i hk
    rw [if_pos hk]
    exact noted ha hp h
  · rename_i hk
    cases h
    rw [if_neg hk]
    exact (says_nothing rfl ha).hears m

theorem forward_hears {s s' : Network} {m : Message} (ha : Author author s) (h : s.forward m = .ok s') :
    Hears author m [] s s' := by
  have nothing : Hears author m [] s s := (says_nothing rfl ha).hears m
  unfold forward at h
  split at h
  · cases h
    exact nothing
  · split at h
    · cases h
      exact nothing
    · split at h
      · cases h
      · rename_i g _
        rw [broadcast_relayed] at h
        have hb := logMessage_books (E := fun b => MadeBy author b ∨ b = m.serialize) (Or.inr rfl) h
        have hm := logMessage_membership h
        have hi : ((s.record ((s.group g).successors.values.map (.sent · m.serialize))).peer s.localPeer).isLocal = true :=
          ha.isLocal
        rw [hi, if_pos rfl] at hb
        have hs : Books (fun b => MadeBy author b ∨ b = m.serialize) [] s
            (s.record ((s.group g).successors.values.map (.sent · m.serialize))) := .same rfl
        exact ⟨hs.after hb, by rw [hm]; exact ha.id, by rw [hm]; exact ha.isLocal⟩

omit [Platform] in
/-- A peer that has just told us his ID. -/
theorem named {s : Network} {p : PeerRef} (ha : Author author s) (hp : p ≠ s.localPeer)
    (hn : (s.peer p).isLocal = false) (id pubK : Bytes) (st : PeerState) :
    let n : Network := { s with toMembership := (s.initPeer p id pubK).setState p st }
    Author author n ∧ (n.peer p).isLocal = false ∧ n.getId p = id := by
  intro n
  have hx : n.peer p = { s.peer p with id := id, pubIdKey := pubK, state := st } := by
    show ((s.initPeer p id pubK).setState p st).peer p = _
    rw [Membership.setState, Membership.modPeer_self, Membership.initPeer, Membership.modPeer_self]
  refine ⟨(ha.initPeer hp id pubK).setState p st, ?_, ?_⟩
  · rw [hx]
    exact hn
  · exact congrArg Peer.id hx

theorem foundGroup_speaks {s : Network} (ha : Author author s) {p : PeerRef} (hp : p ≠ s.localPeer) :
    Says author s s.foundGroup ∧ s.foundGroup.peer p = s.peer p := by
  have hc := ha.setState s.localPeer .connected
  have hx : (s.setState s.localPeer .connected).peer p = s.peer p := Membership.modPeer_of_ne hp _
  exact ⟨says_nothing rfl ⟨hc.id, hc.isLocal⟩, hx⟩

theorem greeted_hears {s s' : Network} {m : Message} {p : PeerRef} {id pubK : Bytes} (ha : Author author s)
    (hp : p ≠ s.localPeer) (hn : (s.peer p).isLocal = false) (h : s.greeted m p id pubK = .ok s') :
    Hears author m [(stampOf m, id)] s s' := by
  unfold greeted at h
  simp only at h
  obtain ⟨t, hf, hs, htl, htp⟩ : ∃ t : Network, t = (if s.localState ≠ .connected then s.foundGroup else s) ∧
      Says author s t ∧ t.localPeer = s.localPeer ∧ t.peer p = s.peer p := by
    refine ⟨_, rfl, ?_⟩
    split
    · exact ⟨(foundGroup_speaks ha hp).1, rfl, (foundGroup_speaks ha hp).2⟩
    · exact ⟨says_nothing rfl ha, rfl, rfl⟩
  rw [← hf] at h
  obtain ⟨ha', hn', hid⟩ := named hs.author (htl ▸ hp) (htp ▸ hn) id pubK .joining
  have hh := noted ha' hn' h
  rw [hid] at hh
  exact (hs.hears m).trans hh.before

theorem processJoin_hears {s s' : Network} {m : Message} {p : PeerRef} {id pubK : Bytes} {port : Port}
    (ha : Author author s) (hp : p ≠ s.localPeer) (hn : (s.peer p).isLocal = false)
    (h : s.processJoin m p id pubK port = .ok s') : Hears author m [(stampOf m, id)] s s' := by
  rw [processJoin_eq] at h
  obtain ⟨t, ht, h⟩ := bind_ok.mp h
  have hh := greeted_hears ha hp hn ht
  refine hh.then ?_
  split at h
  · exact answerJoinRequest_speaks hh.author h
  · cases h
    exact says_nothing rfl ⟨hh.author.id, hh.author.isLocal⟩

theorem hisGroup_speaks {s : Network} (ha : Author author s) (groupId : Bytes) :
    Says author s (s.hisGroup groupId).2 ∧ (s.hisGroup groupId).2.peer = s.peer ∧
      (s.hisGroup groupId).2.localPeer = s.localPeer := by
  have hm := (hisGroup_membership s groupId).2
  have hpeer : (s.hisGroup groupId).2.peer = s.peer :=
    (congrArg Membership.peer hm).trans (Membership.ackGroup_rest s.toMembership groupId).2.1
  have hlocal : (s.hisGroup groupId).2.localPeer = s.localPeer :=
    (congrArg Membership.localPeer hm).trans (Membership.ackGroup_ids s.toMembership groupId).2
  have hlogs : (s.hisGroup groupId).2.logs = s.logs := by
    unfold hisGroup
    split
    · rfl
    · simp only
      split <;> rfl
  refine ⟨says_nothing hlogs ⟨?_, ?_⟩, hpeer, hlocal⟩
  · rw [Membership.getId, hpeer, hlocal]
    exact ha.id
  · rw [hpeer, hlocal]
    exact ha.isLocal

theorem processJoinAck_hears {s s' : Network} {m : Message} {p : PeerRef} {groupId peerId pubK : Bytes}
    (ha : Author author s) (hp : p ≠ s.localPeer) (hn : (s.peer p).isLocal = false)
    (h : s.processJoinAck m p groupId peerId pubK = .ok s') : Hears author m [(stampOf m, peerId)] s s' := by
  obtain ⟨hs, hpeer, hlocal⟩ := hisGroup_speaks ha groupId
  obtain ⟨ha', hn', hid⟩ := named hs.author (hlocal ▸ hp) (hpeer ▸ hn) peerId pubK .connected
  have hh := noted (s := { (s.hisGroup groupId).2 with
    toMembership := (s.hisGroup groupId).2.ackPeer p (s.hisGroup groupId).1 peerId pubK }) ⟨ha'.id, ha'.isLocal⟩ hn' h
  have hid' : ((s.hisGroup groupId).2.ackPeer p (s.hisGroup groupId).1 peerId pubK).getId p = peerId := hid
  rw [hid'] at hh
  exact (hs.hears m).trans hh.before

theorem processJoinNotif_speaks {s s' : Network} {channel : Bool} {groupId peerId pubK ip : Bytes} {port : Port}
    {reached : Option Bytes} (hs : s.toMembership.Sound) (ha : Author author s)
    (h : outcome (s.processJoinNotif channel groupId peerId pubK ip port reached) = some s') : Says author s s' := by
  unfold processJoinNotif at h
  split at h
  · cases h
    exact says_nothing rfl ha
  · obtain ⟨l, hl, h⟩ := outcome_bind (derefLocalGroup_quiet s) h
    split at h
    · cases reached with
      | none =>
        cases h
        exact says_nothing rfl ⟨ha.id, ha.isLocal⟩
      | some address =>
        obtain ⟨⟨q, t⟩, hq, h⟩ := outcome_bind (quiet_ok _) h
        cases hq
        have hl : ((({ s.toMembership with joinToken := false }.newPeer address).enrol s.peerCount peerId pubK).peer
            s.localPeer) = s.peer s.localPeer := by
          have hne := Nat.ne_of_lt hs.localPeer
          exact (Membership.enrol_of_ne (m := { s.toMembership with joinToken := false }.newPeer address) hne peerId
            pubK).trans (Membership.newPeer_of_ne (m := { s.toMembership with joinToken := false }) hne address)
        have h := outcome_quiet (acknowledgeJoin_quiet _ _ _) h
        let t : Network := { s with
          toMembership := ({ s.toMembership with joinToken := false }.newPeer address).enrol s.peerCount peerId pubK
          trace := s.trace ++ [.connected s.peerCount ip (itos port.val)] }
        have ht : Author author t := ⟨(congrArg Peer.id hl).trans ha.id, (congrArg Peer.isLocal hl).trans ha.isLocal⟩
        have hk := acknowledgeJoin_speaks ht h
        exact ⟨⟨hk.books.messages, hk.books.counts⟩, hk.author⟩
    · split at h
      · split at h
        · cases h
          exact says_nothing rfl ha
        · rename_i p _
          cases h
          have hpeer := Membership.enterChannels_peer hs p
          have hlocal := Membership.enterChannels_localPeer hs p
          simp only [Membership.enterChannels, derefLocalGroup_ok.mp hl] at hpeer hlocal
          refine says_nothing rfl ⟨?_, ?_⟩
          · rw [Membership.getId, hpeer, hlocal]
            exact ha.id
          · rw [hpeer, hlocal]
            exact ha.isLocal
      · cases h
        exact says_nothing rfl ha

theorem process_hears {s s' : Network} {m : Message} {p : PeerRef} {reached : Option Bytes} (hs : s.toMembership.Sound)
    (ha : Author author s) (hp : p ≠ s.localPeer) (hn : (s.peer p).isLocal = false)
    (h : outcome (s.process m p reached) = some s') : Hears author m (credited m) s s' := by
  unfold process at h
  unfold credited
  split at h
  · rename_i hm
    rw [hm]
    exact processJoin_hears ha hp hn (outcome_quiet (processJoin_quiet _ _ _ _ _ _) h)
  · rename_i hm
    rw [hm]
    exact (processJoinNotif_speaks hs ha h).hears m
  · rename_i hm
    rw [hm]
    exact processJoinAck_hears ha hp hn (outcome_quiet (processJoinAck_quiet _ _ _ _ _ _) h)
  · rename_i hm
    rw [hm]
    exact (processReady_speaks ha (outcome_quiet (processReady_quiet s) h)).hears m
  · rename_i hm
    rw [hm]
    have hc := checkForNewPeers_speaks (ha.setState p .connected) (outcome_quiet (checkForNewPeers_quiet _) h)
    exact hc.before.hears m
  · rename_i marker content hm
    rw [hm]
    cases h
    have hd : Says author s (s.processData p content) := says_nothing rfl ⟨ha.id, ha.isLocal⟩
    exact hd.hears m

/-! ## Steps -/

/-- The message an event brings. -/
def heard : Event → Option Message
  | .read _ received _ => (parseMessage received).toOption
  | _ => none

/-- Everything in the log is stamped by this node or was parsed from what came in. -/
def Entered (author : Bytes) (e : Event) (bytes : Bytes) : Prop :=
  MadeBy author bytes ∨ ∃ m ∈ heard e, bytes = m.serialize

theorem Reach.oneLocal {allowed : Network → Event → Prop} {s : Network} (hs : Reach allowed s) :
    s.toMembership.OneLocal := by
  refine hs.membership (fun id pubK port clock q hq => ?_) fun s e hr h he _ => h.apply hr.sound (change_awaits he)
  obtain rfl : q = 0 := Nat.lt_one_iff.mp hq
  exact ⟨fun _ => rfl, fun _ => rfl⟩

theorem handleIncomingMessage_books {s s' : Network} {received : Bytes} {p : PeerRef} {reached : Option Bytes}
    (hs : s.toMembership.Sound) (ha : Author author s) (hp : p ≠ s.localPeer) (hn : (s.peer p).isLocal = false)
    (h : s.handleIncomingMessage received p reached = .ok s') :
    Books (Entered author (.read p received reached)) (s.credits (.read p received reached)) s s' := by
  have report : ∀ {c t}, Books (Entered author (.read p received reached)) c s t →
      Books (Entered author (.read p received reached)) c s (t.record [.reported received]) := fun hb =>
    hb.before (.same rfl)
  cases hm : parseMessage received with
  | error e =>
    simp only [handleIncomingMessage, hm] at h
    cases h
    simp only [credits, hm]
    exact report (.same rfl)
  | ok m =>
    cases hl : s.findLog m with
    | some l =>
      rw [handle_logged p reached hm hl] at h
      cases h
      simp only [credits, hm, hl]
      refine ⟨fun l hl => Or.inl (History.mem_ack hl), fun stamp id => ?_⟩
      rw [counter, History.count_ack (Option.isSome_iff_exists.mpr ⟨l, hl⟩), count_one]
      rfl
    | none =>
      obtain ⟨t, u, v, ht, hu, hv, hs'⟩ := handle_received hm hl h
      have hum := (relayed_same ht hu).1
      have hk := logKnown_hears ha hn ht
      have hf := forward_hears hk.author hu
      have hv := process_hears (hum ▸ hs) hf.author (by rw [hum]; exact hp) (by rw [hum]; exact hn) hv
      have hb : Books (Entered author (.read p received reached)) (s.credits (.read p received reached)) s v := by
        simp only [credits, hm, hl]
        refine (hk.trans (hf.trans hv)).books.mono fun b hb => hb.imp_right fun hb => ⟨m, ?_, hb⟩
        rw [heard, hm]
        rfl
      rcases hs' with rfl | rfl
      · exact hb
      · exact report hb

/-- What an event enters in the log, and whom it counts. -/
theorem step_books {s s' : Network} {e : Event} (hs : Reachable s) (hst : Step s e s') :
    Books (Entered (s.getId s.localPeer) e) (s.credits e) s s' := by
  obtain ⟨he, rounds, h⟩ := hst
  have hl := hs.oneLocal
  have ha : Author (s.getId s.localPeer) s := ⟨rfl, (hl _ hs.sound.localPeer).mpr rfl⟩
  have own : ∀ {c t}, Books (MadeBy (s.getId s.localPeer)) c s t → Books (Entered (s.getId s.localPeer) e) c s t :=
    fun hb => hb.mono fun _ => Or.inl
  cases e with
  | read p received reached =>
    have hr := hs.sound.listening p he
    exact handleIncomingMessage_books hs.sound ha hr.2 (Bool.eq_false_iff.mpr fun hc => hr.2 ((hl p hr.1).mp hc)) h
  | accept address =>
    cases h
    exact .same rfl
  | eof p =>
    have hd := handleDisconnect_ok (s := { s with toMembership := s.stopListening p }) h
    exact .same (by rw [hd])
  | readError p =>
    cases h
    exact .same rfl
  | readyTimer id =>
    simp only [handle] at h
    split at h
    · rename_i t _
      exact own (sendReady_speaks (s := { s with readyTimers := s.readyTimers.insert id { t with armed := false } })
        ⟨ha.id, ha.isLocal⟩ h).before.books
    · cases h
      exact .same rfl
  | joinTimer id =>
    simp only [handle] at h
    split at h
    · rename_i t _
      exact own (completeJoin_speaks (s := { s with joinTimers := s.joinTimers.insert id { t with armed := false } })
        ⟨ha.id, ha.isLocal⟩ h).before.books
    · cases h
      exact .same rfl
  | join ip port reached =>
    cases reached with
    | none =>
      cases h
      exact .same rfl
    | some address =>
      let t : Network := { s with
        toMembership := s.apply (.contact address)
        trace := s.trace ++ [.connected s.peerCount ip port] }
      have hlt := hl.apply hs.sound (c := .contact address) trivial
      have hst := hs.sound.apply (c := .contact address) trivial
      have ht : Author (s.getId s.localPeer) t :=
        ⟨Membership.apply_author hs.sound (c := .contact address) trivial, (hlt _ hst.localPeer).mpr rfl⟩
      have hb := (send_speaks ht h).books
      exact own ⟨hb.messages, hb.counts⟩
  | broadcast content =>
    obtain ⟨l, -, h⟩ := bind_ok.mp h
    exact own (originate_speaks ha h).books
  | sendAll message =>
    cases h
    exact .same rfl

/-! ## Counters -/

/-- One copy is counted once, for its emitter, and nothing else is. -/
def CountsOnce (s : Network) (m : Message) (p : PeerRef) (s' : Network) : Prop := ∀ stamp id,
  s'.counter stamp id = s.counter stamp id + if stamp = stampOf m ∧ id = s.getId p then 1 else 0

/-- A copy from an emitter that is known when it arrives. -/
def reception (s : Network) : Event → List (Bytes × Bytes)
  | .read p received _ =>
    match parseMessage received with
    | .error _ => []
    | .ok m => if (s.peer p).isKnown then [(stampOf m, s.getId p)] else []
  | _ => []

/-- The copies received so far from emitters known at the time. -/
def receptions (h : Steps) : List (Bytes × Bytes) := h.flatMap fun x => x.1.reception x.2

/-- What is counted besides: a copy from an emitter that is not known, and the switch's own count. -/
def excess (s : Network) : Event → List (Bytes × Bytes)
  | .read p received _ =>
    match parseMessage received with
    | .error _ => []
    | .ok m =>
      match s.findLog m with
      | some _ => if (s.peer p).isKnown then [] else [(stampOf m, s.getId p)]
      | none => credited m
  | _ => []

/-- A copy from a known emitter is a duplicate, or not of a type the switch counts; a copy
    from any other is new, and not of such a type. -/
def CountedOnce (s : Network) : Event → Prop
  | .read p received _ => ∀ m ∈ (parseMessage received).toOption,
      if (s.peer p).isKnown then (s.findLog m).isSome ∨ ¬ LoggedType m.payload
      else s.findLog m = none ∧ ¬ LoggedType m.payload
  | _ => True

omit [Platform] in
theorem credited_nil {m : Message} : credited m = [] ↔ ¬ LoggedType m.payload := by
  unfold credited LoggedType
  split <;> simp_all

theorem credits_eq (s : Network) (e : Event) : s.credits e = s.reception e ++ s.excess e := by
  cases e with
  | read p received reached =>
    simp only [credits, reception, excess]
    split
    · rfl
    · split
      · split <;> rfl
      · rfl
  | _ => rfl

theorem excess_nil {s : Network} {e : Event} : s.excess e = [] ↔ s.CountedOnce e := by
  cases e with
  | read p received reached =>
    simp only [excess, CountedOnce]
    cases hm : parseMessage received with
    | error e => simp [Except.toOption]
    | ok m =>
      have hone : (∀ m' ∈ (Except.ok m : Except ParseError Message).toOption, if (s.peer p).isKnown then
          (s.findLog m').isSome ∨ ¬ LoggedType m'.payload else s.findLog m' = none ∧ ¬ LoggedType m'.payload) ↔
          if (s.peer p).isKnown then (s.findLog m).isSome ∨ ¬ LoggedType m.payload
          else s.findLog m = none ∧ ¬ LoggedType m.payload := by
        simp [Except.toOption]
      rw [hone, ← credited_nil]
      cases hl : s.findLog m <;> simp [hl]
  | _ => simp [excess, CountedOnce]

/-- The counters are what has been credited. -/
theorem Past.counter {allowed : Steps → Network → Event → Prop} {h : Steps} {s : Network} (hp : Past allowed h s)
    (stamp id : Bytes) : s.counter stamp id =
      (receptions h).count (stamp, id) + (h.flatMap fun x => x.1.excess x.2).count (stamp, id) := by
  induction hp with
  | start id' pubK port clock => rfl
  | @step h s s' e hp _ hst ih =>
    rw [(step_books hp.reach hst).counts, ih, credits_eq, receptions, receptions, List.flatMap_cons, List.flatMap_cons,
      List.count_append, List.count_append, List.count_append]
    simp only
    omega

theorem counts_once_iff {s s' : Network} {p : PeerRef} {received : Bytes} {reached : Option Bytes} {m : Message}
    (hs : Reachable s) (hst : Step s (.read p received reached) s') (hm : parseMessage received = .ok m)
    (hk : (s.peer p).isKnown = true) : CountsOnce s m p s' ↔ (s.findLog m).isSome ∨ ¬ LoggedType m.payload := by
  have hb := (step_books hs hst).counts
  have hr : s.reception (.read p received reached) = [(stampOf m, s.getId p)] := by
    simp only [reception, hm, hk, if_true]
  have he : s.CountedOnce (.read p received reached) ↔ (s.findLog m).isSome ∨ ¬ LoggedType m.payload := by
    simp only [CountedOnce, hm]
    simp [Except.toOption, hk]
  have hc : ∀ stamp id, s'.counter stamp id = s.counter stamp id + (if stamp = stampOf m ∧ id = s.getId p then 1 else 0) +
      (s.excess (.read p received reached)).count (stamp, id) := by
    intro stamp id
    rw [hb, credits_eq, hr, List.count_append, count_one, Nat.add_assoc]
  rw [← he, ← excess_nil]
  refine ⟨fun h => List.eq_nil_iff_forall_not_mem.mpr fun ⟨stamp, id⟩ hx => ?_, fun h stamp id => by rw [hc, h]; rfl⟩
  have hz : (s.excess (.read p received reached)).count (stamp, id) = 0 := by
    have := h stamp id
    rw [hc] at this
    omega
  exact List.count_eq_zero.mp hz hx

/-- A received copy is counted once, for its emitter, unless it is a new JOIN or JOIN
    Acknowledgement from somebody we know; what we send is never counted. -/
theorem counters_exact_iff {h : Steps} {s : Network} (hp : Past (fun _ _ _ => True) h s) :
    (∀ p received reached m s', Step s (.read p received reached) s' → parseMessage received = .ok m →
      (s.peer p).isKnown = true → (CountsOnce s m p s' ↔ (s.findLog m).isSome ∨ ¬ LoggedType m.payload)) ∧
    ((∀ stamp id, s.counter stamp id = (receptions h).count (stamp, id)) ↔ ∀ x ∈ h, x.1.CountedOnce x.2) ∧
    ∀ e s', Step s e s' → (∀ p received reached, e ≠ .read p received reached) → ∀ stamp id,
      s'.counter stamp id = s.counter stamp id := by
  refine ⟨fun p received reached m s' hst hm hk => counts_once_iff hp.reach hst hm hk, ?_, fun e s' hst he stamp id => ?_⟩
  · have hnil : (∀ x ∈ h, x.1.CountedOnce x.2) ↔ (h.flatMap fun x => x.1.excess x.2) = [] := by
      rw [List.flatMap_eq_nil_iff]
      exact forall₂_congr fun x _ => excess_nil.symm
    rw [hnil]
    refine ⟨fun hc => List.eq_nil_iff_forall_not_mem.mpr fun ⟨stamp, id⟩ hx => ?_, fun hn stamp id => by
      rw [hp.counter, hn]
      rfl⟩
    have hz : (h.flatMap fun x => x.1.excess x.2).count (stamp, id) = 0 := by
      have := hc stamp id
      rw [hp.counter] at this
      omega
    exact List.count_eq_zero.mp hz hx
  · have hn : s.credits e = [] := by
      cases e with
      | read p received reached => exact absurd rfl (he p received reached)
      | _ => rfl
    rw [(step_books hp.reach hst).counts, hn]
    rfl

omit [Platform] in
/-- The request of a peer, again. -/
theorem counters_exact_iff_copy : ∃ h s s', @Past sha1 (fun _ _ _ => True) h s ∧
    @Step sha1 s (.read 1 (request 65) none) s' ∧ (s.peer 1).isKnown = true ∧
    @CountsOnce s ⟨idOf 65, .join (idOf 65) (List.replicate 5 65) 7⟩ 1 s' := by
  have hrun : @livesTo sha1 (fun _ _ _ => True) _ node [.accept [9], .read 1 (request 65) none] (fun _ s =>
      decide (s.Enabled (.read 1 (request 65) none) ∧ (s.peer 1).isKnown = true ∧
        (s.findLog ⟨idOf 65, .join (idOf 65) (List.replicate 5 65) 7⟩).isSome = true ∧
        (@handle sha1 1 s (.read 1 (request 65) none)).toOption.any (fun _ => true) = true)) = true := by
    decide +kernel
  obtain ⟨h, s, hp, ht⟩ := @past_of_livesTo sha1 _ _ _ _ _ _ _ _ hrun
  obtain ⟨he, hk, hl, hany⟩ := of_decide_eq_true ht
  obtain ⟨s', hst, -⟩ := @step_of_any sha1 _ _ _ he hany
  exact ⟨h, s, s', hp, hst, hk, ((@counters_exact_iff sha1 h s hp).1 1 (request 65) none _ s' hst (by decide +kernel) hk).mpr
    (Or.inl hl)⟩

omit [Platform] in
/-- A peer that has joined asks again. -/
theorem counted_twice : ¬ ∀ h s, @Past sha1 (fun _ _ _ => True) h s → ∀ p received reached m s',
    @Step sha1 s (.read p received reached) s' → @parseMessage sha1 received = .ok m → (s.peer p).isKnown = true →
      @CountsOnce s m p s' := by
  intro hall
  let e : Event := .read 1 (msg 66 (.join (idOf 65) (List.replicate 5 65) 7)) none
  have hrun : @livesTo sha1 (fun _ _ _ => True) _ node [.accept [9], .read 1 (request 65) none] (fun _ s =>
      decide (s.Enabled e ∧ (s.peer 1).isKnown = true ∧ s.getId 1 = idOf 65 ∧ s.counter (idOf 66) (idOf 65) = 0 ∧
        (@handle sha1 1 s e).toOption.any (fun s' => decide (s'.counter (idOf 66) (idOf 65) = 2)) = true)) = true := by
    decide +kernel
  obtain ⟨h, s, hp, ht⟩ := @past_of_livesTo sha1 _ _ _ _ _ _ _ _ hrun
  obtain ⟨he, hk, hi, h0, hany⟩ := of_decide_eq_true ht
  obtain ⟨s', hst, h2⟩ := @step_of_any sha1 _ _ _ he hany
  have hc := hall h s hp 1 _ none ⟨idOf 66, .join (idOf 65) (List.replicate 5 65) 7⟩ s' hst (by decide +kernel) hk
    (idOf 66) (idOf 65)
  rw [of_decide_eq_true h2, h0, if_pos ⟨by decide, hi.symm⟩] at hc
  cases hc

end Network

end RacKun
