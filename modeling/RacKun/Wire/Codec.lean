/-
  RacKun.Wire.Codec — the parser undoes the serialisers.

  `parse_fields` and `parse_serialize` follow one message of each type through
  `parse_message`: each field is found at its offset because the fields before it have
  their fixed lengths. The two open-ended tails are the port text, read back by
  `readPort_itos`, and the data.
-/

import RacKun.Lib.Fallible
import RacKun.Wire.Message

namespace RacKun

open Lib (bind_ok pure_ok throw_ok)

/-- The fixed-length fields have their lengths, and the ip does not hold the separator. -/
def Payload.WellFormed : Payload → Prop
  | .join id pubK _ => id.length = ID_LENGTH ∧ pubK.length = KEY_LENGTH
  | .joinNotif marker _ groupId peerId pubK ip _ =>
    marker.length = BCAST_MARKER_LENGTH ∧ groupId.length = GROUP_ID_LENGTH ∧ peerId.length = ID_LENGTH ∧
      pubK.length = KEY_LENGTH ∧ colon ∉ ip
  | .joinAck groupId peerId pubK =>
    groupId.length = GROUP_ID_LENGTH ∧ peerId.length = ID_LENGTH ∧ pubK.length = KEY_LENGTH
  | .ready => True
  | .readyNotif => True
  | .data marker _ => marker.length = BCAST_MARKER_LENGTH

def Message.WellFormed (m : Message) : Prop := m.stamp.length = MSG_STAMP_LENGTH ∧ m.payload.WellFormed

/-! ## Reading a field back -/

theorem substr_at {a b c : Bytes} {pos n : Nat} (ha : a.length = pos) (hb : b.length = n) :
    substr (a ++ (b ++ c)) pos n = .ok b := by
  subst ha hb
  simp [substr]

theorem suffix_at {a b : Bytes} {pos : Nat} (ha : a.length = pos) : suffix (a ++ b) pos = .ok b := by
  subst ha
  simp [suffix]

theorem charAt_at {a c : Bytes} {b : Byte} {pos : Nat} (ha : a.length = pos) :
    charAt (a ++ b :: c) pos = .ok b := by
  subst ha
  simp [charAt]

theorem splitAt_sep {c : Byte} {s t : Bytes} (h : c ∉ s) : splitAt c (s ++ c :: t) = (s, t) := by
  have hi : (s ++ c :: t).findIdx? (· = c) = some s.length := by
    have hn : s.findIdx? (· = c) = none :=
      List.findIdx?_eq_none_iff.mpr fun x hx => by simpa using fun e : x = c => h (e ▸ hx)
    simp [List.findIdx?_append, hn, List.findIdx?_cons]
  simp [splitAt, hi]

theorem substr_ok {msg : Bytes} {pos n : Nat} {x : Bytes} :
    substr msg pos n = .ok x ↔ pos ≤ msg.length ∧ x = (msg.drop pos).take n := by
  unfold substr
  split <;> simp [*, eq_comm]

theorem suffix_ok {msg : Bytes} {pos : Nat} {x : Bytes} :
    suffix msg pos = .ok x ↔ pos ≤ msg.length ∧ x = msg.drop pos := by
  unfold suffix
  split <;> simp [*, eq_comm]

theorem charAt_ok {msg : Bytes} {pos : Nat} {b : Byte} :
    charAt msg pos = .ok b ↔ pos ≤ msg.length ∧ b = msg.getD pos 0 := by
  unfold charAt
  split <;> simp [*, eq_comm]

variable [Platform]

theorem readPort_itos (p : Port) : readPort (itos p.val) = p := by
  simp [readPort, extractPort_itos]

theorem parse_fields {m : Message} (h : m.WellFormed) : parseFields m.serialize = .ok m.payload := by
  obtain ⟨stamp, payload⟩ := m
  obtain ⟨hs, hp⟩ := h
  simp only [Message.serialize, Message.type] at hs hp ⊢
  cases payload with
  | join id pubK port =>
    obtain ⟨hi, hk⟩ := hp
    let msg := MessageType.join.code :: (stamp ++ (id ++ pubK ++ itos port.val))
    have h₁ : substr msg (1 + MSG_STAMP_LENGTH) ID_LENGTH = .ok id := by
      simpa [msg] using substr_at (a := MessageType.join.code :: stamp) (c := pubK ++ itos port.val)
        (by rw [List.length_cons, hs]; rfl) hi
    have h₂ : substr msg (1 + MSG_STAMP_LENGTH + ID_LENGTH) KEY_LENGTH = .ok pubK := by
      simpa [msg] using substr_at (a := MessageType.join.code :: (stamp ++ id)) (c := itos port.val)
        (by rw [List.length_cons, List.length_append, hs, hi]; rfl) hk
    have h₃ : suffix msg (1 + MSG_STAMP_LENGTH + ID_LENGTH + KEY_LENGTH) = .ok (itos port.val) := by
      simpa [msg] using suffix_at (a := MessageType.join.code :: (stamp ++ id ++ pubK)) (b := itos port.val)
        (by simp only [List.length_cons, List.length_append, hs, hi, hk]; rfl)
    show parseFields msg = _
    simp only [parseFields, show charAt msg 0 = .ok 1 from rfl, h₁, h₂, h₃, readPort_itos, bind, Except.bind, pure,
      Except.pure]
  | joinNotif marker channel groupId peerId pubK ip port =>
    obtain ⟨hm, hg, hi, hk, hc⟩ := hp
    let flag : Byte := if channel then 1 else 0
    let endpoint := ip ++ colon :: itos port.val
    let msg := MessageType.joinNotif.code :: (stamp ++ (marker ++ [flag] ++ peerId ++ pubK ++ groupId ++ ip ++ [colon] ++
      itos port.val))
    have h₁ : substr msg (1 + MSG_STAMP_LENGTH) BCAST_MARKER_LENGTH = .ok marker := by
      simpa [msg, endpoint] using substr_at (a := MessageType.joinNotif.code :: stamp)
        (c := [flag] ++ peerId ++ pubK ++ groupId ++ endpoint) (by rw [List.length_cons, hs]; rfl) hm
    have h₂ : charAt msg (1 + MSG_STAMP_LENGTH + BCAST_MARKER_LENGTH) = .ok flag := by
      simpa [msg, endpoint] using charAt_at (a := MessageType.joinNotif.code :: (stamp ++ marker)) (b := flag)
        (c := peerId ++ pubK ++ groupId ++ endpoint) (by rw [List.length_cons, List.length_append, hs, hm]; rfl)
    have h₃ : substr msg (1 + MSG_STAMP_LENGTH + BCAST_MARKER_LENGTH + 1) ID_LENGTH = .ok peerId := by
      simpa [msg, endpoint] using substr_at (a := MessageType.joinNotif.code :: (stamp ++ marker ++ [flag]))
        (c := pubK ++ groupId ++ endpoint) (by simp only [List.length_cons, List.length_append, hs, hm]; rfl) hi
    have h₄ : substr msg (1 + MSG_STAMP_LENGTH + BCAST_MARKER_LENGTH + 1 + ID_LENGTH) KEY_LENGTH = .ok pubK := by
      simpa [msg, endpoint] using substr_at (a := MessageType.joinNotif.code :: (stamp ++ marker ++ [flag] ++ peerId))
        (c := groupId ++ endpoint) (by simp only [List.length_cons, List.length_append, hs, hm, hi]; rfl) hk
    have h₅ : substr msg (1 + MSG_STAMP_LENGTH + BCAST_MARKER_LENGTH + 1 + ID_LENGTH + KEY_LENGTH) GROUP_ID_LENGTH =
        .ok groupId := by
      simpa [msg, endpoint] using substr_at (c := endpoint)
        (a := MessageType.joinNotif.code :: (stamp ++ marker ++ [flag] ++ peerId ++ pubK))
        (by simp only [List.length_cons, List.length_append, hs, hm, hi, hk]; rfl) hg
    have h₆ : suffix msg (1 + MSG_STAMP_LENGTH + BCAST_MARKER_LENGTH + 1 + ID_LENGTH + KEY_LENGTH + GROUP_ID_LENGTH) =
        .ok endpoint := by
      simpa [msg, endpoint] using suffix_at (b := endpoint)
        (a := MessageType.joinNotif.code :: (stamp ++ marker ++ [flag] ++ peerId ++ pubK ++ groupId))
        (by simp only [List.length_cons, List.length_append, hs, hm, hi, hk, hg]; rfl)
    have hf : decide (flag ≠ 0) = channel := by cases channel <;> rfl
    show parseFields msg = _
    simp only [parseFields, show charAt msg 0 = .ok 2 from rfl, h₁, h₂, h₃, h₄, h₅, h₆, endpoint, splitAt_sep hc,
      readPort_itos, hf, bind, Except.bind, pure, Except.pure]
  | joinAck groupId peerId pubK =>
    obtain ⟨hg, hi, hk⟩ := hp
    let msg := MessageType.joinAck.code :: (stamp ++ (peerId ++ pubK ++ groupId))
    have h₁ : substr msg (1 + MSG_STAMP_LENGTH) ID_LENGTH = .ok peerId := by
      simpa [msg] using substr_at (a := MessageType.joinAck.code :: stamp) (c := pubK ++ groupId)
        (by rw [List.length_cons, hs]; rfl) hi
    have h₂ : substr msg (1 + MSG_STAMP_LENGTH + ID_LENGTH) KEY_LENGTH = .ok pubK := by
      simpa [msg] using substr_at (a := MessageType.joinAck.code :: (stamp ++ peerId)) (c := groupId)
        (by rw [List.length_cons, List.length_append, hs, hi]; rfl) hk
    have h₃ : substr msg (1 + MSG_STAMP_LENGTH + ID_LENGTH + KEY_LENGTH) GROUP_ID_LENGTH = .ok groupId := by
      simpa [msg] using substr_at (a := MessageType.joinAck.code :: (stamp ++ peerId ++ pubK)) (c := [])
        (by simp only [List.length_cons, List.length_append, hs, hi, hk]; rfl) hg
    show parseFields msg = _
    simp only [parseFields, show charAt msg 0 = .ok 3 from rfl, h₁, h₂, h₃, bind, Except.bind, pure, Except.pure]
  | ready => rfl
  | readyNotif => rfl
  | data marker content =>
    let msg := MessageType.data.code :: (stamp ++ (marker ++ content))
    have h₁ : substr msg (1 + MSG_STAMP_LENGTH) BCAST_MARKER_LENGTH = .ok marker := by
      simpa [msg] using substr_at (a := MessageType.data.code :: stamp) (c := content)
        (by rw [List.length_cons, hs]; rfl) hp
    have h₂ : suffix msg (1 + MSG_STAMP_LENGTH + BCAST_MARKER_LENGTH) = .ok content := by
      simpa [msg] using suffix_at (a := MessageType.data.code :: (stamp ++ marker)) (b := content)
        (by rw [List.length_cons, List.length_append, hs, show marker.length = BCAST_MARKER_LENGTH from hp]; rfl)
    show parseFields msg = _
    simp only [parseFields, show charAt msg 0 = .ok 6 from rfl, h₁, h₂, bind, Except.bind, pure, Except.pure]

theorem parse_serialize {m : Message} (h : m.WellFormed) : parseMessage m.serialize = .ok m := by
  have hs : substr m.serialize 1 MSG_STAMP_LENGTH = .ok m.stamp :=
    substr_at (a := [m.type.code]) rfl h.1
  simp [parseMessage, parse_fields h, hs, bind, Except.bind, pure, Except.pure]

/-- A message of any type comes back from the wire as a message of that type, equal in
    every field, stamp and marker included. -/
theorem codec_round_trip (m : Message) (h : m.WellFormed) :
    ∃ m', parseMessage m.serialize = .ok m' ∧ m'.type = m.type ∧ m'.stamp = m.stamp ∧
      m'.bcastMarker? = m.bcastMarker? ∧ m'.payload = m.payload :=
  ⟨m, parse_serialize h, rfl, rfl, rfl, rfl⟩

omit [Platform] in
/-- A JOIN Notification with a NUL and a ':' in its key, for port 0. -/
theorem codec_round_trip_notif :
    let m : Message := ⟨List.replicate 20 7, .joinNotif (List.replicate 20 0) true (List.replicate 20 58)
      (ascii "peerpeerpeerpeerpeer") [0, 58, 255, 58, 0] (ascii "127.0.0.1") 0⟩
    m.WellFormed ∧ ∃ m', @parseMessage sha1 m.serialize = .ok m' ∧ m'.type = m.type ∧ m'.stamp = m.stamp ∧
      m'.bcastMarker? = m.bcastMarker? ∧ m'.payload = m.payload := by
  intro m
  have h : m.WellFormed := by simp only [Message.WellFormed, Payload.WellFormed, m]; decide
  exact ⟨h, @codec_round_trip sha1 m h⟩

/-! ## What an accepted string looks like -/

/-- Where each field of a parsed message was read. -/
def Payload.Layout (msg : Bytes) : Payload → Prop
  | .join id pubK port =>
    46 ≤ msg.length ∧ id = (msg.drop 21).take 20 ∧ pubK = (msg.drop 41).take 5 ∧ port = readPort (msg.drop 46)
  | .joinNotif marker channel groupId peerId pubK ip port =>
    87 ≤ msg.length ∧ marker = (msg.drop 21).take 20 ∧ channel = decide (msg.getD 41 0 ≠ 0) ∧
      peerId = (msg.drop 42).take 20 ∧ pubK = (msg.drop 62).take 5 ∧ groupId = (msg.drop 67).take 20 ∧
      ip = (splitAt colon (msg.drop 87)).1 ∧ port = readPort (splitAt colon (msg.drop 87)).2
  | .joinAck groupId peerId pubK =>
    46 ≤ msg.length ∧ peerId = (msg.drop 21).take 20 ∧ pubK = (msg.drop 41).take 5 ∧ groupId = (msg.drop 46).take 20
  | .ready => True
  | .readyNotif => True
  | .data marker content => 41 ≤ msg.length ∧ marker = (msg.drop 21).take 20 ∧ content = msg.drop 41

theorem parse_layout {msg : Bytes} {m : Message} (h : parseMessage msg = .ok m) :
    (m.stamp = (msg.drop 1).take 20 ∧ 1 ≤ msg.length) ∧ msg.getD 0 0 = m.type.code ∧ m.payload.Layout msg := by
  simp only [parseMessage, bind_ok, pure_ok, substr_ok] at h
  obtain ⟨p, hp, stamp, ⟨hlen, hs⟩, rfl⟩ := h
  refine ⟨⟨hs, hlen⟩, ?_⟩
  simp only [parseFields, bind_ok, charAt_ok] at hp
  obtain ⟨t, ⟨-, ht⟩, hp⟩ := hp
  rw [← ht]
  split at hp
  all_goals simp only [bind_ok, pure_ok, throw_ok, substr_ok, suffix_ok, charAt_ok] at hp
  · obtain ⟨_, ⟨-, rfl⟩, _, ⟨-, rfl⟩, _, ⟨hl, rfl⟩, rfl⟩ := hp
    exact ⟨rfl, hl, rfl, rfl, rfl⟩
  · obtain ⟨_, ⟨-, rfl⟩, _, ⟨-, rfl⟩, _, ⟨-, rfl⟩, _, ⟨-, rfl⟩, _, ⟨-, rfl⟩, _, ⟨hl, rfl⟩, rfl⟩ := hp
    exact ⟨rfl, hl, rfl, rfl, rfl, rfl, rfl, rfl, rfl⟩
  · obtain ⟨_, ⟨-, rfl⟩, _, ⟨-, rfl⟩, _, ⟨hl, rfl⟩, rfl⟩ := hp
    refine ⟨rfl, by simp only [MSG_STAMP_LENGTH, ID_LENGTH, KEY_LENGTH] at hl; omega, rfl, rfl, rfl⟩
  · subst hp; exact ⟨rfl, trivial⟩
  · subst hp; exact ⟨rfl, trivial⟩
  · obtain ⟨_, ⟨-, rfl⟩, _, ⟨hl, rfl⟩, rfl⟩ := hp
    exact ⟨rfl, hl, rfl, rfl⟩

end RacKun
