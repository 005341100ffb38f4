/-
  RacKun.Wire.Accepted — which strings `parse_message` accepts, and what becomes of them.

  The parser reads its fields from left to right. A read that starts past the end throws,
  one that starts inside is cut short by the end; so the reads of a type, as a list of
  where they start, decide whether a string is accepted and how it fails otherwise
  (`reads`). The one read that is not checked is that of the channel flag.

  An accepted string need not be one that a serialiser writes: its last field may be
  short, text may follow it, the flag may be any byte and the port any text.

  - `parse_fails`: the first read past the end decides.
  - `accepted_iff`: the length a string needs, type by type.
  - `parse_stable`: what has been read, written and read again, is the same.
-/

import RacKun.Wire.Codec

namespace RacKun

open Lib (ok_bind)

/-! ## The first read past the end -/

/-- Where the reads of a type start, and how each ends past the end of the string. -/
def reads : Byte → Option (List (Nat × ParseError))
  | 1 => some [(21, .outOfRange), (41, .outOfRange), (46, .outOfRange)]
  | 2 => some [(21, .outOfRange), (41, .outside), (42, .outOfRange), (62, .outOfRange), (67, .outOfRange),
      (87, .outOfRange)]
  | 3 => some [(21, .outOfRange), (41, .outOfRange), (46, .outOfRange)]
  | 4 => some []
  | 5 => some []
  | 6 => some [(21, .outOfRange), (41, .outOfRange)]
  | _ => none

def firstPast (length : Nat) : List (Nat × ParseError) → Option ParseError
  | [] => none
  | (pos, e) :: l => if length < pos then some e else firstPast length l

/-- The stamp is read last. -/
def failure (type : Byte) (length : Nat) : Option ParseError :=
  match reads type with
  | none => some .unknownType
  | some l => firstPast length (l ++ [(1, .outOfRange)])

/-- The computation ends with this error, or with none. -/
def EndsWith {α : Type} (x : Except ParseError α) (e : Option ParseError) : Prop :=
  match e with
  | none => ∃ a, x = .ok a
  | some e => x = .error e

theorem ends_read {α β : Type} {length pos : Nat} {e : ParseError} {l : List (Nat × ParseError)} {a : α}
    {x : Except ParseError α} (hx : x = if pos ≤ length then .ok a else .error e) {f : α → Except ParseError β}
    (hf : ∀ a, EndsWith (f a) (firstPast length l)) : EndsWith (x >>= f) (firstPast length ((pos, e) :: l)) := by
  rw [hx, firstPast]
  by_cases h : pos ≤ length
  · rw [if_pos h, if_neg (Nat.not_lt.mpr h)]
    exact hf a
  · rw [if_neg h, if_pos (Nat.not_le.mp h)]
    exact rfl

theorem ends_append {α β : Type} {length : Nat} {l l' : List (Nat × ParseError)} {x : Except ParseError α}
    {f : α → Except ParseError β} (hx : EndsWith x (firstPast length l))
    (hf : ∀ a, EndsWith (f a) (firstPast length l')) : EndsWith (x >>= f) (firstPast length (l ++ l')) := by
  have happ : firstPast length (l ++ l') = (firstPast length l).or (firstPast length l') := by
    induction l with
    | nil => rfl
    | cons r l ih =>
      obtain ⟨pos, e⟩ := r
      rw [List.cons_append, firstPast, firstPast]
      split
      · rfl
      · rename_i hp
        rw [firstPast, if_neg hp] at hx
        exact ih hx
  rw [happ]
  cases hl : firstPast length l with
  | none =>
    rw [hl] at hx
    obtain ⟨a, rfl⟩ := hx
    exact hf a
  | some e =>
    rw [hl] at hx
    have hx : x = .error e := hx
    rw [hx]
    exact rfl

variable [Platform]

theorem fields_fail (msg : Bytes) : EndsWith (parseFields msg)
    (match reads (msg.getD 0 0) with
    | none => some .unknownType
    | some l => firstPast msg.length l) := by
  simp only [parseFields, show charAt msg 0 = .ok (msg.getD 0 0) from rfl, ok_bind]
  generalize msg.getD 0 0 = type
  unfold reads
  split
  · exact ends_read rfl fun _ => ends_read rfl fun _ => ends_read rfl fun _ => ⟨_, rfl⟩
  · exact ends_read rfl fun _ => ends_read rfl fun _ => ends_read rfl fun _ =>
      ends_read rfl fun _ => ends_read rfl fun _ => ends_read rfl fun _ => ⟨_, rfl⟩
  · exact ends_read rfl fun _ => ends_read rfl fun _ => ends_read rfl fun _ => ⟨_, rfl⟩
  · exact ⟨_, rfl⟩
  · exact ⟨_, rfl⟩
  · exact ends_read rfl fun _ => ends_read rfl fun _ => ⟨_, rfl⟩
  · simp_all [EndsWith, throw, throwThe, MonadExceptOf.throw]

theorem parse_fails (msg : Bytes) : EndsWith (parseMessage msg) (failure (msg.getD 0 0) msg.length) := by
  have hf := fields_fail msg
  unfold failure
  cases hr : reads (msg.getD 0 0) with
  | none =>
    rw [hr] at hf
    have hf : parseFields msg = .error .unknownType := hf
    rw [parseMessage, hf]
    exact rfl
  | some l =>
    rw [hr] at hf
    exact ends_append hf fun _ => ends_read rfl fun _ => ⟨_, rfl⟩

theorem parse_error_iff {msg : Bytes} {e : ParseError} :
    parseMessage msg = .error e ↔ failure (msg.getD 0 0) msg.length = some e := by
  have hf := parse_fails msg
  cases h : failure (msg.getD 0 0) msg.length with
  | none =>
    rw [h] at hf
    obtain ⟨m, hm⟩ := hf
    simp [hm]
  | some e' =>
    rw [h] at hf
    have hf : parseMessage msg = .error e' := hf
    simp [hf]

theorem parse_ok_iff {msg : Bytes} :
    (∃ m, parseMessage msg = .ok m) ↔ failure (msg.getD 0 0) msg.length = none := by
  have hf := parse_fails msg
  cases h : failure (msg.getD 0 0) msg.length with
  | none =>
    rw [h] at hf
    exact ⟨fun _ => rfl, fun _ => hf⟩
  | some e =>
    rw [h] at hf
    have hf : parseMessage msg = .error e := hf
    simp [hf]

/-- The length a message of this type must have, at least, to be accepted. -/
def least : Byte → Option Nat
  | 1 => some 46
  | 2 => some 87
  | 3 => some 46
  | 4 => some 1
  | 5 => some 1
  | 6 => some 41
  | _ => none

omit [Platform] in
theorem firstPast_none {length : Nat} {l : List (Nat × ParseError)} :
    firstPast length l = none ↔ ∀ r ∈ l, r.1 ≤ length := by
  induction l with
  | nil => simp [firstPast]
  | cons r l ih =>
    obtain ⟨pos, e⟩ := r
    rw [firstPast, List.forall_mem_cons, ← ih]
    split <;> simp_all

theorem accepted_iff {msg : Bytes} :
    (∃ m, parseMessage msg = .ok m) ↔ ∃ n ∈ least (msg.getD 0 0), n ≤ msg.length := by
  rw [parse_ok_iff]
  generalize msg.getD 0 0 = type
  cases hr : reads type with
  | none =>
    have hl : least type = none := by
      unfold reads at hr
      unfold least
      split at hr <;> simp_all
    simp [failure, hr, hl]
  | some l =>
    simp only [failure, hr, firstPast_none]
    unfold reads at hr
    split at hr <;> cases hr <;> simp [least] <;> omega

/-! ## Reading past the end -/

/-- Every read starts within the string, its end included, or an exception comes first. -/
def StaysInside (msg : Bytes) : Prop := parseMessage msg ≠ .error .outside

/-- Only the flag of a JOIN Notification that ends before it is read outside. -/
theorem stays_inside_iff (msg : Bytes) :
    StaysInside msg ↔ ¬ (msg.getD 0 0 = MessageType.joinNotif.code ∧ 21 ≤ msg.length ∧ msg.length < 41) := by
  rw [StaysInside, ne_eq, parse_error_iff, not_iff_not]
  generalize msg.getD 0 0 = type
  unfold failure
  cases hr : reads type with
  | none =>
    have ht : type ≠ MessageType.joinNotif.code := by
      rintro rfl
      cases hr
    simp [ht]
  | some l =>
    unfold reads at hr
    split at hr <;> cases hr <;> simp only [firstPast, List.cons_append, List.nil_append, MessageType.code] <;>
      split_ifs <;> simp <;> omega

omit [Platform] in
/-- A JOIN Notification cut off after its stamp. -/
theorem read_outside : ¬ ∀ msg, @StaysInside sha1 msg := by
  intro h
  exact h (2 :: List.replicate 29 0) (by decide)

/-! ## Accepting what is written -/

/-- The fixed-length fields have their lengths. -/
def Payload.FullLength : Payload → Prop
  | .join id pubK _ => id.length = ID_LENGTH ∧ pubK.length = KEY_LENGTH
  | .joinNotif marker _ groupId peerId pubK _ _ =>
    marker.length = BCAST_MARKER_LENGTH ∧ groupId.length = GROUP_ID_LENGTH ∧ peerId.length = ID_LENGTH ∧
      pubK.length = KEY_LENGTH
  | .joinAck groupId peerId pubK =>
    groupId.length = GROUP_ID_LENGTH ∧ peerId.length = ID_LENGTH ∧ pubK.length = KEY_LENGTH
  | .ready => True
  | .readyNotif => True
  | .data marker _ => marker.length = BCAST_MARKER_LENGTH

def Message.FullLength (m : Message) : Prop := m.stamp.length = MSG_STAMP_LENGTH ∧ m.payload.FullLength

/-- A message written by its serialiser. -/
def Written (msg : Bytes) : Prop := ∃ m : Message, m.FullLength ∧ msg = m.serialize

/-- A canonical decimal number below 65536. -/
def PortText (text : Bytes) : Prop := ∃ port : Port, text = itos port.val

/-- The ip and the port, with a separator between them. -/
def Endpoint (text : Bytes) : Prop := ∃ ip port, PortText port ∧ text = ip ++ colon :: port

def Canonical (msg : Bytes) : Prop :=
  match msg.getD 0 0 with
  | 1 => 46 ≤ msg.length ∧ PortText (msg.drop 46)
  | 2 => 87 ≤ msg.length ∧ msg.getD 41 0 ≤ 1 ∧ Endpoint (msg.drop 87)
  | 3 => msg.length = 66
  | 4 => msg.length = 21
  | 5 => msg.length = 21
  | 6 => 41 ≤ msg.length
  | _ => False

omit [Platform] in
theorem serialize_canonical {m : Message} (h : m.FullLength) : Canonical m.serialize := by
  obtain ⟨stamp, payload⟩ := m
  obtain ⟨hs, hp⟩ := h
  replace hs : stamp.length = 20 := hs
  cases payload with
  | join id pubK port =>
    obtain ⟨hi, hk⟩ := hp
    have hlen : (MessageType.join.code :: (stamp ++ id ++ pubK)).length = 46 := by simp [hs, hi, hk, ID_LENGTH, KEY_LENGTH]
    have hmsg : (Message.mk stamp (.join id pubK port)).serialize =
        MessageType.join.code :: (stamp ++ id ++ pubK) ++ itos port.val := by
      simp [Message.serialize, Message.type, Payload.type, Payload.fields]
    show 46 ≤ _ ∧ _
    rw [hmsg, List.drop_left' hlen]
    exact ⟨by rw [List.length_append, hlen]; omega, port, rfl⟩
  | joinNotif marker channel groupId peerId pubK ip port =>
    obtain ⟨hm, hg, hi, hk⟩ := hp
    let flag : Byte := if channel then 1 else 0
    let front := MessageType.joinNotif.code :: (stamp ++ marker)
    have hfront : front.length = 41 := by simp [front, hs, hm, BCAST_MARKER_LENGTH]
    have hlen : (front ++ [flag] ++ peerId ++ pubK ++ groupId).length = 87 := by
      simp [hfront, hi, hk, hg, ID_LENGTH, KEY_LENGTH, GROUP_ID_LENGTH]
    have hmsg : (Message.mk stamp (.joinNotif marker channel groupId peerId pubK ip port)).serialize =
        (front ++ [flag] ++ peerId ++ pubK ++ groupId) ++ (ip ++ colon :: itos port.val) := by
      simp [Message.serialize, Message.type, Payload.type, Payload.fields, front, flag]
    have hflag : ((front ++ [flag] ++ peerId ++ pubK ++ groupId) ++ (ip ++ colon :: itos port.val)).getD 41 0 = flag := by
      simp [hfront]
    show 87 ≤ _ ∧ _
    rw [hmsg, List.drop_left' hlen, hflag]
    refine ⟨by rw [List.length_append, hlen]; omega, ?_, ip, _, ⟨port, rfl⟩, rfl⟩
    cases channel <;> decide
  | joinAck groupId peerId pubK =>
    obtain ⟨hg, hi, hk⟩ := hp
    show _ = 66
    simp [Message.serialize, Payload.fields, hs, hg, hi, hk, ID_LENGTH, KEY_LENGTH, GROUP_ID_LENGTH]
  | ready =>
    show _ = 21
    simp [Message.serialize, Payload.fields, hs]
  | readyNotif =>
    show _ = 21
    simp [Message.serialize, Payload.fields, hs]
  | data marker content =>
    show 41 ≤ _
    have hm : marker.length = 20 := hp
    simp [Message.serialize, Payload.fields, hs, hm]
    omega

omit [Platform] in
/-- A field, then what follows it. -/
theorem cut (msg : Bytes) (pos n : Nat) : (msg.drop pos).take n ++ msg.drop (pos + n) = msg.drop pos := by
  rw [← List.drop_drop, List.take_append_drop]

omit [Platform] in
theorem head_cons {msg : Bytes} (h : 1 ≤ msg.length) : msg.getD 0 0 :: msg.drop 1 = msg := by
  cases msg with
  | nil => cases h
  | cons b r => rfl

omit [Platform] in
theorem canonical_written {msg : Bytes} (h : Canonical msg) : Written msg := by
  have stamp : ∀ {n}, 21 ≤ n → msg.length = n → ((msg.drop 1).take 20).length = MSG_STAMP_LENGTH := by
    intro n hn hl
    simp [hl, MSG_STAMP_LENGTH]
    omega
  have split1 : ∀ {t}, t = msg.getD 0 0 → 1 ≤ msg.length → msg = t :: ((msg.drop 1).take 20 ++ msg.drop 21) := by
    intro t ht hl
    rw [cut msg 1 20, ht, head_cons hl]
  unfold Canonical at h
  split at h
  · rename_i ht
    obtain ⟨hl, port, hp⟩ := h
    refine ⟨⟨(msg.drop 1).take 20, .join ((msg.drop 21).take 20) ((msg.drop 41).take 5) port⟩,
      ⟨stamp (by omega) rfl, ?_, ?_⟩, ?_⟩
    · simp [ID_LENGTH]; omega
    · simp [KEY_LENGTH]; omega
    · show msg = 1 :: (_ ++ (_ ++ _ ++ itos port.val))
      rw [← hp, List.append_assoc, cut msg 41 5, cut msg 21 20, ← split1 ht.symm (by omega)]
  · rename_i ht
    obtain ⟨hl, hf, ip, text, ⟨port, rfl⟩, he⟩ := h
    have hflag : (if decide (msg.getD 41 0 ≠ 0) = true then (1 : Byte) else 0) = msg.getD 41 0 := by
      generalize msg.getD 41 0 = b at hf
      have hb : b = 0 ∨ b = 1 := (Nat.le_one_iff_eq_zero_or_eq_one.mp hf).imp (Fin.ext ·) (Fin.ext ·)
      rcases hb with rfl | rfl <;> rfl
    have h41 : msg.getD 41 0 :: msg.drop 42 = msg.drop 41 := by
      rw [List.getD_eq_getElem?_getD, List.getElem?_eq_getElem (show 41 < msg.length by omega)]
      exact (List.drop_eq_getElem_cons _).symm
    refine ⟨⟨(msg.drop 1).take 20, .joinNotif ((msg.drop 21).take 20) (decide (msg.getD 41 0 ≠ 0)) ((msg.drop 67).take 20)
      ((msg.drop 42).take 20) ((msg.drop 62).take 5) ip port⟩, ⟨stamp (by omega) rfl, ?_, ?_, ?_, ?_⟩, ?_⟩
    · simp [BCAST_MARKER_LENGTH]; omega
    · simp [GROUP_ID_LENGTH]; omega
    · simp [ID_LENGTH]; omega
    · simp [KEY_LENGTH]; omega
    · have htail : ip ++ [colon] ++ itos port.val = msg.drop 87 := by rw [he, List.append_assoc, List.singleton_append]
      show msg = 2 :: (_ ++ (_ ++ [_] ++ _ ++ _ ++ _ ++ ip ++ [colon] ++ itos port.val))
      rw [List.append_assoc _ ip, List.append_assoc _ _ (itos port.val), htail, hflag]
      simp only [List.append_assoc, List.cons_append, List.nil_append]
      rw [cut msg 67 20, cut msg 62 5, cut msg 42 20, h41, cut msg 21 20, ← split1 ht.symm (by omega)]
  · rename_i ht
    refine ⟨⟨(msg.drop 1).take 20, .joinAck ((msg.drop 46).take 20) ((msg.drop 21).take 20) ((msg.drop 41).take 5)⟩,
      ⟨stamp (by omega) rfl, ?_, ?_, ?_⟩, ?_⟩
    · simp [GROUP_ID_LENGTH]; omega
    · simp [ID_LENGTH]; omega
    · simp [KEY_LENGTH]; omega
    · show msg = 3 :: (_ ++ (_ ++ _ ++ (msg.drop 46).take 20))
      rw [List.take_of_length_le (i := 20) (l := msg.drop 46) (by simp; omega), List.append_assoc, cut msg 41 5,
        cut msg 21 20, ← split1 ht.symm (by omega)]
  · rename_i ht
    refine ⟨⟨(msg.drop 1).take 20, .ready⟩, ⟨stamp (by omega) rfl, trivial⟩, ?_⟩
    have := split1 ht.symm (by omega)
    rw [List.drop_of_length_le (i := 21) (by omega)] at this
    exact this
  · rename_i ht
    refine ⟨⟨(msg.drop 1).take 20, .readyNotif⟩, ⟨stamp (by omega) rfl, trivial⟩, ?_⟩
    have := split1 ht.symm (by omega)
    rw [List.drop_of_length_le (i := 21) (by omega)] at this
    exact this
  · rename_i ht
    refine ⟨⟨(msg.drop 1).take 20, .data ((msg.drop 21).take 20) (msg.drop 41)⟩, ⟨stamp (by omega) rfl, ?_⟩, ?_⟩
    · show _ = _
      simp [BCAST_MARKER_LENGTH]; omega
    · show msg = 6 :: (_ ++ (_ ++ _))
      rw [cut msg 21 20, ← split1 ht.symm (by omega)]
  · cases h

omit [Platform] in
theorem written_iff {msg : Bytes} : Written msg ↔ Canonical msg := by
  refine ⟨?_, canonical_written⟩
  rintro ⟨m, hm, rfl⟩
  exact serialize_canonical hm

/-- A message is returned for what a serialiser writes, an exception is thrown for anything
    else. -/
def ParsesFormat (msg : Bytes) : Prop :=
  ((∃ m, parseMessage msg = .ok m) ↔ Written msg) ∧
    (¬ Written msg → parseMessage msg = .error .unknownType ∨ parseMessage msg = .error .outOfRange)

/-- Too short for the last field, or nothing cut short, nothing in excess, a flag of 0 or 1
    and a port as it is printed. -/
def Tidy (msg : Bytes) : Prop :=
  match msg.getD 0 0 with
  | 1 => msg.length < 46 ∨ PortText (msg.drop 46)
  | 2 => msg.length < 21 ∨ 41 ≤ msg.length ∧ msg.length < 87 ∨
      87 ≤ msg.length ∧ msg.getD 41 0 ≤ 1 ∧ Endpoint (msg.drop 87)
  | 3 => msg.length < 46 ∨ msg.length = 66
  | 4 => msg.length = 21
  | 5 => msg.length = 21
  | _ => True

/-- What is thrown, when nothing is returned. -/
theorem thrown_iff {msg : Bytes} (h : ¬ ∃ m, parseMessage msg = .ok m) :
    (parseMessage msg = .error .unknownType ∨ parseMessage msg = .error .outOfRange) ↔ StaysInside msg := by
  unfold StaysInside
  cases hp : parseMessage msg with
  | ok m => exact absurd ⟨m, hp⟩ h
  | error e => cases e <;> simp

theorem parses_format_iff (msg : Bytes) : ParsesFormat msg ↔ Tidy msg := by
  have hhead : msg.getD 0 0 ≠ 0 → 1 ≤ msg.length := by
    cases msg with
    | nil => exact fun h => absurd rfl h
    | cons b r => intro _; simp
  -- without an accepted message, what is thrown is decided by whether the reads stay inside
  have hform : ParsesFormat msg ↔ ((∃ n ∈ least (msg.getD 0 0), n ≤ msg.length) ↔ Canonical msg) ∧
      (¬ Canonical msg → ¬ (msg.getD 0 0 = MessageType.joinNotif.code ∧ 21 ≤ msg.length ∧ msg.length < 41)) := by
    rw [ParsesFormat, ← accepted_iff, ← written_iff, ← stays_inside_iff]
    refine and_congr_right fun h => imp_congr_right fun hn => ?_
    exact thrown_iff fun ha => hn (h.mp ha)
  rw [hform]
  unfold Canonical Tidy
  generalize msg.getD 0 0 = type at hhead
  split
  · generalize PortText _ = port
    simp [least, MessageType.code]
    by_cases hp : port <;> simp [hp]
  · generalize Endpoint _ = endpoint
    generalize msg.getD 41 0 = flag
    simp [least, MessageType.code]
    by_cases he : endpoint <;> by_cases hf : flag ≤ 1 <;> simp [he, hf] <;> omega
  · simp [least, MessageType.code]
    omega
  · simp [least, MessageType.code] at hhead ⊢
    omega
  · simp [least, MessageType.code] at hhead ⊢
    omega
  · simp [least, MessageType.code]
  · rename_i h1 h2 h3 h4 h5 h6
    have h2 : type ≠ MessageType.joinNotif.code := h2
    have hl : least type = none := by
      unfold least
      split <;> simp_all
    simp [hl, h2]

omit [Platform] in
/-- A READY cut off after its type. -/
theorem truncated_accepted : ¬ ∀ msg, @ParsesFormat sha1 msg := by
  intro h
  have hw : Written [4] := (@h [4]).1.mp ⟨⟨[], .ready⟩, rfl⟩
  have hc : ([4] : Bytes).length = 21 := written_iff.mp hw
  cases hc

/-! ## Read, written and read again -/

omit [Platform] in
theorem substr_last {a b : Bytes} {pos n : Nat} (ha : a.length = pos) (hb : b.length ≤ n) :
    substr (a ++ b) pos n = .ok b := by
  subst ha
  simp [substr, List.take_of_length_le hb]

omit [Platform] in
theorem splitAt_before (c : Byte) (s : Bytes) : c ∉ (splitAt c s).1 := by
  unfold splitAt
  split
  · rename_i i hi
    intro hc
    obtain ⟨_, -, hlt⟩ := List.findIdx?_eq_some_iff_getElem.mp hi
    obtain ⟨j, hj, hcj⟩ := List.mem_take_iff_getElem.mp hc
    exact hlt j (lt_min_iff.mp hj).1 (by simpa using hcj)
  · rename_i hn
    intro hc
    simpa using List.findIdx?_eq_none_iff.mp hn c hc

omit [Platform] in
/-- What one platform has read, every platform reads again from what is written of it. -/
theorem parse_stable {P P' : Platform} {msg : Bytes} {m : Message} (h : @parseMessage P msg = .ok m) :
    @parseMessage P' m.serialize = .ok m := by
  obtain ⟨⟨hs, -⟩, -, hl⟩ := @parse_layout P _ _ h
  obtain ⟨stamp, payload⟩ := m
  have hs : stamp = (msg.drop 1).take 20 := hs
  have stamped : 21 ≤ msg.length → stamp.length = MSG_STAMP_LENGTH := by
    intro hlen
    rw [hs, MSG_STAMP_LENGTH]
    simp
    omega
  have short : stamp.length ≤ MSG_STAMP_LENGTH := by
    rw [hs]
    exact List.length_take_le _ _
  cases payload with
  | join id pubK port =>
    obtain ⟨hlen, rfl, rfl, -⟩ := hl
    refine @parse_serialize P' _ ⟨stamped (by omega), ?_, ?_⟩
    · simp [ID_LENGTH]; omega
    · simp [KEY_LENGTH]; omega
  | joinNotif marker channel groupId peerId pubK ip port =>
    obtain ⟨hlen, rfl, -, rfl, rfl, rfl, rfl, -⟩ := hl
    refine @parse_serialize P' _ ⟨stamped (by omega), ?_, ?_, ?_, ?_, splitAt_before _ _⟩
    · simp [BCAST_MARKER_LENGTH]; omega
    · simp [GROUP_ID_LENGTH]; omega
    · simp [ID_LENGTH]; omega
    · simp [KEY_LENGTH]; omega
  | joinAck groupId peerId pubK =>
    -- the group ID comes last, and may be short
    obtain ⟨hlen, hi, hk, hg⟩ := hl
    have hst : stamp.length = 20 := stamped (by omega)
    have hi : peerId.length = ID_LENGTH := by rw [hi, ID_LENGTH]; simp; omega
    have hk : pubK.length = KEY_LENGTH := by rw [hk, KEY_LENGTH]; simp; omega
    have hg : groupId.length ≤ GROUP_ID_LENGTH := by rw [hg]; exact List.length_take_le _ _
    let sent := MessageType.joinAck.code :: (stamp ++ (peerId ++ pubK ++ groupId))
    have h₁ : substr sent (1 + MSG_STAMP_LENGTH) ID_LENGTH = .ok peerId := by
      simpa [sent] using substr_at (a := MessageType.joinAck.code :: stamp) (c := pubK ++ groupId)
        (by rw [List.length_cons, hst]; rfl) hi
    have h₂ : substr sent (1 + MSG_STAMP_LENGTH + ID_LENGTH) KEY_LENGTH = .ok pubK := by
      simpa [sent] using substr_at (a := MessageType.joinAck.code :: (stamp ++ peerId)) (c := groupId)
        (by rw [List.length_cons, List.length_append, hst, hi]; rfl) hk
    have h₃ : substr sent (1 + MSG_STAMP_LENGTH + ID_LENGTH + KEY_LENGTH) GROUP_ID_LENGTH = .ok groupId := by
      simpa [sent] using substr_last (a := MessageType.joinAck.code :: (stamp ++ peerId ++ pubK))
        (by simp only [List.length_cons, List.length_append, hst, hi, hk]; rfl) hg
    have h₄ : substr sent 1 MSG_STAMP_LENGTH = .ok stamp := substr_at (a := [MessageType.joinAck.code]) rfl hst
    show @parseMessage P' sent = _
    simp only [parseMessage, parseFields, show charAt sent 0 = .ok 3 from rfl, h₁, h₂, h₃, h₄, bind, Except.bind, pure,
      Except.pure]
  | ready =>
    have h₁ : substr (MessageType.ready.code :: (stamp ++ [])) 1 MSG_STAMP_LENGTH = .ok stamp := by
      rw [List.append_nil]
      exact substr_last (a := [_]) rfl short
    show @parseMessage P' (MessageType.ready.code :: (stamp ++ [])) = _
    simp only [parseMessage, h₁]
    rfl
  | readyNotif =>
    have h₁ : substr (MessageType.readyNotif.code :: (stamp ++ [])) 1 MSG_STAMP_LENGTH = .ok stamp := by
      rw [List.append_nil]
      exact substr_last (a := [_]) rfl short
    show @parseMessage P' (MessageType.readyNotif.code :: (stamp ++ [])) = _
    simp only [parseMessage, h₁]
    rfl
  | data marker content =>
    obtain ⟨hlen, rfl, -⟩ := hl
    refine @parse_serialize P' _ ⟨stamped (by omega), ?_⟩
    show _ = _
    simp [BCAST_MARKER_LENGTH]
    omega

end RacKun
