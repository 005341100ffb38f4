/-
  RacKun.Wire.Framing — what a receiver makes of a connection's byte stream
  (`Peer::listen`, `Peer::send`, `Peer::get_last_message`, one `parse_message` per read).

  The sender appends serialised messages to the stream; TCP hands the receiver the
  stream in reads of 1 to `MESSAGE_SIZE` bytes. Nothing on the wire says where a message
  ends: each read is taken for one whole message.

  - `received_cut`: what is received is what each read parses to.
  - `parse_length`: a read that parses to a message is no shorter than it. "Parses" is asked
    on every platform, so that it never rests on what a failed extraction leaves.
-/

import RacKun.Lib.Fallible
import RacKun.Wire.Codec

namespace RacKun

/-! ## Reading from a socket -/

/-- `last_message` after a read: cleared by `listen`, then filled from the start. -/
def fillBuffer (read : Bytes) : Bytes := read ++ List.replicate (MESSAGE_SIZE - read.length) 0

/-- With length 0, stop at the first null byte. -/
def getLastMessage (lastMessage : Bytes) (len : Nat) : Bytes :=
  if len ≠ 0 then lastMessage.take len else lastMessage.takeWhile (· ≠ 0)

/-- The messages a receiver obtains, one per read. -/
def received [Platform] (reads : List Bytes) : List (Except ParseError Message) :=
  reads.map fun read => parseMessage (getLastMessage (fillBuffer read) read.length)

/-- The bytes on the connection after the messages were sent. -/
def stream (msgs : List Message) : Bytes := msgs.flatMap Message.serialize

/-- One way TCP can cut a stream. -/
structure Cut (bytes : Bytes) (reads : List Bytes) : Prop where
  all : reads.flatten = bytes
  sizes : ∀ r ∈ reads, 1 ≤ r.length ∧ r.length ≤ MESSAGE_SIZE

theorem getLastMessage_fill {read : Bytes} (h : 1 ≤ read.length) :
    getLastMessage (fillBuffer read) read.length = read := by
  have : read.length ≠ 0 := by omega
  simp [getLastMessage, fillBuffer, this]

theorem received_cut [Platform] {bytes : Bytes} {reads : List Bytes} (h : Cut bytes reads) :
    received reads = reads.map parseMessage :=
  List.map_congr_left fun r hr => by rw [getLastMessage_fill (h.sizes r hr).1]

/-! ## A read that parses to a message is no shorter than the message -/

theorem readDigits_lt (s : Bytes) : ∀ acc k, acc < 10 ^ k → readDigits acc s < 10 ^ (k + s.length) := by
  induction s with
  | nil => intro acc k h; simpa [readDigits] using h
  | cons b r ih =>
    intro acc k h
    rw [readDigits]
    split
    · rename_i hb
      have hb : 48 ≤ b.val ∧ b.val ≤ 57 := by simpa [isDigit] using hb
      have := ih (10 * acc + (b.val - 48)) (k + 1) (by rw [Nat.pow_succ]; omega)
      rwa [List.length_cons, Nat.add_comm r.length 1, ← Nat.add_assoc]
    · exact Nat.lt_of_lt_of_le h (Nat.pow_le_pow_right (by omega) (by omega))

theorem itos_length_le {n k : Nat} (hk : 0 < k) (h : n < 10 ^ k) : (itos n).length ≤ k := by
  rw [itos, List.length_map]
  exact (Nat.length_toDigits_le_iff (by omega) hk).mpr h

/-- A text that reads as a port is at least as long as the port printed. -/
theorem extractPort_length {t : Bytes} {p : Port} (h : extractPort t = some p) : (itos p.val).length ≤ t.length := by
  have hs : (skipSign t).length ≤ t.length := by
    have hd : (t.dropWhile isSpace).length ≤ t.length := (List.dropWhile_sublist _).length_le
    simp only [skipSign]
    split
    · rw [List.length_tail]; omega
    · exact hd
  unfold extractPort at h
  split at h
  · cases h
  · rename_i b r hu
    split at h
    · split at h
      · obtain rfl := Option.some.inj h
        have := readDigits_lt (b :: r) 0 0 (by simp)
        exact le_trans (itos_length_le (by simp) (by simpa using this)) (hu ▸ hs)
      · cases h
    · cases h

/-- The platform that differs from `P` in what a failed extraction leaves. -/
@[reducible] def leaving (P : Platform) (p : Port) : Platform := { P with unread := fun _ => p }

theorem readPort_agree {P : Platform} {t : Bytes} {p : Port} (h₀ : @readPort (leaving P 0) t = p)
    (h₁ : @readPort (leaving P 1) t = p) : extractPort t = some p := by
  cases h : extractPort t with
  | none =>
    simp only [readPort, h, Option.getD_none] at h₀ h₁
    have : (0 : Port) = 1 := Eq.trans h₀ h₁.symm
    cases this
  | some q => simpa [readPort, h] using h₀

/-- On every platform, a read that parses to `m` holds at least the bytes of `m`. -/
theorem parse_length {P : Platform} {r : Bytes} {m : Message} (h₀ : @parseMessage (leaving P 0) r = .ok m)
    (h₁ : @parseMessage (leaving P 1) r = .ok m) (hw : m.WellFormed) (hn : m.type ≠ .joinNotif) :
    m.serialize.length ≤ r.length := by
  obtain ⟨stamp, payload⟩ := m
  obtain ⟨⟨hs, hlen⟩, -, l₀⟩ := @parse_layout (leaving P 0) _ _ h₀
  obtain ⟨-, -, l₁⟩ := @parse_layout (leaving P 1) _ _ h₁
  have hstamp : stamp.length = 20 := hw.1
  have hw := hw.2
  have hr : 21 ≤ r.length := by
    have hs : stamp = (r.drop 1).take 20 := hs
    rw [hs, List.length_take, List.length_drop] at hstamp
    omega
  cases payload with
  | join id pubK port =>
    obtain ⟨hi, hk⟩ := hw
    obtain ⟨hr, -, -, hp₀⟩ := l₀
    obtain ⟨-, -, -, hp₁⟩ := l₁
    have := extractPort_length (readPort_agree hp₀.symm hp₁.symm)
    simp only [Message.serialize, Payload.fields, List.length_cons, List.length_append, hstamp, hi, hk, ID_LENGTH,
      KEY_LENGTH, List.length_drop] at this ⊢
    omega
  | joinNotif => exact absurd rfl hn
  | joinAck groupId peerId pubK =>
    obtain ⟨hg, hi, hk⟩ := hw
    obtain ⟨hr, -, -, rfl⟩ := l₀
    rw [List.length_take, List.length_drop] at hg
    simp only [GROUP_ID_LENGTH] at hg
    simp only [Message.serialize, Payload.fields, List.length_cons, List.length_append, hstamp, hi, hk, ID_LENGTH,
      KEY_LENGTH, List.length_take, List.length_drop]
    omega
  | ready => simpa [Message.serialize, Payload.fields, hstamp] using hr
  | readyNotif => simpa [Message.serialize, Payload.fields, hstamp] using hr
  | data marker content =>
    obtain ⟨hr, -, rfl⟩ := l₀
    simp only [Message.serialize, Payload.fields, List.length_cons, List.length_append, hstamp,
      show marker.length = 20 from hw, List.length_drop]
    omega

/-! ## One read for one message -/

theorem flatten_length_le : ∀ {xs ys : List Bytes}, (∀ p ∈ ys.zip xs, p.1.length ≤ p.2.length) →
    xs.length = ys.length → ys.flatten.length ≤ xs.flatten.length := by
  intro xs
  induction xs with
  | nil => intro ys _ hl; rw [List.length_eq_zero_iff.mp hl.symm]
  | cons x xs ih =>
    intro ys hle hl
    cases ys with
    | nil => simp at hl
    | cons y ys =>
      simp only [List.zip_cons_cons, List.forall_mem_cons] at hle
      have := ih hle.2 (by simpa using hl)
      have := hle.1
      simp only [List.flatten_cons, List.length_append]
      omega

/-- Cuts of one string with no piece shorter than its counterpart are the same cut. -/
theorem flatten_inj_of_length : ∀ {xs ys : List Bytes}, xs.flatten = ys.flatten → xs.length = ys.length →
    (∀ p ∈ ys.zip xs, p.1.length ≤ p.2.length) → xs = ys := by
  intro xs
  induction xs with
  | nil => intro ys _ hl _; exact (List.length_eq_zero_iff.mp hl.symm).symm
  | cons x xs ih =>
    intro ys he hl hle
    cases ys with
    | nil => simp at hl
    | cons y ys =>
      simp only [List.flatten_cons] at he
      simp only [List.zip_cons_cons, List.forall_mem_cons] at hle
      have hrest := flatten_length_le hle.2 (by simpa using hl)
      have hlen := congrArg List.length he
      simp only [List.length_append] at hlen
      have := hle.1
      obtain ⟨hxy, he'⟩ := List.append_inj he (by omega)
      rw [hxy, ih he' (by simpa using hl) hle.2]

/-- Two READY signals in one read: the second is lost. -/
theorem merged_read :
    ¬ ∀ (P : Platform) (msgs : List Message) (reads : List Bytes), (∀ m ∈ msgs, m.WellFormed) →
      Cut (stream msgs) reads → @received P reads = msgs.map .ok := by
  intro h
  let a : Message := ⟨List.replicate 20 1, .ready⟩
  let b : Message := ⟨List.replicate 20 2, .ready⟩
  have hcut : Cut (stream [a, b]) [a.serialize ++ b.serialize] :=
    ⟨by simp [stream], by simp [a, b, Message.serialize, Payload.fields, MESSAGE_SIZE]⟩
  have := h sha1 [a, b] _ (by simp [a, b, Message.WellFormed, Payload.WellFormed, MSG_STAMP_LENGTH]) hcut
  simpa [received] using congrArg List.length this

/-- Reads that are whole messages are received as they were sent, whatever they hold;
    and where no JOIN Notification is among the messages, a segmentation received as
    sent on every platform is the one whose reads are the messages. -/
theorem framing (msgs : List Message) (reads : List Bytes) (hw : ∀ m ∈ msgs, m.WellFormed)
    (hcut : Cut (stream msgs) reads) :
    (reads = msgs.map Message.serialize → ∀ P : Platform, @received P reads = msgs.map .ok) ∧
      ((∀ m ∈ msgs, m.type ≠ .joinNotif) → (∀ P : Platform, @received P reads = msgs.map .ok) →
        reads = msgs.map Message.serialize) := by
  constructor
  · intro he P
    rw [@received_cut P _ _ hcut, he, List.map_map]
    exact List.map_congr_left fun m hm => @parse_serialize P m (hw m hm)
  · intro hn hP
    have hp : ∀ P : Platform, reads.map (@parseMessage P) = msgs.map .ok := fun P =>
      (@received_cut P _ _ hcut).symm.trans (hP P)
    have hl : reads.length = msgs.length := by simpa using congrArg List.length (hp sha1)
    refine flatten_inj_of_length ?_ (by simpa using hl) ?_
    · rw [hcut.all, stream, List.flatMap_def]
    · rintro ⟨x, r⟩ hmem
      obtain ⟨i, hi, he⟩ := List.getElem_of_mem hmem
      have hi' : i < msgs.length := by simp at hi; omega
      have hi'' : i < reads.length := by omega
      have hx : msgs[i].serialize = x ∧ reads[i] = r := by simpa using he
      have hparse : ∀ P : Platform, @parseMessage P reads[i] = .ok msgs[i] := fun P => by
        have := congrArg (·[i]?) (hp P)
        simpa [hi', hi''] using this
      rw [← hx.1, ← hx.2]
      exact parse_length (hparse (leaving sha1 0)) (hparse (leaving sha1 1)) (hw _ (List.getElem_mem hi'))
        (hn _ (List.getElem_mem hi'))

/-- A DATA message, then a READY signal. -/
theorem framing_data_ready :
    let msgs : List Message := [⟨List.replicate 20 1, .data (List.replicate 20 2) (ascii "hello")⟩,
      ⟨List.replicate 20 4, .ready⟩]
    (∀ m ∈ msgs, m.WellFormed) ∧ Cut (stream msgs) (msgs.map Message.serialize) ∧
      @received sha1 (msgs.map Message.serialize) = msgs.map .ok := by
  intro msgs
  have hw : ∀ m ∈ msgs, m.WellFormed := by
    simp [msgs, Message.WellFormed, Payload.WellFormed, MSG_STAMP_LENGTH, BCAST_MARKER_LENGTH]
  have hcut : Cut (stream msgs) (msgs.map Message.serialize) :=
    ⟨by simp [stream, List.flatMap_def], by
      simp only [msgs, List.map_cons, List.map_nil, List.forall_mem_cons]; decide⟩
  exact ⟨hw, hcut, (framing msgs _ hw hcut).1 rfl sha1⟩

end RacKun
