/-
  RacKun.Network.LocalPeer — the ID a node gives itself (`src/Utils.cpp`:
  `create_local_peer`) and what the entry point reads of it.

  The ID is put together in a buffer of `ID_LENGTH` bytes and a NUL: the first bytes of
  the host name, then digits. A host name that is too short leaves its own NUL in the
  buffer, and the ID ends there.

  - `randomized_eq`: the loop, as what it leaves in the buffer.
  - `localId_long` / `localId_short`: the ID for either kind of host name.
-/

import RacKun.Network.Logging
import RacKun.Network.Run
import RacKun.Wire.Accepted

namespace RacKun

open Lib (ok_bind)

/-- `non_random`. -/
def NON_RANDOM : Nat := 13

/-- `gethostname(name, n)`: the first `n` bytes of the host name and its NUL. -/
def gethostname (host name : Bytes) (n : Nat) : Bytes :=
  (host ++ [0]).take n ++ name.drop ((host ++ [0]).take n).length

/-- The loop over the digits; `rand i` is the random number drawn for `name[i]`. -/
def randomize (rand : Nat → Nat) (name : Bytes) : Bytes :=
  (List.range' NON_RANDOM (ID_LENGTH - NON_RANDOM)).foldl (fun name i => name.set i (digit (rand i % 10))) name

/-- `string id(name)`. -/
def cString (name : Bytes) : Bytes := name.takeWhile (· ≠ 0)

/-- `junk` is what the buffer held before. -/
def localId (host : Bytes) (junk : Fin (ID_LENGTH + 1) → Byte) (rand : Nat → Nat) : Bytes :=
  cString (randomize rand (gethostname host ((List.ofFn junk).set ID_LENGTH 0) NON_RANDOM))

def createLocalPeer (host : Bytes) (junk : Fin (ID_LENGTH + 1) → Byte) (rand : Nat → Nat) : Peer :=
  ⟨localId host junk rand, ascii "AAAAA", ascii "localhost", .new, false, true⟩

/-! ## The buffer -/

def digits (rand : Nat → Nat) : Bytes :=
  (List.range' NON_RANDOM (ID_LENGTH - NON_RANDOM)).map fun i => digit (rand i % 10)

theorem digit_ne_zero (n : Nat) : digit (n % 10) ≠ 0 := by
  intro h
  have hv := digit_val (Nat.mod_lt n (by decide : 10 > 0))
  rw [h] at hv
  have hv : 0 = 48 + n % 10 := hv
  omega

theorem digits_length (rand : Nat → Nat) : (digits rand).length = 7 := rfl

/-- Writing the places from the first on. -/
theorem foldl_set (d : Nat → Byte) (tail : Bytes) : ∀ n, n ≤ tail.length →
    (List.range n).foldl (fun tail k => tail.set k (d k)) tail = (List.range n).map d ++ tail.drop n := by
  intro n
  induction n with
  | zero => intro _; rfl
  | succ n ih =>
    intro hn
    rw [List.range_succ, List.foldl_append, ih (Nat.le_of_succ_le hn), List.map_append, List.append_assoc]
    show ((List.range n).map d ++ tail.drop n).set n (d n) = _
    rw [List.set_append_right _ _ (by simp), List.length_map, List.length_range, Nat.sub_self,
      List.drop_eq_getElem_cons hn]
    rfl

/-- The loop writes its digits between the first bytes and the last. -/
theorem randomized_eq (rand : Nat → Nat) {front tail : Bytes} (hf : front.length = NON_RANDOM)
    (ht : tail.length = ID_LENGTH - NON_RANDOM + 1) :
    randomize rand (front ++ tail) = front ++ (digits rand ++ tail.drop (ID_LENGTH - NON_RANDOM)) := by
  have run : ∀ (l : List Nat) tail, (l.map (NON_RANDOM + ·)).foldl (fun name i => name.set i (digit (rand i % 10)))
      (front ++ tail) = front ++ l.foldl (fun tail k => tail.set k (digit (rand (NON_RANDOM + k) % 10))) tail := by
    intro l
    induction l with
    | nil => intro tail; rfl
    | cons k l ih =>
      intro tail
      rw [List.map_cons, List.foldl_cons, List.foldl_cons, ← ih, ← hf, List.set_append_right _ _ (Nat.le_add_right _ _),
        Nat.add_sub_cancel_left]
  rw [randomize, show List.range' NON_RANDOM (ID_LENGTH - NON_RANDOM) = (List.range 7).map (NON_RANDOM + ·) from rfl,
    run, foldl_set _ _ 7 (by rw [ht]; decide)]
  rfl

/-- A string ends at its first NUL. -/
theorem cString_nul {front : Bytes} (h : 0 ∉ front) (tail : Bytes) : cString (front ++ 0 :: tail) = front := by
  have hf : ∀ b ∈ front, decide (b ≠ 0) = true := fun b hb => by simpa using fun e : b = 0 => h (e ▸ hb)
  rw [cString, List.takeWhile_append_of_pos hf]
  simp

/-! ## The ID -/

/-- The buffer, with the NUL at its end. -/
theorem buffer_length (junk : Fin (ID_LENGTH + 1) → Byte) : ((List.ofFn junk).set ID_LENGTH 0).length = 21 := by
  rw [List.length_set, List.length_ofFn, ID_LENGTH]

theorem buffer_end (junk : Fin (ID_LENGTH + 1) → Byte) : ((List.ofFn junk).set ID_LENGTH 0).drop 20 = [0] := by
  rw [List.drop_eq_getElem_cons (by rw [buffer_length]; decide), List.drop_of_length_le (by rw [buffer_length])]
  simp [ID_LENGTH]

theorem localId_long {host : Bytes} (h0 : 0 ∉ host) (hl : NON_RANDOM ≤ host.length)
    (junk : Fin (ID_LENGTH + 1) → Byte) (rand : Nat → Nat) :
    localId host junk rand = host.take NON_RANDOM ++ digits rand := by
  have hfront : (host ++ [0]).take NON_RANDOM = host.take NON_RANDOM := List.take_append_of_le_length hl
  have hlen : (host.take NON_RANDOM).length = NON_RANDOM := List.length_take_of_le hl
  have htail := buffer_length junk
  have hnul : 0 ∉ host.take NON_RANDOM ++ digits rand := by
    intro h
    rcases List.mem_append.mp h with h | h
    · exact h0 (List.mem_of_mem_take h)
    · obtain ⟨i, -, hi⟩ := List.mem_map.mp h
      exact digit_ne_zero _ hi
  rw [localId, gethostname, hfront, hlen, randomized_eq rand hlen (by rw [List.length_drop, htail]; rfl), List.drop_drop]
  rw [show NON_RANDOM + (ID_LENGTH - NON_RANDOM) = 20 from rfl, buffer_end, ← List.append_assoc, cString_nul hnul]

theorem localId_short {host : Bytes} (h0 : 0 ∉ host) (hl : host.length < NON_RANDOM)
    (junk : Fin (ID_LENGTH + 1) → Byte) (rand : Nat → Nat) : localId host junk rand = host := by
  have hcopied : (host ++ [0]).take NON_RANDOM = host ++ [0] := List.take_of_length_le (by
    rw [List.length_append]
    exact hl)
  have htail := buffer_length junk
  generalize hbuf : (List.ofFn junk).set ID_LENGTH 0 = buffer at htail
  -- the NUL of the host name stays in front of the digits
  obtain ⟨rest, tail, hname, hr, ht⟩ : ∃ rest tail, host ++ [0] ++ buffer.drop (host.length + 1) =
      (host ++ 0 :: rest) ++ tail ∧ (host ++ 0 :: rest).length = NON_RANDOM ∧ tail.length = ID_LENGTH - NON_RANDOM + 1 := by
    refine ⟨(buffer.drop (host.length + 1)).take (NON_RANDOM - (host.length + 1)), buffer.drop NON_RANDOM, ?_, ?_, ?_⟩
    · have hc := cut buffer (host.length + 1) (NON_RANDOM - (host.length + 1))
      rw [Nat.add_sub_cancel' hl] at hc
      rw [List.append_assoc, List.append_assoc, List.cons_append, List.cons_append, List.nil_append, hc]
    · simp only [NON_RANDOM] at hl ⊢
      simp [htail]
      omega
    · rw [List.length_drop, htail]
      rfl
  rw [localId, gethostname, hcopied, hbuf, List.length_append, List.length_singleton, hname, randomized_eq rand hr ht,
    List.append_assoc, List.cons_append, cString_nul h0]

theorem localId_length {host : Bytes} (h0 : 0 ∉ host) (junk : Fin (ID_LENGTH + 1) → Byte) (rand : Nat → Nat) :
    (localId host junk rand).length = min host.length NON_RANDOM + if NON_RANDOM ≤ host.length then 7 else 0 := by
  split
  · rename_i hl
    rw [localId_long h0 hl, List.length_append, List.length_take, digits_length, Nat.min_comm]
  · rename_i hl
    rw [localId_short h0 (Nat.not_le.mp hl), Nat.min_eq_left (Nat.le_of_not_le hl), Nat.add_zero]

theorem localId_full_iff {host : Bytes} (h0 : 0 ∉ host) (junk : Fin (ID_LENGTH + 1) → Byte) (rand : Nat → Nat) :
    (localId host junk rand).length = ID_LENGTH ↔ NON_RANDOM ≤ host.length := by
  rw [localId_length h0]
  split <;> simp only [ID_LENGTH, NON_RANDOM] at * <;> omega

/-! ## The request -/

variable [Platform]

/-- A request is read as it was written exactly when the ID has its length. -/
theorem request_read_iff {id pubK stamp : Bytes} {port : Port} (hs : stamp.length = MSG_STAMP_LENGTH)
    (hi : id.length ≤ ID_LENGTH) (hk : pubK.length = KEY_LENGTH) :
    (∃ stamp', parseMessage (Message.serialize ⟨stamp, .join id pubK port⟩) = .ok ⟨stamp', .join id pubK port⟩) ↔
      id.length = ID_LENGTH := by
  refine ⟨fun ⟨stamp', h⟩ => ?_, fun h => ⟨stamp, parse_serialize ⟨hs, h, hk⟩⟩⟩
  -- a string that is accepted is long enough for a whole ID
  obtain ⟨-, -, hl, hid, -⟩ := parse_layout h
  refine Nat.le_antisymm hi ?_
  rw [hid, ID_LENGTH, List.length_take, List.length_drop]
  omega

/-- The entry point reads the ID, the key and the port of the request we send it. -/
def Introduces (peer : Peer) (listenPort : Port) (clock : Nat → Nat) (ip port address : Bytes) : Prop :=
  ∃ s' q bytes stamp, Network.Step (Network.start peer.id peer.pubIdKey listenPort clock) (.join ip port (some address)) s' ∧
    .sent q bytes ∈ s'.trace ∧ parseMessage bytes = .ok ⟨stamp, .join peer.id peer.pubIdKey listenPort⟩

theorem start_joins (id pubK : Bytes) (listenPort : Port) (clock : Nat → Nat) (ip port address : Bytes) : ∃ s',
    Network.handle 1 (Network.start id pubK listenPort clock) (.join ip port (some address)) = .ok s' ∧
      s'.trace = [.connected 1 ip port,
        .sent 1 (Message.makeStamp (.join id pubK listenPort) id (clock 0)).serialize] := by
  let s := Network.start id pubK listenPort clock
  let t : Network := { s with toMembership := ((s.newPeer address).setState 0 .joining).addNewPeer 1 }
  obtain ⟨s', hs'⟩ := Network.logMessage_total
    (s := ((t.record [.connected 1 ip port]).makeStamp (.join id pubK listenPort)).2.record
      [.sent 1 (Message.makeStamp (.join id pubK listenPort) id (clock 0)).serialize])
    (m := Message.makeStamp (.join id pubK listenPort) id (clock 0)) 0 fun marker _ hb => by cases hb
  exact ⟨s', hs', (Network.logMessage_logs hs').trace⟩

theorem introduces_iff {peer : Peer} (hi : peer.id.length ≤ ID_LENGTH) (hk : peer.pubIdKey.length = KEY_LENGTH)
    (listenPort : Port) (clock : Nat → Nat) (ip port address : Bytes) :
    Introduces peer listenPort clock ip port address ↔ peer.id.length = ID_LENGTH := by
  have hread : (∃ stamp, parseMessage (Message.makeStamp (.join peer.id peer.pubIdKey listenPort) peer.id
      (clock 0)).serialize = .ok ⟨stamp, .join peer.id peer.pubIdKey listenPort⟩) ↔ peer.id.length = ID_LENGTH :=
    request_read_iff (Platform.makeHash_length _) hi hk
  rw [← hread]
  obtain ⟨s', hs', ht⟩ := start_joins peer.id peer.pubIdKey listenPort clock ip port address
  constructor
  · rintro ⟨t, q, bytes, stamp, ⟨-, rounds, hh⟩, hsent, hp⟩
    obtain rfl : s' = t := Except.ok.inj (hs'.symm.trans hh)
    rw [ht] at hsent
    rcases List.mem_cons.mp hsent with h | h
    · cases h
    · cases List.mem_singleton.mp h
      exact ⟨stamp, hp⟩
  · rintro ⟨stamp, hp⟩
    exact ⟨s', 1, _, stamp, ⟨rfl, 1, hs'⟩, by rw [ht]; exact List.mem_cons_of_mem _ List.mem_cons_self, hp⟩

/-- The ID has its length, and the request comes through, for host names that fill their
    part of the buffer. -/
theorem own_request_iff {host : Bytes} (h0 : 0 ∉ host) (junk : Fin (ID_LENGTH + 1) → Byte) (rand : Nat → Nat) :
    ((createLocalPeer host junk rand).id.length = ID_LENGTH ↔ NON_RANDOM ≤ host.length) ∧
      ∀ listenPort clock ip port address,
        Introduces (createLocalPeer host junk rand) listenPort clock ip port address ↔ NON_RANDOM ≤ host.length := by
  have hfull := localId_full_iff h0 junk rand
  refine ⟨hfull, fun listenPort clock ip port address => ?_⟩
  have hle : (createLocalPeer host junk rand).id.length ≤ ID_LENGTH := by
    rw [show (createLocalPeer host junk rand).id = localId host junk rand from rfl, localId_length h0]
    split <;> simp only [ID_LENGTH, NON_RANDOM] at * <;> omega
  exact (introduces_iff hle rfl listenPort clock ip port address).trans hfull

omit [Platform] in
theorem own_request_iff_long : (0 : Byte) ∉ ascii "workstation-17" ∧
    (createLocalPeer (ascii "workstation-17") (fun _ => 255) id).id = ascii "workstation-13456789" ∧
    @Introduces sha1 (createLocalPeer (ascii "workstation-17") (fun _ => 255) id) 8000 (fun t => t) [] [] [9] := by
  have h0 : (0 : Byte) ∉ ascii "workstation-17" := by decide
  exact ⟨h0, by decide, ((@own_request_iff sha1 _ h0 (fun _ => 255) id).2 8000 (fun t => t) [] [] [9]).mpr (by decide)⟩

omit [Platform] in
/-- A host name of three letters. -/
theorem own_request_short : ¬ ∀ host, host ≠ [] → 0 ∉ host → ∀ junk rand,
    (createLocalPeer host junk rand).id.length = ID_LENGTH ∧ ∀ listenPort clock ip port address,
      @Introduces sha1 (createLocalPeer host junk rand) listenPort clock ip port address := by
  intro h
  have h0 : (0 : Byte) ∉ ascii "rac" := by decide
  have hl := (h (ascii "rac") (by decide) h0 (fun _ => 255) id).1
  exact absurd ((localId_full_iff h0 _ _).mp hl) (by decide)

end RacKun
