/-
  RacKun.Wire.Splitting — what the program splits at its first separator: a command line at
  a space (`parse_input`, `src/Utils.cpp`), an endpoint at a colon (`init_settings` in
  `src/Config.cpp`, the join command in `src/Main.cpp`, JOIN_NOTIF in `parse_message`).

  All four keep what `find` returns in an `int` and pass it on to `substr`. Where there is
  no separator the `int` is -1, the first part runs to the end and the second starts at 0:
  the text is its own second part. Where the separator is further than an `int` counts,
  the parts are cut somewhere else, or `substr` throws.

  - `cutAt_first`, `cutAt_absent`: the two cases a text of ordinary length meets.
  - `faithful_iff`: the texts that are split as the two parts around the separator.
-/

import RacKun.Wire.Codec

namespace RacKun

open Lib (bind_ok pure_ok)

/-- `' '`. -/
def space : Byte := 32

/-- `int i = s.find(c)`: the position as far as an `int` holds it; `npos` becomes -1. -/
def findInt (c : Byte) (s : Bytes) : Int := if c ∈ s then (s.idxOf c : Int).bmod (2 ^ 32) else -1

/-- `i + 1`, where the largest `int` is followed by the smallest. -/
def nextInt (i : Int) : Int := (i + 1).bmod (2 ^ 32)

/-- `s.substr(pos, n)` of two `int`s: a negative one is past the end of any string. -/
def substrInt (s : Bytes) (pos n : Int) : Except ParseError Bytes :=
  if 0 ≤ pos ∧ pos ≤ s.length then .ok (if 0 ≤ n then (s.drop pos.toNat).take n.toNat else s.drop pos.toNat)
  else .error .outOfRange

/-- `s.substr(0, i)` and `s.substr(i+1, s.size())`, with `int i = s.find(c)`. -/
def cutAt (c : Byte) (s : Bytes) : Except ParseError (Bytes × Bytes) := do
  let i := findInt c s
  let first ← substrInt s 0 i
  let second ← substrInt s (nextInt i) s.length
  pure (first, second)

/-- Command and argument. -/
def parseInput (input : Bytes) : Except ParseError (Bytes × Bytes) := cutAt space input

/-- The configured entry point: IP and the text of the port. -/
def entryPointParts (endpoint : Bytes) : Except ParseError (Bytes × Bytes) := cutAt colon endpoint

/-- `settings.ENTRY_POINT_IP` and `settings.ENTRY_POINT_PORT`; port 0 tells the app not to
    try to connect. -/
def entryPoint (endpoint : Bytes) : Except ParseError (Bytes × Port) := do
  let (ip, port) ← entryPointParts endpoint
  pure (ip, (extractSigned port).getD 0)

/-- The argument of the join command: what `Network::join` is given. -/
def joinParts (argument : Bytes) : Except ParseError (Bytes × Bytes) := cutAt colon argument

/-- The endpoint of a JOIN Notification: IP and the text of the port. -/
def notifParts (endpoint : Bytes) : Except ParseError (Bytes × Bytes) := cutAt colon endpoint

/-! ## One split -/

/-- The text is the two parts with the separator between them, or has no second part. -/
def Faithful (c : Byte) (s : Bytes) (r : Except ParseError (Bytes × Bytes)) : Prop :=
  ∃ first second, r = .ok (first, second) ∧ c ∉ first ∧
    (c ∈ s → first ++ c :: second = s) ∧ (c ∉ s → second = [])

/-- The first separator is where an `int` can point past it, or there is nothing to split. -/
def Separated (c : Byte) (s : Bytes) : Prop := s = [] ∨ c ∈ s ∧ s.idxOf c < 2 ^ 31 - 1

theorem substrInt_ok {s t : Bytes} {pos n : Int} : substrInt s pos n = .ok t ↔
    (0 ≤ pos ∧ pos ≤ s.length) ∧ (if 0 ≤ n then (s.drop pos.toNat).take n.toNat else s.drop pos.toNat) = t := by
  unfold substrInt
  split <;> simp_all

theorem cutAt_ok {c : Byte} {s first second : Bytes} : cutAt c s = .ok (first, second) ↔
    substrInt s 0 (findInt c s) = .ok first ∧ substrInt s (nextInt (findInt c s)) s.length = .ok second := by
  simp only [cutAt, bind_ok, pure_ok, Prod.mk.injEq]
  constructor
  · rintro ⟨a, ha, b, hb, rfl, rfl⟩
    exact ⟨ha, hb⟩
  · intro h
    exact ⟨first, h.1, second, h.2, rfl, rfl⟩

/-- Without a separator both parts are the whole text. -/
theorem cutAt_absent {c : Byte} {s : Bytes} (h : c ∉ s) : cutAt c s = .ok (s, s) := by
  have hi : findInt c s = -1 := if_neg h
  rw [cutAt_ok, hi]
  refine ⟨substrInt_ok.mpr ⟨⟨by omega, by omega⟩, ?_⟩, substrInt_ok.mpr ⟨⟨by decide, ?_⟩, ?_⟩⟩
  · rw [if_neg (by omega)]
    rfl
  · show (0 : Int) ≤ s.length
    omega
  · rw [if_pos (by omega), Int.toNat_natCast]
    exact List.take_of_length_le (Nat.le_refl _)

/-- The ordinary case: the parts before and after the first separator. -/
theorem cutAt_first {c : Byte} {a b : Bytes} (h : c ∉ a) (hlen : a.length < 2 ^ 31 - 1) :
    cutAt c (a ++ c :: b) = .ok (a, b) := by
  have hidx : (a ++ c :: b).idxOf c = a.length := by
    rw [List.idxOf_append_of_notMem h, List.idxOf_cons_self, Nat.add_zero]
  have hi : findInt c (a ++ c :: b) = a.length := by
    rw [findInt, if_pos (by simp), hidx]
    exact Int.bmod_eq_of_le (by omega) (by omega)
  have hnext : nextInt a.length = a.length + 1 := Int.bmod_eq_of_le (by omega) (by omega)
  rw [cutAt_ok, hi, hnext]
  refine ⟨substrInt_ok.mpr ⟨⟨by omega, by omega⟩, ?_⟩, substrInt_ok.mpr ⟨⟨by omega, by simp⟩, ?_⟩⟩
  · rw [if_pos (by omega), Int.toNat_natCast]
    exact List.take_left
  · rw [if_pos (by omega), Int.toNat_natCast]
    have hn : ((a.length : Int) + 1).toNat = (a ++ [c]).length := by simp
    rw [hn, ← List.singleton_append, ← List.append_assoc, List.drop_left]
    refine List.take_of_length_le ?_
    rw [List.length_append]
    exact Nat.le_add_left _ _

/-- `cutAt` and `splitAt` agree where positions fit in an `int`. -/
theorem cutAt_splitAt {c : Byte} {s : Bytes} (h : c ∈ s → s.idxOf c < 2 ^ 31 - 1) :
    cutAt c s = .ok (splitAt c s) := by
  by_cases hc : c ∈ s
  · obtain ⟨a, b, rfl, ha⟩ := List.eq_append_cons_of_mem hc
    have hlt := h hc
    rw [List.idxOf_append_of_notMem ha, List.idxOf_cons_self, Nat.add_zero] at hlt
    rw [cutAt_first ha hlt, splitAt_sep ha]
  · have hs : splitAt c s = (s, s) := by
      have hn : s.findIdx? (· = c) = none := by
        refine List.findIdx?_eq_none_iff.mpr fun x hx => ?_
        simpa using fun hxc : x = c => hc (hxc ▸ hx)
      rw [splitAt, hn]
    rw [cutAt_absent hc, hs]

/-- A separator further than an `int` counts is not where the text is split. -/
theorem faithful_early {c : Byte} {s : Bytes} (hc : c ∈ s) (h : Faithful c s (cutAt c s)) :
    s.idxOf c < 2 ^ 31 - 1 := by
  obtain ⟨first, second, hcut, hfirst, hwhole, -⟩ := h
  have hwhole := hwhole hc
  obtain ⟨h₁, h₂⟩ := cutAt_ok.mp hcut
  have hidx : s.idxOf c = first.length := by
    rw [← hwhole, List.idxOf_append_of_notMem hfirst, List.idxOf_cons_self, Nat.add_zero]
  have hi : findInt c s = (first.length : Int).bmod (2 ^ 32) := by rw [findInt, if_pos hc, hidx]
  rw [hi] at h₁ h₂
  obtain ⟨-, htake⟩ := substrInt_ok.mp h₁
  obtain ⟨⟨hpos, -⟩, -⟩ := substrInt_ok.mp h₂
  have hlt : first.length < s.length := by
    rw [← hwhole, List.length_append, List.length_cons]
    omega
  rw [hidx]
  -- the first part is as long as the `int` says, so the `int` is the position
  have hexact : (first.length : Int).bmod (2 ^ 32) = first.length := by
    split at htake
    · rename_i hn
      have hl := congrArg List.length htake
      simp only [Int.toNat_zero, List.drop_zero, List.length_take] at hl
      omega
    · rw [← htake] at hlt
      simp at hlt
  have hbound : (first.length : Int) < 2 ^ 31 := by
    have := Int.bmod_lt (x := (first.length : Int)) (m := 2 ^ 32) (by decide)
    omega
  refine Nat.lt_of_not_le fun hle => ?_
  have hlast : (first.length : Int) = 2 ^ 31 - 1 := by omega
  rw [hexact, hlast] at hpos
  exact absurd hpos (by decide)

theorem faithful_iff {c : Byte} {s : Bytes} : Faithful c s (cutAt c s) ↔ Separated c s := by
  by_cases hc : c ∈ s
  · constructor
    · intro h
      exact Or.inr ⟨hc, faithful_early hc h⟩
    · intro h
      rcases h with rfl | ⟨-, hlt⟩
      · cases hc
      · obtain ⟨a, b, rfl, ha⟩ := List.eq_append_cons_of_mem hc
        rw [List.idxOf_append_of_notMem ha, List.idxOf_cons_self, Nat.add_zero] at hlt
        exact ⟨a, b, cutAt_first ha hlt, ha, fun _ => rfl, fun hn => absurd hc hn⟩
  · rw [cutAt_absent hc]
    constructor
    · rintro ⟨first, second, hcut, -, -, hnone⟩
      cases hcut
      exact Or.inl (hnone hc)
    · intro h
      rcases h with rfl | ⟨hin, -⟩
      · exact ⟨[], [], rfl, hc, fun hin => absurd hin hc, fun _ => rfl⟩
      · exact absurd hin hc

/-! ## The four texts -/

/-- Each of the four is split as it reads if and only if it is empty or has its separator,
    where an `int` can point past it. -/
theorem separator_split_iff (s : Bytes) :
    (Faithful space s (parseInput s) ↔ Separated space s) ∧
      (Faithful colon s (entryPointParts s) ↔ Separated colon s) ∧
      (Faithful colon s (joinParts s) ↔ Separated colon s) ∧
      (Faithful colon s (notifParts s) ↔ Separated colon s) :=
  ⟨faithful_iff, faithful_iff, faithful_iff, faithful_iff⟩

/-- `logs` is its own argument, and the port of an endpoint without a port is read from its
    address. -/
theorem split_without_separator :
    ¬Faithful space (ascii "logs") (parseInput (ascii "logs")) ∧
      ¬Faithful colon (ascii "10") (entryPointParts (ascii "10")) ∧
      ¬Faithful colon (ascii "10") (joinParts (ascii "10")) ∧
      ¬Faithful colon (ascii "10") (notifParts (ascii "10")) ∧ entryPoint (ascii "10") = .ok (ascii "10", 10) := by
  have bare : ∀ {c : Byte} {s : Bytes}, c ∉ s → s ≠ [] → ¬Faithful c s (cutAt c s) := by
    intro c s hc hs h
    rcases faithful_iff.mp h with rfl | ⟨hin, -⟩
    · exact hs rfl
    · exact hc hin
  refine ⟨bare (by decide) (by decide), bare (by decide) (by decide), bare (by decide) (by decide),
    bare (by decide) (by decide), ?_⟩
  decide

/-- An entry point that is written with its port is the one the settings hold. -/
theorem entryPoint_written {ip : Bytes} (hc : colon ∉ ip) (hl : ip.length < 2 ^ 31 - 1) (p : Port) :
    entryPoint (ip ++ colon :: itos p.val) = .ok (ip, p) := by
  rw [entryPoint, entryPointParts, cutAt_first hc hl]
  show Except.ok (ip, (extractSigned (itos p.val)).getD 0) = _
  rw [extractSigned_itos]
  rfl

example : entryPoint (ascii "h:-5") = .ok (ascii "h", 65531) := by decide

/-- What a JOIN Notification carries is split as its endpoint. -/
theorem notif_parts [Platform] {msg : Bytes} {stamp marker groupId peerId pubK ip : Bytes} {channel : Bool}
    {port : Port}
    (h : parseMessage msg = .ok ⟨stamp, .joinNotif marker channel groupId peerId pubK ip port⟩)
    (hlen : msg.length < 2 ^ 31) : ∃ text, notifParts (msg.drop 87) = .ok (ip, text) ∧ port = readPort text := by
  obtain ⟨-, -, -, -, -, -, -, -, hip, hport⟩ := parse_layout h
  refine ⟨(splitAt colon (msg.drop 87)).2, ?_, hport⟩
  rw [hip]
  refine cutAt_splitAt fun hc => ?_
  have hidx := List.idxOf_lt_length_iff.mpr hc
  rw [List.length_drop] at hidx
  omega

end RacKun
