/-
  RacKun.Wire.Bytes — byte strings, the numbers printed into and read from them
  (`src/Utils.cpp`: `itos`, `make_hash`; the stream extraction of `parse_message`), and
  the lengths of `Config.cpp`.

  A `std::string` is its list of bytes; `std::string` and `std::map` order it
  lexicographically on unsigned bytes, which is the order of `Bytes`.

  What lies outside the program is a `Platform`: the Crypto++ hash (any function with
  digests of `SHA1::DIGESTSIZE` bytes) and the value an extraction without a number leaves
  in its variable, which the language does not fix; what a minus sign makes of a port goes
  with it.
-/

import Mathlib.Data.Nat.Digits.Defs
import RacKun.Lib.OrdMap
import RacKun.Lib.Sha1

namespace RacKun

instance byteNeZero : NeZero 256 := ⟨by decide⟩

instance portNeZero : NeZero 65536 := ⟨by decide⟩

abbrev Byte := Fin 256

abbrev Bytes := List Byte

abbrev Port := Fin 65536

def MSG_STAMP_LENGTH : Nat := 20
def BCAST_MARKER_LENGTH : Nat := 20
def ID_LENGTH : Nat := 20
def GROUP_ID_LENGTH : Nat := 20
def KEY_LENGTH : Nat := 5

def MESSAGE_SIZE : Nat := 1024
def RINGS_NB : Nat := 5

/-- The bytes of a literal. -/
def ascii (s : String) : Bytes := s.toList.map fun c => Fin.ofNat 256 c.toNat

/-- `':'`. -/
def colon : Byte := 58

/-- `'-'`. -/
def minus : Byte := 45

/-! ## Numbers as text -/

def digit (d : Nat) : Byte := Fin.ofNat 256 (48 + d)

def isDigit (b : Byte) : Bool := decide (48 ≤ b.val ∧ b.val ≤ 57)

/-- `std::isspace` in the C locale. -/
def isSpace (b : Byte) : Bool := decide (b.val = 32 ∨ 9 ≤ b.val ∧ b.val ≤ 13)

def itos (n : Nat) : Bytes := (Nat.toDigits 10 n).map fun c => Fin.ofNat 256 c.toNat

def readDigits : Nat → Bytes → Nat
  | acc, [] => acc
  | acc, b :: r => if isDigit b then readDigits (10 * acc + (b.val - 48)) r else acc

/-- Leading blanks and a plus sign are skipped. -/
def skipSign (text : Bytes) : Bytes :=
  let t := text.dropWhile isSpace
  if t.head? = some 43 then t.tail else t

/-- `istringstream(text) >> port`: the digits up to the first other character; `none`
    when the extraction fails (no digits, out of range). A minus sign counts as a failure
    here; `extractSigned` takes it. -/
def extractPort (text : Bytes) : Option Port :=
  match skipSign text with
  | [] => none
  | b :: r =>
    if isDigit b then (if h : readDigits 0 (b :: r) < 65536 then some ⟨readDigits 0 (b :: r), h⟩ else none) else none

/-- `istringstream(text) >> port` with its minus sign: as for any unsigned type, the digits
    after it are read and their number negated modulo 2^16. -/
def extractSigned (text : Bytes) : Option Port :=
  let t := text.dropWhile isSpace
  if t.head? = some minus then
    -- no second sign and no blank may follow
    if t.tail.head?.any isDigit then (extractPort t.tail).map fun p => -p else none
  else extractPort text

class Platform where
  makeHash : Bytes → Bytes
  makeHash_length : ∀ s, (makeHash s).length = 20
  /-- What the variable holds where `extractPort` fails on `text`. -/
  unread : Bytes → Port

export Platform (makeHash)

attribute [simp] Platform.makeHash_length

/-- The platform the program is built for: SHA-1, and 0 for an unreadable port. -/
@[reducible] def sha1 : Platform where
  makeHash := Lib.Sha1.digest
  makeHash_length := Lib.Sha1.digest_length
  unread text := (extractSigned text).getD 0

theorem itos_lt {n : Nat} (h : n < 10) : itos n = [digit n] := by
  simp [itos, digit, Nat.toDigits_of_lt_base h, Nat.toNat_digitChar_of_lt_ten h]

theorem itos_ge {n : Nat} (h : 10 ≤ n) : itos n = itos (n / 10) ++ [digit (n % 10)] := by
  simp [itos, digit, Nat.toDigits_of_base_le (by omega) h,
    Nat.toNat_digitChar_of_lt_ten (Nat.mod_lt n (by omega : 10 > 0))]

theorem digit_val {d : Nat} (h : d < 10) : (digit d).val = 48 + d := by
  simp only [digit, Fin.val_ofNat]; omega

theorem isDigit_digit {d : Nat} (h : d < 10) : isDigit (digit d) = true := by
  simp only [isDigit, digit_val h, decide_eq_true_eq]; omega

/-- What `itos` prints reads back as the number, whatever follows. -/
theorem readDigits_itos (n : Nat) : ∀ r, readDigits 0 (itos n ++ r) = readDigits n r := by
  induction n using Nat.strongRecOn with
  | ind n ih =>
    intro r
    by_cases h : n < 10
    · rw [itos_lt h, List.singleton_append, readDigits, if_pos (isDigit_digit h), digit_val h]
      congr 1; omega
    · have hm : n % 10 < 10 := Nat.mod_lt n (by omega)
      rw [itos_ge (by omega), List.append_assoc, ih (n / 10) (by omega), List.singleton_append, readDigits,
        if_pos (isDigit_digit hm), digit_val hm]
      congr 1; omega

theorem itos_digits (n : Nat) : itos n ≠ [] ∧ ∀ b ∈ itos n, isDigit b = true := by
  induction n using Nat.strongRecOn with
  | ind n ih =>
    by_cases h : n < 10
    · rw [itos_lt h]; simp [isDigit_digit h]
    · rw [itos_ge (by omega)]
      refine ⟨by simp, fun b hb => ?_⟩
      rcases List.mem_append.mp hb with hb | hb
      · exact (ih (n / 10) (by omega)).2 b hb
      · obtain rfl := List.mem_singleton.mp hb
        exact isDigit_digit (Nat.mod_lt n (by omega))

theorem itos_injective {m n : Nat} (h : itos m = itos n) : m = n := by
  have hm := readDigits_itos m []
  rw [h, readDigits_itos n []] at hm
  simpa [readDigits] using hm.symm

/-- A digit is no blank and no sign. -/
theorem isDigit_plain {b : Byte} (h : isDigit b = true) : isSpace b = false ∧ b ≠ 43 ∧ b ≠ minus := by
  have hv : 48 ≤ b.val ∧ b.val ≤ 57 := of_decide_eq_true h
  refine ⟨?_, ?_, ?_⟩
  · simp only [isSpace, decide_eq_false_iff_not]
    omega
  · rintro rfl
    exact absurd hv.1 (by decide)
  · rintro rfl
    exact absurd hv.1 (by decide)

theorem extractPort_itos (p : Port) : extractPort (itos p.val) = some p := by
  obtain ⟨hne, hd⟩ := itos_digits p.val
  have hr : readDigits 0 (itos p.val) = p.val := by simpa [readDigits] using readDigits_itos p.val []
  cases h : itos p.val with
  | nil => exact absurd h hne
  | cons b r =>
    have hb : isDigit b = true := hd b (by rw [h]; simp)
    obtain ⟨hs, hplus, -⟩ := isDigit_plain hb
    rw [h] at hr
    simp [extractPort, skipSign, hs, hplus, hb, hr]

theorem extractSigned_itos (p : Port) : extractSigned (itos p.val) = some p := by
  obtain ⟨hne, hd⟩ := itos_digits p.val
  have hs : ((itos p.val).dropWhile isSpace).head? ≠ some minus := by
    cases h : itos p.val with
    | nil => exact absurd h hne
    | cons b r =>
      obtain ⟨hblank, -, hminus⟩ := isDigit_plain (hd b (by rw [h]; exact List.mem_cons_self))
      rw [List.dropWhile_cons_of_neg (by rw [hblank]; exact Bool.false_ne_true)]
      exact fun hc => hminus (Option.some.inj hc)
  rw [extractSigned, if_neg hs, extractPort_itos]

end RacKun
