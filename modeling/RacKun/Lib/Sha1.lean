/-
  RacKun.Lib.Sha1 — SHA-1, as an executable function on byte strings (32-bit words are
  natural numbers below 2^32).

  `digest` pads the message to whole 64-byte blocks (`pad`), reads each block as sixteen
  big-endian words, extends them to eighty (`schedule`) and folds the blocks into the
  five-word state (`block`). A digest always has twenty bytes (`digest_length`).
-/

import Mathlib.Data.Fin.Basic

namespace RacKun.Lib.Sha1

abbrev Byte := Fin 256

def word (n : Nat) : Nat := n % 0x100000000

def rotl (k n : Nat) : Nat := word (n <<< k ||| n >>> (32 - k))

/-- The `k` big-endian bytes of `n`. -/
def bytesOf : Nat → Nat → List Byte
  | 0, _ => []
  | k + 1, n => Fin.ofNat 256 (n >>> (8 * k)) :: bytesOf k n

def wordsOf : List Byte → List Nat
  | a :: b :: c :: d :: r => (((a.val * 256 + b.val) * 256 + c.val) * 256 + d.val) :: wordsOf r
  | _ => []

/-- A 1 bit, zeros up to eight bytes short of a block, and the length in bits. -/
def pad (m : List Byte) : List Byte :=
  m ++ (128 :: List.replicate ((119 - m.length % 64) % 64) 0) ++ bytesOf 8 (8 * m.length)

structure State where
  a : Nat
  b : Nat
  c : Nat
  d : Nat
  e : Nat

def initial : State := ⟨0x67452301, 0xEFCDAB89, 0x98BADCFE, 0x10325476, 0xC3D2E1F0⟩

/-- The message schedule, newest word first. -/
def schedule : Nat → List Nat → List Nat
  | 0, ws => ws
  | n + 1, ws => schedule n (rotl 1 (ws.getD 2 0 ^^^ ws.getD 7 0 ^^^ ws.getD 13 0 ^^^ ws.getD 15 0) :: ws)

def mix (t b c d : Nat) : Nat :=
  if t < 20 then (b &&& c) ||| ((b ^^^ 0xFFFFFFFF) &&& d)
  else if t < 40 then b ^^^ c ^^^ d
  else if t < 60 then (b &&& c) ||| (b &&& d) ||| (c &&& d)
  else b ^^^ c ^^^ d

def constant (t : Nat) : Nat :=
  if t < 20 then 0x5A827999 else if t < 40 then 0x6ED9EBA1 else if t < 60 then 0x8F1BBCDC else 0xCA62C1D6

def rounds : Nat → List Nat → State → State
  | _, [], s => s
  | t, w :: ws, s =>
    rounds (t + 1) ws ⟨word (rotl 5 s.a + mix t s.b s.c s.d + s.e + constant t + w), s.a, rotl 30 s.b, s.c, s.d⟩

def block (s : State) (ws : List Nat) : State :=
  let r := rounds 0 (schedule 64 ws.reverse).reverse s
  ⟨word (s.a + r.a), word (s.b + r.b), word (s.c + r.c), word (s.d + r.d), word (s.e + r.e)⟩

def blocks : Nat → State → List Nat → State
  | 0, s, _ => s
  | n + 1, s, ws => blocks n (block s (ws.take 16)) (ws.drop 16)

def digest (m : List Byte) : List Byte :=
  let ws := wordsOf (pad m)
  let s := blocks (ws.length / 16) initial ws
  bytesOf 4 s.a ++ bytesOf 4 s.b ++ bytesOf 4 s.c ++ bytesOf 4 s.d ++ bytesOf 4 s.e

theorem bytesOf_length : ∀ k n, (bytesOf k n).length = k := by
  intro k
  induction k with
  | zero => intro n; rfl
  | succ k ih => intro n; simp [bytesOf, ih]

theorem digest_length (m : List Byte) : (digest m).length = 20 := by
  simp [digest, bytesOf_length]

/-- The digest of "abc". -/
example : digest [97, 98, 99] = [0xa9, 0x99, 0x3e, 0x36, 0x47, 0x06, 0x81, 0x6a, 0xba, 0x3e, 0x25, 0x71, 0x78, 0x50,
    0xc2, 0x6c, 0x9c, 0xd0, 0xd8, 0x9d] := by decide +kernel

end RacKun.Lib.Sha1
