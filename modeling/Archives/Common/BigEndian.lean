import Mathlib.Data.List.Basic
/-!
# Words of four bytes, the most significant first

A byte string stands for a number, and is laid out in words with zeros
after its end (`pad`). The bytes of a padded string begin with the
string, whatever words follow.
-/

namespace Archives.BigEndian

open List

/-- The number some bytes stand for, after the ones already read. -/
def numberFrom : Nat → List UInt8 → Nat
  | n, [] => n
  | n, b :: bytes => numberFrom (n * 256 + b.toNat) bytes

/-- The number some bytes stand for. -/
def number (bytes : List UInt8) : Nat := numberFrom 0 bytes

/-- Four bytes in memory. -/
structure Word where
  b0 : UInt8
  b1 : UInt8
  b2 : UInt8
  b3 : UInt8
  deriving DecidableEq, Repr

namespace Word

def bytes (w : Word) : List UInt8 := [w.b0, w.b1, w.b2, w.b3]

def get (w : Word) : Nat := number w.bytes

/-- The word of a number. -/
def ofNat (n : Nat) : Word :=
  ⟨UInt8.ofNat (n / 16777216), UInt8.ofNat (n / 65536), UInt8.ofNat (n / 256), UInt8.ofNat n⟩

theorem get_eq (w : Word) :
    w.get = ((w.b0.toNat * 256 + w.b1.toNat) * 256 + w.b2.toNat) * 256 + w.b3.toNat := by
  simp [get, number, numberFrom, bytes]

theorem get_lt (w : Word) : w.get < 4294967296 := by
  have h0 := w.b0.toNat_lt
  have h1 := w.b1.toNat_lt
  have h2 := w.b2.toNat_lt
  have h3 := w.b3.toNat_lt
  rw [get_eq]
  omega

/-- **A number that fits is read back.** -/
theorem get_ofNat {n : Nat} (h : n < 4294967296) : (ofNat n).get = n := by
  rw [get_eq]
  simp only [ofNat, UInt8.toNat_ofNat']
  omega

end Word

/-! ## Padding -/

/-- The words of a byte string, the last one filled up with zeros. -/
def pad : List UInt8 → List Word
  | [] => []
  | [a] => [⟨a, 0, 0, 0⟩]
  | [a, b] => [⟨a, b, 0, 0⟩]
  | [a, b, c] => [⟨a, b, c, 0⟩]
  | a :: b :: c :: d :: rest => ⟨a, b, c, d⟩ :: pad rest

theorem length_pad (bytes : List UInt8) : (pad bytes).length = (bytes.length + 3) / 4 := by
  induction bytes using pad.induct with
  | case1 => rfl
  | case2 a => simp [pad]
  | case3 a b => simp [pad]
  | case4 a b c => simp [pad]
  | case5 a b c d rest ih =>
    simp only [pad, length_cons, ih]
    omega

/-- **A padded string begins with the string.** -/
theorem prefix_bytes_pad (bytes : List UInt8) : bytes <+: (pad bytes).flatMap Word.bytes := by
  induction bytes using pad.induct with
  | case1 => exact nil_prefix
  | case2 a => exact ⟨[0, 0, 0], rfl⟩
  | case3 a b => exact ⟨[0, 0], rfl⟩
  | case4 a b c => exact ⟨[0], rfl⟩
  | case5 a b c d rest ih =>
    obtain ⟨zeros, hzeros⟩ := ih
    refine ⟨zeros, ?_⟩
    simp [pad, Word.bytes, hzeros]

/-- What is read back of a padded string, whatever follows. -/
theorem take_bytes_pad (bytes : List UInt8) (rest : List Word) :
    ((pad bytes ++ rest).flatMap Word.bytes).take bytes.length = bytes := by
  obtain ⟨zeros, hzeros⟩ := prefix_bytes_pad bytes
  rw [flatMap_append, ← hzeros, append_assoc, take_left]

theorem length_le_bytes_pad (bytes : List UInt8) (rest : List Word) :
    bytes.length ≤ ((pad bytes ++ rest).flatMap Word.bytes).length := by
  obtain ⟨zeros, hzeros⟩ := prefix_bytes_pad bytes
  rw [flatMap_append, ← hzeros]
  simp only [length_append]
  omega

/-! ## Whole words -/

/-- The whole words of a byte string. -/
def words : List UInt8 → List Word
  | a :: b :: c :: d :: rest => ⟨a, b, c, d⟩ :: words rest
  | _ => []

theorem length_words (bytes : List UInt8) : (words bytes).length = bytes.length / 4 := by
  induction bytes using words.induct with
  | case1 a b c d rest ih =>
    simp only [words, length_cons, ih]
    omega
  | case2 bytes hshort =>
    rcases bytes with _ | ⟨a, _ | ⟨b, _ | ⟨c, _ | ⟨d, rest⟩⟩⟩⟩
    · rfl
    · simp [words]
    · simp [words]
    · simp [words]
    · exact absurd rfl (hshort a b c d rest)

theorem numberFrom_append (n : Nat) (xs ys : List UInt8) :
    numberFrom n (xs ++ ys) = numberFrom (numberFrom n xs) ys := by
  induction xs generalizing n with
  | nil => rfl
  | cons x xs ih => exact ih _

theorem numberFrom_word (n : Nat) (w : Word) (rest : List UInt8) :
    numberFrom n (w.bytes ++ rest) = numberFrom (n * 4294967296 + w.get) rest := by
  have hword : numberFrom n w.bytes = n * 4294967296 + w.get := by
    rw [Word.get_eq]
    simp only [Word.bytes, numberFrom]
    omega
  rw [numberFrom_append, hword]

end Archives.BigEndian
