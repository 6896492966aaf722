import Mathlib.Tactic.SplitIfs
/-!
# ena — strings

`string.c`: bytes in memory, with a size. A loop over a string goes
through the bytes that are left, from the index it has come to. Two of
the loops need not end; they take fuel. `none` is no answer: the fuel is
used up, or the source reads outside of the string.
-/

namespace Archives.Ena.Strings

abbrev Byte := UInt8

/-! ## Searching -/

/-- The loop of `search`. `memchr` looks for the first byte of the needle
from `pos` on; there `haystack_size - pos` must not wrap around. -/
def searchLoop (haystack needle : List Byte) (first : Byte) : Nat → Nat → Option (Option Nat)
  | 0, _ => none
  | fuel + 1, pos =>
    if haystack.length < pos then none
    else
      match (haystack.drop pos).idxOf? first with
      | none => some none
      | some begin =>
        let offset := pos + begin
        let remaining := haystack.length - offset
        if remaining < needle.length then some none
        else if (haystack.drop offset).take needle.length = needle then some (some offset)
        else searchLoop haystack needle first fuel (pos + offset)

/-- `search`. The place where the needle was found is given as an index. -/
def search (fuel : Nat) (haystack : List Byte) (start : Nat) : List Byte → Option (Option Nat)
  | [] => some none
  | first :: rest => searchLoop haystack (first :: rest) first fuel start

/-! ## Escape sequences -/

def backslash : Byte := 0x5c

/-- What the `switch` knows, with the byte it writes. -/
def unescape (c : Byte) : Option Byte :=
  if c = 0x74 then some 0x09      -- `t`
  else if c = 0x6e then some 0x0a -- `n`
  else if c = 0x22 then some 0x22 -- the quote
  else none

/-- `handle_escape_sequence`. The byte `next` follows the string in
memory: the quote after a literal, or the final NUL. -/
def handleEscapeSequence (next : Byte) : Nat → List Byte → Option (List Byte)
  | 0, _ => none
  | _ + 1, [] => some []
  | fuel + 1, c :: str =>
    if c = backslash then
      match unescape (str.head?.getD next) with
      | some d => (handleEscapeSequence next fuel str.tail).map (d :: ·)
      -- no case applies: `str_i` stays as it is
      | none => handleEscapeSequence next fuel (c :: str)
    else (handleEscapeSequence next fuel str).map (c :: ·)

/-- `struct ena_string`, without the identifier its text is kept under. -/
structure EnaString where
  str : List Byte
  sizeInBytes : Nat
  deriving DecidableEq

/-- `ena_create_string`. The text becomes an identifier, which is a C
string: it ends before the first NUL. -/
def createString (next : Byte) (fuel : Nat) (str : List Byte) : Option EnaString :=
  (handleEscapeSequence next fuel str).map fun buf => ⟨buf.takeWhile (· ≠ 0), str.length⟩

/-! ## UTF-8 -/

/-- `char_len`, by the first byte of a character. -/
def charLen (b : Byte) : Nat :=
  if b &&& 0xf8 = 0xf0 then 4
  else if b &&& 0xf0 = 0xe0 then 3
  else if b &&& 0xe0 = 0xc0 then 2
  else 1

theorem charLen_pos (b : Byte) : 0 < charLen b := by
  unfold charLen
  split_ifs <;> decide

def utf8Strlen : List Byte → Nat
  | [] => 0
  | b :: str => utf8Strlen ((b :: str).drop (charLen b)) + 1
termination_by str => str.length
decreasing_by
  have := charLen_pos b
  rw [List.length_drop, List.length_cons]
  omega

/-- The character at the beginning of a string, unless an assertion on
the size fails. A single byte is a signed `char`. -/
def firstChar : List Byte → Option UInt32
  | [] => none
  | b :: str =>
    match charLen b, str with
    | 4, b₁ :: b₂ :: b₃ :: _ =>
      some (((b.toUInt32 &&& 0x07) <<< 18) ||| ((b₁.toUInt32 &&& 0x3f) <<< 12) |||
        ((b₂.toUInt32 &&& 0x3f) <<< 6) ||| (b₃.toUInt32 &&& 0x3f))
    | 3, b₁ :: b₂ :: _ =>
      some (((b.toUInt32 &&& 0x0f) <<< 12) ||| ((b₁.toUInt32 &&& 0x3f) <<< 6) |||
        (b₂.toUInt32 &&& 0x3f))
    | 2, b₁ :: _ => some (((b.toUInt32 &&& 0x1f) <<< 6) ||| (b₁.toUInt32 &&& 0x3f))
    | 1, _ => some b.toInt8.toInt32.toUInt32
    | _, _ => none

def fffdChar : UInt32 := 0xfffd

def utf8CharAt : List Byte → Nat → Option UInt32
  | [], _ => some fffdChar
  | b :: str, 0 => firstChar (b :: str)
  | b :: str, index + 1 => utf8CharAt ((b :: str).drop (charLen b)) index

end Archives.Ena.Strings
