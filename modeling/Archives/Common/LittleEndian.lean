import Mathlib.Data.List.Basic
/-!
# Numbers as bytes, the least significant first

A number is written in a fixed number of bytes, and read back from a list
of them. A sequence of numbers of one width is read back whatever bytes
follow it.
-/

namespace Archives.LittleEndian

open List UInt8

/-- The numbers from here on do not fit into `width` bytes. -/
def limit : Nat → Nat
  | 0 => 1
  | width + 1 => 256 * limit width

/-- The bytes of a number. -/
def encode : Nat → Nat → List UInt8
  | 0, _ => []
  | width + 1, n => ofNat n :: encode width (n / 256)

/-- The number some bytes stand for. -/
def decode : List UInt8 → Nat
  | [] => 0
  | b :: bytes => b.toNat + 256 * decode bytes

@[simp] theorem length_encode (width n : Nat) : (encode width n).length = width := by
  induction width generalizing n with
  | zero => rfl
  | succ width ih => rw [encode, length_cons, ih]

/-- **A number that fits is read back.** -/
theorem decode_encode {width n : Nat} (h : n < limit width) : decode (encode width n) = n := by
  induction width generalizing n with
  | zero =>
    simp only [limit] at h
    simp only [encode, decode]
    omega
  | succ width ih =>
    simp only [limit] at h
    have hrest : decode (encode width (n / 256)) = n / 256 := ih (by omega)
    have hbyte : (ofNat n).toNat = n % 256 := toNat_ofNat'
    rw [encode, decode, hrest, hbyte]
    omega

/-! ## Sequences -/

variable (width : Nat)

/-- A sequence of numbers of one width. -/
def encodeAll (ns : List Nat) : List UInt8 := ns.flatMap (encode width)

/-- The first `count` numbers of a sequence. -/
def decodeAll (width : Nat) : Nat → List UInt8 → List Nat
  | 0, _ => []
  | count + 1, bytes => decode (bytes.take width) :: decodeAll width count (bytes.drop width)

@[simp] theorem encodeAll_nil : encodeAll width [] = [] := rfl

theorem encodeAll_cons (width n : Nat) (ns : List Nat) :
    encodeAll width (n :: ns) = encode width n ++ encodeAll width ns := rfl

theorem encodeAll_append (ns ms : List Nat) :
    encodeAll width (ns ++ ms) = encodeAll width ns ++ encodeAll width ms := flatMap_append

@[simp] theorem length_encodeAll (ns : List Nat) :
    (encodeAll width ns).length = width * ns.length := by
  induction ns with
  | nil => rfl
  | cons n ns ih =>
    rw [encodeAll_cons, length_append, length_encode, ih, length_cons, Nat.mul_succ]
    omega

/-- **A sequence of numbers is read back**, whatever follows it. -/
theorem decodeAll_encodeAll {width : Nat} {ns : List Nat} (h : ∀ n ∈ ns, n < limit width)
    (count : Nat) (rest : List UInt8) :
    decodeAll width (ns.length + count) (encodeAll width ns ++ rest) =
      ns ++ decodeAll width count rest := by
  induction ns with
  | nil => rw [length_nil, Nat.zero_add, encodeAll_nil, nil_append, nil_append]
  | cons n ns ih =>
    have hn : decode (encode width n) = n := decode_encode (h n (mem_cons_self))
    have hns := ih fun m hm => h m (mem_cons_of_mem n hm)
    rw [length_cons, Nat.succ_add, encodeAll_cons, append_assoc, decodeAll,
      take_left' (length_encode width n), drop_left' (length_encode width n), hn, hns,
      cons_append]

end Archives.LittleEndian
