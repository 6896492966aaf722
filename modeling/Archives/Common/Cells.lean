import Mathlib.Data.List.Basic
/-!
# Memories of numbered cells

A memory gives every address the value of its cell. A list is written
into the cells from an address on; a slice reads a number of cells. What
was written is read back, and a slice apart from it reads what it did
before.
-/

namespace Archives.Cells

open List Option

variable {α : Type}

/-- The memory after a list was written from an address on. -/
def write (mem : Nat → α) (start : Nat) (src : List α) : Nat → α := fun i =>
  if start ≤ i then (src[i - start]?).getD (mem i) else mem i

def slice (mem : Nat → α) (start len : Nat) : List α := (range' start len).map mem

variable {mem : Nat → α} {start len : Nat} {src : List α}

@[simp] theorem length_slice : (slice mem start len).length = len := by
  rw [slice, length_map, length_range']

/-- Two adjacent slices are one. -/
theorem slice_add (n m : Nat) :
    slice mem start (n + m) = slice mem start n ++ slice mem (start + n) m := by
  rw [slice, slice, slice, ← map_append, range'_append_1]

/-- Two memories have the same slice where they have the same cells. -/
theorem slice_congr {mem' : Nat → α} (h : ∀ i, start ≤ i → i < start + len → mem i = mem' i) :
    slice mem start len = slice mem' start len := by
  refine map_congr_left fun i hi => ?_
  rw [mem_range'_1] at hi
  exact h i hi.1 hi.2

theorem write_of_lt {i : Nat} (h : i < start) : write mem start src i = mem i :=
  if_neg (by omega)

theorem write_of_ge {i : Nat} (h : start + src.length ≤ i) : write mem start src i = mem i := by
  rw [write, if_pos (by omega), getElem?_eq_none (by omega), getD_none]

theorem write_nil : write mem start [] = mem := by
  funext i
  simp [write]

/-- Two writes to adjacent cells are one. -/
theorem write_append (a b : List α) :
    write (write mem (start + b.length) a) start b = write mem start (b ++ a) := by
  funext i
  simp only [write]
  by_cases hi : start ≤ i
  · rw [if_pos hi, if_pos hi]
    by_cases hb : start + b.length ≤ i
    · rw [if_pos hb, getElem?_append_right (by omega), getElem?_eq_none (by omega),
        getD_none, Nat.sub_add_eq]
    · rw [if_neg hb, getElem?_append_left (by omega)]
  · rw [if_neg hi, if_neg hi, if_neg (by omega)]

/-- **What was written is read back.** -/
theorem slice_write : slice (write mem start src) start src.length = src := by
  refine ext_getElem length_slice fun i _ hi => ?_
  have hread : (slice (write mem start src) start src.length)[i]? = src[i]? := by
    rw [slice, getElem?_map, getElem?_range' hi, map_some, Nat.one_mul, write,
      if_pos (by omega), Nat.add_sub_cancel_left, getElem?_eq_getElem hi, getD_some]
  rw [getElem?_eq_getElem hi, getElem?_eq_getElem (by rw [length_slice]; exact hi)] at hread
  exact some.inj hread

/-- A write below a slice does not concern it. -/
theorem slice_write_of_le {from' : Nat} (h : start + src.length ≤ from') :
    slice (write mem start src) from' len = slice mem from' len :=
  slice_congr fun _ hi _ => write_of_ge (by omega)

/-- The slice that begins with what was written and goes on above it. -/
theorem slice_write_append (n : Nat) : slice (write mem start src) start (src.length + n) =
      src ++ slice mem (start + src.length) n := by
  rw [slice_add, slice_write, slice_write_of_le (Nat.le_refl _)]

/-- The end of a slice is a slice. -/
theorem drop_slice (n : Nat) : (slice mem start len).drop n = slice mem (start + n) (len - n) := by
  rw [slice, slice, ← map_drop, drop_range', Nat.mul_one]

end Archives.Cells
