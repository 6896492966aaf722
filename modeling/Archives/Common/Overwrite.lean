import Mathlib.Data.List.Basic
/-!
# Buffers that are filled from the front

A buffer is a list whose length stays; writing puts a list in the place
of as many of its elements. A buffer that has been filled so far with one
list and gets another written at the end of it holds the two in a row.
-/

namespace Archives.Overwrite

open List

variable {α : Type}

/-- A buffer with a list in the place of the elements from `start` on. -/
def write (buf : List α) (start : Nat) (src : List α) : List α :=
  buf.take start ++ src ++ buf.drop (start + src.length)

variable {buf src filled rest : List α} {start : Nat}

theorem length_write (h : start + src.length ≤ buf.length) :
    (write buf start src).length = buf.length := by
  simp only [write, length_append, length_take, length_drop]
  omega

/-- **Writing at the end of what is filled** fills more. -/
theorem write_at_end (filled rest src : List α) :
    write (filled ++ rest) filled.length src = filled ++ src ++ rest.drop src.length := by
  rw [write, take_left, ← drop_drop, drop_left]

/-- **Writing over a part of what is filled** changes that part. -/
theorem write_inside {before old after : List α} (h : src.length = old.length) :
    write (before ++ old ++ after) before.length src = before ++ src ++ after := by
  rw [append_assoc, write_at_end, h, drop_left]

end Archives.Overwrite
