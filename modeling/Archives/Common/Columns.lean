import Mathlib.Data.List.Induction
/-!
# Rows and columns

A sequence is broken into rows; a list of marks says after which of its
places a row ends. The row of a place is the number of ends before it,
its column the number of places since the last one. The two follow from
those of a shorter initial part (`row_append`, `column_append`), and
with the place where the row starts they give the place back
(`rowStart_add_column`).
-/

namespace Archives.Columns

open List

/-- The row of the place after the marks. -/
def row (m : List Bool) : Nat := m.count true

/-- The column of the place after the marks. -/
def column (m : List Bool) : Nat := m.foldl (fun c b => if b then 0 else c + 1) 0

/-- The place where a row starts, if there are that many. -/
def rowStart : List Bool → Nat → Nat
  | _, 0 => 0
  | [], _ + 1 => 0
  | true :: m, y + 1 => rowStart m y + 1
  | false :: m, y + 1 => rowStart m (y + 1) + 1

theorem rowStart_zero (m : List Bool) : rowStart m 0 = 0 := by
  rw [rowStart]

theorem row_append (a b : List Bool) : row (a ++ b) = row a + row b := count_append

theorem row_eq_zero {m : List Bool} : row m = 0 ↔ true ∉ m := count_eq_zero

/-- From any column on, the marks lead to their own last column, or that
many places further. -/
theorem foldl_column (c : Nat) (m : List Bool) : m.foldl (fun c b => if b then 0 else c + 1) c =
      if true ∈ m then column m else c + m.length := by
  induction m generalizing c with
  | nil => rfl
  | cons b m ih =>
    cases b with
    | true =>
      rfl
    | false =>
      have hcolumn : column (false :: m) = if true ∈ m then column m else 1 + m.length := by
        exact ih 1
      rw [foldl_cons, if_neg (by decide), ih, hcolumn]
      by_cases hm : true ∈ m
      · rw [if_pos hm, if_pos (mem_cons_of_mem _ hm), if_pos hm]
      · rw [if_neg hm, if_neg (by simpa using hm), length_cons]
        omega

theorem column_append (a b : List Bool) :
    column (a ++ b) = if true ∈ b then column b else column a + b.length := by
  rw [column, foldl_append, foldl_column]
  rfl

variable {b : List Bool}

theorem column_append_of_mem (a : List Bool) (h : true ∈ b) : column (a ++ b) = column b := by
  rw [column_append, if_pos h]

theorem column_append_of_notMem (a : List Bool) (h : true ∉ b) :
    column (a ++ b) = column a + b.length := by
  rw [column_append, if_neg h]

/-- After the last end of a row, only places count. -/
theorem column_append_true (a : List Bool) (h : true ∉ b) : column (a ++ true :: b) = b.length := by
  have hsplit : a ++ true :: b = (a ++ [true]) ++ b := by simp
  rw [hsplit, column_append_of_notMem _ h, column_append_of_mem _ (by simp)]
  exact Nat.zero_add _

/-- The row after an end starts right there. -/
theorem rowStart_append_true (a b : List Bool) :
    rowStart (a ++ true :: b) (row a + 1) = a.length + 1 := by
  induction a with
  | nil =>
    show rowStart b 0 + 1 = 1
    rw [rowStart_zero]
  | cons c a ih =>
    cases c with
    | true =>
      have hrow : row (true :: a) = row a + 1 := count_cons_self
      rw [hrow, cons_append, rowStart, ih, length_cons]
    | false =>
      have hrow : row (false :: a) = row a := count_cons_of_ne (by decide)
      rw [hrow, cons_append, rowStart, ih, length_cons]

/-- **Row and column give the place back.** -/
theorem rowStart_add_column (a b : List Bool) :
    rowStart (a ++ b) (row a) + column a = a.length := by
  induction a using List.reverseRecOn generalizing b with
  | nil => exact rowStart_zero b
  | append_singleton a c ih =>
    rw [row_append, append_assoc, length_append]
    cases c with
    | true =>
      rw [column_append_of_mem a (by simp)]
      exact rowStart_append_true a b
    | false =>
      rw [column_append_of_notMem a (by simp), ← Nat.add_assoc]
      exact congrArg (· + 1) (ih _)

end Archives.Columns
