import Archives.Common.Traverse
import Archives.Noa.Model.Buffer
/-!
# Noa — edits and the other cursors

When `edit_at_cursor` is right. It counts the lines and columns of the
new position from the range and the new text alone, with `\n` as the only
line break, as if no line ended in the removed text once the new text has
a `\n`, and with bytes in place of characters up to the last `\n`.

Lines and columns are those of the marks of a text (`Columns`): the
marks of a text are put together from those of its parts
(`marks_append`), and so is the position after it (`cell_append`).
-/

namespace Archives.Noa

open Columns List Option Bool Nat MutRawBuffer

variable {isBreak : Char → Bool} {a b : Position}

/-! ## Marks -/

theorem marks_append (next : Option Char) (s t : Text) :
    marks isBreak next (s ++ t) = marks isBreak (t.head?.or next) s ++ marks isBreak next t := by
  induction s with
  | nil => rfl
  | cons c s ih =>
    rw [cons_append, marks, ih, head?_append, Option.or_assoc]
    rfl

theorem length_marks (next : Option Char) (s : Text) :
    (marks isBreak next s).length = s.length := by
  induction s with
  | nil => rfl
  | cons c s ih => rw [marks, length_cons, ih, length_cons]

/-- The position after some marks. -/
def cell (m : List Bool) : Position where
  y := row m
  x := column m

theorem cell_append_of_mem {n : List Bool} (m : List Bool) (h : true ∈ n) :
    cell (m ++ n) = { y := row m + row n, x := column n } := by
  rw [cell, row_append, column_append_of_mem m h]

theorem cell_append_of_notMem {n : List Bool} (m : List Bool) (h : true ∉ n) :
    cell (m ++ n) = { y := row m, x := column m + n.length } := by
  rw [cell, row_append, column_append_of_notMem m h, row_eq_zero.2 h, Nat.add_zero]

/-- The position of a place depends on the text up to there and the next
character. -/
theorem position_append (s t : Text) :
    position isBreak (s ++ t) s.length = cell (marks isBreak t.head? s) := by
  have htake : (marks isBreak none (s ++ t)).take s.length = marks isBreak t.head? s := by
    rw [marks_append, or_none]
    exact take_left' (length_marks _ _)
  rw [position, htake]
  rfl

/-! ## The order of positions -/

/-- `a` is not after `b`. -/
def Before (a b : Position) : Prop := a.y < b.y ∨ a.y = b.y ∧ a.x ≤ b.x

theorem before_cell_append (m n : List Bool) : Before (cell m) (cell (m ++ n)) := by
  by_cases h : true ∈ n
  · rw [cell_append_of_mem m h]
    refine Or.inl (Nat.lt_add_of_pos_right (Nat.pos_of_ne_zero fun h0 => ?_))
    exact row_eq_zero.1 h0 h
  · rw [cell_append_of_notMem m h]
    exact Or.inr ⟨rfl, Nat.le_add_right _ _⟩

theorem cmp_of_before (h : Before a b) : a.cmp b ≠ .gt := by
  rw [Position.cmp]
  split_ifs with heq
  · decide
  · rcases h with hy | ⟨hy, hx⟩
    · rw [Nat.compare_eq_lt.2 hy]
      nofun
    · rw [Nat.compare_eq_eq.2 hy]
      exact fun hgt => absurd (Nat.compare_eq_gt.1 hgt) (Nat.not_lt.2 hx)

theorem cmp_of_before_of_ne (h : Before b a) (hne : a ≠ b) : a.cmp b = .gt := by
  rw [Position.cmp, if_neg hne]
  rcases h with hy | ⟨hy, hx⟩
  · rw [Nat.compare_eq_gt.2 hy]
  · rw [Nat.compare_eq_eq.2 hy.symm]
    refine Nat.compare_eq_gt.2 (Nat.lt_of_le_of_ne hx fun hx' => hne ?_)
    cases b
    simp_all

/-- The front and the back of a range, whichever end comes first. -/
theorem front_back_of_before (h : Before a b) : Range.front ⟨a, b⟩ = a ∧ Range.back ⟨a, b⟩ = b ∧
      Range.front ⟨b, a⟩ = a ∧ Range.back ⟨b, a⟩ = b := by
  have hab := cmp_of_before h
  by_cases heq : b = a
  · subst heq
    exact ⟨if_neg hab, if_neg hab, if_neg hab, if_neg hab⟩
  · have hba := cmp_of_before_of_ne h heq
    exact ⟨if_neg hab, if_neg hab, if_pos hba, if_pos hba⟩

/-! ## The text -/

variable {R : Ropey} {b : MutRawBuffer R} {before removed newText after s : Text} {range : Range}
  {next : Option Char} {i : Nat}

/-- **Positions are read back as the places they are at.** -/
theorem posToCharIndex_cell {r : RawBuffer R} {t : Text} (htext : r.text = s ++ t)
    (hlen : s.length < usizeMax) :
    r.posToCharIndex (cell (marks R.isBreak t.head? s)) = some s.length := by
  have hmarks : marks R.isBreak none (R.text r.rope) =
      marks R.isBreak t.head? s ++ marks R.isBreak none t := by
    have htext : R.text r.rope = s ++ t := htext
    rw [htext, marks_append, or_none]
  have hplace := rowStart_add_column (marks R.isBreak t.head? s) (marks R.isBreak none t)
  rw [length_marks, ← hmarks] at hplace
  generalize marks R.isBreak t.head? s = m at hmarks hplace
  have hrow : row m ≤ row (marks R.isBreak none (R.text r.rope)) := by
    rw [hmarks, row_append]
    exact le_add_right _ _
  have hlast : ¬ ((cell m).y = r.numLines ∧ (cell m).x = 0) := by
    rintro ⟨hy, -⟩
    rw [RawBuffer.numLines, R.lenLines_eq] at hy
    have hy : row m = _ := hy
    omega
  have hmax : (cell m).x ≠ usizeMax := by
    have hx : (cell m).x = column m := rfl
    omega
  rw [RawBuffer.posToCharIndex, if_neg hlast, if_neg hmax]
  show (R.lineToChar r.rope (row m)).bind _ = _
  rw [R.lineToChar_eq _ _ hrow]
  exact congrArg some hplace

theorem removeChars_eq {rope : R.Rope} (htext : R.text rope = before ++ (removed ++ after)) :
    ∃ rope', removeChars rope before.length (before.length + removed.length) =
      some rope' ∧ R.text rope' = before ++ after := by
  rw [removeChars]
  split_ifs with hlt
  · have hr := R.text_remove rope before.length (before.length + removed.length)
      (le_add_right _ _) (by rw [htext]; simp)
    obtain ⟨rope', hrope', htext'⟩ := map_eq_some_iff.1 hr
    refine ⟨rope', hrope', ?_⟩
    rw [htext', htext, take_left, ← append_assoc, drop_left' (by simp)]
  · obtain rfl : removed = [] := length_eq_zero_iff.1 (by omega)
    exact ⟨rope, rfl, htext⟩

theorem insertChars_eq {rope : R.Rope} (newText : Text) (htext : R.text rope = before ++ after) :
    ∃ rope', insertChars rope before.length newText = some rope' ∧
      R.text rope' = before ++ (newText ++ after) := by
  rw [insertChars]
  split_ifs with hnew
  · have hr := R.text_insert rope before.length newText (by rw [htext]; simp)
    obtain ⟨rope', hrope', htext'⟩ := map_eq_some_iff.1 hr
    refine ⟨rope', hrope', ?_⟩
    rw [htext', htext, take_left, drop_left, append_assoc]
  · obtain rfl : newText = [] := not_not.1 hnew
    exact ⟨rope, rfl, htext⟩

/-- **The text after the edit.** -/
theorem editWithoutRecording_eq (htext : b.raw.text = before ++ (removed ++ after))
    (hfront : b.raw.posToCharIndex range.front = some before.length)
    (hback : b.raw.posToCharIndex range.back = some (before.length + removed.length)) :
    ∃ b', b.editWithoutRecording range newText = some b' ∧
      b'.raw.text = before ++ (newText ++ after) := by
  obtain ⟨rope, hrope, htext₁⟩ := removeChars_eq htext
  obtain ⟨rope', hrope', htext₂⟩ := insertChars_eq newText htext₁
  refine ⟨{ b with raw := { rope := rope' } }, ?_, htext₂⟩
  simp [editWithoutRecording, hfront, hback, hrope, hrope']

/-! ## Line breaks at the seams -/

/-- The last mark of a text is the only one that depends on what
follows. -/
theorem marks_concat (s : Text) (c : Char) (next : Option Char) :
    marks isBreak next (s ++ [c]) = marks isBreak (some c) s ++ [endsLine isBreak c next] := by
  rw [marks_append]
  rfl

theorem breakAfter_concat (s : Text) (c : Char) (next : Option Char) :
    breakAfter isBreak (s ++ [c]) next = endsLine isBreak c next := by
  rw [breakAfter, marks_concat, getLast?_concat]
  cases endsLine isBreak c next <;> rfl

theorem row_singleton (v : Bool) : row [v] = v.toNat := by
  cases v <;> rfl

/-- The lines of a text, whatever follows it. -/
theorem row_marks_add (isBreak : Char → Bool) (s : Text) (next next' : Option Char) :
    row (marks isBreak next s) + (breakAfter isBreak s next').toNat =
      row (marks isBreak next' s) + (breakAfter isBreak s next).toNat := by
  induction s using reverseRecOn with
  | nil => rfl
  | append_singleton s c _ =>
    simp only [marks_concat, breakAfter_concat, row_append, row_singleton]
    omega

theorem marks_congr {next' : Option Char}
    (h : breakAfter isBreak s next = breakAfter isBreak s next') :
    marks isBreak next s = marks isBreak next' s := by
  induction s using reverseRecOn with
  | nil => rfl
  | append_singleton s c _ =>
    rw [breakAfter_concat, breakAfter_concat] at h
    rw [marks_concat, marks_concat, h]

/-- A line break is lost only where `\n` follows `\r`. -/
theorem eq_newline_of_joined {next' : Option Char} (h : breakAfter isBreak s next = true)
    (h' : breakAfter isBreak s next' = false) : next' = some '\n' := by
  induction s using reverseRecOn with
  | nil => cases h
  | append_singleton s c _ =>
    rw [breakAfter_concat, endsLine] at h h'
    simp only [and_eq_true] at h
    rw [h.1, Bool.true_and, not_eq_false', and_eq_true, beq_iff_eq, beq_iff_eq] at h'
    exact h'.2

/-! ## Line breaks in the new text -/

theorem endsLine_newline (hbreak : isBreak '\n' = true) (next : Option Char) :
    endsLine isBreak '\n' next = true := by
  rw [endsLine, hbreak]
  rfl

/-- Every `\n` ends a line. -/
theorem count_newline_le (hbreak : isBreak '\n' = true) (next : Option Char) (s : Text) :
    s.count '\n' ≤ row (marks isBreak next s) := by
  induction s with
  | nil => exact Nat.le_refl 0
  | cons c s ih =>
    by_cases hc : c = '\n'
    · subst hc
      rw [count_cons_self, marks, endsLine_newline hbreak, row, count_cons_self]
      exact succ_le_succ ih
    · rw [count_cons_of_ne hc, marks]
      exact Nat.le_trans ih (List.Sublist.count_le _ (sublist_cons_self _ _))

/-- A text with a `\n` in it, cut at the last one. -/
theorem eq_beforeLast_append {c : Char} (h : c ∈ s) :
    ∃ t, s = beforeLast c s ++ c :: t ∧ c ∉ t := by
  induction s with
  | nil => cases h
  | cons a s ih =>
    by_cases hs : c ∈ s
    · obtain ⟨t, ht, hnot⟩ := ih hs
      refine ⟨t, ?_, hnot⟩
      rw [beforeLast, if_pos hs, cons_append, ← ht]
    · obtain rfl : c = a := by simpa [hs] using h
      exact ⟨s, by rw [beforeLast, if_neg hs]; rfl, hs⟩

theorem beforeLast_eq_nil {c : Char} (h : c ∉ s) : beforeLast c s = [] := by
  cases s with
  | nil => rfl
  | cons a s => exact if_neg fun hs => h (mem_cons_of_mem _ hs)

theorem length_le_bytes (s : Text) : s.length ≤ bytes s := by
  induction s with
  | nil => exact Nat.le_refl 0
  | cons c s ih =>
    have hc : 0 < c.utf8Size := c.utf8Size_pos
    have hcons : bytes (c :: s) = c.utf8Size + bytes s := rfl
    rw [length_cons, hcons]
    omega

/-- Only single-byte characters take as many bytes as characters. -/
theorem bytes_eq_length_iff (s : Text) : bytes s = s.length ↔ ∀ c ∈ s, c.utf8Size = 1 := by
  induction s with
  | nil => simp [bytes]
  | cons c s ih =>
    have hc : 0 < c.utf8Size := c.utf8Size_pos
    have hle := length_le_bytes s
    have hcons : bytes (c :: s) = c.utf8Size + bytes s := rfl
    rw [length_cons, hcons, forall_mem_cons, ← ih]
    omega

/-- Where the only line breaks are `\n`, the last one is the last
`\n`. -/
theorem column_of_row_eq (hbreak : isBreak '\n' = true) (hs : '\n' ∈ s)
    (hrow : row (marks isBreak next s) = s.count '\n') :
    column (marks isBreak next s) + (beforeLast '\n' s).length + 1 = s.length := by
  obtain ⟨t, ht, hnot⟩ := eq_beforeLast_append hs
  have hmarks : marks isBreak next s =
      marks isBreak (some '\n') (beforeLast '\n' s) ++ true :: marks isBreak next t := by
    conv_lhs => rw [ht]
    rw [marks_append, marks, endsLine_newline hbreak]
    rfl
  have hcount : s.count '\n' = (beforeLast '\n' s).count '\n' + 1 := by
    conv_lhs => rw [ht]
    rw [count_append, count_cons_self, count_eq_zero.2 hnot]
  have hle := count_newline_le hbreak (some '\n') (beforeLast '\n' s)
  have htrue : row (true :: marks isBreak next t) = row (marks isBreak next t) + 1 :=
    count_cons_self
  rw [hmarks, row_append, htrue] at hrow
  have hnone : true ∉ marks isBreak next t := row_eq_zero.1 (by omega)
  have hlen := congrArg length ht
  rw [length_append, length_cons] at hlen
  rw [hmarks, column_append_true _ hnone, length_marks]
  omega

/-! ## The new position -/

/-- Without a `\n` in the new text. -/
theorem positionAfterEdit_of_notMem (h : '\n' ∉ newText) : positionAfterEdit range newText =
      some { y := range.front.y, x := range.front.x + newText.length } := by
  have hx : xDiff newText = some newText.length := by
    rw [xDiff, rfind, if_neg h]
  rw [positionAfterEdit, hx]
  simp [count_eq_zero.2 h, h]

/-- With a `\n` in the new text, the column is what is left of the text
after the bytes up to the last one. -/
theorem positionAfterEdit_eq_some_of_mem {y x : Nat} (h : '\n' ∈ newText) :
    positionAfterEdit range newText = some { y := y, x := x } ↔
      x + bytes (beforeLast '\n' newText) + 1 = newText.length ∧
        range.front.y + (newText.count '\n' - (range.back.y - range.front.y)) = y := by
  have hx : xDiff newText = if bytes (beforeLast '\n' newText) + 1 ≤ newText.length then
      some (newText.length - bytes (beforeLast '\n' newText) - 1) else none := by
    rw [xDiff, rfind, if_pos h]
  rw [positionAfterEdit, hx]
  by_cases hle : bytes (beforeLast '\n' newText) + 1 ≤ newText.length
  · rw [if_pos hle]
    simp [h]
    omega
  · rw [if_neg hle]
    exact iff_of_false nofun (by omega)

theorem toNat_inj {v v' : Bool} (h : v.toNat = v'.toNat) : v = v' := by
  cases v <;> cases v' <;> first | rfl | cases h

theorem joined_of_toNat_lt {v v' : Bool} (h : v'.toNat < v.toNat) : v = true ∧ v' = false := by
  cases v <;> cases v' <;> first | exact ⟨rfl, rfl⟩ | exact absurd h (by decide)

theorem true_mem_marks (hbreak : isBreak '\n' = true) (h : '\n' ∈ s) :
    true ∈ marks isBreak next s := by
  by_contra hnot
  have hle := count_newline_le hbreak next s
  rw [row_eq_zero.2 hnot] at hle
  exact absurd h (count_eq_zero.1 (le_zero.1 hle))

/-- **When the new position is right**, for a new text without `\n`. -/
theorem positionAfterEdit_eq_iff_of_notMem (h : '\n' ∉ newText)
    (hfront : range.front = cell (marks isBreak (removed ++ after).head? before)) :
    positionAfterEdit range newText = some (cell (marks isBreak after.head? (before ++ newText))) ↔
      Plain isBreak before removed newText after := by
  have hold := row_marks_add isBreak before (removed ++ after).head? (newText ++ after).head?
  rw [positionAfterEdit_of_notMem h, hfront, marks_append, ← head?_append]
  constructor
  · intro heq
    by_cases hnew : true ∈ marks isBreak after.head? newText
    · exfalso
      rw [cell_append_of_mem _ hnew, some_inj, Position.mk.injEq] at heq
      have hy : row (marks isBreak (removed ++ after).head? before) =
        row (marks isBreak (newText ++ after).head? before) +
          row (marks isBreak after.head? newText) := heq.1
      have hpos : row (marks isBreak after.head? newText) ≠ 0 := fun h0 => row_eq_zero.1 h0 hnew
      -- the line break before the range would have been lost
      obtain ⟨hv, hv'⟩ : breakAfter isBreak before (removed ++ after).head? = true ∧
          breakAfter isBreak before (newText ++ after).head? = false :=
        joined_of_toNat_lt (by omega)
      have hhead := eq_newline_of_joined hv hv'
      cases newText with
      | nil => cases hnew
      | cons c s =>
        obtain rfl : c = '\n' := some.inj hhead
        exact h mem_cons_self
    · rw [cell_append_of_notMem _ hnew, some_inj, Position.mk.injEq] at heq
      have hy : row (marks isBreak (removed ++ after).head? before) =
        row (marks isBreak (newText ++ after).head? before) := heq.1
      refine ⟨?_, ?_, fun hmem => absurd hmem h, ?_⟩
      · exact toNat_inj (by omega)
      · rw [row_eq_zero.2 hnew, count_eq_zero.2 h]
      · rw [beforeLast_eq_nil h]
        exact fun c hc => absurd hc not_mem_nil
  · intro hplain
    have hnew : true ∉ marks isBreak after.head? newText :=
      row_eq_zero.1 (hplain.breaks.trans (count_eq_zero.2 h))
    rw [cell_append_of_notMem _ hnew, marks_congr hplain.boundary, length_marks]
    rfl

section Range

variable (hbreak : isBreak '\n' = true)
  (hfront : range.front = cell (marks isBreak (removed ++ after).head? before))
  (hback : range.back = cell (marks isBreak after.head? (before ++ removed)))
include hbreak hfront hback

/-- **When the new position is right**, for a new text with a `\n`. -/
theorem positionAfterEdit_eq_iff_of_mem (h : '\n' ∈ newText) : positionAfterEdit range newText =
        some (cell (marks isBreak after.head? (before ++ newText))) ↔
      Plain isBreak before removed newText after ∨
        Compensated isBreak before removed newText after := by
  have hold := row_marks_add isBreak before (removed ++ after).head? (newText ++ after).head?
  have hdeleted : range.back.y - range.front.y = row (marks isBreak after.head? removed) := by
    rw [hback, hfront, marks_append, ← head?_append]
    show row (_ ++ _) - row _ = _
    rw [row_append]
    omega
  have hpos : 0 < newText.count '\n' := count_pos_iff.2 h
  have hle := count_newline_le hbreak after.head? newText
  have hfront' : range.front.y = row (marks isBreak (removed ++ after).head? before) := by
    rw [hfront]
    rfl
  rw [marks_append, ← head?_append, cell_append_of_mem _ (true_mem_marks hbreak h),
    positionAfterEdit_eq_some_of_mem h, hdeleted, hfront']
  constructor
  · rintro ⟨hplace, hrows⟩
    by_cases hsame : breakAfter isBreak before (newText ++ after).head? =
        breakAfter isBreak before (removed ++ after).head?
    · rw [hsame] at hold
      have hbreaks : row (marks isBreak after.head? newText) = newText.count '\n' := by omega
      have hcolumn := column_of_row_eq hbreak h hbreaks
      refine .inl ⟨hsame, hbreaks, fun _ => by omega, ?_⟩
      exact (bytes_eq_length_iff _).1 (by omega)
    · have hjoined : breakAfter isBreak before (removed ++ after).head? = true ∧
          breakAfter isBreak before (newText ++ after).head? = false := by
        have hne := mt toNat_inj hsame
        exact joined_of_toNat_lt (by omega)
      refine .inr ⟨h, hjoined, ?_, hplace⟩
      rw [hjoined.1, hjoined.2, toNat_true, toNat_false] at hold
      omega
  · rintro (hplain | hcomp)
    · have hcolumn := column_of_row_eq hbreak h hplain.breaks
      have hbytes := (bytes_eq_length_iff _).2 hplain.ascii
      have hzero := hplain.oneLine h
      have hbreaks := hplain.breaks
      rw [hplain.boundary] at hold
      exact ⟨by omega, by omega⟩
    · refine ⟨hcomp.place, ?_⟩
      rw [hcomp.joined.1, hcomp.joined.2, toNat_true, toNat_false] at hold
      have hcount := hcomp.count
      omega

/-- **When the new position is right.** -/
theorem positionAfterEdit_eq_iff : positionAfterEdit range newText =
        some (cell (marks isBreak after.head? (before ++ newText))) ↔
      Plain isBreak before removed newText after ∨
        Compensated isBreak before removed newText after := by
  by_cases h : '\n' ∈ newText
  · exact positionAfterEdit_eq_iff_of_mem hbreak hfront hback h
  · rw [positionAfterEdit_eq_iff_of_notMem h hfront]
    exact (or_iff_left fun hcomp => h hcomp.newline).symm

end Range

/-! ## The other cursors -/

/-- A line after the range moves by as many lines as its back. -/
theorem adjustY_cell (m m' : List Bool) (x n : Nat) :
    adjustY (cell m) (cell m') { y := row m + n, x := x } = some (row m' + n) := by
  have hy : (↑(row m + n) + ((row m' : Int) - row m)) = ((row m' + n : Nat) : Int) := by omega
  show (if 0 ≤ (↑(row m + n) + ((row m' : Int) - row m)) then
    some (↑(row m + n) + ((row m' : Int) - row m)).toNat else none) = _
  rw [hy, if_pos (Int.natCast_nonneg _), Int.toNat_natCast]

/-- **One end of a past cursor**: it follows the text it is at, once the
new position is right. -/
theorem adjust_cell (m m' n : List Bool) :
    adjust (cell m) (cell m') (cell (m ++ n)) = some (cell (m' ++ n)) := by
  by_cases hn : true ∈ n
  · rw [cell_append_of_mem m hn, cell_append_of_mem m' hn]
    have hpos : row n ≠ 0 := fun h0 => row_eq_zero.1 h0 hn
    have hx : adjustX (cell m) (cell m') { y := row m + row n, x := column n } =
        some (column n) := by
      refine if_neg fun hy => ?_
      have hy : row m + row n = row m := hy
      omega
    have hy : adjustY (cell m) (cell m') { y := row m + row n, x := column n } =
        some (row m' + row n) := adjustY_cell _ _ _ _
    rw [adjust, hx, hy]
    rfl
  · rw [cell_append_of_notMem m hn, cell_append_of_notMem m' hn]
    have hx : adjustX (cell m) (cell m') { y := row m, x := column m + n.length } =
        some (column m' + n.length) := by
      have hle : column m ≤ column m + n.length := le_add_right _ _
      show (if row m = row m then if column m ≤ column m + n.length then
        some (column m' + (column m + n.length - column m)) else none else _) = _
      rw [if_pos rfl, if_pos hle, Nat.add_sub_cancel_left]
    have hy : adjustY (cell m) (cell m') { y := row m, x := column m + n.length } =
        some (row m') := adjustY_cell _ _ _ 0
    rw [adjust, hx, hy]
    rfl

theorem adjustCursor_cell (m m' n₁ n₂ : List Bool) : adjustCursor (cell m) (cell m')
        ⟨{ start := cell (m ++ n₁), stop := cell (m ++ n₂) }⟩ =
      some ⟨{ start := cell (m' ++ n₁), stop := cell (m' ++ n₂) }⟩ := by
  rw [adjustCursor, adjust_cell, adjust_cell]
  rfl

/-! ## The whole edit -/

theorem posToByteIndex_isSome {r : RawBuffer R} {pos : Position} (h : r.posToCharIndex pos = some i)
    (hle : i ≤ r.text.length) : ∃ n, r.posToByteIndex pos = some n := by
  rw [RawBuffer.posToByteIndex, h]
  exact ⟨_, R.charToByte_eq _ _ hle⟩

/-- An edit succeeds where its new position can be computed. -/
theorem edit_eq_some {pos : Position} (htext : b.raw.text = before ++ (removed ++ after))
    (hfront : b.raw.posToCharIndex range.front = some before.length)
    (hback : b.raw.posToCharIndex range.back = some (before.length + removed.length))
    (hpos : positionAfterEdit range newText = some pos) :
    ∃ change b', b.edit range newText = some (change, b') ∧ change.newPos = pos ∧
      b'.raw.text = before ++ (newText ++ after) := by
  have hlen := congrArg length htext
  simp only [length_append] at hlen
  obtain ⟨n, hn⟩ := posToByteIndex_isSome hfront (by omega)
  obtain ⟨n', hn'⟩ := posToByteIndex_isSome hback (by omega)
  let change : Change :=
    { range := range, byteRange := (n, n'), newPos := pos, insertText := newText }
  obtain ⟨b', hb', htext'⟩ : ∃ b', ({ b with changes := b.changes ++ [change] } :
      MutRawBuffer R).editWithoutRecording range newText = some b' ∧
        b'.raw.text = before ++ (newText ++ after) :=
    editWithoutRecording_eq htext hfront hback
  refine ⟨change, b', ?_, rfl, htext'⟩
  rw [edit, hpos, hn, hn']
  show (editWithoutRecording _ range newText).bind _ = _
  rw [hb']
  rfl

theorem newPos_of_edit {change : Change} {b' : MutRawBuffer R}
    (h : b.edit range newText = some (change, b')) :
    positionAfterEdit range newText = some change.newPos := by
  obtain ⟨pos, hpos, h⟩ := bind_eq_some_iff.1 h
  obtain ⟨n, -, h⟩ := bind_eq_some_iff.1 h
  obtain ⟨n', -, h⟩ := bind_eq_some_iff.1 h
  obtain ⟨b₁, -, h⟩ := bind_eq_some_iff.1 h
  cases h
  exact hpos

/-- The position of a place after the range. -/
theorem position_later (isBreak : Char → Bool) (s t u : Text) :
    position isBreak (s ++ (t ++ u)) (s.length + t.length) =
      cell (marks isBreak (t ++ u).head? s ++ marks isBreak u.head? t) := by
  rw [← append_assoc, ← length_append, position_append, marks_append, ← head?_append]

/-- A past cursor, before and after the edit. -/
theorem adjustCursor_cursorAt (s s' t : Text) {j : Nat} (hi : i ≤ t.length) (hj : j ≤ t.length) :
    adjustCursor (cell (marks isBreak t.head? s)) (cell (marks isBreak t.head? s'))
        (cursorAt isBreak (s ++ t) (s.length + i) (s.length + j)) =
      some (cursorAt isBreak (s' ++ t) (s'.length + i) (s'.length + j)) := by
  have hplace : ∀ (s : Text) {i : Nat}, i ≤ t.length → position isBreak (s ++ t) (s.length + i) =
        cell (marks isBreak t.head? s ++ marks isBreak (t.drop i).head? (t.take i)) := by
    intro s i hi
    have h := position_later isBreak s (t.take i) (t.drop i)
    rwa [take_append_drop, length_take_of_le hi] at h
  rw [cursorAt, cursorAt, hplace s hi, hplace s hj, hplace s' hi, hplace s' hj]
  exact adjustCursor_cell _ _ _ _

/-- The front and the back of the selection between two places. -/
theorem front_back_cursorAt (isBreak : Char → Bool) (s t u : Text) {j : Nat}
    (hmin : min i j = s.length) (hmax : max i j = s.length + t.length) :
    (cursorAt isBreak (s ++ (t ++ u)) i j).selection.front = cell (marks isBreak (t ++ u).head? s) ∧
      (cursorAt isBreak (s ++ (t ++ u)) i j).selection.back =
        cell (marks isBreak u.head? (s ++ t)) := by
  have hs : position isBreak (s ++ (t ++ u)) s.length = cell (marks isBreak (t ++ u).head? s) :=
    position_append _ _
  have ht : position isBreak (s ++ (t ++ u)) (s.length + t.length) =
      cell (marks isBreak u.head? (s ++ t)) := by
    rw [position_later, marks_append, ← head?_append]
  have hbefore := before_cell_append (marks isBreak (t ++ u).head? s) (marks isBreak u.head? t)
  rw [head?_append, ← marks_append] at hbefore
  obtain ⟨h₁, h₂, h₃, h₄⟩ := front_back_of_before hbefore
  rw [← head?_append] at h₁ h₂ h₃ h₄
  rcases Nat.le_total i j with hle | hle
  · rw [Nat.min_eq_left hle] at hmin
    rw [Nat.max_eq_right hle] at hmax
    rw [cursorAt, hmin, hmax, hs, ht]
    exact ⟨h₁, h₂⟩
  · rw [Nat.min_eq_right hle] at hmin
    rw [Nat.max_eq_left hle] at hmax
    rw [cursorAt, hmin, hmax, hs, ht]
    exact ⟨h₃, h₄⟩

/-- Cursors whose ends are counted from a place. -/
def cursorsFrom (isBreak : Char → Bool) (s : Text) (n : Nat) (past : List (Nat × Nat)) :
    List Cursor :=
  past.map fun p => cursorAt isBreak s (n + p.1) (n + p.2)

/-- The whole edit, with the text given by its parts and the ends of the
past cursors counted from the back of the range. -/
theorem editAtCursor_iff (newText : Text) (past : List (Nat × Nat))
    (htext : b.raw.text = before ++ (removed ++ after)) (hlen : b.raw.text.length < usizeMax)
    {j : Nat} (hmin : min i j = before.length) (hmax : max i j = before.length + removed.length)
    (hpast : ∀ p ∈ past, p.1 ≤ after.length ∧ p.2 ≤ after.length) :
    (∃ b', b.editAtCursor (cursorAt R.isBreak b.raw.text i j)
        (cursorsFrom R.isBreak b.raw.text (before ++ removed).length past) newText =
          some (b', cursorAt R.isBreak (before ++ (newText ++ after))
              (before ++ newText).length (before ++ newText).length,
            cursorsFrom R.isBreak (before ++ (newText ++ after)) (before ++ newText).length past) ∧
        b'.raw.text = before ++ (newText ++ after)) ↔ Plain R.isBreak before removed newText after ∨
        Compensated R.isBreak before removed newText after := by
  obtain ⟨hfront, hback⟩ := front_back_cursorAt R.isBreak before removed after hmin hmax
  rw [← htext] at hfront hback
  have hsum := congrArg length htext
  simp only [length_append] at hsum
  have hfront' : b.raw.posToCharIndex (cursorAt R.isBreak b.raw.text i j).selection.front =
      some before.length := by
    rw [hfront]
    exact posToCharIndex_cell htext (by omega)
  have hback' : b.raw.posToCharIndex (cursorAt R.isBreak b.raw.text i j).selection.back =
      some (before.length + removed.length) := by
    rw [hback, ← length_append]
    exact posToCharIndex_cell (by rw [htext, append_assoc]) (by rw [length_append]; omega)
  have hnew : position R.isBreak (before ++ (newText ++ after)) (before ++ newText).length =
      cell (marks R.isBreak after.head? (before ++ newText)) := by
    rw [← append_assoc, position_append]
  rw [← positionAfterEdit_eq_iff R.isBreak_newline hfront hback]
  constructor
  · rintro ⟨b', hedit, -⟩
    obtain ⟨⟨change, b₁⟩, hchange, hedit⟩ := bind_eq_some_iff.1 hedit
    obtain ⟨past', -, hedit⟩ := bind_eq_some_iff.1 hedit
    have hcursor := congrArg (fun r => r.2.1.selection.start) (Option.some.inj hedit)
    have hcursor : change.newPos = _ := hcursor.trans hnew
    rw [newPos_of_edit hchange, hcursor]
  · intro hpos
    obtain ⟨change, b', hchange, hnewPos, htext'⟩ := edit_eq_some htext hfront' hback' hpos
    have hmoved : (cursorsFrom R.isBreak b.raw.text (before ++ removed).length past).mapM
          (adjustCursor (cell (marks R.isBreak after.head? (before ++ removed)))
            (cell (marks R.isBreak after.head? (before ++ newText)))) =
        some (cursorsFrom R.isBreak (before ++ (newText ++ after)) (before ++ newText).length
          past) := by
      refine Traverse.mapM_map_eq_some fun p hp => ?_
      rw [htext, ← append_assoc, ← append_assoc]
      exact adjustCursor_cursorAt _ _ _ (hpast p hp).1 (hpast p hp).2
    refine ⟨b', ?_, htext'⟩
    simp only [editAtCursor, hchange, hback, hnewPos, hmoved, bind_eq_bind,
      bind_some, Option.pure_def]
    rw [cursorAt, hnew]

/-- **When an edit at a cursor is right**, for every text, range, new
text and past cursors after the range. -/
theorem editsCorrectly_iff (b : MutRawBuffer R) (i j : Nat) (past : List (Nat × Nat))
    (newText : Text) (hi : i ≤ b.raw.text.length) (hj : j ≤ b.raw.text.length)
    (hlen : b.raw.text.length < usizeMax)
    (hpast : ∀ p ∈ past, (max i j ≤ p.1 ∧ p.1 ≤ b.raw.text.length) ∧
      max i j ≤ p.2 ∧ p.2 ≤ b.raw.text.length) : EditsCorrectly b i j past newText ↔
      Plain R.isBreak (b.raw.text.take (min i j)) ((b.raw.text.take (max i j)).drop (min i j))
          newText (b.raw.text.drop (max i j)) ∨ Compensated R.isBreak (b.raw.text.take (min i j))
          ((b.raw.text.take (max i j)).drop (min i j)) newText (b.raw.text.drop (max i j)) := by
  have hle : min i j ≤ max i j := Nat.le_trans (Nat.min_le_left i j) (Nat.le_max_left i j)
  have hmax : max i j ≤ b.raw.text.length := Nat.max_le.2 ⟨hi, hj⟩
  have hbefore : (b.raw.text.take (min i j)).length = min i j :=
    length_take_of_le (Nat.le_trans hle hmax)
  have hparts : b.raw.text.take (min i j) ++ (b.raw.text.take (max i j)).drop (min i j) =
      b.raw.text.take (max i j) := by
    have htake : b.raw.text.take (min i j) = (b.raw.text.take (max i j)).take (min i j) := by
      rw [take_take, Nat.min_eq_left hle]
    rw [htake, take_append_drop]
  have htext : b.raw.text = b.raw.text.take (min i j) ++
      ((b.raw.text.take (max i j)).drop (min i j) ++ b.raw.text.drop (max i j)) := by
    rw [← append_assoc, hparts, take_append_drop]
  have hback := congrArg List.length hparts
  rw [length_take_of_le hmax] at hback
  have hafter : (b.raw.text.drop (max i j)).length = b.raw.text.length - max i j := length_drop
  simp only [EditsCorrectly]
  generalize (b.raw.text.take (max i j)).drop (min i j) = removed at hback htext ⊢
  generalize b.raw.text.take (min i j) = before at hbefore hback htext ⊢
  generalize b.raw.text.drop (max i j) = after at hafter htext ⊢
  have hshift : ∀ p ∈ past.map fun p => (p.1 - max i j, p.2 - max i j),
      p.1 ≤ after.length ∧ p.2 ≤ after.length := by
    intro p hp
    obtain ⟨q, hq, rfl⟩ := mem_map.1 hp
    obtain ⟨⟨-, h₁⟩, -, h₂⟩ := hpast q hq
    rw [hafter]
    exact ⟨Nat.sub_le_sub_right h₁ _, Nat.sub_le_sub_right h₂ _⟩
  have hold : past.map (fun p => cursorAt R.isBreak b.raw.text p.1 p.2) =
      cursorsFrom R.isBreak b.raw.text (before ++ removed).length
        (past.map fun p => (p.1 - max i j, p.2 - max i j)) := by
    rw [cursorsFrom, List.map_map, hback]
    refine map_congr_left fun p hp => ?_
    obtain ⟨⟨h₁, -⟩, h₂, -⟩ := hpast p hp
    show _ = cursorAt R.isBreak b.raw.text (max i j + (p.1 - max i j)) (max i j + (p.2 - max i j))
    rw [Nat.add_sub_cancel' h₁, Nat.add_sub_cancel' h₂]
  have hnew : (before ++ newText).length = min i j + newText.length := by
    rw [length_append, hbefore]
  have hiff := editAtCursor_iff newText (past.map fun p => (p.1 - max i j, p.2 - max i j)) htext
    hlen hbefore.symm (by rw [← length_append, hback]) hshift
  rw [← hold, cursorsFrom, List.map_map, hnew, ← append_assoc] at hiff
  rw [← hiff]
  simp only [Function.comp_def, Nat.add_comm (min i j + newText.length)]

/-! ## A rope of characters -/

/-- The number of characters before a line of a text, or of all of them
after the last line. -/
def lineStart (isBreak : Char → Bool) (s : Text) (y : Nat) : Nat :=
  if y ≤ row (marks isBreak none s) then rowStart (marks isBreak none s) y else s.length

/-- A rope that is a list of characters and has the line break `\n` only. -/
def listRopey : Ropey where
  Rope := Text
  text s := s
  isBreak c := c == '\n'
  lenLines s := row (marks (· == '\n') none s) + 1
  lineToChar s y := some (lineStart (· == '\n') s y)
  charToByte s i := if i ≤ s.length then some (bytes (s.take i)) else none
  lineLenChars s y := some (lineStart (· == '\n') s (y + 1) - lineStart (· == '\n') s y)
  lastChunk s y := (s.take (lineStart (· == '\n') s (y + 1))).drop (lineStart (· == '\n') s y)
  remove s i j := if i ≤ j ∧ j ≤ s.length then some (s.take i ++ s.drop j) else none
  insert s i t := if i ≤ s.length then some (s.take i ++ t ++ s.drop i) else none
  isBreak_newline := rfl
  lenLines_eq _ := rfl
  lineToChar_eq s y hy := by rw [lineStart, if_pos hy]
  charToByte_eq s i hi := if_pos hi
  text_remove s i j hij hj := by rw [if_pos ⟨hij, hj⟩]; rfl
  text_insert s i t hi := by rw [if_pos hi]; rfl

/-- The buffer of a list of characters, before any edit. -/
def listBuffer (s : Text) : MutRawBuffer listRopey where
  raw := { rope := s }
  changes := []

/-- A line is split before a cursor on it: `xy\n` replaces the `b` of
`a\nbcd`, and the cursor around `d` follows to the next line. -/
theorem editsCorrectly_split_line :
    EditsCorrectly (listBuffer ['a', '\n', 'b', 'c', 'd']) 2 3 [(4, 5)] ['x', 'y', '\n'] := by
  refine (editsCorrectly_iff (listBuffer ['a', '\n', 'b', 'c', 'd']) 2 3 [(4, 5)]
    ['x', 'y', '\n'] (by decide) (by decide) (by decide) (by decide)).2 (.inl ?_)
  refine ⟨by decide, by decide, by decide, ?_⟩
  exact forall_mem_cons.2 ⟨by decide, forall_mem_singleton.2 (by decide)⟩

/-- **A line break replaced by another one.** `x\n` replaces the first
line of `a\nb`. The cursor should be at the start of the second line; it
is put at the start of the first, since one line break was deleted and
one added. In an empty text, the edit with a character of two bytes
before the line break goes below zero. -/
theorem not_editsCorrectly_of_newlines :
    ¬ EditsCorrectly (listBuffer ['a', '\n', 'b']) 0 2 [] ['x', '\n'] ∧
      ((listBuffer ['a', '\n', 'b']).editAtCursor
        (cursorAt listRopey.isBreak ['a', '\n', 'b'] 0 2) [] ['x', '\n']).map
          (fun r => (r.1.raw.text, r.2.1)) = some (['x', '\n', 'b'], ⟨⟨0, 0⟩, ⟨0, 0⟩⟩) ∧
      cursorAt listRopey.isBreak ['x', '\n', 'b'] 2 2 = ⟨⟨1, 0⟩, ⟨1, 0⟩⟩ ∧
      ((listBuffer []).editAtCursor (cursorAt listRopey.isBreak [] 0 0) [] ['é', '\n']).isNone := by
  have hedit : ((listBuffer ['a', '\n', 'b']).editAtCursor
      (cursorAt listRopey.isBreak ['a', '\n', 'b'] 0 2) [] ['x', '\n']).map
        (fun r => (r.1.raw.text, r.2.1)) =
      some (['x', '\n', 'b'], ⟨⟨0, 0⟩, ⟨0, 0⟩⟩) := by decide
  refine ⟨?_, hedit, by decide, by decide⟩
  rintro ⟨b', h, -⟩
  have hcursor : some _ = some _ := hedit.symm.trans (congrArg _ h)
  have hcursor := (congrArg Prod.snd (some.inj hcursor)).trans
    (show _ = cursorAt listRopey.isBreak ['x', '\n', 'b'] 2 2 from rfl)
  exact absurd hcursor (by decide)

end Archives.Noa
