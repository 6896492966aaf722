import Archives.Noa.EditAtCursor
/-!
# Noa — ranges put into the buffer

`clamp_range` takes the line of a range's end from its start, so what it
returns is on one line: a range inside the buffer is kept if it is on one
line, and `add_cursor` panics on every other one.
-/

namespace Archives.Noa

open List

/-- What `ropey` promises of its lines: one that exists has a length, and
its last chunk is a part of it. -/
structure LinedRopey extends Ropey where
  line_of_lt : ∀ r y, y < lenLines r →
    ∃ len, lineLenChars r y = some len ∧ (lastChunk r y).length ≤ len

namespace RawBuffer

def Valid {R : Ropey} (b : RawBuffer R) (p : Position) : Prop :=
  p.y < b.numLines ∧ ∃ len, b.lineLen p.y = some len ∧ p.x ≤ len

/-- **The range is clamped as it should be.** It is kept, also by
`add_cursor`, if both ends are in the buffer, it is put into the buffer in
any case, and then it stays. -/
structure ClampsRightly {R : Ropey} (b : RawBuffer R) (range : Range) : Prop where
  keeps : b.Valid range.start → b.Valid range.stop →
    b.clampRange range = some range ∧ b.addCursor range = some range
  inside : ∃ r, b.clampRange range = some r ∧ b.Valid r.start ∧ b.Valid r.stop ∧
    b.clampRange r = some r

variable {R : LinedRopey} (b : RawBuffer R.toRopey)

theorem exists_lineLen {y : Nat} (hy : y < b.numLines) : ∃ len, b.lineLen y = some len := by
  obtain ⟨len, hlen, hchunk⟩ := R.line_of_lt b.rope y hy
  rw [lineLen, if_neg (Nat.ne_of_lt hy), hlen]
  exact ⟨_, if_pos (Nat.le_trans countP_le_length hchunk)⟩

/-- **What is returned**: the part of one line of the buffer. -/
theorem exists_clampRange (range : Range) : ∃ y len, y = min range.start.y (b.numLines - 1) ∧
    y < b.numLines ∧ b.lineLen y = some len ∧
    b.clampRange range = some ⟨⟨y, min range.start.x len⟩, ⟨y, min range.stop.x len⟩⟩ := by
  have hlines : b.numLines = _ + 1 := R.lenLines_eq b.rope
  have hlt : min range.start.y (b.numLines - 1) < b.numLines := by omega
  obtain ⟨len, hlen⟩ := b.exists_lineLen hlt
  refine ⟨_, len, rfl, hlt, hlen, ?_⟩
  have hsame : min (min range.start.y (b.numLines - 1)) (b.numLines - 1) =
      min range.start.y (b.numLines - 1) := by omega
  simp only [clampRange, hsame, hlen]
  rfl

/-- **A range is clamped as it should be if and only if it is on one line
or has an end outside of the buffer.** -/
theorem clampsRightly_iff (range : Range) : b.ClampsRightly range ↔
    (b.Valid range.start → b.Valid range.stop → range.stop.y = range.start.y) := by
  obtain ⟨y, len, hy, hlt, hlen, hclamp⟩ := b.exists_clampRange range
  constructor
  · intro h hstart hstop
    have hkept := (h.keeps hstart hstop).1
    rw [hclamp, Option.some.injEq] at hkept
    rw [← hkept]
  · intro hline
    constructor
    · rintro ⟨hsy, n, hn, hsx⟩ ⟨hey, m, hm, hex⟩
      have hstop := hline ⟨hsy, n, hn, hsx⟩ ⟨hey, m, hm, hex⟩
      have hstart : y = range.start.y := by omega
      rw [hstop, ← hstart, hlen] at hm
      rw [← hstart, hlen] at hn
      cases hn
      cases hm
      have hkept : b.clampRange range = some range := by
        rw [hclamp, Nat.min_eq_left hsx, Nat.min_eq_left hex, hstart]
        exact congrArg (fun e => some (⟨range.start, ⟨e, _⟩⟩ : Range)) hstop.symm
      exact ⟨hkept, by rw [addCursor, hkept]; exact if_pos rfl⟩
    · refine ⟨_, hclamp, ⟨hlt, len, hlen, Nat.min_le_right ..⟩,
        ⟨hlt, len, hlen, Nat.min_le_right ..⟩, ?_⟩
      obtain ⟨y', len', (hy' : y' = min y _), -, hlen', hagain⟩ := b.exists_clampRange
        ⟨⟨y, min range.start.x len⟩, ⟨y, min range.stop.x len⟩⟩
      obtain rfl : y' = y := by omega
      cases hlen.symm.trans hlen'
      rw [hagain, Nat.min_assoc, Nat.min_assoc, Nat.min_self]

end RawBuffer

/-- The rope that is a list of characters, with its lines. -/
def linedListRopey : LinedRopey where
  toRopey := listRopey
  line_of_lt s y _ := by
    refine ⟨_, rfl, ?_⟩
    show (drop _ _).length ≤ _
    rw [length_drop]
    exact Nat.sub_le_sub_right (length_take_le ..) _

/-- All of `a\nb` is selected: what is returned is the `a` alone, and
`add_cursor` panics. -/
theorem not_clampsRightly_of_two_lines :
    let b : RawBuffer linedListRopey.toRopey := ⟨['a', '\n', 'b']⟩
    let range : Range := ⟨⟨0, 0⟩, ⟨1, 1⟩⟩
    ¬ b.ClampsRightly range ∧ b.Valid range.start ∧ b.Valid range.stop ∧
      b.clampRange range = some ⟨⟨0, 0⟩, ⟨0, 1⟩⟩ ∧ b.addCursor range = none := by
  intro b range
  have hstart : b.Valid range.start := ⟨by decide, 1, by decide, by decide⟩
  have hstop : b.Valid range.stop := ⟨by decide, 1, by decide, by decide⟩
  refine ⟨fun h => ?_, hstart, hstop, by decide, by decide⟩
  exact absurd (h.keeps hstart hstop).1 (by decide)

end Archives.Noa
