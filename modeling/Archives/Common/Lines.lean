import Mathlib.Data.List.Induction
/-!
# Cutting a stream into lines

A line ends with the two symbols `x y`. A stream is cut as it arrives,
one symbol at a time: what is kept between two symbols is the lines that
are complete and the line that is not. So cutting a stream in pieces is
cutting it at once (`cut_append`), whatever the pieces are, also where a
piece ends between the two symbols of a terminator.
-/

namespace Archives.Lines

open List

variable {α : Type} [DecidableEq α] {x y c : α}

/-- The complete lines, and the rest of the stream so far. -/
abbrev Cut (α : Type) : Type := List (List α) × List α

/-- One more symbol. -/
def push (x y : α) (s : Cut α) (c : α) : Cut α :=
  if c = y ∧ s.2.getLast? = some x then (s.1 ++ [s.2 ++ [c]], []) else (s.1, s.2 ++ [c])

/-- **Cutting a stream into lines.** -/
def cut (x y : α) (s : List α) : Cut α := s.foldl (push x y) ([], [])

/-- `s.2` is an incomplete line: it has no terminator in it. -/
def Open (x y : α) (s : List α) : Prop := cut x y s = ([], s)

theorem push_lines (ls : List (List α)) (left : List α) (c : α) :
    push x y (ls, left) c = (ls ++ (push x y ([], left) c).1, (push x y ([], left) c).2) := by
  unfold push
  split <;> simp

/-- The complete lines do not matter for what follows. -/
theorem foldl_push (ls : List (List α)) (left b : List α) : b.foldl (push x y) (ls, left) =
      (ls ++ (b.foldl (push x y) ([], left)).1, (b.foldl (push x y) ([], left)).2) := by
  induction b generalizing ls left with
  | nil => simp
  | cons c b ih =>
    simp only [foldl_cons]
    rw [push_lines ls left c, ih, ih (push x y ([], left) c).1]
    simp

theorem cut_concat (s : List α) (c : α) : cut x y (s ++ [c]) = push x y (cut x y s) c := by
  simp [cut]

/-- What is left over is an incomplete line. -/
theorem open_cut (x y : α) (s : List α) : Open x y (cut x y s).2 := by
  induction s using reverseRecOn with
  | nil => rfl
  | append_singleton s c ih =>
    rw [cut_concat]
    unfold push
    split
    · rfl
    next h =>
      unfold Open at ih ⊢
      rw [cut_concat, ih, push, if_neg h]

/-- **In pieces or at once.** -/
theorem cut_append (a b : List α) : cut x y (a ++ b) =
    ((cut x y a).1 ++ (cut x y ((cut x y a).2 ++ b)).1, (cut x y ((cut x y a).2 ++ b)).2) := by
  have hopen : (cut x y a).2.foldl (push x y) ([], []) = ([], (cut x y a).2) := open_cut x y a
  have hleft : cut x y ((cut x y a).2 ++ b) = b.foldl (push x y) ([], (cut x y a).2) := by
    rw [cut, foldl_append, hopen]
  rw [hleft, ← foldl_push, cut, foldl_append]
  rfl

/-- Nothing is lost. -/
theorem flatten_cut (s : List α) : (cut x y s).1.flatten ++ (cut x y s).2 = s := by
  induction s using reverseRecOn with
  | nil => rfl
  | append_singleton s c ih =>
    rw [cut_concat]
    unfold push
    split
    · simp [← append_assoc, ih]
    · simp [← append_assoc, ih]

/-- The first of the complete lines are a stream of their own. -/
theorem cut_flatten {s : List α} {ls : List (List α)} (h : ls <+: (cut x y s).1) :
    cut x y ls.flatten = (ls, []) := by
  induction s using reverseRecOn with
  | nil =>
    rw [prefix_nil.1 h]
    rfl
  | append_singleton s c ih =>
    have hcut := cut_concat (x := x) (y := y) s c
    have hflat := flatten_cut (x := x) (y := y) (s ++ [c])
    rw [hcut] at h hflat
    unfold push at h hcut hflat
    split at h
    next hc =>
      rw [if_pos hc] at hcut hflat
      rcases prefix_concat_iff.1 h with rfl | h
      · rw [append_nil] at hflat
        rw [hflat, hcut]
      · exact ih h
    next => exact ih h

/-- Every complete line ends with the terminator. -/
theorem suffix_of_mem_cut {s line : List α} (h : line ∈ (cut x y s).1) : [x, y] <:+ line := by
  induction s using reverseRecOn with
  | nil => simp [cut] at h
  | append_singleton s c ih =>
    rw [cut_concat] at h
    unfold push at h
    split at h
    next hc =>
      rcases mem_append.1 h with h | h
      · exact ih h
      · rw [mem_singleton.1 h]
        obtain ⟨hcy, hlast⟩ := hc
        obtain ⟨ys, hys⟩ := getLast?_eq_some_iff.1 hlast
        exact ⟨ys, by rw [hys, hcy]; simp⟩
    next => exact ih h

/-- An incomplete line does not end with the terminator. -/
theorem not_suffix_left (hxy : x ≠ y) (s : List α) : ¬ [x, y] <:+ (cut x y s).2 := by
  intro h
  obtain ⟨pre, hpre⟩ := h
  have hopen := open_cut x y s
  rw [← hpre] at hopen
  have hcut : cut x y (pre ++ [x, y]) = push x y (push x y (cut x y pre) x) y := by simp [cut]
  have hx : push x y (cut x y pre) x = ((cut x y pre).1, (cut x y pre).2 ++ [x]) := by
    simp [push, hxy]
  unfold Open at hopen
  rw [hcut, hx] at hopen
  simp [push] at hopen

/-- The last symbol of the stream, if it is the first of a terminator,
is the last symbol of what is left over. -/
theorem getLast?_left (hxy : x ≠ y) (s : List α) :
    (cut x y s).2.getLast? = some x ↔ s.getLast? = some x := by
  constructor
  · intro h
    rw [← flatten_cut (x := x) (y := y) s, getLast?_append, h]
    rfl
  · intro h
    obtain ⟨t, rfl⟩ := getLast?_eq_some_iff.1 h
    rw [cut_concat, push, if_neg (by simp [hxy])]
    simp

/-- **Nothing is left over exactly after a terminator**, and at the
start. -/
theorem left_eq_nil_iff (hxy : x ≠ y) (s : List α) :
    (cut x y s).2 = [] ↔ s = [] ∨ [x, y] <:+ s := by
  induction s using reverseRecOn with
  | nil => simp [cut]
  | append_singleton s c _ =>
    have hsuffix : [x, y] <:+ s ++ [c] ↔ c = y ∧ s.getLast? = some x := by
      constructor
      · rintro ⟨pre, hpre⟩
        have hpre' : pre ++ [x] ++ [y] = s ++ [c] := by simpa using hpre
        obtain ⟨rfl, hc⟩ := append_inj' hpre' rfl
        exact ⟨(singleton_inj.1 hc).symm, by simp⟩
      · rintro ⟨rfl, hs⟩
        obtain ⟨t, rfl⟩ := getLast?_eq_some_iff.1 hs
        exact ⟨t, by simp⟩
    rw [cut_concat, push, hsuffix, ← getLast?_left hxy s]
    split
    next h => simp [h]
    next h => simp [h]

end Archives.Lines
