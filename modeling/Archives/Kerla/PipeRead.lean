import Mathlib.Tactic.ByContra
import Archives.Kerla.Model.Pipe
/-!
# Kerla — when reading from a pipe returns

The reader of a pipe takes slices until the ring buffer is empty, not
until its own buffer is full. Each slice lowers the number of bytes held
by its length, or raises it where it is longer than what is held
(`count_le_popped`). So a read that returns has taken as much as the
pipe held, and one that asks for less does not return.
-/

namespace Archives.Kerla

open RingBuffer List Nat UserBufWriter

namespace RingBuffer

variable {T : Type} {CAP : Nat} {rb : RingBuffer T CAP} {len : Nat}

/-- A position moved by a buffer's length at most wraps once. -/
theorem mod_eq_ite {p k c : Nat} (hp : p < c) (hk : k ≤ c) :
    (p + k) % c = if p + k < c then p + k else p + k - c := by
  by_cases h : p + k < c
  · rw [if_pos h, mod_eq_of_lt h]
  · rw [if_neg h, mod_eq_sub_mod (by omega), mod_eq_of_lt (by omega)]

theorem count_pos_iff : 0 < rb.count ↔ rb.isReadable = true := by
  have hrp := rb.rp_lt
  simp only [count, isReadable, Bool.or_eq_true, decide_eq_true_eq]
  split
  · simp_all; omega
  · split
    · simp_all; omega
    · simp_all; omega

/-- The length of a slice. -/
def taken (rb : RingBuffer T CAP) (len : Nat) : Nat :=
  if rb.rp < rb.wp then min len (rb.wp - rb.rp) else min len (CAP - rb.wp)

theorem popRange_length : (rb.popRange len).stop - (rb.popRange len).start = rb.taken len := by
  simp only [popRange, taken]
  split
  · simp only; omega
  · simp only; omega

theorem taken_le : rb.taken len ≤ len := by
  simp only [taken]
  split <;> omega

theorem taken_le_cap : rb.taken len ≤ CAP := by
  have hwp := rb.wp_lt
  simp only [taken]
  split <;> omega

@[simp] theorem length_slice_popRange : (rb.slice (rb.popRange len)).length = rb.taken len := by
  rw [slice, length_map, length_range', popRange_length]

theorem rp_popped : (rb.popped len).rp =
    if rb.rp + rb.taken len < CAP then rb.rp + rb.taken len else rb.rp + rb.taken len - CAP := by
  rw [← mod_eq_ite rb.rp_lt taken_le_cap, ← popRange_length]
  rfl

/-- What a buffer holds after a slice was taken. -/
theorem count_popped : (rb.popped len).count =
    if (rb.popped len).rp ≤ rb.wp then rb.wp - (rb.popped len).rp
    else CAP - (rb.popped len).rp + rb.wp := by
  rfl

/-- **A slice lowers the count by its length at most.** Only an empty
slice of a full buffer, which clears the flag and moves nothing, does
more. -/
theorem count_le_popped (h : ¬ (rb.full = true ∧ len = 0)) :
    rb.count ≤ (rb.popped len).count + rb.taken len := by
  have hrp := rb.rp_lt
  rw [count_popped, rp_popped]
  by_cases hfull : rb.full = true
  · have heq := rb.rp_eq_wp hfull
    have hlen : len ≠ 0 := fun h0 => h ⟨hfull, h0⟩
    have hpos : 0 < rb.taken len := by
      simp only [taken]
      split <;> omega
    rw [count, if_pos hfull]
    split <;> split <;> omega
  · rw [count, if_neg hfull]
    split <;> split <;> split <;> omega

/-- A slice of all that a buffer holds empties it. -/
theorem count_popped_of_taken_eq (h : rb.taken len = rb.count) : (rb.popped len).count = 0 := by
  have hrp := rb.rp_lt
  have hwp := rb.wp_lt
  have hcount := h
  rw [count] at hcount
  rw [count_popped, rp_popped]
  by_cases hfull : rb.full = true
  · have heq := rb.rp_eq_wp hfull
    rw [if_pos hfull] at hcount
    split <;> split <;> omega
  · rw [if_neg hfull] at hcount
    split at hcount <;> split <;> split <;> omega

/-- An empty slice of a full buffer loses all it holds. -/
theorem count_popped_of_full (hfull : rb.full = true) (hlen : rb.taken len = 0) :
    (rb.popped len).count = 0 := by
  have hrp := rb.rp_lt
  have heq := rb.rp_eq_wp hfull
  rw [count_popped, rp_popped, hlen]
  split <;> split <;> omega

end RingBuffer

namespace Pipe

variable {CAP : Nat} {rb rb' : RingBuffer UInt8 CAP} {w w' : UserBufWriter} {fuel : Nat}

/-! ## The loop -/

theorem drain_of_count_eq_zero (h : rb.count = 0) : drain (fuel + 1) rb w = .ok (rb, w) := by
  have hread : rb.isReadable = false := by
    rw [← Bool.not_eq_true, ← count_pos_iff]
    omega
  rw [drain, popSlice, if_pos hread]

theorem drain_of_count_pos (h : 0 < rb.count) : drain (fuel + 1) rb w =
    drain fuel (rb.popped w.remainingLen) (w.writeBytes (rb.slice (rb.popRange w.remainingLen))) := by
  rw [drain, popSlice, if_neg (by simp [count_pos_iff.mp h])]

/-- What a slice adds to the user's buffer: all of it, for it is no
longer than the room there is. -/
theorem writtenLen_slice : (w.writeBytes (rb.slice (rb.popRange w.remainingLen))).writtenLen =
    w.writtenLen + rb.taken w.remainingLen := by
  rw [writtenLen_writeBytes (by simp [taken_le]), length_slice_popRange]

theorem remainingLen_slice : (w.writeBytes (rb.slice (rb.popRange w.remainingLen))).remainingLen =
    w.remainingLen - rb.taken w.remainingLen := by
  rw [remainingLen_writeBytes (by simp [taken_le]), length_slice_popRange]

/-- **What the loop is left with**: it takes no bytes back, stays within
the user's buffer, and has taken all that was held. Only a full pipe that
is asked for nothing is left with less. -/
theorem writtenLen_of_drain (h : drain fuel rb w = .ok (rb', w')) :
    w.writtenLen ≤ w'.writtenLen ∧ w'.writtenLen ≤ w.bufferLen ∧
      (¬ (rb.full = true ∧ w.remainingLen = 0) → w.writtenLen + rb.count ≤ w'.writtenLen) := by
  induction fuel generalizing rb w with
  | zero => cases h
  | succ fuel ih =>
    rcases Nat.eq_zero_or_pos rb.count with hzero | hpos
    · rw [drain_of_count_eq_zero hzero] at h
      cases h
      exact ⟨Nat.le_refl _, w'.fits, fun _ => by omega⟩
    · rw [drain_of_count_pos hpos] at h
      obtain ⟨hback, hfits, hrest⟩ := ih h
      have hrest := hrest fun hf => absurd hf.1 (by simp [popped])
      rw [writtenLen_slice] at hback hrest
      refine ⟨by omega, hfits, fun hfull => ?_⟩
      have hcount := count_le_popped hfull
      omega

/-- The loop is left with the first slice at least. -/
theorem taken_le_writtenLen_of_drain (h : drain fuel rb w = .ok (rb', w')) (hpos : 0 < rb.count) :
    w.writtenLen + rb.taken w.remainingLen ≤ w'.writtenLen := by
  cases fuel with
  | zero => cases h
  | succ fuel =>
    rw [drain_of_count_pos hpos] at h
    have := (writtenLen_of_drain h).1
    rwa [writtenLen_slice] at this

/-- Where one slice empties the pipe, the loop is left after it. -/
theorem drain_returns_of_popped (hpos : 0 < rb.count) (h : (rb.popped w.remainingLen).count = 0) :
    ∃ rb' w', Fuel.Returns (fun fuel => drain fuel rb w) (rb', w') ∧
      w'.writtenLen = w.writtenLen + rb.taken w.remainingLen := by
  refine ⟨rb.popped w.remainingLen, _, ⟨2, fun fuel hfuel => ?_⟩, writtenLen_slice⟩
  obtain ⟨k, rfl⟩ := Nat.exists_eq_add_of_le' hfuel
  show drain (k + 1 + 1) rb w = _
  rw [drain_of_count_pos hpos, drain_of_count_eq_zero h]

/-- What is held in one piece, with room for it, is taken in one
slice. -/
theorem taken_eq_count_of_lt {len : Nat} (hlt : rb.rp < rb.wp) (hroom : rb.count ≤ len) :
    rb.taken len = rb.count := by
  have hfull : rb.full ≠ true := fun hf => by have := rb.rp_eq_wp hf; omega
  rw [RingBuffer.count, if_neg hfull, if_pos (by omega)] at hroom ⊢
  rw [taken, if_pos hlt]
  omega

/-- In a wrapped buffer that holds more than the cells from the write
position to the end, the slice of those leaves the rest in one piece. -/
theorem popped_of_wrapped {len : Nat} (hle : rb.wp ≤ rb.rp) (hroom : rb.count ≤ len)
    (hmore : CAP - rb.wp < rb.count) :
    rb.taken len = CAP - rb.wp ∧ (rb.popped len).rp < (rb.popped len).wp ∧
      (rb.popped len).count + (CAP - rb.wp) = rb.count := by
  have hrp := rb.rp_lt
  have htaken : rb.taken len = CAP - rb.wp := by
    rw [taken, if_neg (by omega)]
    omega
  have hpos : (rb.popped len).rp = rb.rp - rb.wp := by
    rw [rp_popped, htaken]
    split <;> omega
  have hcount : rb.count = CAP - rb.rp + rb.wp := by
    by_cases hfull : rb.full = true
    · have heq := rb.rp_eq_wp hfull
      rw [RingBuffer.count, if_pos hfull]
      omega
    · rw [RingBuffer.count, if_neg hfull] at hmore ⊢
      split <;> split at hmore <;> omega
  rw [hcount] at hmore
  have hlt : rb.rp - rb.wp < rb.wp := by omega
  refine ⟨htaken, by rw [hpos]; exact hlt, ?_⟩
  rw [count_popped, hpos, hcount, if_pos (by omega)]
  omega

/-- **Where the loop is left with what was held.** There is room for
all of it, and either it lies in one piece, or exactly that much is
asked for, or the slice from the write position to the end is no longer
than it. -/
theorem drain_returns (hpos : 0 < rb.count) (hroom : rb.count ≤ w.remainingLen)
    (h : rb.rp < rb.wp ∨ w.remainingLen = rb.count ∨ CAP - rb.wp ≤ rb.count) :
    ∃ rb' w', Fuel.Returns (fun fuel => drain fuel rb w) (rb', w') ∧
      w'.writtenLen = w.writtenLen + rb.count := by
  by_cases hone : rb.taken w.remainingLen = rb.count
  · obtain ⟨rb', w', hreturns, hlen⟩ :=
      drain_returns_of_popped hpos (count_popped_of_taken_eq hone)
    exact ⟨rb', w', hreturns, by rw [hlen, hone]⟩
  -- otherwise the buffer is wrapped, and the first slice is the end of it
  have hle : rb.wp ≤ rb.rp := by
    by_contra hlt
    exact hone (taken_eq_count_of_lt (by omega) hroom)
  have hmore : CAP - rb.wp < rb.count := by
    rw [taken, if_neg (by omega)] at hone
    omega
  obtain ⟨htaken, hlt, hcount⟩ := popped_of_wrapped hle hroom hmore
  have hrest : (rb.popped w.remainingLen).taken
      (w.writeBytes (rb.slice (rb.popRange w.remainingLen))).remainingLen =
        (rb.popped w.remainingLen).count :=
    taken_eq_count_of_lt hlt (by rw [remainingLen_slice]; omega)
  have hcpos : 0 < (rb.popped w.remainingLen).count := by omega
  obtain ⟨rb', w', hreturns, hlen⟩ :=
    drain_returns_of_popped hcpos (count_popped_of_taken_eq hrest)
  refine ⟨rb', w', .of_succ ?_, ?_⟩
  · simpa only [drain_of_count_pos hpos] using hreturns
  · rw [hlen, hrest, writtenLen_slice]
    omega

/-! ## Reads -/

variable {pipe pipe' : Pipe CAP} {nonblock : Bool} {length : Nat} {bytes : List UInt8}

/-- **What a read that returned has done**: its loop was left, and what
it returns is what the loop wrote. -/
theorem exists_drain_of_read (h : pipe.read fuel nonblock length = .ok (.returns bytes, pipe')) :
    ∃ rb w, drain fuel pipe.buf (.ofLen length) = .ok (rb, w) ∧ bytes.length = w.writtenLen ∧
      (w.writtenLen = 0 → (nonblock || pipe.closedByWriter) = true) := by
  obtain ⟨⟨rb, w⟩, hdrain, hfinish⟩ := bind_eq_ok.mp h
  refine ⟨rb, w, hdrain, ?_⟩
  rw [pure_eq_ok, finish] at hfinish
  by_cases hpos : 0 < w.writtenLen
  · rw [if_pos hpos] at hfinish
    cases hfinish
    exact ⟨rfl, fun h0 => by omega⟩
  · rw [if_neg hpos] at hfinish
    by_cases hnow : (nonblock || pipe.closedByWriter) = true
    · rw [if_pos hnow] at hfinish
      cases hfinish
      exact ⟨by simp only [length_nil]; omega, fun _ => hnow⟩
    · rw [if_neg hnow] at hfinish
      cases hfinish

/-- A read returns what its loop is left with, if that is something or
the reader does not sleep. -/
theorem read_returns (nonblock : Bool)
    (h : Fuel.Returns (fun fuel => drain fuel pipe.buf (.ofLen length)) (rb, w))
    (hw : 0 < w.writtenLen ∨ (nonblock || pipe.closedByWriter) = true) :
    ∃ bytes pipe', Fuel.Returns (fun fuel => pipe.read fuel nonblock length)
      (.returns bytes, pipe') ∧ bytes.length = w.writtenLen := by
  have hread : Fuel.Returns (fun fuel => pipe.read fuel nonblock length)
      (pipe.finish nonblock (rb, w)) := by
    obtain ⟨k, hk⟩ := h
    exact ⟨k, fun j hj => bind_eq_ok.mpr ⟨(rb, w), hk j hj, rfl⟩⟩
  rw [finish] at hread
  by_cases hpos : 0 < w.writtenLen
  · rw [if_pos hpos] at hread
    exact ⟨_, _, hread, rfl⟩
  · rw [if_neg hpos, if_pos (hw.resolve_left hpos)] at hread
    exact ⟨_, _, hread, by simp only [length_nil]; omega⟩

/-- **Reading from a pipe, exactly.** A read of a pipe that holds bytes
returns as many as were asked for, or all there are, if and only if the
pipe is drainable for it. -/
theorem reads_iff_drainable (hpos : 0 < pipe.buf.count) :
    pipe.Reads nonblock length ↔ pipe.Drainable nonblock length := by
  constructor
  · rintro ⟨bytes, pipe', ⟨k, hk⟩, hlen⟩
    obtain ⟨rb, w, hdrain, hbytes, hsleep⟩ := exists_drain_of_read (hk k (Nat.le_refl k))
    by_cases hfull : pipe.buf.full = true ∧ length = 0
    · exact .inr ⟨hfull.2, hfull.1, hsleep (by omega)⟩
    · -- all that was held has been taken, so there was room for it
      have hall := (writtenLen_of_drain hdrain).2.2 (by simpa using hfull)
      have hfirst := taken_le_writtenLen_of_drain hdrain hpos
      rw [remainingLen_ofLen, taken] at hfirst
      refine .inl ⟨by omega, ?_⟩
      by_contra hnot
      rw [if_neg (by omega)] at hfirst
      omega
  · rintro (⟨hroom, hcase⟩ | ⟨hzero, hfull, hnow⟩)
    · obtain ⟨rb', w', hdrain, hlen⟩ := drain_returns (w := .ofLen length) hpos hroom hcase
      rw [writtenLen_ofLen] at hlen
      obtain ⟨bytes, pipe', hread, hbytes⟩ :=
        read_returns nonblock hdrain (.inl (by omega))
      exact ⟨bytes, pipe', hread, by omega⟩
    · obtain ⟨rb', w', hdrain, hlen⟩ := drain_returns_of_popped (w := .ofLen length) hpos
        (count_popped_of_full hfull (le_zero.mp (hzero ▸ taken_le)))
      have htaken : pipe.buf.taken length ≤ length := taken_le
      rw [writtenLen_ofLen, remainingLen_ofLen] at hlen
      obtain ⟨bytes, pipe', hread, hbytes⟩ := read_returns nonblock hdrain (.inr hnow)
      exact ⟨bytes, pipe', hread, by omega⟩

/-- A pipe that was written three bytes, read with room for five. -/
theorem reads_three_of_five :
    let pipe := ((new (by decide) fun _ => 0 : Pipe pipeSize).write false [1, 2, 3]).2
    0 < pipe.buf.count ∧ pipe.Reads false 5 := by
  have hpos : 0 < ((new (by decide) fun _ => 0 : Pipe pipeSize).write false [1, 2, 3]).2.buf.count := by
    decide +kernel
  exact ⟨hpos, (reads_iff_drainable hpos).mpr (.inl ⟨by decide +kernel, .inl (by decide +kernel)⟩)⟩

/-- **A read for less than the pipe holds hangs.** After the user's
buffer is full the loop takes empty slices, for ever. -/
theorem read_hangs (nonblock : Bool) (hpos : 0 < length) (hlt : length < pipe.buf.count)
    (fuel : Nat) :
    pipe.read fuel nonblock length = .error () := by
  cases hdrain : drain fuel pipe.buf (.ofLen length) with
  | error _ => rw [read, hdrain]; rfl
  | ok left =>
    obtain ⟨rb, w⟩ := left
    obtain ⟨-, hmost, hall⟩ := writtenLen_of_drain hdrain
    have hall := hall (by rw [remainingLen_ofLen]; omega)
    have hmost : w.writtenLen ≤ length := hmost
    omega

/-- A pipe that was written three bytes, read for two: no number of
steps is enough. -/
theorem read_hangs_two_of_three :
    let pipe := ((new (by decide) fun _ => 0 : Pipe pipeSize).write false [1, 2, 3]).2
    pipe.buf.count = 3 ∧ ¬ pipe.Reads false 2 ∧ ∀ fuel, pipe.read fuel false 2 = .error () := by
  have hcount : ((new (by decide) fun _ => 0 : Pipe pipeSize).write false [1, 2, 3]).2.buf.count = 3 := by
    decide +kernel
  have hhang := read_hangs false (by decide : 0 < 2) (by rw [hcount]; decide)
  refine ⟨hcount, ?_, hhang⟩
  rintro ⟨bytes, pipe', ⟨k, hk⟩, -⟩
  cases (hhang k).symm.trans (hk k (Nat.le_refl k))

end Pipe

end Archives.Kerla
