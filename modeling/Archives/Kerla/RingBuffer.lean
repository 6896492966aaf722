import Archives.Common.Machine
import Archives.Kerla.PipeRead
/-!
# Kerla — the ring buffer as a queue

A ring buffer stands for the queue of the cells from its read position
on. A push appends to that queue, wherever the positions are. A pop takes
from its front where the queue lies in one piece; where it wraps around,
the cells from the write position on are taken instead, and an empty pop
of a full buffer drops the whole queue.
-/

namespace Archives.Kerla.RingBuffer

open List Nat

variable {T : Type} {CAP : Nat} {rb : RingBuffer T CAP} {data : List T} {len : Nat}

/-- **The queue a buffer stands for.** -/
def held (rb : RingBuffer T CAP) : List T :=
  (range rb.count).map fun i => rb.buf ((rb.rp + i) % CAP)

theorem count_le : rb.count ≤ CAP := by
  have hwp := rb.wp_lt
  rw [count]
  split
  · omega
  · split <;> omega

/-- The pop takes its slice from the read position. -/
def PopsFront (rb : RingBuffer T CAP) (len : Nat) : Prop :=
  rb.isReadable = true → rb.wp ≤ rb.rp → (rb.full = true ↔ 0 < len)
  deriving Decidable

theorem PopsFront.piece (h : rb.PopsFront len) (hread : rb.isReadable = true) :
    (rb.taken len = 0 ∨ (rb.popRange len).start = rb.rp ∧ rb.rp + rb.taken len ≤ CAP) ∧
      rb.count = rb.taken len + (rb.popped len).count := by
  have hrp := rb.rp_lt
  have hwp := rb.wp_lt
  have hpos := count_pos_iff.2 hread
  rw [count_popped, rp_popped, count]
  rw [count] at hpos
  by_cases hfull : rb.full = true
  · have heq := rb.rp_eq_wp hfull
    have hlen := (h hread (by omega)).1 hfull
    rw [taken, popRange, if_neg (by omega), if_neg (by omega), if_pos hfull]
    refine ⟨.inr ⟨heq.symm, by omega⟩, ?_⟩
    split <;> split <;> omega
  rw [if_neg hfull] at hpos ⊢
  rcases Nat.lt_or_ge rb.rp rb.wp with hlt | hge
  · rw [taken, popRange, if_pos hlt, if_pos hlt]
    refine ⟨.inr ⟨rfl, by omega⟩, ?_⟩
    split <;> split <;> split <;> omega
  · have hlen : len = 0 := Nat.eq_zero_of_not_pos (mt (h hread hge).2 hfull)
    rw [taken, if_neg (by omega)]
    split <;> split <;> split <;> omega

/-- **Such a pop takes from the front of the queue.** -/
theorem held_eq_of_popsFront (h : rb.PopsFront len) (hread : rb.isReadable = true) :
    rb.held = rb.slice (rb.popRange len) ++ (rb.popped len).held := by
  obtain ⟨hpiece, hcount⟩ := h.piece hread
  rw [held, hcount, range_add, map_append, slice, popRange_length, range'_eq_map_range, map_map,
    map_map]
  refine congr (congrArg _ (map_congr_left fun i hi => ?_)) (map_congr_left fun i _ => ?_)
  · have hi := mem_range.1 hi
    obtain hzero | ⟨hstart, hle⟩ := hpiece
    · omega
    rw [Nat.mod_eq_of_lt (by omega), Function.comp_apply, hstart]
  · show rb.buf ((rb.rp + (rb.taken len + i)) % CAP) = rb.buf ((_ % CAP + i) % CAP)
    rw [popRange_length, mod_add_mod, Nat.add_assoc]

theorem count_of_not_full (h : rb.full ≠ true) :
    rb.count = if rb.rp ≤ rb.wp then rb.wp - rb.rp else CAP - rb.rp + rb.wp := by
  rw [count, if_neg h]

/-- Data written behind the queue is appended to it. -/
theorem held_advance {buf : Nat → T} (hfull : rb.full ≠ true) (hlen : 0 < len)
    (hdata : len ≤ data.length) (hroom : rb.count + len ≤ CAP)
    (hwritten : ∀ j < len, data[j]? = some (buf ((rb.wp + j) % CAP)))
    (hkept : ∀ i < rb.count, buf ((rb.rp + i) % CAP) = rb.buf ((rb.rp + i) % CAP)) :
    (rb.advance buf len).held = rb.held ++ data.take len := by
  have hrp := rb.rp_lt
  have hwp := rb.wp_lt
  have hcount := count_of_not_full hfull
  have hcount' : (rb.advance buf len).count = rb.count + len := by
    simp only [count, advance, decide_eq_true_eq,
      mod_eq_ite hwp (by omega : len ≤ CAP), if_neg hfull]
    split <;> split <;> split <;> grind
  have hplace : rb.wp = (rb.rp + rb.count) % CAP := by
    rw [mod_eq_ite hrp count_le, hcount]
    split <;> split <;> omega
  rw [held, hcount', range_add, map_append, map_map]
  refine congr (congrArg _ (map_congr_left fun i hi => hkept i (mem_range.1 hi))) ?_
  refine ext_getElem (by simp [hdata]) fun j hj hj' => ?_
  rw [length_map, length_range] at hj
  have hcell := hwritten j hj
  rw [hplace, mod_add_mod, Nat.add_assoc] at hcell
  rw [getElem_take, getElem_map, getElem_range]
  exact (List.getElem?_eq_some_iff.1 hcell).2.symm

/-- **A push appends to the queue.** -/
theorem held_pushSlice :
    (rb.pushSlice data).2.held = rb.held ++ data.take (rb.pushSlice data).1 := by
  have hrp := rb.rp_lt
  have hwp := rb.wp_lt
  rw [pushSlice]
  split
  · rw [take_zero, append_nil]
  rename_i hopen
  have hfull : rb.full ≠ true := fun hf => hopen (.inl (by simp [isWritable, hf]))
  have hdata : 0 < data.length := length_pos_iff.2 fun hnil => hopen (.inr hnil)
  have hcount := count_of_not_full hfull
  -- up to the end of the array, or up to the read position
  split
  all_goals
    rename_i hle
    simp only [hle, if_true, if_false] at hcount
    simp only [length_take, length_drop]
    refine held_advance hfull (by omega) (by omega) (by omega) (fun j hj => ?_) fun i hi => ?_
    · rw [mod_eq_ite hwp (by omega)]
      grind [copyTo]
    · rw [mod_eq_ite hrp (by omega)]
      grind [copyTo]

/-- A buffer, with what its pushes accepted and its pops returned. -/
structure Traced (T : Type) (CAP : Nat) where
  rb : RingBuffer T CAP
  accepted : List T
  returned : List T

inductive Call (T : Type)
  | pushSlice (data : List T)
  | popSlice (len : Nat)

namespace Traced

/-- A new buffer. -/
def start (hcap : 0 < CAP) (uninit : Nat → T) : Traced T CAP := ⟨.new hcap uninit, [], []⟩

/-- Call after call. -/
def machine : Machine (Traced T CAP) (Call T) where
  step x
    | .pushSlice data =>
      let pushed := x.rb.pushSlice data
      some ⟨pushed.2, x.accepted ++ data.take pushed.1, x.returned⟩
    | .popSlice len =>
      match x.rb.popSlice len with
      | none => some x
      | some (slice, rb) => some ⟨rb, x.accepted, x.returned ++ slice⟩

/-- **A bounded queue**: what was returned is a first part of what was
accepted, and the rest is no more than the capacity. -/
def Queues (x : Traced T CAP) : Prop :=
  x.returned <+: x.accepted ∧ x.accepted.length ≤ x.returned.length + CAP

/-- A pop takes from the read position. -/
def Sound (x : Traced T CAP) : Call T → Prop
  | .pushSlice _ => True
  | .popSlice len => x.rb.PopsFront len

variable {hcap : 0 < CAP} {uninit : Nat → T} {x : Traced T CAP}

/-- **The buffer is a bounded queue as long as every pop takes from the
read position.** -/
theorem queues_of_sound (h : machine.ReachUnder Sound (start hcap uninit) x) : x.Queues := by
  have heq : x.accepted = x.returned ++ x.rb.held := by
    refine h.invariant (I := fun x => x.accepted = x.returned ++ x.rb.held) rfl ?_
    intro x y call heq hsound hstep
    cases call with
    | pushSlice data =>
      cases hstep
      rw [held_pushSlice, ← append_assoc, heq]
    | popSlice len =>
      by_cases hread : x.rb.isReadable = true
      · simp only [machine, popSlice, hread, Bool.true_eq_false, if_false] at hstep
        cases hstep
        rw [append_assoc, ← held_eq_of_popsFront hsound hread, heq]
      · simp only [machine, popSlice, Bool.not_eq_true _ ▸ hread, if_true] at hstep
        cases hstep
        exact heq
  have hle : x.rb.count ≤ CAP := count_le
  rw [Queues, heq, length_append, held, length_map, length_range]
  exact ⟨prefix_append _ _, by omega⟩

/-- Three bytes in, two out, and two in that wrap around. -/
theorem queues_of_wrapped_push : ∃ x : Traced UInt8 4,
    x.accepted = [1, 2, 3, 4, 5] ∧ x.returned = [1, 2] ∧ x.Queues := by
  have hx : machine.ReachUnder Sound (start (by decide : 0 < 4) fun _ => (0 : UInt8)) _ :=
    ((Machine.ReachUnder.refl.tail (a := .pushSlice [1, 2, 3]) trivial rfl).tail
      (a := .popSlice 2) (by simp only [Sound]; decide) rfl).tail
      (a := .pushSlice [4, 5]) trivial rfl
  exact ⟨_, rfl, rfl, queues_of_sound hx⟩

/-- **The second half of a full buffer is not returned.** After two bytes
were pushed and the first popped, the next pop returns it again. -/
theorem not_queues_of_two_pops : ∃ x,
    machine.Reach (start (by decide : 0 < 2) fun _ => (0 : UInt8)) x ∧
      x.accepted = [1, 2] ∧ x.returned = [1, 1] ∧ ¬ x.Queues := by
  refine ⟨_, ((Machine.ReachUnder.refl.tail (a := .pushSlice [1, 2]) trivial rfl).tail
    (a := .popSlice 1) trivial rfl).tail (a := .popSlice 1) trivial rfl, rfl, rfl, fun h => ?_⟩
  exact absurd h.1 (by decide)

end Traced

end Archives.Kerla.RingBuffer
