import Mathlib.Data.Nat.Basic
import Mathlib.Data.List.Basic
/-!
# Windows of a ring

A ring of `n` cells whose producer and consumer count their items in
numbers that wrap around at a multiple `m` of `n`. What the producer has
put and the consumer not yet taken is a window of the ring: the list of
these items, from the consumer's count on. It has to be no longer than
the ring.
-/

namespace Archives

open Function List Nat

variable {α : Type*} {n m start : Nat} {ring : Nat → α} {x : α} {items : List α}

/-- **A window**: the items in the cells from a count on. -/
def Window (n m : Nat) (ring : Nat → α) (start : Nat) (items : List α) : Prop :=
  ∀ i x, items[i]? = some x → ring ((start + i) % m % n) = x

theorem window_nil : Window n m ring start [] := by
  nofun

/-- The consumer finds the first item at its count. -/
theorem Window.head (h : Window n m ring start (x :: items)) (hstart : start < m) :
    ring (start % n) = x := by
  have hzero := h 0 x rfl
  rwa [Nat.add_zero, Nat.mod_eq_of_lt hstart] at hzero

/-- Counted on, the rest is the window. -/
theorem Window.tail (h : Window n m ring start (x :: items)) :
    Window n m ring ((start + 1) % m) items := by
  intro i y hy
  have hnext := h (i + 1) y hy
  rwa [Nat.mod_add_mod, Nat.add_assoc, Nat.add_comm 1 i]

/-- Cells of different places in a window differ. -/
theorem cell_ne (hdvd : n ∣ m) {i j : Nat} (hij : i < j) (hj : j < n) :
    (start + i) % m % n ≠ (start + j) % m % n := by
  rw [mod_mod_of_dvd _ hdvd, mod_mod_of_dvd _ hdvd]
  intro heq
  have hdiff : (start + j - (start + i)) % n = 0 := sub_mod_eq_zero_of_mod_eq heq.symm
  have hsub : start + j - (start + i) = j - i := by omega
  rw [hsub, mod_eq_of_lt (by omega)] at hdiff
  omega

/-- **The producer puts an item behind the window**, if there is room. -/
theorem Window.push (h : Window n m ring start items) (hdvd : n ∣ m) (hroom : items.length < n) :
    Window n m (update ring ((start + items.length) % m % n) x) start (items ++ [x]) := by
  intro i y hy
  by_cases hi : i < items.length
  · rw [getElem?_append_left hi] at hy
    rw [update_of_ne (cell_ne hdvd hi hroom)]
    exact h i y hy
  · have hlast : i = items.length := by
      have hlt := (List.getElem?_eq_some_iff.1 hy).1
      rw [length_append, length_singleton] at hlt
      omega
    subst hlast
    rw [getElem?_append_right (Nat.le_refl _), Nat.sub_self] at hy
    rw [update_self]
    exact Option.some.inj hy

/-- The counts tell whether the window is empty. -/
theorem add_length_mod_eq_iff (hstart : start < m) (hlen : items.length < m) :
    (start + items.length) % m = start ↔ items = [] := by
  constructor
  · intro h
    rw [← length_eq_zero_iff]
    rcases lt_or_ge (start + items.length) m with hlt | hge
    · rw [mod_eq_of_lt hlt] at h
      omega
    · rw [mod_eq_sub_mod hge, mod_eq_of_lt (by omega)] at h
      omega
  · rintro rfl
    exact mod_eq_of_lt hstart

end Archives
