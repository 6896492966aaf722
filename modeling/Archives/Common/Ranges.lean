import Mathlib.Logic.Basic
/-!
# Ranges of addresses

Half-open ranges of natural numbers and the overlap test an address map
makes with their ends: ranges that fail it have no address in common.
-/

namespace Archives

/-- A half-open range, `start..stop`. -/
structure Range where
  start : Nat
  stop : Nat
  deriving DecidableEq, Repr

namespace Range

def contains (r : Range) (a : Nat) : Bool := decide (r.start ≤ a) && decide (a < r.stop)

/-- An address is in a range. -/
def Holds (r : Range) (a : Nat) : Prop := r.start ≤ a ∧ a < r.stop

/-- Ranges without an address in common. -/
def Apart (r s : Range) : Prop := ∀ a, r.Holds a → ¬ s.Holds a

/-- The overlap test: each range starts before the other stops. -/
def Meets (r s : Range) : Prop := r.start < s.stop ∧ s.start < r.stop
deriving Decidable

variable {r s : Range}

@[simp] theorem contains_eq_true {a : Nat} : r.contains a = true ↔ r.Holds a := by
  simp [contains, Holds]

theorem Apart.symm (h : r.Apart s) : s.Apart r := fun a hs hr => h a hr hs

/-- Ranges that fail the overlap test are apart. -/
theorem apart_of_not_meets (h : ¬ r.Meets s) : r.Apart s := by
  rintro a ⟨hr, hr'⟩ ⟨hs, hs'⟩
  exact h ⟨by omega, by omega⟩

/-- Of two ranges apart, the one that starts first stops before the
other starts. -/
theorem Apart.stop_le_start (h : r.Apart s) (hne : s.start < s.stop) (hle : r.start ≤ s.start) :
    r.stop ≤ s.start := by
  rcases Nat.lt_or_ge s.start r.stop with hlt | hge
  · exact absurd ⟨Nat.le_refl _, hne⟩ (h s.start ⟨hle, hlt⟩)
  · exact hge

/-- Ranges apart fail the overlap test, if neither is empty. -/
theorem Apart.not_meets (h : r.Apart s) (hr : r.start < r.stop) (hs : s.start < s.stop) :
    ¬ r.Meets s := by
  rintro ⟨hlow, hhigh⟩
  rcases Nat.le_total r.start s.start with hle | hle
  · have := h.stop_le_start hs hle
    omega
  · have := h.symm.stop_le_start hr hle
    omega

end Range

end Archives
