import Mathlib.Logic.Function.Basic
/-!
# Partial maps as functions

A map from keys to values is a function to options, and a change of one
key is `Function.update`. What a changed map has under a key is the new
value, at that key, or what it had before, at any other.
-/

namespace Archives.PartialMap

open Function

variable {α β : Type*} [DecidableEq α] {map : α → Option β} {key k : α} {new : Option β} {v : β}

/-- **What a changed map has.** -/
theorem update_eq_some :
    update map key new k = some v ↔ (k = key ∧ new = some v) ∨ (k ≠ key ∧ map k = some v) := by
  by_cases heq : k = key
  · subst heq
    simp
  · simp [heq]

/-- What is not the new value was there before. -/
theorem of_update (h : update map key new k = some v) (hnew : new ≠ some v) :
    k ≠ key ∧ map k = some v :=
  (update_eq_some.1 h).resolve_left fun heq => hnew heq.2

/-- What a map has under a key stays when a key that it lacks is set. -/
theorem update_of_lacking (hkey : map key = none) (h : map k = some v) :
    update map key new k = some v := by
  refine update_eq_some.2 (.inr ⟨?_, h⟩)
  rintro rfl
  rw [hkey] at h
  cases h

/-- What a map has under a key stays when a key with another value is
changed. -/
theorem update_of_other (hkey : map key ≠ some v) (h : map k = some v) :
    update map key new k = some v := by
  refine update_eq_some.2 (.inr ⟨?_, h⟩)
  rintro rfl
  exact hkey h

/-- A key is in the map after a change if it was before, unless it was
taken out. -/
theorem isSome_update (hnew : new.isSome) (h : (map k).isSome) : (update map key new k).isSome := by
  by_cases heq : k = key
  · subst heq
    rwa [update_self]
  · rwa [update_of_ne heq]

end Archives.PartialMap
