import Mathlib.Data.List.Forall2
/-!
# Traversals that may fail

A function that may fail, run over a list. It succeeds when it does at
every element, and then the results correspond one by one.
-/

namespace Archives.Traverse

open List

variable {α β ι : Type} {f : α → Option β}

/-- **A traversal succeeds element by element.** -/
theorem mapM_eq_some_iff {as : List α} {bs : List β} :
    as.mapM f = some bs ↔ List.Forall₂ (fun a b => f a = some b) as bs := by
  constructor
  · intro h
    induction as generalizing bs with
    | nil =>
      cases h
      exact .nil
    | cons a as ih =>
      rw [mapM_cons] at h
      obtain ⟨b, hb, h⟩ := Option.bind_eq_some_iff.1 h
      obtain ⟨bs', hbs, h⟩ := Option.bind_eq_some_iff.1 h
      cases h
      exact .cons hb (ih hbs)
  · intro h
    induction h with
    | nil => rfl
    | cons ha _ ih =>
      rw [mapM_cons, ha, ih]
      rfl

/-- Over the images of a list, the results are images too. -/
theorem mapM_map_eq_some {g : ι → α} {h : ι → β} {l : List ι}
    (H : ∀ i ∈ l, f (g i) = some (h i)) : (l.map g).mapM f = some (l.map h) := by
  refine mapM_eq_some_iff.2 ?_
  rw [forall₂_map_left_iff, forall₂_map_right_iff]
  exact forall₂_same.2 H

end Archives.Traverse
