import Mathlib.Data.List.Basic
/-!
# The first entry that matches

A table with a fixed number of entries is searched from its start, and
the entry found is changed in place. What is known of the result is how
the table splits at that entry.
-/

namespace Archives.FirstMatch

variable {α : Type*} {p : α → Bool} {f : α → α} {a : α} {l l' : List α}

/-- Change the first entry that matches; the entry is given as it was. -/
def updateFirst (p : α → Bool) (f : α → α) : List α → Option (α × List α)
  | [] => none
  | a :: l =>
    if p a then some (a, f a :: l) else (updateFirst p f l).map fun r => (r.1, a :: r.2)

/-- **The table splits at the entry.** -/
theorem exists_split (h : updateFirst p f l = some (a, l')) :
    p a = true ∧ ∃ before after, l = before ++ a :: after ∧ l' = before ++ f a :: after := by
  induction l generalizing l' with
  | nil => cases h
  | cons b l ih =>
    simp only [updateFirst] at h
    split at h
    next hb =>
      cases h
      exact ⟨hb, [], l, rfl, rfl⟩
    next =>
      simp only [Option.map_eq_some_iff, Prod.exists, Prod.mk.injEq] at h
      obtain ⟨a', m, hm, rfl, rfl⟩ := h
      obtain ⟨ha, before, after, rfl, rfl⟩ := ih hm
      exact ⟨ha, b :: before, after, rfl, rfl⟩

/-- All entries but one stay. -/
theorem exists_perm (h : updateFirst p f l = some (a, l')) :
    ∃ rest, l.Perm (a :: rest) ∧ l'.Perm (f a :: rest) := by
  obtain ⟨-, before, after, rfl, rfl⟩ := exists_split h
  exact ⟨before ++ after, List.perm_middle, List.perm_middle⟩

/-- The entry is the one a search finds. -/
theorem map_fst_updateFirst (p : α → Bool) (f : α → α) (l : List α) :
    (updateFirst p f l).map Prod.fst = l.find? p := by
  induction l with
  | nil => rfl
  | cons b l ih =>
    rw [updateFirst, List.find?_cons, ← ih]
    cases p b
    · simp [Function.comp_def]
    · rfl

/-- An entry is found if there is one. -/
theorem exists_updateFirst (h : ∃ a ∈ l, p a = true) : ∃ r, updateFirst p f l = some r := by
  have hsome : ((updateFirst p f l).map Prod.fst).isSome := by
    simpa [map_fst_updateFirst, List.find?_isSome] using h
  exact Option.isSome_iff_exists.mp (by simpa using hsome)

end Archives.FirstMatch
