import Mathlib.Data.List.Basic
/-!
# Painting one thing over another

What lies at one place is a list of what each of the things stacked there
is painted with, from the bottom to the top; a thing that does not cover
the place is `none`. `topmost` is what is seen there. Painting the stack in
a loop shows the same, and a loop of passes each of which sets right a
part of the places leaves a place right when no pass after the last one
that covers it spoils it.
-/

namespace Archives.Painting

open List Option

variable {α C S : Type}

/-- **What is seen**: the topmost colour, or what was there before. -/
def topmost (colours : List (Option C)) (under : C) : C :=
  colours.foldl (fun under colour => colour.getD under) under

variable {colours lower upper : List (Option C)} {under : C}

@[simp] theorem topmost_nil : topmost [] under = under := rfl

@[simp] theorem topmost_cons (colour : Option C) :
    topmost (colour :: colours) under = topmost colours (colour.getD under) := rfl

@[simp] theorem topmost_append :
    topmost (lower ++ upper) under = topmost upper (topmost lower under) := by
  simp [topmost]

/-! ## Painting a stack in a loop -/

variable {step : S → α → Option S} {s s' : S} {as : List α} {I : S → Prop}

/-- What every round keeps, a loop keeps. -/
theorem foldlM_inv (hstep : ∀ a ∈ as, ∀ s s', I s → step s a = some s' → I s')
    (hinv : I s) (h : as.foldlM step s = some s') : I s' := by
  induction as generalizing s with
  | nil =>
    simp only [foldlM_nil, Option.pure_def, some.injEq] at h
    exact h ▸ hinv
  | cons a as ih =>
    simp only [foldlM_cons, bind_eq_bind, bind_eq_some_iff] at h
    obtain ⟨t, ht, hrest⟩ := h
    exact ih (fun b hb => hstep b (mem_cons_of_mem a hb)) (hstep a (by simp) s t hinv ht) hrest

/-- **A loop over a stack** shows what is seen there, when each round
paints one thing. -/
theorem foldlM_eq_topmost (look : S → C) {colour : α → Option C}
    (hstep : ∀ a ∈ as, ∀ s s', I s → step s a = some s' → I s' ∧ look s' = (colour a).getD (look s))
    (hinv : I s) (h : as.foldlM step s = some s') : look s' = topmost (as.map colour) (look s) := by
  induction as generalizing s with
  | nil =>
    simp only [foldlM_nil, Option.pure_def, some.injEq] at h
    rw [h, map_nil, topmost_nil]
  | cons a as ih =>
    simp only [foldlM_cons, bind_eq_bind, bind_eq_some_iff] at h
    obtain ⟨t, ht, hrest⟩ := h
    obtain ⟨hinv', hlook⟩ := hstep a (by simp) s t hinv ht
    rw [map_cons, topmost_cons, ← hlook]
    exact ih (fun b hb => hstep b (mem_cons_of_mem a hb)) hinv' hrest

/-- **A loop that only spills** leaves a place as it was, or with the one
colour that is spilled. -/
theorem foldlM_eq_or_spilled (look : S → C) {spills : α → Prop} {colour : C}
    (hstep : ∀ a ∈ as, ∀ s s', I s → step s a = some s' →
      I s' ∧ (look s' = look s ∨ spills a ∧ look s' = colour))
    (hinv : I s) (h : as.foldlM step s = some s') :
    look s' = look s ∨ (∃ a ∈ as, spills a) ∧ look s' = colour := by
  refine (foldlM_inv (I := fun t => I t ∧
    (look t = look s ∨ (∃ a ∈ as, spills a) ∧ look t = colour)) ?_ ⟨hinv, .inl rfl⟩ h).2
  rintro a ha t t' ⟨ht, hlook⟩ hrun
  obtain ⟨ht', hkept | ⟨hspill, hc⟩⟩ := hstep a ha t t' ht hrun
  · exact ⟨ht', hkept ▸ hlook⟩
  · exact ⟨ht', .inr ⟨⟨a, ha, hspill⟩, hc⟩⟩

/-! ## Passes that set a part right -/

/-- The passes of a list keep a place right: each one covers it or leaves
it right, or a later one covers it. -/
def Kept (covers keeps : α → Prop) : List α → Prop
  | [] => True
  | a :: later => (covers a ∨ keeps a ∨ ∃ b ∈ later, covers b) ∧ Kept covers keeps later

/-- **A loop of passes leaves a place right** that was right or is covered
by one of them, when the passes keep it. -/
theorem foldlM_good {G : S → Prop} {covers keeps : α → Prop}
    (hinv' : ∀ a s s', I s → step s a = some s' → I s')
    (hcovers : ∀ a s s', I s → step s a = some s' → covers a → G s')
    (hkeeps : ∀ a s s', I s → step s a = some s' → keeps a → G s → G s')
    (hkept : Kept covers keeps as) (hinv : I s) (hstart : G s ∨ ∃ a ∈ as, covers a)
    (h : as.foldlM step s = some s') : G s' := by
  induction as generalizing s with
  | nil =>
    simp only [foldlM_nil, Option.pure_def, some.injEq] at h
    rcases hstart with hgood | ⟨a, ha, _⟩
    · exact h ▸ hgood
    · simp at ha
  | cons a as ih =>
    simp only [foldlM_cons, bind_eq_bind, bind_eq_some_iff] at h
    obtain ⟨t, ht, hrest⟩ := h
    refine ih hkept.2 (hinv' a s t hinv ht) ?_ hrest
    -- either this pass leaves the place right, or a later one covers it
    rcases hkept.1 with hcov | hkeep | hlater
    · exact .inl (hcovers a s t hinv ht hcov)
    · rcases hstart with hgood | ⟨b, hb, hcov⟩
      · exact .inl (hkeeps a s t hinv ht hkeep hgood)
      · rcases mem_cons.mp hb with rfl | hb
        · exact .inl (hcovers b s t hinv ht hcov)
        · exact .inr ⟨b, hb, hcov⟩
    · exact .inr hlater

end Archives.Painting
