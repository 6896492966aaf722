import Mathlib.Data.Option.Basic
/-!
# Machines, their runs and their invariants

A machine is a step function on states and actions. The step is partial:
an action without a successor is one the state does not enable, or one
the program does not survive. Runs are taken under a guard, a condition
on a state and the action about to be taken there; the unguarded runs
are those under the trivial guard. `ReachUnder.invariant` is the
induction every safety result of the development goes through.
-/

namespace Archives

open Option

/-- **A machine**: what each action does to each state. -/
structure Machine (σ α : Type*) where
  /-- The successor, if the action has one in this state. -/
  step : σ → α → Option σ

namespace Machine

variable {σ α : Type*} (M : Machine σ α)

/-- A run along a list of actions. -/
def run : σ → List α → Option σ
  | s, [] => some s
  | s, a :: as => (M.step s a).bind fun t => run t as

/-- **What a machine reaches under a guard**: the states at the end of
runs every step of which was taken where the guard allows it. -/
inductive ReachUnder (ok : σ → α → Prop) (s : σ) : σ → Prop
  /-- The empty run. -/
  | refl : ReachUnder ok s s
  /-- One more step, allowed by the guard. -/
  | tail {t u : σ} {a : α} :
      ReachUnder ok s t → ok t a → M.step t a = some u → ReachUnder ok s u

/-- What a machine reaches, unguarded. -/
abbrev Reach (s t : σ) : Prop := M.ReachUnder (fun _ _ => True) s t

variable {M} {ok : σ → α → Prop} {s t u : σ} {a : α}

/-- **Invariants.** What holds at the start and survives every allowed
step holds wherever the allowed runs lead. -/
theorem ReachUnder.invariant {I : σ → Prop} (h : M.ReachUnder ok s t) (h0 : I s)
    (hstep : ∀ {x y : σ} {b : α}, I x → ok x b → M.step x b = some y → I y) : I t := by
  induction h with
  | refl => exact h0
  | tail _ hok hs ih => exact hstep ih hok hs

/-- Allowed runs compose. -/
theorem ReachUnder.trans (h₁ : M.ReachUnder ok s t) (h₂ : M.ReachUnder ok t u) :
    M.ReachUnder ok s u := by
  induction h₂ with
  | refl => exact h₁
  | tail _ hok hs ih => exact .tail ih hok hs

/-- A guarded run is a run. -/
theorem ReachUnder.reach (h : M.ReachUnder ok s t) : M.Reach s t :=
  h.invariant .refl fun hr _ hs => hr.tail trivial hs

/-- The end of a run along a list of actions is reached. -/
theorem reach_of_run {as : List α} (h : M.run s as = some t) : M.Reach s t := by
  induction as generalizing s with
  | nil =>
    simp only [run, some.injEq] at h
    exact h ▸ .refl
  | cons a as ih =>
    simp only [run, bind_eq_some_iff] at h
    obtain ⟨x, hx, hrest⟩ := h
    exact (ReachUnder.refl.tail trivial hx).trans (ih hrest)

/-- A run along a list of actions with the guard checked before each of them. -/
def runUnder (M : Machine σ α) (ok : σ → α → Prop) [∀ s a, Decidable (ok s a)] :
    σ → List α → Option σ
  | s, [] => some s
  | s, a :: as => if ok s a then (M.step s a).bind fun t => runUnder M ok t as else none

/-- The end of a checked run is reached under the guard. -/
theorem reachUnder_of_runUnder [∀ s a, Decidable (ok s a)] {as : List α}
    (h : M.runUnder ok s as = some t) : M.ReachUnder ok s t := by
  induction as generalizing s with
  | nil =>
    simp only [runUnder, some.injEq] at h
    exact h ▸ .refl
  | cons a as ih =>
    simp only [runUnder] at h
    split at h
    · rename_i hok
      obtain ⟨x, hx, hrest⟩ := bind_eq_some_iff.mp h
      exact (ReachUnder.refl.tail hok hx).trans (ih hrest)
    · cases h

/-- A checked run that ends in a state with a property reaches such a
state under the guard. -/
theorem exists_reachUnder [∀ s a, Decidable (ok s a)] {P : σ → Prop} (as : List α)
    (h : ∃ t ∈ M.runUnder ok s as, P t) : ∃ t, M.ReachUnder ok s t ∧ P t := by
  obtain ⟨t, ht, hp⟩ := h
  exact ⟨t, reachUnder_of_runUnder ht, hp⟩

end Machine

end Archives
