import Archives.Common.Except
/-!
# Functions that may not return

A recursive function of the source need not return. Its model takes a
bound on the depth of its calls, the fuel, and stops with an error when
that is used up. The function returns a value when enough fuel gives that
value. More fuel never changes a result: that is proved of each such
function once (`Stable`), and with it the fuels of two calls are joined.
-/

namespace Archives.Fuel

variable {ε τ : Type} {α β : Type}

/-- **The function returns `a`**: with enough fuel that is the result,
however much more there is. -/
def Returns (f : Nat → Except ε α) (a : α) : Prop := ∃ k, ∀ j, k ≤ j → f j = .ok a

/-- More fuel does not change a result. -/
def Stable (f : Nat → Except ε α) : Prop := ∀ k a, f k = .ok a → f (k + 1) = .ok a

/-- A loop over a list keeps its result when its body keeps all of its
results. -/
theorem foldlM_ok_of_imp {f g : α → τ → Except ε α} {ts : List τ}
    (h : ∀ t ∈ ts, ∀ a b, f a t = .ok b → g a t = .ok b) {b : α} :
    ∀ {a}, ts.foldlM f a = .ok b → ts.foldlM g a = .ok b := by
  induction ts with
  | nil => intro a hf; exact hf
  | cons t ts ih =>
    intro a hf
    obtain ⟨c, hc, hf⟩ := bind_eq_ok.1 hf
    exact bind_eq_ok.2 ⟨c, h t (by simp) a c hc, ih (fun t ht => h t (by simp [ht])) hf⟩

namespace Stable

variable {f : Nat → Except ε α} {g : Nat → α → Except ε β}

theorem le (hf : Stable f) {k j : Nat} {a : α} (h : f k = .ok a) (hkj : k ≤ j) : f j = .ok a := by
  induction hkj with
  | refl => exact h
  | step _ ih => exact hf _ _ ih

/-- A result with some fuel is what the function returns. -/
theorem returns (hf : Stable f) {k : Nat} {a : α} (h : f k = .ok a) : Returns f a :=
  ⟨k, fun _ hkj => hf.le h hkj⟩

/-- A loop over a list is stable when its body is. -/
theorem foldlM {step : Nat → α → τ → Except ε α} (hs : ∀ a t, Stable fun k => step k a t)
    (ts : List τ) (a : α) : Stable fun k => ts.foldlM (step k) a := by
  intro k b h
  exact foldlM_ok_of_imp (fun t _ a b => hs a t k b) h

end Stable

namespace Returns

variable {f : Nat → Except ε α} {g : Nat → α → Except ε β} {a : α}

theorem bind {b : β} (hf : Returns f a) (hg : Returns (fun k => g k a) b) :
    Returns (fun k => f k >>= g k) b := by
  obtain ⟨k, hk⟩ := hf
  obtain ⟨j, hj⟩ := hg
  refine ⟨k + j, fun i hi => ?_⟩
  exact bind_eq_ok.2 ⟨a, hk i (by omega), hj i (by omega)⟩

/-- The first unit of fuel does not count. -/
theorem of_succ (hf : Returns (fun k => f (k + 1)) a) : Returns f a := by
  obtain ⟨k, hk⟩ := hf
  refine ⟨k + 1, fun j hj => ?_⟩
  obtain ⟨j, rfl⟩ : ∃ i, j = i + 1 := ⟨j - 1, by omega⟩
  exact hk j (by omega)

theorem succ (hf : Returns f a) : Returns (fun k => f (k + 1)) a := by
  obtain ⟨k, hk⟩ := hf
  exact ⟨k, fun j hj => hk (j + 1) (by omega)⟩

/-- A function returns one value only. -/
theorem unique {b : α} (ha : Returns f a) (hb : Returns f b) : a = b := by
  obtain ⟨k, hk⟩ := ha
  obtain ⟨j, hj⟩ := hb
  have h := hk (k + j) (by omega)
  rw [hj (k + j) (by omega)] at h
  exact (Except.ok.inj h).symm

end Returns

end Archives.Fuel
