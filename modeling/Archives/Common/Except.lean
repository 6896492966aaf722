import Mathlib.Logic.Basic
/-!
# Computations that may stop with an error

The rules that take a `do` block over `Except` apart: a sequence
succeeds when both of its parts do. With them a proof about such a block
names the intermediate results and never unfolds the monad.
-/

namespace Archives

universe u v

variable {ε : Type u} {α β : Type v} {x : Except ε α} {a : α} {f : α → Except ε β}

/-- A sequence succeeds with the result of its second part, run on the
result of its first. -/
theorem bind_eq_ok {b : β} : x >>= f = .ok b ↔ ∃ a, x = .ok a ∧ f a = .ok b := by
  cases x with
  | error e => simp [bind, Except.bind]
  | ok a => simp [bind, Except.bind]

@[simp] theorem ok_bind : (.ok a >>= f) = f a := rfl

@[simp] theorem bind_ok_self : (x >>= fun a => .ok a) = x := by
  cases x <;> rfl

@[simp] theorem pure_eq_ok {b : α} : (pure a : Except ε α) = .ok b ↔ a = b := by
  simp [pure, Except.pure]

theorem map_bind {γ : Type v} {g : β → γ} : (x >>= f).map g = x >>= fun a => (f a).map g := by
  cases x <;> rfl

/-- A conditional succeeds in the branch it takes. -/
theorem ite_eq_ok {p : Prop} [Decidable p] {y : Except ε α} :
    (if p then x else y) = .ok a ↔ (p ∧ x = .ok a) ∨ (¬ p ∧ y = .ok a) := by
  split <;> simp_all

/-- What a computation leaves as an option is what it succeeded with. -/
theorem eq_ok_of_toOption (h : x.toOption = some a) : x = .ok a := by
  cases x with
  | error e => cases h
  | ok b => exact congrArg Except.ok (Option.some.inj h)

/-- The error a computation stopped with. -/
def errorOf : Except ε α → Option ε
  | .error e => some e
  | .ok _ => none

theorem eq_error_of_errorOf {e : ε} (h : errorOf x = some e) : x = .error e := by
  cases x with
  | error e' => exact congrArg Except.error (Option.some.inj h)
  | ok a => cases h

end Archives
