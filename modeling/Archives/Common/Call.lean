import Mathlib.Logic.Basic
/-!
# Calls that change a state

A call runs on a state and ends with a value or an error; the changes it
made are there in either case. It may also not end at all: it stops the
whole program, by a panic or by a loop that is never left. `Triple` gives
such calls pre- and postconditions, one for each way of ending, with a
rule for each way of building a call.
-/

namespace Archives

open Except Prod

/-- **A call** on the states `σ`: it stops the program (`ς`), or ends
with an error (`ε`) or a value (`α`), in a state either way. -/
def Call (ς σ ε α : Type) : Type := σ → Except ς (Except ε α × σ)

namespace Call

variable {ς σ ε α β : Type} {m : Call ς σ ε α} {f : α → Call ς σ ε β} {s : σ} {x : ς}

/-- What the call does in a state. -/
def run (m : Call ς σ ε α) (s : σ) : Except ς (Except ε α × σ) := m s

instance : Monad (Call ς σ ε) where
  pure a := fun s => .ok (.ok a, s)
  bind m f := fun s =>
    match m.run s with
    | .ok (.ok a, t) => (f a).run t
    | .ok (.error e, t) => .ok (.error e, t)
    | .error x => .error x

/-- End with an error, leaving the state as it is. -/
def fail (e : ε) : Call ς σ ε α := fun s => .ok (.error e, s)

def stop (x : ς) : Call ς σ ε α := fun _ => .error x

def state : Call ς σ ε σ := fun s => .ok (.ok s, s)

/-- Change the state. -/
def update (f : σ → σ) : Call ς σ ε Unit := fun s => .ok (.ok (), f s)

/-- End with the error of `r`, or go on with its value. -/
def lift (r : Except ε α) : Call ς σ ε α := fun s => .ok (r, s)

@[simp] theorem run_pure (a : α) (s : σ) : (pure a : Call ς σ ε α).run s = .ok (.ok a, s) := rfl

@[simp] theorem run_fail (e : ε) (s : σ) : (fail e : Call ς σ ε α).run s = .ok (.error e, s) := rfl

@[simp] theorem run_stop (x : ς) (s : σ) : (stop x : Call ς σ ε α).run s = .error x := rfl

@[simp] theorem run_state (s : σ) : (state : Call ς σ ε σ).run s = .ok (.ok s, s) := rfl

@[simp] theorem run_update (f : σ → σ) (s : σ) :
    (update f : Call ς σ ε Unit).run s = .ok (.ok (), f s) := rfl

@[simp] theorem run_lift (r : Except ε α) (s : σ) :
    (lift r : Call ς σ ε α).run s = .ok (r, s) := rfl

theorem run_bind (m : Call ς σ ε α) (f : α → Call ς σ ε β) (s : σ) :
    (m >>= f).run s = match m.run s with
      | .ok (.ok a, t) => (f a).run t
      | .ok (.error e, t) => .ok (.error e, t)
      | .error x => .error x := rfl

/-- A sequence in a sequence. -/
theorem bind_bind {γ : Type} (m : Call ς σ ε α) (f : α → Call ς σ ε β) (g : β → Call ς σ ε γ) :
    (m >>= f) >>= g = m >>= fun a => f a >>= g := by
  funext s
  show run _ s = run _ s
  rw [run_bind, run_bind, run_bind]
  rcases m.run s with x | ⟨e | a, t⟩ <;> rfl

theorem bind_of_pure (a : α) (f : α → Call ς σ ε β) : pure a >>= f = f a := rfl

/-- A call in a branch is the branch of the calls. -/
theorem run_ite (p : Prop) [Decidable p] (m n : Call ς σ ε α) (s : σ) :
    (if p then m else n).run s = if p then m.run s else n.run s := by
  split <;> rfl

/-! ## Calls on a part of the state -/

section Part

variable {τ : Type}

/-- A call on a part of the state. -/
def zoom (get : σ → τ) (set : τ → σ → σ) (m : Call ς τ ε α) : Call ς σ ε α := fun s =>
  (m.run (get s)).map fun r => (r.1, set r.2 s)

/-- A call on a part leaves the rest. -/
theorem run_zoom_eq_ok {get : σ → τ} {set : τ → σ → σ} {m : Call ς τ ε α} {s t : σ}
    {r : Except ε α} :
    (m.zoom get set).run s = .ok (r, t) ↔ ∃ u, m.run (get s) = .ok (r, u) ∧ t = set u s := by
  show (m.run (get s)).map (fun r => (r.1, set r.2 s)) = .ok (r, t) ↔ _
  cases hm : m.run (get s) with
  | error x =>
    refine ⟨fun h => ?_, fun ⟨_, h, _⟩ => ?_⟩
    · cases h
    · cases h
  | ok v =>
    constructor
    · intro h
      obtain ⟨rfl, rfl⟩ := mk.inj (ok.inj h)
      exact ⟨v.2, rfl, rfl⟩
    · rintro ⟨u, h, rfl⟩
      cases h
      rfl

end Part

/-- A call whose error stops the program. -/
def expect (x : ς) (m : Call ς σ ε α) : Call ς σ ε α := fun s =>
  match m.run s with
  | .ok (.error _, _) => .error x
  | r => r

/-- A sequence ends with the error of its first part, or as its second
part does. -/
theorem run_bind_eq_ok {t : σ} {r : Except ε β} : (m >>= f).run s = .ok (r, t) ↔
      (∃ e, m.run s = .ok (.error e, t) ∧ r = .error e) ∨
        ∃ a u, m.run s = .ok (.ok a, u) ∧ (f a).run u = .ok (r, t) := by
  rw [run_bind]
  cases hm : m.run s with
  | error x => simp
  | ok v =>
    obtain ⟨v, u⟩ := v
    cases v with
    | error e =>
      simp only [ok.injEq, mk.injEq, error.injEq, reduceCtorEq, false_and, exists_false, or_false]
      constructor
      · rintro ⟨rfl, rfl⟩
        exact ⟨e, ⟨rfl, rfl⟩, rfl⟩
      · rintro ⟨e', ⟨rfl, rfl⟩, rfl⟩
        exact ⟨rfl, rfl⟩
    | ok a =>
      simp only [ok.injEq, mk.injEq, reduceCtorEq, false_and, exists_false, false_or]
      constructor
      · intro h
        exact ⟨a, u, ⟨rfl, rfl⟩, h⟩
      · rintro ⟨a', u', ⟨rfl, rfl⟩, h⟩
        exact h

/-- A sequence that ends with a fixed result ends in the state its first
part ends in. -/
theorem exists_run_of_bind_pure {t : σ} {b : β} {r : Except ε β}
    (h : (m >>= fun _ => pure b).run s = .ok (r, t)) : ∃ r', m.run s = .ok (r', t) := by
  rcases run_bind_eq_ok.1 h with ⟨e, hm, -⟩ | ⟨a, u, hm, hpure⟩
  · exact ⟨_, hm⟩
  · cases hpure
    exact ⟨_, hm⟩

/-! ## Ending -/

/-- The call ends from a state, with a value or an error. -/
def Ends (m : Call ς σ ε α) (s : σ) : Prop := ∃ r, m.run s = .ok r

theorem ends_of_run {r : Except ε α × σ} (h : m.run s = .ok r) : m.Ends s := ⟨r, h⟩

theorem not_ends_of_run (h : m.run s = .error x) : ¬ m.Ends s := by
  rintro ⟨r, hr⟩
  rw [h] at hr
  cases hr

/-- The value a sequence gives back last does not matter. -/
theorem ends_bind_pure {g : α → β} : (m >>= fun a => pure (g a)).Ends s ↔ m.Ends s := by
  unfold Ends
  rw [run_bind]
  rcases m.run s with x | ⟨e | a, t⟩ <;> simp

/-- What follows may be replaced by what ends alike. -/
theorem ends_bind_congr {γ : Type} {g : α → Call ς σ ε γ}
    (h : ∀ a t, (f a).Ends t ↔ (g a).Ends t) : (m >>= f).Ends s ↔ (m >>= g).Ends s := by
  unfold Ends
  rw [run_bind, run_bind]
  rcases m.run s with x | ⟨e | a, t⟩
  · simp
  · simp
  · exact h a t

/-- A sequence whose first part is a result goes on with its value. -/
theorem ends_lift_bind {r : Except ε α} :
    (lift r >>= f).Ends s ↔ ∀ a, r = .ok a → (f a).Ends s := by
  unfold Ends
  rw [run_bind, run_lift]
  cases r <;> simp

/-! ## Pre- and postconditions -/

/-- **A triple.** From every state of `P` in which the call ends, it ends
with a value and a state of `Q`, or with an error in a state of `E`. -/
def Triple (P : σ → Prop) (m : Call ς σ ε α) (Q : α → σ → Prop) (E : σ → Prop) : Prop :=
  ∀ ⦃s : σ⦄ ⦃r : Except ε α⦄ ⦃t : σ⦄, P s → m.run s = .ok (r, t) →
    match r with
    | .ok a => Q a t
    | .error _ => E t

/-- A call keeps an invariant, whichever way it ends. -/
abbrev Keeps (I : σ → Prop) (m : Call ς σ ε α) : Prop := m.Triple I (fun _ => I) I

variable {P P' : σ → Prop} {Q Q' : α → σ → Prop} {R : β → σ → Prop} {E : σ → Prop} {r : Except ε α}

theorem triple_pure {a : α} (h : ∀ s, P s → Q a s) : (pure a : Call ς σ ε α).Triple P Q E := by
  intro s r t hs hr
  cases hr
  exact h s hs

theorem triple_fail {e : ε} (h : ∀ s, P s → E s) : (fail e : Call ς σ ε α).Triple P Q E := by
  intro s r t hs hr
  cases hr
  exact h s hs

theorem triple_stop : (stop x : Call ς σ ε α).Triple P Q E := by
  nofun

theorem triple_lift (hok : ∀ a, r = .ok a → ∀ s, P s → Q a s) (herr : ∀ s, P s → E s) :
    (lift r : Call ς σ ε α).Triple P Q E := by
  intro s r' t hs hr
  cases hr
  cases r with
  | ok a => exact hok a rfl s hs
  | error e => exact herr s hs

theorem triple_update {f : σ → σ} {Q : Unit → σ → Prop} (h : ∀ s, P s → Q () (f s)) :
    (update f : Call ς σ ε Unit).Triple P Q E := by
  intro s r t hs hr
  cases hr
  exact h s hs

/-- In sequence, through the condition between the two parts. -/
theorem triple_bind (hm : m.Triple P Q E) (hf : ∀ a, (f a).Triple (Q a) R E) :
    (m >>= f).Triple P R E := by
  intro s r t hs h
  rw [run_bind] at h
  split at h
  next a u hu => exact hf a (hm hs hu) h
  next e u hu =>
    cases h
    exact hm hs hu
  next x hx => cases h

/-- A change, and what follows it. -/
theorem triple_update_bind {f : σ → σ} {g : Unit → Call ς σ ε β} {Q : σ → Prop}
    (h : ∀ s, P s → Q (f s)) (hg : (g ()).Triple Q R E) : (update f >>= g).Triple P R E :=
  triple_bind (triple_update h) fun _ => hg

theorem triple_update_pure {f : σ → σ} {b : β} {Q : σ → Prop} (h : ∀ s, P s → Q (f s)) :
    (update f >>= fun _ => (pure b : Call ς σ ε β)).Triple P (fun _ => Q) E :=
  triple_update_bind h (triple_pure fun _ hs => hs)

/-- Reading the state first: what follows knows the state it runs in. -/
theorem triple_state_bind {f : σ → Call ς σ ε β} (hf : ∀ s, P s → (f s).Triple (· = s) R E) :
    (state >>= f).Triple P R E := by
  intro s r t hs h
  exact hf s hs rfl h

/-- What follows a result that was not computed by the call knows it. -/
theorem triple_lift_bind (herr : ∀ s, P s → E s) (hf : ∀ a, r = .ok a → (f a).Triple P R E) :
    (lift r >>= f).Triple P R E := by
  cases r with
  | ok a => exact fun s r t hs h => hf a rfl hs h
  | error e =>
    intro s r t hs hr
    cases hr
    exact herr s hs

/-- Nothing follows an error. -/
theorem triple_fail_bind {e : ε} (h : ∀ s, P s → E s) : (fail e >>= f).Triple P R E := by
  intro s r t hs hr
  cases hr
  exact h s hs

/-- Nothing follows a stop. -/
theorem triple_stop_bind : (stop x >>= f).Triple P R E := by
  nofun

variable {p : Prop}

theorem triple_ite [Decidable p] {n : Call ς σ ε α} (hm : p → m.Triple P Q E)
    (hn : ¬ p → n.Triple P Q E) : (if p then m else n).Triple P Q E := by
  split
  next h => exact hm h
  next h => exact hn h

/-- A stronger precondition and weaker postconditions. -/
theorem Triple.weaken {E' : σ → Prop} (h : m.Triple P Q E) (hP : ∀ s, P' s → P s)
    (hQ : ∀ a s, Q a s → Q' a s) (hE : ∀ s, E s → E' s) : m.Triple P' Q' E' := by
  intro s r t hs hr
  have := h (hP s hs) hr
  cases r with
  | ok a => exact hQ a t this
  | error e => exact hE t this

/-- A fact that does not depend on the state may be used at once. -/
theorem triple_of_fact (h : p → m.Triple P Q E) : m.Triple (fun s => P s ∧ p) Q E := by
  intro s r t hs hr
  exact h hs.2 hs.1 hr

/-- Where the error of a call stops the program, only its values count. -/
theorem triple_expect (h : m.Triple P Q E) : (m.expect x).Triple P Q E := by
  intro s r t hs hr
  refine h hs ?_
  unfold expect at hr
  simp only [run] at hr ⊢
  split at hr
  next => cases hr
  next => exact hr

/-! ## Invariants -/

section Keeps

variable {I : σ → Prop}

theorem keeps_pure (a : α) : (pure a : Call ς σ ε α).Keeps I := triple_pure fun _ h => h

theorem keeps_fail (e : ε) : (fail e : Call ς σ ε α).Keeps I := triple_fail fun _ h => h

theorem keeps_stop (x : ς) : (stop x : Call ς σ ε α).Keeps I := triple_stop

theorem keeps_lift (r : Except ε α) : (lift r : Call ς σ ε α).Keeps I :=
  triple_lift (fun _ _ _ h => h) fun _ h => h

theorem keeps_bind {m : Call ς σ ε α} {f : α → Call ς σ ε β} (hm : m.Keeps I)
    (hf : ∀ a, (f a).Keeps I) : (m >>= f).Keeps I := triple_bind hm hf

/-- Reading the state does not change it. -/
theorem keeps_state_bind {f : σ → Call ς σ ε β} (hf : ∀ s, (f s).Keeps I) : (state >>= f).Keeps I :=
  triple_bind (Q := fun _ => I) (fun _ _ _ hs h => by cases h; exact hs) hf

theorem keeps_ite [Decidable p] {m n : Call ς σ ε α} (hm : m.Keeps I)
    (hn : n.Keeps I) : (if p then m else n).Keeps I := triple_ite (fun _ => hm) fun _ => hn

end Keeps

end Call

end Archives
