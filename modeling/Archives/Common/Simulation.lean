import Archives.Common.Call
/-!
# Calls that match

Two calls, on states of their own and with errors of their own, that end
the same way: with the same value in matching states, or with matching
errors. The second call may come into a state from which the first is
known to be lost, one it cannot be followed from; then the first must not
come back at all, and nothing the second does afterwards may lead out of
such states. The rules follow the ways a call is built, so that two calls
built alike match as soon as their parts do.
-/

namespace Archives.Call

variable {ς σ ε ς' σ' ε' α β τ : Type}

/-- Run a call, and go on with the handler if it ends with an error. -/
def handle (m : Call ς σ ε α) (h : ε → Call ς σ ε α) : Call ς σ ε α := fun s =>
  match m.run s with
  | .ok (.error e, t) => (h e).run t
  | r => r

/-- Make a call for each element, and collect the values. -/
def mapEach (f : τ → Call ς σ ε α) : List τ → Call ς σ ε (List α)
  | [] => pure []
  | t :: ts => do
    let a ← f t
    let as ← mapEach f ts
    return a :: as

/-- Make a call for each element. -/
def forEach (f : τ → Call ς σ ε α) : List τ → Call ς σ ε Unit
  | [] => pure ()
  | t :: ts => do
    let _ ← f t
    forEach f ts

theorem run_handle (m : Call ς σ ε α) (h : ε → Call ς σ ε α) (s : σ) :
    (m.handle h).run s = match m.run s with
      | .ok (.error e, t) => (h e).run t
      | r => r := rfl

/-- A run that cannot be followed: it ends in a state of `D`, or not at
all. -/
def Lost (D : σ → Prop) : Except ς (Except ε α × σ) → Prop
  | .ok (_, s) => D s
  | .error _ => True

/-- **The two runs end the same way**, in states that match by `J` or with
errors that match by `X`; or the first does not come back and the second
is lost. -/
inductive Matches (J : σ → σ' → Prop) (X : ε → σ → ε' → σ' → Prop) (D : σ' → Prop) :
    Except ς (Except ε α × σ) → Except ς' (Except ε' α × σ') → Prop
  | value {a : α} {s : σ} {s' : σ'} : J s s' → Matches J X D (.ok (.ok a, s)) (.ok (.ok a, s'))
  | error {e : ε} {s : σ} {e' : ε'} {s' : σ'} : X e s e' s' →
      Matches J X D (.ok (.error e, s)) (.ok (.error e', s'))
  | stop {x : ς} {r : Except ς' (Except ε' α × σ')} : Lost D r → Matches J X D (.error x) r

/-- **The two calls match**: their runs from states that match by `I` do,
and the second never leaves the states of `D`. -/
structure Simulates (I J : σ → σ' → Prop) (X : ε → σ → ε' → σ' → Prop) (D : σ' → Prop)
    (m : Call ς σ ε α) (m' : Call ς' σ' ε' α) : Prop where
  run : ∀ s s', I s s' → Matches J X D (m.run s) (m'.run s')
  lost : ∀ s', D s' → Lost D (m'.run s')

variable {I J K : σ → σ' → Prop} {X Y : ε → σ → ε' → σ' → Prop} {D : σ' → Prop}

theorem Matches.weaken {r : Except ς (Except ε α × σ)} {r' : Except ς' (Except ε' α × σ')}
    (h : Matches J X D r r') (hJ : ∀ s s', J s s' → K s s')
    (hX : ∀ e s e' s', X e s e' s' → Y e s e' s') :
    Matches K Y D r r' := by
  cases h with
  | value h => exact .value (hJ _ _ h)
  | error h => exact .error (hX _ _ _ _ h)
  | stop h => exact .stop h

theorem Matches.eq_of_ok {D : σ → Prop} {r : Except ε α × σ} {r' : Except ς (Except ε α × σ)}
    (h : Matches Eq (fun e s e' s' => e = e' ∧ s = s') D (.ok r : Except ς (Except ε α × σ)) r') :
    r' = .ok r := by
  cases h with
  | value h => rw [h]
  | error h => rw [h.1, h.2]

namespace Simulates

variable {m : Call ς σ ε α} {m' : Call ς' σ' ε' α}

theorem weaken {I' : σ → σ' → Prop} (h : Simulates I J X D m m') (hI : ∀ s s', I' s s' → I s s')
    (hJ : ∀ s s', J s s' → K s s') (hX : ∀ e s e' s', X e s e' s' → Y e s e' s') :
    Simulates I' K Y D m m' :=
  ⟨fun s s' hs => (h.run s s' (hI s s' hs)).weaken hJ hX, h.lost⟩

theorem pure (a : α) :
    Simulates I I X D (Pure.pure a : Call ς σ ε α) (Pure.pure a : Call ς' σ' ε' α) :=
  ⟨fun _ _ h => .value h, fun _ h => h⟩

theorem stop (x : ς) (x' : ς') :
    Simulates I J X D (.stop x : Call ς σ ε α) (.stop x' : Call ς' σ' ε' α) :=
  ⟨fun _ _ _ => .stop trivial, fun _ _ => trivial⟩

theorem fail {e : ε} {e' : ε'} (h : ∀ s s', I s s' → X e s e' s') :
    Simulates I J X D (.fail e : Call ς σ ε α) (.fail e' : Call ς' σ' ε' α) :=
  ⟨fun s s' hs => .error (h s s' hs), fun _ hs => hs⟩

theorem lift {r : Except ε α} {X : ε → σ → ε → σ' → Prop} (h : ∀ e s s', I s s' → X e s e s') :
    Simulates I I X D (.lift r : Call ς σ ε α) (.lift r : Call ς' σ' ε α) := by
  refine ⟨fun s s' hs => ?_, fun _ hs => hs⟩
  cases r with
  | ok a => exact .value hs
  | error e => exact .error (h e s s' hs)

theorem update {f : σ → σ} {f' : σ' → σ'} (h : ∀ s s', I s s' → J (f s) (f' s'))
    (hD : ∀ s', D s' → D (f' s')) :
    Simulates I J X D (.update f : Call ς σ ε Unit) (.update f' : Call ς' σ' ε' Unit) :=
  ⟨fun s s' hs => .value (h s s' hs), fun s' hs => hD s' hs⟩

/-- A call matches itself. -/
theorem refl {D : σ → Prop} (hD : ∀ s, D s) (m : Call ς σ ε α) :
    Simulates Eq Eq (fun e s e' s' => e = e' ∧ s = s') D m m := by
  refine ⟨?_, fun s _ => ?_⟩
  · rintro s _ rfl
    cases m.run s with
    | error x => exact .stop trivial
    | ok r =>
      obtain ⟨r, t⟩ := r
      cases r with
      | ok a => exact .value rfl
      | error e => exact .error ⟨rfl, rfl⟩
  · cases m.run s with
    | error x => trivial
    | ok r => exact hD r.2

/-- Where every state may be lost, anything follows a call that stops. -/
theorem stop_left (hD : ∀ s, D s) (x : ς) (m' : Call ς' σ' ε' α) :
    Simulates I J X D (.stop x : Call ς σ ε α) m' := by
  have hlost : ∀ r : Except ς' (Except ε' α × σ'), Lost D r := by
    intro r
    cases r with
    | error x => trivial
    | ok r => exact hD r.2
  exact ⟨fun _ s' _ => .stop (hlost (m'.run s')), fun s' _ => hlost (m'.run s')⟩

theorem lost_bind {f' : α → Call ς' σ' ε' β} {s' : σ'} (hm : Lost D (m'.run s'))
    (hf : ∀ a t, D t → Lost D ((f' a).run t)) : Lost D ((m' >>= f').run s') := by
  rw [run_bind]
  cases hr : m'.run s' with
  | error x => trivial
  | ok r =>
    obtain ⟨r, t⟩ := r
    rw [hr] at hm
    cases r with
    | ok a => exact hf a t hm
    | error e => exact hm

/-- In sequence. -/
theorem bind {f : α → Call ς σ ε β} {f' : α → Call ς' σ' ε' β} (hm : Simulates I J X D m m')
    (hf : ∀ a, Simulates J K X D (f a) (f' a)) : Simulates I K X D (m >>= f) (m' >>= f') := by
  refine ⟨fun s s' hs => ?_, fun s' hs => lost_bind (hm.lost s' hs) fun a => (hf a).lost⟩
  have h := hm.run s s' hs
  generalize hr : m.run s = r at h
  generalize hr' : m'.run s' = r' at h
  cases h with
  | @value a t t' ht =>
    rw [run_bind, run_bind, hr, hr']
    exact (hf a).run t t' ht
  | error he =>
    rw [run_bind, run_bind, hr, hr']
    exact .error he
  | stop hlost =>
    rw [run_bind, hr]
    exact .stop (lost_bind (hr' ▸ hlost) fun a => (hf a).lost)

/-- A step that only the first call takes. -/
theorem left_step {m : Call ς σ ε β} {f : β → Call ς σ ε α} {b : β}
    (hm : ∀ s s', I s s' → ∃ t, m.run s = .ok (.ok b, t) ∧ J t s') (hf : Simulates J K X D (f b) m')
    : Simulates I K X D (m >>= f) m' := by
  refine ⟨fun s s' hs => ?_, hf.lost⟩
  obtain ⟨t, ht, hJ⟩ := hm s s' hs
  rw [run_bind, ht]
  exact hf.run t s' hJ

theorem ite {p : Prop} [Decidable p] {n : Call ς σ ε α} {n' : Call ς' σ' ε' α}
    (hm : Simulates I J X D m m') (hn : Simulates I J X D n n') :
    Simulates I J X D (if p then m else n) (if p then m' else n') := by
  split
  · exact hm
  · exact hn

theorem lost_handle {h' : ε' → Call ς' σ' ε' α} {s' : σ'} (hm : Lost D (m'.run s'))
    (hh : ∀ e t, D t → Lost D ((h' e).run t)) : Lost D ((m'.handle h').run s') := by
  rw [run_handle]
  cases hr : m'.run s' with
  | error x => trivial
  | ok r =>
    obtain ⟨r, t⟩ := r
    rw [hr] at hm
    cases r with
    | ok a => exact hm
    | error e => exact hh e t hm

/-- With handlers that match wherever the errors do. -/
theorem handle {h : ε → Call ς σ ε α} {h' : ε' → Call ς' σ' ε' α} (hm : Simulates I J X D m m')
    (hh : ∀ e s e' s', X e s e' s' → Matches J Y D ((h e).run s) ((h' e').run s'))
    (hD : ∀ e' s', D s' → Lost D ((h' e').run s')) :
    Simulates I J Y D (m.handle h) (m'.handle h') := by
  refine ⟨fun s s' hs => ?_, fun s' hs => lost_handle (hm.lost s' hs) hD⟩
  have hrun := hm.run s s' hs
  generalize hr : m.run s = r at hrun
  generalize hr' : m'.run s' = r' at hrun
  cases hrun with
  | value ht =>
    rw [run_handle, run_handle, hr, hr']
    exact .value ht
  | error he =>
    rw [run_handle, run_handle, hr, hr']
    exact hh _ _ _ _ he
  | stop hlost =>
    rw [run_handle, hr]
    exact .stop (lost_handle (hr' ▸ hlost) hD)

theorem mapEach {f : τ → Call ς σ ε α} {f' : τ → Call ς' σ' ε' α}
    (hf : ∀ t, Simulates I I X D (f t) (f' t)) (ts : List τ) :
    Simulates I I X D (.mapEach f ts) (.mapEach f' ts) := by
  induction ts with
  | nil => exact pure []
  | cons t ts ih => exact (hf t).bind fun a => ih.bind fun as => pure (a :: as)

theorem forEach {f : τ → Call ς σ ε α} {f' : τ → Call ς' σ' ε' α}
    (hf : ∀ t, Simulates I I X D (f t) (f' t)) (ts : List τ) :
    Simulates I I X D (.forEach f ts) (.forEach f' ts) := by
  induction ts with
  | nil => exact pure ()
  | cons t ts ih => exact (hf t).bind fun _ => ih

end Simulates

end Archives.Call
