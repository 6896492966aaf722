import Archives.Common.Except
import Mathlib.Data.Finset.Insert
/-!
# Marking what can be reached

A traversal marks the nodes of a graph as it meets them. `Grows` is what
any part of it does to the marks: it only adds, and whatever it adds has
its successors marked when that part is over. The parts compose, and a
traversal that starts without marks ends with a closed set. Pointer
chains, the lists a program walks by following one field, stand at the
end: a walk comes back exactly when the chain ends.
-/

namespace Archives.Marking

variable {α : Type} {edge : α → α → Prop} {P : α → Prop}

/-- **What a traversal does to the marks.** It keeps those there were;
the successors of each new mark are marked as well, and each new mark
satisfies `P`. -/
structure Grows (edge : α → α → Prop) (P : α → Prop) (m m' : Finset α) : Prop where
  subset : m ⊆ m'
  closed : ∀ i ∈ m', i ∉ m → ∀ j, edge i j → j ∈ m'
  fresh : ∀ i ∈ m', i ∉ m → P i

namespace Grows

variable {m m' m'' : Finset α} {i : α}

theorem refl (m : Finset α) : Grows edge P m m :=
  ⟨fun _ h => h, fun _ h hn => absurd h hn, fun _ h hn => absurd h hn⟩

theorem trans (h : Grows edge P m m') (h' : Grows edge P m' m'') : Grows edge P m m'' := by
  refine ⟨fun i hi => h'.subset (h.subset hi), ?_, ?_⟩
  · intro i hi hn j hij
    by_cases hm : i ∈ m'
    · exact h'.subset (h.closed i hm hn j hij)
    · exact h'.closed i hi hm j hij
  · intro i hi hn
    by_cases hm : i ∈ m'
    · exact h.fresh i hm hn
    · exact h'.fresh i hi hm

/-- Marking a node and then going on is one traversal, if in the end all
successors of the node are marked. -/
theorem visit [DecidableEq α] (h : Grows edge P (insert i m) m') (hP : P i)
    (hi : ∀ j, edge i j → j ∈ m') :
    Grows edge P m m' := by
  refine ⟨fun j hj => h.subset (Finset.mem_insert_of_mem hj), ?_, ?_⟩
  · intro j hj hn k hjk
    by_cases hji : j = i
    · exact hi k (hji ▸ hjk)
    · exact h.closed j hj (by simp [hji, hn]) k hjk
  · intro j hj hn
    by_cases hji : j = i
    · exact hji ▸ hP
    · exact h.fresh j hj (by simp [hji, hn])

/-- The node a traversal starts with is marked. -/
theorem mem [DecidableEq α] (h : Grows edge P (insert i m) m') : i ∈ m' :=
  h.subset (Finset.mem_insert_self i m)

/-- **A loop of traversals is a traversal**, after which every task is
done, if being done is never undone by more marks. -/
theorem foldlM {ε τ : Type} {step : Finset α → τ → Except ε (Finset α)} (Done : τ → Finset α → Prop)
    (hmono : ∀ t m m', Done t m → m ⊆ m' → Done t m') {ts : List τ}
    (hstep : ∀ t ∈ ts, ∀ m m', step m t = .ok m' → Grows edge P m m' ∧ Done t m') :
    ∀ {m m'}, ts.foldlM step m = .ok m' → Grows edge P m m' ∧ ∀ t ∈ ts, Done t m' := by
  induction ts with
  | nil =>
    intro m m' h
    cases h
    exact ⟨refl m, by simp⟩
  | cons t ts ih =>
    intro m m' h
    obtain ⟨m₁, h₁, h₂⟩ := bind_eq_ok.1 h
    obtain ⟨hg₁, hd₁⟩ := hstep t (by simp) m m₁ h₁
    obtain ⟨hg₂, hd₂⟩ := ih (fun t ht => hstep t (by simp [ht])) h₂
    exact ⟨hg₁.trans hg₂, List.forall_mem_cons.2 ⟨hmono _ _ _ hd₁ hg₂.subset, hd₂⟩⟩

end Grows

/-! ## Chains -/

/-- The node lies on the chain that starts there. -/
inductive OnChain (next : α → Option α) : Option α → α → Prop
  | head (a : α) : OnChain next (some a) a
  | tail {a b : α} : OnChain next (next a) b → OnChain next (some a) b

/-- **The chain ends**: following it comes to the null pointer. -/
inductive Ends (next : α → Option α) : Option α → Prop
  | null : Ends next none
  | node {a : α} : Ends next (next a) → Ends next (some a)

end Archives.Marking
