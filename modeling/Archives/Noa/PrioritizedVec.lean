import Archives.Common.Machine
import Mathlib.Algebra.Order.Group.Multiset
import Mathlib.Data.List.Sort
/-!
# Noa — the values of highest priority

`common/prioritized_vec.rs`: a vector that keeps the values of highest
priority, in a heap with the lowest one on top. An insertion or a merge
removes one value at most, so a merge that brings in two too many leaves
the vector over its capacity.
-/

namespace Archives.Noa

open List

/-- **`BinaryHeap`** of the standard library, with what its documentation
promises. Which of several greatest entries `pop` removes is left open. -/
structure BinaryHeap (E : Type) (le : E → E → Prop) where
  Heap : Type
  entries : Heap → Multiset E
  new : Heap
  push : Heap → E → Heap
  extend : Heap → Heap → Heap
  pop : Heap → Heap
  intoSortedVec : Heap → List E
  entries_new : entries new = 0
  entries_push : ∀ h e, entries (push h e) = entries h + {e}
  entries_extend : ∀ h h', entries (extend h h') = entries h + entries h'
  entries_pop : ∀ h, entries h ≠ 0 →
    ∃ e, entries h = e ::ₘ entries (pop h) ∧ ∀ e' ∈ entries h, le e' e
  coe_intoSortedVec : ∀ h, (intoSortedVec h : Multiset E) = entries h
  pairwise_intoSortedVec : ∀ h, (intoSortedVec h).Pairwise le

structure Entry (P T : Type) where
  priority : P
  value : T
  deriving DecidableEq

variable {P T : Type} [LinearOrder P]

/-- `Ord for Entry`, the other way round. -/
def Entry.le (a b : Entry P T) : Prop := b.priority ≤ a.priority

variable {B : BinaryHeap (Entry P T) Entry.le}

structure PrioritizedVec (B : BinaryHeap (Entry P T) Entry.le) where
  heap : B.Heap
  maxCapacity : Nat

namespace PrioritizedVec

def removeToFitCapacity (v : PrioritizedVec B) : PrioritizedVec B :=
  if v.maxCapacity < (B.entries v.heap).card then { v with heap := B.pop v.heap } else v

def insert (v : PrioritizedVec B) (priority : P) (value : T) : PrioritizedVec B :=
  { v with heap := B.push v.heap ⟨priority, value⟩ }.removeToFitCapacity

def extend (v other : PrioritizedVec B) : PrioritizedVec B :=
  { v with heap := B.extend v.heap other.heap }.removeToFitCapacity

def intoSortedVec (v : PrioritizedVec B) : List T := (B.intoSortedVec v.heap).map Entry.value

/-- The values are listed in descending priority. -/
def Listed (v : PrioritizedVec B) : Prop :=
  ∃ l : List (Entry P T), (l : Multiset (Entry P T)) = B.entries v.heap ∧
    l.map Entry.value = v.intoSortedVec ∧ l.Pairwise fun a b => b.priority ≤ a.priority

theorem listed (v : PrioritizedVec B) : v.Listed :=
  ⟨_, B.coe_intoSortedVec v.heap, rfl, B.pairwise_intoSortedVec v.heap⟩

/-- What is done to a vector. -/
inductive Op (B : BinaryHeap (Entry P T) Entry.le)
  | insert (priority : P) (value : T)
  | extend (other : PrioritizedVec B)

/-- The entries an operation brings in. -/
def Op.entries : Op B → Multiset (Entry P T)
  | .insert priority value => {⟨priority, value⟩}
  | .extend other => B.entries other.heap

/-- A vector and all entries brought in so far. -/
structure Filled (B : BinaryHeap (Entry P T) Entry.le) where
  vec : PrioritizedVec B
  given : Multiset (Entry P T)

namespace Filled

/-- `PrioritizedVec::with_max_capacity`. -/
def start (n : Nat) : Filled B := ⟨⟨B.new, n⟩, 0⟩

def perform (x : Filled B) (op : Op B) : Filled B where
  vec := match op with
    | .insert priority value => x.vec.insert priority value
    | .extend other => x.vec.extend other
  given := x.given + op.entries

/-- Operation after operation. -/
def machine : Machine (Filled B) (Op B) where
  step x op := some (x.perform op)

/-- **The vector holds the best.** It has at most `n` entries; what was
dropped has no higher priority, and nothing was dropped unless there are
`n` others; and the values are listed in descending priority. -/
def Best (n : Nat) (x : Filled B) : Prop :=
  (B.entries x.vec.heap).card ≤ n ∧
  (∃ dropped, x.given = B.entries x.vec.heap + dropped ∧
    (∀ d ∈ dropped, (B.entries x.vec.heap).card = n ∧
      ∀ e ∈ B.entries x.vec.heap, d.priority ≤ e.priority)) ∧
  x.vec.Listed

/-- The operation takes the vector over its capacity by one at most. -/
def Fits (x : Filled B) (op : Op B) : Prop :=
  (B.entries x.vec.heap + op.entries).card ≤ x.vec.maxCapacity + 1

variable {x : Filled B} {n : Nat}

/-- **What an operation does**: it brings in its entries, and an entry of
lowest priority goes if there are too many. -/
theorem perform_cases (x : Filled B) (op : Op B) : let all := B.entries x.vec.heap + op.entries
    let v := (x.perform op).vec
    v.maxCapacity = x.vec.maxCapacity ∧
      (all.card ≤ x.vec.maxCapacity ∧ B.entries v.heap = all ∨
        x.vec.maxCapacity < all.card ∧ ∃ e, all = e ::ₘ B.entries v.heap ∧
          ∀ e' ∈ all, e.priority ≤ e'.priority) := by
  intro all v
  obtain ⟨h, hall, hv⟩ : ∃ h, B.entries h = all ∧
      v = { x.vec with heap := h }.removeToFitCapacity := by
    cases op with
    | insert priority value => exact ⟨_, B.entries_push .., rfl⟩
    | extend other => exact ⟨_, B.entries_extend .., rfl⟩
  rw [hv, removeToFitCapacity, ← hall]
  split
  · rename_i hover
    refine ⟨rfl, .inr ⟨hover, B.entries_pop h fun hnone => ?_⟩⟩
    simp [hnone] at hover
  · rename_i hover
    exact ⟨rfl, .inl ⟨Nat.not_lt.1 hover, rfl⟩⟩

/-- **The next operation keeps the best if and only if it fits.** -/
theorem best_perform_iff (hcap : x.vec.maxCapacity = n) (h : x.Best n) (op : Op B) :
    (x.perform op).Best n ↔ x.Fits op := by
  obtain ⟨hle, ⟨dropped, hgiven, hlow⟩, -⟩ := h
  obtain ⟨-, hcases⟩ := perform_cases x op
  rw [Fits, hcap]
  rw [hcap] at hcases
  rcases hcases with ⟨hroom, heq⟩ | ⟨hover, e, heq, hmin⟩
  · refine iff_of_true ⟨heq ▸ hroom, ⟨dropped, ?_, fun d hd => ?_⟩, listed _⟩
      (Nat.le_succ_of_le hroom)
    · rw [heq, add_right_comm, ← hgiven]
      rfl
    · -- the vector was full, so nothing is brought in
      obtain ⟨hfull, hlow⟩ := hlow d hd
      rw [Multiset.card_add, hfull] at hroom
      obtain hnone := Multiset.card_eq_zero.1 (by omega : op.entries.card = 0)
      rw [heq, hnone, add_zero]
      exact ⟨hfull, hlow⟩
  · have hcard := congrArg Multiset.card heq
    rw [Multiset.card_cons] at hcard
    constructor
    · rintro ⟨hfit, -⟩
      omega
    · intro hfit
      refine ⟨by omega, ⟨e ::ₘ dropped, ?_, fun d hd => ⟨by omega, fun k hk => ?_⟩⟩, listed _⟩
      · rw [Multiset.add_cons, ← Multiset.cons_add, ← heq, add_right_comm, ← hgiven]
        rfl
      have hek : e.priority ≤ k.priority := hmin k (heq ▸ Multiset.mem_cons_of_mem hk)
      rcases Multiset.mem_cons.1 hd with rfl | hd
      · exact hek
      -- the vector was full, so one entry is brought in
      obtain ⟨hfull, hlow⟩ := hlow d hd
      rw [Multiset.card_add, hfull] at hover hfit
      obtain ⟨a, ha⟩ := Multiset.card_eq_one.1 (by omega : op.entries.card = 1)
      rw [ha, Multiset.add_comm, Multiset.singleton_add] at heq
      rcases Multiset.cons_eq_cons.1 heq with ⟨-, hsame⟩ | ⟨-, rest, hheap, -⟩
      · exact hlow k (hsame ▸ hk)
      · exact (hlow e (hheap ▸ Multiset.mem_cons_self e rest)).trans hek

/-- **The vector holds the best as long as the operations fit**, and no
longer. -/
theorem best_of_fitting (h : machine.ReachUnder Fits (start n) x) :
    x.Best n ∧ ∀ op, (x.perform op).Best n ↔ x.Fits op := by
  obtain ⟨hcap, hbest⟩ : x.vec.maxCapacity = n ∧ x.Best n := by
    refine h.invariant (I := fun x => x.vec.maxCapacity = n ∧ x.Best n) ⟨rfl, ?_⟩ ?_
    · refine ⟨?_, ⟨0, ?_, nofun⟩, listed _⟩ <;> simp [start, B.entries_new]
    · rintro x y op ⟨hcap, hbest⟩ hfits hstep
      cases hstep
      exact ⟨(perform_cases x op).1.trans hcap, (best_perform_iff hcap hbest op).2 hfits⟩
  exact ⟨hbest, best_perform_iff hcap hbest⟩

end Filled

end PrioritizedVec

/-! ## A heap that is a list -/

instance : Std.Total (Entry.le (P := P) (T := T)) := ⟨fun a b => le_total b.priority a.priority⟩

instance : IsTrans (Entry P T) Entry.le := ⟨fun _ _ _ hab hbc => le_trans hbc hab⟩

instance : DecidableRel (Entry.le (P := P) (T := T)) := fun a b =>
  inferInstanceAs (Decidable (b.priority ≤ a.priority))

/-- The heap that is a list, sorted when an entry is taken. -/
def listHeap : BinaryHeap (Entry P T) Entry.le where
  Heap := List (Entry P T)
  entries h := h
  new := []
  push h e := h ++ [e]
  extend h h' := h ++ h'
  pop h := (h.insertionSort Entry.le).dropLast
  intoSortedVec h := h.insertionSort Entry.le
  entries_new := rfl
  entries_push _ _ := rfl
  entries_extend _ _ := rfl
  entries_pop h hne := by
    have hperm := h.perm_insertionSort Entry.le
    have hsorted := h.pairwise_insertionSort Entry.le
    obtain hnil | ⟨l, e, heq⟩ := (h.insertionSort Entry.le).eq_nil_or_concat'
    · exact absurd ((Multiset.coe_eq_zero h).2 (nil_perm.1 (hnil ▸ hperm))) hne
    · rw [heq] at hperm hsorted ⊢
      rw [dropLast_concat]
      refine ⟨e, Multiset.coe_eq_coe.2 (hperm.symm.trans (perm_append_singleton e l)), ?_⟩
      intro e' he'
      rcases mem_append.1 (hperm.mem_iff.2 he') with hl | hlast
      · exact (pairwise_append.1 hsorted).2.2 e' hl e (mem_singleton_self e)
      · exact (mem_singleton.1 hlast).symm ▸ le_refl e.priority
  coe_intoSortedVec h := Multiset.coe_eq_coe.2 (h.perm_insertionSort Entry.le)
  pairwise_intoSortedVec h := h.pairwise_insertionSort Entry.le

namespace PrioritizedVec.Filled

/-- Two values in turn, of which one has room. -/
theorem best_of_two_values :
    let x : Filled listHeap := ((start 1).perform (.insert 1 'a')).perform (.insert 2 'b')
    x.vec.intoSortedVec = ['b'] ∧ x.Best 1 := by
  refine ⟨by decide, (best_of_fitting (.tail (.tail .refl ?_ rfl) ?_ rfl)).1⟩
  · show _ ≤ _
    decide
  · show _ ≤ _
    decide

/-- **A merge brings in two at once.** A vector of capacity one has one
value too many after it. -/
theorem not_best_of_merge : ∃ x : Filled (listHeap (P := Nat) (T := Char)),
    machine.Reach (start 1) x ∧ x.vec.intoSortedVec = ['c', 'b'] ∧ ¬ x.Best 1 := by
  let other : Filled (listHeap (P := Nat)) :=
    ((start 2).perform (.insert 2 'b')).perform (.insert 3 'c')
  refine ⟨((start 1).perform (.insert 1 'a')).perform (.extend other.vec), ?_, by decide, ?_⟩
  · exact .tail (.tail .refl trivial rfl) trivial rfl
  · rintro ⟨hcard, -⟩
    exact absurd hcard (by decide)

end PrioritizedVec.Filled

end Archives.Noa
