import Mathlib.Data.Finset.Card
/-!
# A heap of objects

Cell `i` of a heap holds the object at address `i`, or nothing once that
object has been freed. Addresses are handed out in order and never
again, so a pointer that outlives its object reads nothing, and an
access through it is an error of the program and not of the heap.

Each operation has one lemma giving what every address reads afterwards,
and proofs about programs use these and never the list of cells.
-/

namespace Archives

open List

/-- **A heap**: one cell for each address handed out so far. -/
structure Heap (α : Type*) where
  /-- The cells, `none` where the object has been freed. -/
  cells : List (Option α)
deriving DecidableEq, Repr

namespace Heap

variable {α : Type*} {i : ℕ} {h : Heap α} {p : ℕ → α → Bool}

/-- The heap nothing has been allocated in. -/
def empty : Heap α := ⟨[]⟩

/-- The number of addresses handed out. -/
def size (h : Heap α) : ℕ := h.cells.length

/-- The object at an address. -/
def get (h : Heap α) (i : ℕ) : Option α := h.cells[i]?.join

/-- Replaces the object at an address by its image; a freed or unused
address stays as it is. -/
def modify (h : Heap α) (i : ℕ) (f : α → α) : Heap α :=
  ⟨h.cells.modify i (Option.map f)⟩

/-- Frees the object at an address. -/
def free (h : Heap α) (i : ℕ) : Heap α := ⟨h.cells.set i none⟩

/-- Puts a new object at the next address, which is `h.size`. -/
def alloc (h : Heap α) (a : α) : Heap α := ⟨h.cells ++ [some a]⟩

@[simp] theorem size_modify (h : Heap α) (i : ℕ) (f : α → α) : (h.modify i f).size = h.size := by
  simp [size, modify]

@[simp] theorem size_free (h : Heap α) (i : ℕ) : (h.free i).size = h.size := by
  simp [size, free]

@[simp] theorem size_alloc (h : Heap α) (a : α) : (h.alloc a).size = h.size + 1 := by
  simp [size, alloc]

@[simp] theorem get_empty (i : ℕ) : (empty : Heap α).get i = none := by
  simp [get, empty]

/-- What an address reads after a replacement. -/
theorem get_modify (h : Heap α) (i j : ℕ) (f : α → α) :
    (h.modify i f).get j = if i = j then (h.get j).map f else h.get j := by
  simp only [get, modify, getElem?_modify]
  split
  · cases h.cells[j]? <;> simp
  · simp

@[simp] theorem get_modify_self (h : Heap α) (i : ℕ) (f : α → α) :
    (h.modify i f).get i = (h.get i).map f := by
  rw [get_modify, if_pos rfl]

variable {j : ℕ}

theorem get_modify_of_ne (h : Heap α) (f : α → α) (hij : i ≠ j) :
    (h.modify i f).get j = h.get j := by
  rw [get_modify, if_neg hij]

variable {f : α → α}

/-- What is read after a replacement was there before, replaced or not. -/
theorem get_modify_eq_some {b : α} :
    (h.modify i f).get j = some b ↔ ∃ a, h.get j = some a ∧ b = if i = j then f a else a := by
  rw [get_modify]
  split
  · simp [eq_comm]
  · simp

/-- What an address reads after another is freed. -/
theorem get_free (h : Heap α) (i j : ℕ) : (h.free i).get j = if i = j then none else h.get j := by
  simp only [get, free, getElem?_set]
  split
  · split <;> simp
  · rfl

/-- What an address reads after an allocation. -/
theorem get_alloc (h : Heap α) (a : α) (j : ℕ) :
    (h.alloc a).get j = if j = h.size then some a else h.get j := by
  have hsize : h.size = h.cells.length := rfl
  rcases Nat.lt_trichotomy j h.size with hlt | heq | hgt
  · rw [if_neg (by omega), get, alloc, getElem?_append_left (by omega), get]
  · rw [if_pos heq, get, alloc, heq, hsize]
    simp
  · rw [if_neg (by omega), get, alloc, getElem?_eq_none (by simp; omega), get,
      getElem?_eq_none (by omega)]

/-- An address that reads an object has been handed out. -/
theorem lt_size_of_get {a : α} (hi : h.get i = some a) : i < h.size := by
  by_contra hc
  simp [get, getElem?_eq_none (Nat.not_lt.mp hc)] at hi

/-- What is read after an object is freed was there before. -/
theorem get_free_eq_some {a : α} : (h.free i).get j = some a ↔ i ≠ j ∧ h.get j = some a := by
  rw [get_free]
  split <;> simp_all

/-- An allocation keeps what is there. -/
theorem get_alloc_of_get {a b : α} (hj : h.get j = some b) : (h.alloc a).get j = some b := by
  rw [get_alloc, if_neg (lt_size_of_get hj).ne, hj]

/-- The next address reads nothing yet. -/
@[simp] theorem get_size (h : Heap α) : h.get h.size = none := by
  simp [get, size]

/-- A replacement that changes nothing leaves the heap as it is. -/
theorem modify_eq_self (hf : ∀ a, h.get i = some a → f a = a) : h.modify i f = h := by
  obtain ⟨cells⟩ := h
  simp only [modify, mk.injEq]
  refine ext_getElem? fun j => ?_
  rw [getElem?_modify]
  split
  · subst j
    cases hc : cells[i]? with
    | none => rfl
    | some o =>
      cases o with
      | none => rfl
      | some a => simp [hf a (by simp [get, hc])]
  · simp

/-- Two replacements at one address are one. -/
theorem modify_modify (h : Heap α) (i : ℕ) (f g : α → α) :
    (h.modify i f).modify i g = h.modify i (g ∘ f) := by
  simp only [modify, mk.injEq]
  refine ext_getElem? fun j => ?_
  by_cases hij : i = j
  · subst hij
    simp [Function.comp_def]
  · simp [hij]

/-- Replacements at two addresses commute. -/
theorem modify_comm (h : Heap α) (hij : i ≠ j) (f g : α → α) :
    (h.modify j g).modify i f = (h.modify i f).modify j g := by
  simp only [modify, mk.injEq]
  refine ext_getElem? fun l => ?_
  by_cases hi : i = l
  · subst hi
    simp [hij.symm]
  · simp [getElem?_modify, hi]

/-- A replacement at an address that is then freed is lost. -/
@[simp] theorem free_modify (h : Heap α) (i : ℕ) (f : α → α) :
    (h.modify i f).free i = h.free i := by
  simp only [modify, free, mk.injEq]
  refine ext_getElem? fun j => ?_
  by_cases hij : i = j
  · subst hij
    simp [getElem?_set]
  · simp [hij]

/-- The addresses whose object has a property. -/
def filter (h : Heap α) (p : ℕ → α → Bool) : Finset ℕ :=
  (Finset.range h.size).filter fun i => (h.get i).any (p i)

theorem mem_filter : i ∈ h.filter p ↔ ∃ a, h.get i = some a ∧ p i a = true := by
  simp only [filter, Finset.mem_filter, Finset.mem_range, Option.any_eq_true]
  constructor
  · rintro ⟨-, a, ha, hp⟩
    exact ⟨a, ha, hp⟩
  · rintro ⟨a, ha, hp⟩
    exact ⟨lt_size_of_get ha, a, ha, hp⟩

/-- A replacement that keeps the property keeps the addresses that have it. -/
theorem filter_modify (hf : ∀ a, h.get i = some a → p i (f a) = p i a) :
    (h.modify i f).filter p = h.filter p := by
  ext j
  simp only [mem_filter, get_modify]
  split
  · subst j
    cases hi : h.get i with
    | none => simp
    | some a => simp [hf a hi]
  · rfl

theorem filter_free (h : Heap α) (p : ℕ → α → Bool) (i : ℕ) :
    (h.free i).filter p = (h.filter p).erase i := by
  ext j
  simp only [mem_filter, get_free, Finset.mem_erase]
  split
  · simp_all
  · rename_i hne
    simp [Ne.symm hne]

theorem filter_alloc_of_not {a : α} (hp : p h.size a = false) :
    (h.alloc a).filter p = h.filter p := by
  ext j
  simp only [mem_filter, get_alloc]
  split
  · subst j
    simp [hp]
  · rfl

end Heap

end Archives
