import Mathlib.Data.List.Pairwise
import Mathlib.Order.Lattice
import Mathlib.Tactic.ByContra
/-!
# Maps sorted by their keys

A finite map as the list of its entries, ascending by key. The order is
part of the type, so the first entry has the least key and a key has one
entry. What an operation does is said by the entries it leaves.
-/

namespace Archives

open List Option

structure SortedMap (κ β : Type*) [LinearOrder κ] where
  entries : List (κ × β)
  sorted : entries.Pairwise fun a b => a.1 < b.1

namespace SortedMap

variable {κ β : Type*} [LinearOrder κ] {m : SortedMap κ β} {k : κ} {v v' : β} {x : κ × β}

/-- The map without entries. -/
def empty : SortedMap κ β := ⟨[], .nil⟩

/-- The value under a key. -/
def get? (m : SortedMap κ β) (k : κ) : Option β := (m.entries.find? fun e => e.1 = k).map Prod.snd

/-- The entries with one put in its place, or in the place of the one
with its key. -/
def insertEntry (k : κ) (v : β) : List (κ × β) → List (κ × β)
  | [] => [(k, v)]
  | e :: rest =>
    if k < e.1 then (k, v) :: e :: rest
    else if k = e.1 then (k, v) :: rest
    else e :: insertEntry k v rest

/-- A sorted list has one entry under a key. -/
theorem ne_key_of_mem {e : κ × β} {rest : List (κ × β)}
    (h : (e :: rest).Pairwise fun a b => a.1 < b.1) (hx : x ∈ rest) : x.1 ≠ e.1 :=
  ne_of_gt (rel_of_pairwise_cons h hx)

theorem mem_insertEntry {entries : List (κ × β)} (h : entries.Pairwise fun a b => a.1 < b.1) :
    x ∈ insertEntry k v entries ↔ x = (k, v) ∨ (x.1 ≠ k ∧ x ∈ entries) := by
  induction entries with
  | nil => simp [insertEntry]
  | cons e rest ih =>
    simp only [insertEntry]
    split
    · rename_i hlt
      have hne : ∀ y ∈ e :: rest, y.1 ≠ k := by
        intro y hy
        rcases mem_cons.1 hy with rfl | hy
        · exact ne_of_gt hlt
        · exact ne_of_gt (lt_trans hlt (rel_of_pairwise_cons h hy))
      constructor
      · intro hx
        rcases mem_cons.1 hx with rfl | hx
        · exact .inl rfl
        · exact .inr ⟨hne x hx, hx⟩
      · rintro (rfl | ⟨-, hx⟩)
        · exact mem_cons_self
        · exact mem_cons_of_mem _ hx
    · split
      · rename_i heq
        subst heq
        constructor
        · intro hx
          rcases mem_cons.1 hx with rfl | hx
          · exact .inl rfl
          · exact .inr ⟨ne_key_of_mem h hx, mem_cons_of_mem _ hx⟩
        · rintro (rfl | ⟨hne, hx⟩)
          · exact mem_cons_self
          · rcases mem_cons.1 hx with rfl | hx
            · exact absurd rfl hne
            · exact mem_cons_of_mem _ hx
      · rename_i hne
        rw [mem_cons, ih h.of_cons, mem_cons]
        constructor
        · rintro (rfl | rfl | ⟨hx, hmem⟩)
          · exact .inr ⟨.symm hne, .inl rfl⟩
          · exact .inl rfl
          · exact .inr ⟨hx, .inr hmem⟩
        · rintro (rfl | ⟨hx, rfl | hmem⟩)
          · exact .inr (.inl rfl)
          · exact .inl rfl
          · exact .inr (.inr ⟨hx, hmem⟩)

theorem pairwise_insertEntry {entries : List (κ × β)} (h : entries.Pairwise fun a b => a.1 < b.1) :
    (insertEntry k v entries).Pairwise fun a b => a.1 < b.1 := by
  induction entries with
  | nil => simp [insertEntry]
  | cons e rest ih =>
    simp only [insertEntry]
    split
    · rename_i hlt
      refine h.cons ?_
      intro y hy
      rcases mem_cons.1 hy with rfl | hy
      · exact hlt
      · exact lt_trans hlt (rel_of_pairwise_cons h hy)
    · split
      · rename_i heq
        subst heq
        exact h.of_cons.cons fun y hy => rel_of_pairwise_cons h hy
      · rename_i hge hne
        refine (ih h.of_cons).cons ?_
        intro y hy
        rcases (mem_insertEntry h.of_cons).1 hy with rfl | ⟨-, hy⟩
        · exact lt_of_le_of_ne (not_lt.1 hge) (.symm hne)
        · exact rel_of_pairwise_cons h hy

/-- The map with a value under a key. -/
def insert (m : SortedMap κ β) (k : κ) (v : β) : SortedMap κ β :=
  ⟨insertEntry k v m.entries, pairwise_insertEntry m.sorted⟩

/-- The map without a key. -/
def erase (m : SortedMap κ β) (k : κ) : SortedMap κ β :=
  ⟨m.entries.filter fun e => e.1 ≠ k, m.sorted.filter _⟩

theorem mem_insert : x ∈ (m.insert k v).entries ↔ x = (k, v) ∨ (x.1 ≠ k ∧ x ∈ m.entries) :=
  mem_insertEntry m.sorted

theorem mem_erase : x ∈ (m.erase k).entries ↔ x.1 ≠ k ∧ x ∈ m.entries := by
  simp [erase, and_comm]

/-- **A key has one value.** -/
theorem value_unique (h : (k, v) ∈ m.entries) (h' : (k, v') ∈ m.entries) : v = v' := by
  have hsymm : Std.Symm fun a b : κ × β => a.1 ≠ b.1 := ⟨fun _ _ hne => hne.symm⟩
  have hkeys : m.entries.Pairwise fun a b => a.1 ≠ b.1 := m.sorted.imp fun hlt => ne_of_lt hlt
  by_contra hne
  exact hkeys.forall h h' (fun heq => hne (congrArg Prod.snd heq)) rfl

/-- A key is looked up in its entry. -/
theorem get?_eq_some : m.get? k = some v ↔ (k, v) ∈ m.entries := by
  constructor
  · intro h
    obtain ⟨e, he, rfl⟩ := map_eq_some_iff.1 h
    have hfound := find?_some he
    have hkey : e.1 = k := of_decide_eq_true hfound
    rw [← hkey]
    exact mem_of_find?_eq_some he
  · intro h
    cases hget : m.get? k with
    | none =>
      have hnone := find?_eq_none.1 (map_eq_none_iff.1 hget)
      exact absurd (decide_eq_true rfl) (hnone _ h)
    | some v' =>
      obtain ⟨e, he, rfl⟩ := map_eq_some_iff.1 hget
      have hfound := find?_some he
      have hkey : e.1 = k := of_decide_eq_true hfound
      have hmem := mem_of_find?_eq_some he
      subst hkey
      rw [value_unique h hmem]

end SortedMap

end Archives
