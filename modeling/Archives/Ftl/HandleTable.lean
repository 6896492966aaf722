import Mathlib.Data.Int.Interval
import Archives.Common.Machine
import Archives.Ftl.Model.Kernel
/-!
# FTL — handle tables never run full

`HandleTable::insert` and `insert_two` look for unused ids from a
rotating start. The ids they hand out are those from 1 to 1023, while
`insert` only gives up at 1024 handles, which a table never has, and
`insert_two` never gives up. So when there is no id left to find, both
search forever, and neither ever returns `TooManyHandles`. `insert_two`
moreover searches in steps of two: after the first turn it looks only at
pairs that start with an odd id.

Both are one rotating search (`search`), by one id or by two. It is
followed by the number of rounds to a given unused id (`roundsTo`,
`roundsToPair`): a round that finds nothing brings it down by one,
whether it moves on or turns.
-/

namespace Archives.Ftl.HandleTable

open Int Nat Option Std.ExtTreeMap

/-! ## The table and what its calls owe -/

/-- What is done with a handle table. -/
inductive Op
  | insert (h : AnyHandle)
  | insertTwo (h₀ h₁ : AnyHandle)
  /-- `take`, and `close` with it. -/
  | take (id : HandleId)
  | closeAll

/-- **The table as a machine.** A call that fails leaves the table as it
is; one that never returns has no successor. -/
def machine : Machine HandleTable Op where
  step
    | t, .insert h =>
      match t.insert h with
      | .ok (.ok (_, t')) => some t'
      | .ok (.error _) => some t
      | .error _ => none
    | t, .insertTwo h₀ h₁ =>
      match t.insertTwo h₀ h₁ with
      | .ok (_, t') => some t'
      | .error _ => none
    | t, .take id =>
      match t.take id with
      | .ok (_, t') => some t'
      | .error _ => some t
    | t, .closeAll => some { t with handles := ∅ }

/-- The ids a table hands out. -/
def Valid (id : Int) : Prop := 1 ≤ id ∧ id < numHandlesMax
deriving Decidable

def Unused (t : HandleTable) (id : HandleId) : Prop := t.handles[id]? = none
deriving Decidable

/-- **`insert` does its job**: it returns, with an id that was unused and
the handle under it; or it reports that there are too many handles, and
no id is unused. -/
def InsertCorrect (h : AnyHandle) (t : HandleTable) : Prop :=
  match t.insert h with
  | .error _ => False
  | .ok (.error e) => e = .tooManyHandles ∧ ∀ id, Valid id → ¬ t.Unused id
  | .ok (.ok (id, t')) => Valid id ∧ t.Unused id ∧ t'.handles = t.handles.insert id h

/-- **`insert_two` does its job**: it returns, with the first of two
consecutive ids that were unused, and the handles under them. -/
def InsertTwoCorrect (h₀ h₁ : AnyHandle) (t : HandleTable) : Prop :=
  match t.insertTwo h₀ h₁ with
  | .error _ => False
  | .ok (id, t') => (Valid id ∧ t.Unused id) ∧ (Valid (id + 1) ∧ t.Unused (id + 1)) ∧
      t'.handles = (t.handles.insert id h₀).insert (id + 1) h₁

def FreeId (t : HandleTable) : Prop := ∃ id : Int, Valid id ∧ t.Unused id

/-- Two consecutive ids are unused, and the search comes by: they start
with an odd id, or with one ahead of the search at an even distance. -/
def FreePair (t : HandleTable) : Prop :=
  ∃ id : Int, (Valid id ∧ t.Unused id) ∧ (Valid (id + 1) ∧ t.Unused (id + 1)) ∧
    (id % 2 = 1 ∨ t.nextId ≤ id ∧ id % 2 = t.nextId % 2)

/-! ## Tables that can be reached -/

/-- **The invariant**: the handles have ids that the table hands out, and
the search is among them or right after them. -/
structure WellFormed (t : HandleTable) : Prop where
  valid : ∀ (id : HandleId) (h : AnyHandle), t.handles[id]? = some h → Valid id
  pos : 1 ≤ t.nextId
  le : t.nextId ≤ numHandlesMax

variable {t t' : HandleTable} {h h₀ h₁ : AnyHandle} {id : Int} {n : Nat}

theorem contains_iff : t.handles.contains id = true ↔ ¬ t.Unused id := by
  rw [contains_eq_isSome_getElem?, isSome_iff_ne_none]
  rfl

/-- A table has fewer handles than `insert` allows. -/
theorem WellFormed.size_lt (ht : t.WellFormed) : t.handles.size < numHandlesMax := by
  have hkeys : t.handles.keys.toFinset ⊆ Finset.Ico 1 (numHandlesMax : Int) := by
    intro id hid
    rw [List.mem_toFinset, mem_keys, mem_iff_isSome_getElem?, isSome_iff_exists] at hid
    obtain ⟨h, hid⟩ := hid
    exact Finset.mem_Ico.2 (ht.valid id h hid)
  have hcard := Finset.card_le_card hkeys
  rw [List.toFinset_card_of_nodup nodup_keys, length_keys, Int.card_Ico] at hcard
  have : 0 < numHandlesMax := by decide
  omega

theorem WellFormed.insert (ht : t.WellFormed) (hid : Valid id) {n : Int} (hn : 1 ≤ n)
    (hn' : n ≤ numHandlesMax) : WellFormed { handles := t.handles.insert id h, nextId := n } where
  valid := by
    intro i g hi
    rw [getElem?_insert] at hi
    split at hi
    next heq => exact Std.LawfulEqCmp.compare_eq_iff_eq.1 heq ▸ hid
    next => exact ht.valid i g hi
  pos := hn
  le := hn'

theorem WellFormed.erase (ht : t.WellFormed) :
    WellFormed { t with handles := t.handles.erase id } where
  valid := by
    intro i g hi
    rw [getElem?_erase] at hi
    split at hi
    next => cases hi
    next => exact ht.valid i g hi
  pos := ht.pos
  le := ht.le

theorem wellFormed_new : WellFormed new where
  valid := by
    intro id h hid
    cases (getElem?_empty (a := id)).symm.trans hid
  pos := le_refl 1
  le := by decide

/-! ## The rotating search -/

/-- **Both searches**: `w` ids at a time, and from 1 again where no `w` of
them are left. -/
def search (free : Int → Prop) [DecidablePred free] (w : Int) : Nat → Int → Option Int
  | 0, _ => none
  | n + 1, i =>
    if i + w < 1 ∨ numHandlesMax < i + w then search free w n 1
    else if free i then some i else search free w n (i + w)

section Search

variable {free A : Int → Prop} [DecidablePred free] {w i : Int}

/-- What is found is free, with `w` ids from there on. -/
theorem free_of_search (hi : 1 ≤ i) (hr : search free w n i = some id) :
    free id ∧ 1 ≤ id ∧ id + w ≤ numHandlesMax := by
  induction n generalizing i with
  | zero => cases hr
  | succ n ih =>
    rw [search] at hr
    split at hr
    next => exact ih (le_refl 1) hr
    next hid =>
      split at hr
      next hfree =>
        cases hr
        exact ⟨hfree, hi, by omega⟩
      next => exact ih (by omega) hr

/-- **A search is over in time** if each round that finds nothing brings
the number of rounds to go down. -/
theorem search_isSome {r : Int → Int} (hpos : ∀ i, A i → 0 < i + w ∧ 0 < r i)
    (hturn : ∀ i, A i → numHandlesMax < i + w → A 1 ∧ r 1 < r i)
    (hmove : ∀ i, A i → i + w ≤ numHandlesMax → ¬ free i → A (i + w) ∧ r (i + w) < r i)
    (hi : A i) (hn : r i ≤ n) : (search free w n i).isSome := by
  induction n generalizing i with
  | zero =>
    have := (hpos i hi).2
    omega
  | succ n ih =>
    have := (hpos i hi).1
    rw [search]
    split
    next hend =>
      obtain ⟨h, hr⟩ := hturn i hi (by omega)
      exact ih h (by omega)
    next hid =>
      split
      next => rfl
      next hfree =>
        obtain ⟨h, hr⟩ := hmove i hi (by omega) hfree
        exact ih h (by omega)

/-- **A search that only comes by ids that are not free** goes on
forever. -/
theorem search_eq_none (hturn : ∀ i, A i → A 1)
    (hmove : ∀ i, A i → i + w ≤ numHandlesMax → ¬ free i ∧ A (i + w)) (hi : A i) (n : Nat) :
    search free w n i = none := by
  induction n generalizing i with
  | zero => rfl
  | succ n ih =>
    rw [search]
    split
    next => exact ih (hturn i hi)
    next hid =>
      obtain ⟨hfree, h⟩ := hmove i hi (by omega)
      rw [if_neg hfree]
      exact ih h

end Search

/-! ## The search of `insert` -/

theorem insertLoop_eq (n : Nat) : insertLoop h n t = (search t.Unused 1 n t.nextId).map
    fun id => (id, { handles := t.handles.insert id h, nextId := id + 1 }) := by
  induction n generalizing t with
  | zero => rfl
  | succ n ih =>
    have hend : (t.nextId < 0 ∨ numHandlesMax ≤ t.nextId) ↔
        t.nextId + 1 < 1 ∨ numHandlesMax < t.nextId + 1 := by omega
    simp only [insertLoop, search, contains_iff, hend, ite_not, ih, apply_ite (Option.map _)]
    rfl

/-- A found id was unused, and the handle is under it. -/
structure Inserted (h : AnyHandle) (t : HandleTable) (id : HandleId) (t' : HandleTable) : Prop where
  valid : Valid id
  unused : t.Unused id
  handles : t'.handles = t.handles.insert id h
  nextId : t'.nextId = id + 1

theorem Inserted.wellFormed (hi : Inserted h t id t') (ht : t.WellFormed) : t'.WellFormed := by
  obtain ⟨hvalid, -, hhandles, hnext⟩ := hi
  have hw := ht.insert (h := h) hvalid (n := id + 1) (by have := hvalid.1; omega)
    (by have := hvalid.2; omega)
  rwa [← hhandles, ← hnext] at hw

theorem inserted_of_insertLoop (ht : t.WellFormed) (hr : insertLoop h n t = some (id, t')) :
    Inserted h t id t' := by
  rw [insertLoop_eq] at hr
  obtain ⟨i, hi, heq⟩ := map_eq_some_iff.1 hr
  cases heq
  obtain ⟨hunused, hpos, hlt⟩ := free_of_search ht.pos hi
  exact ⟨⟨hpos, by omega⟩, hunused, rfl, rfl⟩

/-- The rounds it takes to get to an id, over the end of the ids if the
search is past it. -/
def roundsTo (id : Int) (t : HandleTable) : Int :=
  if t.nextId ≤ id then id - t.nextId + 1 else numHandlesMax - t.nextId + 1 + id

/-- **An unused id is found in time.** -/
theorem insertLoop_isSome (ht : t.WellFormed) (hid : Valid id) (hunused : t.Unused id) :
    (insertLoop h insertRounds t).isSome := by
  obtain ⟨hid₁, hid₂⟩ := hid
  rw [insertLoop_eq, isSome_map]
  refine search_isSome (A := fun i => 1 ≤ i ∧ i ≤ numHandlesMax)
    (r := fun i => roundsTo id { t with nextId := i }) ?_ ?_ ?_ ⟨ht.pos, ht.le⟩ ?_
  · rintro i ⟨hi, hi'⟩
    simp only [roundsTo]
    split <;> omega
  · rintro i ⟨hi, hi'⟩ hend
    simp only [roundsTo]
    split <;> split <;> omega
  · rintro i ⟨hi, hi'⟩ hlt hused
    have hne : i ≠ id := fun heq => hused (heq ▸ hunused)
    simp only [roundsTo]
    split <;> split <;> omega
  · have hpos := ht.pos
    have hrounds : (insertRounds : Int) = 2 * numHandlesMax + 2 := rfl
    simp only [roundsTo]
    split <;> omega

/-- **With no unused id the search goes on forever.** -/
theorem insertLoop_eq_none (ht : t.WellFormed) (hfull : ¬ t.FreeId) (n : Nat) :
    insertLoop h n t = none := by
  rw [insertLoop_eq, map_eq_none_iff]
  refine search_eq_none (A := (1 ≤ ·)) (fun _ _ => le_refl 1) ?_ ht.pos n
  intro i hi hlt
  exact ⟨fun hunused => hfull ⟨i, ⟨hi, by omega⟩, hunused⟩, by omega⟩

theorem insertCorrect_iff (ht : t.WellFormed) : InsertCorrect h t ↔ t.FreeId := by
  rw [InsertCorrect, HandleTable.insert, if_neg (not_le.2 ht.size_lt)]
  constructor
  · intro hcorrect
    by_contra hfull
    rw [insertLoop_eq_none ht hfull] at hcorrect
    exact hcorrect
  · rintro ⟨id, hid, hunused⟩
    obtain ⟨⟨id', t'⟩, hr⟩ :=
      isSome_iff_exists.1 (insertLoop_isSome (h := h) ht hid hunused)
    obtain ⟨hvalid, hunused', hhandles, -⟩ := inserted_of_insertLoop ht hr
    rw [hr]
    exact ⟨hvalid, hunused', hhandles⟩

/-! ## The search of `insert_two` -/

/-- The search skips two ids where one of them is used. -/
theorem insertTwoLoop_eq (n : Nat) : insertTwoLoop h₀ h₁ n t =
    (search (fun id => t.Unused id ∧ t.Unused (id + 1)) 2 n t.nextId).map fun id =>
      (id, { handles := (t.handles.insert id h₀).insert (id + 1) h₁, nextId := id + 2 }) := by
  induction n generalizing t with
  | zero => rfl
  | succ n ih =>
    have hend : (t.nextId + 1 < 0 ∨ numHandlesMax ≤ t.nextId + 1) ↔
        t.nextId + 2 < 1 ∨ numHandlesMax < t.nextId + 2 := by omega
    simp only [insertTwoLoop, search, contains_iff, hend, not_not, ih, apply_ite (Option.map _)]
    rfl

/-- The two found ids were unused, and the handles are under them. -/
structure InsertedTwo (h₀ h₁ : AnyHandle) (t : HandleTable) (id : Int) (t' : HandleTable) :
    Prop where
  first : Valid id ∧ t.Unused id
  second : Valid (id + 1) ∧ t.Unused (id + 1)
  handles : t'.handles = (t.handles.insert id h₀).insert (id + 1) h₁
  nextId : t'.nextId = id + 2

theorem InsertedTwo.wellFormed (hi : InsertedTwo h₀ h₁ t id t') (ht : t.WellFormed) :
    t'.WellFormed := by
  obtain ⟨⟨hv₀, -⟩, ⟨hv₁, -⟩, hhandles, hnext⟩ := hi
  have hpos := hv₀.1
  have hlt := hv₁.2
  have hw := (ht.insert (h := h₀) hv₀ (le_refl 1) (by decide)).insert (h := h₁) hv₁
    (n := id + 2) (by omega) (by omega)
  rwa [← hhandles, ← hnext] at hw

theorem insertedTwo_of_insertTwoLoop (ht : t.WellFormed)
    (hr : insertTwoLoop h₀ h₁ n t = some (id, t')) : InsertedTwo h₀ h₁ t id t' := by
  rw [insertTwoLoop_eq] at hr
  obtain ⟨i, hi, heq⟩ := map_eq_some_iff.1 hr
  cases heq
  obtain ⟨⟨hu₀, hu₁⟩, hpos, hlt⟩ := free_of_search ht.pos hi
  exact ⟨⟨⟨hpos, by omega⟩, hu₀⟩, ⟨⟨by omega, by omega⟩, hu₁⟩, rfl, rfl⟩

/-- The rounds it takes to get to a pair. -/
def roundsToPair (id : Int) (t : HandleTable) : Int :=
  if t.nextId ≤ id ∧ id % 2 = t.nextId % 2 then (id - t.nextId) / 2 + 1
  else (numHandlesMax - t.nextId) / 2 + (id + 1) / 2 + 1

/-- **An unused pair the search comes by is found in time.** -/
theorem insertTwoLoop_isSome (ht : t.WellFormed) (hpair : t.FreePair) :
    (insertTwoLoop h₀ h₁ insertRounds t).isSome := by
  obtain ⟨id, ⟨⟨hid, -⟩, hunused₀⟩, ⟨⟨-, hid'⟩, hunused₁⟩, hahead⟩ := hpair
  rw [insertTwoLoop_eq, isSome_map]
  -- after a turn only an odd pair is still ahead
  refine search_isSome (A := fun i => (1 ≤ i ∧ i ≤ numHandlesMax) ∧
      (id % 2 = 1 ∨ i ≤ id ∧ id % 2 = i % 2))
    (r := fun i => roundsToPair id { t with nextId := i }) ?_ ?_ ?_ ⟨⟨ht.pos, ht.le⟩, hahead⟩ ?_
  · rintro i ⟨⟨hi, hi'⟩, -⟩
    simp only [roundsToPair]
    split <;> omega
  · rintro i ⟨⟨hi, hi'⟩, hahead⟩ hend
    simp only [roundsToPair]
    split <;> split <;> omega
  · rintro i ⟨⟨hi, hi'⟩, hahead⟩ hlt hused
    have hne : i ≠ id := fun heq => hused (heq ▸ ⟨hunused₀, hunused₁⟩)
    simp only [roundsToPair]
    split <;> split <;> omega
  · have hpos := ht.pos
    have hrounds : (insertRounds : Int) = 2 * numHandlesMax + 2 := rfl
    simp only [roundsToPair]
    split <;> omega

/-- **With no such pair the search goes on forever.** -/
theorem insertTwoLoop_eq_none (ht : t.WellFormed) (hnone : ¬ t.FreePair) (n : Nat) :
    insertTwoLoop h₀ h₁ n t = none := by
  rw [insertTwoLoop_eq, map_eq_none_iff]
  refine search_eq_none (A := fun i => 1 ≤ i ∧ (i % 2 = 1 ∨ t.nextId ≤ i ∧ i % 2 = t.nextId % 2))
    (fun _ _ => ⟨le_refl 1, .inl rfl⟩) ?_ ⟨ht.pos, .inr ⟨le_refl _, rfl⟩⟩ n
  rintro i ⟨hi, hahead⟩ hlt
  refine ⟨fun ⟨hu₀, hu₁⟩ => hnone ?_, by omega, by omega⟩
  exact ⟨i, ⟨⟨hi, by omega⟩, hu₀⟩, ⟨⟨by omega, by omega⟩, hu₁⟩, hahead⟩

theorem insertTwoCorrect_iff (ht : t.WellFormed) : InsertTwoCorrect h₀ h₁ t ↔ t.FreePair := by
  rw [InsertTwoCorrect, insertTwo]
  constructor
  · intro hcorrect
    by_contra hnone
    rw [insertTwoLoop_eq_none ht hnone] at hcorrect
    exact hcorrect
  · intro hpair
    have hsome : (insertTwoLoop h₀ h₁ insertRounds t).isSome := insertTwoLoop_isSome ht hpair
    obtain ⟨⟨id', t'⟩, hr⟩ := isSome_iff_exists.1 hsome
    obtain ⟨hf, hs, hhandles, -⟩ := insertedTwo_of_insertTwoLoop ht hr
    rw [hr]
    exact ⟨hf, hs, hhandles⟩

/-! ## Every table -/

theorem WellFormed.step (ht : t.WellFormed) {op : Op} (hs : machine.step t op = some t') :
    t'.WellFormed := by
  cases op with
  | insert h =>
    simp only [machine, HandleTable.insert, if_neg (not_le.2 ht.size_lt)] at hs
    cases hr : insertLoop h insertRounds t with
    | none =>
      rw [hr] at hs
      cases hs
    | some r =>
      rw [hr] at hs
      cases hs
      exact (inserted_of_insertLoop ht hr).wellFormed ht
  | insertTwo h₀ h₁ =>
    simp only [machine, insertTwo] at hs
    cases hr : insertTwoLoop h₀ h₁ insertRounds t with
    | none =>
      rw [hr] at hs
      cases hs
    | some r =>
      rw [hr] at hs
      cases hs
      exact (insertedTwo_of_insertTwoLoop ht hr).wellFormed ht
  | take id =>
    simp only [machine, take] at hs
    cases hr : t.handles[id]? with
    | none =>
      rw [hr] at hs
      cases hs
      exact ht
    | some h =>
      rw [hr] at hs
      cases hs
      exact ht.erase
  | closeAll =>
    cases hs
    exact ⟨wellFormed_new.valid, ht.pos, ht.le⟩

variable (hr : machine.Reach new t)
include hr

theorem WellFormed.reach : t.WellFormed :=
  hr.invariant wellFormed_new fun ht _ hs => ht.step hs

/-- A search that was not over in the rounds it is given is never over. -/
theorem insertLoop_forever
    (hnone : insertLoop h insertRounds t = none) (n : Nat) : insertLoop h n t = none := by
  have ht := WellFormed.reach hr
  refine insertLoop_eq_none ht ?_ n
  rintro ⟨id, hid, hunused⟩
  have hsome := insertLoop_isSome (h := h) ht hid hunused
  rw [hnone] at hsome
  cases hsome

/-- A search for a pair that was not over in the rounds it is given is
never over. -/
theorem insertTwoLoop_forever (hnone : insertTwoLoop h₀ h₁ insertRounds t = none) (n : Nat) :
    insertTwoLoop h₀ h₁ n t = none := by
  have ht := WellFormed.reach hr
  refine insertTwoLoop_eq_none ht (fun hpair => ?_) n
  have hsome : (insertTwoLoop h₀ h₁ insertRounds t).isSome := insertTwoLoop_isSome ht hpair
  rw [hnone] at hsome
  cases hsome

/-- **When the two calls do their job**, in every table that can be
reached: `insert` exactly when an id is unused, `insert_two` exactly when
two consecutive ones are that its search comes by. -/
theorem inserts_correct_iff (h h₀ h₁ : AnyHandle) :
    (InsertCorrect h t ↔ t.FreeId) ∧ (InsertTwoCorrect h₀ h₁ t ↔ t.FreePair) :=
  ⟨insertCorrect_iff (.reach hr), insertTwoCorrect_iff (.reach hr)⟩

omit hr

/-- A handle to fill tables with. -/
def someHandle : AnyHandle where
  object := .poll 0
  rights := HandleRight.all

/-- In a new table both calls do their job. -/
theorem inserts_correct_new : InsertCorrect someHandle new ∧
    InsertTwoCorrect someHandle someHandle new := by
  obtain ⟨h, h₂⟩ := inserts_correct_iff .refl someHandle someHandle someHandle
  exact ⟨h.2 ⟨1, by decide, by decide⟩, h₂.2 ⟨1, by decide, by decide, by decide⟩⟩

/-- A table that was given `n` handles has used the first `n` ids. -/
theorem exists_filled (h : AnyHandle) (n : Nat) (hn : n < numHandlesMax) :
    ∃ t, machine.Reach new t ∧ t.nextId = n + 1 ∧ ∀ id : Int, 1 ≤ id → (t.Unused id ↔ n < id) := by
  induction n with
  | zero =>
    refine ⟨new, .refl, rfl, fun id hid => ?_⟩
    have hunused : new.Unused id := getElem?_empty
    exact ⟨fun _ => by omega, fun _ => hunused⟩
  | succ n ih =>
    obtain ⟨t, hr, hnext, hunused⟩ := ih (by omega)
    have ht := WellFormed.reach hr
    have hlt : Valid t.nextId := ⟨by omega, by omega⟩
    have hstep : machine.step t (.insert h) =
        some { handles := t.handles.insert t.nextId h, nextId := t.nextId + 1 } := by
      simp only [machine, HandleTable.insert, if_neg (not_le.2 ht.size_lt)]
      rw [insertLoop_eq, insertRounds, search, if_neg (by omega),
        if_pos ((hunused _ hlt.1).2 (by omega))]
      rfl
    refine ⟨_, hr.tail trivial hstep, by simp only [hnext, Nat.cast_add, Nat.cast_one], ?_⟩
    intro id hid
    rw [Unused, getElem?_insert]
    split
    next heq =>
      have := Std.LawfulEqCmp.compare_eq_iff_eq.1 heq
      simp only [reduceCtorEq, false_iff]
      omega
    next hne =>
      have hne : t.nextId ≠ id := fun heq => hne (Std.LawfulEqCmp.compare_eq_iff_eq.2 heq)
      have hold := hunused id hid
      rw [Unused] at hold
      rw [hold]
      omega

/-- **A full table.** After 1023 handles, both calls search forever. -/
theorem inserts_hang_of_full : ∃ t, machine.Reach new t ∧ ¬ InsertCorrect someHandle t ∧
      ¬ InsertTwoCorrect someHandle someHandle t ∧
      ∀ n, insertLoop someHandle n t = none ∧ insertTwoLoop someHandle someHandle n t = none := by
  obtain ⟨t, hr, -, hunused⟩ := exists_filled someHandle 1023 (by decide)
  have ht := WellFormed.reach hr
  have hfull : ¬ t.FreeId := by
    rintro ⟨id, ⟨hpos, hlt⟩, hid⟩
    have hmax : (numHandlesMax : Int) = 1024 := rfl
    have := (hunused id hpos).1 hid
    omega
  have hpair : ¬ t.FreePair := fun ⟨id, hid, _⟩ => hfull ⟨id, hid⟩
  exact ⟨t, hr, fun h => hfull ((insertCorrect_iff ht).1 h),
    fun h => hpair ((insertTwoCorrect_iff ht).1 h),
    fun n => ⟨insertLoop_eq_none ht hfull n, insertTwoLoop_eq_none ht hpair n⟩⟩

end Archives.Ftl.HandleTable
