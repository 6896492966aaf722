import Mathlib.Data.List.Infix
/-!
# Trees of tables in a memory

A memory holds tables of entries, and an entry may lead to another table.
A path is a list of indices, the last step first; `tableAt` is the table
it leads to from the root. The paths one is interested in are those of a
set that contains the beginnings of its members. Where no two of them
lead to one table, writing an entry concerns the paths through it only
(`tableAt_write`), and an entry may be made to lead to a new, empty table
(`Tree.attach`).
-/

namespace Archives.Radix

open List Option

variable {A ι E : Type}

/-- The table a path leads to. -/
def tableAt (next : E → Option A) (mem : A → ι → E) (root : A) : List ι → Option A
  | [] => some root
  | i :: path => (tableAt next mem root path).bind fun t => next (mem t i)

/-- A set of paths with the beginnings of its members. -/
def Closed (P : List ι → Prop) : Prop := ∀ i path, P (i :: path) → P path

/-- No two paths of the set lead to one table. -/
def Tree (P : List ι → Prop) (next : E → Option A) (mem : A → ι → E) (root : A) : Prop :=
  ∀ ⦃p q t⦄, P p → P q → tableAt next mem root p = some t → tableAt next mem root q = some t → p = q

variable {P : List ι → Prop} {next : E → Option A} {mem mem' : A → ι → E} {root t u a : A}
  {p q path : List ι} {i : ι} {e : E}

/-- The table a path leads to depends on the tables along it. -/
theorem tableAt_congr (hP : Closed P)
    (h : ∀ q u, P q → tableAt next mem root q = some u → mem' u = mem u) (hq : P q) :
    tableAt next mem' root q = tableAt next mem root q := by
  induction q with
  | nil => rfl
  | cons j q ih =>
    have hq' := hP j q hq
    unfold tableAt
    rw [ih hq']
    cases hu : tableAt next mem root q with
    | none => rfl
    | some u =>
      simp only [bind_some]
      rw [h q u hq' hu]

/-- Nothing is reached through an entry that leads nowhere. -/
theorem tableAt_of_suffix (h : tableAt next mem root p = none) (hq : p <:+ q) :
    tableAt next mem root q = none := by
  obtain ⟨pre, rfl⟩ := hq
  induction pre with
  | nil => exact h
  | cons j pre ih =>
    simp [tableAt, ih]

/-! ## Paths with their first step first -/

/-- The table a path leads to, its first step first, and the entries
that are passed on the way. -/
def trace (next : E → Option A) (mem : A → ι → E) : A → List ι → Option (A × List E)
  | t, [] => some (t, [])
  | t, i :: path => (next (mem t i)).bind fun u =>
    (trace next mem u path).map fun found => (found.1, mem t i :: found.2)

theorem trace_cons_of_none (h : next (mem t i) = none) : trace next mem t (i :: path) = none := by
  rw [trace, h, bind_none]

theorem trace_cons_of_some (h : next (mem t i) = some u) : trace next mem t (i :: path) =
      (trace next mem u path).map fun found => (found.1, mem t i :: found.2) := by
  rw [trace, h, bind_some]

/-- A path is followed to its end from where its beginning leads. -/
theorem trace_append (t : A) (p q : List ι) :
    trace next mem t (p ++ q) = (trace next mem t p).bind fun found =>
      (trace next mem found.1 q).map fun found' => (found'.1, found.2 ++ found'.2) := by
  induction p generalizing t with
  | nil =>
    simp [trace, Option.map_id']
  | cons i p ih =>
    cases hu : next (mem t i) with
    | none => rw [cons_append, trace_cons_of_none hu, trace_cons_of_none hu, bind_none]
    | some u =>
      rw [cons_append, trace_cons_of_some hu, trace_cons_of_some hu, ih u]
      cases trace next mem u p with
      | none => rfl
      | some found =>
        simp [map_some, Function.comp_def]

/-- The tables passed on the way decide where a path leads. -/
theorem trace_congr
    (h : ∀ p u es, p <+: path → p ≠ path → trace next mem t p = some (u, es) → mem' u = mem u) :
    trace next mem' t path = trace next mem t path := by
  induction path generalizing t with
  | nil => rfl
  | cons i path ih =>
    have ht : mem' t = mem t := h [] t [] nil_prefix (cons_ne_nil _ _).symm rfl
    rw [trace, trace, ht]
    cases hu : next (mem t i) with
    | none => rfl
    | some u =>
      rw [bind_some, bind_some, ih]
      intro p v es hp hne hv
      refine h (i :: p) v (mem t i :: es) (cons_prefix_cons.2 ⟨rfl, hp⟩) ?_ ?_
      · exact fun heq => hne (cons.inj heq).2
      · rw [trace_cons_of_some hu, hv, map_some]

/-- A set of tables that no entry leaves is not left by a path. -/
theorem trace_mem {S : A → Prop} (hS : ∀ t i u, next (mem t i) = some u → S u) {es : List E}
    (ht : S t) (h : trace next mem t path = some (u, es)) : S u := by
  induction path generalizing t es with
  | nil =>
    cases h
    exact ht
  | cons i path ih =>
    cases hv : next (mem t i) with
    | none =>
      rw [trace_cons_of_none hv] at h
      cases h
    | some v =>
      rw [trace_cons_of_some hv] at h
      obtain ⟨found, hfound, heq⟩ := map_eq_some_iff.1 h
      obtain ⟨rfl, -⟩ := Prod.mk.inj heq
      exact ih (hS t i v hv) hfound

/-! ## Writing -/

variable [DecidableEq A] {mem : A → ι → E}

/-- The memory after a table was filled with one entry. -/
def fill (mem : A → ι → E) (t : A) (e : E) : A → ι → E :=
  fun u j => if u = t then e else mem u j

theorem fill_self (mem : A → ι → E) (t : A) (e : E) (i : ι) : fill mem t e t i = e := if_pos rfl

theorem fill_of_ne {t u : A} (h : u ≠ t) (e : E) :
    fill mem t e u = mem u := funext fun _ => if_neg h

variable [DecidableEq ι]

/-- The memory after a write. -/
def write (mem : A → ι → E) (t : A) (i : ι) (e : E) : A → ι → E :=
  fun u j => if u = t ∧ j = i then e else mem u j

@[simp] theorem write_self (mem : A → ι → E) (t : A) (i : ι) (e : E) :
    write mem t i e t i = e := if_pos ⟨rfl, rfl⟩

theorem write_of_ne {t u : A} (h : u ≠ t) (i j : ι) (e : E) :
    write mem t i e u j = mem u j := if_neg fun ⟨hu, _⟩ => h hu

theorem write_of_index_ne {i j : ι} (h : j ≠ i) (t u : A) (e : E) :
    write mem t i e u j = mem u j := if_neg fun ⟨_, hj⟩ => h hj

/-- An entry may be replaced by one that leads to the same table. -/
theorem tableAt_write_of_next_eq (h : next e = next (mem t i)) (q : List ι) :
    tableAt next (write mem t i e) root q = tableAt next mem root q := by
  induction q with
  | nil => rfl
  | cons j q ih =>
    unfold tableAt
    congr 1
    funext u
    unfold write
    split
    next hu =>
      rw [hu.1, hu.2, h]
    next => rfl

/-- **A write concerns the paths through the entry only.** -/
theorem tableAt_write (hP : Closed P) (htree : Tree P next mem root) (hp : P p)
    (ht : tableAt next mem root p = some t) (hq : P q) (hnot : ¬ (i :: p) <:+ q) :
    tableAt next (write mem t i e) root q = tableAt next mem root q := by
  induction q with
  | nil => rfl
  | cons j q ih =>
    have hq' := hP j q hq
    have hnot' : ¬ (i :: p) <:+ q := fun h => hnot (h.trans (suffix_cons j q))
    unfold tableAt
    rw [ih hq' hnot']
    cases hu : tableAt next mem root q with
    | none => rfl
    | some u =>
      simp only [bind_some]
      unfold write
      split
      next h =>
        -- the entry is on the path after all
        obtain ⟨rfl, rfl⟩ := h
        exact absurd (htree hq' hp hu ht ▸ suffix_refl _) hnot
      next => rfl

/-- The paths after a new, empty table was attached at an entry that led
nowhere: one leads to it, none leads further. -/
theorem tableAt_attach {z : E} (hP : Closed P) (htree : Tree P next mem root) (hp : P p)
    (ht : tableAt next mem root p = some t) (hz : next z = none) (he : next e = some a)
    (ha : ∀ q, P q → tableAt next mem root q ≠ some a) (hnone : next (mem t i) = none) (hq : P q) :
    tableAt next (write (fill mem a z) t i e) root q =
      if q = i :: p then some a else tableAt next mem root q := by
  -- filling the new table is not seen from the root
  have hfill : ∀ q, P q → tableAt next (fill mem a z) root q = tableAt next mem root q := by
    intro q hq
    refine tableAt_congr hP (fun q u hq hu => fill_of_ne ?_ z) hq
    rintro rfl
    exact ha q hq hu
  have htree' : Tree P next (fill mem a z) root := by
    intro p q t hp hq h₁ h₂
    rw [hfill p hp] at h₁
    rw [hfill q hq] at h₂
    exact htree hp hq h₁ h₂
  have ht' : tableAt next (fill mem a z) root p = some t := (hfill p hp).trans ht
  have hta : t ≠ a := by
    rintro rfl
    exact ha p hp ht
  -- the table before the entry is where it was
  have hself : tableAt next (write (fill mem a z) t i e) root p = some t := by
    rw [tableAt_write hP htree' hp ht' hp, ht']
    intro h
    have := h.length_le
    simp only [length_cons] at this
    omega
  have hhead : tableAt next (write (fill mem a z) t i e) root (i :: p) = some a := by
    unfold tableAt
    rw [hself, bind_some, write_self, he]
  by_cases hsuffix : (i :: p) <:+ q
  · have hbefore : tableAt next mem root q = none := by
      refine tableAt_of_suffix (p := i :: p) ?_ hsuffix
      unfold tableAt
      rw [ht, bind_some, hnone]
    obtain ⟨pre, rfl⟩ := hsuffix
    cases pre with
    | nil =>
      rw [nil_append, if_pos rfl]
      exact hhead
    | cons j pre =>
      have hne : j :: pre ++ i :: p ≠ i :: p := by
        intro h
        have := congrArg length h
        simp only [length_append, length_cons] at this
        omega
      rw [if_neg hne, hbefore]
      -- the first step from the new table leads nowhere
      obtain ⟨k, pre', hk⟩ : ∃ k pre', j :: pre = pre' ++ [k] :=
        ⟨(j :: pre).getLast (cons_ne_nil _ _), (j :: pre).dropLast,
          (dropLast_append_getLast (cons_ne_nil _ _)).symm⟩
      rw [hk, append_assoc, singleton_append]
      refine tableAt_of_suffix (p := k :: i :: p) ?_ (suffix_append _ _)
      rw [tableAt, hhead, bind_some, write_of_ne hta.symm, fill_self, hz]
  · have hne : q ≠ i :: p := by
      rintro rfl
      exact hsuffix (suffix_refl _)
    rw [if_neg hne, tableAt_write hP htree' hp ht' hq hsuffix, hfill q hq]

/-- A tree with a new table attached is a tree. -/
theorem Tree.attach {z : E} (hP : Closed P) (htree : Tree P next mem root) (hp : P p)
    (ht : tableAt next mem root p = some t) (hz : next z = none) (he : next e = some a)
    (ha : ∀ q, P q → tableAt next mem root q ≠ some a) (hnone : next (mem t i) = none) :
    Tree P next (write (fill mem a z) t i e) root := by
  intro q₁ q₂ u hq₁ hq₂ h₁ h₂
  rw [tableAt_attach hP htree hp ht hz he ha hnone hq₁] at h₁
  rw [tableAt_attach hP htree hp ht hz he ha hnone hq₂] at h₂
  split at h₁
  next heq₁ =>
    cases h₁
    split at h₂
    next heq₂ => rw [heq₁, heq₂]
    next => exact absurd h₂ (ha q₂ hq₂)
  next =>
    split at h₂
    next =>
      cases h₂
      exact absurd h₁ (ha q₁ hq₁)
    next => exact htree hq₁ hq₂ h₁ h₂

end Archives.Radix
