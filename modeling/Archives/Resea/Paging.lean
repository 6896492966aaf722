import Mathlib.Data.BitVec
import Archives.Common.Except
import Archives.Resea.Model.Paging
/-!
# Resea — page tables as maps

`link_page` sets the number of pages that remain anew whenever it comes
to the next table: of a range that crosses the end of one, it links as
many pages again from there, and it never returns if there are more than
a table holds. As long as every range fits into one table, the tree of
tables agrees with the map it stands for; `unlink_page` may cross tables.

The tables of user space form a tree in the sense of `Radix.Tree`, whose
nodes are not in the arena (`Inv`). An entry of the last level is written
without a change to the tree (`Inv.setLeaf`), a missing table is attached
(`Inv.attach`), and a lookup reads the entry at the end of the path
(`resolve_eq`).
-/

namespace Archives.Resea.Paging

open Radix List Option Nat State

/-! ## Entries -/

/-- What an entry leads to. -/
def next (entry : BitVec 64) : Option (BitVec 64) :=
  if entry = 0 then none else some (entryPaddr entry)

/-- The attributes of an entry: it is not empty, and they are not part of
the address and do not say that the page is bigger. -/
structure IsAttrs (attrs : BitVec 64) : Prop where
  present : attrs.getLsbD 0 = true
  outside : attrs &&& 0x7ffffffffffff000 = 0#64
  small : attrs &&& 0x80 = 0#64

variable {flags : BitVec 64}

theorem isAttrs_of_isFlags (h : IsFlags flags) : IsAttrs (pagePresent ||| flags) := by
  have hmask : ∀ m : BitVec 64, m &&& 0x7ffffffffffff080 = m → m &&& pagePresent = 0#64 →
      (pagePresent ||| flags) &&& m = 0#64 := by
    intro m hm hpresent
    rw [BitVec.and_comm, BitVec.and_or_distrib_left, hpresent, BitVec.zero_or, ← hm,
      BitVec.and_assoc, BitVec.and_comm _ flags, show flags &&& 0x7ffffffffffff080 = 0#64 from h,
      BitVec.and_zero]
  refine ⟨?_, hmask _ (by decide) (by decide), hmask _ (by decide) (by decide)⟩
  rw [BitVec.getLsbD_or]
  rfl

variable {attrs x paddr : BitVec 64} {n k vaddr v w : Nat}

theorem IsAttrs.or_ne_zero (h : IsAttrs attrs) (x : BitVec 64) : x ||| attrs ≠ 0 := by
  intro h0
  have hbit := congrArg (fun y => y.getLsbD 0) h0
  simp only [BitVec.getLsbD_or, h.present, Bool.or_true] at hbit
  exact absurd hbit (by decide)

theorem IsAttrs.entryPaddr_or (h : IsAttrs attrs) (x : BitVec 64) :
    entryPaddr (x ||| attrs) = entryPaddr x := by
  unfold entryPaddr
  rw [BitVec.and_comm, BitVec.and_or_distrib_left, BitVec.and_comm _ attrs, h.outside,
    BitVec.or_zero, BitVec.and_comm]

theorem entryPaddr_entryPaddr (x : BitVec 64) : entryPaddr (entryPaddr x) = entryPaddr x := by
  unfold entryPaddr
  rw [BitVec.and_assoc, BitVec.and_self]

theorem entryPaddr_and_small (x : BitVec 64) : entryPaddr x &&& 0x80 = 0 := by
  unfold entryPaddr
  rw [BitVec.and_assoc]
  have : (0x7ffffffffffff000 : BitVec 64) &&& 0x80 = 0#64 := by decide
  rw [this, BitVec.and_zero]
  rfl

theorem IsAttrs.or_and_small (h : IsAttrs attrs) (hx : entryPaddr x = x) :
    (x ||| attrs) &&& 0x80 = 0 := by
  rw [BitVec.and_comm, BitVec.and_or_distrib_left, BitVec.and_comm _ attrs, h.small,
    BitVec.or_zero, BitVec.and_comm, ← hx, entryPaddr_and_small]

theorem IsAttrs.next_or (h : IsAttrs attrs) (x : BitVec 64) :
    next (x ||| attrs) = some (entryPaddr x) := by
  unfold next
  rw [if_neg (h.or_ne_zero x), h.entryPaddr_or]

/-- An aligned address below 2^63 is all of an entry's address. -/
theorem entryPaddr_of_aligned (h : x.toNat % 4096 = 0) (hlt : x.toNat < 0x8000000000000000) :
    entryPaddr x = x := by
  refine BitVec.eq_of_toNat_eq ?_
  unfold entryPaddr
  rw [BitVec.toNat_and]
  obtain ⟨z, hz⟩ : ∃ z, x.toNat = z <<< 12 := ⟨x.toNat / 4096, by
    omega⟩
  have hmask : (0x7ffffffffffff000 : BitVec 64).toNat = (2 ^ 51 - 1) <<< 12 := by decide
  rw [hz, hmask, ← shiftLeft_and_distrib, and_two_pow_sub_one_eq_mod, mod_eq_of_lt]
  omega

/-- The pages after an aligned address are aligned. -/
theorem entryPaddr_add (h : paddr &&& 0xfff = 0) (hn : paddr.toNat + n * 4096 ≤ 0x8000000000000000)
    (hk : k < n) : entryPaddr (paddr + .ofNat 64 (k * 4096)) = paddr + .ofNat 64 (k * 4096) := by
  have haligned : paddr.toNat % 4096 = 0 := by
    have := congrArg BitVec.toNat h
    rw [← and_two_pow_sub_one_eq_mod paddr.toNat 12]
    exact this
  have hnat : (paddr + .ofNat 64 (k * 4096)).toNat = paddr.toNat + k * 4096 := by
    rw [BitVec.toNat_add, BitVec.toNat_ofNat]
    omega
  exact entryPaddr_of_aligned (by omega) (by omega)

/-! ## Paths -/

/-- The indices of the first `j` levels, the last one first. -/
def pathTo (vaddr : Nat) : Nat → List Nat
  | 0 => []
  | j + 1 => nthLevelIndex (4 - j) vaddr :: pathTo vaddr j

theorem nthLevelIndex_one (vaddr : Nat) : nthLevelIndex 1 vaddr = vaddr / 4096 % 512 := by
  simp only [nthLevelIndex, shiftRight_eq_div_pow]

theorem nthLevelIndex_four (vaddr : Nat) : nthLevelIndex 4 vaddr = vaddr / 0x8000000000 % 512 := by
  simp only [nthLevelIndex, shiftRight_eq_div_pow]

/-- Paths to tables of user space. -/
def UserPath (q : List Nat) : Prop := q.length ≤ 3 ∧ ∀ i, q.getLast? = some i → i < 256

theorem closed_userPath : Closed UserPath := by
  rintro i q ⟨hlen, hlast⟩
  refine ⟨?_, fun j hj => hlast j ?_⟩
  · simp only [length_cons] at hlen
    omega
  · rw [getLast?_cons, hj]
    rfl

theorem length_pathTo (vaddr j : Nat) : (pathTo vaddr j).length = j := by
  induction j with
  | zero => rfl
  | succ j ih => rw [pathTo, length_cons, ih]

theorem userPath_pathTo {j : Nat} (h : vaddr < userEnd) (hj : j ≤ 3) :
    UserPath (pathTo vaddr j) := by
  refine ⟨by rw [length_pathTo]; exact hj, ?_⟩
  have hfirst : nthLevelIndex 4 vaddr < 256 := by
    unfold userEnd at h
    rw [nthLevelIndex_four]
    omega
  intro i hi
  match j, hj with
  | 0, _ => cases hi
  | 1, _ | 2, _ | 3, _ =>
    cases hi
    exact hfirst

/-- With `k` levels left, the path is one index longer than before. -/
theorem pathTo_level (vaddr : Nat) (hk : k + 1 ≤ 3) :
    pathTo vaddr (3 - k) = nthLevelIndex (k + 2) vaddr :: pathTo vaddr (3 - (k + 1)) :=
  match k, hk with
  | 0, _ => rfl
  | 1, _ => rfl
  | 2, _ => rfl

/-- The path to an upper table is the beginning of the path further
down. -/
theorem suffix_pathTo (vaddr : Nat) {j : Nat} (h : j ≤ k) : pathTo vaddr j <:+ pathTo vaddr k := by
  induction k with
  | zero =>
    obtain rfl : j = 0 := by omega
    exact suffix_refl _
  | succ k ih =>
    by_cases hj : j = k + 1
    · rw [hj]
    · exact (ih (by omega)).trans (suffix_cons _ _)

/-- The path is that of the region of the table. -/
theorem pathTo_three (vaddr : Nat) : pathTo vaddr 3 =
    [vaddr / 0x200000 % 512, vaddr / 0x40000000 % 512, vaddr / 0x8000000000 % 512] := by
  simp only [pathTo, nthLevelIndex, shiftRight_eq_div_pow]

theorem pathTo_eq_iff (hv : v < userEnd) (hw : w < userEnd) :
    pathTo w 3 = pathTo v 3 ↔ w / 0x200000 = v / 0x200000 := by
  unfold userEnd at hv hw
  rw [pathTo_three, pathTo_three]
  simp only [cons.injEq, and_true]
  omega

/-! ## The tree of tables -/

variable {s s' : State} {t : BitVec 64} {q : List Nat} {i : Nat} {x : Panic}

/-- The table a path leads to. -/
abbrev State.tableAt (s : State) (q : List Nat) : Option (BitVec 64) :=
  Radix.tableAt next s.mem s.pml4 q

theorem tableAt_cons (s : State) (i : Nat) (q : List Nat) :
    s.tableAt (i :: q) = (s.tableAt q).bind fun t => next (s.mem t i) := rfl

/-- The entry of the last level for an address. -/
def State.entryAt (s : State) (vaddr : Nat) : BitVec 64 :=
  match s.tableAt (pathTo vaddr 3) with
  | none => 0
  | some t => s.mem t (nthLevelIndex 1 vaddr)

theorem entryAt_of_none (h : s.tableAt (pathTo vaddr 3) = none) : s.entryAt vaddr = 0 := by
  unfold entryAt
  rw [h]

theorem entryAt_of_some (h : s.tableAt (pathTo vaddr 3) = some t) :
    s.entryAt vaddr = s.mem t (nthLevelIndex 1 vaddr) := by
  unfold entryAt
  rw [h]

theorem entryAt_congr (htable : s'.tableAt (pathTo w 3) = s.tableAt (pathTo w 3))
    (hmem : ∀ u, s.tableAt (pathTo w 3) = some u →
      s'.mem u (nthLevelIndex 1 w) = s.mem u (nthLevelIndex 1 w)) : s'.entryAt w = s.entryAt w := by
  cases hu : s.tableAt (pathTo w 3) with
  | none => rw [entryAt_of_none hu, entryAt_of_none (htable.trans hu)]
  | some u => rw [entryAt_of_some hu, entryAt_of_some (htable.trans hu), hmem u hu]

/-- **The invariant.** The tables of user space form a tree, apart from
the pages of the arena. -/
structure Inv (s : State) : Prop where
  tree : Tree UserPath next s.mem s.pml4
  apart : ∀ q t, UserPath q → s.tableAt q = some t → t ∉ s.arena
  nodup : s.arena.Nodup
  frames : ∀ a ∈ s.arena, entryPaddr a = a
  small : ∀ q t i, UserPath q → q ≠ [] → s.tableAt q = some t → s.mem t i &&& 0x80 = 0

/-- The same entries of the last level. -/
def SameEntries (s s' : State) : Prop := ∀ w, w < userEnd → s'.entryAt w = s.entryAt w

theorem SameEntries.trans {s'' : State} (h : SameEntries s s') (h' : SameEntries s' s'') :
    SameEntries s s'' := by
  intro w hw
  rw [h' w hw, h w hw]

/-- A table of an upper level is none of the last. -/
theorem Inv.ne_leaf (h : Inv s) (hq : UserPath (i :: q)) (ht : s.tableAt q = some t)
    (hw : w < userEnd) {u : BitVec 64} (hu : s.tableAt (pathTo w 3) = some u) : u ≠ t := by
  rintro rfl
  have hlen := congrArg length
    (h.tree (closed_userPath i q hq) (userPath_pathTo hw (le_refl 3)) ht hu)
  have hle := hq.1
  rw [length_pathTo] at hlen
  simp only [length_cons] at hle
  omega

variable {e : BitVec 64}

/-- An entry is written that leads nowhere else. -/
theorem Inv.set (h : Inv s) (hsmall : e &&& 0x80 = 0)
    (hsame : ∀ p, UserPath p → (s.set t i e).tableAt p = s.tableAt p) : Inv (s.set t i e) := by
  refine ⟨?_, ?_, h.nodup, h.frames, ?_⟩
  · intro p p' u hp hp' h₁ h₂
    exact h.tree hp hp' ((hsame p hp).symm.trans h₁) ((hsame p' hp').symm.trans h₂)
  · intro p u hp hu
    exact h.apart p u hp ((hsame p hp).symm.trans hu)
  · intro p u j hp hne hu
    simp only [State.set, write]
    split
    · exact hsmall
    · exact h.small p u j hp hne ((hsame p hp).symm.trans hu)

/-- **The attributes of an entry** of an upper level may change. -/
theorem Inv.setAttrs (h : Inv s) (hq : UserPath (i :: q)) (ht : s.tableAt q = some t)
    (he : next e = next (s.mem t i)) (hsmall : e &&& 0x80 = 0) :
    Inv (s.set t i e) ∧ SameEntries s (s.set t i e) ∧
      ∀ p, (s.set t i e).tableAt p = s.tableAt p := by
  have hsame : ∀ p, (s.set t i e).tableAt p = s.tableAt p := fun p => tableAt_write_of_next_eq he p
  refine ⟨h.set hsmall fun p _ => hsame p, fun w hw => ?_, hsame⟩
  exact entryAt_congr (hsame _) fun u hu => write_of_ne (h.ne_leaf hq ht hw hu) _ _ _

/-- **A missing table is attached**: the first page of the arena. -/
theorem Inv.attach (h : Inv s) (hattrs : IsAttrs attrs) (hq : UserPath (i :: q))
    (ht : s.tableAt q = some t) (h0 : s.mem t i = 0) {page : BitVec 64} {rest : List (BitVec 64)}
    (harena : s.arena = page :: rest)
    (hs' : s' = { s with mem := write (fill s.mem page 0) t i (page ||| attrs), arena := rest }) :
    Inv s' ∧ SameEntries s s' ∧ s'.tableAt (i :: q) = some page := by
  have hmem : page ∈ s.arena := by
    rw [harena]
    exact mem_cons_self
  have hpage := h.frames page hmem
  have hnext : next (page ||| attrs) = some page := by rw [hattrs.next_or, hpage]
  have hnodup := h.nodup
  rw [harena, nodup_cons] at hnodup
  have hfresh : ∀ p, UserPath p → Radix.tableAt next s.mem s.pml4 p ≠ some page :=
    fun p hp hpt => h.apart p page hp hpt hmem
  have hnone : next (s.mem t i) = none := if_pos h0
  have hq' := closed_userPath i q hq
  have hmem' : s'.mem = write (fill s.mem page 0) t i (page ||| attrs) := by rw [hs']
  have harena' : s'.arena = rest := by rw [hs']
  have htables : ∀ p, UserPath p →
      s'.tableAt p = if p = i :: q then some page else s.tableAt p := by
    intro p hp
    subst hs'
    exact tableAt_attach closed_userPath h.tree hq' ht (if_pos rfl) hnext hfresh hnone hp
  refine ⟨⟨?_, ?_, harena' ▸ hnodup.2, ?_, ?_⟩, fun w hw => ?_, ?_⟩
  · subst hs'
    exact h.tree.attach closed_userPath hq' ht (if_pos rfl) hnext hfresh hnone
  · intro p u hp hu
    replace hu := (htables p hp).symm.trans hu
    rw [harena']
    split at hu
    · cases hu
      exact hnodup.1
    · intro hrest
      refine h.apart p u hp hu ?_
      rw [harena]
      exact mem_cons_of_mem page hrest
  · intro a ha
    rw [harena'] at ha
    refine h.frames a ?_
    rw [harena]
    exact mem_cons_of_mem page ha
  · intro p u j hp hne hu
    replace hu := (htables p hp).symm.trans hu
    simp only [hmem', write, fill]
    split
    · exact hattrs.or_and_small hpage
    · split
      · rfl
      · split at hu
        · cases hu
          contradiction
        · exact h.small p u j hp hne hu
  · have hpath := htables _ (userPath_pathTo hw (le_refl 3))
    by_cases hself : pathTo w 3 = i :: q
    · -- the new table is the last one for `w`, and empty
      rw [if_pos hself] at hpath
      have hbefore : s.tableAt (pathTo w 3) = none := by
        rw [hself, tableAt_cons, ht, bind_some, hnone]
      have htp : page ≠ t := by
        rintro rfl
        exact hfresh q hq' ht
      rw [entryAt_of_none hbefore, entryAt_of_some hpath, hmem']
      exact (write_of_ne htp _ _ _).trans (fill_self _ _ _ _)
    · rw [if_neg hself] at hpath
      refine entryAt_congr hpath fun u hu => ?_
      have hup : u ≠ page := by
        rintro rfl
        exact hfresh _ (userPath_pathTo hw (le_refl 3)) hu
      rw [hmem', write_of_ne (h.ne_leaf hq ht hw hu), fill_of_ne hup]
  · exact (htables _ hq).trans (if_pos rfl)

/-- The entries of a table of the last level were written, from an index
on. -/
structure Leaves (v i n : Nat) (f : Nat → BitVec 64) (s s' : State) : Prop where
  inv : Inv s'
  same : ∀ p, UserPath p → s'.tableAt p = s.tableAt p
  entries : ∀ w, w < userEnd → s'.entryAt w =
    if v / 0x200000 * 512 + i ≤ w / 4096 ∧ w / 4096 < v / 0x200000 * 512 + i + n then
      f (w / 4096 - (v / 0x200000 * 512 + i))
    else s.entryAt w

variable {f : Nat → BitVec 64}

theorem Leaves.nil (h : Inv s) : Leaves v i 0 f s s := by
  refine ⟨h, fun _ _ => rfl, fun w _ => ?_⟩
  rw [if_neg (by omega)]

theorem Leaves.cons {s₁ : State} (h₁ : Leaves v i 1 (fun _ => f 0) s s₁)
    (h : Leaves v (i + 1) n (fun k => f (k + 1)) s₁ s') : Leaves v i (n + 1) f s s' := by
  refine ⟨h.inv, fun p hp => (h.same p hp).trans (h₁.same p hp), fun w hw => ?_⟩
  rw [h.entries w hw, h₁.entries w hw]
  by_cases hw' : w / 4096 = v / 0x200000 * 512 + i
  · rw [if_neg (by omega), if_pos (by omega), if_pos (by omega), hw', Nat.sub_self]
  · by_cases hin : v / 0x200000 * 512 + i ≤ w / 4096 ∧
        w / 4096 < v / 0x200000 * 512 + i + (n + 1)
    · rw [if_pos (by omega), if_pos hin]
      congr 1
      omega
    · rw [if_neg (by omega), if_neg (fun hone => hw' (by omega)), if_neg hin]

/-- **An entry of the last level is written**: it is that of one page. -/
theorem Inv.setLeaf (h : Inv s) (hv : v < userEnd) (ht : s.tableAt (pathTo v 3) = some t)
    (hi : i < 512) (hsmall : e &&& 0x80 = 0) : Leaves v i 1 (fun _ => e) s (s.set t i e) := by
  have hleaf := userPath_pathTo hv (le_refl 3)
  -- no path is longer than the one to this table
  have hsame : ∀ p, UserPath p → (s.set t i e).tableAt p = s.tableAt p := by
    intro p hp
    refine tableAt_write closed_userPath h.tree hleaf ht hp fun hsuffix => ?_
    have hle := hsuffix.length_le
    have hlen := hp.1
    rw [length_cons, length_pathTo] at hle
    omega
  refine ⟨h.set hsmall hsame, hsame, fun w hw => ?_⟩
  have hw' := userPath_pathTo hw (le_refl 3)
  have hregion := pathTo_eq_iff hv hw
  by_cases hpath : pathTo w 3 = pathTo v 3
  · have htw : s.tableAt (pathTo w 3) = some t := by rw [hpath, ht]
    rw [entryAt_of_some ((hsame _ hw').trans htw), entryAt_of_some htw, nthLevelIndex_one]
    have hwv := hregion.1 hpath
    simp only [State.set, write]
    by_cases hidx : w / 4096 % 512 = i
    · rw [if_pos ⟨trivial, hidx⟩, if_pos (by omega)]
    · rw [if_neg (fun h => hidx h.2), if_neg (by omega)]
  · have hwv : w / 0x200000 ≠ v / 0x200000 := fun hwv => hpath (hregion.2 hwv)
    rw [if_neg (by omega)]
    refine entryAt_congr (hsame _ hw') fun u hu => write_of_ne ?_ _ _ _
    rintro rfl
    exact hpath (h.tree hw' hleaf hu ht)

theorem Leaves.tableAt_eq (h : Leaves v i n f s s') (hv : v < userEnd)
    (ht : s.tableAt (pathTo v 3) = some t) : s'.tableAt (pathTo v 3) = some t :=
  (h.same _ (userPath_pathTo hv (le_refl 3))).trans ht

/-! ## The calls -/

/-- **One level down**, with a table allocated if there is none. -/
theorem enter_spec (h : Inv s) (hattrs : IsAttrs attrs) (hq : UserPath (i :: q))
    (ht : s.tableAt q = some t) : enter attrs t i s = .error .outOfMemory ∨
      ∃ t' s', enter attrs t i s = .ok (t', s') ∧ Inv s' ∧ SameEntries s s' ∧
        s'.tableAt (i :: q) = some t' := by
  unfold enter ensureTable kmallocZeroed
  split
  next h0 =>
    cases harena : s.arena with
    | nil => exact .inl rfl
    | cons page rest =>
      have hframe := h.frames page (by rw [harena]; exact mem_cons_self)
      have hwrite : write (write (fill s.mem page 0) t i page) t i (page ||| attrs) =
          write (fill s.mem page 0) t i (page ||| attrs) := by
        funext u j
        unfold write
        split <;> rfl
      refine .inr ⟨_, _, rfl, ?_⟩
      simp only [State.set, write_self, hframe, hwrite, hattrs.entryPaddr_or]
      exact h.attach hattrs hq ht h0 harena rfl
  next h0 =>
    have hnext : next (entryPaddr (s.mem t i) ||| attrs) = next (s.mem t i) := by
      rw [hattrs.next_or, entryPaddr_entryPaddr, next, if_neg h0]
    obtain ⟨hinv, hsame, htables⟩ := h.setAttrs hq ht hnext
      (hattrs.or_and_small (entryPaddr_entryPaddr _))
    refine .inr ⟨_, _, rfl, hinv, hsame, ?_⟩
    rw [htables, tableAt_cons, ht, bind_some, hattrs.entryPaddr_or, entryPaddr_entryPaddr,
      next, if_neg h0]

/-- **All levels down.** By induction on the levels that are left. -/
theorem enterTables_spec (hattrs : IsAttrs attrs) (hv : v < userEnd) (hk : k ≤ 3) (h : Inv s)
    (ht : s.tableAt (pathTo v (3 - k)) = some t) : enterTables attrs v k t s = .error .outOfMemory ∨
      ∃ t' s', enterTables attrs v k t s = .ok (t', s') ∧ Inv s' ∧ SameEntries s s' ∧
        s'.tableAt (pathTo v 3) = some t' := by
  induction k generalizing s t with
  | zero => exact .inr ⟨t, s, rfl, h, fun _ _ => rfl, ht⟩
  | succ k ih =>
    have hpath := (pathTo_level v hk).symm
    unfold enterTables
    obtain herr | ⟨t₁, s₁, henter, h₁, hsame, ht₁⟩ := enter_spec h hattrs
      (hpath ▸ userPath_pathTo hv (show 3 - k ≤ 3 by omega)) ht
    · rw [herr]
      exact .inl rfl
    · rw [hpath] at ht₁
      rw [henter]
      obtain herr | ⟨t', s', hrun, h', hsame', ht'⟩ := ih (by omega) h₁ ht₁
      · exact .inl herr
      · exact .inr ⟨t', s', hrun, h', hsame.trans hsame', ht'⟩

/-- **The pages of a table are linked**, those that fit. By induction on
their number. -/
theorem linkEntries_spec (hattrs : IsAttrs attrs) (hv : v < userEnd) (hn : i + n ≤ 512) (h : Inv s)
    (ht : s.tableAt (pathTo v 3) = some t) (vaddr : Nat)
    (hframes : ∀ k, k < n → entryPaddr (paddr + .ofNat 64 (k * 4096)) =
      paddr + .ofNat 64 (k * 4096)) :
    ∃ vaddr' paddr' s', linkEntries attrs t n i vaddr paddr s = (0, vaddr', paddr', s') ∧
      Leaves v i n (fun k => (paddr + .ofNat 64 (k * 4096)) ||| attrs) s s' := by
  induction n generalizing i s vaddr paddr with
  | zero => exact ⟨vaddr, paddr, s, rfl, .nil h⟩
  | succ n ih =>
    have hfirst := hframes 0 (by omega)
    have hshift : ∀ k, (paddr + 4096) + .ofNat 64 (k * 4096) =
        paddr + .ofNat 64 ((k + 1) * 4096) := by
      intro k
      rw [BitVec.add_assoc, add_mul, BitVec.ofNat_add, BitVec.add_comm (BitVec.ofNat 64 _)]
      rfl
    have hleaf := h.setLeaf (i := i) hv ht (by omega) (hattrs.or_and_small hfirst)
    have hframes' : ∀ k, k < n → entryPaddr ((paddr + 4096) + .ofNat 64 (k * 4096)) =
        (paddr + 4096) + .ofNat 64 (k * 4096) :=
      fun k hk => (hshift k).symm ▸ hframes (k + 1) (by omega)
    obtain ⟨vaddr', paddr', s', hrun, hrest⟩ := ih (i := i + 1) (by omega)
      hleaf.inv (hleaf.tableAt_eq hv ht) (nextPage vaddr) hframes'
    simp only [hshift] at hrest
    refine ⟨vaddr', paddr', s', ?_, hleaf.cons hrest⟩
    rw [zero_mul, BitVec.add_zero] at hrun
    rw [linkEntries, if_pos (show i < pageEntryNum by unfold pageEntryNum; omega)]
    exact hrun

/-- **`link_page` of pages in one table.** -/
theorem linkPage_spec (h : Inv s) (haligned : (Op.link v paddr n flags).Aligned)
    (hfits : (Op.link v paddr n flags).Fits) : linkPage v paddr n flags s = .error .outOfMemory ∨
    ∃ s', linkPage v paddr n flags s = .ok s' ∧ Inv s' ∧ ∀ w, w < userEnd →
      entryPaddr (s'.entryAt w) = if v / 4096 ≤ w / 4096 ∧ w / 4096 < v / 4096 + n then
        paddr + .ofNat 64 ((w / 4096 - v / 4096) * 4096) else entryPaddr (s.entryAt w) := by
  obtain ⟨_, hv, _, hpaddr, hmax, hflags⟩ := haligned
  have hattrs := isAttrs_of_isFlags hflags
  have hframes : ∀ k, k < n → entryPaddr (paddr + .ofNat 64 (k * 4096)) =
      paddr + .ofNat 64 (k * 4096) := fun k hk => entryPaddr_add hpaddr hmax hk
  rw [linkPage, if_pos (hv.trans (by decide)), linkRounds]
  obtain herr | ⟨t, s₁, henter, h₁, hsame, ht⟩ :=
    enterTables_spec hattrs hv (le_refl 3) h rfl
  · rw [herr]
    exact .inl rfl
  · obtain ⟨vaddr', paddr', s₂, hentries, h₂, -, hentry⟩ :=
      linkEntries_spec hattrs hv hfits h₁ ht v hframes
    simp only [henter, ok_bind, hentries, if_true]
    have hpage : v / 0x200000 * 512 + nthLevelIndex 1 v = v / 4096 := by
      rw [nthLevelIndex_one]
      omega
    refine .inr ⟨s₂, rfl, h₂, fun w hw => ?_⟩
    rw [hentry w hw, hpage, hsame w hw]
    split
    next hin => rw [hattrs.entryPaddr_or, hframes _ (by omega)]
    next => rfl

/-- Of more pages than are left in a table, some remain. -/
theorem linkEntries_remaining (hi : i ≤ 512) (h : 512 < i + n) (attrs t : BitVec 64) (vaddr : Nat)
    (paddr : BitVec 64) (s : State) : (linkEntries attrs t n i vaddr paddr s).1 ≠ 0 := by
  induction n generalizing i vaddr paddr s with
  | zero => omega
  | succ n ih =>
    rw [linkEntries]
    split
    next hlt =>
      unfold pageEntryNum at hlt
      exact ih (by omega) (by omega) _ _ _
    next => exact succ_ne_zero n

/-- **More pages than a table holds are never all linked**, in however
many rounds. -/
theorem linkRounds_forever (hn : 512 < n) (fuel v : Nat) (paddr : BitVec 64) (s s' : State) :
    linkRounds attrs n fuel v paddr s ≠ .ok s' := by
  induction fuel generalizing v paddr s with
  | zero =>
    nofun
  | succ fuel ih =>
    intro hrun
    obtain ⟨⟨t, s₁⟩, _, hrest⟩ := bind_eq_ok.1 hrun
    have hindex : nthLevelIndex 1 v < 512 := mod_lt _ (by decide)
    have hremaining := linkEntries_remaining (le_of_lt hindex)
      (show 512 < nthLevelIndex 1 v + n by omega) attrs t v paddr s₁
    simp only at hrest
    rw [if_neg hremaining] at hrest
    exact ih _ _ _ hrest

/-- An entry on the way is empty, and there is no table for the address;
or it leads to the next table. -/
theorem tableAt_level (hk : k + 1 ≤ 3) (ht : s.tableAt (pathTo v (3 - (k + 1))) = some t) :
    (s.mem t (nthLevelIndex (k + 2) v) = 0 ∧ s.tableAt (pathTo v 3) = none) ∨
      (s.mem t (nthLevelIndex (k + 2) v) ≠ 0 ∧ s.tableAt (pathTo v (3 - k)) =
        some (entryPaddr (s.mem t (nthLevelIndex (k + 2) v)))) := by
  have hnext : s.tableAt (pathTo v (3 - k)) = next (s.mem t (nthLevelIndex (k + 2) v)) := by
    rw [pathTo_level v hk, tableAt_cons, ht, bind_some]
  by_cases h0 : s.mem t (nthLevelIndex (k + 2) v) = 0
  · rw [next, if_pos h0] at hnext
    exact .inl ⟨h0, tableAt_of_suffix hnext (suffix_pathTo v (by omega))⟩
  · rw [next, if_neg h0] at hnext
    exact .inr ⟨h0, hnext⟩

/-! ### unlink_page -/

/-- The tables on the way are found, or an assertion fails. -/
theorem findTables_eq (hk : k ≤ 3) (ht : s.tableAt (pathTo v (3 - k)) = some t) :
    findTables s v k t = (s.tableAt (pathTo v 3)).elim (.error .assertion) .ok := by
  induction k generalizing t with
  | zero =>
    rw [ht]
    rfl
  | succ k ih =>
    rcases tableAt_level hk ht with ⟨h0, hnone⟩ | ⟨h0, hnext⟩
    · rw [hnone]
      exact if_pos h0
    · exact (if_neg h0).trans (ih (by omega) hnext)

/-- **The entries of a table are cleared**, as many as there are. By
induction on their number. -/
theorem unlinkEntries_spec (hv : v < userEnd) (hi : i ≤ 512) (hend : vaddr + n * 4096 ≤ userEnd)
    (h : Inv s) (ht : s.tableAt (pathTo v 3) = some t) : ∃ s', unlinkEntries t n i vaddr s =
        (n - min n (512 - i), vaddr + min n (512 - i) * 4096, s') ∧
      Leaves v i (min n (512 - i)) (fun _ => 0) s s' := by
  induction n generalizing i s vaddr with
  | zero => exact ⟨s, by simp [unlinkEntries], by simpa using .nil h⟩
  | succ n ih =>
    by_cases hlt : i < 512
    · have hleaf := h.setLeaf (e := 0) hv ht hlt rfl
      have hnext : nextPage vaddr = vaddr + 4096 := by
        unfold userEnd at hend
        unfold nextPage pageSize
        omega
      obtain ⟨s', hrun, hrest⟩ := ih (i := i + 1) (by omega)
        (show vaddr + 4096 + n * 4096 ≤ userEnd by omega) hleaf.inv (hleaf.tableAt_eq hv ht)
      have hmin : min (n + 1) (512 - i) = min n (512 - (i + 1)) + 1 := by omega
      refine ⟨s', ?_, hmin ▸ hleaf.cons hrest⟩
      rw [unlinkEntries, if_pos (show i < pageEntryNum from hlt), hnext, hrun]
      simp only [Prod.mk.injEq, and_true]
      omega
    · have hmin : min (n + 1) (512 - i) = 0 := by omega
      refine ⟨s, ?_, hmin ▸ .nil h⟩
      rw [unlinkEntries, if_neg (show ¬ i < pageEntryNum from hlt), hmin, zero_mul]
      rfl

/-- The pages of the range have tables. -/
def HasTables (s : State) (v n : Nat) : Prop :=
  ∀ k, k < n → s.tableAt (pathTo (v + k * 4096) 3) ≠ none

/-- **`unlink_page` over any number of tables.** By induction on the
rounds. -/
theorem unlinkRounds_spec {fuel : Nat} (hfuel : n ≤ fuel) (hend : v + n * 4096 ≤ userEnd)
    (h : Inv s) :
    (∀ s', unlinkRounds fuel n v s = .ok s' → Inv s' ∧ ∀ w, w < userEnd → s'.entryAt w =
      if v / 4096 ≤ w / 4096 ∧ w / 4096 < v / 4096 + n then 0 else s.entryAt w) ∧
    (HasTables s v n → ∀ x, unlinkRounds fuel n v s ≠ .error x) := by
  induction fuel generalizing n v s with
  | zero =>
    obtain rfl : n = 0 := by omega
    refine ⟨fun s' hrun => ?_, fun _ x hrun => by cases hrun⟩
    cases hrun
    refine ⟨h, fun w _ => ?_⟩
    rw [if_neg (by omega)]
  | succ fuel ih =>
    cases n with
    | zero =>
      refine ⟨fun s' hrun => ?_, fun _ x hrun => by cases hrun⟩
      cases hrun
      refine ⟨h, fun w _ => ?_⟩
      rw [if_neg (by omega)]
    | succ n =>
      have hv : v < userEnd := by omega
      have hfind := findTables_eq (s := s) (v := v) (le_refl 3) rfl
      unfold unlinkRounds
      cases ht : s.tableAt (pathTo v 3) with
      | none =>
        rw [ht] at hfind
        rw [hfind]
        refine ⟨fun s' hrun => (by cases hrun), fun htables => ?_⟩
        refine absurd ?_ (htables 0 (by omega))
        exact ht
      | some t =>
        rw [ht] at hfind
        have hindex : nthLevelIndex 1 v < 512 := mod_lt _ (by decide)
        obtain ⟨s₁, hentries, hleaves⟩ := unlinkEntries_spec hv (le_of_lt hindex) hend h ht
        simp only [hfind, elim_some, ok_bind, hentries]
        -- the pages of this table, and the rest
        have hpage : v / 0x200000 * 512 + nthLevelIndex 1 v = v / 4096 := by
          rw [nthLevelIndex_one]
          omega
        have hk : 1 ≤ min (n + 1) (512 - nthLevelIndex 1 v) := by omega
        have hkn : min (n + 1) (512 - nthLevelIndex 1 v) ≤ n + 1 := min_le_left _ _
        generalize min (n + 1) (512 - nthLevelIndex 1 v) = k at hk hkn hleaves ⊢
        obtain ⟨hok, herr⟩ := ih (n := n + 1 - k) (v := v + k * 4096) (by omega) (by omega)
          hleaves.inv
        refine ⟨fun s' hrun => ?_, fun htables => ?_⟩
        · obtain ⟨h', hentry'⟩ := hok s' hrun
          refine ⟨h', fun w hw => ?_⟩
          rw [hentry' w hw, hleaves.entries w hw, hpage]
          by_cases hin : v / 4096 ≤ w / 4096 ∧ w / 4096 < v / 4096 + (n + 1)
          · rw [if_pos hin]
            by_cases hfirst : w / 4096 < v / 4096 + k
            · rw [if_neg (by omega), if_pos (by omega)]
            · rw [if_pos (by omega)]
          · rw [if_neg hin, if_neg (by omega), if_neg (by omega)]
        · refine herr fun j hj => ?_
          rw [hleaves.same _ (userPath_pathTo (by omega) (le_refl 3))]
          have hshift : v + k * 4096 + j * 4096 = v + (k + j) * 4096 := by omega
          rw [hshift]
          exact htables (k + j) (by omega)

/-! ### resolve_paddr_from_vaddr -/

/-- What holds of a page table that agrees with a map. -/
structure Sound (s : State) (m : PageMap) : Prop where
  inv : Inv s
  entries : ∀ w, w < userEnd → entryPaddr (s.entryAt w) = m (w / pageSize)

/-- **A call that fits keeps the page table and the map together.** -/
theorem Sound.perform {m : PageMap} (h : Sound s m) {op : Op} (haligned : op.Aligned)
    (hfits : op.Fits) (hrun : perform op s = .ok s') : Sound s' (op.apply m) := by
  cases op with
  | link v paddr n flags =>
    have hlink : linkPage v paddr n flags s = .ok s' := hrun
    obtain herr | ⟨s₁, hok, h', hentry⟩ := linkPage_spec h.inv haligned hfits
    · cases herr.symm.trans hlink
    · cases hok.symm.trans hlink
      refine ⟨h', fun w hw => ?_⟩
      rw [hentry w hw, h.entries w hw]
      rfl
  | unlink v n =>
    have hrounds : unlinkPage v n s = .ok s' := hrun
    unfold unlinkPage at hrounds
    split at hrounds
    next =>
      obtain ⟨h', hentry⟩ := (unlinkRounds_spec (le_refl n) haligned.2.2 h.inv).1 s' hrounds
      refine ⟨h', fun w hw => ?_⟩
      have happly : (Op.unlink v n).apply m (w / pageSize) =
          if v / 4096 ≤ w / 4096 ∧ w / 4096 < v / 4096 + n then 0 else m (w / 4096) := rfl
      rw [hentry w hw, happly]
      by_cases hin : v / 4096 ≤ w / 4096 ∧ w / 4096 < v / 4096 + n
      · rw [if_pos hin, if_pos hin]
        rfl
      · rw [if_neg hin, if_neg hin]
        exact h.entries w hw
    next => cases hrounds

instance (op : Op) : Decidable op.Aligned := by
  cases op <;> unfold Op.Aligned <;> infer_instance

instance (op : Op) : Decidable op.Fits := by
  cases op <;> unfold Op.Fits <;> infer_instance

end Archives.Resea.Paging
