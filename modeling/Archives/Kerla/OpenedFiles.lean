import Archives.Kerla.Model.OpenedFile
/-!
# Kerla — descriptors and the files behind them

A call on the table of opened files behaves well in all cases but two: a
negative descriptor, or a negative lower bound, makes the table grow
beyond what a vector can hold; and a file whose `open` hook refuses has
its descriptor already, which stays behind although the call fails.

`Placing` says once what `open_with_fixed_fd` can do, and `Opening` what
it does with a descriptor of `alloc_fd`; the calls are cases of the two.
-/

namespace Archives.Kerla.OpenedFileTable

open Option Call Function Int List State

variable {s t s' : State} {fd gte i j : Int} {hook : Hook} {options : OpenOptions} {a : Nat}
  {file : LocalOpenedFile} {r : Except Errno Int}

/-! ## Descriptors as indices -/

/-- A number that fits an `i32`. -/
def IsI32 (n : Int) : Prop := -0x80000000 ≤ n ∧ n < 0x80000000

theorem isI32_toInt (b : BitVec 32) : IsI32 b.toInt := by
  have hlo := BitVec.le_toInt b
  have hhi := BitVec.toInt_lt (x := b)
  exact ⟨hlo, hhi⟩

theorem asUsize_of_nonneg (h0 : 0 ≤ fd) (h : IsI32 fd) : asUsize fd = fd.toNat := by
  obtain ⟨_, hhi⟩ := h
  unfold asUsize
  omega

theorem asUsize_of_neg (h0 : fd < 0) (h : IsI32 fd) : isizeMax < asUsize fd := by
  obtain ⟨hlo, _⟩ := h
  unfold asUsize isizeMax
  omega

/-! ## The table -/

/-- **The invariant of the table.** -/
structure WellFormed (s : State) : Prop where
  prevFd : s.table.prevFd = 1
  length_le : s.table.files.length ≤ 1024

theorem WellFormed.congr (h : WellFormed s) (ht : t.table = s.table) : WellFormed t :=
  ⟨ht ▸ h.prevFd, ht ▸ h.length_le⟩

theorem lookup_congr (ht : t.table = s.table) (i : Nat) : t.lookup i = s.lookup i := by
  unfold State.lookup
  rw [ht]

/-- Beyond the table there is nothing. -/
theorem WellFormed.getElem?_eq_none (h : WellFormed s) {i : Nat} (hi : 1024 ≤ i) :
    s.table.files[i]? = none := by
  have hlen := h.length_le
  exact List.getElem?_eq_none (by omega)

theorem WellFormed.lookup_eq_none (h : WellFormed s) {i : Nat} (hi : 1024 ≤ i) :
    s.lookup i = none := by
  unfold State.lookup
  rw [h.getElem?_eq_none hi]
  rfl

theorem lookup_eq_some_iff {i : Nat} :
    s.lookup i = some file ↔ s.table.files[i]? = some (some file) := by
  exact join_eq_some_iff

theorem lookup_eq_none_iff {i : Nat} :
    s.lookup i = none ↔ s.table.files[i]? = none ∨ s.table.files[i]? = some none := by
  unfold State.lookup
  rcases s.table.files[i]? with _ | _ | file <;> simp

theorem lookup_setEntry {i : Nat} (hi : i < s.table.files.length) (entry : Option LocalOpenedFile)
    (j : Nat) : (setEntry i entry s).lookup j = if j = i then entry else s.lookup j := by
  unfold State.lookup setEntry
  by_cases hij : i = j
  · subst hij
    simp [hi]
  · simp [hij, Ne.symm hij]

theorem lookup_resize (n j : Nat) : (resize n s).lookup j = s.lookup j := by
  unfold State.lookup resize
  simp only [getElem?_append]
  split
  · rfl
  · rename_i hj
    rw [getElem?_eq_none (Nat.le_of_not_lt hj), getElem?_replicate]
    split <;> rfl

theorem length_resize {n : Nat} (hn : s.table.files.length ≤ n) :
    (resize n s).table.files.length = n := by
  simp only [resize, length_append, length_replicate]
  omega

theorem WellFormed.setEntry (h : WellFormed s) (i : Nat) (entry : Option LocalOpenedFile) :
    WellFormed (setEntry i entry s) := by
  refine ⟨h.prevFd, ?_⟩
  simp only [OpenedFileTable.setEntry, length_set]
  exact h.length_le

theorem WellFormed.resize (h : WellFormed s) {n : Nat} (hn : s.table.files.length ≤ n)
    (hmax : n ≤ 1024) : WellFormed (resize n s) := by
  refine ⟨h.prevFd, ?_⟩
  rw [length_resize hn]
  exact hmax

/-! ## Looking for an unused descriptor -/

/-- The rounds of the loop of `alloc_fd` from `i` on. -/
def rounds (i : Int) : Nat := if i ≤ 1 then (2 - i).toNat else (1027 - i).toNat

theorem tmod_succ (h0 : 0 ≤ i) (hi : i < fdMax) :
    .tmod (i + 1) fdMax = if i = 1023 then 0 else i + 1 := by
  unfold fdMax at hi ⊢
  rw [tmod_eq_emod_of_nonneg (by omega)]
  split <;> omega

/-- What is ahead of a descriptor: itself, and what is ahead of the next. -/
theorem ahead_iff (h0 : 0 ≤ i) (hi : i < fdMax) (hgte : 0 ≤ gte) (hle : gte ≤ i) (h1 : i ≠ 1) :
    Ahead gte i j ↔ j = i ∨ Ahead gte (.tmod (i + 1) fdMax) j := by
  rw [tmod_succ h0 hi]
  unfold fdMax at hi
  unfold Ahead fdMax
  split <;> omega

theorem rounds_tmod (h0 : 0 ≤ i) (hi : i < fdMax) (h1 : i ≠ 1) :
    rounds (.tmod (i + 1) fdMax) < rounds i := by
  rw [tmod_succ h0 hi]
  unfold fdMax at hi
  unfold rounds
  split <;> split <;> split <;> omega

/-- **The loop** finds an unused descriptor among those ahead, or there is
none. -/
theorem allocFdLoop_spec (hwf : WellFormed s) (hgte : 0 ≤ gte) {fuel : Nat} (h0 : 0 ≤ i)
    (hi : i < fdMax) (hfuel : rounds i ≤ fuel) :
    (∃ fd, allocFdLoop s.table gte fuel i = .ok (.ok fd) ∧ Ahead gte i fd ∧
        s.lookup fd.toNat = none) ∨ (allocFdLoop s.table gte fuel i = .ok (.error .enfile) ∧
        ∀ j, Ahead gte i j → s.lookup j.toNat ≠ none) := by
  induction fuel generalizing i with
  | zero =>
    unfold rounds at hfuel
    unfold fdMax at hi
    split at hfuel <;> omega
  | succ fuel ih =>
    unfold allocFdLoop
    rw [hwf.prevFd]
    by_cases hgo : i ≠ 1 ∧ gte ≤ i
    · obtain ⟨h1, hle⟩ := hgo
      rw [if_pos ⟨h1, hle⟩, asUsize_of_nonneg h0 ⟨by omega, by unfold fdMax at hi; omega⟩]
      have hself : Ahead gte i i := (ahead_iff h0 hi hgte hle h1).2 (.inl rfl)
      rcases hfile : s.table.files[i.toNat]? with _ | _ | file
      · exact .inl ⟨i, rfl, hself, lookup_eq_none_iff.2 (.inl hfile)⟩
      · exact .inl ⟨i, rfl, hself, lookup_eq_none_iff.2 (.inr hfile)⟩
      · have hused : s.lookup i.toNat ≠ none := by
          rw [lookup_eq_some_iff.2 hfile]
          exact some_ne_none file
        have hnext := tmod_succ h0 hi
        have hrounds := rounds_tmod h0 hi h1
        unfold fdMax at hi
        have hlo : 0 ≤ tmod (i + 1) fdMax := by
          rw [hnext]
          split <;> omega
        have hhi : .tmod (i + 1) fdMax < fdMax := by
          rw [hnext]
          unfold fdMax
          split <;> omega
        rcases ih hlo hhi (by omega) with ⟨fd, hrun, hahead, hfree⟩ | ⟨hrun, hnone⟩
        · exact .inl ⟨fd, hrun, (ahead_iff h0 hi hgte hle h1).2 (.inr hahead), hfree⟩
        · refine .inr ⟨hrun, fun j hj => ?_⟩
          rcases (ahead_iff h0 hi hgte hle h1).1 hj with rfl | hj
          · exact hused
          · exact hnone j hj
    · rw [if_neg hgo]
      refine .inr ⟨rfl, fun j hj => absurd ⟨hj.2.1, hj.1⟩ hgo⟩

/-- An unused place where the loop starts is the result. -/
theorem allocFdLoop_of_none (hwf : WellFormed s) {g : Int} (h1 : g ≠ 1)
    (h : s.table.files[asUsize g]? = none) (fuel : Nat) :
    allocFdLoop s.table g (fuel + 1) g = .ok (.ok g) := by
  unfold allocFdLoop
  rw [hwf.prevFd, if_pos ⟨h1, Int.le_refl g⟩, h]

variable {gte : Option Int}

/-- A descriptor that is tried is in range. -/
theorem Tried.range (hgte : ∀ g, gte = some g → 0 ≤ g) (h : Tried gte j) : 0 ≤ j ∧ j < fdMax := by
  cases gte with
  | none =>
    unfold Tried Ahead fdMax at h
    unfold fdMax
    omega
  | some g =>
    have hg := hgte g rfl
    unfold Tried Ahead fdMax at h
    unfold fdMax
    omega

/-- **What `alloc_fd` returns** when its bound is not negative: an unused
descriptor; one that is out of range, because the bound is; or `ENFILE`. -/
theorem allocFd_spec (hwf : WellFormed s) (hgte : ∀ g, gte = some g → 0 ≤ g ∧ IsI32 g) :
    (∃ fd, s.table.allocFd gte = .ok (.ok fd) ∧ Tried gte fd ∧ s.lookup fd.toNat = none) ∨
      (∃ fd, gte = some fd ∧ s.table.allocFd gte = .ok (.ok fd) ∧ fdMax ≤ fd ∧ IsI32 fd ∧
        NoneFree s gte) ∨
      (gte.getD 0 < fdMax ∧ s.table.allocFd gte = .ok (.error .enfile) ∧ NoneFree s gte) := by
  unfold allocFd
  cases gte with
  | none =>
    have hstart : tmod (s.table.prevFd + 1) fdMax = 2 := by
      rw [hwf.prevFd]
      rfl
    rw [hstart]
    have hspec := allocFdLoop_spec (i := 2) hwf (Int.le_refl 0) (by decide) (by decide)
      (show rounds 2 ≤ 1025 by decide)
    rcases hspec with hfree | hnone
    · exact .inl hfree
    · exact .inr (.inr ⟨by decide, hnone⟩)
  | some g =>
    obtain ⟨hg, hi32⟩ := hgte g rfl
    by_cases hmax : g < fdMax
    · have hfuel : rounds g ≤ 1025 := by
        unfold rounds
        split <;> omega
      rcases allocFdLoop_spec hwf hg hg hmax hfuel with hfree | hnone
      · exact .inl hfree
      · exact .inr (.inr ⟨hmax, hnone⟩)
    · -- the bound itself is beyond the table, and so looks unused
      unfold fdMax at hmax
      have hout : s.table.files[asUsize g]? = none := by
        rw [asUsize_of_nonneg hg hi32]
        exact hwf.getElem?_eq_none (by omega)
      have hrun := allocFdLoop_of_none hwf (by omega) hout 1024
      refine .inr (.inl ⟨g, rfl, hrun, by unfold fdMax; omega, hi32, fun j hj => ?_⟩)
      unfold Tried Ahead fdMax at hj
      omega

/-- A negative bound is returned as it is. -/
theorem allocFd_of_neg (hwf : WellFormed s) {g : Int} (hg : g < 0) (h : IsI32 g) :
    s.table.allocFd (some g) = .ok (.ok g) := by
  have hbig := asUsize_of_neg hg h
  unfold isizeMax at hbig
  exact allocFdLoop_of_none hwf (by omega) (hwf.getElem?_eq_none (by omega)) 1024

/-- A descriptor of `alloc_fd`: it is unused, or beyond the table. -/
def Chosen (s : State) (gte : Option Int) (fd : Int) : Prop :=
  (Tried gte fd ∧ s.lookup fd.toNat = none) ∨ (fdMax ≤ fd ∧ IsI32 fd ∧ NoneFree s gte)

/-- A descriptor, or none that is unused. -/
theorem allocFd_cases (hwf : WellFormed s) (hgte : ∀ g, gte = some g → 0 ≤ g ∧ IsI32 g) :
    (∃ fd, s.table.allocFd gte = .ok (.ok fd) ∧ Chosen s gte fd) ∨
      (s.table.allocFd gte = .ok (.error .enfile) ∧ NoneFree s gte) := by
  rcases allocFd_spec hwf hgte with ⟨fd, halloc, hfree⟩ | ⟨fd, _, halloc, hout⟩ | ⟨_, hnone⟩
  · exact .inl ⟨fd, halloc, .inl hfree⟩
  · exact .inl ⟨fd, halloc, .inr hout⟩
  · exact .inr hnone

theorem run_callAllocFd (h : s.table.allocFd gte = .ok r) :
    (callAllocFd gte).run s = .ok (r, s) := by
  unfold callAllocFd
  rw [run_bind, run_state]
  simp [h]

/-! ## Giving a file a descriptor -/

/-- The table has the file at `fd`, and is as before elsewhere. -/
structure Holds (s : State) (fd : Int) (file : LocalOpenedFile) (s' : State) : Prop where
  range : 0 ≤ fd ∧ fd < fdMax
  free : s.lookup fd.toNat = none
  lookup : ∀ i, s'.lookup i = if i = fd.toNat then some file else s.lookup i
  wellFormed : WellFormed s'

theorem Holds.congr {t' : State} (h : Holds s fd file s') (hs : t.table = s.table)
    (hs' : t'.table = s'.table) : Holds t fd file t' where
  range := h.range
  free := (lookup_congr hs _).trans h.free
  lookup i := by rw [lookup_congr hs', lookup_congr hs, h.lookup]
  wellFormed := h.wellFormed.congr hs'

theorem run_reserve_of_used (h : s.table.files[asUsize fd]? = some (some file))
    (file' : LocalOpenedFile) : (reserve fd file').run s = .ok (.error .ebadf, s) := by
  unfold reserve
  rw [run_bind, run_state]
  simp [h]

theorem run_reserve_of_unused (h : s.table.files[asUsize fd]? = some none)
    (file : LocalOpenedFile) :
    (reserve fd file).run s = .ok (.ok (), setEntry (asUsize fd) (some file) s) := by
  unfold reserve
  rw [run_bind, run_state]
  simp [h]

theorem run_reserve_of_beyond (h : s.table.files[asUsize fd]? = none) (file : LocalOpenedFile) :
    (reserve fd file).run s = if fdMax ≤ fd then .ok (.error .ebadf, s)
      else if isizeMax < asUsize fd + 1 then .error .capacityOverflow
      else .ok (.ok (), setEntry (asUsize fd) (some file) (resize (asUsize fd + 1) s)) := by
  unfold reserve
  rw [run_bind, run_state]
  simp [h, run_ite, run_bind]

/-- The state after `reserve` of a free descriptor. -/
theorem run_reserve_of_free (hwf : WellFormed s) (h0 : 0 ≤ fd) (hmax : fd < fdMax)
    (hfree : s.lookup fd.toNat = none) (file : LocalOpenedFile) :
    ∃ s', (reserve fd file).run s = .ok (.ok (), s') ∧ s'.opened = s.opened ∧
      Holds s fd file s' := by
  have hi32 : IsI32 fd := by
    unfold fdMax at hmax
    exact ⟨by omega, by omega⟩
  have husize := asUsize_of_nonneg h0 hi32
  rcases lookup_eq_none_iff.1 hfree with hfile | hfile
  · -- the table is too short
    have hlen : s.table.files.length ≤ fd.toNat := getElem?_eq_none_iff.1 hfile
    rw [← husize] at hfile
    rw [run_reserve_of_beyond hfile, husize, if_neg (by omega),
      if_neg (by unfold fdMax at hmax; unfold isizeMax; omega)]
    refine ⟨_, rfl, rfl, ⟨h0, hmax⟩, hfree, fun i => ?_,
      (hwf.resize (by omega) (by unfold fdMax at hmax; omega)).setEntry _ _⟩
    rw [lookup_setEntry (by rw [length_resize (by omega)]; omega), lookup_resize]
  · have hlen : fd.toNat < s.table.files.length := (List.getElem?_eq_some_iff.1 hfile).1
    rw [← husize] at hfile
    rw [run_reserve_of_unused hfile, husize]
    exact ⟨_, rfl, rfl, ⟨h0, hmax⟩, hfree, lookup_setEntry hlen (some file), hwf.setEntry _ _⟩

/-- The hook decides how `open_with_fixed_fd` ends, and leaves the table
alone. -/
theorem run_callHook (hook : Hook) (options : OpenOptions) (a : Nat) (s : State) :
    (∃ s', Opens hook options (s.opened a).path.inode ∧ s'.table = s.table ∧
        (callHook hook a options).run s = .ok (.ok (), s')) ∨
      (∃ e, ¬ Opens hook options (s.opened a).path.inode ∧
        (callHook hook a options).run s = .ok (.error e, s)) := by
  unfold callHook
  rw [run_bind, run_state]
  simp only
  cases (s.opened a).path.inode with
  | fileLike f =>
    simp only [Opens]
    rcases hf : hook f options with e | _ | f'
    · refine .inr ⟨e, ?_, rfl⟩
      rintro ⟨r, hr⟩
      cases hr
    · exact .inl ⟨s, ⟨none, rfl⟩, rfl, rfl⟩
    · refine .inl ⟨_, ⟨some f', rfl⟩, ?_, rfl⟩
      rfl
  | directory d => exact .inl ⟨s, trivial, rfl, rfl⟩
  | symlink l => exact .inl ⟨s, trivial, rfl, rfl⟩

/-- **What `open_with_fixed_fd` can do**; `opens` says that the hook lets
the file be opened. -/
inductive Placing (s : State) (fd : Int) (opens : Prop) (file : LocalOpenedFile) :
    Except Panic (Except Errno Unit × State) → Prop
  /-- The table would have to grow too far. -/
  | overflow (h : fd < 0) (x : Panic) : Placing s fd opens file (.error x)
  /-- The descriptor is taken or too big. -/
  | denied (h0 : 0 ≤ fd) (h : s.lookup fd.toNat ≠ none ∨ fdMax ≤ fd) (e : Errno) :
      Placing s fd opens file (.ok (.error e, s))
  /-- The file has the descriptor. -/
  | placed {s' : State} (h : Holds s fd file s') (hopens : opens) :
      Placing s fd opens file (.ok (.ok (), s'))
  /-- The file has the descriptor although the hook refused. -/
  | refused {s' : State} (h : Holds s fd file s') (hopens : ¬ opens) (e : Errno) :
      Placing s fd opens file (.ok (.error e, s'))

theorem placing (hwf : WellFormed s) (hi32 : IsI32 fd) (hook : Hook) (a : Nat)
    (options : OpenOptions) : Placing s fd (Opens hook options (s.opened a).path.inode)
      { openedFile := a, closeOnExec := options.closeOnExec }
      ((openWithFixedFd hook fd a options).run s) := by
  unfold openWithFixedFd
  rw [run_bind]
  by_cases h0 : fd < 0
  · have hbig := asUsize_of_neg h0 hi32
    have hout : s.table.files[asUsize fd]? = none :=
      hwf.getElem?_eq_none (by unfold isizeMax at hbig; omega)
    rw [run_reserve_of_beyond hout, if_neg (by unfold fdMax; omega), if_pos (by omega)]
    exact .overflow h0 _
  · have husize := asUsize_of_nonneg (by omega) hi32
    by_cases hdenied : s.lookup fd.toNat ≠ none ∨ fdMax ≤ fd
    · have hrun : (reserve fd { openedFile := a, closeOnExec := options.closeOnExec }).run s =
          .ok (.error .ebadf, s) := by
        rcases hdenied with hused | hmax
        · obtain ⟨file, hfile⟩ := ne_none_iff_exists'.1 hused
          rw [lookup_eq_some_iff, ← husize] at hfile
          exact run_reserve_of_used hfile _
        · have hout : s.table.files[asUsize fd]? = none :=
            hwf.getElem?_eq_none (by unfold fdMax at hmax; omega)
          rw [run_reserve_of_beyond hout, if_pos hmax]
      rw [hrun]
      exact .denied (by omega) hdenied _
    · obtain ⟨hfree, hmax⟩ := not_or.1 hdenied
      obtain ⟨s₁, hrun, hopened, hholds⟩ := run_reserve_of_free hwf (by omega) (by omega)
        (not_not.1 hfree) { openedFile := a, closeOnExec := options.closeOnExec }
      simp only [hrun]
      rw [← hopened]
      rcases run_callHook hook options a s₁ with ⟨s₂, hopens, htable, hhook⟩ | ⟨e, hopens, hhook⟩
      · rw [hhook]
        exact .placed (hholds.congr rfl htable) hopens
      · rw [hhook]
        exact .refused hholds hopens e

/-- **What comes of a descriptor that `alloc_fd` chose.** -/
inductive Opening (s : State) (gte : Option Int) (opens : Prop) (file : LocalOpenedFile) :
    Except Panic (Except Errno Int × State) → Prop
  /-- There was none. -/
  | full (h : NoneFree s gte) {s' : State} (htable : s'.table = s.table) (e : Errno) :
      Opening s gte opens file (.ok (.error e, s'))
  | opened {fd : Int} (htried : Tried gte fd) {s' : State} (h : Holds s fd file s')
      (hopens : opens) : Opening s gte opens file (.ok (.ok fd, s'))
  | refused {fd : Int} (htried : Tried gte fd) {s' : State} (h : Holds s fd file s')
      (hopens : ¬ opens) (e : Errno) : Opening s gte opens file (.ok (.error e, s'))

/-- The descriptor is chosen in one state and used in another one with
the same table. -/
theorem opening_of_allocFd (hwf : WellFormed s) (hgte : ∀ g, gte = some g → 0 ≤ g ∧ IsI32 g)
    (hchosen : Chosen s gte fd) (ht : t.table = s.table) (hook : Hook) (a : Nat)
    (options : OpenOptions) : Opening s gte (Opens hook options (t.opened a).path.inode)
      { openedFile := a, closeOnExec := options.closeOnExec }
      ((openWithFixedFd hook fd a options >>= fun _ => pure fd).run t) := by
  have hi32 : 0 ≤ fd ∧ IsI32 fd := by
    rcases hchosen with ⟨htried, _⟩ | ⟨hmax, hi32, _⟩
    · have hrange := htried.range fun g hg => (hgte g hg).1
      unfold fdMax at hrange
      exact ⟨hrange.1, by omega, by omega⟩
    · unfold fdMax at hmax
      exact ⟨by omega, hi32⟩
  have hplacing := placing (hwf.congr ht) hi32.2 hook a options
  rw [run_bind]
  generalize (openWithFixedFd hook fd a options).run t = result at hplacing ⊢
  cases hplacing with
  | overflow h => exact absurd hi32.1 (Int.not_le.2 h)
  | denied h0 h e =>
    rcases hchosen with ⟨htried, hfree⟩ | ⟨_, _, hnone⟩
    · have hrange := htried.range fun g hg => (hgte g hg).1
      rw [lookup_congr ht, hfree] at h
      rcases h with h | h
      · exact absurd rfl h
      · exact absurd hrange.2 (Int.not_lt.2 h)
    · exact .full hnone ht e
  | placed h hopens =>
    rcases hchosen with ⟨htried, _⟩ | ⟨hmax, _⟩
    · exact .opened htried (h.congr ht.symm rfl) hopens
    · exact absurd h.range.2 (Int.not_lt.2 hmax)
  | refused h hopens e =>
    rcases hchosen with ⟨htried, _⟩ | ⟨hmax, _⟩
    · exact .refused htried (h.congr ht.symm rfl) hopens e
    · exact absurd h.range.2 (Int.not_lt.2 hmax)

/-! ## The calls -/

variable {call : FileCall} {file : LocalOpenedFile} {opens : Prop} {b : BitVec 32}

theorem not_behaves_of_error {x : Panic} (h : (perform hook call).run s = .error x) :
    ¬ Behaves s hook call := by
  unfold Behaves
  rw [h]
  exact not_false

theorem behaves_iff_of_fail {e : Errno} (h : (perform hook call).run s = .ok (.error e, s')) :
    Behaves s hook call ↔ ∀ i, s'.lookup i = s.lookup i := by
  unfold Behaves
  rw [h]

theorem behaves_iff_of_ok {r : Int} (h : (perform hook call).run s = .ok (.ok r, s')) :
    Behaves s hook call ↔ (∀ i : Nat, call.names r ≠ some (i : Int) → s'.lookup i = s.lookup i) ∧
        (call.allocates = true → 0 ≤ r ∧ r < fdMax ∧ s.lookup r.toNat = none) := by
  unfold Behaves
  rw [h]

/-- Elsewhere nothing changed. -/
theorem Holds.lookup_of_ne (h : Holds s fd file s') {i : Nat} (hi : some fd ≠ some (i : Int)) :
    s'.lookup i = s.lookup i := by
  have h0 := h.range.1
  rw [h.lookup, if_neg]
  intro heq
  refine hi (congrArg some ?_)
  omega

/-- Where a file was placed, something changed. -/
theorem Holds.exists_lookup_ne (h : Holds s fd file s') : ¬ ∀ i, s'.lookup i = s.lookup i := by
  intro hall
  have := hall fd.toNat
  rw [h.lookup, if_pos rfl, h.free] at this
  cases this

/-- A call that opens a file at a new descriptor behaves unless the hook is
asked and refuses. -/
theorem Opening.behaves_iff (h : Opening s gte opens file ((perform hook call).run s))
    (hnames : ∀ r, call.names r = some r) : Behaves s hook call ↔ NoneFree s gte ∨ opens := by
  generalize hrun : (perform hook call).run s = result at h
  cases h with
  | full h htable e =>
    rw [behaves_iff_of_fail hrun]
    exact iff_of_true (fun i => lookup_congr htable i) (.inl h)
  | @opened fd htried s' h hopens =>
    rw [behaves_iff_of_ok hrun, hnames]
    refine iff_of_true ⟨fun i hi => h.lookup_of_ne hi, fun _ => ?_⟩ (.inr hopens)
    exact ⟨h.range.1, h.range.2, h.free⟩
  | @refused fd htried s' h hopens e =>
    rw [behaves_iff_of_fail hrun]
    exact iff_of_false h.exists_lookup_ne (not_or.2 ⟨fun hnone => hnone fd htried h.free, hopens⟩)

theorem Opening.wellFormed (h : Opening s gte opens file (.ok (r, s'))) (hwf : WellFormed s) :
    WellFormed s' := by
  cases h with
  | full h htable => exact hwf.congr htable
  | opened htried h => exact h.wellFormed
  | refused htried h => exact h.wellFormed

theorem Placing.wellFormed {r : Except Errno Unit} (h : Placing s fd opens file (.ok (r, s')))
    (hwf : WellFormed s) : WellFormed s' := by
  cases h with
  | denied => exact hwf
  | placed h => exact h.wellFormed
  | refused h => exact h.wellFormed

/-! ### open -/

theorem opening_openFile (hwf : WellFormed s) (hook : Hook) (path : PathComponent)
    (options : OpenOptions) : Opening s none (Opens hook options path.inode)
      { openedFile := s.next, closeOnExec := options.closeOnExec }
      ((openFile hook path options).run s) := by
  unfold openFile
  rw [run_bind]
  have hgte : ∀ g, (none : Option Int) = some g → 0 ≤ g ∧ IsI32 g := fun g hg => by cases hg
  rcases allocFd_cases hwf hgte with ⟨fd, halloc, hchosen⟩ | ⟨halloc, hnone⟩
  · rw [run_callAllocFd halloc]
    have hopening := opening_of_allocFd
      (t := addOpened { path := path, pos := 0, options := options } s)
      hwf hgte hchosen rfl hook s.next options
    simp only [addOpened, update_self] at hopening
    exact hopening
  · rw [run_callAllocFd halloc]
    exact .full hnone rfl _

/-! ### dup -/

theorem run_get_of_none (h : s.entry b = none) : (get b.toInt).run s = .ok (.error .ebadf, s) := by
  unfold get
  rw [run_bind, run_state]
  rcases lookup_eq_none_iff.1 h with h | h
  · simp [h]
  · simp [h]

theorem run_get_of_some (h : s.entry b = some file) :
    (get b.toInt).run s = .ok (.ok file.openedFile, s) := by
  unfold get
  rw [run_bind, run_state]
  simp [lookup_eq_some_iff.1 h]

theorem run_dup_of_none (h : s.entry b = none) (hook : Hook) (gte : Option Int)
    (options : OpenOptions) : (dup hook b.toInt gte options).run s = .ok (.error .ebadf, s) := by
  unfold dup
  rw [run_bind, run_get_of_none h]

variable (hwf : WellFormed s)
include hwf

/-- With a negative bound, `dup` panics. -/
theorem run_dup_of_neg (h : s.entry b = some file) {g : Int} (hg : g < 0)
    (hi32 : IsI32 g) (hook : Hook) (options : OpenOptions) :
    ∃ x, (dup hook b.toInt (some g) options).run s = .error x := by
  unfold dup
  rw [run_bind, run_get_of_some h]
  simp only [run_bind, run_callAllocFd (allocFd_of_neg hwf hg hi32)]
  have hplacing := placing hwf hi32 hook file.openedFile options
  generalize (openWithFixedFd hook g file.openedFile options).run s = result at hplacing ⊢
  cases hplacing with
  | overflow _ x => exact ⟨x, rfl⟩
  | denied h0 => omega
  | placed h => exact absurd h.range.1 (Int.not_le.2 hg)
  | refused h => exact absurd h.range.1 (Int.not_le.2 hg)

theorem opening_dup (h : s.entry b = some file)
    (hgte : ∀ g, gte = some g → 0 ≤ g ∧ IsI32 g) (hook : Hook) (options : OpenOptions) :
    Opening s gte (Opens hook options (s.opened file.openedFile).path.inode)
      { file with closeOnExec := options.closeOnExec } ((dup hook b.toInt gte options).run s) := by
  unfold dup
  rw [run_bind, run_get_of_some h]
  simp only
  rw [run_bind]
  rcases allocFd_cases hwf hgte with ⟨fd, halloc, hchosen⟩ | ⟨halloc, hnone⟩
  · rw [run_callAllocFd halloc]
    exact opening_of_allocFd hwf hgte hchosen rfl hook file.openedFile options
  · rw [run_callAllocFd halloc]
    exact .full hnone rfl _

theorem dup_behaves_iff (gte : Option Int) (hgte : ∀ g, gte = some g → IsI32 g)
    (hperform : perform hook call = dup hook b.toInt gte options)
    (hnames : ∀ r, call.names r = some r) : Behaves s hook call ↔ DupSafe s hook b gte options := by
  unfold DupSafe
  cases hfile : s.entry b with
  | none =>
    have hrun := run_dup_of_none hfile hook gte options
    rw [← hperform] at hrun
    rw [behaves_iff_of_fail hrun]
    exact iff_of_true (fun _ => rfl) (fun file h => by cases h)
  | some file =>
    simp only [some.injEq, forall_eq']
    by_cases hneg : ∀ g, gte = some g → 0 ≤ g
    · have hopening := opening_dup hwf hfile (fun g hg => ⟨hneg g hg, hgte g hg⟩) hook options
      rw [← hperform] at hopening
      rw [hopening.behaves_iff hnames]
      exact (and_iff_right hneg).symm
    · simp only [not_forall] at hneg
      obtain ⟨g, rfl, hg⟩ := hneg
      obtain ⟨x, hrun⟩ := run_dup_of_neg hwf hfile (Int.not_le.1 hg) (hgte g rfl) hook options
      rw [← hperform] at hrun
      exact iff_of_false (not_behaves_of_error hrun) fun hsafe => hg (hsafe.1 g rfl)

theorem WellFormed.dup (gte : Option Int) (hgte : ∀ g, gte = some g → IsI32 g)
    (h : (dup hook b.toInt gte options).run s = .ok (r, s')) : WellFormed s' := by
  cases hfile : s.entry b with
  | none =>
    rw [run_dup_of_none hfile] at h
    cases h
    exact hwf
  | some file =>
    by_cases hneg : ∀ g, gte = some g → 0 ≤ g
    · have hopening := opening_dup hwf hfile (fun g hg => ⟨hneg g hg, hgte g hg⟩) hook options
      rw [h] at hopening
      exact hopening.wellFormed hwf
    · simp only [not_forall] at hneg
      obtain ⟨g, rfl, hg⟩ := hneg
      obtain ⟨x, hrun⟩ := run_dup_of_neg hwf hfile (Int.not_le.1 hg) (hgte g rfl) hook options
      rw [h] at hrun
      cases hrun

/-! ### open_with_fixed_fd -/

/-- `open_with_fixed_fd` of a new file behaves. -/
theorem openWithFixedFd_behaves_iff (b : BitVec 32) (file : OpenedFile) :
    Behaves s hook (.openWithFixedFd b file options) ↔
      Safe s hook (.openWithFixedFd b file options) := by
  have hplacing := placing (s := addOpened file s) (hwf.congr rfl) (isI32_toInt b) hook s.next
    options
  have hinode : ((addOpened file s).opened s.next).path.inode = file.path.inode := by
    simp [addOpened]
  rw [hinode] at hplacing
  have hrun : (perform hook (.openWithFixedFd b file options)).run s =
      (openWithFixedFd hook b.toInt s.next options >>= fun _ => pure b.toInt).run
        (addOpened file s) := rfl
  rw [run_bind] at hrun
  generalize (openWithFixedFd hook b.toInt s.next options).run (addOpened file s) = result
    at hplacing hrun
  cases hplacing with
  | overflow h x =>
    exact iff_of_false (not_behaves_of_error hrun) fun hsafe => absurd hsafe.1 (Int.not_le.2 h)
  | denied h0 h e =>
    rw [behaves_iff_of_fail hrun]
    refine iff_of_true (fun i => lookup_congr rfl i) ⟨h0, ?_⟩
    unfold entry
    rw [asUsize_of_nonneg h0 (isI32_toInt b)]
    exact h.imp_right .inl
  | placed h hopens =>
    rw [behaves_iff_of_ok hrun]
    refine iff_of_true ⟨fun i hi => ?_, nofun⟩ ⟨h.range.1, .inr (.inr hopens)⟩
    rw [h.lookup_of_ne hi]
    exact lookup_congr rfl i
  | refused h hopens e =>
    rw [behaves_iff_of_fail hrun]
    have hfree : s.lookup b.toInt.toNat = none := h.free
    refine iff_of_false h.exists_lookup_ne fun hsafe => ?_
    rcases hsafe.2 with hused | hmax | hopens'
    · unfold entry at hused
      rw [asUsize_of_nonneg h.range.1 (isI32_toInt b)] at hused
      exact hused hfree
    · exact absurd h.range.2 (Int.not_lt.2 hmax)
    · exact hopens hopens'

/-! ### close and dup2 -/

/-- Closing leaves the other entries alone. -/
theorem close_spec (fd : Int) :
    ∃ r s', (close fd).run s = .ok (r, s') ∧ WellFormed s' ∧ s'.opened = s.opened ∧
      (∀ i, s'.lookup i = if i = asUsize fd then none else s.lookup i) := by
  unfold close
  rw [run_bind, run_state]
  cases hfile : s.table.files[asUsize fd]? with
  | none =>
    simp only [hfile, run_fail]
    refine ⟨_, s, rfl, hwf, rfl, fun i => ?_⟩
    split
    next hi =>
      rw [hi]
      exact lookup_eq_none_iff.2 (.inl hfile)
    next => rfl
  | some entry =>
    simp only [hfile, run_update]
    exact ⟨_, _, rfl, hwf.setEntry _ _, rfl,
      lookup_setEntry (List.getElem?_eq_some_iff.1 hfile).1 none⟩

omit hwf

/-- A `close` that fails changes nothing. -/
theorem run_close_fail {e : Errno} (h : (close fd).run s = .ok (.error e, s')) : s' = s := by
  unfold close at h
  rw [run_bind, run_state] at h
  cases hfile : s.table.files[asUsize fd]? with
  | none =>
    simp only [hfile, run_fail, Except.ok.injEq, Prod.mk.injEq] at h
    exact h.2.symm
  | some entry =>
    simp only [hfile, run_update] at h
    cases h

theorem closeIfOpen_spec (hwf : WellFormed s) (fd : Int) :
    ∃ s', (closeIfOpen fd).run s = .ok (.ok (), s') ∧ WellFormed s' ∧ s'.opened = s.opened ∧
      (∀ i, s'.lookup i = if i = asUsize fd then none else s.lookup i) := by
  unfold closeIfOpen
  rw [run_bind, run_state]
  cases hfile : s.lookup (asUsize fd) with
  | none =>
    have hsame : ∀ i, s.lookup i = if i = asUsize fd then none else s.lookup i := by
      intro i
      split
      next hi => rw [hi, hfile]
      next => rfl
    rcases lookup_eq_none_iff.1 hfile with h | h
    all_goals
      simp only [h]
      exact ⟨s, rfl, hwf, rfl, hsame⟩
  | some file =>
    simp only [lookup_eq_some_iff.1 hfile]
    obtain ⟨r, s', hrun, hrest⟩ := close_spec hwf fd
    refine ⟨s', ?_, hrest⟩
    unfold close at hrun ⊢
    rw [run_bind, run_state] at hrun ⊢
    simp only [lookup_eq_some_iff.1 hfile, run_update, Except.ok.injEq, Prod.mk.injEq] at hrun ⊢
    exact ⟨trivial, hrun.2⟩

/-- `dup2` of an open file: the new descriptor is closed, and given to it. -/
theorem dup2_spec (hwf : WellFormed s) {old : BitVec 32} (h : s.entry old = some file)
    (new : BitVec 32) (hook : Hook) (options : OpenOptions) : ∃ s₁, WellFormed s₁ ∧
      (∀ i, s₁.lookup i = if i = asUsize new.toInt then none else s.lookup i) ∧
      Placing s₁ new.toInt (Opens hook options (s.opened file.openedFile).path.inode)
        { file with closeOnExec := options.closeOnExec }
        ((dup2 hook old.toInt new.toInt options).run s) := by
  obtain ⟨s₁, hclose, hwf₁, hopened, hlookup⟩ := closeIfOpen_spec hwf new.toInt
  refine ⟨s₁, hwf₁, hlookup, ?_⟩
  have hplacing := placing hwf₁ (isI32_toInt new) hook file.openedFile options
  unfold dup2
  rw [run_bind, run_get_of_some h]
  simp only
  rw [run_bind, hclose]
  rw [hopened] at hplacing
  exact hplacing

theorem run_dup2_of_none {old : BitVec 32} (h : s.entry old = none) (new : Int) :
    (dup2 hook old.toInt new options).run s = .ok (.error .ebadf, s) := by
  unfold dup2
  rw [run_bind, run_get_of_none h]

theorem dup2_behaves_iff (hwf : WellFormed s) (old new : BitVec 32) :
    Behaves s hook (.dup2 old new options) ↔ Safe s hook (.dup2 old new options) := by
  have hrun : (perform hook (.dup2 old new options)).run s =
      (dup2 hook old.toInt new.toInt options >>= fun _ => pure new.toInt).run s := rfl
  rw [run_bind] at hrun
  simp only [Safe]
  cases hfile : s.entry old with
  | none =>
    rw [run_dup2_of_none hfile] at hrun
    rw [behaves_iff_of_fail hrun]
    exact iff_of_true (fun _ => rfl) (fun file h => by cases h)
  | some file =>
    simp only [some.injEq, forall_eq']
    obtain ⟨s₁, hwf₁, hlookup, hplacing⟩ := dup2_spec hwf hfile new hook options
    generalize (dup2 hook old.toInt new.toInt options).run s = result at hplacing hrun
    cases hplacing with
    | overflow h x =>
      exact iff_of_false (not_behaves_of_error hrun) fun hsafe => absurd hsafe.1 (Int.not_le.2 h)
    | denied h0 h e =>
      rw [behaves_iff_of_fail hrun]
      have husize := asUsize_of_nonneg h0 (isI32_toInt new)
      rw [hlookup, if_pos husize.symm] at h
      have hmax : fdMax ≤ new.toInt := h.resolve_left (fun h => h rfl)
      refine iff_of_true (fun i => ?_) ⟨h0, .inl hmax⟩
      rw [hlookup]
      split
      next hi =>
        -- beyond the table nothing was closed
        unfold fdMax at hmax
        rw [hwf.lookup_eq_none (by omega)]
      next => rfl
    | placed h hopens =>
      rw [behaves_iff_of_ok hrun]
      refine iff_of_true ⟨fun i hi => ?_, nofun⟩ ⟨h.range.1, .inr (.inl hopens)⟩
      have h0 := h.range.1
      have husize := asUsize_of_nonneg h0 (isI32_toInt new)
      rw [h.lookup_of_ne hi, hlookup, if_neg]
      rintro rfl
      refine hi (congrArg some ?_)
      omega
    | refused h hopens e =>
      rw [behaves_iff_of_fail hrun]
      have husize := asUsize_of_nonneg h.range.1 (isI32_toInt new)
      unfold entry
      rw [husize] at hlookup ⊢
      constructor
      · intro hall
        have hnew := hall new.toInt.toNat
        rw [h.lookup, if_pos rfl] at hnew
        exact ⟨h.range.1, .inr (.inr hnew.symm)⟩
      · rintro ⟨-, hmax | hopens' | hsame⟩
        · exact absurd h.range.2 (Int.not_lt.2 hmax)
        · exact absurd hopens' hopens
        · intro i
          rw [h.lookup, hlookup]
          split
          next hi => rw [hi, hsame]
          next => rfl

theorem close_behaves (hwf : WellFormed s) (b : BitVec 32) : Behaves s hook (.close b) := by
  obtain ⟨r, s', hrun, _, _, hlookup⟩ := close_spec hwf b.toInt
  have hperform : (perform hook (.close b)).run s = (close b.toInt >>= fun _ => pure 0).run s := rfl
  rw [run_bind, hrun] at hperform
  cases r with
  | error e =>
    rw [behaves_iff_of_fail hperform, run_close_fail hrun]
    exact fun _ => rfl
  | ok u =>
    rw [behaves_iff_of_ok hperform]
    refine ⟨fun i hi => ?_, nofun⟩
    rw [hlookup]
    split
    next hi' =>
      by_cases h0 : 0 ≤ b.toInt
      · rw [asUsize_of_nonneg h0 (isI32_toInt b)] at hi'
        refine absurd (congrArg some ?_) hi
        omega
      · have hbig := asUsize_of_neg (by omega) (isI32_toInt b)
        unfold isizeMax at hbig
        rw [hwf.lookup_eq_none (by omega)]
    next => rfl

/-! ### fcntl -/

/-- The commands of `fcntl` that only set options leave the table alone. -/
theorem run_sysFcntl_of_ne {cmd : Int} (h : cmd ≠ fDupFdCloexec) (hook : Hook) (b : BitVec 32)
    (arg : BitVec 64) (s : State) :
    ∃ r s', (sysFcntl hook b.toInt cmd arg).run s = .ok (r, s') ∧ s'.table = s.table := by
  have hset : ∀ f : OpenOptions → OpenOptions, ∃ r s',
      (get b.toInt >>= fun a => setOptions a f >>= fun _ => (pure 0 : Files Int)).run s =
        .ok (r, s') ∧ s'.table = s.table := by
    intro f
    rw [run_bind]
    cases hfile : s.entry b with
    | none =>
      rw [run_get_of_none hfile]
      exact ⟨_, s, rfl, rfl⟩
    | some file =>
      rw [run_get_of_some hfile]
      exact ⟨_, _, rfl, rfl⟩
  unfold sysFcntl
  split
  · exact hset _
  · split
    · exact hset _
    · exact ⟨_, s, rfl, rfl⟩

theorem fcntl_behaves_iff (hwf : WellFormed s) (b cmd : BitVec 32) (arg : BitVec 64) :
    Behaves s hook (.fcntl b cmd arg) ↔ Safe s hook (.fcntl b cmd arg) := by
  by_cases hcmd : cmd.toInt = fDupFdCloexec
  · have hperform : perform hook (.fcntl b cmd arg) =
        dup hook b.toInt (some (arg.setWidth 32).toInt)
          { nonblock := false, closeOnExec := true } := by
      simp only [perform, sysFcntl, hcmd]
      rfl
    have hnames : ∀ r, (FileCall.fcntl b cmd arg).names r = some r := fun r => if_pos hcmd
    have hgte : ∀ g, some (arg.setWidth 32).toInt = some g → IsI32 g := by
      intro g hg
      cases hg
      exact isI32_toInt _
    rw [dup_behaves_iff hwf _ hgte hperform hnames]
    exact ⟨fun h _ => h, fun h => h hcmd⟩
  · obtain ⟨r, s', hrun, htable⟩ := run_sysFcntl_of_ne hcmd hook b arg s
    refine iff_of_true ?_ fun h => absurd h hcmd
    have hperform : (perform hook (.fcntl b cmd arg)).run s = .ok (r, s') := hrun
    cases r with
    | error e =>
      rw [behaves_iff_of_fail hperform]
      exact fun i => lookup_congr htable i
    | ok r =>
      rw [behaves_iff_of_ok hperform]
      refine ⟨fun i _ => lookup_congr htable i, fun halloc => ?_⟩
      exact absurd (of_decide_eq_true halloc) hcmd

/-! ## Every run -/

/-- **A call keeps the invariant**, whichever way it ends. -/
theorem WellFormed.perform (hwf : WellFormed s) (h : (perform hook call).run s = .ok (r, s')) :
    WellFormed s' := by
  cases call with
  | openFile path options =>
    have hopening := opening_openFile hwf hook path options
    rw [show (openFile hook path options).run s = .ok (r, s') from h] at hopening
    exact hopening.wellFormed hwf
  | openWithFixedFd b file options =>
    have hplacing := placing (s := addOpened file s) (hwf.congr rfl) (isI32_toInt b) hook s.next
      options
    have hrun : (openWithFixedFd hook b.toInt s.next options >>= fun _ => pure b.toInt).run
        (addOpened file s) = .ok (r, s') := h
    obtain ⟨r', hrun⟩ := exists_run_of_bind_pure hrun
    rw [hrun] at hplacing
    exact hplacing.wellFormed (hwf.congr rfl)
  | dup b gte options =>
    refine hwf.dup (gte.map BitVec.toInt) (fun g hg => ?_) h
    obtain ⟨c, -, rfl⟩ := map_eq_some_iff.1 hg
    exact isI32_toInt c
  | dup2 old new options =>
    have hrun : (dup2 hook old.toInt new.toInt options >>= fun _ => pure new.toInt).run s =
        .ok (r, s') := h
    obtain ⟨r', hrun⟩ := exists_run_of_bind_pure hrun
    cases hfile : s.entry old with
    | none =>
      rw [run_dup2_of_none hfile] at hrun
      cases hrun
      exact hwf
    | some file =>
      obtain ⟨s₁, hwf₁, -, hplacing⟩ := dup2_spec hwf hfile new hook options
      rw [hrun] at hplacing
      exact hplacing.wellFormed hwf₁
  | close b =>
    obtain ⟨r', s₁, hclose, hwf₁, -⟩ := close_spec hwf b.toInt
    have hrun : (close b.toInt >>= fun _ => pure 0).run s = .ok (r, s') := h
    obtain ⟨r'', hrun⟩ := exists_run_of_bind_pure hrun
    cases hclose.symm.trans hrun
    exact hwf₁
  | fcntl b cmd arg =>
    by_cases hcmd : cmd.toInt = fDupFdCloexec
    · have hrun : (sysFcntl hook b.toInt cmd.toInt arg).run s = .ok (r, s') := h
      rw [hcmd] at hrun
      refine hwf.dup (some (arg.setWidth 32).toInt) (fun g hg => ?_) hrun
      cases hg
      exact isI32_toInt _
    · obtain ⟨r', s₁, hrun, htable⟩ := run_sysFcntl_of_ne hcmd hook b arg s
      cases h.symm.trans hrun
      exact hwf.congr htable

theorem WellFormed.of_reach {next : Nat} {opened : Nat → OpenedFile}
    (h : machine.Reach { table := new, next := next, opened := opened } s) : WellFormed s := by
  refine h.invariant ⟨rfl, Nat.zero_le _⟩ ?_
  rintro x y ⟨hook, call⟩ hx - hstep
  simp only [machine] at hstep
  split at hstep
  next r z hrun =>
    cases hstep
    exact hx.perform hrun
  next => cases hstep

/-- **In every table that calls with any arguments lead to**, a call
behaves if and only if it is safe. -/
theorem behaves_iff_safe {next : Nat} {opened : Nat → OpenedFile} {s : State}
    (h : machine.Reach { table := new, next := next, opened := opened } s) (hook : Hook)
    (call : FileCall) : Behaves s hook call ↔ Safe s hook call := by
  have hwf := WellFormed.of_reach h
  cases call with
  | openFile path options => exact (opening_openFile hwf hook path options).behaves_iff fun _ => rfl
  | openWithFixedFd b file options => exact openWithFixedFd_behaves_iff hwf b file
  | dup b gte options =>
    refine dup_behaves_iff hwf (gte.map BitVec.toInt) (fun g hg => ?_) rfl fun _ => rfl
    obtain ⟨c, -, rfl⟩ := map_eq_some_iff.1 hg
    exact isI32_toInt c
  | dup2 old new options => exact dup2_behaves_iff hwf old new
  | close b => exact iff_of_true (close_behaves hwf b) trivial
  | fcntl b cmd arg => exact fcntl_behaves_iff hwf b cmd arg

def rootFile : PathComponent := .root [] (.fileLike 0)

def plain : OpenOptions where
  nonblock := false
  closeOnExec := false

/-- The table of a new process. -/
def fresh : State where
  table := new
  next := 0
  opened _ := { path := rootFile, pos := 0, options := plain }

/-- A hook that opens every file. -/
def openAll : Hook := fun _ _ => .ok none

/-- A hook that is out of memory. -/
def refuseAll : Hook := fun _ _ => .error .enomem

/-- **An opened file moved to another descriptor**: descriptor 2 is the
first one given out. -/
theorem behaves_of_dup2 : ∃ s, machine.Reach fresh s ∧ (s.entry 2).isSome = true ∧
    Behaves s openAll (.dup2 2 5 plain) := by
  obtain ⟨s, hreach, hs⟩ : ∃ s, machine.Reach fresh s ∧ (s.entry 2).isSome = true :=
    Machine.exists_reachUnder [(openAll, .openFile rootFile plain)] (by decide +kernel)
  refine ⟨s, hreach, hs, (behaves_iff_safe hreach openAll (.dup2 2 5 plain)).2 ?_⟩
  intro file _
  refine ⟨by decide, .inr (.inl ?_)⟩
  cases (s.opened file.openedFile).path.inode with
  | fileLike f => exact ⟨none, rfl⟩
  | directory d => exact trivial
  | symlink l => exact trivial

/-- **Two calls that do not behave**: `dup2` to the descriptor −1 panics,
and an `open` that runs out of memory leaves its descriptor behind. -/
theorem not_behaves_of_negative : ∃ s, machine.Reach fresh s ∧
    ((perform openAll (.dup2 2 (-1) plain)).run s).toBool = false ∧
    ¬ Behaves s openAll (.dup2 2 (-1) plain) ∧
    ¬ Behaves s refuseAll (.openFile rootFile plain) := by
  obtain ⟨s, hreach, htable, hpanic⟩ : ∃ s, machine.Reach fresh s ∧
      s.table = ⟨[none, none, some ⟨0, false⟩], 1⟩ ∧
      ((perform openAll (.dup2 2 (-1) plain)).run s).toBool = false :=
    Machine.exists_reachUnder [(openAll, .openFile rootFile plain)] (by decide +kernel)
  have hwf : WellFormed s := .of_reach hreach
  refine ⟨s, hreach, hpanic, ?_, ?_⟩
  · rw [dup2_behaves_iff hwf]
    intro hsafe
    have hentry : s.entry 2 = some ⟨0, false⟩ := by
      unfold State.entry State.lookup
      rw [htable]
      rfl
    exact absurd (hsafe ⟨0, false⟩ hentry).1 (by decide)
  · rw [(opening_openFile hwf refuseAll rootFile plain).behaves_iff fun _ => rfl]
    rintro (hnone | ⟨r, hr⟩)
    · have htried : Tried none 3 := by
        unfold Tried Ahead
        decide
      refine hnone 3 htried ?_
      unfold State.lookup
      rw [htable]
      rfl
    · cases hr

end Archives.Kerla.OpenedFileTable
