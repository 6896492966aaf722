import Archives.Kerla.OpenedFiles
/-!
# Kerla — new descriptors

`open` and `dup` should return an unused descriptor from a minimum on
whenever there is one, and `ENFILE` otherwise. The search of `alloc_fd`
stops at `prev_fd`, which is 1 for good: it passes 1 never, from 0 only
0 itself, and with the minimum 1 nothing at all. A minimum beyond the
table is taken for unused, and refused with another error.
-/

namespace Archives.Kerla.OpenedFileTable

open Option Call

variable {s t : State} {gte : Option Int} {j : Int}

/-- The least descriptor a call for a new one may return. -/
def FileCall.minimum : FileCall → Option Int
  | .openFile .. => some 0
  | .dup _ gte _ => some ((gte.map BitVec.toInt).getD 0)
  | _ => none

/-- A descriptor from `g` on that is in range and not in use. -/
def Unused (s : State) (g j : Int) : Prop := g ≤ j ∧ j < fdMax ∧ s.lookup j.toNat = none

/-- **A new descriptor is given out**: an unused one if there is one, and
`ENFILE` otherwise. -/
def GivesOut (s : State) (hook : Hook) (call : FileCall) (g : Int) : Prop :=
  ∃ r s', (perform hook call).run s = .ok (r, s') ∧
    ((∃ fd, r = .ok fd ∧ Unused s g fd) ∨ (r = .error .enfile ∧ ∀ j, ¬ Unused s g j))

/-- The minimum is in range, and an unused descriptor is among those that
are tried and the file can be opened, or there is none. -/
def Finds (s : State) (gte : Option Int) (opens : Prop) : Prop :=
  gte.getD 0 < fdMax ∧
    ((∃ j, Tried gte j ∧ s.lookup j.toNat = none) ∧ opens ∨ ∀ j, ¬ Unused s (gte.getD 0) j)

/-- **When a call gives a descriptor out**; a `dup` has to be of an open
one. -/
def Suits (s : State) (hook : Hook) : FileCall → Prop
  | .openFile path options => Finds s none (Opens hook options path.inode)
  | .dup fd gte options => ∃ file, s.entry fd = some file ∧
      Finds s (gte.map BitVec.toInt) (Opens hook options (s.opened file.openedFile).path.inode)
  | _ => False

/-- What is tried and free is unused. -/
theorem Tried.unused (hgte : ∀ g, gte = some g → 0 ≤ g) (h : Tried gte j)
    (hfree : s.lookup j.toNat = none) : Unused s (gte.getD 0) j := by
  obtain ⟨h0, hmax⟩ := h.range hgte
  refine ⟨?_, hmax, hfree⟩
  cases gte with
  | none => exact h0
  | some g =>
    have hg := hgte g rfl
    unfold Tried Ahead at h
    rw [getD_some]
    omega

/-- A descriptor out of range is refused, and not with `ENFILE`. -/
theorem run_openWithFixedFd_of_le (hwf : WellFormed t) {fd : Int} (hmax : fdMax ≤ fd)
    (hi32 : IsI32 fd) (hook : Hook) (a : Nat) (options : OpenOptions) :
    (openWithFixedFd hook fd a options).run t = .ok (.error .ebadf, t) := by
  have hout : t.table.files[asUsize fd]? = none := by
    unfold fdMax at hmax
    rw [asUsize_of_nonneg (by omega) hi32]
    exact hwf.getElem?_eq_none (by omega)
  rw [openWithFixedFd, run_bind, run_reserve_of_beyond hout, if_pos hmax]

/-- **A file opened at a descriptor of `alloc_fd`**, which is chosen in
one state and used in another one with the same table. -/
theorem givesOut_iff_finds (hook : Hook) (call : FileCall) (gte : Option Int) (t : State) (a : Nat)
    (options : OpenOptions) (hwf : WellFormed s) (hgte : ∀ g, gte = some g → 0 ≤ g ∧ IsI32 g)
    (ht : t.table = s.table)
    (hok : ∀ fd, s.table.allocFd gte = .ok (.ok fd) → (perform hook call).run s =
      (openWithFixedFd hook fd a options >>= fun _ => pure fd).run t)
    (herror : ∀ e, s.table.allocFd gte = .ok (.error e) →
      (perform hook call).run s = .ok (.error e, s)) : GivesOut s hook call (gte.getD 0) ↔
      Finds s gte (Opens hook options (t.opened a).path.inode) := by
  have hpos : ∀ g, gte = some g → 0 ≤ g := fun g hg => (hgte g hg).1
  rcases allocFd_spec hwf hgte with ⟨fd, halloc, htried, hfree⟩ | ⟨fd, rfl, halloc, hmax, hi32, -⟩ |
    ⟨hmin, halloc, hnone⟩
  · have hopening := opening_of_allocFd hwf hgte (.inl ⟨htried, hfree⟩) ht hook a options
    rw [← hok fd halloc] at hopening
    have hmin : gte.getD 0 < fdMax := by
      have hunused := htried.unused hpos hfree
      exact Int.lt_of_le_of_lt hunused.1 hunused.2.1
    generalize hrun : (perform hook call).run s = result at hopening
    cases hopening with
    | full hnone => exact absurd hfree (hnone fd htried)
    | opened htried' h hopens =>
      exact iff_of_true ⟨_, _, hrun, .inl ⟨_, rfl, htried'.unused hpos h.free⟩⟩
        ⟨hmin, .inl ⟨⟨fd, htried, hfree⟩, hopens⟩⟩
    | refused htried' h hopens e =>
      have hunused := htried'.unused hpos h.free
      refine iff_of_false ?_ ?_
      · rintro ⟨r, s', hr, ⟨fd', rfl, -⟩ | ⟨-, hall⟩⟩
        · rw [hrun] at hr
          cases hr
        · exact hall _ hunused
      · rintro ⟨-, ⟨-, hopens'⟩ | hall⟩
        · exact hopens hopens'
        · exact hall _ hunused
  · have hrun := hok fd halloc
    rw [run_bind, run_openWithFixedFd_of_le (hwf.congr ht) hmax hi32] at hrun
    refine iff_of_false ?_ fun hfinds => absurd hfinds.1 (Int.not_lt.2 hmax)
    rintro ⟨r, s', hr, ⟨fd', rfl, -⟩ | ⟨rfl, -⟩⟩
    · rw [hrun] at hr
      cases hr
    · rw [hrun] at hr
      cases hr
  · have hrun := herror _ halloc
    constructor
    · rintro ⟨r, s', hr, ⟨fd', rfl, -⟩ | ⟨-, hall⟩⟩
      · rw [hrun] at hr
        cases hr
      · exact ⟨hmin, .inr hall⟩
    · rintro ⟨-, ⟨⟨j, htried, hfree⟩, -⟩ | hall⟩
      · exact absurd hfree (hnone j htried)
      · exact ⟨_, s, hrun, .inr ⟨rfl, hall⟩⟩

/-- **When `open` and `dup` return what they should**, in every table
that calls lead to. -/
theorem givesOut_iff_suits {next : Nat} {opened : Nat → OpenedFile} {s : State}
    (h : machine.Reach { table := new, next := next, opened := opened } s) (hook : Hook)
    (call : FileCall) {g : Int} (hg : call.minimum = some g) (h0 : 0 ≤ g) :
    GivesOut s hook call g ↔ Suits s hook call := by
  have hwf := WellFormed.of_reach h
  cases call with
  | openFile path options =>
    cases hg
    have hiff := givesOut_iff_finds hook (.openFile path options) none
      (addOpened ⟨path, 0, options⟩ s) s.next options hwf (fun g hg => by cases hg) rfl
      (fun fd halloc => ?_) fun e halloc => ?_
    · simp only [addOpened, Function.update_self] at hiff
      exact hiff
    · rw [perform, openFile, run_bind, run_callAllocFd halloc]
      rfl
    · rw [perform, openFile, run_bind, run_callAllocFd halloc]
  | dup b gte options =>
    cases hg
    cases hfile : s.entry b with
    | none =>
      refine iff_of_false ?_ ?_
      · rintro ⟨r, s', hr, ⟨fd', rfl, -⟩ | ⟨rfl, -⟩⟩ <;>
        · rw [perform, run_dup_of_none hfile] at hr
          cases hr
      · rintro ⟨file, hsome, -⟩
        rw [hfile] at hsome
        cases hsome
    | some file =>
      have hiff := givesOut_iff_finds hook (.dup b gte options) (gte.map BitVec.toInt) s
        file.openedFile options hwf (fun g hg => ?_) rfl (fun fd halloc => ?_) fun e halloc => ?_
      · rw [hiff, Suits]
        simp [hfile, some.injEq]
      · rw [hg] at h0
        obtain ⟨c, -, rfl⟩ := map_eq_some_iff.1 hg
        exact ⟨h0, isI32_toInt c⟩
      · rw [perform, dup, run_bind, run_get_of_some hfile]
        simp only [run_bind, run_callAllocFd halloc]
      · rw [perform, dup, run_bind, run_get_of_some hfile]
        simp only [run_bind, run_callAllocFd halloc]
  | _ => cases hg

/-- The first file of a process gets descriptor 2. -/
theorem givesOut_first : GivesOut fresh openAll (.openFile rootFile plain) 0 := by
  refine (givesOut_iff_suits .refl openAll (.openFile rootFile plain) rfl (Int.le_refl 0)).2 ?_
  refine ⟨by decide, .inl ⟨⟨2, ?_, rfl⟩, none, rfl⟩⟩
  unfold Tried Ahead
  decide

/-- **A descriptor from 1 on is not found**: with one file open, at 2,
`dup` fails with `ENFILE`, although 3 is unused. -/
theorem not_givesOut_from_one : ∃ s, machine.Reach fresh s ∧ Unused s 1 3 ∧
    (s.entry 2).isSome = true ∧ ¬ GivesOut s openAll (.dup 2 (some 1) plain) 1 := by
  obtain ⟨s, hreach, hentry, hfree, hfails⟩ : ∃ s, machine.Reach fresh s ∧
      (s.entry 2).isSome = true ∧ s.lookup 3 = none ∧
      (((perform openAll (.dup 2 (some 1) plain)).run s).toOption.any fun r => !r.1.toBool) = true :=
    Machine.exists_reachUnder [(openAll, .openFile rootFile plain)] (by decide +kernel)
  have hunused : Unused s 1 3 := ⟨by decide, by decide, hfree⟩
  refine ⟨s, hreach, hunused, hentry, ?_⟩
  rintro ⟨r, s', hr, ⟨fd, rfl, -⟩ | ⟨-, hall⟩⟩
  · rw [hr] at hfails
    cases hfails
  · exact hall 3 hunused

end Archives.Kerla.OpenedFileTable
