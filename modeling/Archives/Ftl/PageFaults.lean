import Archives.Ftl.Model.VmArea
import Archives.Ftl.RangeMap
/-!
# FTL — page faults on shared areas

`VmArea::fill` allocates a page whenever it is called and inserts it
into the pages of the area, with an `expect`: it never looks for the
page that is there. So the second fault on a page of an allocated area
is a panic, from whichever mapping it comes. What is left is a system
where every page is faulted on once, and there offsets are shared
(`shared_and_no_panic`).

The invariant ties each entry of a page table to the mapping it was
made for and to a page of the area (`Good`). Mappings that start in the
middle of a page would make two of them share an entry.
-/

namespace Archives.Ftl

open Option Function Nat RangeMap

/-! ## Pages and tables -/

theorem alignDown_le (value align : Nat) : alignDown value align ≤ value :=
  div_mul_le_self value align

theorem alignDown_mod (value align : Nat) : alignDown value align % align = 0 :=
  mul_mod_left _ _

variable {paddr : Nat}

/-- Pages are aligned, from whichever region they come. -/
theorem PageAllocator.allocatePage_mod {allocator allocator' : PageAllocator}
    (h : allocator.allocatePage = some (paddr, allocator')) : paddr % 4096 = 0 := by
  induction allocator generalizing allocator' with
  | nil => cases h
  | cons region rest ih =>
    simp only [PageAllocator.allocatePage] at h
    split at h
    · rename_i p r hregion
      simp only [some.injEq, Prod.mk.injEq] at h
      rw [← h.1]
      simp only [BumpAllocator.allocate] at hregion
      split at hregion
      · cases hregion
      · split at hregion
        · cases hregion
        · simp only [some.injEq, Prod.mk.injEq] at hregion
          rw [← hregion.1]
          exact alignDown_mod _ _
    · obtain ⟨found, hfound, heq⟩ := map_eq_some_iff.1 h
      cases heq
      exact ih hfound

/-- Walking makes tables and leaves the last level alone. -/
@[simp] theorem PageTable.walk_ptes (vaddr : Nat) (levels : List Nat) (table : PageTable)
    (allocator : PageAllocator) : (table.walk vaddr levels allocator).1.1.ptes = table.ptes := by
  induction levels generalizing table allocator with
  | nil => rfl
  | cons level levels ih =>
    simp only [PageTable.walk]
    split
    · rfl
    · split
      · exact ih _ _
      · split
        · rfl
        · exact ih _ _

/-- An entry leads to the page it was made for, where the attributes
leave the page number alone. -/
theorem Pte.paddr_of_new {attrs : Nat} {pte : Pte} (h : Pte.new paddr attrs = .ok pte)
    (hattrs : attrs < 1024) : pte.paddr = paddr ∧ paddr % 4096 = 0 := by
  unfold Pte.new at h
  split at h
  · cases h
  · rename_i hmod
    have hmod : paddr % 4096 = 0 := not_not.1 hmod
    have hpte : paddr >>> 12 <<< 10 ||| attrs = pte := Except.ok.inj h
    have hzero : attrs >>> 10 = 0 := by
      omega
    unfold Pte.paddr
    rw [← hpte, shiftRight_or_distrib, shiftLeft_shiftRight, hzero, or_zero,
      shiftRight_eq_div_pow, shiftLeft_eq]
    omega

theorem Pte.new_of_mod (attrs : Nat) (h : paddr % 4096 = 0) :
    ∃ pte, Pte.new paddr attrs = .ok pte := by
  unfold Pte.new
  rw [if_neg (not_not.2 h)]
  exact ⟨_, rfl⟩

/-- Below the end of the tables, addresses of one page share an entry. -/
theorem path_zero {vaddr : Nat} (h : vaddr < 281474976710656) : path vaddr 0 = vaddr / 4096 := by
  unfold path
  rw [mod_eq_of_lt h, shiftRight_eq_div_pow]

/-! ## Filling an area -/

namespace VmArea

/-- The pages of an area: whole pages, apart. -/
structure PagesApart (area : VmArea) : Prop where
  wellFormed : area.pages.WellFormed
  whole : ∀ page ∈ area.pages.entries,
    page.range.stop = page.range.start + 4096 ∧ page.range.start % 4096 = 0

/-- The area has a page at an offset. -/
def Holds (area : VmArea) (offset paddr : Nat) : Prop :=
  match area.strategy with
  | .any => ⟨⟨offset, offset + 4096⟩, paddr⟩ ∈ area.pages.entries
  | .pinned base => paddr = base + offset

variable {area area' : VmArea} {offset paddr paddr' : Nat} {allocator allocator' : PageAllocator}

/-- At an offset there is one page. -/
theorem Holds.unique (hpages : area.PagesApart) (h : area.Holds offset paddr)
    (h' : area.Holds offset paddr') : paddr = paddr' := by
  rcases hstrategy : area.strategy with _ | base
  · simp only [Holds, hstrategy] at h h'
    have hin : Range.Holds ⟨offset, offset + 4096⟩ offset := ⟨Nat.le_refl _, by simp⟩
    have hget := (get_eq_some_iff hpages.wellFormed).2 ⟨h, hin⟩
    have hget' := (get_eq_some_iff hpages.wellFormed).2 ⟨h', hin⟩
    rw [hget] at hget'
    cases hget'
    rfl
  · simp only [Holds, hstrategy] at h h'
    exact h.trans h'.symm

/-- What a successful fill leaves: a page at the offset, all others as
they were. -/
structure Filled (area area' : VmArea) (offset paddr : Nat) : Prop where
  pages : area'.PagesApart
  strategy : area'.strategy = area.strategy
  here : area'.Holds offset paddr
  kept : ∀ o p, area.Holds o p → area'.Holds o p
  aligned : paddr % 4096 = 0

/-- A page that is not there yet does not meet those that are. -/
theorem PagesApart.not_meets (hpages : area.PagesApart) (hoffset : offset % 4096 = 0)
    (hnew : ∀ page ∈ area.pages.entries, page.range.start ≠ offset) :
    ∀ page ∈ area.pages.entries, ¬ page.range.Meets ⟨offset, offset + 4096⟩ := by
  rintro page hpage ⟨hlow, hhigh⟩
  obtain ⟨hstop, hmod⟩ := hpages.whole page hpage
  have hne := hnew page hpage
  simp only at hlow hhigh
  omega

theorem PagesApart.insert (hpages : area.PagesApart) (hoffset : offset % 4096 = 0)
    (hnew : ∀ page ∈ area.pages.entries, page.range.start ≠ offset) (paddr : Nat) :
    ∃ pages, area.pages.insert ⟨offset, offset + minPageSize⟩ paddr = .ok pages ∧
      pages.entries = area.pages.entries ++ [⟨⟨offset, offset + 4096⟩, paddr⟩] ∧
      ({ area with pages := pages } : VmArea).PagesApart := by
  have hinsert : area.pages.insert ⟨offset, offset + minPageSize⟩ paddr =
      .ok ⟨area.pages.entries ++ [⟨⟨offset, offset + 4096⟩, paddr⟩]⟩ := by
    have hlt : offset < offset + 4096 := by omega
    exact insert_eq_ok.2 ⟨hlt, hpages.not_meets hoffset hnew, rfl⟩
  refine ⟨_, hinsert, rfl, hpages.wellFormed.insert hinsert, ?_⟩
  exact List.forall_mem_append.2 ⟨hpages.whole, List.forall_mem_singleton.2 ⟨rfl, hoffset⟩⟩

/-- **Filling an area where it can be filled does not panic.** -/
theorem fill_of_fillable (allocator : PageAllocator) (hpages : area.PagesApart)
    (hoffset : offset % 4096 = 0)
    (hlow : offset + 4096 < 18446744073709551616) (h : Vm.Fillable area offset) :
    ∃ result, area.fill allocator offset = .ok result ∧
      ∀ paddr area' allocator', result = .ok (paddr, area', allocator') →
        area.Filled area' offset paddr := by
  unfold VmArea.fill
  have hover : ¬ 18446744073709551616 ≤ offset + minPageSize := by
    simp only [minPageSize]
    omega
  rw [if_neg hover]
  split
  · exact ⟨_, rfl, nofun⟩
  · unfold Vm.Fillable at h
    rcases hstrategy : area.strategy with _ | base
    · simp only [hstrategy] at h ⊢
      rcases halloc : allocator.allocatePage with _ | ⟨start, rest⟩
      · exact ⟨_, rfl, nofun⟩
      · obtain ⟨pages, hinsert, hentries, hapart⟩ := hpages.insert hoffset h start
        simp only [hinsert]
        refine ⟨_, rfl, ?_⟩
        intro paddr area' allocator' heq
        obtain ⟨rfl, rfl, rfl⟩ := heq
        refine ⟨hstrategy ▸ hapart, hstrategy.symm, ?_, ?_, PageAllocator.allocatePage_mod halloc⟩
        · simp [Holds, hentries]
        · intro o p ho
          simp only [Holds, hstrategy, hentries] at ho ⊢
          exact List.mem_append_left _ ho
    · simp only [hstrategy] at h ⊢
      split
      · exact ⟨_, rfl, nofun⟩
      · refine ⟨_, rfl, ?_⟩
        intro paddr area' allocator' heq
        obtain ⟨rfl, rfl, rfl⟩ := heq
        refine ⟨hpages, rfl, ?_, fun _ _ ho => ho, by omega⟩
        simp [Holds, hstrategy]

end VmArea

/-! ## The invariant -/

namespace Vm

variable {vm vm' : Vm} {space uaddr vaddr attrs : Nat} {page : Mapped}

/-- An entry of a table was made for a mapping and a page. -/
structure MadeFor (pte : Pte) (k : Nat) (e : RangeEntry Mapping) (m : Mapped) : Prop where
  vmarea : m.vmarea = e.value.vmarea
  address : e.range.start + m.offset = 4096 * k
  inside : 4096 * k < e.range.stop
  paddr : pte.paddr = m.paddr

/-- **What holds along first faults.** -/
structure Good (vm : Vm) : Prop where
  vmareas : ∀ s, (vm.spaces s).vmspace.vmareas.WellFormed
  suitable : ∀ s, ∀ e ∈ (vm.spaces s).vmspace.vmareas.entries, Suitable e
  areas : ∀ a, (vm.areas a).PagesApart
  mapped : ∀ m ∈ vm.mapped, (vm.areas m.vmarea).Holds m.offset m.paddr
  entries : ∀ s k, ((vm.spaces s).table.ptes k).isValid = true →
    ∃ e ∈ (vm.spaces s).vmspace.vmareas.entries, ∃ m ∈ vm.mapped,
      MadeFor ((vm.spaces s).table.ptes k) k e m

/-- An address of a mapping leads to the page of its offset: the page of
the address is in the mapping too, and mappings are apart. -/
theorem Good.translate (hg : vm.Good) {s : Nat} {e : RangeEntry Mapping} {offset paddr : Nat}
    (he : e ∈ (vm.spaces s).vmspace.vmareas.entries) (hin : e.range.start + offset < e.range.stop)
    (h : (vm.spaces s).table.translate (e.range.start + offset) = some paddr) :
    ∃ m ∈ vm.mapped, m.vmarea = e.value.vmarea ∧ m.offset = offset / 4096 * 4096 ∧
      paddr = m.paddr + offset % 4096 := by
  obtain ⟨haligned, hlow, -⟩ := hg.suitable s e he
  have hpath : path (e.range.start + offset) 0 = (e.range.start + offset) / 4096 :=
    path_zero (by omega)
  unfold PageTable.translate at h
  split at h
  · rename_i hvalid
    obtain ⟨e', he', m, hm, hmade⟩ := hg.entries s _ hvalid
    obtain ⟨hvmarea, haddress, hinside, hpaddr⟩ := hmade
    rw [hpath] at haddress hinside
    -- the start of the page is in both mappings
    have hstart : e.range.Holds (4096 * ((e.range.start + offset) / 4096)) :=
      ⟨by omega, by omega⟩
    have hstart' : e'.range.Holds (4096 * ((e.range.start + offset) / 4096)) :=
      ⟨by omega, hinside⟩
    have hget := (get_eq_some_iff (hg.vmareas s)).2 ⟨he, hstart⟩
    have hget' := (get_eq_some_iff (hg.vmareas s)).2 ⟨he', hstart'⟩
    rw [hget] at hget'
    cases hget'
    have hsum := Option.some.inj h
    exact ⟨m, hm, hvmarea, by omega, by omega⟩
  · cases h

/-- **Offsets are shared where the invariant holds.** -/
theorem Good.shared (hg : vm.Good) : vm.Shared := by
  have hpages : ∀ m ∈ vm.mapped, ∀ m' ∈ vm.mapped,
      m.vmarea = m'.vmarea → m.offset = m'.offset → m.paddr = m'.paddr := by
    intro m hm m' hm' harea hoffset
    have hholds := hg.mapped m hm
    have hholds' := hg.mapped m' hm'
    rw [← harea, ← hoffset] at hholds'
    exact hholds.unique (hg.areas _) hholds'
  refine ⟨hpages, ?_⟩
  intro s s' e e' offset paddr paddr' he he' harea hin hin' h h'
  obtain ⟨m, hm, hmarea, hmoffset, rfl⟩ := hg.translate he hin h
  obtain ⟨m', hm', hmarea', hmoffset', rfl⟩ := hg.translate he' hin' h'
  have hsame := hpages m hm m' hm' (by rw [hmarea, hmarea', harea]) (by rw [hmoffset, hmoffset'])
  rw [hsame]

theorem good_boot (allocator : PageAllocator) (areas : Nat → Nat × Strategy) :
    (boot allocator areas).Good where
  vmareas := fun _ => ⟨by simp [boot, new], by simp [boot, new]⟩
  suitable := fun _ _ he => by simp [boot, new] at he
  areas := fun _ => ⟨⟨by simp [boot, new], by simp [boot, new]⟩,
    by simp [boot, new]⟩
  mapped := fun _ hm => by simp [boot] at hm
  entries := fun _ _ h => by simp [boot, PageTable.new, Pte.isValid] at h

/-! ## Steps -/

/-- What mapping a page does: nothing but new tables, or the entry. -/
structure Maps (vm vm' : Vm) (space vaddr attrs : Nat) (page : Mapped) : Prop where
  areas : vm'.areas = vm.areas
  vmspace : ∀ s, (vm'.spaces s).vmspace = (vm.spaces s).vmspace
  written : (vm'.mapped = vm.mapped ∧
      ∀ s, (vm'.spaces s).table.ptes = (vm.spaces s).table.ptes) ∨
    (vm'.mapped = page :: vm.mapped ∧ ∃ pte, Pte.new page.paddr attrs = .ok pte ∧
      ∀ s k, (vm'.spaces s).table.ptes k =
        if s = space ∧ k = path vaddr 0 then pte else (vm.spaces s).table.ptes k)

/-- An aligned page is mapped without a panic. -/
theorem mapPage_of_mod (vm : Vm) (space vaddr attrs : Nat) (page : Mapped)
    (h : page.paddr % 4096 = 0) :
    ∃ vm' result, vm.mapPage space vaddr attrs page = .ok (vm', result) ∧
      Maps vm vm' space vaddr attrs page := by
  have hptes := (vm.spaces space).table.walk_ptes vaddr [3, 2, 1] vm.allocator
  unfold mapPage
  rcases hwalk : (vm.spaces space).table.walk vaddr [3, 2, 1] vm.allocator with
    ⟨⟨table, allocator⟩, err | ok⟩
  · rw [hwalk] at hptes
    refine ⟨_, _, rfl, rfl, ?_, .inl ⟨rfl, ?_⟩⟩
    · intro s
      by_cases hs : s = space
      · subst hs
        simp
      · simp [hs]
    · intro s
      by_cases hs : s = space
      · subst hs
        simpa using hptes
      · simp [hs]
  · rw [hwalk] at hptes
    obtain ⟨pte, hpte⟩ := Pte.new_of_mod attrs h
    simp only [hpte]
    refine ⟨_, _, rfl, rfl, ?_, .inr ⟨rfl, pte, hpte, ?_⟩⟩
    · intro s
      by_cases hs : s = space
      · subst hs
        simp
      · simp [hs]
    · intro s k
      by_cases hs : s = space
      · subst hs
        by_cases hk : k = path vaddr 0
        · simp [hk]
        · simpa [hk] using congrFun hptes k
      · simp [hs]

/-- A page of the area that was filled for it is mapped. -/
theorem Good.maps (hg : vm.Good) (e : RangeEntry Mapping) (page : Mapped)
    (he : e ∈ (vm.spaces space).vmspace.vmareas.entries) (hpage : page.vmarea = e.value.vmarea)
    (hvaddr : vaddr = e.range.start + page.offset) (hoffset : page.offset % 4096 = 0)
    (hin : vaddr < e.range.stop) (hholds : (vm.areas page.vmarea).Holds page.offset page.paddr)
    (h : Maps vm vm' space vaddr e.value.attrs page) : vm'.Good := by
  obtain ⟨hareas, hvmspace, hwritten⟩ := h
  obtain ⟨haligned, hlow, hattrs⟩ := hg.suitable space e he
  refine ⟨?_, ?_, ?_, ?_, ?_⟩
  · intro s
    rw [hvmspace]
    exact hg.vmareas s
  · intro s
    rw [hvmspace]
    exact hg.suitable s
  · rw [hareas]
    exact hg.areas
  · rw [hareas]
    intro m hm
    rcases hwritten with ⟨hmapped, -⟩ | ⟨hmapped, -⟩
    · rw [hmapped] at hm
      exact hg.mapped m hm
    · rw [hmapped] at hm
      rcases List.mem_cons.1 hm with rfl | hm
      · exact hholds
      · exact hg.mapped m hm
  · intro s k hvalid
    rw [hvmspace]
    rcases hwritten with ⟨hmapped, hptes⟩ | ⟨hmapped, pte, hnew, hptes⟩
    · rw [hptes] at hvalid ⊢
      rw [hmapped]
      exact hg.entries s k hvalid
    · rw [hptes] at hvalid ⊢
      rw [hmapped]
      by_cases hhere : s = space ∧ k = path vaddr 0
      · obtain ⟨rfl, rfl⟩ := hhere
        have hpath : path vaddr 0 = vaddr / 4096 := path_zero (by omega)
        have hpaddr := (Pte.paddr_of_new hnew hattrs).1
        refine ⟨e, he, page, List.mem_cons_self, hpage, ?_, ?_, ?_⟩
        · rw [hpath]
          omega
        · rw [hpath]
          omega
        · rw [if_pos ⟨rfl, rfl⟩]
          exact hpaddr
      · rw [if_neg hhere] at hvalid ⊢
        obtain ⟨e', he', m, hm, hmade⟩ := hg.entries s k hvalid
        exact ⟨e', he', m, List.mem_cons_of_mem _ hm, hmade⟩

/-- An area that was filled keeps its pages. -/
theorem Good.fill (hg : vm.Good) {a offset paddr : Nat} {area : VmArea}
    (allocator : PageAllocator) (h : (vm.areas a).Filled area offset paddr) :
    ({ vm with allocator := allocator, areas := update vm.areas a area } : Vm).Good where
  vmareas := hg.vmareas
  suitable := hg.suitable
  areas := by
    intro a'
    by_cases ha : a' = a
    · subst ha
      simpa using h.pages
    · simpa [ha] using hg.areas a'
  mapped := by
    intro m hm
    have hholds := hg.mapped m hm
    by_cases ha : m.vmarea = a
    · subst ha
      simpa using h.kept _ _ hholds
    · simpa [ha] using hholds
  entries := hg.entries

/-- **The first fault of a page** does not panic and keeps the
invariant. -/
theorem Good.handlePageFault (hg : vm.Good) (h : vm.First (.fault space uaddr)) :
    ∃ vm' result, vm.handlePageFault space uaddr = .ok (vm', result) ∧ vm'.Good := by
  unfold Vm.handlePageFault
  rcases hget : (vm.spaces space).vmspace.vmareas.get uaddr with _ | ⟨range, mapping⟩
  · exact ⟨vm, _, rfl, hg⟩
  · obtain ⟨he, hstart, hstop⟩ := (get_eq_some_iff (hg.vmareas space)).1 hget
    obtain ⟨haligned, hlow, -⟩ := hg.suitable space _ he
    simp only at hstart hstop haligned hlow
    have hmod : faultOffset range uaddr % 4096 = 0 := alignDown_mod _ _
    have hle : faultOffset range uaddr ≤ uaddr - range.start := alignDown_le _ _
    obtain ⟨result, hfill, hfilled⟩ := VmArea.fill_of_fillable vm.allocator
      (hg.areas mapping.vmarea) hmod (by omega) (h _ hget)
    simp only [hfill]
    rcases result with err | ⟨paddr, area, allocator⟩
    · exact ⟨vm, _, rfl, hg⟩
    · have hfilled := hfilled paddr area allocator rfl
      have hgood := hg.fill allocator hfilled
      obtain ⟨vm', mapped, hmap, hmaps⟩ := mapPage_of_mod
        { vm with allocator := allocator, areas := update vm.areas mapping.vmarea area }
        space (range.start + faultOffset range uaddr) mapping.attrs
        ⟨mapping.vmarea, faultOffset range uaddr, paddr⟩ hfilled.aligned
      refine ⟨vm', mapped, hmap, hgood.maps ⟨range, mapping⟩
        ⟨mapping.vmarea, faultOffset range uaddr, paddr⟩ he rfl rfl hmod ?_ ?_ hmaps⟩
      · simp only
        omega
      · simpa using hfilled.here

/-- **Every step along first faults keeps the invariant.** -/
theorem Good.step (hg : vm.Good) {op : Op} (hfirst : vm.First op) (h : vm.step op = some vm') :
    vm'.Good := by
  cases op with
  | map s a len mapping =>
    obtain ⟨vmspace, hmap, rfl⟩ := map_eq_some_iff.1 h
    obtain ⟨call, hcall⟩ := VmSpace.exists_perform hmap
    have hsuitable := hfirst vmspace hmap
    -- what the call adds is at the end of the entries
    have hkept : ∀ e ∈ (vm.spaces s).vmspace.vmareas.entries, e ∈ vmspace.vmareas.entries :=
      mem_of_perform hcall
    refine ⟨?_, ?_, hg.areas, hg.mapped, ?_⟩
    · intro s'
      by_cases hs : s' = s
      · subst hs
        simpa using (hg.vmareas s').perform hcall
      · simpa [hs] using hg.vmareas s'
    · intro s'
      by_cases hs : s' = s
      · subst hs
        simpa using hsuitable
      · simpa [hs] using hg.suitable s'
    · intro s' k hvalid
      by_cases hs : s' = s
      · subst hs
        simp only [update_self] at hvalid ⊢
        obtain ⟨e, he, hmade⟩ := hg.entries s' k hvalid
        exact ⟨e, hkept e he, hmade⟩
      · simp only [update_of_ne hs] at hvalid ⊢
        exact hg.entries s' k hvalid
  | fault s a =>
    obtain ⟨vm₁, result, hfault, hgood⟩ := hg.handlePageFault hfirst
    simp only [Vm.step, hfault] at h
    cases h
    exact hgood

/-- **Offsets are shared as long as every page is faulted on once.**
Whatever areas there are, wherever and in however many address spaces
they are mapped, in every state that such faults lead to equal offsets
of an area lead to the same page, and the next such fault does not
panic. -/
theorem shared_and_no_panic (allocator : PageAllocator) (areas : Nat → Nat × Strategy) (vm : Vm)
    (h : machine.ReachUnder First (boot allocator areas) vm) :
    vm.Shared ∧ ∀ space uaddr, vm.First (.fault space uaddr) →
      ∃ vm' result, vm.handlePageFault space uaddr = .ok (vm', result) := by
  have hg : vm.Good := h.invariant (good_boot allocator areas) fun hgood hok hs => hgood.step hok hs
  refine ⟨hg.shared, ?_⟩
  intro space uaddr hfirst
  obtain ⟨vm', result, hfault, -⟩ := hg.handlePageFault hfirst
  exact ⟨vm', result, hfault⟩

instance (e : RangeEntry Mapping) : Decidable (Suitable e) :=
  decidable_of_iff _ (suitable_iff e).symm

instance (area : VmArea) (offset : Nat) : Decidable (Fillable area offset) := by
  unfold Fillable
  split <;> infer_instance

instance (vm : Vm) (op : Op) : Decidable (vm.First op) :=
  match op with
  | .map _ _ _ _ => inferInstanceAs (Decidable (∀ vmspace ∈ (VmSpace.machine uaddrRange).step _ _,
      ∀ e ∈ vmspace.vmareas.entries, Suitable e))
  | .fault _ _ => inferInstanceAs (Decidable (∀ e ∈ RangeMap.get _ _, Fillable _ _))

/-- An area of two pages, mapped in two address spaces. -/
def twice : List Op :=
  [.map 0 0x20000 0x2000 ⟨0, 7⟩, .map 1 0x40000 0x2000 ⟨0, 7⟩, .fault 0 0x20000]

/-- Memory for the pages and the tables, and areas of two pages. -/
def twoPages : Vm := boot [⟨0x80000000, 0x80100000⟩] fun _ => (0x2000, .any)

/-- The first page is faulted on in one address space and the second in
the other. -/
theorem shared_of_two_faults : ∃ vm, machine.ReachUnder First twoPages vm ∧
    vm.mapped.map (fun m => (m.vmarea, m.offset)) = [(0, 0x1000), (0, 0)] ∧ vm.Shared := by
  obtain ⟨vm, hreach, hmapped⟩ : ∃ vm, machine.ReachUnder First twoPages vm ∧
      vm.mapped.map (fun m => (m.vmarea, m.offset)) = [(0, 0x1000), (0, 0)] :=
    Machine.exists_reachUnder (twice ++ [.fault 1 0x41234]) (by decide +kernel)
  exact ⟨vm, hreach, hmapped,
    (shared_and_no_panic [⟨0x80000000, 0x80100000⟩] (fun _ => (0x2000, .any)) vm hreach).1⟩

/-- **The second mapping cannot fault on a page of the first.** -/
theorem panic_of_second_mapping : ∃ vm, machine.Reach twoPages vm ∧
    vm.mapped.map (fun m => (m.vmarea, m.offset)) = [(0, 0)] ∧
    vm.handlePageFault 1 0x40000 = .error .panic := by
  obtain ⟨vm, hreach, hmapped, hpanic⟩ : ∃ vm, machine.Reach twoPages vm ∧
      vm.mapped.map (fun m => (m.vmarea, m.offset)) = [(0, 0)] ∧
      errorOf (vm.handlePageFault 1 0x40000) = some .panic :=
    Machine.exists_reachUnder twice (by decide +kernel)
  exact ⟨vm, hreach, hmapped, eq_error_of_errorOf hpanic⟩

/-- **An address space leads only to what is mapped in it.** Along first
faults, whatever translates is in a page of a mapping, and leads to the
page its area holds there. -/
theorem holds_of_translate {allocator : PageAllocator} {areas : Nat → Nat × Strategy} {paddr : Nat}
    (h : machine.ReachUnder First (boot allocator areas) vm) (hlow : vaddr < 281474976710656)
    (htr : (vm.spaces space).table.translate vaddr = some paddr) :
    ∃ e ∈ (vm.spaces space).vmspace.vmareas.entries, ∃ offset page,
      e.range.start + offset = 4096 * (vaddr / 4096) ∧ 4096 * (vaddr / 4096) < e.range.stop ∧
      (vm.areas e.value.vmarea).Holds offset page ∧ paddr = page + vaddr % 4096 := by
  have hg : vm.Good := h.invariant (good_boot allocator areas) fun hgood hok hs => hgood.step hok hs
  unfold PageTable.translate at htr
  split at htr
  next hvalid =>
    obtain ⟨e, he, m, hm, hvmarea, haddress, hinside, hpaddr⟩ := hg.entries space _ hvalid
    rw [path_zero hlow] at haddress hinside
    refine ⟨e, he, m.offset, m.paddr, haddress, hinside, hvmarea ▸ hg.mapped m hm, ?_⟩
    rw [← hpaddr]
    exact (some.inj htr).symm
  next => cases htr

/-- After the fault on the first page. -/
theorem holds_of_translate_twice : ∃ vm, machine.ReachUnder First twoPages vm ∧
    ∃ a offset page, (vm.areas a).Holds offset page := by
  obtain ⟨vm, h, htr⟩ : ∃ vm, machine.ReachUnder First twoPages vm ∧
      ((vm.spaces 0).table.translate 0x20123).isSome :=
    Machine.exists_reachUnder twice (by decide +kernel)
  obtain ⟨paddr, hpaddr⟩ := isSome_iff_exists.1 htr
  obtain ⟨e, -, offset, page, -, -, hholds, -⟩ := holds_of_translate h (by decide) hpaddr
  exact ⟨vm, h, _, offset, page, hholds⟩

end Vm

end Archives.Ftl
