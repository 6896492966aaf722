import Archives.Kerla.TmpFile
import Archives.Kerla.Model.PageFault
/-!
# Kerla — what a page fault maps

A page that begins inside its area is filled from the right offset of
the file. In a first page that begins before the area, the file bytes
are put at the position of the fault: they are where they belong only if
the fault was at the start of the area, or if there was nothing but
zeros to put.
-/

namespace Archives.Kerla.PageFault

open List Nat Option

variable {file : TmpFile} {area : VmArea} {offset fileSize unalignedVaddr base : Nat}

/-- **What a page holds** after a read into it. -/
theorem readInto_apply (offsetInFile offsetInPage copyLen i : Nat) :
    readInto file offsetInFile offsetInPage copyLen i =
      if offsetInPage ≤ i ∧ i < offsetInPage + copyLen then
        byteAt file (offsetInFile + (i - offsetInPage)) else 0 := by
  rw [readInto]
  by_cases hlen : 0 < copyLen
  · rw [if_pos hlen, TmpFile.read_eq]
    by_cases hge : offsetInPage ≤ i
    · simp only [hge, if_true, true_and]
      by_cases hlt : i < offsetInPage + copyLen
      · rw [if_pos hlt, getElem?_take_of_lt (by omega), getElem?_drop, byteAt]
      · rw [if_neg hlt, getElem?_take, if_neg (by omega), getD_none]
    · simp only [hge, if_false, false_and]
  · rw [if_neg hlen, zeroed, if_neg (by omega)]

variable {a : Nat}

/-- An address of a page is its base and its place in the page. -/
theorem eq_add_mod (h : alignDown a pageSize = base) :
    a = base + a % pageSize ∧ a % pageSize < pageSize := by
  have hle := mod_le a pageSize
  rw [alignDown] at h
  exact ⟨by omega, mod_lt _ (by decide)⟩

/-- A page that begins inside its area is right. -/
theorem filePage_inner {page : Page} (hge : area.start ≤ base)
    (h : filePage file area offset fileSize unalignedVaddr base = .ok page)
    (ha : alignDown a pageSize = base) : page (a % pageSize) =
      if a - area.start < fileSize then byteAt file (offset + (a - area.start)) else 0 := by
  obtain ⟨hsum, hmod⟩ := eq_add_mod ha
  rw [filePage, if_neg (by omega)] at h
  by_cases hpast : fileSize ≤ base - area.start
  · rw [if_pos hpast] at h
    cases h
    rw [if_neg (by omega), zeroed]
  · rw [if_neg hpast] at h
    by_cases hover : usizeLimit ≤ offset + (base - area.start)
    · rw [if_pos hover] at h
      cases h
    · rw [if_neg hover] at h
      cases h
      rw [readInto_apply]
      by_cases hin : a - area.start < fileSize
      · rw [if_pos hin, if_pos (by omega)]
        congr 1
        omega
      · rw [if_neg hin, if_neg (by omega)]

/-- What a page is filled with that begins before its area. -/
def firstPage (file : TmpFile) (offset fileSize unalignedVaddr : Nat) : Page :=
  readInto file offset (unalignedVaddr % pageSize)
    (min fileSize (pageSize - unalignedVaddr % pageSize))

section FirstPage

-- The page begins before the area, and the fault is in the area.
variable {base : Nat} (hlt : base < area.start) (hle : area.start ≤ unalignedVaddr)
  (hu : alignDown unalignedVaddr pageSize = base)

include hlt hle hu

/-- The start of the area lies in the page of the fault. -/
theorem start_mod : area.start = base + area.start % pageSize := by
  obtain ⟨hsum, hmod⟩ := eq_add_mod hu
  have hbase : base % pageSize = 0 := by
    rw [← hu, alignDown]
    simp only [pageSize]
    omega
  simp only [pageSize] at hsum hmod hbase ⊢
  omega

/-- A fault at the start of the area: the page is right. -/
theorem firstPage_of_eq (heq : unalignedVaddr = area.start) (hage : area.start ≤ a)
    (ha : alignDown a pageSize = base) :
    firstPage file offset fileSize unalignedVaddr (a % pageSize) =
      if a - area.start < fileSize then byteAt file (offset + (a - area.start)) else 0 := by
  obtain ⟨hsum, hmod⟩ := eq_add_mod ha
  have hstart := start_mod hlt hle hu
  rw [firstPage, readInto_apply, heq]
  by_cases hin : a - area.start < fileSize
  · rw [if_pos hin, if_pos (by omega)]
    congr 1
    omega
  · rw [if_neg hin, if_neg (by omega)]

/-- Nothing but zeros to put: the page is right. -/
theorem firstPage_of_zero (hage : area.start ≤ a) (ha : alignDown a pageSize = base)
    (hzero : ∀ i, i < fileSize → area.start % pageSize + i < pageSize → byteAt file (offset + i) = 0) :
    firstPage file offset fileSize unalignedVaddr (a % pageSize) =
      if a - area.start < fileSize then byteAt file (offset + (a - area.start)) else 0 := by
  obtain ⟨hsum, hmod⟩ := eq_add_mod ha
  obtain ⟨husum, humod⟩ := eq_add_mod hu
  have hstart := start_mod hlt hle hu
  have hleft : firstPage file offset fileSize unalignedVaddr (a % pageSize) = 0 := by
    rw [firstPage, readInto_apply]
    split
    · exact hzero _ (by omega) (by omega)
    · rfl
  rw [hleft]
  split
  · exact (hzero _ (by omega) (by omega)).symm
  · rfl

/-- **A page filled from a later fault holds no file byte but zeros.**
Byte `i` of the file is expected where the code put the byte that is the
distance of the fault before it, or a zero; so by induction all of them
are zero. -/
theorem byteAt_eq_zero_of_firstPage (hne : unalignedVaddr ≠ area.start)
    (h : ∀ a, area.start ≤ a → a - area.start < fileSize → alignDown a pageSize = base →
      firstPage file offset fileSize unalignedVaddr (a % pageSize) =
        byteAt file (offset + (a - area.start))) :
    ∀ i, i < fileSize → area.start % pageSize + i < pageSize → byteAt file (offset + i) = 0 := by
  obtain ⟨husum, humod⟩ := eq_add_mod hu
  have hstart := start_mod hlt hle hu
  intro i
  induction i using Nat.strongRecOn with
  | ind i ih =>
    intro hi hroom
    have hmod : (area.start + i) % pageSize = area.start % pageSize + i := by
      simp only [pageSize] at hroom ⊢
      omega
    have hbyte := h (area.start + i) (by omega) (by omega) (by rw [alignDown, hmod]; omega)
    rw [hmod, firstPage, readInto_apply, Nat.add_sub_cancel_left] at hbyte
    rw [← hbyte]
    split
    · have hback := ih (i - (unalignedVaddr - area.start)) (by omega) (by omega) (by omega)
      rw [← hback]
      congr 1
      omega
    · rfl

end FirstPage

variable (files : Nat → TmpFile) {vmAreas : List VmArea} {f : Nat}

/-- The page a fault in an area of a file leads to. -/
theorem handlePageFault_eq
    (hfind : (vmAreas.find? fun vma => vma.contains unalignedVaddr) = some area)
    (htype : area.areaType = .file f offset fileSize)
    (hbase : userVAddrNewNonnull (alignDown unalignedVaddr pageSize) = some base) :
    handlePageFault files vmAreas unalignedVaddr =
      mapPage base (filePage (files f) area offset fileSize unalignedVaddr base) := by
  simp [handlePageFault, hbase, hfind, areaPage, htype]

theorem userVAddrNewNonnull_eq_some {addr : Nat} (h : userVAddrNewNonnull addr = some base) :
    addr = base := by
  rw [userVAddrNewNonnull] at h
  split at h
  · cases h
  · split at h
    · cases h
    · exact some.inj h

theorem contains_iff : area.contains a = true ↔ area.start ≤ a ∧ a < area.start + area.len := by
  rw [VmArea.contains, Range.contains_eq_true, VmArea.range, Range.Holds]

theorem mapPage_eq_mapped {vaddr : Nat} {page : Page} {result : Except Overflow Page}
    (h : mapPage base result = .mapped vaddr page) : vaddr = base ∧ result = .ok page := by
  cases result with
  | ok p =>
    cases h
    exact ⟨rfl, rfl⟩
  | error e => cases e; cases h

/-- **The pages of file-backed areas, exactly.** The page that a fault
maps holds the file bytes and zeros of its area if and only if one of
the four cases is met: the fault has no page, the page begins inside the
area, the fault is at the start of the area, or the bytes are zero. -/
theorem fills_iff_aligns
    (hfind : (vmAreas.find? fun vma => vma.contains unalignedVaddr) = some area)
    (htype : area.areaType = .file f offset fileSize) (hsize : fileSize ≤ area.len) :
    Fills (files f) area offset fileSize (handlePageFault files vmAreas unalignedVaddr) ↔
      Aligns (files f) area offset fileSize unalignedVaddr := by
  have hmem : area.range.Holds unalignedVaddr :=
    Range.contains_eq_true.mp
      (find?_some (p := fun vma : VmArea => vma.contains unalignedVaddr) hfind)
  have hle : area.start ≤ unalignedVaddr := hmem.1
  cases hbase : userVAddrNewNonnull (alignDown unalignedVaddr pageSize) with
  | none =>
    refine ⟨fun _ => .inl hbase, fun _ vaddr page hmapped => ?_⟩
    simp only [handlePageFault, hbase, elim_none, reduceCtorEq] at hmapped
  | some base =>
    have hu := userVAddrNewNonnull_eq_some hbase
    rw [handlePageFault_eq files hfind htype hbase]
    rcases lt_or_ge base area.start with hlt | hge
    · have hpage : filePage (files f) area offset fileSize unalignedVaddr base =
          .ok (firstPage (files f) offset fileSize unalignedVaddr) := by
        rw [filePage, if_pos hlt, firstPage]
      rw [hpage]
      constructor
      · intro hfills
        by_cases hne : unalignedVaddr = area.start
        · exact .inr (.inr (.inl hne))
        · refine .inr (.inr (.inr (byteAt_eq_zero_of_firstPage hlt hle hu hne ?_)))
          intro a hage hin ha
          have hright := hfills base _ rfl a (contains_iff.mpr ⟨hage, by omega⟩) ha
          rwa [if_pos hin] at hright
      · rintro haligns vaddr page hmapped a hc ha
        obtain ⟨rfl, hok⟩ := mapPage_eq_mapped hmapped
        cases hok
        have hage := (contains_iff.mp hc).1
        rcases haligns with hnone | hinside | heq | hzero
        · rw [hbase] at hnone
          cases hnone
        · omega
        · exact firstPage_of_eq hlt hle hu heq hage ha
        · exact firstPage_of_zero hlt hle hu hage ha hzero
    · refine ⟨fun _ => .inr (.inl (by omega)), fun _ vaddr page hmapped a _ ha => ?_⟩
      obtain ⟨rfl, hok⟩ := mapPage_eq_mapped hmapped
      exact filePage_inner hge hok ha

/-- A fault at the start of an area that begins inside a page. -/
theorem fills_at_start : let area : VmArea := ⟨4200, 100, .file 0 0 3⟩
    Fills ⟨[1, 2, 3]⟩ area 0 3 (handlePageFault (fun _ => ⟨[1, 2, 3]⟩) [area] 4200) :=
  (fills_iff_aligns (fun _ => ⟨[1, 2, 3]⟩) (f := 0) (by decide) rfl (by decide)).mpr
    (.inr (.inr (.inl rfl)))

/-- **A page with the file at the wrong place.** The area begins at 4200
and holds the bytes 1, 2 and 3 of a file; the first access is to its
second byte. The page mapped has the byte 1 there. -/
theorem not_fills_at_second_byte : let area : VmArea := ⟨4200, 100, .file 0 0 3⟩
    ¬ Fills ⟨[1, 2, 3]⟩ area 0 3 (handlePageFault (fun _ => ⟨[1, 2, 3]⟩) [area] 4201) ∧
      ∃ page, handlePageFault (fun _ => ⟨[1, 2, 3]⟩) [area] 4201 = .mapped 4096 page ∧
        page (4201 % pageSize) = 1 := by
  refine ⟨fun h => ?_, _, rfl, by decide +kernel⟩
  exact absurd (h _ _ rfl 4201 (by decide) (by decide)) (by decide +kernel)

end Archives.Kerla.PageFault
