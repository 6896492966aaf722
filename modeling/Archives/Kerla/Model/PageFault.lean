import Archives.Kerla.Model.TmpFile
import Archives.Kerla.Model.Vm
/-!
# Kerla — page faults

`handle_page_fault`: the area the address lies in says what the new page
holds. A page of a file is read from the file in one piece, the rest of
it is zero.

The files are regular files (of a tmpfs or of the initramfs; both are
read alike), and there is a free page for the process.
-/

namespace Archives.Kerla

def userVAddrNewNonnull (addr : Nat) : Option Nat :=
  if kernelBaseAddr ≤ addr then none else if addr = 0 then none else some addr

namespace PageFault

abbrev Page := Nat → UInt8

/-- How the handling of a fault ends. -/
inductive Outcome
  /-- The process is killed by `SIGSEGV`. -/
  | killed
  /-- The kernel stops at a sum that overflows. -/
  | overflow
  /-- The page is mapped at the address. -/
  | mapped (vaddr : Nat) (page : Page)

def zeroed : Page := fun _ => 0

variable (file : TmpFile)

/-- A zeroed page with what `FileLike::read` put into
`buf[offsetInPage..(offsetInPage + copyLen)]`. -/
def readInto (offsetInFile offsetInPage copyLen : Nat) : Page :=
  if 0 < copyLen then fun i =>
    if offsetInPage ≤ i then ((file.read offsetInFile copyLen)[i - offsetInPage]?).getD 0 else 0
  else zeroed

def filePage (area : VmArea) (offset fileSize unalignedVaddr alignedVaddr : Nat) :
    Except Overflow Page :=
  if alignedVaddr < area.start then
    -- the source takes the position of the fault, not of the area
    let offsetInPage := unalignedVaddr % pageSize
    .ok (readInto file offset offsetInPage (min fileSize (pageSize - offsetInPage)))
  else
    let offsetInVma := alignedVaddr - area.start
    if fileSize ≤ offsetInVma then .ok zeroed
    else if usizeLimit ≤ offset + offsetInVma then .error .overflow
    else .ok (readInto file (offset + offsetInVma) 0 (min (fileSize - offsetInVma) pageSize))

/-- What is mapped for an area. -/
def areaPage (files : Nat → TmpFile) (area : VmArea) (unalignedVaddr alignedVaddr : Nat) :
    Except Overflow Page :=
  match area.areaType with
  | .anonymous => .ok zeroed
  | .file f offset fileSize => filePage (files f) area offset fileSize unalignedVaddr alignedVaddr

/-- The page as it is mapped, if it was filled. -/
def mapPage (alignedVaddr : Nat) : Except Overflow Page → Outcome
  | .ok page => .mapped alignedVaddr page
  | .error .overflow => .overflow

def handlePageFault (files : Nat → TmpFile) (vmAreas : List VmArea) (unalignedVaddr : Nat) :
    Outcome :=
  (userVAddrNewNonnull (alignDown unalignedVaddr pageSize)).elim .killed fun alignedVaddr =>
    (vmAreas.find? fun vma => vma.contains unalignedVaddr).elim .killed fun vma =>
      mapPage alignedVaddr (areaPage files vma unalignedVaddr alignedVaddr)

/-- The byte of a file at an offset, zero past its end. -/
def byteAt (offset : Nat) : UInt8 := file.data[offset]?.getD 0

/-- **A page as it should be**, of an area with `fileSize` bytes of a
file from `offset` on: at each address of the area its file byte, and
zero after them. -/
def Fills (area : VmArea) (offset fileSize : Nat) (outcome : Outcome) : Prop :=
  ∀ vaddr page, outcome = .mapped vaddr page →
    ∀ a, area.contains a = true → alignDown a pageSize = vaddr →
      page (a % pageSize) =
        if a - area.start < fileSize then byteAt file (offset + (a - area.start)) else 0

/-- **When the page is right.** The address has no page of its own; or
the page does not begin before the area; or the fault was at the very
start of the area; or the file bytes that belong into the page are all
zero. -/
def Aligns (area : VmArea) (offset fileSize unalignedVaddr : Nat) : Prop :=
  userVAddrNewNonnull (alignDown unalignedVaddr pageSize) = none ∨
  area.start ≤ alignDown unalignedVaddr pageSize ∨
  unalignedVaddr = area.start ∨
  ∀ i, i < fileSize → area.start % pageSize + i < pageSize → byteAt file (offset + i) = 0

end PageFault

end Archives.Kerla
