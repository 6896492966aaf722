import Archives.Ftl.Model.RangeMap
/-!
# FTL — page faults

`kernel/src/{vmarea,vmspace,memory}.rs` and the page tables of
`kernel/src/arch/riscv64/vmspace.rs`: a fault looks up the mapping of
its address, has the area filled at the offset, and writes the page into
the table of the address space. Areas may be mapped at many addresses
and in many address spaces.

An address space and an area are known by numbers. A page table is the
set of its inner tables, each under the part of the address that leads
to it, and the words of its last level.
-/

namespace Archives.Ftl

open Function

def minPageSize : Nat := 4096

/-- `align_down`; the alignment is a power of two. -/
def alignDown (value align : Nat) : Nat := value / align * align

/-! ## The page allocator -/

structure BumpAllocator where
  bottom : Nat
  top : Nat

def BumpAllocator.allocate (region : BumpAllocator) (size align : Nat) :
    Option (Nat × BumpAllocator) :=
  if size = 0 ∨ region.top < size then none
  else if alignDown (region.top - size) align < region.bottom then none
  else some (alignDown (region.top - size) align,
    { region with top := alignDown (region.top - size) align })

/-- `PageAllocator`, its regions. -/
abbrev PageAllocator := List BumpAllocator

/-- `PageAllocator::allocate_pages_zeroed`, for a page: from the first
region that has one. -/
def PageAllocator.allocatePage : PageAllocator → Option (Nat × PageAllocator)
  | [] => none
  | region :: rest =>
    match region.allocate minPageSize minPageSize with
    | some (paddr, region) => some (paddr, region :: rest)
    | none => (allocatePage rest).map fun (paddr, rest) => (paddr, region :: rest)

/-! ## Areas -/

inductive Strategy
  | any
  | pinned (paddr : Nat)
  deriving DecidableEq

structure VmArea where
  size : Nat
  pages : RangeMap Nat
  strategy : Strategy

/-- `VmArea::fill`: the page at an offset, and what becomes of the area
and of the allocator. -/
def VmArea.fill (area : VmArea) (allocator : PageAllocator) (offset : Nat) :
    Except Stop (Except ErrorCode (Nat × VmArea × PageAllocator)) :=
  -- offset + MIN_PAGE_SIZE
  if 18446744073709551616 ≤ offset + minPageSize then .error .panic
  else if area.size < offset + minPageSize then .ok (.error .outOfBounds)
  else
    match area.strategy with
    | .any =>
      match allocator.allocatePage with
      | none => .ok (.error .outOfMemory)
      | some (start, allocator) =>
        match area.pages.insert ⟨offset, offset + minPageSize⟩ start with
        | .ok pages => .ok (.ok (start, { area with pages := pages }, allocator))
        -- the `expect`
        | .error _ => .error .panic
    | .pinned paddr =>
      if 18446744073709551616 ≤ paddr + offset then .ok (.error .outOfBounds)
      else .ok (.ok (paddr + offset, area, allocator))

/-! ## Page tables -/

/-- The part of an address that leads to an entry of a table: the
indices of the levels above and of this one. -/
def path (vaddr level : Nat) : Nat := (vaddr % 281474976710656) >>> (12 + 9 * level)

/-- `Pte`, an entry. -/
abbrev Pte := Nat

namespace Pte

/-- `Pte::new`, with its assertion. The attributes are not masked. -/
def new (paddr attrs : Nat) : Except Stop Pte :=
  if paddr % 4096 ≠ 0 then .error .panic else .ok (paddr >>> 12 <<< 10 ||| attrs)

def isValid (pte : Pte) : Bool := pte % 2 = 1

def paddr (pte : Pte) : Nat := pte >>> 10 <<< 12

end Pte

/-- `arch::VmSpace`: the inner tables, by level and path, and the
entries of the last level. -/
structure PageTable where
  tables : List (Nat × Nat)
  ptes : Nat → Pte

namespace PageTable

/-- The table of `arch::VmSpace::new`. -/
def new : PageTable := ⟨[], fun _ => 0⟩

/-- The loop of `arch::VmSpace::walk`, from a list of levels. The last
entry of the topmost level is a leaf, the memory of the kernel. Tables
that were made stay, also if there is no memory for the next. -/
def walk (vaddr : Nat) : List Nat → PageTable → PageAllocator →
    (PageTable × PageAllocator) × Except ErrorCode Unit
  | [], table, allocator => ((table, allocator), .ok ())
  | level :: levels, table, allocator =>
    if level = 3 ∧ path vaddr level = 511 then ((table, allocator), .error .alreadyMapped)
    else if table.tables.contains (level, path vaddr level) then walk vaddr levels table allocator
    else
      match allocator.allocatePage with
      | none => ((table, allocator), .error .outOfMemory)
      | some (_, allocator) =>
        walk vaddr levels { table with tables := (level, path vaddr level) :: table.tables } allocator

/-- Where an address leads, if an entry is set for it. -/
def translate (table : PageTable) (vaddr : Nat) : Option Nat :=
  if (table.ptes (path vaddr 0)).isValid then
    some ((table.ptes (path vaddr 0)).paddr + vaddr % 4096)
  else none

end PageTable

/-! ## Address spaces and faults -/

/-- `vmspace::Mapping`, with the number of the area. -/
structure Mapping where
  vmarea : Nat
  attrs : Nat
  deriving DecidableEq

/-- `vmspace::VmSpace`. -/
structure AddressSpace where
  vmspace : VmSpace Mapping
  table : PageTable

/-- A page that was mapped: the area, the offset and the page. -/
structure Mapped where
  vmarea : Nat
  offset : Nat
  paddr : Nat
  deriving DecidableEq

/-- The memory of the system. -/
structure Vm where
  allocator : PageAllocator
  areas : Nat → VmArea
  spaces : Nat → AddressSpace
  /-- The calls of `arch::VmSpace::map` that succeeded, the last first. -/
  mapped : List Mapped

namespace Vm

def uaddrRange : Range := ⟨0x10000, 0xffffff8000000000⟩

/-- `arch::VmSpace::map`, in the table of a space, for an offset of an
area. -/
def mapPage (vm : Vm) (space vaddr attrs : Nat) (page : Mapped) :
    Except Stop (Vm × Except ErrorCode Unit) :=
  match (vm.spaces space).table.walk vaddr [3, 2, 1] vm.allocator with
  | ((table, allocator), .error err) =>
    .ok ({ vm with
      allocator := allocator
      spaces := update vm.spaces space { vm.spaces space with table := table } }, .error err)
  | ((table, allocator), .ok ()) =>
    match Pte.new page.paddr attrs with
    | .error stop => .error stop
    | .ok pte =>
      .ok ({ vm with
        allocator := allocator
        spaces := update vm.spaces space
          { vm.spaces space with
            table := { table with ptes := update table.ptes (path vaddr 0) pte } }
        mapped := page :: vm.mapped }, .ok ())

/-- The offset a fault is about. -/
def faultOffset (range : Range) (uaddr : Nat) : Nat := alignDown (uaddr - range.start) minPageSize

def handlePageFault (vm : Vm) (space uaddr : Nat) : Except Stop (Vm × Except ErrorCode Unit) :=
  match (vm.spaces space).vmspace.vmareas.get uaddr with
  | none => .ok (vm, .error .segmentationFault)
  | some ⟨range, mapping⟩ =>
    match (vm.areas mapping.vmarea).fill vm.allocator (faultOffset range uaddr) with
    | .error stop => .error stop
    | .ok (.error err) => .ok (vm, .error err)
    | .ok (.ok (paddr, area, allocator)) =>
      mapPage { vm with
          allocator := allocator
          areas := update vm.areas mapping.vmarea area }
        space (range.start + faultOffset range uaddr) mapping.attrs
        ⟨mapping.vmarea, faultOffset range uaddr, paddr⟩

/-- What happens: `sys_vmspace_map`, and faults. -/
inductive Op
  | map (space uaddr len : Nat) (mapping : Mapping)
  | fault (space uaddr : Nat)

/-- What an operation does; nothing follows a panic. -/
def step (vm : Vm) : Op → Option Vm
  | .map space uaddr len mapping =>
    ((VmSpace.machine uaddrRange).step (vm.spaces space).vmspace (uaddr, len, mapping)).map
      fun vmspace =>
        { vm with spaces := update vm.spaces space { vm.spaces space with vmspace := vmspace } }
  | .fault space uaddr => (vm.handlePageFault space uaddr).toOption.map Prod.fst

/-- The memory and what happens to it, in any order. -/
def machine : Machine Vm Op := ⟨step⟩

/-- The start: areas of any size and strategy without pages, and address
spaces without mappings. -/
def boot (allocator : PageAllocator) (areas : Nat → Nat × Strategy) : Vm where
  allocator := allocator
  areas := fun a => ⟨(areas a).1, .new, (areas a).2⟩
  spaces := fun _ => ⟨⟨.new⟩, .new⟩
  mapped := []

/-! ## What faults should do -/

/-- **Offsets are shared.** Equal offsets of an area were always mapped
to the same page; and where two mappings of an area lead anywhere for an
offset, they lead to the same place. -/
structure Shared (vm : Vm) : Prop where
  pages : ∀ m ∈ vm.mapped, ∀ m' ∈ vm.mapped,
    m.vmarea = m'.vmarea → m.offset = m'.offset → m.paddr = m'.paddr
  tables : ∀ s s' e e' offset paddr paddr',
    e ∈ (vm.spaces s).vmspace.vmareas.entries → e' ∈ (vm.spaces s').vmspace.vmareas.entries →
    e.value.vmarea = e'.value.vmarea →
    e.range.start + offset < e.range.stop → e'.range.start + offset < e'.range.stop →
    (vm.spaces s).table.translate (e.range.start + offset) = some paddr →
    (vm.spaces s').table.translate (e'.range.start + offset) = some paddr' → paddr = paddr'

/-- A mapping that pages fit: it starts at one, its addresses are those
of the tables, and its attributes leave the page number alone. -/
@[mk_iff]
structure Suitable (e : RangeEntry Mapping) : Prop where
  aligned : e.range.start % 4096 = 0
  low : e.range.stop ≤ 281474976710656
  attrs : e.value.attrs < 1024

/-- An area that can be filled at an offset: no page is there yet, or the
area is pinned to the start of a page. -/
def Fillable (area : VmArea) (offset : Nat) : Prop :=
  match area.strategy with
  | .any => ∀ page ∈ area.pages.entries, page.range.start ≠ offset
  | .pinned paddr => paddr % 4096 = 0

/-- **The first fault of each page.** Only suitable mappings are made,
and a fault is about an offset at which its area can be filled. -/
def First (vm : Vm) : Op → Prop
  | .map space uaddr len mapping =>
    ∀ vmspace, (VmSpace.machine uaddrRange).step (vm.spaces space).vmspace (uaddr, len, mapping) =
      some vmspace → ∀ e ∈ vmspace.vmareas.entries, Suitable e
  | .fault space uaddr =>
    ∀ e, (vm.spaces space).vmspace.vmareas.get uaddr = some e →
      Fillable (vm.areas e.value.vmarea) (faultOffset e.range uaddr)

end Vm

end Archives.Ftl
