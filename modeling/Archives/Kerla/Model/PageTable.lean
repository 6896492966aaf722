import Archives.Common.Radix
import Archives.Kerla.Model.Path
/-!
# Kerla — page tables

`kernel/arch/x64/page_table.rs`: the entries of the four levels of tables,
and `PageTable::duplicate_from`, which copies the tables and the pages of
a process for `fork`.

Physical memory is made of pages of 512 words. The page allocator is the
list of the pages it will return; it does not clear them.
-/

namespace Archives.Kerla

abbrev PageTableEntry := BitVec 64

/-- `PAddr`, of a page. -/
abbrev PAddr := BitVec 64

@[irreducible] def entriesPerTable : Nat := 512

/-- The bits of an entry that hold an address. -/
def paddrBits : BitVec 64 := 0x7ffffffffffff000#64

variable (entry : PageTableEntry)

def entryPaddr : PAddr := entry &&& paddrBits

def entryFlags : PageTableEntry := entry &&& ~~~paddrBits

def nthLevelTableIndex (vaddr level : Nat) : Nat := (vaddr >>> ((level - 1) * 9 + 12)) % 512

/-- Physical memory: the words of its pages. -/
abbrev Words := PAddr → Nat → BitVec 64

/-- The pages that may be handed out, in the order in which they are. -/
structure FreePages where
  pages : List PAddr
  nodup : pages.Nodup
  /-- Each is a page, and not the first one. -/
  isPage : ∀ p ∈ pages, entryPaddr p = p ∧ p ≠ 0

/-- Memory, and what is left for the allocator to return. -/
structure PageState where
  mem : Words
  free : List PAddr

namespace PageTable

/-- `PAddr::is_null`, of an entry. -/
def isNull : Bool := entryPaddr entry == 0

/-- `alloc_pages(1, AllocPageFlags::KERNEL)`. -/
def allocPage (s : PageState) : Except Errno (PAddr × PageState) :=
  match s.free with
  | [] => .error .enomem
  | p :: free => .ok (p, { s with free := free })

def copyPage (paddr : PAddr) (s : PageState) : Except Errno (PAddr × PageState) := do
  let (newPaddr, s) ← allocPage s
  pure (newPaddr, { s with mem := fun p => if p = newPaddr then s.mem paddr else s.mem p })

/-- The entries `duplicate_table` takes as they are. -/
def isKept (level i : Nat) : Bool := level == 4 && decide (0x80 ≤ i)

/-- The state with an entry of a table written. -/
def setEntry (table : PAddr) (i : Nat) (entry : PageTableEntry) (s : PageState) : PageState :=
  { s with mem := Radix.write s.mem table i entry }

/-- The loop of `duplicate_table` over the entries. -/
def duplicateEntries (level : Nat)
    (duplicate : PAddr → PageState → Except Errno (PAddr × PageState)) (origTable newTable : PAddr) :
    List Nat → PageState → Except Errno PageState
  | [], s => .ok s
  | i :: rest, s =>
    let entry := s.mem origTable i
    if isNull entry then
      -- the entry of the new table is left as it is
      duplicateEntries level duplicate origTable newTable rest s
    else if isKept level i then
      duplicateEntries level duplicate origTable newTable rest
        (setEntry newTable i (entryPaddr entry ||| entryFlags entry) s)
    else do
      let (newPaddr, s) ← duplicate (entryPaddr entry) s
      duplicateEntries level duplicate origTable newTable rest
        (setEntry newTable i (newPaddr ||| entryFlags entry) s)

/-- **`duplicate_table`.** Level 0 stands for the pages the tables of the
last level lead to. -/
def duplicateTable : Nat → PAddr → PageState → Except Errno (PAddr × PageState)
  | 0, paddr, s => copyPage paddr s
  | level + 1, origTable, s => do
    let (newTable, s) ← allocPage s
    let s ← duplicateEntries (level + 1) (duplicateTable level) origTable newTable
      (List.range entriesPerTable) s
    pure (newTable, s)

def duplicateFrom (pml4 : PAddr) (s : PageState) : Except Errno (PAddr × PageState) :=
  duplicateTable 4 pml4 s

/-! ## What a page table means -/

/-- The first address above the user's half. -/
def userEnd : Nat := 0x800000000000

/-- The page or table an entry leads to. -/
def next : Option PAddr :=
  if isNull entry then none else some (entryPaddr entry)

/-- The indices an address has in the tables, from the PML4 down. -/
def indices (vaddr : Nat) : List Nat :=
  [nthLevelTableIndex vaddr 4, nthLevelTableIndex vaddr 3, nthLevelTableIndex vaddr 2,
    nthLevelTableIndex vaddr 1]

variable (mem : Words)

/-- **What an address is mapped to**: the page, and the flags at each
level. -/
def mapping (pml4 : PAddr) (vaddr : Nat) : Option (PAddr × List PageTableEntry) :=
  (Radix.trace next mem pml4 (indices vaddr)).map fun found => (found.1, found.2.map entryFlags)

/-- Two entries are the same, or both lead nowhere. -/
def SameEntry (a b : PageTableEntry) : Prop := a = b ∨ (isNull a = true ∧ isNull b = true)

/-- **The table `new` is a duplicate of `pml4`.** Its user's half maps the
same addresses, to other pages with the same words and flags, and its
kernel's half has the same entries. -/
structure Duplicates (mem : Words) (pml4 : PAddr) (mem' : Words) (new : PAddr) : Prop where
  maps : ∀ vaddr, vaddr < userEnd →
    ((mapping mem' new vaddr).isSome = true ↔ (mapping mem pml4 vaddr).isSome = true)
  page : ∀ vaddr, vaddr < userEnd → ∀ p p' fs fs', mapping mem pml4 vaddr = some (p, fs) →
    mapping mem' new vaddr = some (p', fs') →
      p' ≠ p ∧ fs' = fs ∧ ∀ i, i < entriesPerTable → mem' p' i = mem p i
  kernel : ∀ i, 0x100 ≤ i → i < entriesPerTable → SameEntry (mem' new i) (mem pml4 i)

/-! ## When it is one -/

/-- The tables and pages that are copied, in the order in which they
are, each with its level. -/
def copyOrder (mem : Words) : Nat → PAddr → List (Nat × PAddr)
  | 0, paddr => [(0, paddr)]
  | level + 1, table => (level + 1, table) :: (List.range entriesPerTable).flatMap fun i =>
    if isNull (mem table i) || isKept (level + 1) i then []
    else copyOrder mem level (entryPaddr (mem table i))

/-- The tables of the user's half, and the pages they lead to, are not
free. -/
def InUse (pml4 : PAddr) (free : FreePages) : Prop :=
  ∀ vaddr, vaddr < userEnd → ∀ path, path <+: indices vaddr →
    ∀ p es, Radix.trace next mem pml4 path = some (p, es) → p ∉ free.pages

/-- Another content of the free pages: words that led nowhere still do. -/
def Refills (free : FreePages) (mem mem' : Words) : Prop :=
  (∀ p, p ∉ free.pages → mem' p = mem p) ∧
    ∀ p ∈ free.pages, ∀ i, isNull (mem p i) = true → isNull (mem' p i) = true

/-- **Nothing is left behind.** Every free page that a table will be
copied to has no entry where the table has none. -/
def NothingLeft (pml4 : PAddr) (free : FreePages) : Prop :=
  ∀ level table new, ((level + 1, table), new) ∈ (copyOrder mem 4 pml4).zip free.pages →
    ∀ i, i < entriesPerTable → isNull (mem table i) = true → isNull (mem new i) = true

/-- **Nothing is shared.** No address of the user is mapped through the
entries that are taken as they are. -/
def NothingShared (pml4 : PAddr) : Prop :=
  ∀ vaddr, 0x400000000000 ≤ vaddr → vaddr < userEnd → mapping mem pml4 vaddr = none

end PageTable

end Archives.Kerla
