import Archives.Common.Machine
import Archives.Common.Radix
/-!
# Resea — page tables

`kernel/arch/x64/paging.c`. A page table is a tree of tables of 512
entries, four levels deep, in physical memory: an entry holds the physical
address of a table of the next level or, in the last level, of the page,
and attributes in its other bits.

The memory of the tables is a function of the physical address of a table
and an index. `page_arena` is the list of its free pages in the order in
which `KMALLOC` hands them out.
-/

namespace Archives.Resea.Paging

def pageSize : Nat := 4096

def pageEntryNum : Nat := 512

def kernelBaseAddr : Nat := 0xffff800000000000

def pagePresent : BitVec 64 := 1

def nthLevelIndex (level vaddr : Nat) : Nat := vaddr >>> ((level - 1) * 9 + 12) % 512

def entryPaddr (entry : BitVec 64) : BitVec 64 := entry &&& 0x7ffffffffffff000

/-- How a call does not return. -/
inductive Panic
  | outOfMemory
  | assertion
  /-- A loop that is never left. -/
  | hang
  deriving DecidableEq, Repr

/-- The memory of page tables, with the field of `struct page_table`. -/
structure State where
  pml4 : BitVec 64
  mem : BitVec 64 → Nat → BitVec 64
  arena : List (BitVec 64)

/-- `vaddr += PAGE_SIZE` in 64 bits. -/
def nextPage (vaddr : Nat) : Nat := (vaddr + pageSize) % 0x10000000000000000

/-- Writes an entry. -/
def State.set (s : State) (table : BitVec 64) (index : Nat) (entry : BitVec 64) : State :=
  { s with mem := Radix.write s.mem table index entry }

/-- `KMALLOC` and `inlined_memset` to zero. -/
def kmallocZeroed (s : State) : Except Panic (BitVec 64 × State) :=
  match s.arena with
  | [] => .error .outOfMemory
  | page :: rest => .ok (page, { s with mem := Radix.fill s.mem page 0, arena := rest })

/-- Allocates the table of an entry that has none. -/
def ensureTable (table : BitVec 64) (index : Nat) (s : State) : Except Panic State :=
  if s.mem table index = 0 then do
    let (page, s) ← kmallocZeroed s
    pure (s.set table index page)
  else pure s

/-- The table of an entry, with the attributes of the entry updated. -/
def enter (attrs : BitVec 64) (table : BitVec 64) (index : Nat) (s : State) :
    Except Panic (BitVec 64 × State) := do
  let s ← ensureTable table index s
  let entry := entryPaddr (s.mem table index) ||| attrs
  pure (entryPaddr entry, s.set table index entry)

/-- The loop of `link_page` over the levels above the last; `k` of them
are left. -/
def enterTables (attrs : BitVec 64) (vaddr : Nat) : Nat → BitVec 64 → State →
    Except Panic (BitVec 64 × State)
  | 0, table, s => .ok (table, s)
  | k + 1, table, s => do
    let (table, s) ← enter attrs table (nthLevelIndex (k + 2) vaddr) s
    enterTables attrs vaddr k table s

/-- The loop of `link_page` over the entries of a table; returns what
remains. -/
def linkEntries (attrs table : BitVec 64) : Nat → Nat → Nat → BitVec 64 → State →
    Nat × Nat × BitVec 64 × State
  | 0, _, vaddr, paddr, s => (0, vaddr, paddr, s)
  | remaining + 1, index, vaddr, paddr, s =>
    if index < pageEntryNum then
      linkEntries attrs table remaining (index + 1) (nextPage vaddr) (paddr + 4096)
        (s.set table index (paddr ||| attrs))
    else (remaining + 1, vaddr, paddr, s)

/-- The outer loop of `link_page`. The number of pages that remain is set
anew in every round. -/
def linkRounds (attrs : BitVec 64) (numPages : Nat) : Nat → Nat → BitVec 64 → State →
    Except Panic State
  | 0, _, _, _ => .error .hang
  | fuel + 1, vaddr, paddr, s => do
    let (table, s) ← enterTables attrs vaddr 3 s.pml4 s
    let (remaining, vaddr, paddr, s) :=
      linkEntries attrs table numPages (nthLevelIndex 1 vaddr) vaddr paddr s
    if remaining = 0 then pure s
    else linkRounds attrs numPages fuel vaddr paddr s

/-- **`link_page`.** A call that returns does so in the second round at
the latest; another goes on, from table to table, until it is out of
memory. There are 2 ^ 27 tables. -/
def linkPage (vaddr : Nat) (paddr : BitVec 64) (numPages : Nat) (flags : BitVec 64) (s : State) :
    Except Panic State :=
  if vaddr < kernelBaseAddr then
    linkRounds (pagePresent ||| flags) numPages 0x8000001 vaddr paddr s
  else .error .assertion

/-! ## unlink_page -/

/-- The loop of `unlink_page` over the levels above the last. -/
def findTables (s : State) (vaddr : Nat) : Nat → BitVec 64 → Except Panic (BitVec 64)
  | 0, table => .ok table
  | k + 1, table =>
    let entry := s.mem table (nthLevelIndex (k + 2) vaddr)
    if entry = 0 then .error .assertion else findTables s vaddr k (entryPaddr entry)

/-- The loop of `unlink_page` over the entries of a table. -/
def unlinkEntries (table : BitVec 64) : Nat → Nat → Nat → State → Nat × Nat × State
  | 0, _, vaddr, s => (0, vaddr, s)
  | remaining + 1, index, vaddr, s =>
    if index < pageEntryNum then
      unlinkEntries table remaining (index + 1) (nextPage vaddr) (s.set table index 0)
    else (remaining + 1, vaddr, s)

/-- The outer loop of `unlink_page`. -/
def unlinkRounds : Nat → Nat → Nat → State → Except Panic State
  | _, 0, _, s => .ok s
  | 0, _ + 1, _, _ => .error .hang
  | fuel + 1, remaining + 1, vaddr, s => do
    let table ← findTables s vaddr 3 s.pml4
    let (remaining, vaddr, s) :=
      unlinkEntries table (remaining + 1) (nthLevelIndex 1 vaddr) vaddr s
    unlinkRounds fuel remaining vaddr s

/-- **`unlink_page`.** Every round unlinks a page. -/
def unlinkPage (vaddr numPages : Nat) (s : State) : Except Panic State :=
  if vaddr < kernelBaseAddr then unlinkRounds numPages numPages vaddr s else .error .assertion

/-! ## resolve_paddr_from_vaddr -/

/-- The loop of `resolve_paddr_from_vaddr`, with its counters `i` and
`level`. The bit for bigger pages is read in the next table, at the index
of the entry that led there. -/
def resolveTables (s : State) (vaddr : Nat) : Nat → Nat → Nat → BitVec 64 → Option (Nat × BitVec 64)
  | 0, _, level, table => some (level, table)
  | fuel + 1, i, level, table =>
    if 1 < i then
      let index := nthLevelIndex level vaddr
      if s.mem table index = 0 then none
      else
        let table := entryPaddr (s.mem table index)
        let i := if s.mem table index &&& 0x80 ≠ 0 then i - 2 else i - 1
        resolveTables s vaddr fuel i (level - 1) table
    else some (level, table)

/-- **`resolve_paddr_from_vaddr`.** The loop takes three rounds at most. -/
def resolvePaddrFromVaddr (s : State) (vaddr : Nat) : BitVec 64 :=
  match resolveTables s vaddr 3 4 4 s.pml4 with
  | none => 0
  | some (level, table) =>
    let entry := s.mem table (nthLevelIndex level vaddr)
    if entry = 0 then 0
    else entryPaddr entry +
      (if level = 2 then BitVec.ofNat 64 (nthLevelIndex (level - 1) vaddr) <<< 12 else 0)

/-! ## The map the page table stands for -/

inductive Op
  | link (vaddr : Nat) (paddr : BitVec 64) (numPages : Nat) (flags : BitVec 64)
  | unlink (vaddr numPages : Nat)

/-- What a call does. -/
def perform : Op → State → Except Panic State
  | .link vaddr paddr numPages flags, s => linkPage vaddr paddr numPages flags s
  | .unlink vaddr numPages, s => unlinkPage vaddr numPages s

/-- The map: the physical address of each page of virtual memory, by its
number; 0 where there is none. -/
abbrev PageMap := Nat → BitVec 64

/-- What a call should do to the map: exactly its pages change. -/
def Op.apply (m : PageMap) : Op → PageMap
  | .link vaddr paddr numPages _ => fun n =>
      if vaddr / pageSize ≤ n ∧ n < vaddr / pageSize + numPages then
        paddr + BitVec.ofNat 64 ((n - vaddr / pageSize) * pageSize)
      else m n
  | .unlink vaddr numPages => fun n =>
      if vaddr / pageSize ≤ n ∧ n < vaddr / pageSize + numPages then 0 else m n

/-- **The machine**: page tables beside the map. -/
def machine : Machine (State × PageMap) Op where
  step s op :=
    match perform op s.1 with
    | .ok t => some (t, op.apply s.2)
    | .error _ => none

/-- The end of the addresses of user space. -/
def userEnd : Nat := 0x800000000000

/-- **The page table agrees with the map.** -/
def Agrees (s : State) (m : PageMap) : Prop :=
  ∀ vaddr, vaddr < userEnd → resolvePaddrFromVaddr s vaddr = m (vaddr / pageSize)

/-- Attributes: bits an entry has beside the address, but not the one for
bigger pages. -/
def IsFlags (flags : BitVec 64) : Prop := flags &&& 0x7ffffffffffff080 = 0
deriving Decidable

/-- Arguments that are aligned to pages: virtual addresses of user space,
and physical addresses that fit an entry. -/
def Op.Aligned : Op → Prop
  | .link vaddr paddr numPages flags => vaddr % pageSize = 0 ∧ vaddr < userEnd ∧
      vaddr + numPages * pageSize ≤ userEnd ∧ paddr &&& 0xfff = 0 ∧
      paddr.toNat + numPages * pageSize ≤ 0x8000000000000000 ∧ IsFlags flags
  | .unlink vaddr numPages => vaddr % pageSize = 0 ∧ vaddr < userEnd ∧
      vaddr + numPages * pageSize ≤ userEnd

/-- **A call fits**: the pages it links are in one table. -/
def Op.Fits : Op → Prop
  | .link vaddr _ numPages _ => nthLevelIndex 1 vaddr + numPages ≤ pageEntryNum
  | .unlink _ _ => True

end Archives.Resea.Paging
