import Archives.Common.Call
import Archives.Common.Machine
import Archives.Common.Ranges
import Archives.Kerla.Model.Alignment
import Archives.Kerla.Model.Path
/-!
# Kerla — the memory areas of a process

`kernel/mm/vm.rs`, `sys_mmap` and `sys_brk`. A process has a stack area,
a heap area that grows in place, and the areas registered for the
segments of its executable and by `mmap`.

User addresses are numbers. The kernel is built with overflow checks and
without debug assertions: a sum that does not fit a machine word stops
it. The page table is left out here.
-/

namespace Archives.Kerla

open Call

def pageSize : Nat := 4096

/-- `KERNEL_BASE_ADDR`, the first address above user space. -/
def kernelBaseAddr : Nat := 0xffff800000000000

def userVallocBase : Nat := 0xa00000000

def userVallocEnd : Nat := 0xfff00000000

def userStackTop : Nat := userVallocBase

/-- The numbers from here on do not fit a `usize`. -/
def usizeLimit : Nat := 0x10000000000000000

/-- `VmAreaType`. Files are known by a number. -/
inductive VmAreaType
  | anonymous
  | file (file offset fileSize : Nat)
  deriving DecidableEq, Repr

structure VmArea where
  start : Nat
  len : Nat
  areaType : VmAreaType
  deriving DecidableEq, Repr

namespace VmArea

/-- The addresses of an area. -/
def range (area : VmArea) : Range := ⟨area.start, area.start + area.len⟩

def contains (area : VmArea) (vaddr : Nat) : Bool := area.range.contains vaddr

def overlaps (area : VmArea) (other len : Nat) : Bool :=
  decide (area.start ≤ other + len) && decide (other < area.start + area.len)

end VmArea

/-- `Vm`. The stack and the heap are the first two elements of
`vm_areas`. -/
structure Vm where
  stackVma : VmArea
  heapVma : VmArea
  others : List VmArea
  vallocNext : Nat
  deriving DecidableEq

/-- The stop of the kernel at a sum that overflows. -/
inductive Overflow
  | overflow
  deriving DecidableEq, Repr

/-- Calls on the memory areas. -/
abbrev VmCall (α : Type) := Call Overflow Vm Errno α

namespace Vm

variable (vm : Vm)

def vmAreas : List VmArea := vm.stackVma :: vm.heapVma :: vm.others

def new (stackBottom heapBottom : Nat) : Vm where
  stackVma := ⟨stackBottom, userStackTop - stackBottom, .anonymous⟩
  heapVma := ⟨heapBottom, 0, .anonymous⟩
  others := []
  vallocNext := userVallocBase

/-- The addition of two machine words. -/
def checkedAdd (a b : Nat) : VmCall Nat :=
  if a + b < usizeLimit then pure (a + b) else stop .overflow

def accessOk (start len : Nat) : Bool := decide (start + len ≤ kernelBaseAddr)

/-- The test of `is_free_vaddr_range`, its sum apart. -/
def isFree (start len : Nat) : Bool := vm.vmAreas.all fun area => !area.overlaps start len

def isFreeVaddrRange (start len : Nat) : VmCall Bool := do
  let _ ← checkedAdd start len
  let vm ← state
  pure (vm.isFree start len)

def addVmArea (start len : Nat) (areaType : VmAreaType) : VmCall Unit :=
  if accessOk start len = false then fail .einval
  else do
    let free ← isFreeVaddrRange start len
    if free = false then fail .einval
    else update fun vm => { vm with others := vm.others ++ [⟨start, len, areaType⟩] }

def heapEnd : Nat := vm.heapVma.range.stop

/-- `Vm::expand_heap_by`. The new end is compared with the stack only. -/
def expandHeapBy (increment : Nat) : VmCall Unit := do
  let vm ← state
  let increment := alignUp increment pageSize
  let newHeapTop ← checkedAdd vm.heapEnd increment
  if vm.stackVma.start ≤ newHeapTop then fail .enomem
  else update fun vm =>
    { vm with heapVma := { vm.heapVma with len := vm.heapVma.len + increment } }

def expandHeapTo (newHeapEnd : Nat) : VmCall Unit := do
  let vm ← state
  if newHeapEnd < vm.heapEnd then fail .einval
  else expandHeapBy (newHeapEnd - vm.heapEnd)

/-- `Vm::alloc_vaddr_range`. The next address is moved before it is
tested. -/
def allocVaddrRange (len : Nat) : VmCall Nat := do
  let vm ← state
  let next ← checkedAdd vm.vallocNext (alignUp len pageSize)
  update fun vm => { vm with vallocNext := next }
  if userVallocEnd ≤ next then fail .enomem else pure vm.vallocNext

def sysBrk (newHeapEnd : Option Nat) : VmCall Nat := do
  newHeapEnd.elim (pure ()) expandHeapTo
  let vm ← state
  pure vm.heapEnd

/-- The address `sys_mmap` takes: the hint if it is free, or the next
one of its own, unless the hint is fixed. -/
def mmapAddr (addrHint : Option Nat) (len : Nat) (fixed : Bool) : VmCall Nat :=
  addrHint.elim (allocVaddrRange len) fun hint => do
    let free ← isFreeVaddrRange hint len
    if free then pure hint
    else if fixed then fail .einval
    else allocVaddrRange len

/-- The type of the area `sys_mmap` makes. `file` is what the descriptor
is looked up as. -/
def mmapType (anonymous : Bool) (file : Except Errno Nat) (offset len : Nat) :
    Except Errno VmAreaType :=
  if anonymous then .ok .anonymous else file.map fun f => .file f offset len

def sysMmap (addrHint : Option Nat) (len : Nat) (anonymous fixed : Bool)
    (file : Except Errno Nat) (offset : Nat) : VmCall Nat :=
  if isAligned len pageSize = false then fail .einval
  else if isAligned offset pageSize = false then fail .einval
  else do
    let areaType ← lift (mmapType anonymous file offset len)
    let mappedUaddr ← mmapAddr addrHint len fixed
    addVmArea mappedUaddr len areaType
    pure mappedUaddr

/-! ## Runs -/

/-- The calls that change the areas. -/
inductive Op
  | mmap (addrHint : Option Nat) (len : Nat) (anonymous fixed : Bool) (file : Except Errno Nat)
      (offset : Nat)
  | brk (newHeapEnd : Option Nat)
  /-- A program header of the executable is registered. -/
  | segment (start len : Nat) (areaType : VmAreaType)

/-- What a call does. -/
def perform : Op → VmCall Unit
  | .mmap addrHint len anonymous fixed file offset => do
    let _ ← sysMmap addrHint len anonymous fixed file offset
    pure ()
  | .brk newHeapEnd => do
    let _ ← sysBrk newHeapEnd
    pure ()
  | .segment start len areaType => addVmArea start len areaType

/-- The areas of a process and its calls. -/
def machine : Machine Vm Op where
  step vm op := ((perform op).run vm).toOption.map Prod.snd

/-- **Areas apart**: every address is in one of them at most. -/
def Apart : Prop :=
  vm.vmAreas.Pairwise fun a b => a.range.Apart b.range

/-- What the heap gains if it grows to `newHeapEnd`. -/
def heapGain (newHeapEnd : Nat) : Range :=
  ⟨vm.heapEnd, vm.heapEnd + alignUp (newHeapEnd - vm.heapEnd) pageSize⟩

/-- **Room for the heap.** A `brk` that moves the end of the heap up, to
below the stack, gains no address of a mapped area. -/
def HeapRoom : Op → Prop
  | .brk (some newHeapEnd) => vm.heapEnd ≤ newHeapEnd →
    (vm.heapGain newHeapEnd).stop < vm.stackVma.start →
      ∀ area ∈ vm.others, (vm.heapGain newHeapEnd).Apart area.range
  | _ => True

/-- The areas are apart in every state of a run. -/
def ApartAlong : Vm → List Op → Prop
  | vm, [] => vm.Apart
  | vm, op :: ops => vm.Apart ∧ ∀ vm', machine.step vm op = some vm' → ApartAlong vm' ops

/-- Every call of a run is made where there is room for the heap. -/
def RoomAlong : Vm → List Op → Prop
  | _, [] => True
  | vm, op :: ops => vm.HeapRoom op ∧ ∀ vm', machine.step vm op = some vm' → RoomAlong vm' ops

end Vm

end Archives.Kerla
