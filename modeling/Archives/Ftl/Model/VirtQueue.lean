import Archives.Common.Machine
import Archives.Ftl.Model.Kernel
/-!
# FTL — the virtqueue

`libs/rust/virtio/src/{virtqueue,free_list}.rs`: descriptors in a table,
chained by their numbers, and two rings through which driver and device
hand the heads of chains to each other. The table and the rings are in
memory that both see; the device reads the available ring and writes the
used ring. The counts of the rings are 16 bits wide and wrap around.

The allocation of the rings and the notification of the device are left
out. Words of the shared memory are numbers, whatever their byte order.
-/

namespace Archives.Ftl.Virtio

open Function

/-- `VIRTQ_SIZE`, and `num_total_descs`. -/
def virtqSize : Nat := 64

/-- A count of a ring, one on. -/
def wrappingSucc (index : Nat) : Nat := (index + 1) % 65536

def virtqDescFNext : BitVec 16 := 1

def virtqDescFWrite : BitVec 16 := 2

structure VirtqDesc where
  addr : Nat
  len : Nat
  flags : BitVec 16
  next : Nat
  deriving DecidableEq

namespace VirtqDesc

def isWritable (desc : VirtqDesc) : Bool := desc.flags &&& virtqDescFWrite ≠ 0

def hasNext (desc : VirtqDesc) : Bool := desc.flags &&& virtqDescFNext ≠ 0

end VirtqDesc

inductive DescBuffer
  | readOnlyFromDevice (baddr len : Nat)
  | writableFromDevice (baddr len : Nat)
  deriving DecidableEq

/-- `virtqueue::Error`, those of the modelled calls. -/
inductive Error
  | outOfDescriptors
  deriving DecidableEq

structure VirtqUsedElem where
  id : Nat
  len : Nat
  deriving DecidableEq

structure UsedChain where
  descs : List DescBuffer
  totalLen : Nat
  deriving DecidableEq

/-! ## The free list -/

structure FreeList where
  items : List Nat

namespace FreeList

def push (list : FreeList) (item : Nat) : FreeList := ⟨list.items ++ [item]⟩

/-- `FreeList::pop`: the last items, if there are so many. -/
def pop (list : FreeList) (n : Nat) : FreeList × Option (List Nat) :=
  if list.items.length < n then (list, none)
  else (⟨list.items.take (list.items.length - n)⟩,
    some (list.items.drop (list.items.length - n)))

end FreeList

/-! ## The queue -/

/-- `VirtQueue`, with the memory it shares. -/
structure VirtQueue where
  descTable : Nat → VirtqDesc
  availIndex : Nat
  availRing : Nat → Nat
  usedIndex : Nat
  usedRing : Nat → VirtqUsedElem
  lastUsedIndex : Nat
  freeList : FreeList

namespace VirtQueue

/-- `VirtQueue::new`: zeroed memory, and all descriptors free. -/
def new : VirtQueue where
  descTable := fun _ => ⟨0, 0, 0, 0⟩
  availIndex := 0
  availRing := fun _ => 0
  usedIndex := 0
  usedRing := fun _ => ⟨0, 0⟩
  lastUsedIndex := 0
  freeList := ⟨List.range virtqSize⟩

/-- The descriptor of a buffer, with the number of the next, if any. -/
def describe (buffer : DescBuffer) (next : Option Nat) : VirtqDesc :=
  let nextFlag : BitVec 16 := if next.isSome then virtqDescFNext else 0
  match buffer with
  | .readOnlyFromDevice baddr len => ⟨baddr, len, 0 ||| nextFlag, next.getD 0⟩
  | .writableFromDevice baddr len => ⟨baddr, len, virtqDescFWrite ||| nextFlag, next.getD 0⟩

/-- The loop of `push_avail`. The last buffer has no next. -/
def writeChain : List Nat → List DescBuffer → (Nat → VirtqDesc) → Except Stop (Nat → VirtqDesc)
  | index :: indices, buffer :: buffers, table =>
    -- descs[desc_indices[i]]
    if virtqSize ≤ index then .error .panic
    else writeChain indices buffers
      (update table index
        (describe buffer (if buffers = [] then none else indices.head?)))
  | _, [], table => .ok table
  -- desc_indices[i]
  | [], _ :: _, _ => .error .panic

def pushAvail (queue : VirtQueue) (chain : List DescBuffer) :
    Except Stop (VirtQueue × Except Error Unit) :=
  -- the assertion
  if chain = [] then .error .panic
  else
    match queue.freeList.pop chain.length with
    | (freeList, none) => .ok ({ queue with freeList := freeList }, .error .outOfDescriptors)
    | (freeList, some indices) =>
      (writeChain indices chain queue.descTable).map fun table =>
        ({ queue with
          descTable := table
          availIndex := wrappingSucc queue.availIndex
          availRing := update queue.availRing (queue.availIndex % virtqSize)
            (indices.headD 0)
          freeList := freeList }, .ok ())

def bufferOf (desc : VirtqDesc) : DescBuffer :=
  if desc.isWritable then .writableFromDevice desc.addr desc.len
  else .readOnlyFromDevice desc.addr desc.len

/-- The loop of `pop_used`, the buffers and the free list so far. A chain
that is longer than the table does not end. -/
def readChain (table : Nat → VirtqDesc) : Nat → Nat → List DescBuffer → FreeList →
    Except Stop (List DescBuffer × FreeList)
  | 0, _, _, _ => .error .hang
  | fuel + 1, index, chain, freeList =>
    -- descs[index]
    if virtqSize ≤ index then .error .panic
    else if (table index).hasNext then
      readChain table fuel (table index).next (chain ++ [bufferOf (table index)])
        (freeList.push index)
    else .ok (chain ++ [bufferOf (table index)], freeList.push index)

def popUsed (queue : VirtQueue) : Except Stop (VirtQueue × Option UsedChain) :=
  if queue.lastUsedIndex = queue.usedIndex then .ok (queue, none)
  else
    let head := queue.usedRing (queue.lastUsedIndex % virtqSize)
    (readChain queue.descTable virtqSize head.id [] queue.freeList).map fun (chain, freeList) =>
      ({ queue with
        lastUsedIndex := wrappingSucc queue.lastUsedIndex
        freeList := freeList }, some ⟨chain, head.len⟩)

end VirtQueue

/-! ## The queue and its device -/

/-- A chain that was pushed and not yet popped: its descriptors and its
buffers. -/
structure InFlight where
  indices : List Nat
  chain : List DescBuffer
  deriving DecidableEq

/-- The head of a chain, under which the device knows it. -/
def InFlight.head (c : InFlight) : Nat := c.indices.headD 0

/-- A queue and its device: how far the device has read the available
ring, and the heads it has read and not yet returned. -/
structure System where
  queue : VirtQueue
  lastAvail : Nat
  held : List Nat
  /-- What the device has returned and the driver not yet popped. -/
  returned : List VirtqUsedElem
  /-- The chains that were pushed and not yet popped. -/
  inFlight : List InFlight

namespace System

def boot : System := ⟨.new, 0, [], [], []⟩

/-- What happens: the calls of the driver; the device reads a head, and
returns one that it holds. -/
inductive Op
  | push (chain : List DescBuffer)
  | pop
  | read
  | complete (head len : Nat)

variable (sys : System)

/-- A chain that was pushed: its descriptors are those that left the
free list. -/
def pushed (chain : List DescBuffer) (result : Except Error Unit) : List InFlight :=
  match result with
  | .ok () =>
    ⟨sys.queue.freeList.items.drop (sys.queue.freeList.items.length - chain.length), chain⟩
      :: sys.inFlight
  | .error _ => sys.inFlight

/-- The chains without the one under a head. -/
def without (head : Nat) : List InFlight :=
  sys.inFlight.eraseP fun c => c.head = head

/-- What an operation does; nothing follows a panic. -/
def step : Op → Option System
  | .push chain => (sys.queue.pushAvail chain).toOption.map fun (queue, result) =>
    { sys with queue := queue, inFlight := sys.pushed chain result }
  | .pop => sys.queue.popUsed.toOption.map fun (queue, result) =>
    { sys with
      queue := queue
      returned := if result.isSome then sys.returned.tail else sys.returned
      inFlight := if result.isSome then sys.without (sys.returned.headD ⟨0, 0⟩).id
        else sys.inFlight }
  | .read =>
    if sys.lastAvail = sys.queue.availIndex then none
    else some { sys with
      lastAvail := wrappingSucc sys.lastAvail
      held := sys.held ++ [sys.queue.availRing (sys.lastAvail % virtqSize)] }
  | .complete head len =>
    if head ∈ sys.held then
      some { sys with
        queue := { sys.queue with
          usedIndex := wrappingSucc sys.queue.usedIndex
          usedRing := update sys.queue.usedRing (sys.queue.usedIndex % virtqSize)
            ⟨head, len⟩ }
        held := sys.held.erase head
        returned := sys.returned ++ [⟨head, len⟩] }
    else none

/-- The queue and its device, in any order. -/
def machine : Machine System Op := ⟨step⟩

/-! ## What the queue should do -/

/-- **The descriptors are parted** between the free list and the chains:
each is in one of them, once. -/
def Partition : Prop :=
  (sys.queue.freeList.items ++ sys.inFlight.flatMap InFlight.indices).Perm (List.range virtqSize)

/-- **A chain comes back as it was pushed.** The call ends. It returns
nothing if the device has returned nothing, and else the chain in flight
under the first head that was returned, with the length the device
wrote; the descriptors of the chain are free again. -/
def PopsPushed : Prop :=
  ∃ queue result, sys.queue.popUsed = .ok (queue, result) ∧
    (sys.returned = [] → result = none ∧ queue = sys.queue) ∧
    ∀ elem rest, sys.returned = elem :: rest → ∃ c ∈ sys.inFlight, c.head = elem.id ∧
      result = some ⟨c.chain, elem.len⟩ ∧
      queue.freeList.items = sys.queue.freeList.items ++ c.indices

/-- **A push takes descriptors or changes nothing.** It ends for every
chain that is not empty, fails exactly if there are too few free
descriptors, and then the queue is the same. -/
def PushesOrFails : Prop :=
  ∀ chain, chain ≠ [] → ∃ queue result, sys.queue.pushAvail chain = .ok (queue, result) ∧
    (result = .error .outOfDescriptors ↔ sys.queue.freeList.items.length < chain.length) ∧
    (∀ err, result = .error err → queue = sys.queue)

end System

end Archives.Ftl.Virtio
