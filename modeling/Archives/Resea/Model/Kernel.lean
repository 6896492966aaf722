import Archives.Common.Heap
/-!
# Resea — the kernel's objects

The state of the kernel on one CPU: channels, threads and processes on
their heaps, the run queue and the current thread. Pointers of the
source are addresses on these heaps, and an access through a pointer to
a freed object is a `Fault`, as is a failed `ASSERT`.

What a thread is doing in the kernel while another one runs is on its
kernel stack in the source; here it is the list of frames `kstack`, one
frame for each function suspended in `thread_switch`, outermost last.

The page tables are a parameter: `sys_ipc` reads and writes them through
three functions only, and nothing here depends on what these do.
-/

namespace Archives.Resea

/-- The address of a channel. -/
abbrev ChId := ℕ
/-- The address of a thread. -/
abbrev ThId := ℕ
/-- The address of a process. -/
abbrev PrId := ℕ

/-- Why the kernel does not go on. -/
inductive Fault
  /-- An `ASSERT` fails. -/
  | assertion
  /-- An access through a pointer to a freed object. -/
  | invalidPointer
  /-- A table is accessed outside its entries. -/
  | outOfBounds
  /-- A list of threads is walked through a field it is not linked by. -/
  | wrongField
  /-- The page fault handler is entered from within a send. -/
  | pageFault
  /-- The bound on nested releases is exceeded. -/
  | outOfFuel
deriving DecidableEq, Repr

/-- The error codes the modelled functions return. -/
inductive Err
  | ok
  | outOfMemory
  | outOfResource
  | invalidCid
  | invalidPayload
  | invalidSyscall
  | invalidPagePayload
  | channelClosed
  | alreadyReceiving
  | wouldBlock
  | needsRetry
deriving DecidableEq, Repr

/-- An entry of a table: `NULL`, `RESERVED`, or a pointer. -/
inductive Entry
  | null
  | reserved
  | channel (c : ChId)
deriving DecidableEq, Repr

/-- A table of identifiers; its length is `num_entries`. -/
abbrev Table := List Entry

/-- `table_alloc`: reserves the first unused slot from `ID_START = 1` on. -/
def tableAlloc (t : Table) : Option (ℕ × Table) :=
  ((List.range t.length).find? fun i => decide (1 ≤ i) && t[i]? == some .null).map
    fun i => (i, t.set i .reserved)

def tableFree (t : Table) (id : ℕ) : Table := t.set id .null

/-- `table_set`; the caller has just reserved the slot. -/
def tableSet (t : Table) (id : ℕ) (c : ChId) : Table := t.set id (.channel c)

/-- `table_get`. The identifier is a signed integer that is only compared
with the upper bound. A reserved slot holds no object to point to. -/
def tableGet (t : Table) (id : ℤ) : Except Fault (Option ChId) :=
  if (t.length : ℤ) ≤ id then .ok none
  else if id < 0 then .error .outOfBounds
  else match t[id.toNat]? with
    | some (.channel c) => .ok (some c)
    | some .reserved => .error .invalidPointer
    | _ => .ok none

structure Channel where
  process : PrId
  cid : ℕ
  refCount : ℤ
  destructed : Bool
  notification : BitVec 32
  linkedWith : ChId
  transferTo : ChId
  receiver : Option ThId
  queue : List ThId
deriving DecidableEq, Repr

/-- `struct message`. The payload data is the inline area and what
follows it in the page of the buffer. -/
structure Message where
  header : BitVec 32
  sender : ℤ
  notification : BitVec 32
  channel : ℤ
  page : BitVec 64
  data : List (BitVec 8)
deriving DecidableEq, Repr

/-- A function suspended in `thread_switch` on a thread's kernel stack. -/
inductive Frame
  /-- `sys_ipc` in its send phase, with its channel and system call and
  the header it has read. -/
  | sendWait (ch : ChId) (syscall header : BitVec 32)
  /-- `sys_ipc` in its receive phase, with the channel received from. -/
  | recvWait (recvCh : ChId)
  /-- `sys_ipc_fastpath`, with the channel received from. -/
  | fastWait (recvCh : ChId)
  /-- `kernel_ipc`, below one of the others. -/
  | kernelIpc
deriving DecidableEq, Repr

/-- `struct thread`. The buffer in use is the user's, or the kernel's
while a `kernel_ipc` lasts. `ret` is what the last system call returned. -/
structure Thread where
  process : PrId
  blocked : Bool
  abortReason : Err
  blockedOn : Option ChId
  inKernelBuffer : Bool
  userBuffer : Message
  kernelBuffer : Message
  pageBase : BitVec 64
  kstack : List Frame
  ret : Err
deriving DecidableEq, Repr

def Thread.ipcBuffer (t : Thread) : Message :=
  if t.inKernelBuffer then t.kernelBuffer else t.userBuffer

/-- A write through `thread->ipc_buffer`. -/
def Thread.setIpcBuffer (t : Thread) (m : Message) : Thread :=
  if t.inKernelBuffer then { t with kernelBuffer := m } else { t with userBuffer := m }

/-- `struct process`, with a page table of type `PT`. -/
structure Process (PT : Type) where
  channels : Table
  channelList : List ChId
  pageTable : PT
deriving DecidableEq, Repr

/-- The architecture's operations on page tables. -/
structure Paging (PT : Type) where
  /-- `resolve_paddr_from_vaddr`, zero where nothing is mapped. -/
  resolve : PT → BitVec 64 → BitVec 64
  /-- `link_page`, for a number of pages. -/
  link : PT → BitVec 64 → BitVec 64 → ℕ → PT
  /-- `unlink_page`. -/
  unlink : PT → BitVec 64 → ℕ → PT

/-- **The kernel**: its objects, the run queue, `CURRENT`, and the idle
thread of the CPU. -/
structure Kernel (PT : Type) where
  channels : Heap Channel
  threads : Heap Thread
  processes : Heap (Process PT)
  runqueue : List ThId
  current : ThId
  idle : ThId
deriving DecidableEq, Repr

namespace Kernel

variable {PT : Type} (k : Kernel PT)

/-- Reads the channel a pointer points to. -/
def channel (c : ChId) : Except Fault Channel :=
  match k.channels.get c with
  | some ch => .ok ch
  | none => .error .invalidPointer

/-- Reads the thread a pointer points to. -/
def thread (t : ThId) : Except Fault Thread :=
  match k.threads.get t with
  | some th => .ok th
  | none => .error .invalidPointer

/-- Reads the process a pointer points to. -/
def process (p : PrId) : Except Fault (Process PT) :=
  match k.processes.get p with
  | some pr => .ok pr
  | none => .error .invalidPointer

/-- Updates a channel that is known to be there. -/
def modifyChannel (c : ChId) (f : Channel → Channel) : Kernel PT :=
  { k with channels := k.channels.modify c f }

/-- Updates a thread that is known to be there. -/
def modifyThread (t : ThId) (f : Thread → Thread) : Kernel PT :=
  { k with threads := k.threads.modify t f }

/-- Updates a process that is known to be there. -/
def modifyProcess (p : PrId) (f : Process PT → Process PT) : Kernel PT :=
  { k with processes := k.processes.modify p f }

/-- Writes to the channel a pointer points to. -/
def updateChannel (c : ChId) (f : Channel → Channel) : Except Fault (Kernel PT) := do
  let _ ← k.channel c
  return k.modifyChannel c f

/-- Writes to the thread a pointer points to. -/
def updateThread (t : ThId) (f : Thread → Thread) : Except Fault (Kernel PT) := do
  let _ ← k.thread t
  return k.modifyThread t f

/-- `thread_resume`: marks a thread runnable. -/
def threadResume (t : ThId) : Except Fault (Kernel PT) := do
  let th ← k.thread t
  if th.blocked then
    return { k.modifyThread t (fun th => { th with blocked := false }) with
      runqueue := k.runqueue ++ [t] }
  else
    return k

/-- `thread_block` of the current thread, with the frame it goes on at
once it runs again. -/
def threadBlock (f : Frame) : Except Fault (Kernel PT) :=
  k.updateThread k.current fun th => { th with blocked := true, kstack := f :: th.kstack }

/-- `thread_switch`: `scheduler` puts the current thread back unless it
is blocked and takes the head of the run queue, or the idle thread. -/
def threadSwitch : Except Fault (Kernel PT) := do
  let th ← k.thread k.current
  let queue := if th.blocked then k.runqueue else k.runqueue ++ [k.current]
  match queue with
  | [] => return { k with current := k.idle }
  | next :: rest => return { k with runqueue := rest, current := next }

end Kernel

end Archives.Resea
