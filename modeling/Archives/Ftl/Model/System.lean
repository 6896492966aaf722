import Archives.Common.Machine
import Archives.Ftl.Model.Channel
/-!
# FTL — the kernel as a machine

Every entry into the kernel is a system call of the running thread or an
interrupt; each ends in `return_to_user`, which runs the scheduler. The
two halves are two steps of the machine, so that a condition can speak
about the state the scheduler finds.
-/

namespace Archives.Ftl.Kernel

open HandleRight HandleId Object

/-! ## System calls -/

/-- `HandleTable::insert` of a handle for a new object, and its id as
the result. -/
def sysInsert (h : AnyHandle) : Sys Nat := do
  let k ← .state
  let id ← installHandle k.process h
  pure id.toNat

def sysPollCreate : Sys Nat := do
  let k ← .state
  let p := k.next
  .update fun k => { k.setPoll p Poll.new with next := p + 1 }
  sysInsert { object := .poll p, rights := read ||| write }

def sysPollAdd (a0 a1 a2 : Nat) : Sys Nat := do
  let pollId ← .lift (fromUsize a0)
  let listeneeId ← .lift (fromUsize a1)
  let interests : Readiness := BitVec.ofNat 8 a2
  let k ← .state
  let poll ← .lift (k.table.get asPoll write pollId)
  let handle ← .lift (k.table.getAny listeneeId)
  pollAdd poll listeneeId handle interests
  pure 0

def sysPollUpdate (a0 a1 a2 a3 : Nat) : Sys Nat := do
  let pollId ← .lift (fromUsize a0)
  let listeneeId ← .lift (fromUsize a1)
  let orMask : Readiness := BitVec.ofNat 8 a2
  let andMask : Readiness := BitVec.ofNat 8 a3
  let k ← .state
  let poll ← .lift (k.table.get asPoll write pollId)
  pollUpdate poll listeneeId orMask andMask
  pure 0

/-- `sys_poll_wait`; `none` is a block. -/
def sysPollWait (a0 : Nat) : Sys (Option Nat) := do
  let pollId ← .lift (fromUsize a0)
  let k ← .state
  let poll ← .lift (k.table.get asPoll read pollId)
  .update fun k => (k.pollWait poll).2
  pure ((k.pollWait poll).1.map PollEvent.asRaw)

def sysPollRemove (a0 a1 : Nat) : Sys Nat := do
  let pollId ← .lift (fromUsize a0)
  let listeneeId ← .lift (fromUsize a1)
  let k ← .state
  let poll ← .lift (k.table.get asPoll write pollId)
  pollRemove poll listeneeId
  pure 0

variable (k : Kernel)

/-- `Handleable::close`: only threads and channels do something. -/
def closeObject : Object → Kernel
  | .thread t => k.threadClose t
  | .channel c => k.channelClose c
  | _ => k

/-- `sys_handle_close`, with `HandleTable::close`. -/
def sysHandleClose (a0 : Nat) : Sys Nat := do
  let id : HandleId := (BitVec.ofNat 32 a0).toInt
  let k ← .state
  let (h, table) ← .lift (k.table.take id)
  .update (·.setTable k.process table)
  .update (·.closeObject h.object)
  pure 0

def closeAll (p : Addr) : Kernel :=
  let k := (k.processes p).handles.values.foldl (fun k h => k.closeObject h.object) k
  k.setTable p { k.processes p with handles := ∅ }

def sysProcessExit : Sys Nat := do
  .update fun k => k.closeAll k.process
  .update fun k => k.threadExit k.current
  pure 0

def threadNew (process : Addr) : Kernel :=
  let thread : Thread := { process := process, state := .runnable }
  let k := { k with threads := Function.update k.threads k.next thread }
  { k.setEmitter k.next (Emitter.new 0) with next := k.next + 1 }

def sysThreadSpawn (a0 : Nat) : Sys Nat := do
  let processId ← .lift (fromUsize a0)
  let k ← .state
  let process ← .lift (k.table.get asProcess write processId)
  let t := k.next
  .update (·.threadNew process)
  let id ← sysInsert { object := .thread t, rights := all }
  .update (·.unblock t)
  pure id

def sysThreadExit : Sys Nat := do
  .update fun k => k.threadExit k.current
  pure 0

/-- The calls that create a timer, an interrupt or a memory area: a new
object at the next address, with an emitter of its own where it has one,
and a handle for it. `refused` is an error of the parts of these calls
that are not modelled (interrupt controller, page allocator). -/
def sysCreate (refused : Option ErrorCode) (kind : Addr → Object) (rights : HandleRight) :
    Sys Nat := do
  match refused with
  | some e => .fail e
  | none =>
    let k ← .state
    let a := k.next
    .update fun k => { k.setEmitter a (Emitter.new 0) with next := a + 1 }
    sysInsert { object := kind a, rights := rights }

/-- The calls that clear the readiness of an object: `sys_timer_set` for
a timer, `sys_interrupt_acknowledge` for an interrupt. -/
def sysRearm (cast : Object → Option Addr) (a0 : Nat) : Sys Nat := do
  let id ← .lift (fromUsize a0)
  let k ← .state
  let a ← .lift (k.table.get cast write id)
  .update (·.emitterClear a Readiness.readable)
  pure 0

/-- The system calls that touch handles, channels, polls or threads,
with their arguments. -/
inductive Syscall
  | handleClose (a0 : Nat)
  | processExit
  | threadSpawn (a0 : Nat)
  | threadExit
  | channelCreate
  | channelSend (a0 a1 a2 a3 : Nat)
  | channelRecv (a0 a1 a2 : Nat)
  | pollCreate
  | pollAdd (a0 a1 a2 : Nat)
  | pollUpdate (a0 a1 a2 a3 : Nat)
  | pollWait (a0 : Nat)
  | pollRemove (a0 a1 : Nat)
  | timerCreate
  | timerSet (a0 : Nat)
  | interruptAcquire (refused : Option ErrorCode)
  | interruptAcknowledge (a0 : Nat)
  | vmareaAlloc (refused : Option ErrorCode)

/-- `do_handle_syscall`. What a call returns goes to the thread's
registers, which are not modelled. -/
def handleSyscall (env : Env) : Syscall → Sys Unit
  | .handleClose a0 => do let _ ← sysHandleClose a0
  | .processExit => do let _ ← sysProcessExit
  | .threadSpawn a0 => do let _ ← sysThreadSpawn a0
  | .threadExit => do let _ ← sysThreadExit
  | .channelCreate => do let _ ← sysChannelCreate
  | .channelSend a0 a1 a2 a3 => do let _ ← sysChannelSend env a0 a1 a2 a3
  | .channelRecv a0 a1 a2 => do let _ ← sysChannelRecv env a0 a1 a2
  | .pollCreate => do let _ ← sysPollCreate
  | .pollAdd a0 a1 a2 => do let _ ← sysPollAdd a0 a1 a2
  | .pollUpdate a0 a1 a2 a3 => do let _ ← sysPollUpdate a0 a1 a2 a3
  | .pollWait a0 => do let _ ← sysPollWait a0
  | .pollRemove a0 a1 => do let _ ← sysPollRemove a0 a1
  | .timerCreate => do let _ ← sysCreate none .timer (read ||| write)
  | .timerSet a0 => do let _ ← sysRearm asTimer a0
  | .interruptAcquire refused => do let _ ← sysCreate refused .interrupt all
  | .interruptAcknowledge a0 => do let _ ← sysRearm asInterrupt a0
  | .vmareaAlloc refused => do let _ ← sysCreate refused .vmArea write

/-! ## The machine -/

/-- Where the CPU is. -/
inductive Mode
  /-- In the current thread. -/
  | user
  /-- In `arch::idle`, waiting for an interrupt. -/
  | idle
  /-- In the kernel, about to call `return_to_user`. -/
  | trapped
  deriving DecidableEq, Repr

/-- The whole machine. -/
structure System where
  kernel : Kernel
  mode : Mode

/-- What may happen next. -/
inductive Action
  /-- The running thread makes a system call. -/
  | syscall (env : Env) (call : Syscall)
  /-- A trap other than a system call: an interrupt or the timer makes
  these objects readable, in this order. A page fault makes none. -/
  | trap (ready : List Addr)
  /-- `return_to_user`. -/
  | schedule

/-- Makes the emitters of the given objects readable. -/
def fire (ready : List Addr) : Kernel :=
  ready.foldl (fun k e => k.emitterSet e Readiness.readable) k

def system : Machine System Action where
  step
    | ⟨k, .user⟩, .syscall env call =>
      match (handleSyscall env call).run k with
      | .ok (_, k) => some ⟨k, .trapped⟩
      | .error _ => none
    | ⟨k, .user⟩, .trap ready | ⟨k, .idle⟩, .trap ready => some ⟨k.fire ready, .trapped⟩
    | ⟨k, .trapped⟩, .schedule =>
      match k.schedule with
      | .ok (.running k) => some ⟨k, .user⟩
      | .ok (.idling k) => some ⟨k, .idle⟩
      | .error _ => none
    | _, _ => none

/-! ## Blocked threads and where to find them -/

/-- **No blocked thread is lost**: a thread blocked on a poll is among
the waiters of that poll or in the run queue. -/
def AllFindable : Prop :=
  ∀ t p, (k.threads t).state = .blocked p → t ∈ (k.polls p).waiters ∨ t ∈ k.runqueue

/-- A poll has an event to report: an id in its ready queue is still
registered. -/
def hasEvent (poll : Poll) : Bool := poll.readyQueue.any fun id => poll.objects.contains id

/-- The first thread of the queue that was not destroyed can go on: if
it is blocked, the poll it waits for has an event. -/
def nextCanRun (k : Kernel) : List Addr → Bool
  | [] => true
  | t :: rest =>
    match (k.threads t).state with
    | .destroyed => nextCanRun k rest
    | .blocked p => hasEvent (k.polls p)
    | _ => true

/-- **No failed re-poll.** When the scheduler has to pick a thread, the
first one it looks at can go on. -/
def RePolls : System → Action → Prop
  | ⟨k, _⟩, .schedule =>
    (k.threads k.current).state = .runnable ∨ k.nextCanRun k.runqueue = true
  | _, _ => True

instance (s : System) (a : Action) : Decidable (RePolls s a) := by
  cases a <;> unfold RePolls <;> infer_instance

/-- Every handle, in a table or in a message, points to an object that
was allocated. -/
structure Live (k : Kernel) : Prop where
  tables : ∀ (p : Addr) (id : HandleId) (h : AnyHandle),
    (k.processes p).handles[id]? = some h → h.object.addr < k.next
  messages : ∀ (c : Addr), ∀ entry ∈ (k.channels c).queue, ∀ h ∈ entry.handles,
    h.object.addr < k.next

/-- A start of the system: no thread waits for a poll yet, and no handle
dangles. -/
structure Boot (s : System) : Prop where
  live : Live s.kernel
  unblocked : ∀ t p, (s.kernel.threads t).state ≠ .blocked p

end Archives.Ftl.Kernel
