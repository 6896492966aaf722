import Archives.Common.Machine
import Archives.Resea.Model.Ipc
/-!
# Resea — the system

The kernel with everything that can happen to it between two points
where the current thread is in user mode: a system call, a call of
`kernel_ipc` by the page fault handler or the kernel server, the rest of
a suspended call, the timer, a write to a message buffer, and what the
kernel server and the interrupt handlers do to channels, threads and
processes.
-/

namespace Archives.Resea

/-- What the kernel server and the interrupt handlers do. `process_destroy`
is a sequence of these. -/
inductive ServerOp (PT : Type)
  | createProcess (tableSize : ℕ) (pageTable : PT)
  | destroyProcess (p : PrId)
  | createThread (p : PrId) (user kernel : Message) (pageBase : BitVec 64)
  | destroyThread (t : ThId)
  | createChannel (p : PrId)
  | linkChannels (ch1 ch2 : ChId)
  | transferChannel (src dst : ChId)
  | increfChannel (c : ChId)
  | decrefChannel (c : ChId)
  | destroyChannel (c : ChId)
  | notifyChannel (c : ChId) (notification : BitVec 32)
deriving DecidableEq, Repr

/-- What can happen. -/
inductive Action (PT : Type)
  /-- A system call of the current thread. -/
  | syscall (arg0 arg1 syscall : BitVec 64)
  /-- A call of `kernel_ipc` on the current thread. -/
  | kernelIpc (m : Message) (cid : ℤ) (syscall : BitVec 32)
  /-- The current thread goes on after a switch. -/
  | resume
  /-- The timer: `thread_switch_by_timeout`. -/
  | preempt
  /-- The current thread writes to the buffer of a thread of its process. -/
  | write (t : ThId) (m : Message) (pageBase : BitVec 64)
  /-- The kernel server or an interrupt handler. -/
  | serve (op : ServerOp PT)
deriving DecidableEq, Repr

namespace Kernel

variable {PT : Type} (paging : Paging PT) (fastpathOn : Bool) (k : Kernel PT)

/-- The thread `thread_create` makes. -/
def freshThread (p : PrId) (user kernel : Message) (pageBase : BitVec 64) : Thread where
  process := p
  blocked := true
  abortReason := .ok
  blockedOn := none
  inKernelBuffer := false
  userBuffer := user
  kernelBuffer := kernel
  pageBase := pageBase
  kstack := []
  ret := .ok

/-- Takes a thread from the sender queue it is in. -/
def leaveQueue (t : ThId) : Option ChId → Except Fault (Kernel PT)
  | none => pure k
  | some c => k.updateChannel c fun ch => { ch with queue := ch.queue.erase t }

/-- `thread_destroy`, from the list of threads of a process; the idle
thread is in no such list. -/
def threadDestroy (t : ThId) : Except Fault (Kernel PT) := do
  let th ← k.thread t
  if t = k.current ∨ t = k.idle then .error .assertion
  else do
    let k ← k.leaveQueue t th.blockedOn
    return { k with
      runqueue := if th.blocked then k.runqueue else k.runqueue.erase t
      threads := k.threads.free t }

/-- What the kernel server and the interrupt handlers do. -/
def serve : ServerOp PT → Except Fault (Kernel PT)
  | .createProcess n pt => return { k with
      processes := k.processes.alloc
        { channels := List.replicate n .null, channelList := [], pageTable := pt } }
  | .destroyProcess p => return { k with processes := k.processes.free p }
  | .createThread p user kernel pageBase => do
    let _ ← k.process p
    let t := k.threads.size
    { k with threads := k.threads.alloc (freshThread p user kernel pageBase) }.threadResume t
  | .destroyThread t => k.threadDestroy t
  | .createChannel p => return (← k.channelCreate p).1
  | .linkChannels ch1 ch2 => k.channelLink ch1 ch2
  | .transferChannel src dst => k.channelTransfer src dst
  | .increfChannel c => k.channelIncref c
  | .decrefChannel c => k.channelDecref c
  | .destroyChannel c => k.channelDestroy c
  | .notifyChannel c notification => k.channelNotify c notification

def fastpathSyscallTest (syscall : BitVec 64) : Bool :=
  syscall &&& ~~~0x400#64 == 0x300#64

/-- An argument of a system call as a `cid_t`. -/
def toCid (arg : BitVec 64) : ℤ := (arg.setWidth 32).toInt

/-- `syscall_handler`, with the fast path if it is configured. -/
def syscallHandler (arg0 arg1 syscall : BitVec 64) : Except Fault (Kernel PT) :=
  if fastpathOn && fastpathSyscallTest syscall then k.sysIpcFastpath paging (toCid arg0)
  else match (syscall &&& 0xff).toNat with
    | 0 => k.sysIpc paging (toCid arg0) (syscall.setWidth 32)
    | 1 => k.sysOpen
    | 2 => k.sysClose (toCid arg0)
    | 3 => k.sysLink (toCid arg0) (toCid arg1)
    | 4 => k.sysTransfer (toCid arg0) (toCid arg1)
    | 5 => k.sysNotify (toCid arg0) (arg1.setWidth 32)
    | 6 => return k.sysret .ok
    | _ => return k.sysret .invalidSyscall

/-- The current thread is in user mode, or it is the idle thread. -/
def InUserMode : Prop := ∃ th ∈ k.threads.get k.current, th.kstack = []
deriving Decidable

/-- A write to a message buffer and the page base next to it. -/
def writeBuffer (t : ThId) (m : Message) (pageBase : BitVec 64) : Kernel PT :=
  k.modifyThread t fun th => { th with userBuffer := m, pageBase := pageBase }

/-- When an action can happen. -/
def Enabled : Action PT → Prop
  | .syscall _ _ _ | .kernelIpc _ _ _ => k.InUserMode ∧ k.current ≠ k.idle
  | .resume => ¬ k.InUserMode
  | .preempt | .serve _ => k.InUserMode
  | .write t _ _ => k.InUserMode ∧ k.current ≠ k.idle ∧
      ∃ th ∈ k.threads.get k.current, ∃ th' ∈ k.threads.get t, th'.process = th.process

instance (a : Action PT) : Decidable (k.Enabled a) := by
  cases a <;> unfold Enabled <;> infer_instance

/-- What an action does. -/
def act : Action PT → Except Fault (Kernel PT)
  | .syscall arg0 arg1 syscall => k.syscallHandler paging fastpathOn arg0 arg1 syscall
  | .kernelIpc m cid syscall => k.kernelIpc paging m cid syscall
  | .resume => k.resumeFrame paging
  | .preempt => k.threadSwitch
  | .write t m pageBase => return k.writeBuffer t m pageBase
  | .serve op => k.serve op

end Kernel

/-- **The system.** An action that faults has no successor. -/
def system {PT : Type} (paging : Paging PT) (fastpathOn : Bool) :
    Machine (Kernel PT) (Action PT) where
  step k a := if k.Enabled a then (k.act paging fastpathOn a).toOption else none

end Archives.Resea
