import Archives.Resea.Model.Channel
/-!
# Resea — sending and receiving

`sys_ipc`, `sys_ipc_fastpath` and `kernel_ipc` of `kernel/ipc.c`. A
thread that waits leaves a frame on its kernel stack and switches away;
`resumeFrame` is what follows the switch when the thread runs again. The
kernel runs with interrupts off, so that nothing happens between two
switches.
-/

namespace Archives.Resea

def ipcSend : BitVec 32 := 0x100
def ipcRecv : BitVec 32 := 0x200
def ipcNoblock : BitVec 32 := 0x400
def msgPagePayload : BitVec 32 := 0x800
def msgChannelPayload : BitVec 32 := 0x1000

/-- Some bit of a flag is set. -/
def hasFlag (x flag : BitVec 32) : Bool := x &&& flag != 0

def inlinePayloadLen (header : BitVec 32) : ℕ := (header &&& 0x7ff).toNat

def pagePayloadAddr (page : BitVec 64) : BitVec 64 := page &&& 0xfffffffffffff000

def pageOrder (page : BitVec 64) : BitVec 64 := page &&& 0x1f

def isValidPageBaseAddr (addr : BitVec 64) : Bool := addr != 0 && decide (addr < 0xffff800000000000)

/-- `inlined_memcpy` of the inline payload. -/
def copyInline (n : ℕ) (src dst : List (BitVec 8)) : List (BitVec 8) := src.take n ++ dst.drop n

/-- Updates the message in the buffer in use. -/
def Thread.modifyIpcBuffer (t : Thread) (f : Message → Message) : Thread :=
  t.setIpcBuffer (f t.ipcBuffer)

/-- `PAGE_ORDER(page_base) < PAGE_ORDER(page) || !is_valid_page_base_addr(..)`,
negated: the receiver has room for the pages. -/
def acceptsPage (pageBase page : BitVec 64) : Bool :=
  decide (pageOrder page ≤ pageOrder pageBase) && isValidPageBaseAddr (pagePayloadAddr pageBase)

namespace Kernel

variable {PT : Type} (paging : Paging PT) (k : Kernel PT)

/-! ## Delivering a message -/

/-- The header, the sender and the inline payload. -/
def copyMessage (header : BitVec 32) (linked : ChId) (r : ThId) : Except Fault (Kernel PT) := do
  let th ← k.thread k.current
  let l ← k.channel linked
  k.updateThread r fun rt => rt.modifyIpcBuffer fun m => { m with
    header := header, sender := l.cid,
    data := copyInline (inlinePayloadLen header) th.ipcBuffer.data m.data }

/-- A send that fails after it has taken the receiver. -/
def failSend (r : ThId) (e : Err) : Kernel PT × Err :=
  (k.modifyThread r fun rt => { rt with abortReason := .needsRetry }, e)

/-- The channel payload. -/
def sendChannel (header : BitVec 32) (r : ThId) : Except Fault (Kernel PT × Err) :=
  if hasFlag header msgChannelPayload then do
    let th ← k.thread k.current
    let pr ← k.process th.process
    match ← tableGet pr.channels th.ipcBuffer.channel with
    | none => return k.failSend r .invalidPayload
    | some payload => do
      let rt ← k.thread r
      let (k, c) ← k.channelCreate rt.process
      match c with
      | none => return k.failSend r .outOfMemory
      | some c => do
        let p ← k.channel payload
        let k ← k.channelLink p.linkedWith c
        let new ← k.channel c
        return (k.modifyThread r fun rt => rt.modifyIpcBuffer fun m => { m with
          channel := new.cid }, .ok)
  else return (k, .ok)

/-- The page payload. The page fault handler, called for a page that is
not mapped, is not followed. -/
def sendPage (header : BitVec 32) (r : ThId) : Except Fault (Kernel PT × Err) :=
  if hasFlag header msgPagePayload then do
    let th ← k.thread k.current
    let pr ← k.process th.process
    let rt ← k.thread r
    let page := th.ipcBuffer.page
    let paddr := paging.resolve pr.pageTable (pagePayloadAddr page)
    let numPages := 2 ^ (pageOrder page).toNat
    let unlink (k : Kernel PT) : Kernel PT := k.modifyProcess th.process fun pr => { pr with
      pageTable := paging.unlink pr.pageTable (pagePayloadAddr page) numPages }
    if paddr = 0 then .error .pageFault
    else if rt.inKernelBuffer then
      return (unlink (k.modifyThread r fun rt => rt.modifyIpcBuffer fun m => { m with
        page := paddr }), .ok)
    else if acceptsPage rt.pageBase page then
      let base := pagePayloadAddr rt.pageBase
      let k := k.modifyProcess rt.process fun pr => { pr with
        pageTable := paging.link pr.pageTable base paddr numPages }
      return (unlink (k.modifyThread r fun rt => rt.modifyIpcBuffer fun m => { m with
        page := base ||| pageOrder page }), .ok)
    else return k.failSend r .invalidPagePayload
  else return (k, .ok)

/-- What the send phase does once it has a receiver. -/
def deliver (header : BitVec 32) (linked : ChId) (r : ThId) : Except Fault (Kernel PT × Err) := do
  let k ← k.copyMessage header linked r
  let (k, e) ← k.sendChannel header r
  if e ≠ .ok then return (k, e)
  else do
    let (k, e) ← k.sendPage paging header r
    if e ≠ .ok then return (k, e)
    else return (← k.threadResume r, .ok)

/-! ## The system call -/

/-- `sys_ipc` returns, to user mode or to `kernel_ipc`, which goes back
to the user's buffer and returns as well. -/
def ipcReturn (e : Err) : Kernel PT :=
  k.modifyThread k.current fun th =>
    match th.kstack with
    | .kernelIpc :: rest => { th with inKernelBuffer := false, kstack := rest, ret := e }
    | _ => { th with ret := e }

/-- Takes the first sender from the queue of a channel, if there is one,
and resumes it. -/
def resumeSender (c : ChId) : List ThId → Except Fault (Kernel PT)
  | [] => pure k
  | sender :: rest => do
    let k := k.modifyChannel c fun ch => { ch with queue := rest }
    let k ← k.updateThread sender fun th => { th with blockedOn := none }
    k.threadResume sender

/-- The receive phase up to its switch. -/
def receivePhase (ch : ChId) : Except Fault (Kernel PT) := do
  let c ← k.channel ch
  let rc ← k.channel c.transferTo
  if rc.destructed then return k.ipcReturn .channelClosed
  else if rc.receiver ≠ none then return k.ipcReturn .alreadyReceiving
  else do
    let k := k.modifyChannel c.transferTo fun rc => { rc with receiver := some k.current }
    let k ← k.threadBlock (.recvWait c.transferTo)
    let k ← k.resumeSender c.transferTo rc.queue
    k.threadSwitch

/-- What follows the send phase. -/
def afterSend (ch : ChId) (syscall : BitVec 32) : Except Fault (Kernel PT) :=
  if hasFlag syscall ipcRecv then k.receivePhase ch else return k.ipcReturn .ok

/-- One round of the loop of the send phase: a message is delivered if
there is a receiver, and otherwise the thread queues up. -/
def sendPhase (ch : ChId) (syscall header : BitVec 32) : Except Fault (Kernel PT) := do
  let c ← k.channel ch
  let linked ← k.channel c.linkedWith
  let dst := linked.transferTo
  let d ← k.channel dst
  if d.destructed then return k.ipcReturn .channelClosed
  else match d.receiver with
    | some r => do
      let k := k.modifyChannel dst fun d => { d with receiver := none }
      let (k, e) ← k.deliver paging header c.linkedWith r
      if e ≠ .ok then return k.ipcReturn e
      else k.afterSend ch syscall
    | none =>
      if hasFlag syscall ipcNoblock then return k.ipcReturn .wouldBlock
      else do
        let k := k.modifyChannel dst fun d => { d with queue := d.queue ++ [k.current] }
        let k := k.modifyThread k.current fun th => { th with blockedOn := some dst }
        let k ← k.threadBlock (.sendWait ch syscall header)
        k.threadSwitch

def sysIpc (cid : ℤ) (syscall : BitVec 32) : Except Fault (Kernel PT) := do
  match ← k.lookup cid with
  | none => return k.ipcReturn .invalidCid
  | some ch => do
    let c ← k.channel ch
    if c.destructed then return k.ipcReturn .channelClosed
    else if hasFlag syscall ipcSend then do
      let th ← k.thread k.current
      k.sendPhase paging ch syscall th.ipcBuffer.header
    else k.afterSend ch syscall

/-- A message is prepared in the kernel's buffer, and `kernel_ipc` makes
it the one in use. -/
def enterKernelIpc (m : Message) : Kernel PT :=
  k.modifyThread k.current fun th => { th with
    kernelBuffer := m, inKernelBuffer := true, kstack := .kernelIpc :: th.kstack }

def kernelIpc (m : Message) (cid : ℤ) (syscall : BitVec 32) : Except Fault (Kernel PT) :=
  (k.enterKernelIpc m).sysIpc paging cid syscall

/-! ## The fast path -/

def fastpathHeaderTest (header : BitVec 32) : Bool := header &&& 0x1800 == 0

/-- The test of `sys_ipc_fastpath`: the channel received from, the
channel sent from, the destination and its receiver, where the fast path
can be taken. -/
def fastpathTest (cid : ℤ) : Except Fault (Option (ChId × ChId × ChId × ThId)) := do
  match ← k.lookup cid with
  | none => return none
  | some ch => do
    let th ← k.thread k.current
    let c ← k.channel ch
    let linked ← k.channel c.linkedWith
    let rc ← k.channel c.transferTo
    let d ← k.channel linked.transferTo
    if fastpathHeaderTest th.ipcBuffer.header && !c.destructed && !rc.destructed &&
        !d.destructed && rc.receiver == none && rc.queue == [] then
      return d.receiver.map fun r => (c.transferTo, c.linkedWith, linked.transferTo, r)
    else return none

/-- What `sys_ipc_fastpath` does where its test succeeds, up to its
switch. -/
def fastpath (recv linked dst : ChId) (r : ThId) : Except Fault (Kernel PT) := do
  let th ← k.thread k.current
  let k := k.modifyChannel recv fun rc => { rc with receiver := some k.current }
  let k := k.modifyChannel dst fun d => { d with receiver := none }
  let k ← k.threadBlock (.fastWait recv)
  let k ← k.updateThread r fun rt => { rt with blocked := false }
  let k ← k.copyMessage th.ipcBuffer.header linked r
  return { k with current := r }

def sysIpcFastpath (cid : ℤ) : Except Fault (Kernel PT) := do
  match ← k.fastpathTest cid with
  | some (recv, linked, dst, r) => k.fastpath recv linked dst r
  | none => k.sysIpc paging cid (ipcSend ||| ipcRecv)

/-! ## Running again -/

/-- `m->notification = atomic_swap(&recv_ch->notification, 0)`. -/
def takeNotification (recv : ChId) : Except Fault (Kernel PT) := do
  let rc ← k.channel recv
  let k := k.modifyThread k.current fun th => th.modifyIpcBuffer fun m => { m with
    notification := rc.notification }
  return k.modifyChannel recv fun rc => { rc with notification := 0 }

/-- `return atomic_swap(&current->abort_reason, OK)`. -/
def returnAbort (reason : Err) : Kernel PT :=
  (k.modifyThread k.current fun th => { th with abortReason := .ok }).ipcReturn reason

/-- What the current thread does after `thread_switch`, in the function
its top frame says. -/
def resumeFrame : Except Fault (Kernel PT) := do
  let th ← k.thread k.current
  match th.kstack with
  | [] => .error .assertion
  | .kernelIpc :: _ => .error .assertion
  | .sendWait ch syscall header :: rest =>
    let k := k.modifyThread k.current fun th => { th with kstack := rest }
    if th.abortReason ≠ .ok then return k.returnAbort th.abortReason
    else k.sendPhase paging ch syscall header
  | .recvWait recv :: rest =>
    let k := k.modifyThread k.current fun th => { th with kstack := rest }
    if th.abortReason ≠ .ok then return k.returnAbort th.abortReason
    else return (← k.takeNotification recv).ipcReturn .ok
  | .fastWait recv :: rest =>
    let k := k.modifyThread k.current fun th => { th with kstack := rest }
    return (← k.takeNotification recv).returnAbort th.abortReason

end Kernel

end Archives.Resea
