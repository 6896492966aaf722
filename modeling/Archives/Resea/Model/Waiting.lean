import Archives.Resea.Model.System
/-!
# Resea — threads that can be found

What it takes for a blocked thread to be resumed again: the channel it
waits at knows it. And the condition under which a send leaves it so: a
send that has found a receiver has a payload that can be delivered to
that receiver.
-/

namespace Archives.Resea

/-- The thread waits to receive from the channel. -/
def Thread.Receives (th : Thread) (c : ChId) : Prop :=
  th.kstack.head? = some (.recvWait c) ∨ th.kstack.head? = some (.fastWait c)

/-- The thread waits to send. -/
def Thread.Sends (th : Thread) : Prop :=
  ∃ ch syscall header, th.kstack.head? = some (.sendWait ch syscall header)

/-- What a suspended send is sending: its channel and its header. -/
def Frame.sending : Frame → Option (ChId × BitVec 32)
  | .sendWait c _ header => some (c, header)
  | _ => none

namespace Kernel

variable {PT : Type} (paging : Paging PT) (k : Kernel PT)

/-- **The thread can be found**: if it is blocked in `sys_ipc` it is the
receiver of the channel it waits at, or in its queue of senders. -/
def Findable (t : ThId) : Prop :=
  ∀ th, k.threads.get t = some th → th.blocked = true →
    (∀ c, th.Receives c → ∃ ch, k.channels.get c = some ch ∧ ch.receiver = some t) ∧
    (th.Sends → ∃ c ch, th.blockedOn = some c ∧ k.channels.get c = some ch ∧ t ∈ ch.queue)

/-- The channel a message sent from a channel goes to, if it can be sent. -/
def destination (c : ChId) : Option (ChId × Channel) := do
  let ch ← k.channels.get c
  let linked ← k.channels.get ch.linkedWith
  let d ← k.channels.get linked.transferTo
  if d.destructed then none else some (linked.transferTo, d)

/-- The system call is an `ipc` call that sends. -/
def isSend (syscall : BitVec 64) : Bool :=
  syscall &&& 0xff == 0 && hasFlag (syscall.setWidth 32) ipcSend

/-- The channel payload of the current thread's message names a channel,
and the receiver's process has room for another one. -/
def channelPayloadOk (th rt : Thread) : Bool :=
  ((k.processes.get th.process).any fun pr =>
    (tableGet pr.channels th.ipcBuffer.channel).toOption.join.isSome) &&
  (k.processes.get rt.process).any fun pr => (tableAlloc pr.channels).isSome

/-- The page payload of the current thread's message is mapped, and the
receiver is in the kernel or has set a page base with room for it. -/
def pagePayloadOk (th rt : Thread) : Bool :=
  ((k.processes.get th.process).any fun pr =>
    paging.resolve pr.pageTable (pagePayloadAddr th.ipcBuffer.page) != 0) &&
  (rt.inKernelBuffer || acceptsPage rt.pageBase th.ipcBuffer.page)

/-- The payloads a header announces can be delivered to a receiver. -/
def payloadOk (header : BitVec 32) (th rt : Thread) : Bool :=
  (!hasFlag header msgChannelPayload || k.channelPayloadOk th rt) &&
  (!hasFlag header msgPagePayload || k.pagePayloadOk paging th rt)

/-- If a message sent from a channel finds a receiver, its payloads can
be delivered. -/
def SendOk (c : ChId) (header : BitVec 32) : Prop :=
  ∀ d ∈ k.destination c, ∀ r ∈ d.2.receiver, ∀ th ∈ k.threads.get k.current,
    ∀ rt ∈ k.threads.get r, k.payloadOk paging header th rt = true
deriving Decidable

/-- The same for the message in the buffer of the current thread, sent
from the channel it names. -/
def IpcOk (cid : ℤ) : Prop :=
  ∀ found ∈ (k.lookup cid).toOption, ∀ c ∈ found, ∀ ch ∈ k.channels.get c,
    ch.destructed = false → ∀ th ∈ k.threads.get k.current,
      k.SendOk paging c th.ipcBuffer.header
deriving Decidable

/-- The same for a suspended send that goes on. -/
def ResumeOk : Prop :=
  ∀ th ∈ k.threads.get k.current, th.abortReason = .ok → ∀ f ∈ th.kstack.head?,
    ∀ send ∈ f.sending, k.SendOk paging send.1 send.2
deriving Decidable

/-- **Every message that finds its receiver can be delivered.** -/
def DeliversAll : Action PT → Prop
  | .syscall arg0 _ syscall => isSend syscall = true → k.IpcOk paging (toCid arg0)
  | .kernelIpc m cid syscall => hasFlag syscall ipcSend = true →
      (k.enterKernelIpc m).IpcOk paging cid
  | .resume => k.ResumeOk paging
  | .preempt | .write _ _ _ | .serve _ => True

instance : (a : Action PT) → Decidable (k.DeliversAll paging a)
  | .syscall _ _ _ => inferInstanceAs (Decidable (_ → IpcOk _ _ _))
  | .kernelIpc _ _ _ => inferInstanceAs (Decidable (_ → IpcOk _ _ _))
  | .resume => inferInstanceAs (Decidable (k.ResumeOk paging))
  | .preempt | .write _ _ _ | .serve _ => isTrue trivial

/-- The thread an action destroys. -/
def destroyed : Action PT → Option ThId
  | .serve (.destroyThread t) => some t
  | _ => none

end Kernel

end Archives.Resea
