import Archives.Resea.Model.Kernel
import Mathlib.Algebra.BigOperators.Group.Finset.Basic
/-!
# Resea — channels

`kernel/channel.c`, and the system calls of `kernel/ipc.c` that only
deal with channels. `channel_decref` releases a channel whose count
drops to zero, which unlinks it and stops its transfer, which in turn
drops references: the recursion is through `decref`, the argument that
`channelLinkWith` and `channelTransferWith` take. Every nested call
gives back one reference, so the references held are a bound on the
nesting.
-/

namespace Archives.Resea.Kernel

variable {PT : Type} (k : Kernel PT)

/-- The channel `channel_create` makes at an address. -/
def freshChannel (p : PrId) (cid : ℕ) (c : ChId) : Channel where
  process := p
  cid := cid
  refCount := 1
  destructed := false
  notification := 0
  linkedWith := c
  transferTo := c
  receiver := none
  queue := []

/-- `channel_create`; `none` when the table of the process is full. -/
def channelCreate (p : PrId) : Except Fault (Kernel PT × Option ChId) := do
  let pr ← k.process p
  match tableAlloc pr.channels with
  | none => return (k, none)
  | some (cid, table) =>
    let c := k.channels.size
    let k := { k with channels := k.channels.alloc (freshChannel p cid c) }
    return (k.modifyProcess p (fun pr => { pr with
      channels := tableSet table cid c, channelList := pr.channelList ++ [c] }), some c)

variable (c : ChId)

def channelIncref : Except Fault (Kernel PT) := do
  let ch ← k.channel c
  if ch.refCount < 1 then .error .assertion
  else return k.modifyChannel c fun ch => { ch with refCount := ch.refCount + 1 }

/-- Gives up an edge from `src` to `dst`, unless it leads to `src` itself. -/
def dropEdge (decref : Kernel PT → ChId → Except Fault (Kernel PT))
    (src dst : ChId) : Except Fault (Kernel PT) :=
  if dst ≠ src then decref k dst else pure k

/-- `channel_link`, with what `channel_decref` does. Unlinking, that is
linking a channel with itself, drops the old link once for `ch1` and
once more for `ch2`. -/
def channelLinkWith (decref : Kernel PT → ChId → Except Fault (Kernel PT))
    (ch1 ch2 : ChId) : Except Fault (Kernel PT) :=
  if ch1 = ch2 then do
    let c ← k.channel ch1
    let k ← k.dropEdge decref ch1 c.linkedWith
    let c ← k.channel ch2
    let k ← k.dropEdge decref ch2 c.linkedWith
    k.updateChannel ch1 fun c => { c with linkedWith := ch1 }
  else do
    let k ← k.updateChannel ch1 fun c => { c with linkedWith := ch2 }
    let k ← k.updateChannel ch2 fun c => { c with linkedWith := ch1 }
    let k ← k.channelIncref ch1
    k.channelIncref ch2

/-- `channel_transfer`, with what `channel_decref` does. -/
def channelTransferWith (decref : Kernel PT → ChId → Except Fault (Kernel PT))
    (src dst : ChId) : Except Fault (Kernel PT) := do
  let s ← k.channel src
  let d ← k.channel dst
  if s.process ≠ d.process then .error .assertion
  else if src = dst then do
    let k ← k.dropEdge decref src s.transferTo
    k.updateChannel src fun s => { s with transferTo := src }
  else do
    let k ← k.updateChannel src fun s => { s with transferTo := dst }
    k.channelIncref dst

/-- Resumes the receiver of a channel that is no longer used, if there is
one, with its operation aborted. -/
def abortReceiver : Option ThId → Except Fault (Kernel PT)
  | none => pure k
  | some r => do
    let k ← k.updateThread r fun th => { th with abortReason := .channelClosed }
    k.threadResume r

/-- The end of `channel_decref`, for a channel that is no longer used:
the receiver is resumed with its operation aborted, and the channel is
taken from its process and freed. The loop over the sender queue goes
through the field `next`, which links a thread to the threads of its
process and not to the senders. -/
def channelRelease : Except Fault (Kernel PT) := do
  let ch ← k.channel c
  let k ← k.abortReceiver ch.receiver
  if ch.queue ≠ [] then .error .wrongField
  else do
    let _ ← k.process ch.process
    let k := k.modifyProcess ch.process fun pr => { pr with
      channels := tableFree pr.channels ch.cid, channelList := pr.channelList.erase c }
    return { k with channels := k.channels.free c }

/-- `channel_decref`, at most `fuel` calls deep. -/
def channelDecrefFuel : ℕ → Kernel PT → ChId → Except Fault (Kernel PT)
  | 0, _, _ => .error .outOfFuel
  | fuel + 1, k, c => do
    let ch ← k.channel c
    if ch.refCount < 1 then .error .assertion
    else do
      let k := k.modifyChannel c fun ch => { ch with refCount := ch.refCount - 1 }
      if 0 < ch.refCount - 1 then return k
      else do
        let k ← k.channelLinkWith (channelDecrefFuel fuel) c c
        let k ← k.channelTransferWith (channelDecrefFuel fuel) c c
        k.channelRelease c

/-- The references all channels hold together. -/
def totalRefs : ℕ :=
  ∑ c ∈ Finset.range k.channels.size, ((k.channels.get c).elim 0 fun ch => ch.refCount.toNat)

def channelDecref : Except Fault (Kernel PT) :=
  channelDecrefFuel (k.totalRefs + 1) k c

def channelLink (ch1 ch2 : ChId) : Except Fault (Kernel PT) :=
  k.channelLinkWith channelDecref ch1 ch2

def channelTransfer (src dst : ChId) : Except Fault (Kernel PT) :=
  k.channelTransferWith channelDecref src dst

/-- `channel_destroy`; that the channel is not destructed already is only
a debug assertion. -/
def channelDestroy : Except Fault (Kernel PT) := do
  let k ← k.updateChannel c fun ch => { ch with destructed := true }
  k.channelDecref c

def channelNotify (notification : BitVec 32) : Except Fault (Kernel PT) := do
  let ch ← k.channel c
  let linked ← k.channel ch.linkedWith
  let dst := linked.transferTo
  let d ← k.channel dst
  let k := k.modifyChannel dst fun d => { d with notification := d.notification ||| notification }
  match d.receiver with
  | none => return k
  | some r => do
    let k ← k.updateThread r fun th => th.setIpcBuffer { th.ipcBuffer with
      header := 0x64010000#32, sender := 0 }
    let k ← k.threadResume r
    return k.modifyChannel dst fun d => { d with receiver := none }

/-- The channel a system call names, in the table of the current
thread's process. -/
def lookup (cid : ℤ) : Except Fault (Option ChId) := do
  let th ← k.thread k.current
  let pr ← k.process th.process
  tableGet pr.channels cid

/-- A system call returns to its thread in user mode. -/
def sysret (e : Err) : Kernel PT :=
  k.modifyThread k.current fun th => { th with ret := e }

/-- `sys_open`. The identifier of the new channel is found in the table. -/
def sysOpen : Except Fault (Kernel PT) := do
  let th ← k.thread k.current
  let (k, c) ← k.channelCreate th.process
  match c with
  | none => return k.sysret .outOfResource
  | some _ => return k.sysret .ok

def sysClose (cid : ℤ) : Except Fault (Kernel PT) := do
  match ← k.lookup cid with
  | none => return k.sysret .invalidCid
  | some c => return (← k.channelDestroy c).sysret .ok

def sysLink (ch1 ch2 : ℤ) : Except Fault (Kernel PT) := do
  match ← k.lookup ch1 with
  | none => return k.sysret .invalidCid
  | some c1 =>
    match ← k.lookup ch2 with
    | none => return k.sysret .invalidCid
    | some c2 => return (← k.channelLink c1 c2).sysret .ok

def sysTransfer (src dst : ℤ) : Except Fault (Kernel PT) := do
  match ← k.lookup src with
  | none => return k.sysret .invalidCid
  | some s =>
    match ← k.lookup dst with
    | none => return k.sysret .invalidCid
    | some d => return (← k.channelTransfer s d).sysret .ok

def sysNotify (cid : ℤ) (notification : BitVec 32) : Except Fault (Kernel PT) := do
  match ← k.lookup cid with
  | none => return k.sysret .invalidCid
  | some c => return (← k.channelNotify c notification).sysret .ok

end Archives.Resea.Kernel
