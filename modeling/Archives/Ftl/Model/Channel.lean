import Archives.Ftl.Model.Poll
/-!
# FTL — channels

`kernel/src/channel.rs`: sending moves the listed handles out of the
sender's table into the message, receiving installs them in the
receiver's table. User memory and the allocator are the environment of a
call: what a read of user memory gives, whether a write to it succeeds,
and whether the peer's queue has room for one more entry.
-/

namespace Archives.Ftl

open Readiness

/-- **The environment of a call**: the isolation of the running process,
and the allocator where the kernel asks it for room. A read fills the
whole buffer or fails. -/
structure Env where
  readBytes : (ptr len : Nat) → Except ErrorCode (Vector UInt8 len)
  writeBytes : (ptr : Nat) → List UInt8 → Except ErrorCode Unit
  /-- `VecDeque::try_reserve_exact(1)` on the peer's queue. -/
  tryReserve : Bool

/-- The first number that does not fit a `usize`. -/
def usizeLimit : Nat := 0x10000000000000000

/-- `IsolationSlice`, a range of user memory. -/
structure IsolationSlice where
  ptr : Nat
  len : Nat

namespace IsolationSlice

/-- `Isolation::is_accessible`, with the additions of `usize` checked. -/
def isAccessible (s : IsolationSlice) (offset len : Nat) : Except ErrorCode Nat :=
  if usizeLimit ≤ s.ptr + offset ∨ usizeLimit ≤ s.ptr + offset + len then .error .outOfBounds
  else if s.len < offset + len then .error .outOfBounds
  else .ok (s.ptr + offset)

def readHandleId (env : Env) (s : IsolationSlice) (offset : Nat) : Except ErrorCode HandleId := do
  let ptr ← s.isAccessible offset 4
  let bytes ← env.readBytes ptr 4
  pure (HandleId.ofBytes bytes)

def readToVec (env : Env) (s : IsolationSlice) (offset len : Nat) :
    Except ErrorCode (List UInt8) := do
  let ptr ← s.isAccessible offset len
  let bytes ← env.readBytes ptr len
  pure bytes.toList

def writeBytes (env : Env) (s : IsolationSlice) (offset : Nat) (bytes : List UInt8) :
    Except ErrorCode Unit := do
  let ptr ← s.isAccessible offset bytes.length
  env.writeBytes ptr bytes

end IsolationSlice

/-- The four bytes of an `i32` in memory (little endian). -/
def HandleId.toBytes (id : HandleId) : List UInt8 :=
  let b := BitVec.ofInt 32 id
  [0, 8, 16, 24].map fun i => ⟨b.extractLsb' i 8⟩

def messageNumHandlesMax : Nat := 4

def messageDataLenMax : Nat := 4096

def queueLenMax : Nat := 32

namespace Kernel

/-- `ArrayVec::try_push(x).unwrap()` on a vector of
`MESSAGE_NUM_HANDLES_MAX` places. -/
def tryPush {α : Type} (xs : List α) (x : α) : Sys (List α) :=
  if xs.length < messageNumHandlesMax then pure (xs ++ [x]) else .stop .panic

/-- The first loop of `send_from_user`, `n` rounds from round `i` on:
the ids are read and checked one by one. -/
def checkHandles (env : Env) (table : HandleTable) (handles : IsolationSlice) :
    Nat → Nat → List HandleId → Sys (List HandleId)
  | 0, _, ids => pure ids
  | n + 1, i, ids => do
    let id ← .lift (handles.readHandleId env (i * 4))
    let ids ← tryPush ids id
    if ¬ table.isMovable id then .fail .handleNotMovable
    checkHandles env table handles n (i + 1) ids

/-- The second loop: the handles leave the table of process `p`. The
`unwrap` panics where an id is not in the table any more. -/
def takeHandles (p : Addr) : List HandleId → List AnyHandle → Sys (List AnyHandle)
  | [], moved => pure moved
  | id :: ids, moved => do
    let k ← .state
    match (k.processes p).take id with
    | .error _ => .stop .panic
    | .ok (h, table) =>
      .update (·.setTable p table)
      let moved ← tryPush moved h
      takeHandles p ids moved

/-- Unblocks the first of the receivers taken from a channel. -/
def wakeReceiver (k : Kernel) : List Addr → Kernel
  | [] => k
  | receiver :: _ => k.unblock receiver

/-- What `Channel::send` does once the message may be queued at the
peer: it is queued, a receiver is woken, and the emitter told. -/
def enqueue (k : Kernel) (peer : Addr) (entry : MessageEntry) : Kernel :=
  let ch := k.channels peer
  let queue := ch.queue ++ [entry]
  let k := k.setChannel peer { ch with queue := queue, receivers := ch.receivers.tail }
  let k := (k.wakeReceiver ch.receivers).emitterSet peer readable
  if queue.length = queueLenMax then k.emitterClear peer writable else k

variable (env : Env)

def channelSend (c : Addr) (msginfo : MessageInfo) (data : List UInt8)
    (handles : List AnyHandle) : Sys Unit := do
  let k ← .state
  match (k.channels c).peer with
  | none => .fail .noPeer
  | some peer =>
    if ¬ env.tryReserve then .fail .outOfMemory
    if queueLenMax ≤ (k.channels peer).queue.length then .fail .backpressure
    .update (·.enqueue peer { msginfo := msginfo, data := data, handles := handles })

/-- `Channel::send_from_user`, for the process `p`. With no handles
listed neither loop has a round. -/
def sendFromUser (p c : Addr) (msginfo : MessageInfo)
    (msgbuffer handles : IsolationSlice) : Sys Unit := do
  if messageDataLenMax < msginfo.dataLen then .fail .tooLarge
  let data ← .lift (msgbuffer.readToVec env 0 msginfo.dataLen)
  let k ← .state
  let ids ← checkHandles env (k.processes p) handles msginfo.numHandles 0 []
  let moved ← takeHandles p ids []
  channelSend env c msginfo data moved

def sysChannelSend (a0 a1 a2 a3 : Nat) : Sys Nat := do
  let channelId ← .lift (HandleId.fromUsize a0)
  let msginfo := MessageInfo.fromRaw a1
  let msgbuffer : IsolationSlice := { ptr := a2, len := msginfo.dataLen }
  let handles : IsolationSlice := { ptr := a3, len := 4 * msginfo.numHandles }
  let k ← .state
  let ch ← .lift (k.table.get Object.asChannel HandleRight.write channelId)
  sendFromUser env k.process ch msginfo msgbuffer handles
  pure 0

/-! ## What a send owes its caller -/

/-- The ids in the user's array, `n` of them from place `i` on. -/
def listedIds (env : Env) (handles : IsolationSlice) : Nat → Nat → Except ErrorCode (List HandleId)
  | 0, _ => .ok []
  | n + 1, i => do
    let id ← handles.readHandleId env (i * 4)
    let ids ← listedIds env handles n (i + 1)
    pure (id :: ids)

/-- The array of handle ids of a call of `sys_channel_send`. -/
def idArray (a1 a3 : Nat) : Except ErrorCode (List HandleId) :=
  let n := (MessageInfo.fromRaw a1).numHandles
  listedIds env { ptr := a3, len := 4 * n } n 0

/-- The data of a call of `sys_channel_send`. -/
def messageData (a1 a2 : Nat) : Except ErrorCode (List UInt8) :=
  let len := (MessageInfo.fromRaw a1).dataLen
  IsolationSlice.readToVec env { ptr := a2, len := len } 0 len

/-- Between two states the running process sent one message over the
channel `c`: it is the last in the queue of the peer, it carries exactly
the handles with the ids `ids`, and exactly these left the table. -/
structure Sent (k k' : Kernel) (c : Addr) (ids : List HandleId) (entry : MessageEntry) : Prop where
  queue : ∃ peer, (k.channels c).peer = some peer ∧ ∀ q, (k'.channels q).queue =
    if q = peer then (k.channels q).queue ++ [entry] else (k.channels q).queue
  handles : entry.handles.map some = ids.map fun id => k.table.handles[id]?
  table : ∀ id, (k'.processes k.process).handles[id]? =
    if id ∈ ids then none else k.table.handles[id]?

/-- Between two states neither the table of the running process nor any
queue changed. -/
structure NothingMoved (k k' : Kernel) : Prop where
  table : k'.processes k.process = k.table
  queue : ∀ q, (k'.channels q).queue = (k.channels q).queue

/-- **All or nothing.** The call ends; if it succeeds it has sent one
message with the data and the handles that its arguments name, and if it
fails nothing has moved. -/
def SendAtomic (k : Kernel) (a0 a1 a2 a3 : Nat) : Prop :=
  match (sysChannelSend env a0 a1 a2 a3).run k with
  | .error _ => False
  | .ok (.error _, k') => NothingMoved k k'
  | .ok (.ok _, k') => ∃ (c : Addr) (ids : List HandleId) (data : List UInt8)
      (handles : List AnyHandle),
      k.table.get Object.asChannel HandleRight.write a0 = .ok c ∧ idArray env a1 a3 = .ok ids ∧
      messageData env a1 a2 = .ok data ∧
      Sent k k' c ids { msginfo := MessageInfo.fromRaw a1, data := data, handles := handles }

/-- The call passes every check made before handles move: `a0` names a
channel the process may write to, the data is not too large and can be
read, and the ids can be read and name movable handles. -/
structure Admitted (env : Env) (k : Kernel) (a0 a1 a2 a3 : Nat) (c : Addr)
    (ids : List HandleId) : Prop where
  channelId : a0 < 0x80000000
  channel : k.table.get Object.asChannel HandleRight.write a0 = .ok c
  dataLen : (MessageInfo.fromRaw a1).dataLen ≤ messageDataLenMax
  data : ∃ bytes, messageData env a1 a2 = .ok bytes
  idsRead : idArray env a1 a3 = .ok ids
  movable : ∀ id ∈ ids, k.table.isMovable id = true

/-- The channel `c` is connected with `peer`, and the peer's queue can
take one more message. -/
def HasRoom (k : Kernel) (c peer : Addr) : Prop :=
  (k.channels c).peer = some peer ∧ env.tryReserve = true ∧
    (k.channels peer).queue.length < queueLenMax

/-- **When a send is all or nothing.** A call that passes the checks
lists no handle, or lists no id twice and finds its peer connected, with
room in the queue. -/
def SendSafe (k : Kernel) (a0 a1 a2 a3 : Nat) : Prop :=
  ∀ (c : Addr) (ids : List HandleId), Admitted env k a0 a1 a2 a3 c ids →
    ids = [] ∨ ids.Nodup ∧ ∃ peer, HasRoom env k c peer

/-! ## Receiving -/

/-- Installs a handle in the table of process `p`. -/
def installHandle (p : Addr) (h : AnyHandle) : Sys HandleId := do
  let k ← .state
  match (k.processes p).insert h with
  | .error x => .stop x
  | .ok (.error e) => .fail e
  | .ok (.ok (id, table)) =>
    .update (·.setTable p table)
    pure id

/-- The loop of `try_recv` over the handles of the message, from round
`i` on. A handle that cannot be installed is lost, and so are those after
it. -/
def installHandles (env : Env) (p : Addr) (handles : IsolationSlice) :
    Nat → List AnyHandle → Sys Unit
  | _, [] => pure ()
  | i, h :: hs => do
    let id ← installHandle p h
    .lift (handles.writeBytes env (i * 4) id.toBytes)
    installHandles env p handles (i + 1) hs

/-- The first block of `Channel::try_recv`: the first message leaves the
queue. -/
def popMessage (c : Addr) : Sys MessageEntry := do
  let k ← .state
  match (k.channels c).queue with
  | [] => if (k.channels c).peer.isSome then .fail .empty else .fail .noPeer
  | entry :: queue =>
    .update fun k => k.setChannel c { k.channels c with queue := queue }
    if queue.isEmpty then .update (·.emitterClear c readable)
    pure entry

/-- `Channel::try_recv`, for the process `p`. -/
def tryRecv (p c : Addr) (msgbuffer handles : IsolationSlice) : Sys MessageInfo := do
  let entry ← popMessage c
  installHandles env p handles 0 entry.handles
  if entry.data.length < entry.msginfo.dataLen then .stop .panic
  .lift (msgbuffer.writeBytes env 0 (entry.data.take entry.msginfo.dataLen))
  .update (·.emitterSet c writable)
  pure entry.msginfo

def sysChannelRecv (a0 a1 a2 : Nat) : Sys Nat := do
  let channelId ← .lift (HandleId.fromUsize a0)
  let msgbuffer : IsolationSlice := { ptr := a1, len := messageDataLenMax }
  let handles : IsolationSlice := { ptr := a2, len := 4 * messageNumHandlesMax }
  let k ← .state
  let ch ← .lift (k.table.get Object.asChannel HandleRight.read channelId)
  let msginfo ← tryRecv env k.process ch msgbuffer handles
  pure (msginfo.signExtend 64).toNat

/-! ## Creating and closing -/

/-- `Channel::new`: two ends at the next two addresses, each the peer of
the other. -/
def channelNew (k : Kernel) : Kernel :=
  let c₀ := k.next
  let c₁ := k.next + 1
  let k := { k with next := k.next + 2 }
  let k := k.setChannel c₀ { Channel.new with peer := some c₁ }
  let k := k.setChannel c₁ { Channel.new with peer := some c₀ }
  let k := k.setEmitter c₀ (Emitter.new writable)
  k.setEmitter c₁ (Emitter.new writable)

/-- Installs two handles with consecutive ids in the table of process
`p`; the first id. -/
def installTwo (p : Addr) (h₀ h₁ : AnyHandle) : Sys HandleId := do
  let k ← .state
  match (k.processes p).insertTwo h₀ h₁ with
  | .error x => .stop x
  | .ok (id, table) =>
    .update (·.setTable p table)
    pure id

def sysChannelCreate : Sys Nat := do
  let k ← .state
  .update (·.channelNew)
  let rights := HandleRight.read ||| HandleRight.write
  let id ← installTwo k.process { object := .channel k.next, rights := rights }
    { object := .channel (k.next + 1), rights := rights }
  pure id.toNat

/-- Takes the peer out of a channel. -/
def dropPeer (k : Kernel) (c : Addr) : Kernel :=
  k.setChannel c { k.channels c with peer := none }

def channelClose (k : Kernel) (c : Addr) : Kernel :=
  match (k.channels c).peer with
  | none => k
  | some peer =>
    let k := k.dropPeer c
    match (k.channels peer).peer with
    | none => k
    | some _ => (k.dropPeer peer).emitterSet peer peerClosed

end Kernel

end Archives.Ftl
