import Mathlib.Data.List.Basic
import Archives.Common.Call
/-!
# FTL — the kernel objects

The state of the kernel: threads, processes with their handle tables,
channels, polls and the emitters that tie them together
(`kernel/src/{handle,process,poll,channel,thread}.rs`). A `SharedRef` is
an address. One counter hands the addresses out, so an address names one
object, and the emitter of an object is kept under the object's own
address. Each store is total; what lies at an address that was not
handed out for its kind of object is never looked at.

In all modules the kernel is built with overflow checks and without debug
assertions.
-/

namespace Archives.Ftl

open Function

/-- `ErrorCode`, the errors a system call returns. -/
inductive ErrorCode
  | outOfMemory | outOfSpace | handleTypeMismatch | handleNotFound | handleNotMovable
  | notAllowed | notFound | segmentationFault | alreadyMapped | outOfBounds | notSupported
  | noPeer | tooLarge | tooSmall | invalidArgument | empty | tooManyHandles | alreadyExists
  | unknownSyscall | tryLater | invalidUri | backpressure | invalidMessage
  deriving DecidableEq, Repr

/-- How a system call fails to end. -/
inductive Stop
  /-- A panic: an `unwrap` of nothing, or `unreachable!`. -/
  | panic
  /-- A loop that is never left. -/
  | hang
  deriving DecidableEq, Repr

/-- What a `SharedRef` points to. -/
abbrev Addr := Nat

/-- `HandleId`, the value of an `i32`. -/
abbrev HandleId := Int

namespace HandleId

/-- `HandleId::from_usize`: the number has to fit an `i32`. -/
def fromUsize (raw : Nat) : Except ErrorCode HandleId :=
  if raw < 0x80000000 then .ok raw else .error .invalidArgument

/-- The `i32` in four bytes of memory (little endian). -/
def ofBytes (b : Vector UInt8 4) : HandleId :=
  (b[3].toBitVec ++ b[2].toBitVec ++ b[1].toBitVec ++ b[0].toBitVec).toInt

end HandleId

/-- `HandleRight`, the operations a handle allows. -/
abbrev HandleRight := BitVec 8

namespace HandleRight

def read : HandleRight := 1#8

def write : HandleRight := 2#8

def all : HandleRight := read ||| write

def contains (rights required : HandleRight) : Bool := rights &&& required == required

end HandleRight

/-- `Readiness`, a set of events. -/
abbrev Readiness := BitVec 8

namespace Readiness

def peerClosed : Readiness := 1#8

def readable : Readiness := 2#8

def writable : Readiness := 4#8

end Readiness

/-- A kernel object behind a `dyn Handleable`. -/
inductive Object
  | thread (t : Addr)
  | process (p : Addr)
  | poll (p : Addr)
  | channel (c : Addr)
  | timer (t : Addr)
  | interrupt (i : Addr)
  | vmArea (a : Addr)
  | vmSpace (a : Addr)
  deriving DecidableEq, Repr

namespace Object

def addr : Object → Addr
  | thread a | process a | poll a | channel a | timer a | interrupt a | vmArea a | vmSpace a => a

/-- `Handleable::emitter`: polls, processes and memory have none. -/
def emitter : Object → Option Addr
  | thread a | channel a | timer a | interrupt a => some a
  | process _ | poll _ | vmArea _ | vmSpace _ => none

/-- `Handleable::is_movable`: only channels are. -/
def isMovable : Object → Bool
  | channel _ => true
  | _ => false

/-- `Handleable::is_edge_triggered`: only timers are. -/
def isEdgeTriggered : Object → Bool
  | timer _ => true
  | _ => false

def asChannel : Object → Option Addr
  | channel c => some c
  | _ => none

def asPoll : Object → Option Addr
  | poll p => some p
  | _ => none

def asProcess : Object → Option Addr
  | process p => some p
  | _ => none

def asTimer : Object → Option Addr
  | timer t => some t
  | _ => none

def asInterrupt : Object → Option Addr
  | interrupt i => some i
  | _ => none

end Object

/-- `AnyHandle`, an object with the operations allowed on it. -/
structure AnyHandle where
  object : Object
  rights : HandleRight
  deriving DecidableEq, Repr

/-! ## Handle tables -/

def numHandlesMax : Nat := 1024

/-- `HandleTable`, the handles of a process. -/
structure HandleTable where
  /-- `handles`, sorted by id. -/
  handles : Std.ExtTreeMap HandleId AnyHandle
  /-- `next_id`, where the search for an unused id starts. -/
  nextId : Int
  deriving DecidableEq

namespace HandleTable

def new : HandleTable where
  handles := ∅
  nextId := 1

/-- The loop of `HandleTable::insert`, for as many rounds as are given;
`none` if it is still searching then. -/
def insertLoop (h : AnyHandle) : Nat → HandleTable → Option (HandleId × HandleTable)
  | 0, _ => none
  | fuel + 1, table =>
    let id := table.nextId
    -- `as_usize` of a negative id is far above the bound
    if id < 0 ∨ numHandlesMax ≤ id then insertLoop h fuel { table with nextId := 1 }
    else
      let table := { table with nextId := id + 1 }
      if table.handles.contains id then insertLoop h fuel table
      else some (id, { table with handles := table.handles.insert id h })

/-- The rounds after which the loops of `insert` and `insert_two` have
tried every id: from then on they only repeat themselves. -/
def insertRounds : Nat := 2 * numHandlesMax + 2

def insert (h : AnyHandle) (table : HandleTable) :
    Except Stop (Except ErrorCode (HandleId × HandleTable)) :=
  if numHandlesMax ≤ table.handles.size then .ok (.error .tooManyHandles)
  else
    match insertLoop h insertRounds table with
    | some r => .ok (.ok r)
    | none => .error .hang

/-- The loop of `HandleTable::insert_two`, for as many rounds as are
given. -/
def insertTwoLoop (h₀ h₁ : AnyHandle) : Nat → HandleTable → Option (HandleId × HandleTable)
  | 0, _ => none
  | fuel + 1, table =>
    let id₀ := table.nextId
    let id₁ := table.nextId + 1
    if id₁ < 0 ∨ numHandlesMax ≤ id₁ then insertTwoLoop h₀ h₁ fuel { table with nextId := 1 }
    else
      let table := { table with nextId := id₀ + 2 }
      if ¬ table.handles.contains id₀ ∧ ¬ table.handles.contains id₁ then
        some (id₀, { table with handles := (table.handles.insert id₀ h₀).insert id₁ h₁ })
      else insertTwoLoop h₀ h₁ fuel table

/-- `HandleTable::insert_two`, for two handles with consecutive ids. It
does not look at the number of handles. -/
def insertTwo (h₀ h₁ : AnyHandle) (table : HandleTable) : Except Stop (HandleId × HandleTable) :=
  match insertTwoLoop h₀ h₁ insertRounds table with
  | some r => .ok r
  | none => .error .hang

def getAny (table : HandleTable) (id : HandleId) : Except ErrorCode AnyHandle :=
  match table.handles[id]? with
  | some h => .ok h
  | none => .error .handleNotFound

/-- `HandleTable::get` for the objects the cast accepts, with the
`Handle::authorize` every caller puts after it. -/
def get (cast : Object → Option Addr) (required : HandleRight) (table : HandleTable)
    (id : HandleId) : Except ErrorCode Addr := do
  let h ← table.getAny id
  match cast h.object with
  | none => .error .handleTypeMismatch
  | some a => if h.rights.contains required then .ok a else .error .notAllowed

def isMovable (table : HandleTable) (id : HandleId) : Bool :=
  match table.handles[id]? with
  | some h => h.object.isMovable
  | none => false

def take (table : HandleTable) (id : HandleId) : Except ErrorCode (AnyHandle × HandleTable) :=
  match table.handles[id]? with
  | some h => .ok (h, { table with handles := table.handles.erase id })
  | none => .error .handleNotFound

end HandleTable

/-! ## Polls and emitters -/

/-- `Object` of a poll: a registered handle with the events not reported
yet. -/
structure PollObject where
  handle : AnyHandle
  ready : Readiness
  deriving DecidableEq

structure Poll where
  /-- `waiters`, the threads blocked on the poll. -/
  waiters : List Addr
  /-- `objects`, the registered handles by id. -/
  objects : Std.ExtTreeMap HandleId PollObject
  /-- `ready_queue`, the ids with events to report. -/
  readyQueue : List HandleId
  deriving DecidableEq

def Poll.new : Poll where
  waiters := []
  objects := ∅
  readyQueue := []

structure PollEvent where
  handleId : HandleId
  readiness : Readiness
  deriving DecidableEq, Repr

def PollEvent.asRaw (ev : PollEvent) : Nat := (ev.handleId.toNat <<< 4) ||| ev.readiness.toNat

/-- `Listener`, a poll an emitter reports to. -/
structure Listener where
  poll : Addr
  handleId : HandleId
  interests : Readiness
  deriving DecidableEq

/-- `PollEmitter`. -/
structure Emitter where
  /-- `latest`, the events that hold now. -/
  latest : Readiness
  /-- `listeners`, keyed by the poll's address. -/
  listeners : Std.ExtTreeMap Addr Listener
  deriving DecidableEq

def Emitter.new (initial : Readiness) : Emitter where
  latest := initial
  listeners := ∅

/-! ## Channels and threads -/

/-- `MessageInfo`, an `i32` of packed fields. -/
abbrev MessageInfo := BitVec 32

namespace MessageInfo

/-- `MessageInfo::from_raw`, the cast from `usize`. -/
def fromRaw (value : Nat) : MessageInfo := BitVec.ofNat 32 value

/-- `MessageInfo::data_len`, 13 bits. -/
def dataLen (m : MessageInfo) : Nat := (m &&& 0x1fff#32).toNat

/-- `MessageInfo::num_handles`, 2 bits. -/
def numHandles (m : MessageInfo) : Nat := (m.sshiftRight 13 &&& 3#32).toNat

end MessageInfo

/-- `MessageEntry`, a message in a queue. -/
structure MessageEntry where
  msginfo : MessageInfo
  data : List UInt8
  handles : List AnyHandle
  deriving DecidableEq

/-- `Channel`, one end of a pair. -/
structure Channel where
  /-- `peer`, the other end while it is connected. -/
  peer : Option Addr
  /-- `queue`, the messages received. -/
  queue : List MessageEntry
  /-- `receivers`, threads to wake on a message. -/
  receivers : List Addr
  deriving DecidableEq

/-- The fields `Channel::do_new` starts with. -/
def Channel.new : Channel where
  peer := none
  queue := []
  receivers := []

/-- `ThreadState`. The one promise there is is `Promise::PollWait`. -/
inductive ThreadState
  | idle
  | runnable
  | blocked (poll : Addr)
  | exited
  | destroyed
  deriving DecidableEq, Repr

structure Thread where
  process : Addr
  state : ThreadState
  deriving DecidableEq

structure Kernel where
  /-- The next address the allocator hands out. -/
  next : Addr
  threads : Addr → Thread
  /-- The handle table of each process. -/
  processes : Addr → HandleTable
  polls : Addr → Poll
  channels : Addr → Channel
  emitters : Addr → Emitter
  /-- `GLOBAL_SCHEDULER`. -/
  runqueue : List Addr
  /-- `current_thread` of the CPU. -/
  current : Addr

/-- A system call of the kernel. -/
abbrev Sys := Call Stop Kernel ErrorCode

namespace Kernel

variable (k : Kernel)

def setState (t : Addr) (s : ThreadState) : Kernel :=
  { k with threads := update k.threads t { k.threads t with state := s } }

def setTable (p : Addr) (table : HandleTable) : Kernel :=
  { k with processes := update k.processes p table }

def setPoll (p : Addr) (poll : Poll) : Kernel :=
  { k with polls := update k.polls p poll }

def setChannel (c : Addr) (ch : Channel) : Kernel :=
  { k with channels := update k.channels c ch }

def setEmitter (e : Addr) (em : Emitter) : Kernel :=
  { k with emitters := update k.emitters e em }

/-- The process of the thread that runs. -/
def process : Addr := (k.threads k.current).process

/-- The handle table of the process that runs. -/
def table : HandleTable := k.processes k.process

end Kernel

end Archives.Ftl
