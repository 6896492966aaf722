import Archives.Ftl.ReadyQueue
/-!
# FTL — the event loop of a program

`libs/rust/ftl/src/eventloop.rs` over the polls of the kernel: a program
registers objects with a context each, and `EventLoop::wait` turns what
`Poll::wait` delivers into an event. The kernel clears everything it
delivers at once; the loop reports one event for it. `unreported` keeps
account of the bits that were delivered and that no event has reported.

Everything else that happens to polls and emitters is the environment:
emitters are set and cleared, and other polls used.
-/

namespace Archives.Ftl

open Readiness

/-- The bits of a `Readiness`. -/
inductive Bit
  | peerClosed
  | readable
  | writable
  deriving DecidableEq, Repr

namespace Bit

/-- The readiness of a single bit. -/
def mask : Bit → Readiness
  | peerClosed => Readiness.peerClosed
  | readable => Readiness.readable
  | writable => Readiness.writable

def all : List Bit := [peerClosed, readable, writable]

end Bit

namespace Readiness

def all : Readiness := peerClosed ||| readable ||| writable

def contains (r other : Readiness) : Bool := r &&& other == other

def bits (r : Readiness) : List Bit := Bit.all.filter fun bit => contains r bit.mask

end Readiness

def PollEvent.fromRaw (raw : Nat) : Except ErrorCode PollEvent := do
  let handleId ← HandleId.fromUsize (raw >>> 4)
  return { handleId := handleId, readiness := BitVec.ofNat 8 (raw &&& all.toNat) }

/-- What kind of object an item of the event loop is. -/
inductive ItemObject
  | channel
  | timer
  | interrupt
  | thread
  deriving DecidableEq, Repr

/-- `Item`, with the context it was added with. -/
structure Item (C : Type) where
  ctx : C
  object : ItemObject

/-- `Event`, with the id of its object. -/
inductive Event
  | channelWritable (id : HandleId)
  | channelReadable (id : HandleId)
  | channelClosed (id : HandleId)
  | timerFired (id : HandleId)
  | interruptFired (id : HandleId)
  | threadExited (id : HandleId)
  deriving DecidableEq, Repr

/-- `Error`, as far as `wait` returns it. -/
inductive LoopError
  | pollWait (err : ErrorCode)
  | invalidListenee (id : HandleId)
  | unexpectedReadiness (readiness : Readiness)
  deriving DecidableEq, Repr

/-- **What an event says**: the bit of the object that it reports. -/
def Event.reports : Event → HandleId × Bit
  | channelWritable id => (id, .writable)
  | channelReadable id => (id, .readable)
  | channelClosed id => (id, .peerClosed)
  | timerFired id => (id, .readable)
  | interruptFired id => (id, .readable)
  | threadExited id => (id, .peerClosed)

namespace ItemObject

/-- The arms of `wait`: the event of an object for a readiness. -/
def event (object : ItemObject) (id : HandleId) (readiness : Readiness) : Except LoopError Event :=
  match object with
  | .channel =>
    if contains readiness writable then .ok (.channelWritable id)
    else if contains readiness readable then .ok (.channelReadable id)
    else if readiness = peerClosed then .ok (.channelClosed id)
    else .error (.unexpectedReadiness readiness)
  | .timer =>
    if contains readiness readable then .ok (.timerFired id)
    else .error (.unexpectedReadiness readiness)
  | .interrupt =>
    if contains readiness readable then .ok (.interruptFired id)
    else .error (.unexpectedReadiness readiness)
  | .thread =>
    if readiness = peerClosed then .ok (.threadExited id)
    else .error (.unexpectedReadiness readiness)

/-- The bits an object has events for. -/
def bits : ItemObject → List Bit
  | .channel => [.peerClosed, .readable, .writable]
  | .timer | .interrupt => [.readable]
  | .thread => [.peerClosed]

/-- The interests an object is added with. -/
def interests : ItemObject → Readiness
  | .channel => readable ||| peerClosed
  | .timer | .interrupt => readable
  | .thread => peerClosed

/-- The kernel object at an address. -/
def toObject : ItemObject → Addr → Object
  | .channel => .channel
  | .timer => .timer
  | .interrupt => .interrupt
  | .thread => .thread

end ItemObject

/-- `EventLoop` in its kernel. -/
structure EventLoop (C : Type) where
  kernel : Kernel
  poll : Addr
  items : HandleId → Option (Item C)
  /-- The bits that were delivered and that no event has reported. -/
  unreported : List (HandleId × Bit)

namespace EventLoop

variable {C : Type} (s : EventLoop C)

/-- The `add` functions, for an object at an address. A handle table has
ids from 1 on. -/
def add (object : ItemObject) (id : HandleId) (addr : Addr) (ctx : C) : Option (EventLoop C) :=
  if id < 1 ∨ numHandlesMax ≤ id then none
  else
    match (Kernel.pollAdd s.poll id ⟨object.toObject addr, HandleRight.all⟩
      object.interests).run s.kernel with
    | .ok (.ok (), k) =>
      some { s with kernel := k, items := Function.update s.items id (some ⟨ctx, object⟩) }
    | .ok (.error _, k) => some { s with kernel := k }
    | .error _ => none

variable (id : HandleId) (addr : Addr)

def addChannel (ctx : C) : Option (EventLoop C) :=
  s.add .channel id addr ctx

def addTimer (ctx : C) : Option (EventLoop C) :=
  s.add .timer id addr ctx

def addInterrupt (ctx : C) : Option (EventLoop C) :=
  s.add .interrupt id addr ctx

def addThread (ctx : C) : Option (EventLoop C) :=
  s.add .thread id addr ctx

def remove : Option (EventLoop C) :=
  match (Kernel.pollRemove s.poll id).run s.kernel with
  | .ok (.ok (), k) => some { s with kernel := k, items := Function.update s.items id none }
  | .ok (.error _, k) => some { s with kernel := k }
  | .error _ => none

/-- `listen` and `unlisten`, by the masks they update with. -/
def update (orMask andMask : Readiness) : Option (EventLoop C) :=
  (Kernel.after (Kernel.pollUpdate s.poll id orMask andMask) s.kernel).map
    fun k => { s with kernel := k }

def listen (interests : Readiness) : Option (EventLoop C) :=
  s.update id interests all

def unlisten (interests : Readiness) : Option (EventLoop C) :=
  s.update id 0 (~~~interests)

/-- What `wait` makes of a raw result of the system call. -/
def eventOf (raw : Nat) : Except LoopError (C × Event) :=
  match PollEvent.fromRaw raw with
  | .error err => .error (.pollWait err)
  | .ok ev =>
    match s.items ev.handleId with
    | none => .error (.invalidListenee ev.handleId)
    | some item => (item.object.event ev.handleId ev.readiness).map fun event => (item.ctx, event)

/-- The account after `wait` was given an event of the poll and has
returned. -/
def account (ev : PollEvent) (result : Except LoopError (C × Event)) : List (HandleId × Bit) :=
  let delivered := s.unreported ++ (bits ev.readiness).map fun bit => (ev.handleId, bit)
  match result with
  | .ok (_, event) => delivered.filter fun entry => entry ≠ event.reports
  | .error _ => delivered

/-- `wait`, up to where it returns or blocks. -/
def wait : Option (Except LoopError (C × Event)) × EventLoop C :=
  match s.kernel.tryWait s.poll with
  | (none, k) => (none, { s with kernel := k })
  | (some ev, k) =>
    let result := s.eventOf ev.asRaw
    (some result, { s with kernel := k, unreported := s.account ev result })

/-! ## The machine -/

inductive Op (C : Type)
  | addChannel (id : HandleId) (addr : Addr) (ctx : C)
  | addTimer (id : HandleId) (addr : Addr) (ctx : C)
  | addInterrupt (id : HandleId) (addr : Addr) (ctx : C)
  | addThread (id : HandleId) (addr : Addr) (ctx : C)
  | remove (id : HandleId)
  | listen (id : HandleId) (interests : Readiness)
  | unlisten (id : HandleId) (interests : Readiness)
  | wait
  | env (action : Kernel.PollAction)

/-- What the environment may do beside a poll: use other polls, and set
and clear bits of emitters. -/
def foreign (p : Addr) : Kernel.PollAction → Bool
  | .add q _ _ _ | .update q _ _ _ | .remove q _ | .tryWait q => q ≠ p
  | .set _ mask | .clear _ mask => mask &&& all = mask

/-- What an operation does; nothing follows a panic. -/
def step : Op C → Option (EventLoop C)
  | .addChannel id addr ctx => s.addChannel id addr ctx
  | .addTimer id addr ctx => s.addTimer id addr ctx
  | .addInterrupt id addr ctx => s.addInterrupt id addr ctx
  | .addThread id addr ctx => s.addThread id addr ctx
  | .remove id => s.remove id
  | .listen id interests => s.listen id interests
  | .unlisten id interests => s.unlisten id interests
  | .wait => some s.wait.2
  | .env action =>
    if foreign s.poll action then
      (Kernel.polling.step s.kernel action).map fun k => { s with kernel := k }
    else none

/-- The event loop and its environment. -/
def machine (C : Type) : Machine (EventLoop C) (Op C) := ⟨step⟩

/-- A new event loop: nothing is registered, and the emitters have no
other bits than the three. -/
structure Boot : Prop where
  poll : s.kernel.polls s.poll = .new
  items : s.items = fun _ => none
  unreported : s.unreported = []
  latest : ∀ e, (s.kernel.emitters e).latest &&& all = (s.kernel.emitters e).latest

/-- **One bit at a time**: what the poll is about to deliver is at most a
single bit, and one that the object has an event for. -/
def DeliversOne : Op C → Prop
  | .wait => ∀ ev item, (s.kernel.tryWait s.poll).1 = some ev →
    s.items ev.handleId = some item → ev.readiness = 0 ∨
      ∃ bit ∈ item.object.bits, ev.readiness = bit.mask
  | _ => True

end EventLoop

end Archives.Ftl
