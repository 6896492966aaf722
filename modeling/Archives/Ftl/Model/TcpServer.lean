import Archives.Common.Machine
import Archives.Ftl.Model.Channel
/-!
# FTL — the TCP/IP server

The main loop of `apps/tcpip`: sockets of the TCP stack, their control
blocks, and the event loop the server waits in. The stack is known by
what it reports: a socket listens until an accept is reported for it,
and is active then until its close is reported. Data is left out; how a
drain of a channel or a socket ends is an input. So is what the kernel
answers to the creation of a channel, whether it has memory for a
message, and which free slot a new socket gets.

A step gives nothing if the program ends in it, or if the environment
cannot act so. The client's end of a listen channel is kept as long as
the client keeps it.
-/

namespace Archives.Ftl.Tcpip

open Function

/-- `SocketHandle`, a slot of the socket set. -/
abbrev SocketHandle := Nat

/-- `IpListenEndpoint`: the server listens on all addresses, so it is the
port. -/
abbrev Endpoint := Nat

/-- A socket, as far as the stack reports about it. -/
inductive Socket
  | listening (endpoint : Endpoint)
  | active
  deriving DecidableEq, Repr

inductive Context
  | startup
  | driver
  | timer
  | control
  | tcpListen
  | tcpConn (handle : SocketHandle)
  deriving DecidableEq, Repr

inductive Pcb
  | tcpListen (ch : HandleId) (endpoint : Endpoint)
  | tcpConn (ch : HandleId)
  deriving DecidableEq, Repr

inductive DrainResult
  | ok
  | backpressure
  deriving DecidableEq, Repr

/-- A client of a listen channel: where it listens, and how many
connections wait in its queue. -/
structure Client where
  endpoint : Endpoint
  queued : Nat
  deriving DecidableEq, Repr

/-- What the environment answers when a connection is accepted. -/
structure Grant where
  /-- `Channel::new`: our end, unless it fails. -/
  channel : Option HandleId
  /-- Whether the kernel has memory for one more message. -/
  reserve : Bool
  /-- The slot of the next socket. -/
  socket : SocketHandle
  deriving DecidableEq, Repr

/-- `Change`, with what is answered on the way. -/
inductive Change
  | accepted (grant : Grant)
  | readable (drain : DrainResult)
  | closed
  deriving DecidableEq, Repr

/-- The server: the sockets, `pcbs`, the items of the event loop, the
sets of blocked sockets, and the clients of the listen channels. -/
structure Server where
  sockets : SocketHandle → Option Socket
  pcbs : SocketHandle → Option Pcb
  items : HandleId → Option Context
  writeBlocked : List SocketHandle
  readBlocked : List SocketHandle
  pendingClose : List SocketHandle
  clients : HandleId → Option Client

namespace Server

variable (s : Server)

/-! ## The stack and the event loop -/

/-- `TcpIp::tcp_listen`, with the slot that is free. Port 0 is refused. -/
def tcpListen (endpoint : Endpoint) (handle : SocketHandle) : Option Server :=
  if endpoint = 0 ∨ (s.sockets handle).isSome then none
  else some { s with sockets := update s.sockets handle (some (.listening endpoint)) }

variable (handle : SocketHandle)

/-- `TcpIp::tcp_close`. The close is reported when it is done. -/
def tcpClose : Option Server :=
  if (s.sockets handle).isSome then
    some { s with sockets := update s.sockets handle (some .active) }
  else none

variable (ch : HandleId)

/-- `EventLoop::add_channel`, unwrapped. -/
def addChannel (ctx : Context) : Option Server :=
  if (s.items ch).isSome then none
  else some { s with items := update s.items ch (some ctx) }

/-- `EventLoop::remove`, unwrapped. -/
def removeItem : Option Server :=
  if (s.items ch).isSome then some { s with items := update s.items ch none } else none

/-- `EventLoop::listen` and `EventLoop::unlisten`, unwrapped. What is
listened to is left out. -/
def listen : Option Server := if (s.items ch).isSome then some s else none

/-- `Channel::send` of a connection to the client of a listen channel;
nothing if it fails. -/
def sendConnect (reserve : Bool) : Option Server :=
  match s.clients ch with
  -- NoPeer
  | none => none
  | some client =>
    -- OutOfMemory, Backpressure
    if reserve = false ∨ queueLenMax ≤ client.queued then none
    else
      let client := { client with queued := client.queued + 1 }
      some { s with clients := update s.clients ch (some client) }

/-! ## Changes -/

def onTcpAccept (listenCh : HandleId) (endpoint : Endpoint) (grant : Grant) : Option Server :=
  match grant.channel with
  | none => some s
  | some ourCh =>
    match s.sendConnect listenCh grant.reserve with
    | none => s.tcpClose handle
    | some s => do
      let s := { s with pcbs := update s.pcbs handle (some (.tcpConn ourCh)) }
      let s ← s.addChannel ourCh (.tcpConn handle)
      let s ← s.tcpListen endpoint grant.socket
      some { s with
        pcbs := update s.pcbs grant.socket (some (.tcpListen listenCh endpoint)) }

/-- The arm for a close: the channel and the socket are given up. -/
def onTcpClosed (ch : HandleId) : Option Server := do
  let s ← s.removeItem ch
  some { s with
    sockets := update s.sockets handle none
    pcbs := update s.pcbs handle none
    writeBlocked := s.writeBlocked.erase handle
    readBlocked := s.readBlocked.erase handle
    pendingClose := s.pendingClose.erase handle }

/-- How `drain_socket_to_ch` leaves the event loop. -/
def drainSocketToCh : DrainResult → Option Server
  | .ok => some s
  | .backpressure => s.listen ch

/-- The arm for data: a socket whose channel is full is blocked. -/
def onTcpReadable (ch : HandleId) (drain : DrainResult) : Option Server :=
  if handle ∈ s.readBlocked then some s
  else do
    let s ← s.drainSocketToCh ch drain
    match drain with
    | .ok => some s
    | .backpressure => some { s with readBlocked := s.readBlocked.insert handle }

/-- One change of `tcpip.poll()`. -/
def applyChange (change : SocketHandle × Change) : Option Server :=
  match s.pcbs change.1, change.2 with
  -- pcbs.get(&handle).unwrap()
  | none, _ => none
  | some (.tcpListen ch endpoint), .accepted grant => s.onTcpAccept change.1 ch endpoint grant
  | some (.tcpConn _), .accepted _ => some s
  | some (.tcpConn ch), .readable drain => s.onTcpReadable change.1 ch drain
  | some (.tcpConn ch), .closed | some (.tcpListen ch _), .closed => s.onTcpClosed change.1 ch
  -- unreachable!
  | some (.tcpListen _ _), .readable _ => none

/-- All changes of one call, in their order. -/
def applyChanges : Server → List (SocketHandle × Change) → Option Server
  | s, [] => some s
  | s, change :: changes => (s.applyChange change).bind fun s => s.applyChanges changes

/-- What the stack can report: one change for a socket, an accept where
it listens, data and a close where it is active. -/
def reportable (changes : List (SocketHandle × Change)) : Bool :=
  (changes.map Prod.fst).Nodup && changes.all fun change =>
    match s.sockets change.1, change.2 with
    | some (.listening _), .accepted _ => true
    | some .active, .readable _ | some .active, .closed => true
    | _, _ => false

/-- The sockets after the stack has reported: those with a change are
active. -/
def stackPolled (changes : List (SocketHandle × Change)) : Server :=
  { s with sockets := fun handle =>
    if handle ∈ changes.map Prod.fst then some .active else s.sockets handle }

/-! ## Blocked sockets and events -/

/-- A round of the loop over the sockets whose write buffer was full. -/
def retryOne (drain : SocketHandle → DrainResult) (handle : SocketHandle) : Option Server :=
  match s.pcbs handle with
  -- pcbs.get(&handle).unwrap()
  | none => none
  | some (.tcpListen _ _) => some s
  | some (.tcpConn ch) =>
    match drain handle with
    | .ok =>
      if handle ∈ s.pendingClose then
        let s := { s with pendingClose := s.pendingClose.erase handle }
        s.tcpClose handle
      else s.listen ch
    | .backpressure => some { s with writeBlocked := s.writeBlocked.insert handle }

/-- The loop over the sockets whose write buffer was full. -/
def retryAll (drain : SocketHandle → DrainResult) : Server → List SocketHandle → Option Server
  | s, [] => some s
  | s, handle :: handles => (s.retryOne drain handle).bind fun s => s.retryAll drain handles

/-- `handle_tcp_listen_open`, for a host that is not refused. -/
def handleTcpListenOpen (port : Endpoint) (socket : SocketHandle) (channel : Option HandleId) :
    Option Server :=
  -- an error is replied
  if port = 0 then some s
  else do
    let s ← s.tcpListen port socket
    match channel with
    -- the socket is left behind
    | none => some s
    | some ch =>
      let s ← s.addChannel ch .tcpListen
      some { s with
        pcbs := update s.pcbs socket (some (.tcpListen ch port))
        clients := update s.clients ch (some ⟨port, 0⟩) }

/-- The handle in the context of a connection's channel, if its socket is
there. -/
def connOf : Option SocketHandle :=
  match s.items ch with
  | some (.tcpConn handle) => if (s.sockets handle).isSome then some handle else none
  | _ => none

/-- `ChannelWritable` on a connection. -/
def onConnWritable (drain : DrainResult) : Option Server := do
  let handle ← s.connOf ch
  let s := { s with readBlocked := s.readBlocked.erase handle }
  let s ← s.drainSocketToCh ch drain
  match drain with
  | .ok => some s
  | .backpressure => some { s with readBlocked := s.readBlocked.insert handle }

/-- `ChannelReadable` on a connection. -/
def onConnReadable (drain : DrainResult) : Option Server := do
  let handle ← s.connOf ch
  match drain with
  | .ok => some s
  | .backpressure =>
    let s ← s.listen ch
    some { s with writeBlocked := s.writeBlocked.insert handle }

/-- `ChannelClosed` on a connection. -/
def onConnClosed (drain : DrainResult) : Option Server := do
  let handle ← s.connOf ch
  let s := { s with readBlocked := s.readBlocked.erase handle }
  match drain with
  | .ok =>
    let s := { s with writeBlocked := s.writeBlocked.erase handle }
    s.tcpClose handle
  | .backpressure =>
    some { s with
      writeBlocked := s.writeBlocked.insert handle
      pendingClose := s.pendingClose.insert handle }

/-- What happens: the two loops of the server, the events it handles, and
what clients do with their end of a listen channel. -/
inductive Op
  | poll (changes : List (SocketHandle × Change))
  | retry (drain : SocketHandle → DrainResult)
  | openListen (port : Endpoint) (socket : SocketHandle) (channel : Option HandleId)
  | connect (ch : HandleId)
  | openDevice (ch : HandleId)
  | controlClosed (ch : HandleId)
  | connWritable (ch : HandleId) (drain : DrainResult)
  | connReadable (ch : HandleId) (drain : DrainResult)
  | connClosed (ch : HandleId) (drain : DrainResult)
  | clientRecv (ch : HandleId)
  | clientClose (ch : HandleId)

/-- What an operation does. -/
def step : Op → Option Server
  | .poll changes =>
    if s.reportable changes then (s.stackPolled changes).applyChanges changes else none
  | .retry drain =>
    let blocked := s.writeBlocked
    let s := { s with writeBlocked := [] }
    s.retryAll drain blocked
  | .openListen port socket channel => s.handleTcpListenOpen port socket channel
  | .connect ch => s.addChannel ch .control
  | .openDevice ch => s.addChannel ch .driver
  | .controlClosed ch => if s.items ch = some .control then s.removeItem ch else none
  | .connWritable ch drain => s.onConnWritable ch drain
  | .connReadable ch drain => s.onConnReadable ch drain
  | .connClosed ch drain => s.onConnClosed ch drain
  | .clientRecv ch =>
    match s.clients ch with
    | some ⟨endpoint, queued + 1⟩ =>
      some { s with clients := update s.clients ch (some ⟨endpoint, queued⟩) }
    | _ => none
  | .clientClose ch =>
    if (s.clients ch).isSome then some { s with clients := update s.clients ch none }
    else none

/-- The server, in any environment. -/
def machine : Machine Server Op := ⟨step⟩

/-- The start: the system channel and the timer are in the event loop. -/
def boot (systemCh timer : HandleId) : Server where
  sockets := fun _ => none
  pcbs := fun _ => none
  items := update (update (fun _ => none) systemCh (some .startup)) timer
    (some .timer)
  writeBlocked := []
  readBlocked := []
  pendingClose := []
  clients := fun _ => none

/-! ## What the server owes its clients -/

/-- **Every client is served**: as long as it keeps its listen channel,
there is exactly one socket that listens at its endpoint and whose
control block holds the channel, and the channel is in the event loop. -/
def Served : Prop :=
  ∀ ch client, s.clients ch = some client →
    (∃! handle, s.sockets handle = some (.listening client.endpoint) ∧
      s.pcbs handle = some (.tcpListen ch client.endpoint)) ∧
    s.items ch = some .tcpListen

/-- **Every accept is passed on**: where a connection is accepted for a
client that keeps its listen channel, a channel can be created, the
kernel has memory for a message, and the client's queue is not full. -/
def PassesOn : Op → Prop
  | .poll changes => ∀ handle grant ch endpoint client, (handle, Change.accepted grant) ∈ changes →
    s.pcbs handle = some (.tcpListen ch endpoint) → s.clients ch = some client →
    grant.channel.isSome ∧ grant.reserve = true ∧ client.queued < queueLenMax
  | _ => True

end Server

end Archives.Ftl.Tcpip
