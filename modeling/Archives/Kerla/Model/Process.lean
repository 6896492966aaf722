import Mathlib.Data.List.Dedup
import Mathlib.Logic.Function.Iterate
import Archives.Common.Machine
import Archives.Kerla.Model.Path
/-!
# Kerla — processes and the scheduler

`kernel/process/{process,fork,signal,scheduler,switch,wait_queue,process_group}.rs`
and the system calls that use them. The kernel runs on one processor, and
with interrupts disabled from the entry of a system call or an interrupt
up to the next `switch()`; what it does in between is one step.

An `Arc<SpinLock<Process>>` is an address. A `Weak` is an address, too,
and can be upgraded while the object is held somewhere: by the process
table, the current process, the idle thread, a wait queue, or a process
that is itself held and has it among its children. The kernel is built
with overflow checks and without debug assertions.
-/

namespace Archives.Kerla

open Function

/-- Why the kernel panics. -/
inductive Panic
  /-- The first process exits. -/
  | initExit
  /-- An `unwrap` of `None`. -/
  | unwrapNone
  /-- A `todo!()`. -/
  | todo
  /-- An index out of bounds. -/
  | outOfBounds
  /-- A loop that is never left. -/
  | hang
  deriving DecidableEq, Repr

/-- `PId`, the value of an `i32`. -/
abbrev PId := Int

/-- `PgId`, the value of an `i32`. -/
abbrev PgId := Int

/-- The address of an object. -/
abbrev Addr := Nat

/-! ## Signals -/

/-- `Signal`, the value of an `i32`. -/
abbrev Signal := Int

def SIGINT : Signal := 2

def SIGCHLD : Signal := 17

def SIGMAX : Signal := 32

/-- `SigAction`. The address of the handler is not used. -/
inductive SigAction
  | ignore
  | terminate
  | handler
  deriving DecidableEq, Repr

/-- `DEFAULT_ACTIONS`: `SIGINT` terminates, the others are ignored. -/
def defaultAction (signal : Signal) : SigAction := if signal = SIGINT then .terminate else .ignore

structure SignalDelivery where
  pending : BitVec 32
  actions : Signal → SigAction

namespace SignalDelivery

def new : SignalDelivery where
  pending := 0
  actions := defaultAction

variable (s : SignalDelivery)

/-- `SignalDelivery::set_action`. The check lets one signal through that
the array has no place for, and the negative ones. -/
def setAction (signal : Signal) (action : SigAction) : Except Panic (Except Errno SignalDelivery) :=
  if SIGMAX < signal then .ok (.error .einval)
  else if signal < 0 ∨ SIGMAX ≤ signal then .error .outOfBounds
  else .ok (.ok { s with actions := update s.actions signal action })

def isPending : Bool := s.pending ≠ 0

/-- `u32::trailing_zeros` of the pending signals, if there are any. -/
def lowest : Option Nat := (List.range 32).find? fun i => s.pending.getLsbD i

def popPending : Option ((Signal × SigAction) × SignalDelivery) :=
  s.lowest.map fun (i : Nat) =>
    (((i : Int), s.actions i), { s with pending := s.pending &&& ~~~ (1#32 <<< i) })

def signal (signal : Signal) : SignalDelivery :=
  { s with pending := s.pending ||| (1#32 <<< signal.toNat) }

end SignalDelivery

/-! ## The state -/

inductive ProcessState
  | runnable
  | blockedSignalable
  | exitedWith (status : Int)
  deriving DecidableEq, Repr

def ProcessState.isExited : ProcessState → Bool
  | .exitedWith _ => true
  | _ => false

/-- The wait queues other than the one for exited children. -/
inductive EventQueue
  | poll
  | socket
  | pipe
  | tty (n : Nat)
  | pty (n : Nat)
  deriving DecidableEq, Repr

inductive WaitQueue
  /-- `JOIN_WAIT_QUEUE`. -/
  | join
  | event (queue : EventQueue)
  deriving DecidableEq, Repr

/-- What a process that is in `sleep_signalable_until` does there. -/
inductive Sleep
  | wait4 (pid : PId) (nohang : Bool)
  | event (queue : EventQueue)
  deriving DecidableEq, Repr

/-- The wait queue a process sleeps on. -/
def Sleep.queue : Sleep → WaitQueue
  | .wait4 _ _ => .join
  | .event queue => .event queue

/-- Where a process is. -/
inductive Mode
  /-- In user mode, or in the loop of the idle thread. -/
  | user
  /-- In the loop of `sleep_signalable_until`. -/
  | sleeping (sleep : Sleep)
  /-- At the end of a system call, before `try_delivering_signal`. -/
  | returning
  deriving DecidableEq, Repr

/-- `Process`, and where it is. -/
structure Process where
  pid : PId
  state : ProcessState
  mode : Mode
  parent : Option Addr
  children : List Addr
  processGroup : Addr
  signals : SignalDelivery
  /-- There is a `signaled_frame`. -/
  signaled : Bool

structure ProcessGroup where
  pgid : PgId
  processes : List Addr

structure Kernel where
  /-- The processes at addresses from here on were not created yet. -/
  size : Nat
  process : Addr → Process
  groupSize : Nat
  group : Addr → ProcessGroup
  processes : Std.ExtTreeMap PId Addr
  processGroups : Std.ExtTreeMap PgId Addr
  runQueue : List PId
  /-- All wait queues in one list; those of one queue are in its order. -/
  waiters : List (WaitQueue × Addr)
  current : Addr
  /-- `IDLE_THREAD`. -/
  idle : Addr
  nextPid : Int
  /-- The foreground process group of each terminal. -/
  foreground : Nat → Option Addr

namespace Kernel

variable (k : Kernel)

/-! ## References -/

/-- The objects held by the kernel itself. -/
def roots : List Addr :=
  k.current :: k.idle :: (k.processes.values ++ k.waiters.map Prod.snd)

/-- The objects, and their children. -/
def withChildren (children : Addr → List Addr) (held : List Addr) : List Addr :=
  (held ++ held.flatMap children).dedup

/-- **The objects that are held.** A chain of children is not longer than
there are processes. -/
def held : List Addr := (withChildren fun a => (k.process a).children)^[k.size] k.roots

variable (a : Addr)

/-- `Weak::upgrade` of a reference to a process succeeds. -/
def upgrades : Bool := a ∈ k.held

/-- `Weak::upgrade` of a reference to a process group succeeds: groups
are held by the table only. -/
def groupUpgrades (g : Addr) : Bool := k.processGroups[(k.group g).pgid]? = some g

/-- Changes the process at an address. -/
def modify (f : Process → Process) : Kernel :=
  { k with process := update k.process a (f (k.process a)) }

/-- Changes the process group at an address. -/
def modifyGroup (g : Addr) (f : ProcessGroup → ProcessGroup) : Kernel :=
  { k with group := update k.group g (f (k.group g)) }

/-- Moves the current process on. -/
def setMode (mode : Mode) : Kernel := k.modify k.current fun p => { p with mode := mode }

/-- `impl Drop for Process`, for all objects that are not held any more:
`ProcessGroup::remove_dropped_processes` in their groups. -/
def dropProcesses : Kernel :=
  let members g := (k.group g).processes.filter fun a => k.upgrades a
  { k with
    group := fun g => { k.group g with processes := members g }
    processGroups := k.processGroups.filter fun _ g =>
      members g ≠ [] ∨ (k.group g).processes = [] }

/-! ## The scheduler -/

variable (pid : PId)

def enqueue : Kernel := { k with runQueue := k.runQueue ++ [pid] }

def remove : Kernel := { k with runQueue := k.runQueue.filter (· ≠ pid) }

def setState (state : ProcessState) : Kernel :=
  let k' := k.modify a fun p => { p with state := state }
  match state with
  | .runnable => k'
  | .blockedSignalable | .exitedWith _ => k'.remove (k.process a).pid

def resume : Kernel :=
  if (k.process a).state = .runnable then k
  else (k.setState a .runnable).enqueue (k.process a).pid

def sendSignal (signal : Signal) : Kernel :=
  (k.modify a fun p => { p with signals := p.signals.signal signal }).resume a

def switch : Except Panic Kernel :=
  let prev := k.process k.current
  -- a process that can still run goes to the back of the queue
  let k := if prev.pid ≠ 0 ∧ prev.state = .runnable then k.enqueue prev.pid else k
  match k.runQueue with
  | [] => .ok { k with current := k.idle }
  | pid :: rest =>
    match k.processes[pid]? with
    | none => .error .unwrapNone
    | some a => .ok { k with runQueue := rest, current := a }

/-! ## Wait queues -/

variable (queue : WaitQueue)

/-- The processes in a wait queue. -/
def waiting : List Addr :=
  (k.waiters.filter fun w => w.1 = queue).map Prod.snd

/-- The current process at the back of a wait queue. -/
def pushWaiter : Kernel :=
  { k with waiters := k.waiters ++ [(queue, k.current)] }

/-- The current process taken out of a wait queue. -/
def leaveQueue : Kernel :=
  { k with waiters := k.waiters.filter (· ≠ (queue, k.current)) }

def wakeAll : Kernel :=
  let k' := (k.waiting queue).foldl resume k
  { k' with waiters := k'.waiters.filter fun w => w.1 ≠ queue }

/-! ## Exit -/

/-- The parent is told, if its object is still there. -/
def notifyParent : Kernel :=
  match (k.process a).parent with
  | some parent => if k.upgrades parent then k.sendSignal parent SIGCHLD else k
  | none => k

/-- **`Process::exit`**, of the current process. -/
def exit (status : Int) : Except Panic Kernel :=
  let pid := (k.process k.current).pid
  if pid = 1 then .error .initExit
  else
    let k := k.setState k.current (.exitedWith status)
    let k := k.notifyParent k.current
    let k := { k with processes := k.processes.erase pid }
    (k.wakeAll .join).switch

/-- `Process::exit_by_signal`, of the current process. -/
def exitBySignal : Except Panic Kernel := k.exit 1

/-! ## Sleeping -/

/-- What the closure given to `sleep_signalable_until` does. -/
inductive Check (α : Type)
  /-- It gives a result, or an error. -/
  | ready (result : Except Errno α)
  | notYet
  /-- It touches user memory that is not there, and the page fault kills
  the process. -/
  | fault

/-- **One turn of the loop of `WaitQueue::sleep_signalable_until`**: the
result, if the loop is left. -/
def sleepSignalableUntil {α : Type} (sleep : Sleep) (check : Kernel → Except Panic (Check α)) :
    Except Panic (Kernel × Option (Except Errno α)) := do
  let k := k.setMode (.sleeping sleep)
  let k := k.setState k.current .blockedSignalable
  let k := k.pushWaiter sleep.queue
  if (k.process k.current).signals.isPending then
    pure ((k.resume k.current).leaveQueue sleep.queue, some (.error .eintr))
  else
    match ← check k with
    | .ready result => pure ((k.resume k.current).leaveQueue sleep.queue, some result)
    | .notYet => do
      let k ← k.switch
      pure (k, none)
    | .fault => do
      let k ← k.exitBySignal
      pure (k, none)

/-- The loop of `sys_wait4` over the children: an exited one that is
waited for. -/
def findExited (pid : PId) : List Addr → Except Panic (Option (PId × Int))
  | [] => .ok none
  | a :: rest =>
    let child := k.process a
    if 0 < pid ∧ child.pid ≠ pid then findExited pid rest
    else if pid = 0 then .error .todo
    else
      match child.state with
      | .exitedWith status => .ok (some (child.pid, status))
      | _ => findExited pid rest

/-- The closure of `sys_wait4`. -/
def checkChildren (nohang : Bool) (k : Kernel) : Except Panic (Check (PId × Int)) := do
  match ← k.findExited pid (k.process k.current).children with
  | some found => pure (.ready (.ok found))
  | none => pure (if nohang then .ready (.ok (0, 0)) else .notYet)

/-- The children of the current process, except those with the given
id. -/
def evict : Kernel :=
  k.modify k.current fun p =>
    { p with children := p.children.filter fun a => (k.process a).pid ≠ pid }

/-- **`sys_wait4`**, one turn of its loop. -/
def sysWait4 (nohang : Bool) : Except Panic Kernel := do
  match ← k.sleepSignalableUntil (.wait4 pid nohang) (checkChildren pid nohang) with
  | (k, none) => pure k
  | (k, some (.error _)) => pure (k.setMode .returning)
  | (k, some (.ok (gotPid, _))) => pure ((k.evict gotPid).setMode .returning)

/-- A system call that sleeps until something happens (`read`, `write`,
`poll`, `select`, `accept`, `connect`, `recvfrom`), one turn of its loop;
what its closure does is given. -/
def sysSleep (queue : EventQueue) (check : Check Unit) : Except Panic Kernel := do
  match ← k.sleepSignalableUntil (.event queue) fun _ => pure check with
  | (k, none) => pure k
  | (k, some _) => pure (k.setMode .returning)

/-! ## Fork -/

/-- `AtomicI32::fetch_add(1)`, the new value. -/
def wrappingSucc (n : Int) : Int := if n = 0x7fffffff then -0x80000000 else n + 1

/-- The loop of `alloc_pid`: the id, if one is found, and `NEXT_PID`. -/
def allocPidLoop (table : Std.ExtTreeMap PId Addr) (last : PId) :
    Nat → Int → Except Panic (Except Errno PId × Int)
  | 0, _ => .error .hang
  | fuel + 1, pid =>
    if pid ≤ 1 then allocPidLoop table last fuel (wrappingSucc pid)
    else if ¬ table.contains pid then .ok (.ok pid, wrappingSucc pid)
    else if pid = last then .ok (.error .eagain, wrappingSucc pid)
    else allocPidLoop table last fuel (wrappingSucc pid)

/-- `alloc_pid`. After as many turns as there are values of an `i32` the
loop is at a value it has seen. -/
def allocPid : Except Panic (Except Errno PId × Int) :=
  allocPidLoop k.processes k.nextPid 0x100000001 k.nextPid

/-- The process that `fork` makes. -/
def forked (parent : Addr) (pid : PId) : Process where
  pid := pid
  state := .runnable
  mode := .user
  parent := some parent
  children := []
  processGroup := (k.process parent).processGroup
  signals := .new
  signaled := false

/-- **`fork`**, by the current process. Copying the thread and its memory
may fail. -/
def fork (memory : Bool) : Except Panic (Except Errno PId × Kernel) := do
  let (result, nextPid) ← k.allocPid
  let k := { k with nextPid := nextPid }
  match result with
  | .error e => pure (.error e, k)
  | .ok pid =>
    if ¬ memory then pure (.error .enomem, k)
    else
      let child := k.size
      let k := { k with
        size := k.size + 1
        process := update k.process child (k.forked k.current pid) }
      let g := (k.process k.current).processGroup
      if ¬ k.groupUpgrades g then .error .unwrapNone
      else
        let k := k.modifyGroup g fun g => { g with processes := g.processes ++ [child] }
        let k := k.modify k.current fun p => { p with children := p.children ++ [child] }
        let k := { k with processes := k.processes.insert pid child }
        pure (.ok pid, k.enqueue pid)

/-! ## Process groups -/

variable (pgid : PgId)

/-- `ProcessGroup::new`: the group and its address. -/
def newGroup : Addr × Kernel :=
  (k.groupSize, { k with
    groupSize := k.groupSize + 1
    group := update k.group k.groupSize { pgid := pgid, processes := [] }
    processGroups := k.processGroups.insert pgid k.groupSize })

def findOrCreateByPgid : Addr × Kernel :=
  match k.processGroups[pgid]? with
  | some g => (g, k)
  | none => k.newGroup pgid

/-- `ProcessGroup::remove`. -/
def removeMember (g a : Addr) : Kernel :=
  let members := (k.group g).processes.filter (· ≠ a)
  let k' := k.modifyGroup g fun g => { g with processes := members }
  if members = [] then { k' with processGroups := k'.processGroups.erase (k.group g).pgid } else k'

/-- `sys_setpgid`, once the process is found. -/
def joinGroup : Except Panic Kernel :=
  let (new, k) := k.findOrCreateByPgid pgid
  let old := (k.process a).processGroup
  if ¬ k.groupUpgrades old then .error .unwrapNone
  else if old = new then .ok k
  else
    let k := k.removeMember old a
    let k := k.modifyGroup new fun g => { g with processes := g.processes ++ [a] }
    .ok (k.modify a fun p => { p with processGroup := new })

def sysSetpgid : Except Panic (Except Errno PgId × Kernel) := do
  match if pid = 0 then some k.current else k.processes[pid]? with
  | none => pure (.error .esrch, k)
  | some a => do
    let k ← k.joinGroup a pgid
    pure (.ok pgid, k)

/-- `TIOCSPGRP`. -/
def setForegroundProcessGroup (tty : Nat) (pgid : PgId) : Except Errno Unit × Kernel :=
  match k.processGroups[pgid]? with
  | none => (.error .esrch, k)
  | some g => (.ok (), { k with foreground := update k.foreground tty (some g) })

/-- **`ProcessGroup::signal`.** -/
def signalGroup (g : Addr) (signal : Signal) : Except Panic Kernel :=
  (k.group g).processes.foldlM (fun k a =>
    if k.upgrades a then .ok (k.sendSignal a signal) else .error .unwrapNone) k

/-- A character in `LineDiscipline::write`: `^C` is for the foreground
process group. -/
def inputChar (tty : Nat) (cooked : Bool) (c : Char) : Except Panic Kernel :=
  if c = '\x03' ∧ cooked then
    match k.foreground tty with
    | some g => if k.groupUpgrades g then k.signalGroup g SIGINT else .ok k
    | none => .ok k
  else .ok k

/-- `LineDiscipline::write`. -/
def ttyWrite (tty : Nat) (cooked : Bool) (chars : List Char) : Except Panic Kernel := do
  let k ← chars.foldlM (fun k c => k.inputChar tty cooked c) k
  pure (k.wakeAll (.event (.tty tty)))

/-! ## Signal delivery -/

/-- **`Process::try_delivering_signal`**, of the current process, at the
end of a system call. -/
def tryDeliveringSignal : Except Panic Kernel :=
  match (k.process k.current).signals.popPending with
  | none => .ok (k.setMode .user)
  | some ((_, action), signals) =>
    let k := k.modify k.current fun p => { p with signals := signals }
    match action with
    | .ignore => .ok (k.setMode .user)
    | .terminate => k.exit 1
    | .handler => .ok ((k.modify k.current fun p => { p with signaled := true }).setMode .user)

/-- What `sys_rt_sigaction` is asked for. -/
inductive Disposition
  | ignore
  | default
  | handler
  deriving DecidableEq, Repr

def sysRtSigaction (signum : Signal) (act : Disposition) :
    Except Panic (Except Errno Unit × Kernel) :=
  if act = .default ∧ (signum < 0 ∨ SIGMAX ≤ signum) then .ok (.error .einval, k)
  else do
    let action : SigAction := match act with
      | .ignore => .ignore
      | .default => defaultAction signum
      | .handler => .handler
    match ← (k.process k.current).signals.setAction signum action with
    | .error e => pure (.error e, k)
    | .ok signals => pure (.ok (), k.modify k.current fun p => { p with signals := signals })

def sysRtSigreturn : Except Panic Kernel :=
  if (k.process k.current).signaled then
    .ok ((k.modify k.current fun p => { p with signaled := false }).setMode .returning)
  else k.exitBySignal

/-- `Process::execve`, once the executable is loaded. -/
def execve : Kernel := k.modify k.current fun p => { p with signaled := false }

/-! ## The machine -/

/-- The system calls. -/
inductive Syscall
  | fork (memory : Bool)
  | exit (status : Int)
  | wait4 (pid : PId) (nohang : Bool)
  | setpgid (pid : PId) (pgid : PgId)
  | tiocspgrp (tty : Nat) (pgid : PgId)
  | rtSigaction (signum : Signal) (act : Disposition)
  | rtSigreturn
  | execve
  /-- A call that may have to wait for an event. -/
  | sleep (queue : EventQueue) (check : Check Unit)
  /-- A call that makes events happen. -/
  | wake (queue : EventQueue)
  /-- A write to the master side of a terminal. -/
  | ttyWrite (tty : Nat) (cooked : Bool) (chars : List Char)

/-- What may happen next. -/
inductive Action
  /-- The current process makes a system call. -/
  | syscall (call : Syscall)
  /-- The current process goes on with its sleep; `check` is what the
  closure does, if it waits for an event. -/
  | awaken (check : Check Unit)
  /-- `try_delivering_signal` at the end of a system call. -/
  | deliver
  /-- A page fault that kills the current process. -/
  | fault
  /-- The timer interrupt that preempts the current process. -/
  | preempt
  /-- An interrupt that wakes a wait queue. -/
  | irqWake (queue : EventQueue)
  /-- An interrupt with input for a terminal. -/
  | irqInput (tty : Nat) (cooked : Bool) (chars : List Char)

/-- `SyscallHandler::do_dispatch`, by the current process. What a call
returns goes to the process, which may do anything next. -/
def dispatch : Syscall → Except Panic Kernel
  | .fork memory => do
    let (_, k) ← k.fork memory
    pure (k.setMode .returning)
  | .exit status => k.exit status
  | .wait4 pid nohang => k.sysWait4 pid nohang
  | .setpgid pid pgid => do
    let (_, k) ← k.sysSetpgid pid pgid
    pure (k.setMode .returning)
  | .tiocspgrp tty pgid => pure ((k.setForegroundProcessGroup tty pgid).2.setMode .returning)
  | .rtSigaction signum act => do
    let (_, k) ← k.sysRtSigaction signum act
    pure (k.setMode .returning)
  | .rtSigreturn => k.sysRtSigreturn
  | .execve => pure (k.execve.setMode .returning)
  | .sleep queue check => k.sysSleep queue check
  | .wake queue => pure ((k.wakeAll (.event queue)).setMode .returning)
  | .ttyWrite tty cooked chars => do
    let k ← k.ttyWrite tty cooked chars
    pure (k.setMode .returning)

/-- What an action does, in the mode the current process is in. The idle
thread makes no system calls. -/
def perform : Mode → Action → Option (Except Panic Kernel)
  | .user, .syscall call => if k.current = k.idle then none else some (k.dispatch call)
  | .user, .fault => if k.current = k.idle then none else some k.exitBySignal
  | .user, .preempt => some k.switch
  | .user, .irqWake queue => some (.ok (k.wakeAll (.event queue)))
  | .user, .irqInput tty cooked chars => some (k.ttyWrite tty cooked chars)
  | .sleeping (.wait4 pid nohang), .awaken _ => some (k.sysWait4 pid nohang)
  | .sleeping (.event queue), .awaken check => some (k.sysSleep queue check)
  | .returning, .deliver => some k.tryDeliveringSignal
  | _, _ => none

def machine : Machine Kernel Action where
  step k action :=
    match k.perform (k.process k.current).mode action with
    | some (.ok k) => some k.dropProcesses
    | _ => none

/-- The kernel after `process::init` and `new_init_process`, before it
switches to the first process. -/
def boot : Kernel where
  size := 2
  process a := {
    pid := a
    -- what lies at the other addresses is not looked at
    state := if a < 2 then .runnable else .exitedWith 0
    mode := .user
    parent := none
    children := []
    processGroup := a
    signals := .new
    signaled := false }
  groupSize := 2
  group g := { pgid := g, processes := [g] }
  processes := (∅ : Std.ExtTreeMap PId Addr).insert 1 1
  processGroups := ((∅ : Std.ExtTreeMap PgId Addr).insert 0 0).insert 1 1
  runQueue := [1]
  waiters := []
  current := 0
  idle := 0
  nextPid := 2
  foreground tty := if tty = 0 then some 1 else none

/-! ## The run queue -/

def Exited (a : Addr) : Prop := (k.process a).state.isExited = true
deriving Decidable

/-- **The run queue is sound**: every id in it is that of a registered
process that is runnable. -/
def RunQueueSound : Prop :=
  ∀ pid ∈ k.runQueue, ∃ a, k.processes[pid]? = some a ∧ (k.process a).pid = pid ∧
    (k.process a).state = .runnable

/-- The parent of the current process has not exited, if its object is
still there. -/
def ParentRuns : Prop :=
  ∀ parent ∈ (k.process k.current).parent, k.upgrades parent = true → ¬ k.Exited parent
deriving Decidable

/-- No process in the wait queue has exited. -/
def WaitersRun (queue : EventQueue) : Prop := ∀ a ∈ k.waiting (.event queue), ¬ k.Exited a
deriving Decidable

/-- No member of the foreground process group has exited. -/
def ForegroundRuns (tty : Nat) : Prop :=
  ∀ g ∈ k.foreground tty, k.groupUpgrades g = true → ∀ a ∈ (k.group g).processes, ¬ k.Exited a
deriving Decidable

/-- `^C` is typed, and means an interrupt. -/
def interrupts (cooked : Bool) (chars : List Char) : Bool := cooked && chars.contains '\x03'

/-- The next signal to be delivered terminates the current process. -/
def isTerminated : Bool :=
  (k.process k.current).signals.popPending.any fun s => s.1.2 = .terminate

/-- **No exited process is resumed.** Where the current process exits,
its parent has not; where a wait queue is woken, no process in it has;
where a process group is interrupted, no member of it has. -/
def ResumesNoExited (k : Kernel) : Action → Prop
  | .syscall (.exit _) | .fault => k.ParentRuns
  | .syscall .rtSigreturn => (k.process k.current).signaled = false → k.ParentRuns
  | .syscall (.sleep _ .fault) | .awaken .fault =>
    (k.process k.current).signals.isPending = false → k.ParentRuns
  | .deliver => k.isTerminated = true → k.ParentRuns
  | .syscall (.wake queue) | .irqWake queue => k.WaitersRun queue
  | .syscall (.ttyWrite tty cooked chars) | .irqInput tty cooked chars =>
    (interrupts cooked chars = true → k.ForegroundRuns tty) ∧ k.WaitersRun (.tty tty)
  | _ => True

instance (k : Kernel) (action : Action) : Decidable (k.ResumesNoExited action) := by
  unfold ResumesNoExited
  split <;> infer_instance

end Kernel

end Archives.Kerla
