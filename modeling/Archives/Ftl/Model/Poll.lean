import Archives.Ftl.Model.Kernel
/-!
# FTL — polls, emitters and the scheduler

What `kernel/src/{poll,thread,scheduler}.rs` do: an emitter reports its
events to the polls that listen, a poll keeps the ids with events to
report and the threads that wait for one, and the scheduler polls a
blocked thread again when it takes it from the run queue.

The machine has one CPU and the kernel runs with interrupts off, so a
lock is never contended; locks are left out.
-/

namespace Archives.Ftl.Kernel

variable (k : Kernel)

/-- `Thread::unblock`: the thread goes to the run queue, still blocked;
its promise is polled when it is taken from there. -/
def unblock (t : Addr) : Kernel :=
  { k with runqueue := k.runqueue ++ [t] }

/-- The change `Poll::notify` makes to the poll: the events are added
to the object, its id is queued unless it was, and the first waiter is
taken out. -/
def notified (poll : Poll) (id : HandleId) (object : PollObject) (events : Readiness) : Poll where
  objects := poll.objects.insert id { object with ready := object.ready ||| events }
  readyQueue := if object.ready = 0 then poll.readyQueue ++ [id] else poll.readyQueue
  waiters := poll.waiters.tail

variable (p : Addr) (id : HandleId)

/-- `Poll::notify`. It wakes one waiter only. -/
def notify (events : Readiness) : Kernel :=
  match (k.polls p).objects[id]? with
  | none => k
  | some object =>
    let k' := k.setPoll p (notified (k.polls p) id object events)
    match (k.polls p).waiters.head? with
    | none => k'
    | some waiter => k'.unblock waiter

/-- Reports to one listener what it is interested in. -/
def notifyListener (latest : Readiness) (k : Kernel) (l : Listener) : Kernel :=
  if l.interests &&& latest = 0 then k else k.notify l.poll l.handleId (l.interests &&& latest)

def notifyAll (e : Addr) : Kernel :=
  (k.emitters e).listeners.values.foldl (notifyListener (k.emitters e).latest) k

def emitterSet (e : Addr) (mask : Readiness) : Kernel :=
  (k.setEmitter e { k.emitters e with latest := (k.emitters e).latest ||| mask }).notifyAll e

/-- `PollEmitter::clear`. It reports what still holds, too. -/
def emitterClear (e : Addr) (mask : Readiness) : Kernel :=
  (k.setEmitter e { k.emitters e with latest := (k.emitters e).latest &&& ~~~mask }).notifyAll e

/-- `PollEmitter::add_listener`. A poll has one listener on an emitter:
a second one takes the place of the first. -/
def addListener (e : Addr) (l : Listener) : Kernel :=
  let k := notifyListener (k.emitters e).latest k l
  k.setEmitter e
    { k.emitters e with listeners := (k.emitters e).listeners.insert l.poll l }

def removeListener (e p : Addr) : Kernel :=
  k.setEmitter e { k.emitters e with listeners := (k.emitters e).listeners.erase p }

def updateListener (e p : Addr) (orMask andMask : Readiness) : Kernel :=
  match (k.emitters e).listeners[p]? with
  | none => k
  | some l =>
    let l := { l with interests := l.interests &&& andMask ||| orMask }
    let k := k.setEmitter e
      { k.emitters e with listeners := (k.emitters e).listeners.insert p l }
    notifyListener (k.emitters e).latest k l

/-! ## The operations of a poll -/

def pollAdd (handle : AnyHandle) (interests : Readiness) : Sys Unit := do
  let k ← .state
  match handle.object.emitter with
  | none => .fail .notSupported
  | some e =>
    if (k.polls p).objects.contains id then .fail .alreadyExists
    let object : PollObject := { handle := handle, ready := 0 }
    .update fun k => k.setPoll p { k.polls p with objects := (k.polls p).objects.insert id object }
    .update (·.addListener e { poll := p, handleId := id, interests := interests })

/-- `Poll::update`. A registered handle has an emitter: `Poll::add`
checked it. -/
def pollUpdate (orMask andMask : Readiness) : Sys Unit := do
  let k ← .state
  match (k.polls p).objects[id]? with
  | none => .fail .notFound
  | some object =>
    match object.handle.object.emitter with
    | none => .stop .panic
    | some e => .update (·.updateListener e p orMask andMask)

/-- `Poll::remove`. The id may stay in the ready queue. -/
def pollRemove : Sys Unit := do
  let k ← .state
  match (k.polls p).objects[id]? with
  | none => .fail .notFound
  | some object =>
    .update fun k => k.setPoll p { k.polls p with objects := (k.polls p).objects.erase id }
    match object.handle.object.emitter with
    | none => .stop .panic
    | some e => .update (·.removeListener e p)

/-- The loop of `Poll::do_try_wait`: ids are taken from the ready queue
up to the first one that is still registered. -/
def popReady (objects : Std.ExtTreeMap HandleId PollObject) :
    List HandleId → Option (HandleId × PollObject) × List HandleId
  | [] => (none, [])
  | id :: rest =>
    match objects[id]? with
    | none => popReady objects rest
    | some object => (some (id, object), rest)

/-- Clears the emitter of an edge-triggered object, so that its event is
delivered once. -/
def clearEdge (object : Object) (readiness : Readiness) : Kernel :=
  match object.isEdgeTriggered, object.emitter with
  | true, some e => k.emitterClear e readiness
  | _, _ => k

/-- `Poll::do_try_wait`, and `Poll::try_wait`: the next event, if there
is one. -/
def tryWait : Option PollEvent × Kernel :=
  match popReady (k.polls p).objects (k.polls p).readyQueue with
  | (none, rest) => (none, k.setPoll p { k.polls p with readyQueue := rest })
  | (some (id, object), rest) =>
    let poll := k.polls p
    let objects := poll.objects.insert id { object with ready := 0 }
    let k := k.setPoll p { poll with objects := objects, readyQueue := rest }
    (some { handleId := id, readiness := object.ready },
      k.clearEdge object.handle.object object.ready)

/-- `Poll::wait` by the thread that runs, with the block that
`handle_syscall` does for it. -/
def pollWait : Option PollEvent × Kernel :=
  match k.tryWait p with
  | (some ev, k) => (some ev, k)
  | (none, k) =>
    let k := k.setPoll p { k.polls p with waiters := (k.polls p).waiters ++ [k.current] }
    (none, k.setState k.current (.blocked p))

/-! ## Threads -/

def threadExit (t : Addr) : Kernel :=
  (k.setState t .exited).emitterSet t Readiness.peerClosed

def threadClose (t : Addr) : Kernel :=
  match (k.threads t).state with
  | .exited | .destroyed => k
  | _ => (k.setState t .destroyed).emitterSet t Readiness.peerClosed

/-- How `schedule` ends. -/
inductive Scheduled
  /-- A thread goes on in user mode. -/
  | running (k : Kernel)
  /-- No thread to run. -/
  | idling (k : Kernel)

/-- The loop of `schedule` over the run queue. A blocked thread whose
promise is not fulfilled stays blocked and is not put back anywhere. -/
def pickNext (k : Kernel) : List Addr → Except Stop Scheduled
  | [] => .ok (.idling { k with runqueue := [] })
  | t :: rest =>
    let k := { k with runqueue := rest }
    match (k.threads t).state with
    | .runnable => .ok (.running { k with current := t })
    | .blocked p =>
      match k.tryWait p with
      | (some _, k) => .ok (.running { k.setState t .runnable with current := t })
      | (none, k) => pickNext k rest
    | .destroyed => pickNext k rest
    | .idle | .exited => .error .panic

/-- `schedule`: the current thread keeps running while it can. -/
def schedule : Except Stop Scheduled :=
  match (k.threads k.current).state with
  | .runnable => .ok (.running k)
  | _ => k.pickNext k.runqueue

end Archives.Ftl.Kernel
