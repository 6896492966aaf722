import Archives.Common.Machine
import Archives.Ftl.Model.Channel
/-!
# FTL — the two ends of a channel

A machine in which two connected channels are used, in any order and from
any process: messages are sent and received at either end and the ends
are closed, while the rest of the kernel does what it likes with
everything else. The machine remembers what was sent, what was taken out
of a queue and what was delivered, so that results can speak of whole
histories: a receive that fails after it took a message out drops it.
-/

namespace Archives.Ftl

inductive End
  | left
  | right
  deriving DecidableEq, Repr

namespace End

/-- The end at the other side. -/
def other : End → End
  | left => right
  | right => left

@[simp] theorem other_other (e : End) : e.other.other = e := by
  cases e <;> rfl

theorem other_ne (e : End) : e.other ≠ e := by
  cases e <;> exact nofun

theorem eq_or_eq_other (e f : End) : f = e ∨ f = e.other := by
  cases e <;> cases f <;> first | exact .inl rfl | exact .inr rfl

end End

/-- **The kernel with the history of a pair.** -/
structure Pair where
  kernel : Kernel
  /-- The messages sent from each end, those that were refused left out. -/
  sent : End → List MessageEntry
  /-- The messages taken out of the queue of each end. -/
  removed : End → List MessageEntry
  /-- Those of them whose receive succeeded. -/
  delivered : End → List MessageEntry

/-- What may happen next. -/
inductive PairAction
  /-- `Channel::send` at an end. -/
  | send (env : Env) (e : End) (entry : MessageEntry)
  /-- `Channel::try_recv` at an end, by the process `p`. -/
  | tryRecv (env : Env) (p : Addr) (e : End) (msgbuffer handles : IsolationSlice)
  /-- `Channel::close` of an end. -/
  | close (e : End)
  /-- Anything that leaves both ends alone. -/
  | elsewhere (k : Kernel)

namespace Kernel

/-- A channel and the readiness of its emitter are the same in both
states. -/
def LeavesAlone (k k' : Kernel) (c : Addr) : Prop :=
  k'.channels c = k.channels c ∧ (k'.emitters c).latest = (k.emitters c).latest
deriving Decidable

/-- The message `try_recv` takes out of the queue. -/
def taken (k : Kernel) (c : Addr) : List MessageEntry :=
  match (popMessage c).run k with
  | .ok (.ok entry, _) => [entry]
  | _ => []

/-- **The receiver can take the message**: its table has room for the
handles, and what is written to its buffers arrives. -/
structure Accepts (env : Env) (k : Kernel) (p : Addr) (msgbuffer handles : IsolationSlice)
    (entry : MessageEntry) : Prop where
  room : (k.processes p).handles.size + entry.handles.length ≤ numHandlesMax
  ids : ∀ i < entry.handles.length, ∀ id : HandleId,
    handles.writeBytes env (i * 4) id.toBytes = .ok ()
  data : msgbuffer.writeBytes env 0 (entry.data.take entry.msginfo.dataLen) = .ok ()

end Kernel

namespace Pair

open Kernel Function

/-- **The machine** of the two ends at the given addresses. -/
def machine (ends : End → Addr) : Machine Pair PairAction where
  step
    | s, .send env e entry =>
      match (channelSend env (ends e) entry.msginfo entry.data entry.handles).run s.kernel with
      | .ok (.ok _, k) =>
        some { s with kernel := k, sent := update s.sent e (s.sent e ++ [entry]) }
      | .ok (.error _, k) => some { s with kernel := k }
      | .error _ => none
    | s, .tryRecv env p e msgbuffer handles =>
      match (Kernel.tryRecv env p (ends e) msgbuffer handles).run s.kernel with
      | .ok (r, k) =>
        let taken := s.kernel.taken (ends e)
        some { s with
          kernel := k
          removed := update s.removed e (s.removed e ++ taken)
          delivered := if r.isOk then update s.delivered e (s.delivered e ++ taken)
            else s.delivered }
      | .error _ => none
    | s, .close e => some { s with kernel := s.kernel.channelClose (ends e) }
    | s, .elsewhere k =>
      if LeavesAlone s.kernel k (ends .left) ∧ LeavesAlone s.kernel k (ends .right) then
        some { s with kernel := k }
      else none

/-- Where `Channel::new` puts the ends. -/
def newEnds (k : Kernel) : End → Addr
  | .left => k.next
  | .right => k.next + 1

/-- The state after `Channel::new`. -/
def start (k : Kernel) : Pair where
  kernel := k.channelNew
  sent := fun _ => []
  removed := fun _ => []
  delivered := fun _ => []

variable (ends : End → Addr) (s : Pair) (e : End)

/-- The messages waiting at an end. -/
def queue : List MessageEntry := (s.kernel.channels (ends e)).queue

/-- Whom an end is connected with. -/
def peer : Option Addr := (s.kernel.channels (ends e)).peer

/-- The readiness of an end. -/
def latest : Readiness := (s.kernel.emitters (ends e)).latest

/-- **What a pair owes the receiver at an end**, whatever receives do. -/
structure Delivers : Prop where
  /-- What was taken out came in the order it was sent in. -/
  inOrder : s.removed e <+: s.sent e.other
  bounded : (s.queue ends e).length ≤ queueLenMax
  /-- An end is connected with the other end or not at all. -/
  linked : ∀ a, s.peer ends e = some a → a = ends e.other
  symmetric : s.peer ends e = some (ends e.other) ↔ s.peer ends e.other = some (ends e)

/-- **A receiver is told that there is no peer only when everything that
was sent to it has been delivered**; the first block of `try_recv` tells
it. -/
def DeliversAll : Prop :=
  ∀ k, (popMessage (ends e)).run s.kernel = .ok (.error .noPeer, k) →
    s.delivered e = s.sent e.other

/-- **The action drops no message**: a receive that finds one can take
it. -/
def DropsNone : PairAction → Prop
  | .tryRecv env p e msgbuffer handles =>
    ∀ entry ∈ (s.queue ends e).head?, Accepts env s.kernel p msgbuffer handles entry
  | _ => True

/-- **What the readiness of an end says**: there is a message to receive,
and a message sent from here would find room at the other end. -/
structure Ready : Prop where
  readable : s.latest ends e &&& Readiness.readable ≠ 0 ↔ s.queue ends e ≠ []
  writable : s.latest ends e &&& Readiness.writable ≠ 0 ↔
    (s.queue ends e.other).length < queueLenMax

/-- Both ends stay open. -/
def StaysOpen : PairAction → Prop
  | .close _ => False
  | _ => True

/-- **The action fills no queue**: a send that could be queued leaves
room for one more message. -/
def FillsNone : PairAction → Prop
  | .send env e _ => ∀ peer, HasRoom env s.kernel (ends e) peer →
      (s.kernel.channels peer).queue.length + 1 < queueLenMax
  | _ => True

instance (a : PairAction) : Decidable (StaysOpen a) := by
  cases a <;> unfold StaysOpen <;> infer_instance

instance : (a : PairAction) → Decidable (FillsNone ends s a)
  | .send env e _ =>
    decidable_of_iff (∀ peer ∈ (s.kernel.channels (ends e)).peer, env.tryReserve = true →
        (s.kernel.channels peer).queue.length < queueLenMax →
          (s.kernel.channels peer).queue.length + 1 < queueLenMax)
      ⟨fun h peer hr => h peer hr.1 hr.2.1 hr.2.2, fun h peer hp ht hl => h peer ⟨hp, ht, hl⟩⟩
  | .tryRecv .. | .close _ | .elsewhere _ => isTrue trivial

end Pair

end Archives.Ftl
