import Archives.Common.Machine
import Archives.Resea.Model.Channel
/-!
# Resea — the references to a channel

The operations on channels as a machine of their own, and what
`ref_count` is meant to count: one for the table entry, until
`sys_close` gives that one up, and one for each other channel that is
linked to the channel or transfers to it.
-/

namespace Archives.Resea

variable {PT : Type}

/-- An operation on the channels of the system. -/
inductive ChannelOp
  /-- `channel_create` in a process. -/
  | create (p : PrId)
  /-- `channel_link`. -/
  | link (ch1 ch2 : ChId)
  /-- `channel_transfer`. -/
  | transfer (src dst : ChId)
  /-- `channel_incref`. -/
  | incref (c : ChId)
  /-- `sys_close` by a thread. -/
  | close (t : ThId) (cid : ℤ)
deriving DecidableEq, Repr

namespace Kernel

variable (k : Kernel PT)

/-- What an operation does. -/
def channelOp : ChannelOp → Except Fault (Kernel PT)
  | .create p => return (← k.channelCreate p).1
  | .link ch1 ch2 => k.channelLink ch1 ch2
  | .transfer src dst => k.channelTransfer src dst
  | .incref c => k.channelIncref c
  | .close t cid => { k with current := t }.sysClose cid

variable (c : ChId)

/-- The other channels linked to a channel. -/
def linkers : Finset ChId :=
  k.channels.filter fun d ch => decide (d ≠ c) && decide (ch.linkedWith = c)

/-- The other channels that transfer to a channel. -/
def transferrers : Finset ChId :=
  k.channels.filter fun d ch => decide (d ≠ c) && decide (ch.transferTo = c)

/-- The table's own reference to a channel, up to `sys_close`. -/
def tableRefs : ℕ :=
  if (k.channels.get c).any fun ch => !ch.destructed then 1 else 0

/-- **The references to a channel.** -/
def refs : ℕ :=
  k.tableRefs c + (k.linkers c).card + (k.transferrers c).card

/-- No channel has been created yet. -/
structure NoChannels (k : Kernel PT) : Prop where
  channels : k.channels = Heap.empty
  table : ∀ {p pr} {i : ℕ} {c}, k.processes.get p = some pr → pr.channels[i]? ≠ some (Entry.channel c)

/-- The channel does not overwrite a link to another one. -/
def Unlinked : Prop :=
  ∀ ch ∈ k.channels.get c, ch.linkedWith = c
deriving Decidable

/-- The channel does not overwrite a transfer to another one. -/
def Untransferred : Prop :=
  ∀ ch ∈ k.channels.get c, ch.transferTo = c
deriving Decidable

/-- The channel, if there is one, has not been closed yet. -/
def Unclosed (found : Option ChId) : Prop :=
  ∀ c ∈ found, ∀ ch ∈ k.channels.get c, ch.destructed = false
deriving Decidable

/-- **No operation loses or repeats a reference**: only channels without
a link are linked, only a channel without a transfer is given one, a
channel is closed once, and nobody takes a reference on the side. -/
def KeepsEdges : ChannelOp → Prop
  | .create _ => True
  | .link ch1 ch2 => k.Unlinked ch1 ∧ k.Unlinked ch2
  | .transfer src dst => src = dst ∨ k.Untransferred src
  | .incref _ => False
  | .close t cid => ∀ found ∈ ({ k with current := t }.lookup cid).toOption, k.Unclosed found

instance (k : Kernel PT) (op : ChannelOp) : Decidable (k.KeepsEdges op) := by
  cases op <;> unfold KeepsEdges <;> infer_instance

end Kernel

/-- **The channel machine.** An operation that faults has no successor. -/
def channelMachine (PT : Type) : Machine (Kernel PT) ChannelOp where
  step k op := (k.channelOp op).toOption

end Archives.Resea
