import Archives.Common.Except
import Archives.Resea.Model.Channel
/-!
# Resea — what the kernel's primitive accesses do

One lemma for each primitive: when it succeeds, and what it leaves of
the kernel. The scheduling primitives touch neither channels nor
processes, and an update of a channel touches neither threads nor
processes.
-/

namespace Archives.Resea.Kernel

variable {PT : Type} {k k' : Kernel PT} {c d : ChId} {t : ThId} {p : PrId} {ch : Channel}

@[simp] theorem channel_eq_ok {ch : Channel} :
    k.channel c = .ok ch ↔ k.channels.get c = some ch := by
  unfold channel
  cases k.channels.get c <;> simp

@[simp] theorem thread_eq_ok {th : Thread} : k.thread t = .ok th ↔ k.threads.get t = some th := by
  unfold thread
  cases k.threads.get t <;> simp

@[simp] theorem process_eq_ok {pr : Process PT} :
    k.process p = .ok pr ↔ k.processes.get p = some pr := by
  unfold process
  cases k.processes.get p <;> simp

variable (f : Channel → Channel)

@[simp] theorem modifyChannel_channels :
    (k.modifyChannel c f).channels = k.channels.modify c f := rfl

@[simp] theorem modifyChannel_threads : (k.modifyChannel c f).threads = k.threads := rfl

@[simp] theorem modifyChannel_processes : (k.modifyChannel c f).processes = k.processes := rfl

@[simp] theorem modifyThread_channels (f : Thread → Thread) :
    (k.modifyThread t f).channels = k.channels := rfl

@[simp] theorem modifyThread_threads (f : Thread → Thread) :
    (k.modifyThread t f).threads = k.threads.modify t f := rfl

@[simp] theorem modifyThread_processes (f : Thread → Thread) :
    (k.modifyThread t f).processes = k.processes := rfl

@[simp] theorem modifyChannel_current : (k.modifyChannel c f).current = k.current := rfl

@[simp] theorem modifyThread_current (f : Thread → Thread) :
    (k.modifyThread t f).current = k.current := rfl

theorem modifyChannel_eq_self {f : Channel → Channel}
    (hf : ∀ ch, k.channels.get c = some ch → f ch = ch) : k.modifyChannel c f = k := by
  rw [modifyChannel, Heap.modify_eq_self hf]

theorem modifyThread_eq_self {g : Thread → Thread}
    (hg : ∀ th, k.threads.get t = some th → g th = th) : k.modifyThread t g = k := by
  rw [modifyThread, Heap.modify_eq_self hg]

theorem updateChannel_eq_ok {f : Channel → Channel} : k.updateChannel c f = .ok k' ↔
      (∃ ch, k.channels.get c = some ch) ∧ k' = k.modifyChannel c f := by
  simp only [updateChannel, bind_eq_ok, channel_eq_ok, pure_eq_ok]
  constructor
  · rintro ⟨ch, hch, rfl⟩
    exact ⟨⟨ch, hch⟩, rfl⟩
  · rintro ⟨⟨ch, hch⟩, rfl⟩
    exact ⟨ch, hch, rfl⟩

theorem updateThread_eq_ok {f : Thread → Thread} : k.updateThread t f = .ok k' ↔
      (∃ th, k.threads.get t = some th) ∧ k' = k.modifyThread t f := by
  simp only [updateThread, bind_eq_ok, thread_eq_ok, pure_eq_ok]
  constructor
  · rintro ⟨th, hth, rfl⟩
    exact ⟨⟨th, hth⟩, rfl⟩
  · rintro ⟨⟨th, hth⟩, rfl⟩
    exact ⟨th, hth, rfl⟩

/-- What `thread_resume` does: nothing to a thread that is not blocked. -/
theorem threadResume_eq_ok : k.threadResume t = .ok k' ↔ ∃ th, k.threads.get t = some th ∧
      ((th.blocked = true ∧ k' = { k.modifyThread t (fun th => { th with blocked := false }) with
          runqueue := k.runqueue ++ [t] }) ∨ (th.blocked = false ∧ k' = k)) := by
  simp [threadResume, bind_eq_ok, ite_eq_ok, eq_comm (b := k')]

theorem threadResume_channels (h : k.threadResume t = .ok k') :
    k'.channels = k.channels ∧ k'.processes = k.processes := by
  obtain ⟨th, -, ⟨-, rfl⟩ | ⟨-, rfl⟩⟩ := threadResume_eq_ok.mp h
  · exact ⟨rfl, rfl⟩
  · exact ⟨rfl, rfl⟩

/-- What `thread_switch` does: the current thread goes back to the queue
unless it is blocked, and the head of the queue runs next. -/
theorem threadSwitch_eq_ok : k.threadSwitch = .ok k' ↔ ∃ th, k.threads.get k.current = some th ∧
      k' = match (if th.blocked then k.runqueue else k.runqueue ++ [k.current]) with
        | [] => { k with current := k.idle }
        | next :: rest => { k with runqueue := rest, current := next } := by
  simp only [threadSwitch, bind_eq_ok, thread_eq_ok]
  refine exists_congr fun th => and_congr_right fun _ => ?_
  cases (if th.blocked then k.runqueue else k.runqueue ++ [k.current]) with
  | nil => exact pure_eq_ok.trans eq_comm
  | cons next rest => exact pure_eq_ok.trans eq_comm

/-- What `channel_create` makes. -/
theorem channelCreate_eq_ok {r : Option ChId} (h : k.channelCreate p = .ok (k', r)) :
    (k' = k ∧ r = none ∧ ∃ pr, k.processes.get p = some pr ∧ tableAlloc pr.channels = none) ∨
      ∃ pr cid table, k.processes.get p = some pr ∧
      tableAlloc pr.channels = some (cid, table) ∧ r = some k.channels.size ∧
      k'.channels = k.channels.alloc (freshChannel p cid k.channels.size) ∧
      k'.threads = k.threads ∧ k'.runqueue = k.runqueue ∧ k'.current = k.current ∧
      k'.idle = k.idle ∧ k'.processes = k.processes.modify p fun pr => { pr with
        channels := tableSet table cid k.channels.size,
        channelList := pr.channelList ++ [k.channels.size] } := by
  simp only [channelCreate, bind_eq_ok, process_eq_ok] at h
  obtain ⟨pr, hpr, h⟩ := h
  cases halloc : tableAlloc pr.channels with
  | none =>
    simp only [halloc, pure_eq_ok, Prod.mk.injEq] at h
    exact .inl ⟨h.1.symm, h.2.symm, pr, hpr, halloc⟩
  | some it =>
    obtain ⟨cid, table⟩ := it
    simp only [halloc, pure_eq_ok, Prod.mk.injEq] at h
    obtain ⟨rfl, rfl⟩ := h
    exact .inr ⟨pr, cid, table, hpr, halloc, rfl, rfl, rfl, rfl, rfl, rfl, rfl⟩

/-- Unlinking a channel that is not linked does nothing. -/
theorem channelLinkWith_self {decref : Kernel PT → ChId → Except Fault (Kernel PT)}
    (hc : k.channels.get c = some ch) (hl : ch.linkedWith = c) :
    k.channelLinkWith decref c c = .ok k := by
  have hmod : k.modifyChannel c (fun ch => { ch with linkedWith := c }) = k := by
    refine modifyChannel_eq_self fun a ha => ?_
    rw [hc] at ha
    cases ha
    rw [← hl]
  have hch : k.channel c = .ok ch := channel_eq_ok.mpr hc
  have hdrop : k.dropEdge decref c ch.linkedWith = .ok k := if_neg (not_not.mpr hl)
  rw [channelLinkWith, if_pos rfl]
  simp only [bind_eq_ok]
  exact ⟨ch, hch, k, hdrop, ch, hch, k, hdrop, updateChannel_eq_ok.mpr ⟨⟨ch, hc⟩, hmod.symm⟩⟩

/-- The change `channel_link` makes to a channel it links to another. -/
def linkedTo (d : ChId) (ch : Channel) : Channel :=
  { ch with linkedWith := d, refCount := ch.refCount + 1 }

/-- What `channel_link` does to two different channels. -/
theorem channelLinkWith_of_ne {decref : Kernel PT → ChId → Except Fault (Kernel PT)}
    (hne : c ≠ d) (h : k.channelLinkWith decref c d = .ok k') :
    (∃ ch, k.channels.get c = some ch) ∧ (∃ ch, k.channels.get d = some ch) ∧
      k' = (k.modifyChannel c (linkedTo d)).modifyChannel d (linkedTo c) := by
  simp only [channelLinkWith, if_neg hne, bind_eq_ok, updateChannel_eq_ok, channelIncref,
    channel_eq_ok, ite_eq_ok, reduceCtorEq, and_false, false_or, pure_eq_ok] at h
  obtain ⟨-, ⟨hc, rfl⟩, -, ⟨hd, rfl⟩, k₁, ⟨ch₁, -, -, rfl⟩, ch₂, -, -, rfl⟩ := h
  rw [modifyChannel_channels, Heap.get_modify_of_ne _ _ hne] at hd
  refine ⟨hc, hd, ?_⟩
  simp only [modifyChannel, mk.injEq, and_true]
  rw [Heap.modify_comm _ hne, Heap.modify_modify, Heap.modify_modify]
  rfl

end Archives.Resea.Kernel
