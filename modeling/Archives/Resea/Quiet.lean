import Archives.Resea.Basic
import Archives.Resea.Model.Ipc
/-!
# Resea — what the kernel does to waiting threads

Between two switches the kernel changes channels, buffers and tables in
many ways, but it does few things to a thread that waits: it leaves it
alone, or it takes it from the channel it is registered with and resumes
it. `QuietStep` lists these, and every function of the kernel that does
not itself make the current thread wait is a sequence of them. What
holds of waiting threads is then proved once for each kind of step and
never again for each function.
-/

namespace Archives.Resea.Kernel

variable {PT : Type} {k k' k₁ k₂ : Kernel PT} {c d : ChId} {t r : ThId} {ch : Channel} {cid : ℤ}
  {header : BitVec 32}

/-- **One quiet change** of the kernel. -/
inductive QuietStep : Kernel PT → Kernel PT → Prop
  /-- A channel changes, but not who waits at it. -/
  | channel {k : Kernel PT} {c : ChId} {f : Channel → Channel}
      (hf : ∀ ch, (f ch).receiver = ch.receiver ∧ (f ch).queue = ch.queue) :
      QuietStep k (k.modifyChannel c f)
  /-- A channel is added. -/
  | alloc {k : Kernel PT} {ch : Channel} (hr : ch.receiver = none) (hq : ch.queue = []) :
      QuietStep k { k with channels := k.channels.alloc ch }
  /-- The processes change. -/
  | processes {k : Kernel PT} (ps : Heap (Process PT)) : QuietStep k { k with processes := ps }
  /-- A thread changes, but not whether and where it waits. -/
  | thread {k : Kernel PT} {t : ThId} {g : Thread → Thread}
      (hg : ∀ th, (g th).blocked = th.blocked ∧ (g th).kstack = th.kstack ∧
        (g th).blockedOn = th.blockedOn) :
      QuietStep k (k.modifyThread t g)
  /-- A thread that does not wait changes, and still does not. -/
  | ready {k : Kernel PT} {t : ThId} {g : Thread → Thread} {th : Thread}
      (ht : k.threads.get t = some th) (hb : th.blocked = false) (hg : (g th).blocked = false) :
      QuietStep k (k.modifyThread t g)
  /-- A channel nobody waits at is freed. -/
  | free {k : Kernel PT} {c : ChId} {ch : Channel} (hc : k.channels.get c = some ch)
      (hr : ch.receiver = none) (hq : ch.queue = []) :
      QuietStep k { k with channels := k.channels.free c }
  /-- The receiver of a channel is taken from it and resumed. -/
  | wake {k : Kernel PT} {c : ChId} {ch : Channel} {r : ThId} {th : Thread}
      (hc : k.channels.get c = some ch) (hr : ch.receiver = some r)
      (ht : k.threads.get r = some th) :
      QuietStep k { k with
        channels := k.channels.modify c fun ch => { ch with receiver := none }
        threads := k.threads.modify r fun th => { th with blocked := false }
        runqueue := if th.blocked then k.runqueue ++ [r] else k.runqueue }

/-- **A quiet change** of the kernel: a sequence of such steps. -/
abbrev Quiet : Kernel PT → Kernel PT → Prop := Relation.ReflTransGen QuietStep

/-- The current thread and the idle thread stay. -/
theorem Quiet.current (h : Quiet k k') : k'.current = k.current ∧ k'.idle = k.idle := by
  induction h with
  | refl => exact ⟨rfl, rfl⟩
  | tail _ hs ih => cases hs <;> exact ih

/-- A thread that does not wait still does not. -/
theorem QuietStep.ready_of_ready {th : Thread} (h : QuietStep k k')
    (ht : k.threads.get t = some th) (hb : th.blocked = false) :
    ∃ th', k'.threads.get t = some th' ∧ th'.blocked = false := by
  cases h with
  | channel _ => exact ⟨th, ht, hb⟩
  | alloc _ _ => exact ⟨th, ht, hb⟩
  | processes _ => exact ⟨th, ht, hb⟩
  | @thread t' g hg =>
    rw [modifyThread_threads, Heap.get_modify, ht]
    split
    · exact ⟨g th, rfl, (hg th).1.trans hb⟩
    · exact ⟨th, rfl, hb⟩
  | @ready t' g th₀ ht₀ _ hg =>
    rw [modifyThread_threads, Heap.get_modify, ht]
    split
    · subst t'
      rw [ht] at ht₀
      cases ht₀
      exact ⟨g th, rfl, hg⟩
    · exact ⟨th, rfl, hb⟩
  | free _ _ _ => exact ⟨th, ht, hb⟩
  | wake _ _ _ =>
    simp only [Heap.get_modify, ht]
    split
    · exact ⟨_, rfl, rfl⟩
    · exact ⟨th, rfl, hb⟩

theorem Quiet.ready_of_ready {th : Thread} (h : Quiet k k')
    (ht : k.threads.get t = some th) (hb : th.blocked = false) :
    ∃ th', k'.threads.get t = some th' ∧ th'.blocked = false := by
  induction h with
  | refl => exact ⟨th, ht, hb⟩
  | tail _ hs ih =>
    obtain ⟨th', ht', hb'⟩ := ih
    exact hs.ready_of_ready ht' hb'

/-! ## The functions that are quiet -/

theorem quiet_modifyChannel {f : Channel → Channel}
    (hf : ∀ ch, (f ch).receiver = ch.receiver ∧ (f ch).queue = ch.queue) :
    Quiet k (k.modifyChannel c f) :=
  .single (.channel hf)

theorem quiet_modifyThread {g : Thread → Thread}
    (hg : ∀ th, (g th).blocked = th.blocked ∧ (g th).kstack = th.kstack ∧
      (g th).blockedOn = th.blockedOn) : Quiet k (k.modifyThread t g) :=
  .single (.thread hg)

theorem quiet_updateChannel {f : Channel → Channel} (h : k.updateChannel c f = .ok k')
    (hf : ∀ ch, (f ch).receiver = ch.receiver ∧ (f ch).queue = ch.queue) : Quiet k k' := by
  obtain ⟨-, rfl⟩ := updateChannel_eq_ok.mp h
  exact quiet_modifyChannel hf

theorem quiet_channelCreate {p : PrId} {o : Option ChId} (h : k.channelCreate p = .ok (k', o)) :
    Quiet k k' := by
  obtain ⟨rfl, -⟩ | ⟨pr, cid, table, -, -, -, hch, hth, hrq, hcur, hidle, hpr⟩ :=
    channelCreate_eq_ok h
  · exact .refl
  · have halloc : Quiet k
        { k with channels := k.channels.alloc (freshChannel p cid k.channels.size) } :=
      .single (.alloc rfl rfl)
    have heq : k' = { k with
        channels := k.channels.alloc (freshChannel p cid k.channels.size),
        processes := k'.processes } := by
      obtain ⟨chs, ths, prs, rq, cur, idle⟩ := k'
      simp_all
    rw [heq]
    exact halloc.tail (.processes _)

theorem quiet_channelIncref (h : k.channelIncref c = .ok k') : Quiet k k' := by
  simp only [channelIncref, bind_eq_ok, channel_eq_ok, ite_eq_ok, reduceCtorEq, and_false,
    false_or, pure_eq_ok] at h
  obtain ⟨-, -, -, rfl⟩ := h
  exact quiet_modifyChannel fun _ => ⟨rfl, rfl⟩

section Decref

variable {decref : Kernel PT → ChId → Except Fault (Kernel PT)}
variable (hdecref : ∀ {k k' : Kernel PT} {c : ChId}, decref k c = .ok k' → Quiet k k')
include hdecref

theorem quiet_dropEdge (h : k.dropEdge decref c d = .ok k') : Quiet k k' := by
  unfold dropEdge at h
  split at h
  · exact hdecref h
  · obtain rfl := pure_eq_ok.mp h
    exact .refl

theorem quiet_channelLinkWith (h : k.channelLinkWith decref c d = .ok k') : Quiet k k' := by
  unfold channelLinkWith at h
  split at h
  · simp only [bind_eq_ok] at h
    obtain ⟨ch₁, -, k₁, h₁, ch₂, -, k₂, h₂, h₃⟩ := h
    exact (quiet_dropEdge hdecref h₁).trans
      ((quiet_dropEdge hdecref h₂).trans (quiet_updateChannel h₃ fun _ => ⟨rfl, rfl⟩))
  · simp only [bind_eq_ok] at h
    obtain ⟨k₁, h₁, k₂, h₂, k₃, h₃, h₄⟩ := h
    exact (quiet_updateChannel h₁ fun _ => ⟨rfl, rfl⟩).trans
      ((quiet_updateChannel h₂ fun _ => ⟨rfl, rfl⟩).trans
        ((quiet_channelIncref h₃).trans (quiet_channelIncref h₄)))

theorem quiet_channelTransferWith (h : k.channelTransferWith decref c d = .ok k') : Quiet k k' := by
  simp only [channelTransferWith, bind_eq_ok, ite_eq_ok, reduceCtorEq, and_false, false_or] at h
  obtain ⟨s, -, d', -, -, ⟨-, k₁, h₁, h₂⟩ | ⟨-, k₁, h₁, h₂⟩⟩ := h
  · exact (quiet_dropEdge hdecref h₁).trans (quiet_updateChannel h₂ fun _ => ⟨rfl, rfl⟩)
  · exact (quiet_updateChannel h₁ fun _ => ⟨rfl, rfl⟩).trans (quiet_channelIncref h₂)

end Decref

/-- Resuming the receiver of a channel and taking it from the channel. -/
theorem quiet_wake (hc : k.channels.get c = some ch) (hr : ch.receiver = some r)
    (h : k.threadResume r = .ok k') :
    Quiet k (k'.modifyChannel c fun ch => { ch with receiver := none }) := by
  obtain ⟨th, ht, hcases⟩ := threadResume_eq_ok.mp h
  have hwake := QuietStep.wake hc hr ht
  obtain ⟨hb, rfl⟩ | ⟨hb, rfl⟩ := hcases
  · rw [if_pos hb] at hwake
    exact .single hwake
  · have hsame : k'.threads.modify r (fun th => { th with blocked := false }) = k'.threads := by
      refine Heap.modify_eq_self fun a ha => ?_
      rw [ht] at ha
      cases ha
      rw [← hb]
    rw [if_neg (by simp [hb]), hsame] at hwake
    exact .single hwake

theorem quiet_channelRelease (h : k.channelRelease c = .ok k') : Quiet k k' := by
  simp only [channelRelease, bind_eq_ok, channel_eq_ok, ite_eq_ok, process_eq_ok, pure_eq_ok,
    reduceCtorEq, and_false, false_or, not_not] at h
  obtain ⟨ch, hc, k₁, hk₁, hq, pr, -, rfl⟩ := h
  -- the channel is freed in a kernel where its receiver has been taken from it
  have key : ∀ k₂ : Kernel PT, Quiet k k₂ → k₂.channels.get c = some { ch with receiver := none } →
      k₁ = { k₂ with channels := k₁.channels } → k₁.channels.free c = k₂.channels.free c →
      Quiet k { k₁.modifyProcess ch.process (fun pr => { pr with
        channels := tableFree pr.channels ch.cid, channelList := pr.channelList.erase c }) with
        channels := k₁.channels.free c } := by
    intro k₂ hquiet hget heq hfree
    have hstep := (hquiet.tail (.free hget rfl hq)).tail
      (.processes (k₁.modifyProcess ch.process (fun pr => { pr with
        channels := tableFree pr.channels ch.cid
        channelList := pr.channelList.erase c })).processes)
    rw [← hfree] at hstep
    rw [heq] at hstep ⊢
    exact hstep
  cases hr : ch.receiver with
  | none =>
    rw [hr] at hk₁
    obtain rfl := pure_eq_ok.mp hk₁
    have hch : { ch with receiver := none } = ch := by rw [← hr]
    exact key k .refl (by rw [hch, hc]) rfl rfl
  | some r =>
    rw [hr] at hk₁
    obtain ⟨ka, hka, hres⟩ := bind_eq_ok.mp hk₁
    obtain ⟨-, rfl⟩ := updateThread_eq_ok.mp hka
    have hthread : Quiet k (k.modifyThread r fun th => { th with abortReason := .channelClosed }) :=
      quiet_modifyThread fun _ => ⟨rfl, rfl, rfl⟩
    have hchannels := (threadResume_channels hres).1
    refine key _ (hthread.trans (quiet_wake hc hr hres)) ?_ rfl ?_
    · rw [modifyChannel_channels, Heap.get_modify_self, hchannels, modifyThread_channels, hc]
      rfl
    · rw [modifyChannel_channels, Heap.free_modify]

theorem quiet_channelDecrefFuel {fuel : ℕ} : ∀ {k k' : Kernel PT} {c : ChId},
    channelDecrefFuel fuel k c = .ok k' → Quiet k k' := by
  induction fuel with
  | zero =>
    nofun
  | succ fuel ih =>
    intro k k' c h
    simp only [channelDecrefFuel, bind_eq_ok, channel_eq_ok, ite_eq_ok, reduceCtorEq, and_false,
      false_or, pure_eq_ok] at h
    obtain ⟨ch, hc, -, ⟨-, rfl⟩ | ⟨-, k₂, hlink, k₃, htransfer, hrelease⟩⟩ := h
    · exact quiet_modifyChannel fun _ => ⟨rfl, rfl⟩
    · have hdec := quiet_modifyChannel (k := k) (c := c)
        (f := fun ch => { ch with refCount := ch.refCount - 1 }) fun _ => ⟨rfl, rfl⟩
      exact hdec.trans ((quiet_channelLinkWith ih hlink).trans
        ((quiet_channelTransferWith ih htransfer).trans (quiet_channelRelease hrelease)))

theorem quiet_channelLink (h : k.channelLink c d = .ok k') : Quiet k k' :=
  quiet_channelLinkWith quiet_channelDecrefFuel h

theorem quiet_channelTransfer (h : k.channelTransfer c d = .ok k') : Quiet k k' :=
  quiet_channelTransferWith quiet_channelDecrefFuel h

theorem quiet_channelDestroy (h : k.channelDestroy c = .ok k') : Quiet k k' := by
  obtain ⟨k₁, hk₁, hdecref⟩ := bind_eq_ok.mp h
  exact (quiet_updateChannel hk₁ fun _ => ⟨rfl, rfl⟩).trans (quiet_channelDecrefFuel hdecref)

theorem setIpcBuffer_waits (th : Thread) (m : Message) :
    (th.setIpcBuffer m).blocked = th.blocked ∧ (th.setIpcBuffer m).kstack = th.kstack ∧
      (th.setIpcBuffer m).blockedOn = th.blockedOn := by
  unfold Thread.setIpcBuffer
  split <;> exact ⟨rfl, rfl, rfl⟩

theorem quiet_channelNotify {n : BitVec 32} (h : k.channelNotify c n = .ok k') : Quiet k k' := by
  simp only [channelNotify, bind_eq_ok, channel_eq_ok] at h
  obtain ⟨ch, -, linked, -, d, hd, h⟩ := h
  have hnotify := quiet_modifyChannel (k := k) (c := linked.transferTo)
    (f := fun d => { d with notification := d.notification ||| n }) fun _ => ⟨rfl, rfl⟩
  cases hr : d.receiver with
  | none =>
    simp only [hr, pure_eq_ok] at h
    exact h ▸ hnotify
  | some r =>
    simp only [hr, bind_eq_ok, pure_eq_ok] at h
    obtain ⟨k₁, hk₁, k₂, hk₂, rfl⟩ := h
    obtain ⟨-, rfl⟩ := updateThread_eq_ok.mp hk₁
    have hd₁ : (k.channels.modify linked.transferTo fun d => { d with
        notification := d.notification ||| n }).get linked.transferTo =
        some { d with notification := d.notification ||| n } := by simp [hd]
    exact hnotify.trans ((quiet_modifyThread fun th => setIpcBuffer_waits th _).trans
      (quiet_wake hd₁ hr hk₂))

theorem quiet_sysret (e : Err) : Quiet k (k.sysret e) :=
  quiet_modifyThread fun _ => ⟨rfl, rfl, rfl⟩

/-! ## The system calls other than `ipc` -/

theorem quiet_sysOpen (h : k.sysOpen = .ok k') : Quiet k k' := by
  simp only [sysOpen, bind_eq_ok] at h
  obtain ⟨th, -, ⟨k₁, o⟩, hk₁, h⟩ := h
  cases o with
  | none =>
    obtain rfl := pure_eq_ok.mp h
    exact (quiet_channelCreate hk₁).trans (quiet_sysret _)
  | some c =>
    obtain rfl := pure_eq_ok.mp h
    exact (quiet_channelCreate hk₁).trans (quiet_sysret _)

/-- A system call that looks up a channel and returns `ERR_INVALID_CID`
or goes on with it. -/
theorem quiet_lookup {next : ChId → Except Fault (Kernel PT)}
    (hnext : ∀ c, next c = .ok k' → Quiet k k') (h : (do match ← k.lookup cid with
      | none => return k.sysret .invalidCid
      | some c => next c) = .ok k') : Quiet k k' := by
  obtain ⟨found, -, h⟩ := bind_eq_ok.mp h
  cases found with
  | none =>
    obtain rfl := pure_eq_ok.mp h
    exact quiet_sysret _
  | some c => exact hnext c h

variable {e : Err}

/-- A call that returns to the user after a quiet part. -/
theorem quiet_bind_sysret {x : Except Fault (Kernel PT)} (hx : ∀ k₁, x = .ok k₁ → Quiet k k₁)
    (h : (do return (← x).sysret e) = .ok k') : Quiet k k' := by
  obtain ⟨k₁, hk₁, hret⟩ := bind_eq_ok.mp h
  obtain rfl := pure_eq_ok.mp hret
  exact (hx k₁ hk₁).trans (quiet_sysret _)

theorem quiet_sysClose (h : k.sysClose cid = .ok k') : Quiet k k' := by
  refine quiet_lookup (fun c => ?_) h
  exact quiet_bind_sysret fun _ => quiet_channelDestroy

theorem quiet_sysLink {c₁ c₂ : ℤ} (h : k.sysLink c₁ c₂ = .ok k') : Quiet k k' := by
  refine quiet_lookup (fun c => quiet_lookup fun d => ?_) h
  exact quiet_bind_sysret fun _ => quiet_channelLink

theorem quiet_sysTransfer {src dst : ℤ} (h : k.sysTransfer src dst = .ok k') : Quiet k k' := by
  refine quiet_lookup (fun c => quiet_lookup fun d => ?_) h
  exact quiet_bind_sysret fun _ => quiet_channelTransfer

theorem quiet_sysNotify {n : BitVec 32} (h : k.sysNotify cid n = .ok k') : Quiet k k' := by
  refine quiet_lookup (fun c => ?_) h
  exact quiet_bind_sysret fun _ => quiet_channelNotify

/-! ## The parts of a send -/

theorem quiet_modifyIpcBuffer {f : Message → Message} :
    Quiet k (k.modifyThread t fun th => th.modifyIpcBuffer f) :=
  quiet_modifyThread fun th => setIpcBuffer_waits th _

theorem quiet_copyMessage (h : k.copyMessage header c r = .ok k') : Quiet k k' := by
  simp only [copyMessage, bind_eq_ok, updateThread_eq_ok] at h
  obtain ⟨th, -, l, -, -, rfl⟩ := h
  exact quiet_modifyIpcBuffer

theorem quiet_failSend (e : Err) : Quiet k (k.failSend r e).1 :=
  quiet_modifyThread fun _ => ⟨rfl, rfl, rfl⟩

theorem quiet_sendChannel (h : k.sendChannel header r = .ok (k', e)) : Quiet k k' := by
  unfold sendChannel at h
  split at h
  · simp only [bind_eq_ok] at h
    obtain ⟨th, -, pr, -, found, -, h⟩ := h
    cases found with
    | none =>
      rw [← (Prod.mk.inj (pure_eq_ok.mp h)).1]
      exact quiet_failSend .invalidPayload
    | some payload =>
      simp only [bind_eq_ok] at h
      obtain ⟨rt, -, ⟨k₁, o⟩, hk₁, h⟩ := h
      refine (quiet_channelCreate hk₁).trans ?_
      cases o with
      | none =>
        rw [← (Prod.mk.inj (pure_eq_ok.mp h)).1]
        exact quiet_failSend .outOfMemory
      | some c =>
        simp only [bind_eq_ok, pure_eq_ok, Prod.mk.injEq] at h
        obtain ⟨p, -, k₂, hk₂, new, -, rfl, -⟩ := h
        exact (quiet_channelLink hk₂).trans quiet_modifyIpcBuffer
  · rw [← (Prod.mk.inj (pure_eq_ok.mp h)).1]

theorem quiet_sendPage {paging : Paging PT} (h : k.sendPage paging header r = .ok (k', e))
    : Quiet k k' := by
  have hprocess : ∀ {k : Kernel PT} {p : PrId} {f : Process PT → Process PT},
      Quiet k (k.modifyProcess p f) := .single (.processes _)
  unfold sendPage at h
  split at h
  · simp only [bind_eq_ok, ite_eq_ok, reduceCtorEq, and_false, false_or, pure_eq_ok,
      Prod.mk.injEq] at h
    obtain ⟨th, -, pr, -, rt, -, -, ⟨-, rfl, -⟩ | ⟨-, ⟨-, rfl, -⟩ | ⟨-, h⟩⟩⟩ := h
    · exact quiet_modifyIpcBuffer.trans hprocess
    · exact hprocess.trans (quiet_modifyIpcBuffer.trans hprocess)
    · rw [← (Prod.mk.inj h).1]
      exact quiet_failSend .invalidPagePayload
  · rw [← (Prod.mk.inj (pure_eq_ok.mp h)).1]

/-- **A delivery** is quiet up to the point where it resumes the
receiver, and it gets there exactly if it succeeds. -/
theorem deliver_cases {paging : Paging PT} (h : k.deliver paging header c r = .ok (k', e)) :
    (e ≠ .ok ∧ Quiet k k') ∨ (e = .ok ∧ ∃ k₁, Quiet k k₁ ∧ k₁.threadResume r = .ok k') := by
  simp only [deliver, bind_eq_ok, ite_eq_ok, pure_eq_ok, Prod.mk.injEq] at h
  obtain ⟨k₁, hk₁, ⟨k₂, e₂⟩, hk₂, h⟩ := h
  have h₂ := (quiet_copyMessage hk₁).trans (quiet_sendChannel hk₂)
  rcases h with ⟨he, rfl, rfl⟩ | ⟨-, ⟨k₃, e₃⟩, hk₃, h⟩
  · exact .inl ⟨he, h₂⟩
  have h₃ := h₂.trans (quiet_sendPage hk₃)
  rcases h with ⟨he, rfl, rfl⟩ | ⟨-, k₄, hk₄, rfl, rfl⟩
  · exact .inl ⟨he, h₃⟩
  · exact .inr ⟨rfl, k₃, h₃, hk₄⟩

end Archives.Resea.Kernel
