import Archives.Resea.Quiet
import Archives.Resea.Model.Waiting
/-!
# Resea — what a call does

One inversion lemma for each part of `sys_ipc` and of the fast path: the
ways it can end, in terms of quiet changes, of a receiver that is taken
and resumed, and of the current thread registering with a channel and
switching away. Every invariant of the system is derived from these.
-/

namespace Archives.Resea.Kernel

open Option

variable {PT : Type} {k k' : Kernel PT} {c c₀ dst linked : ChId} {t r : ThId} {ch : Channel}
  {th : Thread} {g : Thread → Thread} {f : Channel → Channel} {syscall : BitVec 32}
  {paging : Paging PT}

/-- The current thread is not blocked. -/
def Running (k : Kernel PT) : Prop :=
  ∃ th, k.threads.get k.current = some th ∧ th.blocked = false

theorem Running.quiet (h : k.Running) (hs : Quiet k k') : k'.Running := by
  obtain ⟨th, ht, hb⟩ := h
  obtain ⟨hcur, -⟩ := hs.current
  unfold Running
  rw [hcur]
  exact hs.ready_of_ready ht hb

theorem quiet_modifyCurrent (h : k.Running)
    (hg : ∀ th, th.blocked = false → (g th).blocked = false) :
    Quiet k (k.modifyThread k.current g) := by
  obtain ⟨th, ht, hb⟩ := h
  exact .single (.ready ht hb (hg th hb))

theorem quiet_ipcReturn (h : k.Running) (e : Err) : Quiet k (k.ipcReturn e) := by
  refine quiet_modifyCurrent h fun th hb => ?_
  split <;> exact hb

theorem quiet_returnAbort (h : k.Running) (e : Err) : Quiet k (k.returnAbort e) := by
  have hset : Quiet k (k.modifyThread k.current fun th => { th with abortReason := .ok }) :=
    quiet_modifyThread fun _ => ⟨rfl, rfl, rfl⟩
  exact hset.trans (quiet_ipcReturn (h.quiet hset) e)

theorem quiet_takeNotification (h : k.takeNotification c = .ok k') : Quiet k k' := by
  simp only [takeNotification, bind_eq_ok, pure_eq_ok] at h
  obtain ⟨rc, -, rfl⟩ := h
  exact quiet_modifyIpcBuffer.trans (quiet_modifyChannel fun _ => ⟨rfl, rfl⟩)

/-- The current thread registers with a channel and blocks. -/
def park (k : Kernel PT) (c : ChId) (f : Channel → Channel) (g : Thread → Thread) : Kernel PT :=
  (k.modifyChannel c f).modifyThread k.current g

theorem get_park_current (ht : k.threads.get k.current = some th) :
    (k.park c f g).threads.get k.current = some (g th) := by
  simp [park, ht]

theorem get_park_of_ne (hne : t ≠ k.current) : (k.park c f g).threads.get t = k.threads.get t := by
  rw [park, modifyThread_threads, Heap.get_modify_of_ne _ _ (Ne.symm hne), modifyChannel_threads]

theorem get_park_channel {x : ChId} : (k.park c f g).channels.get x =
      if c = x then (k.channels.get x).map f else k.channels.get x := by
  rw [park, modifyThread_channels, modifyChannel_channels, Heap.get_modify]

/-- The current thread blocks at a frame. -/
def blockedAt (f : Frame) (th : Thread) : Thread :=
  { th with blocked := true, kstack := f :: th.kstack }

/-- The current thread blocks at a frame, as the receiver of a channel. -/
def waitAt (k : Kernel PT) (c : ChId) (frame : Frame) : Kernel PT :=
  k.park c (fun ch => { ch with receiver := some k.current }) (blockedAt frame)

theorem get_waitAt {frame : Frame} (hc : k.channels.get c = some ch) :
    (k.waitAt c frame).channels.get c = some { ch with receiver := some k.current } := by
  rw [waitAt, get_park_channel, if_pos rfl, hc]
  rfl

/-- **The receive phase** returns, or the thread waits at its channel and
the first sender there is resumed. -/
theorem receivePhase_cases (h : k.receivePhase c₀ = .ok k') :
    (∃ e, k' = k.ipcReturn e) ∨ ∃ recv rc k₁, k.channels.get recv = some rc ∧
      rc.receiver = none ∧ (∃ th, k.threads.get k.current = some th) ∧
      (k.waitAt recv (.recvWait recv)).resumeSender recv rc.queue = .ok k₁ ∧
      k₁.threadSwitch = .ok k' := by
  simp only [receivePhase, bind_eq_ok, channel_eq_ok, ite_eq_ok, pure_eq_ok, not_not] at h
  obtain ⟨c₁, -, rc, hrc, ⟨-, rfl⟩ | ⟨-, ⟨-, rfl⟩ | ⟨hnone, k₁, hblock, k₂, hresume, hswitch⟩⟩⟩ := h
  · exact .inl ⟨_, rfl⟩
  · exact .inl ⟨_, rfl⟩
  · obtain ⟨ht, rfl⟩ := updateThread_eq_ok.mp hblock
    exact .inr ⟨c₁.transferTo, rc, k₂, hrc, hnone, ht, hresume, hswitch⟩

theorem afterSend_cases (h : k.afterSend c₀ syscall = .ok k') :
    (∃ e, k' = k.ipcReturn e) ∨ k.receivePhase c₀ = .ok k' := by
  unfold afterSend at h
  split at h
  · exact .inr h
  · exact .inl ⟨_, (pure_eq_ok.mp h).symm⟩

theorem destination_eq_some {d : Channel} :
    k.destination c = some (dst, d) ↔ ∃ ch linked, k.channels.get c = some ch ∧
      k.channels.get ch.linkedWith = some linked ∧ linked.transferTo = dst ∧
      k.channels.get dst = some d ∧ d.destructed = false := by
  simp only [destination, bind_eq_bind, bind_eq_some_iff]
  constructor
  · rintro ⟨ch, hch, linked, hlinked, d', hd, h⟩
    split at h
    · cases h
    · rename_i hdes
      cases h
      exact ⟨ch, linked, hch, hlinked, rfl, hd, by simpa using hdes⟩
  · rintro ⟨ch, linked, hch, hlinked, rfl, hd, hdes⟩
    exact ⟨ch, hch, linked, hlinked, d, hd, by simp [hdes]⟩

/-- **The send phase** returns, or it takes the receiver of the
destination and delivers to it, or the thread waits in the queue of the
destination. -/
theorem sendPhase_cases {header : BitVec 32} (h : k.sendPhase paging c₀ syscall header = .ok k') :
    (∃ e, k' = k.ipcReturn e) ∨ ∃ dst d, k.destination c₀ = some (dst, d) ∧
      k.channels.get dst = some d ∧ ((∃ r linked k₁ e, d.receiver = some r ∧
        (k.modifyChannel dst fun d => { d with receiver := none }).deliver paging header linked r =
          .ok (k₁, e) ∧
        ((e ≠ .ok ∧ k' = k₁.ipcReturn e) ∨ (e = .ok ∧ k₁.afterSend c₀ syscall = .ok k'))) ∨
      ((∃ th, k.threads.get k.current = some th) ∧
        (k.park dst (fun d => { d with queue := d.queue ++ [k.current] }) fun th =>
          blockedAt (.sendWait c₀ syscall header) { th with blockedOn := some dst }).threadSwitch =
          .ok k')) := by
  simp only [sendPhase, bind_eq_ok, channel_eq_ok, ite_eq_ok, pure_eq_ok] at h
  obtain ⟨ch, hch, linked, hlinked, d, hd, ⟨-, rfl⟩ | ⟨hdes, h⟩⟩ := h
  · exact .inl ⟨_, rfl⟩
  have hdest : k.destination c₀ = some (linked.transferTo, d) :=
    destination_eq_some.mpr ⟨ch, linked, hch, hlinked, rfl, hd, by simpa using hdes⟩
  cases hr : d.receiver with
  | some r =>
    simp only [hr, bind_eq_ok, ite_eq_ok, pure_eq_ok] at h
    obtain ⟨⟨k₁, e⟩, hdel, hrest⟩ := h
    refine .inr ⟨_, d, hdest, hd, .inl ⟨r, ch.linkedWith, k₁, e, hr, hdel, ?_⟩⟩
    rcases hrest with ⟨he, rfl⟩ | ⟨he, hrest⟩
    · exact .inl ⟨he, rfl⟩
    · exact .inr ⟨not_not.mp he, hrest⟩
  | none =>
    simp only [hr, ite_eq_ok, bind_eq_ok, pure_eq_ok] at h
    rcases h with ⟨-, rfl⟩ | ⟨-, k₁, hblock, hswitch⟩
    · exact .inl ⟨_, rfl⟩
    · obtain ⟨⟨th, ht⟩, rfl⟩ := updateThread_eq_ok.mp hblock
      refine .inr ⟨_, d, hdest, hd, .inr ⟨?_, ?_⟩⟩
      · simp only [modifyThread_threads, modifyThread_current, modifyChannel_current,
          Heap.get_modify_self, modifyChannel_threads, map_eq_some_iff] at ht
        exact ⟨_, ht.choose_spec.1⟩
      · rw [← hswitch]
        simp only [park, modifyThread, modifyChannel, Heap.modify_modify]
        rfl

/-- A delivery that comes to its end found its receiver. -/
theorem exists_thread_of_deliver {header : BitVec 32} {e : Err}
    (h : k.deliver paging header linked r = .ok (k', e)) : ∃ th, k.threads.get r = some th := by
  simp only [deliver, copyMessage, bind_eq_ok, updateThread_eq_ok] at h
  obtain ⟨k₁, ⟨th, -, l, -, hr, -⟩, -⟩ := h
  exact hr

/-- **`sys_ipc`** returns, or goes on with the phases its flags say. -/
theorem sysIpc_cases {cid : ℤ} (h : k.sysIpc paging cid syscall = .ok k') :
    (∃ e, k' = k.ipcReturn e) ∨ (∃ c₀, k.afterSend c₀ syscall = .ok k') ∨
      ∃ c₀ ch th, k.lookup cid = .ok (some c₀) ∧ k.channels.get c₀ = some ch ∧
        ch.destructed = false ∧ k.threads.get k.current = some th ∧ hasFlag syscall ipcSend = true ∧
        k.sendPhase paging c₀ syscall th.ipcBuffer.header = .ok k' := by
  obtain ⟨found, hfound, h⟩ := bind_eq_ok.mp h
  cases found with
  | none => exact .inl ⟨_, (pure_eq_ok.mp h).symm⟩
  | some c₀ =>
    simp only [bind_eq_ok, channel_eq_ok, ite_eq_ok, pure_eq_ok, thread_eq_ok] at h
    obtain ⟨ch, hch, ⟨-, rfl⟩ | ⟨hdes, ⟨hflag, th, ht, hsend⟩ | ⟨-, hafter⟩⟩⟩ := h
    · exact .inl ⟨_, rfl⟩
    · exact .inr (.inr ⟨c₀, ch, th, hfound, hch, by simpa using hdes, ht, hflag, hsend⟩)
    · exact .inr (.inl ⟨c₀, hafter⟩)

/-! ## The fast path -/

/-- What the test of the fast path has found. -/
theorem fastpathTest_eq_ok {cid : ℤ} {recv : ChId}
    (h : k.fastpathTest cid = .ok (some (recv, linked, dst, r))) :
    ∃ c₀ ch l th rc d, k.lookup cid = .ok (some c₀) ∧ k.channels.get c₀ = some ch ∧
      ch.linkedWith = linked ∧ ch.transferTo = recv ∧ ch.destructed = false ∧
      k.channels.get linked = some l ∧ l.transferTo = dst ∧
      k.channels.get recv = some rc ∧ rc.destructed = false ∧ rc.receiver = none ∧ rc.queue = [] ∧
      k.channels.get dst = some d ∧ d.destructed = false ∧ d.receiver = some r ∧
      k.threads.get k.current = some th ∧ fastpathHeaderTest th.ipcBuffer.header = true := by
  obtain ⟨found, hfound, h⟩ := bind_eq_ok.mp h
  cases found with
  | none => exact absurd (pure_eq_ok.mp h) (by simp)
  | some c₀ =>
    simp only [bind_eq_ok, channel_eq_ok, thread_eq_ok, ite_eq_ok, pure_eq_ok, Bool.and_eq_true,
      Bool.not_eq_true', beq_iff_eq, reduceCtorEq, and_false, or_false] at h
    obtain ⟨th, ht, ch, hch, l, hl, rc, hrc, d, hd, ⟨⟨⟨⟨⟨hhdr, hdes⟩, hrdes⟩, hddes⟩, hnone⟩, hq⟩,
      hr⟩ := h
    obtain ⟨r', hr', heq⟩ := map_eq_some_iff.mp hr
    cases heq
    exact ⟨c₀, ch, l, th, rc, d, hfound, hch, rfl, rfl, hdes, hl, rfl, hrc, hrdes, hnone, hq, hd,
      hddes, hr', ht, hhdr⟩

/-- The state of the fast path before its switch and the copy. -/
theorem fastpath_eq_ok {recv : ChId} (h : k.fastpath recv linked dst r = .ok k') :
    ∃ th rt k₃, k.threads.get k.current = some th ∧
      (k.waitAt recv (.fastWait recv)).threads.get r = some rt ∧
      (((k.waitAt recv (.fastWait recv)).modifyChannel dst fun d => { d with receiver := none }
        ).modifyThread r fun rt => { rt with blocked := false }).copyMessage
          th.ipcBuffer.header linked r = .ok k₃ ∧ k' = { k₃ with current := r } := by
  simp only [fastpath, bind_eq_ok, thread_eq_ok, pure_eq_ok] at h
  obtain ⟨th, ht, k₁, hblock, k₂, hready, k₃, hcopy, rfl⟩ := h
  obtain ⟨-, rfl⟩ := updateThread_eq_ok.mp hblock
  obtain ⟨⟨rt, hrt⟩, rfl⟩ := updateThread_eq_ok.mp hready
  exact ⟨th, rt, k₃, ht, hrt, hcopy, rfl⟩

/-- The channel a thread waits at is not the one it finds a receiver at. -/
theorem ne_of_receiver {rc d : Channel} (hc : k.channels.get c = some rc)
    (hnone : rc.receiver = none) (hd : k.channels.get dst = some d) (hr : d.receiver = some r) :
    c ≠ dst := by
  rintro rfl
  rw [hc] at hd
  cases hd
  simp [hnone] at hr

/-! ## Running again -/

/-- The current thread leaves its top frame. -/
def popFrame (k : Kernel PT) (rest : List Frame) : Kernel PT :=
  k.modifyThread k.current fun th => { th with kstack := rest }

theorem quiet_enterKernelIpc {m : Message} (h : k.Running) : Quiet k (k.enterKernelIpc m) :=
  quiet_modifyCurrent h fun _ hb => hb

/-- **A suspended call** goes on in the function of its top frame. -/
theorem resumeFrame_cases (h : k.resumeFrame paging = .ok k') :
    ∃ th rest, k.threads.get k.current = some th ∧ ((∃ e, k' = (k.popFrame rest).returnAbort e) ∨
      (∃ c₀ syscall header, th.kstack = .sendWait c₀ syscall header :: rest ∧
        th.abortReason = .ok ∧ (k.popFrame rest).sendPhase paging c₀ syscall header = .ok k') ∨
      ∃ recv k₁, (k.popFrame rest).takeNotification recv = .ok k₁ ∧
        (k' = k₁.ipcReturn .ok ∨ ∃ e, k' = k₁.returnAbort e)) := by
  obtain ⟨th, ht, h⟩ := bind_eq_ok.mp h
  have ht := thread_eq_ok.mp ht
  cases hstack : th.kstack with
  | nil => simp [hstack] at h
  | cons f rest =>
    cases f with
    | kernelIpc => simp [hstack] at h
    | sendWait c₀ syscall header =>
      simp only [hstack, ite_eq_ok, pure_eq_ok, not_not] at h
      rcases h with ⟨-, rfl⟩ | ⟨habort, hsend⟩
      · exact ⟨th, rest, ht, .inl ⟨_, rfl⟩⟩
      · exact ⟨th, rest, ht, .inr (.inl ⟨c₀, syscall, header, hstack, habort, hsend⟩)⟩
    | recvWait recv =>
      simp only [hstack, ite_eq_ok, pure_eq_ok, bind_eq_ok] at h
      rcases h with ⟨-, rfl⟩ | ⟨-, k₁, hk₁, rfl⟩
      · exact ⟨th, rest, ht, .inl ⟨_, rfl⟩⟩
      · exact ⟨th, rest, ht, .inr (.inr ⟨recv, k₁, hk₁, .inl rfl⟩)⟩
    | fastWait recv =>
      simp only [hstack, pure_eq_ok, bind_eq_ok] at h
      obtain ⟨k₁, hk₁, rfl⟩ := h
      exact ⟨th, rest, ht, .inr (.inr ⟨recv, k₁, hk₁, .inr ⟨_, rfl⟩⟩)⟩

/-! ## The whole system -/

theorem quiet_writeBuffer (t : ThId) (m : Message) (pageBase : BitVec 64) :
    Quiet k (k.writeBuffer t m pageBase) :=
  quiet_modifyThread fun _ => ⟨rfl, rfl, rfl⟩

theorem threadDestroy_eq_ok (h : k.threadDestroy t = .ok k') :
    ∃ th k₁, k.threads.get t = some th ∧ t ≠ k.current ∧ t ≠ k.idle ∧
      k.leaveQueue t th.blockedOn = .ok k₁ ∧ k' = { k₁ with
        runqueue := if th.blocked then k₁.runqueue else k₁.runqueue.erase t
        threads := k₁.threads.free t } := by
  simp only [threadDestroy, bind_eq_ok, thread_eq_ok, ite_eq_ok, reduceCtorEq, and_false, false_or,
    pure_eq_ok, not_or] at h
  obtain ⟨th, ht, ⟨hcur, hidle⟩, k₁, hk₁, rfl⟩ := h
  exact ⟨th, k₁, ht, hcur, hidle, hk₁, rfl⟩

theorem leaveQueue_cases {o : Option ChId} (h : k.leaveQueue t o = .ok k') :
    k' = k ∨ ∃ c, k' = k.modifyChannel c fun ch => { ch with queue := ch.queue.erase t } := by
  cases o with
  | none => exact .inl (pure_eq_ok.mp h).symm
  | some c => exact .inr ⟨c, (updateChannel_eq_ok.mp h).2⟩

/-- What the server does, apart from threads, is quiet. -/
theorem serve_cases {op : ServerOp PT} (h : k.serve op = .ok k') :
    Quiet k k' ∨ (∃ t, k.threadDestroy t = .ok k') ∨ ∃ p user kernel pageBase,
        ({ k with threads := k.threads.alloc (freshThread p user kernel pageBase) } :
          Kernel PT).threadResume k.threads.size = .ok k' := by
  cases op with
  | createProcess n pt =>
    obtain rfl := pure_eq_ok.mp h
    exact .inl (.single (.processes _))
  | destroyProcess p =>
    obtain rfl := pure_eq_ok.mp h
    exact .inl (.single (.processes _))
  | createThread p user kernel pageBase =>
    obtain ⟨pr, -, h⟩ := bind_eq_ok.mp h
    exact .inr (.inr ⟨p, user, kernel, pageBase, h⟩)
  | destroyThread t => exact .inr (.inl ⟨t, h⟩)
  | createChannel p =>
    obtain ⟨⟨k₁, o⟩, hk₁, hret⟩ := bind_eq_ok.mp h
    obtain rfl := pure_eq_ok.mp hret
    exact .inl (quiet_channelCreate hk₁)
  | linkChannels c d => exact .inl (quiet_channelLink h)
  | transferChannel c d => exact .inl (quiet_channelTransfer h)
  | increfChannel c => exact .inl (quiet_channelIncref h)
  | decrefChannel c => exact .inl (quiet_channelDecrefFuel h)
  | destroyChannel c => exact .inl (quiet_channelDestroy h)
  | notifyChannel c n => exact .inl (quiet_channelNotify h)

theorem isSend_of_fastpathSyscallTest {syscall : BitVec 64}
    (h : fastpathSyscallTest syscall = true) : isSend syscall = true := by
  have h : syscall &&& ~~~0x400#64 = 0x300#64 := by simpa [fastpathSyscallTest] using h
  -- both bit fields are untouched by the mask
  have hmask : ∀ m : BitVec 64, ~~~0x400#64 &&& m = m → syscall &&& m = 0x300#64 &&& m := by
    intro m hm
    rw [← h, BitVec.and_assoc, hm]
  have htype : syscall &&& 0xff#64 = 0 := (hmask 0xff#64 (by decide)).trans (by decide)
  have hflag : syscall &&& 0x100#64 = 0x100#64 := (hmask 0x100#64 (by decide)).trans (by decide)
  have hsend : syscall.setWidth 32 &&& 0x100#32 = 0x100#32 := by
    have := congrArg (BitVec.setWidth 32) hflag
    rwa [BitVec.setWidth_and] at this
  simp only [isSend, hasFlag, ipcSend, Bool.and_eq_true, beq_iff_eq, bne_iff_ne]
  exact ⟨htype, by rw [show (256 : BitVec 32) = 0x100#32 from rfl, hsend]; decide⟩

/-- **A system call** is quiet, or it is an `ipc` call. -/
theorem syscallHandler_cases {fastpathOn : Bool} {arg0 arg1 syscall : BitVec 64}
    (h : k.syscallHandler paging fastpathOn arg0 arg1 syscall = .ok k') :
    Quiet k k' ∨ (∃ flags, (hasFlag flags ipcSend = true → isSend syscall = true) ∧
        k.sysIpc paging (toCid arg0) flags = .ok k') ∨
      ∃ recv linked dst r, k.fastpathTest (toCid arg0) = .ok (some (recv, linked, dst, r)) ∧
        k.fastpath recv linked dst r = .ok k' := by
  unfold syscallHandler at h
  split at h
  · rename_i htest
    obtain ⟨found, hfound, h⟩ := bind_eq_ok.mp h
    cases found with
    | none =>
      exact .inr (.inl ⟨_, fun _ => isSend_of_fastpathSyscallTest (Bool.and_eq_true_iff.mp htest).2, h⟩)
    | some q =>
      obtain ⟨recv, linked, dst, r⟩ := q
      exact .inr (.inr ⟨recv, linked, dst, r, hfound, h⟩)
  · split at h
    · rename_i htype
      refine .inr (.inl ⟨_, fun hflag => ?_, h⟩)
      simp only [isSend, hflag, Bool.and_true, beq_iff_eq]
      exact BitVec.eq_of_toNat_eq htype
    · exact .inl (quiet_sysOpen h)
    · exact .inl (quiet_sysClose h)
    · exact .inl (quiet_sysLink h)
    · exact .inl (quiet_sysTransfer h)
    · exact .inl (quiet_sysNotify h)
    · exact .inl (pure_eq_ok.mp h ▸ quiet_sysret _)
    · exact .inl (pure_eq_ok.mp h ▸ quiet_sysret _)

theorem system_step {fastpathOn : Bool} {a : Action PT}
    (h : (system paging fastpathOn).step k a = some k') :
    k.Enabled a ∧ k.act paging fastpathOn a = .ok k' := by
  simp only [system] at h
  split at h
  · rename_i hen
    exact ⟨hen, eq_ok_of_toOption h⟩
  · cases h

end Archives.Resea.Kernel
