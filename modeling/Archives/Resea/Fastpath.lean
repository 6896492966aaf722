import Archives.Resea.Blocking
/-!
# Resea — the fast path

`sys_ipc_fastpath` against `sys_ipc` with both flags. Up to the switch
the two leave the same channels, buffers and threads; they differ in the
order in which threads run, and in the call the thread is suspended in.
After the switch the fast path reads the notification of its channel in
any case, where `sys_ipc` returns first if it was aborted: the two agree
exactly when there was no abort, or nothing to read.
-/

namespace Archives.Resea.Kernel

open Heap Option Thread

variable {PT : Type} {paging : Paging PT} {k k' kf : Kernel PT} {recv linked dst : ChId}
variable {r : ThId} {cid : ℤ} {th rt : Thread} {header : BitVec 32} {l : Channel}
  {rest : List Frame}

/-- The thread, were it suspended in the fast path and not in `sys_ipc`. -/
def inFastpath (recv : ChId) (th : Thread) : Thread :=
  { th with kstack := .fastWait recv :: th.kstack.tail }

/-- The thread, were it suspended in `sys_ipc` and not in the fast path. -/
def inSlowpath (recv : ChId) (th : Thread) : Thread :=
  { th with kstack := .recvWait recv :: th.kstack.tail }

/-- **The two kernels agree** up to the order of the run queue and the
call the thread `t` is suspended in. -/
structure SameUpToOrder (t : ThId) (recv : ChId) (kf ks : Kernel PT) : Prop where
  channels : kf.channels = ks.channels
  threads : kf.threads = ks.threads.modify t (inFastpath recv)
  processes : kf.processes = ks.processes
  ready : (kf.current :: kf.runqueue).Perm (ks.current :: ks.runqueue)
  idle : kf.idle = ks.idle

/-- The state in which the current thread would go on if it had taken
`sys_ipc`. -/
def viaSlowpath (k : Kernel PT) (recv : ChId) : Kernel PT :=
  k.modifyThread k.current (inSlowpath recv)

/-! ## Up to the switch -/

/-- What is written to the receiver's buffer. -/
def copied (header : BitVec 32) (cid : ℕ) (data : List (BitVec 8)) (rt : Thread) : Thread :=
  rt.modifyIpcBuffer fun m => { m with
    header := header, sender := cid, data := copyInline (inlinePayloadLen header) data m.data }

theorem copied_unblock (header : BitVec 32) (cid : ℕ) (data : List (BitVec 8)) (rt : Thread) :
    copied header cid data { rt with blocked := false } =
      { copied header cid data rt with blocked := false } := by
  unfold copied modifyIpcBuffer setIpcBuffer ipcBuffer
  split <;> rfl

theorem copyMessage_eq (ht : k.threads.get k.current = some th)
    (hl : k.channels.get linked = some l) (hr : k.threads.get r = some rt) :
    k.copyMessage header linked r =
      .ok (k.modifyThread r (copied header l.cid th.ipcBuffer.data)) := by
  simp only [copyMessage, bind_eq_ok, thread_eq_ok, channel_eq_ok, updateThread_eq_ok]
  exact ⟨th, ht, l, hl, ⟨rt, hr⟩, rfl⟩

/-- A header without payloads has neither flag. -/
theorem not_hasFlag_of_fastpathHeaderTest (h : fastpathHeaderTest header = true) :
    hasFlag header msgChannelPayload = false ∧ hasFlag header msgPagePayload = false := by
  have h : header &&& 0x1800#32 = 0#32 := by simpa [fastpathHeaderTest] using h
  have hmask : ∀ m : BitVec 32, 0x1800#32 &&& m = m → header &&& m = 0#32 := by
    intro m hm
    rw [← hm, ← BitVec.and_assoc, h, BitVec.zero_and]
  have hch : header &&& 0x1000#32 = 0#32 := hmask _ (by decide)
  have hpg : header &&& 0x800#32 = 0#32 := hmask _ (by decide)
  simp only [hasFlag, msgChannelPayload, msgPagePayload, bne_eq_false_iff_eq]
  exact ⟨hch, hpg⟩

/-- A delivery without payloads. -/
theorem deliver_eq (paging : Paging PT) (hheader : fastpathHeaderTest header = true)
    (ht : k.threads.get k.current = some th) (hl : k.channels.get linked = some l)
    (hr : k.threads.get r = some rt) (hb : rt.blocked = true) :
    k.deliver paging header linked r = .ok ({ k.modifyThread r fun rt =>
          { copied header l.cid th.ipcBuffer.data rt with blocked := false } with
        runqueue := k.runqueue ++ [r] }, .ok) := by
  obtain ⟨hch, hpg⟩ := not_hasFlag_of_fastpathHeaderTest hheader
  set k₁ := k.modifyThread r (copied header l.cid th.ipcBuffer.data) with hk₁
  have hchannel : k₁.sendChannel header r = .ok (k₁, .ok) := by
    simp [sendChannel, hch, pure, Except.pure]
  have hpage : k₁.sendPage paging header r = .ok (k₁, .ok) := by
    simp [sendPage, hpg, pure, Except.pure]
  have hr₁ : k₁.threads.get r = some (copied header l.cid th.ipcBuffer.data rt) := by
    rw [hk₁, modifyThread_threads, get_modify_self, hr]
    rfl
  have hb₁ : (copied header l.cid th.ipcBuffer.data rt).blocked = true := by
    rw [copied, modifyIpcBuffer, (setIpcBuffer_waits rt _).1, hb]
  have hresume : k₁.threadResume r = .ok { k.modifyThread r fun rt =>
      { copied header l.cid th.ipcBuffer.data rt with blocked := false } with
      runqueue := k.runqueue ++ [r] } := by
    refine threadResume_eq_ok.mpr ⟨_, hr₁, .inl ⟨hb₁, ?_⟩⟩
    simp only [hk₁, modifyThread, modify_modify]
    rfl
  simp only [deliver, copyMessage_eq ht hl hr, ok_bind]
  rw [hchannel]
  simp only [ok_bind, ne_eq, not_true_eq_false, if_false]
  rw [hpage]
  simp only [ok_bind, not_true_eq_false, if_false]
  rw [hresume]
  rfl

/-- The receive phase of a thread nobody is sending to. -/
theorem receivePhase_eq {c₀ : ChId} {ch rc : Channel} (hc : k.channels.get c₀ = some ch)
    (hto : ch.transferTo = recv) (hrc : k.channels.get recv = some rc)
    (hdes : rc.destructed = false) (hnone : rc.receiver = none) (hq : rc.queue = [])
    (ht : k.threads.get k.current = some th) :
    k.receivePhase c₀ = (k.waitAt recv (.recvWait recv)).threadSwitch := by
  have hblock : (k.modifyChannel recv fun rc => { rc with receiver := some k.current }).threadBlock
      (.recvWait recv) = .ok (k.waitAt recv (.recvWait recv)) :=
    updateThread_eq_ok.mpr ⟨⟨th, ht⟩, rfl⟩
  subst hto
  simp only [receivePhase, channel_eq_ok.mpr hc, channel_eq_ok.mpr hrc, ok_bind, hdes, hnone, hq,
    ne_eq, not_true_eq_false, if_false, Bool.false_eq_true]
  rw [hblock]
  rfl

/-- Where the fast path can be taken, `sys_ipc` delivers the message,
resumes the receiver, and waits. -/
theorem sysIpc_eq_of_fastpathTest (paging : Paging PT) (h : Scheduled k)
    (htest : k.fastpathTest cid = .ok (some (recv, linked, dst, r)))
    (ht : k.threads.get k.current = some th) (hrt : k.threads.get r = some rt) :
    ∃ l ks, k.channels.get linked = some l ∧ recv ≠ dst ∧ r ≠ k.current ∧
      k.sysIpc paging cid (ipcSend ||| ipcRecv) = .ok ks ∧
      ks.channels = (k.channels.modify dst fun d => { d with receiver := none }).modify recv
        (fun rc => { rc with receiver := some k.current }) ∧
      ks.threads = (k.threads.modify r fun rt =>
        { copied th.ipcBuffer.header l.cid th.ipcBuffer.data rt with blocked := false }).modify
          k.current (blockedAt (.recvWait recv)) ∧
      ks.processes = k.processes ∧ ks.idle = k.idle ∧
      ks.current :: ks.runqueue = k.runqueue ++ [r] := by
  obtain ⟨c₀, ch, l, th₀, rc, d, hfound, hch, rfl, hto, hdes, hl, rfl, hrc, hrdes, hnone, hq, hd,
    hddes, hr, ht₀, hheader⟩ := fastpathTest_eq_ok htest
  rw [ht] at ht₀
  cases ht₀
  have hne : recv ≠ l.transferTo := ne_of_receiver hrc hnone hd hr
  have hrcur : r ≠ k.current := h.ne_current ⟨_, d, hd, .inl hr⟩
  -- the kernel once the receiver has been taken, and once it has been resumed
  set k₁ := k.modifyChannel l.transferTo fun d => { d with receiver := none } with hk₁
  have hget₁ : ∀ {x chx}, k.channels.get x = some chx → ∃ chx', k₁.channels.get x = some chx' ∧
      chx'.cid = chx.cid ∧ chx'.transferTo = chx.transferTo := by
    intro x chx hx
    rw [hk₁, modifyChannel_channels, get_modify, hx]
    split
    · exact ⟨_, rfl, rfl, rfl⟩
    · exact ⟨chx, rfl, rfl, rfl⟩
  obtain ⟨l₁, hl₁, hcid, -⟩ := hget₁ hl
  obtain ⟨ch₁, hch₁, -, hto₁⟩ := hget₁ hch
  have hrc₁ : k₁.channels.get recv = some rc := by
    rw [hk₁, modifyChannel_channels, get_modify_of_ne _ _ (.symm hne), hrc]
  have hdeliver := deliver_eq paging (k := k₁) hheader ht hl₁ hrt (h.receiver hd hr hrt).1
  set k₂ : Kernel PT := { k₁.modifyThread r fun rt =>
      { copied th.ipcBuffer.header l₁.cid th.ipcBuffer.data rt with blocked := false } with
    runqueue := k₁.runqueue ++ [r] } with hk₂
  have ht₂ : k₂.threads.get k₂.current = some th := by
    show (k.threads.modify r _).get k.current = some th
    rw [get_modify_of_ne _ _ hrcur, ht]
  have hreceive := receivePhase_eq (k := k₂) hch₁ (hto₁.trans hto) hrc₁ hrdes hnone hq ht₂
  -- the thread is blocked, so that the next one of the queue runs
  have htp : (k₂.waitAt recv (.recvWait recv)).threads.get k₂.current =
      some (blockedAt (.recvWait recv) th) := get_park_current ht₂
  obtain ⟨next, rest, hqueue⟩ : ∃ next rest, k.runqueue ++ [r] = next :: rest := by
    cases hrq : k.runqueue with
    | nil => exact ⟨r, [], rfl⟩
    | cons a as => exact ⟨a, as ++ [r], rfl⟩
  have hswitch : (k₂.waitAt recv (.recvWait recv)).threadSwitch =
      .ok { k₂.waitAt recv (.recvWait recv) with runqueue := rest, current := next } := by
    refine threadSwitch_eq_ok.mpr ⟨_, htp, ?_⟩
    have hrunq : (k₂.waitAt recv (.recvWait recv)).runqueue = next :: rest := hqueue
    simp only [blockedAt, if_true]
    rw [hrunq]
  refine ⟨l, { k₂.waitAt recv (.recvWait recv) with runqueue := rest, current := next }, hl, hne,
    hrcur, ?_, rfl, ?_, rfl, rfl, hqueue.symm⟩
  · have hflagS : hasFlag (ipcSend ||| ipcRecv) ipcSend = true := by decide
    have hflagR : hasFlag (ipcSend ||| ipcRecv) ipcRecv = true := by decide
    have hsend : k.sendPhase paging c₀ (ipcSend ||| ipcRecv) th.ipcBuffer.header =
        k₂.receivePhase c₀ := by
      simp only [sendPhase, channel_eq_ok.mpr hch, channel_eq_ok.mpr hl, channel_eq_ok.mpr hd,
        ok_bind, hddes, Bool.false_eq_true, if_false, hr]
      rw [hdeliver]
      simp only [ok_bind, ne_eq, not_true_eq_false, if_false, afterSend, hflagR, if_true]
    simp only [sysIpc, hfound, channel_eq_ok.mpr hch, thread_eq_ok.mpr ht, ok_bind, hdes,
      Bool.false_eq_true, if_false, hflagS, if_true]
    rw [hsend, hreceive, hswitch]
  · rw [← hcid]
    rfl

/-- The kernel at the switch of the fast path. -/
theorem fastpath_eq (hrcur : r ≠ k.current) (ht : k.threads.get k.current = some th)
    (hl : k.channels.get linked = some l) (hrt : k.threads.get r = some rt)
    (hk : k.fastpath recv linked dst r = .ok kf) :
    kf.channels = (k.channels.modify recv fun rc => { rc with receiver := some k.current }).modify
        dst (fun d => { d with receiver := none }) ∧
      kf.threads = (k.threads.modify k.current (blockedAt (.fastWait recv))).modify r
        (fun rt => { copied th.ipcBuffer.header l.cid th.ipcBuffer.data rt with blocked := false }) ∧
      kf.processes = k.processes ∧ kf.idle = k.idle ∧ kf.current = r ∧
      kf.runqueue = k.runqueue := by
  obtain ⟨th', rt', k₃, ht', -, hcopy, rfl⟩ := fastpath_eq_ok hk
  rw [ht] at ht'
  cases ht'
  set k₂ := ((k.waitAt recv (.fastWait recv)).modifyChannel dst fun d => { d with
    receiver := none }).modifyThread r (fun rt => { rt with blocked := false }) with hk₂
  have ht₂ : k₂.threads.get k₂.current = some (blockedAt (.fastWait recv) th) := by
    show ((k.threads.modify k.current _).modify r _).get k.current = _
    rw [get_modify_of_ne _ _ hrcur, get_modify_self, ht]
    rfl
  obtain ⟨l₂, hl₂, hcid⟩ : ∃ l₂, k₂.channels.get linked = some l₂ ∧ l₂.cid = l.cid := by
    show ∃ l₂, ((k.channels.modify recv _).modify dst _).get linked = some l₂ ∧ l₂.cid = l.cid
    rw [get_modify, get_modify, hl]
    split <;> split <;> exact ⟨_, rfl, rfl⟩
  have hrt₂ : k₂.threads.get r = some { rt with blocked := false } := by
    show ((k.threads.modify k.current _).modify r _).get r = _
    rw [get_modify_self, get_modify_of_ne _ _ (.symm hrcur), hrt]
    rfl
  rw [copyMessage_eq ht₂ hl₂ hrt₂] at hcopy
  cases hcopy
  refine ⟨rfl, ?_, rfl, rfl, rfl, rfl⟩
  show ((k.threads.modify k.current _).modify r _).modify r _ = _
  rw [modify_modify, hcid]
  congr 1
  funext rt
  exact copied_unblock th.ipcBuffer.header l.cid th.ipcBuffer.data rt

/-- **Up to the switch the fast path does what `sys_ipc` does.** -/
theorem sysIpc_of_fastpath (h : Scheduled k)
    (htest : k.fastpathTest cid = .ok (some (recv, linked, dst, r)))
    (hk : k.fastpath recv linked dst r = .ok kf) :
    ∃ ks, k.sysIpc paging cid (ipcSend ||| ipcRecv) = .ok ks ∧
      SameUpToOrder k.current recv kf ks := by
  obtain ⟨th, rt', k₃, ht, hrt', -⟩ := fastpath_eq_ok hk
  obtain ⟨rt, hrt, -⟩ := get_modify_eq_some.1 hrt'
  obtain ⟨l, ks, hl, hne, hrcur, hks, hch, hth, hpr, hidle, hrunq⟩ :=
    sysIpc_eq_of_fastpathTest paging h htest ht hrt
  obtain ⟨hfch, hfth, hfpr, hfidle, hfcur, hfrunq⟩ := fastpath_eq hrcur ht hl hrt hk
  refine ⟨ks, hks, ⟨?_, ?_, ?_, ?_, ?_⟩⟩
  · rw [hfch, hch, modify_comm _ (.symm hne)]
  · rw [hfth, hth, modify_modify, modify_comm _ hrcur]
    rfl
  · rw [hfpr, hpr]
  · rw [hfcur, hfrunq, hrunq]
    exact (List.perm_append_singleton r k.runqueue).symm
  · rw [hfidle, hidle]

/-! ## After the switch -/

/-- The channel has nothing to report to a thread. -/
def NothingToReport (k : Kernel PT) (recv : ChId) (th : Thread) : Prop :=
  ∃ rc, k.channels.get recv = some rc ∧ rc.notification = 0 ∧ th.ipcBuffer.notification = 0

theorem resumeFrame_fastWait (ht : k.threads.get k.current = some th)
    (hstack : th.kstack = .fastWait recv :: rest) : k.resumeFrame paging = (do
      return (← (k.popFrame rest).takeNotification recv).returnAbort th.abortReason) := by
  simp only [resumeFrame, thread_eq_ok.mpr ht, ok_bind, hstack]
  rfl

theorem resumeFrame_viaSlowpath (ht : k.threads.get k.current = some th)
    (hstack : th.kstack = .fastWait recv :: rest) :
    (k.viaSlowpath recv).resumeFrame paging = if th.abortReason ≠ .ok
      then .ok ((k.popFrame rest).returnAbort th.abortReason)
      else (do return (← (k.popFrame rest).takeNotification recv).ipcReturn .ok) := by
  have hthread : (k.viaSlowpath recv).threads.get (k.viaSlowpath recv).current =
      some (inSlowpath recv th) := by
    show (k.threads.modify k.current _).get k.current = _
    rw [get_modify_self, ht]
    rfl
  have hpop : (k.viaSlowpath recv).modifyThread (k.viaSlowpath recv).current
      (fun th => { th with kstack := rest }) = k.popFrame rest := by
    simp only [viaSlowpath, popFrame, modifyThread, modify_modify]
    rfl
  have hslow : (inSlowpath recv th).kstack = .recvWait recv :: rest := by
    rw [inSlowpath, hstack]
    rfl
  simp only [resumeFrame, thread_eq_ok.mpr hthread, ok_bind, hslow, hpop]
  rfl

/-- The buffer with the notification read into it. -/
def notified (n : BitVec 32) (th : Thread) : Thread :=
  th.modifyIpcBuffer fun m => { m with notification := n }

theorem takeNotification_eq_ok :
    k.takeNotification recv = .ok k' ↔ ∃ rc, k.channels.get recv = some rc ∧
      k' = (k.modifyThread k.current (notified rc.notification)).modifyChannel recv
        fun rc => { rc with notification := 0 } := by
  simp only [takeNotification, bind_eq_ok, channel_eq_ok, pure_eq_ok, eq_comm (b := k')]
  rfl

theorem notified_abortReason (n : BitVec 32) (th : Thread) :
    (notified n th).abortReason = th.abortReason := by
  unfold notified modifyIpcBuffer setIpcBuffer
  split <;> rfl

/-- Reading a notification into a buffer that has it changes nothing, and
changes a buffer otherwise. -/
theorem notified_buffers (th : Thread) {n : BitVec 32} :
    ((notified n th).userBuffer = th.userBuffer ∧ (notified n th).kernelBuffer = th.kernelBuffer) ↔
      th.ipcBuffer.notification = n := by
  unfold notified modifyIpcBuffer setIpcBuffer ipcBuffer
  split
  · constructor
    · rintro ⟨-, h⟩
      have := congrArg Message.notification h
      exact this.symm
    · rintro rfl
      exact ⟨rfl, rfl⟩
  · constructor
    · rintro ⟨h, -⟩
      have := congrArg Message.notification h
      exact this.symm
    · rintro rfl
      exact ⟨rfl, rfl⟩

theorem notified_eq_self {n : BitVec 32} (h : th.ipcBuffer.notification = n) :
    notified n th = th := by
  subst h
  unfold notified modifyIpcBuffer setIpcBuffer ipcBuffer
  split <;> rfl

/-- Returning leaves channels and buffers alone. -/
theorem returnAbort_frame (e : Err) (ht : k.threads.get k.current = some th) :
    (k.returnAbort e).channels = k.channels ∧
      ∃ th', (k.returnAbort e).threads.get k.current = some th' ∧
      th'.userBuffer = th.userBuffer ∧ th'.kernelBuffer = th.kernelBuffer := by
  refine ⟨rfl, ?_⟩
  show ∃ th', ((k.threads.modify k.current _).modify k.current _).get k.current = some th' ∧ _
  rw [get_modify_self, get_modify_self, ht]
  refine ⟨_, rfl, ?_⟩
  simp only
  split <;> exact ⟨rfl, rfl⟩

/-- **After the switch the two agree exactly when there was no abort, or
nothing to read.** -/
theorem resumeFrame_eq_iff (paging : Paging PT) (ht : k.threads.get k.current = some th)
    (hstack : th.kstack = .fastWait recv :: rest) :
    k.resumeFrame paging = (k.viaSlowpath recv).resumeFrame paging ↔
      th.abortReason = .ok ∨ k.NothingToReport recv th := by
  rw [resumeFrame_fastWait ht hstack, resumeFrame_viaSlowpath ht hstack]
  have htp : (k.popFrame rest).threads.get k.current = some { th with kstack := rest } := by
    simp [popFrame, ht]
  by_cases habort : th.abortReason = .ok
  · simp only [habort, ne_eq, not_true_eq_false, if_false, true_or, iff_true]
    cases hres : (k.popFrame rest).takeNotification recv with
    | error e => rfl
    | ok k₁ =>
      obtain ⟨rc, -, rfl⟩ := takeNotification_eq_ok.mp hres
      simp only [ok_bind, returnAbort]
      -- the reason is `OK` already
      rw [modifyThread_eq_self]
      intro a ha
      have ha : ((k.popFrame rest).threads.modify k.current (notified rc.notification)).get
          k.current = some a := ha
      rw [get_modify_self, htp] at ha
      cases ha
      have hreason : (notified rc.notification { th with kstack := rest }).abortReason = .ok := by
        rw [notified_abortReason]
        exact habort
      rw [← hreason]
  · rw [if_pos habort]
    constructor
    · intro heq
      obtain ⟨k₁, hk₁, hret⟩ := bind_eq_ok.mp heq
      have hret := pure_eq_ok.mp hret
      obtain ⟨rc, hrc, rfl⟩ := takeNotification_eq_ok.mp hk₁
      have ht₁ : (((k.popFrame rest).modifyThread (k.popFrame rest).current
          (notified rc.notification)).modifyChannel recv fun rc => { rc with
            notification := 0 }).threads.get k.current =
          some (notified rc.notification { th with kstack := rest }) := by
        show ((k.popFrame rest).threads.modify k.current _).get k.current = _
        rw [get_modify_self, htp]
        rfl
      obtain ⟨hch₁, th₁, hth₁, hu₁, hkb₁⟩ := returnAbort_frame th.abortReason ht₁
      obtain ⟨hch₂, th₂, hth₂, hu₂, hkb₂⟩ := returnAbort_frame th.abortReason htp
      -- the channel is unchanged, so that its notification is zero
      have hzero : rc.notification = 0 := by
        have hget := congrArg (fun k => k.channels.get recv) hret
        simp only [hch₁, hch₂, modifyChannel_channels, modifyThread_channels,
          get_modify_self] at hget
        have hget : some { rc with notification := 0 } = some rc := by
          have hpop : (k.popFrame rest).channels.get recv = some rc := hrc
          rw [hpop] at hget
          exact hget
        rw [← some.inj hget]
      have hth : th₁ = th₂ := by
        have hget := congrArg (fun k' => k'.threads.get k.current) hret
        exact some.inj (hth₁.symm.trans (hget.trans hth₂))
      refine .inr ⟨rc, hrc, hzero, ?_⟩
      rw [← hzero]
      refine (notified_buffers { th with kstack := rest }).mp ⟨?_, ?_⟩
      · rw [← hu₁, hth, hu₂]
      · rw [← hkb₁, hth, hkb₂]
    · rintro (hok | ⟨rc, hrc, hzero, hnot⟩)
      · exact absurd hok habort
      · have htake : (k.popFrame rest).takeNotification recv = .ok (k.popFrame rest) := by
          refine takeNotification_eq_ok.mpr ⟨rc, hrc, ?_⟩
          have hth : (k.popFrame rest).modifyThread (k.popFrame rest).current
              (notified rc.notification) = k.popFrame rest := by
            refine modifyThread_eq_self fun a ha => notified_eq_self ?_
            have ha : (k.popFrame rest).threads.get k.current = some a := ha
            rw [htp] at ha
            cases ha
            exact hnot.trans hzero.symm
          rw [hth, modifyChannel_eq_self]
          intro a ha
          have ha : k.channels.get recv = some a := ha
          rw [hrc] at ha
          cases ha
          rw [← hzero]
        rw [htake]
        rfl

/-- **The fast path against `sys_ipc`.** From a state of the system where
the fast path is taken, `sys_ipc` leaves the same channels, buffers and
threads up to the order of the run queue; and where the thread goes on,
in any state, the two end in the same way exactly when the receive phase
was not aborted, or there is nothing to report. -/
theorem fastpath_agrees_iff {fastpathOn : Bool} {k₀ k₂ : Kernel PT} {rest : List Frame}
    (h₀ : Boot k₀) (h : (system paging fastpathOn).Reach k₀ k)
    (htest : k.fastpathTest cid = .ok (some (recv, linked, dst, r)))
    (hk : k.fastpath recv linked dst r = .ok kf)
    (ht : k₂.threads.get k₂.current = some th) (hstack : th.kstack = .fastWait recv :: rest) :
    ((∃ ks, k.sysIpc paging cid (ipcSend ||| ipcRecv) = .ok ks ∧
        SameUpToOrder k.current recv kf ks) ∧
      k₂.resumeFrame paging = (k₂.viaSlowpath recv).resumeFrame paging) ↔
      th.abortReason = .ok ∨ k₂.NothingToReport recv th := by
  rw [← resumeFrame_eq_iff paging ht hstack]
  exact and_iff_right (sysIpc_of_fastpath (scheduled_of_reach h₀ h) htest hk)

/-- Channels 0 and 1 are linked, channel 0 transfers to channel 2, and
thread 2 receives from channel 1; thread 1 is about to call it. -/
def beforeCall : List (Action Unit) :=
  [.preempt, .syscall 0 0 1, .syscall 0 0 1, .syscall 0 0 1, .syscall 1 2 3, .syscall 1 3 4,
    .preempt, .syscall 2 0 0x200]

/-- Thread 1 calls, thread 2 replies, and thread 1 goes on. -/
theorem fastpath_agrees_iff_reply : ∃ k kf k₂ : Kernel Unit,
    (system noPages true).Reach twoThreads k ∧ k.fastpath 2 1 1 2 = .ok kf ∧
    (system noPages true).Reach twoThreads k₂ ∧
    (∃ ks, k.sysIpc noPages 1 (ipcSend ||| ipcRecv) = .ok ks ∧ SameUpToOrder k.current 2 kf ks) ∧
    k₂.resumeFrame noPages = (k₂.viaSlowpath 2).resumeFrame noPages := by
  obtain ⟨k, hreach, htest, hkf⟩ : ∃ k, (system noPages true).Reach twoThreads k ∧
      (k.fastpathTest 1).toOption = some (some (2, 1, 1, 2)) ∧
        (k.fastpath 2 1 1 2).toOption.isSome :=
    Machine.exists_reachUnder beforeCall (by decide +kernel)
  have htest : k.fastpathTest 1 = .ok (some (2, 1, 1, 2)) := eq_ok_of_toOption htest
  obtain ⟨kf, hkf⟩ := isSome_iff_exists.mp hkf
  have hkf : k.fastpath 2 1 1 2 = .ok kf := eq_ok_of_toOption hkf
  obtain ⟨k₂, hreach₂, th, ht, hstack, hok⟩ : ∃ k, (system noPages true).Reach twoThreads k ∧
      ∃ th ∈ k.threads.get k.current, th.kstack = [.fastWait 2] ∧ th.abortReason = .ok :=
    Machine.exists_reachUnder
      (beforeCall ++ [.syscall 1 0 0x300, .resume, .syscall 2 0 0x100, .preempt])
      (by decide +kernel)
  have hagree := (fastpath_agrees_iff boot_twoThreads hreach htest hkf ht hstack).mpr (.inl hok)
  exact ⟨k, kf, k₂, hreach, hkf, hreach₂, hagree.1, hagree.2⟩

/-- **An aborted call reads from a freed channel.** Thread 1 calls and
waits at channel 2, which thread 2 closes and channel 0 stops
transferring to: the channel is freed and the call aborted. `sys_ipc`
returns the reason; the fast path reads the notification of the channel
that is no longer there. -/
theorem fastpath_differs_on_abort : ∃ k : Kernel Unit, Boot twoThreads ∧
    (system noPages true).Reach twoThreads k ∧
    (∃ th, k.threads.get k.current = some th ∧ th.kstack = [.fastWait 2]) ∧
    k.resumeFrame noPages = .error .invalidPointer ∧
    ∃ ks, (k.viaSlowpath 2).resumeFrame noPages = .ok ks ∧
      ∃ th, ks.threads.get ks.current = some th ∧ th.ret = .channelClosed := by
  obtain ⟨k, hreach, hth, hfault, ks, hks, hret⟩ : ∃ k, (system noPages true).Reach twoThreads k ∧
        (∃ th ∈ k.threads.get k.current, th.kstack = [.fastWait 2]) ∧
        errorOf (k.resumeFrame noPages) = some .invalidPointer ∧
        ∃ ks ∈ ((k.viaSlowpath 2).resumeFrame noPages).toOption,
          ∃ th ∈ ks.threads.get ks.current, th.ret = .channelClosed :=
    Machine.exists_reachUnder
      (beforeCall ++ [.syscall 1 0 0x300, .resume, .syscall 3 0 2, .syscall 1 1 4, .preempt])
      (by decide +kernel)
  exact ⟨k, boot_twoThreads, hreach, hth, eq_error_of_errorOf hfault, ks, eq_ok_of_toOption hks,
    hret⟩

end Archives.Resea.Kernel
