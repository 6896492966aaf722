import Archives.Resea.Scheduling
/-!
# Resea — no thread is lost

A thread blocked in `sys_ipc` can be found, as long as every message
that finds its receiver can be delivered. Without the condition a send
that fails has already taken the receiver from its channel: it marks the
receiver's operation as aborted, but nobody resumes it.
-/

namespace Archives.Resea.Kernel

open Option Heap List

variable {PT : Type} {paging : Paging PT} {k k' : Kernel PT} {c : ChId} {t r : ThId}
variable {ch : Channel} {th rt : Thread} {header : BitVec 32} {c₀ : ChId}

/-! ## Changes a blocked thread does not notice -/

theorem Findable.congr (h : k.Findable t) (hch : k'.channels = k.channels)
    (hth : k'.threads = k.threads) : k'.Findable t := by
  unfold Findable
  rw [hch, hth]
  exact h

/-- A thread stays findable when it is changed only while it is not
blocked, and no channel loses it. -/
theorem Findable.of_keeps (h : k.Findable t)
    (hth : ∀ th', k'.threads.get t = some th' → th'.blocked = true → ∃ th,
      k.threads.get t = some th ∧ th.blocked = true ∧ th'.kstack = th.kstack ∧
        th'.blockedOn = th.blockedOn)
    (hch : ∀ c ch, k.channels.get c = some ch → (ch.receiver = some t ∨ t ∈ ch.queue) →
      ∃ ch', k'.channels.get c = some ch' ∧ (ch.receiver = some t → ch'.receiver = some t) ∧
        (t ∈ ch.queue → t ∈ ch'.queue)) : k'.Findable t := by
  intro th' ht' hb'
  obtain ⟨th, ht, hb, hstack, hon⟩ := hth th' ht' hb'
  obtain ⟨hrecv, hsend⟩ := h th ht hb
  refine ⟨fun c hc => ?_, fun hs => ?_⟩
  · unfold Thread.Receives at hc
    rw [hstack] at hc
    obtain ⟨ch, hget, hr⟩ := hrecv c hc
    obtain ⟨ch', hget', hr', -⟩ := hch c ch hget (.inl hr)
    exact ⟨ch', hget', hr' hr⟩
  · unfold Thread.Sends at hs
    rw [hstack] at hs
    obtain ⟨c, ch, hon', hget, hmem⟩ := hsend hs
    obtain ⟨ch', hget', -, hmem'⟩ := hch c ch hget (.inr hmem)
    exact ⟨c, ch', hon.trans hon', hget', hmem' hmem⟩

/-- A channel changes and does not lose the thread. -/
theorem Findable.modifyChannel {f : Channel → Channel} (h : k.Findable t)
    (hf : ∀ ch, k.channels.get c = some ch → (ch.receiver = some t → (f ch).receiver = some t) ∧
      (t ∈ ch.queue → t ∈ (f ch).queue)) : (k.modifyChannel c f).Findable t := by
  refine h.of_keeps (fun th ht hb => ⟨th, ht, hb, rfl, rfl⟩) fun x chx hx _ => ?_
  rw [modifyChannel_channels, get_modify]
  split
  · subst x
    exact ⟨f chx, by rw [hx]; rfl, hf chx hx⟩
  · exact ⟨chx, hx, id, id⟩

/-- Another thread changes. -/
theorem Findable.modifyThread_of_ne {g : Thread → Thread} (h : k.Findable t) (hne : t ≠ r) :
    (k.modifyThread r g).Findable t := by
  refine h.of_keeps (fun th ht hb => ⟨th, ?_, hb, rfl, rfl⟩) fun x chx hx _ => ⟨chx, hx, id, id⟩
  rwa [modifyThread_threads, get_modify_of_ne _ _ (.symm hne)] at ht

/-- A thread that is not blocked is not waiting for anybody. -/
theorem findable_of_ready (ht : k.threads.get t = some th) (hb : th.blocked = false) :
    k.Findable t := by
  intro th' ht' hb'
  rw [ht] at ht'
  cases ht'
  simp [hb] at hb'

/-- A thread is unblocked, and the others are as they were. -/
theorem findable_unblock (ht : k.threads.get r = some th) (h : t ≠ r → k.Findable t) :
    (k.modifyThread r fun th => { th with blocked := false }).Findable t := by
  by_cases hne : t = r
  · subst hne
    have hself : (k.threads.modify t fun th => { th with blocked := false }).get t =
        some { th with blocked := false } := by simp [ht]
    exact findable_of_ready hself rfl
  · exact (h hne).modifyThread_of_ne hne

theorem findable_threadResume (h : t ≠ r → k.Findable t) (hk : k.threadResume r = .ok k') :
    k'.Findable t := by
  obtain ⟨th, ht, ⟨-, rfl⟩ | ⟨hb, rfl⟩⟩ := threadResume_eq_ok.mp hk
  · exact (findable_unblock ht h).congr rfl rfl
  · by_cases hne : t = r
    · exact findable_of_ready (hne ▸ ht) hb
    · exact h hne

/-- Taking the receiver from a channel loses nobody else. -/
theorem Findable.clear (h : k.Findable t) (hc : k.channels.get c = some ch)
    (hr : ch.receiver = some r) (hne : t ≠ r) :
    (k.modifyChannel c fun ch => { ch with receiver := none }).Findable t := by
  refine h.modifyChannel fun ch' hc' => ⟨fun hr' => ?_, id⟩
  rw [hc] at hc'
  cases hc'
  rw [hr] at hr'
  exact absurd (some.inj hr').symm hne

/-- **Quiet changes lose nobody.** -/
theorem QuietStep.findable (hs : QuietStep k k') (h : k.Findable t) : k'.Findable t := by
  cases hs with
  | channel hf =>
    refine h.modifyChannel fun ch _ => ?_
    rw [(hf ch).1, (hf ch).2]
    exact ⟨id, id⟩
  | @alloc ch hr hq =>
    refine h.of_keeps (fun th ht hb => ⟨th, ht, hb, rfl, rfl⟩) fun x chx hx _ => ?_
    exact ⟨chx, get_alloc_of_get hx, id, id⟩
  | processes ps => exact h.congr rfl rfl
  | @thread s g hg =>
    refine h.of_keeps (fun th ht hb => ?_) fun x chx hx _ => ⟨chx, hx, id, id⟩
    rw [modifyThread_threads, get_modify] at ht
    split at ht
    · obtain ⟨th₀, ht₀, rfl⟩ := map_eq_some_iff.mp ht
      exact ⟨th₀, ht₀, (hg th₀).1 ▸ hb, (hg th₀).2⟩
    · exact ⟨th, ht, hb, rfl, rfl⟩
  | @ready s g th hts hb hg =>
    by_cases hne : t = s
    · subst hne
      have hself : (k.modifyThread t g).threads.get t = some (g th) := by simp [hts]
      exact findable_of_ready hself hg
    · exact h.modifyThread_of_ne hne
  | @free c ch hc hr hq =>
    refine h.of_keeps (fun th ht hb => ⟨th, ht, hb, rfl, rfl⟩) fun x chx hx hreg => ?_
    refine ⟨chx, get_free_eq_some.2 ⟨?_, hx⟩, id, id⟩
    rintro rfl
    rw [hc] at hx
    cases hx
    simp [hr, hq] at hreg
  | @wake c ch r th hc hr ht =>
    have hwoken := findable_unblock (t := t)
      (k := k.modifyChannel c fun ch => { ch with receiver := none }) ht (h.clear hc hr)
    exact hwoken.congr rfl rfl

theorem Quiet.findable (hs : Quiet k k') (h : k.Findable t) : k'.Findable t := by
  induction hs with
  | refl => exact h
  | tail _ hs ih => exact hs.findable ih

/-! ## Deliveries -/

/-- Linking a channel with a new one touches no thread. -/
theorem channelLink_threads {d : ChId} (hd : k.channels.get d = some ch) (hl : ch.linkedWith = d)
    (hk : k.channelLink c d = .ok k') : k'.threads = k.threads ∧ k'.current = k.current := by
  by_cases hcd : c = d
  · subst hcd
    obtain rfl : k = k' := Except.ok.inj ((channelLinkWith_self hd hl).symm.trans hk)
    exact ⟨rfl, rfl⟩
  · obtain ⟨-, -, rfl⟩ := channelLinkWith_of_ne hcd hk
    exact ⟨rfl, rfl⟩

/-- The part of a thread a page payload depends on. -/
def SamePaging (th th' : Thread) : Prop :=
  th'.inKernelBuffer = th.inKernelBuffer ∧ th'.pageBase = th.pageBase

theorem samePaging_modifyIpcBuffer (f : Message → Message) :
    SamePaging th (th.modifyIpcBuffer f) := by
  unfold Thread.modifyIpcBuffer Thread.setIpcBuffer
  split <;> exact ⟨rfl, rfl⟩

/-- A channel payload that can be delivered is. -/
theorem sendChannel_ok {e : Err} (hne : r ≠ k.current) (ht : k.threads.get k.current = some th)
    (hr : k.threads.get r = some rt)
    (hok : (!hasFlag header msgChannelPayload || k.channelPayloadOk th rt) = true)
    (hk : k.sendChannel header r = .ok (k', e)) :
    e = .ok ∧ k'.current = k.current ∧ k'.threads.get k.current = some th ∧
      ∃ rt', k'.threads.get r = some rt' ∧ SamePaging rt rt' := by
  unfold sendChannel at hk
  split at hk
  · rename_i hflag
    rw [hflag, Bool.not_true, Bool.false_or, channelPayloadOk, Bool.and_eq_true] at hok
    simp only [bind_eq_ok, thread_eq_ok, process_eq_ok, ht, some.injEq, exists_eq_left'] at hk
    obtain ⟨pr, hpr, found, hfound, hk⟩ := hk
    have hsome : found.isSome := by
      simpa [hpr, hfound, Except.toOption] using hok.1
    obtain ⟨payload, rfl⟩ := isSome_iff_exists.mp hsome
    simp only [bind_eq_ok, thread_eq_ok, hr, some.injEq, exists_eq_left'] at hk
    obtain ⟨⟨k₁, o⟩, hk₁, hk⟩ := hk
    obtain ⟨-, -, rpr, hrpr, hfull⟩ | ⟨rpr, cid, table, -, -, rfl, hch, hth, -, hcur, -⟩ :=
      channelCreate_eq_ok hk₁
    · simp [hrpr, hfull] at hok
    · simp only [bind_eq_ok, pure_eq_ok, Prod.mk.injEq] at hk
      obtain ⟨p, -, k₂, hk₂, new, -, rfl, rfl⟩ := hk
      have hnew : k₁.channels.get k.channels.size =
          some (freshChannel rt.process cid k.channels.size) := by
        rw [hch, get_alloc, if_pos rfl]
      obtain ⟨hths, hcur₂⟩ := channelLink_threads hnew rfl hk₂
      refine ⟨rfl, hcur₂.trans hcur, ?_, ?_⟩
      · rw [modifyThread_threads, get_modify_of_ne _ _ hne, hths, hth, ht]
      · refine ⟨rt.modifyIpcBuffer fun m => { m with channel := new.cid }, ?_,
          samePaging_modifyIpcBuffer _⟩
        simp [hths, hth, hr]
  · obtain ⟨rfl, rfl⟩ := Prod.mk.inj (pure_eq_ok.mp hk)
    exact ⟨rfl, rfl, ht, rt, hr, rfl, rfl⟩

/-- A page payload that can be delivered is. -/
theorem sendPage_ok {e : Err} (ht : k.threads.get k.current = some th)
    (hr : k.threads.get r = some rt) (hok : hasFlag header msgPagePayload = true →
      (rt.inKernelBuffer || acceptsPage rt.pageBase th.ipcBuffer.page) = true)
    (hk : k.sendPage paging header r = .ok (k', e)) : e = .ok := by
  unfold sendPage at hk
  split at hk
  · rename_i hflag
    simp only [bind_eq_ok, thread_eq_ok, ht, hr, some.injEq, exists_eq_left', ite_eq_ok,
      pure_eq_ok, Prod.mk.injEq, reduceCtorEq, and_false, false_or] at hk
    obtain ⟨pr, -, -, ⟨-, -, rfl⟩ | ⟨hkb, ⟨-, -, rfl⟩ | ⟨hacc, -⟩⟩⟩ := hk
    · rfl
    · rfl
    · simp_all
  · exact (Prod.mk.inj (pure_eq_ok.mp hk)).2.symm

/-- **A message whose payloads can be delivered is delivered.** -/
theorem deliver_ok {linked : ChId} {e : Err} (hne : r ≠ k.current)
    (ht : k.threads.get k.current = some th) (hr : k.threads.get r = some rt)
    (hok : k.payloadOk paging header th rt = true)
    (hk : k.deliver paging header linked r = .ok (k', e)) : e = .ok := by
  simp only [payloadOk, Bool.and_eq_true] at hok
  simp only [deliver, bind_eq_ok, ite_eq_ok, pure_eq_ok, Prod.mk.injEq] at hk
  obtain ⟨k₁, hk₁, ⟨k₂, e₂⟩, hk₂, hrest⟩ := hk
  simp only [copyMessage, bind_eq_ok, updateThread_eq_ok] at hk₁
  obtain ⟨th', -, l, -, -, rfl⟩ := hk₁
  set copy : Message → Message := fun m => { m with
    header := header, sender := l.cid,
    data := copyInline (inlinePayloadLen header) th'.ipcBuffer.data m.data } with hcopy
  have hsame : SamePaging rt (rt.modifyIpcBuffer copy) := samePaging_modifyIpcBuffer copy
  have hproc : ∀ f, (rt.modifyIpcBuffer f).process = rt.process := by
    intro f
    unfold Thread.modifyIpcBuffer Thread.setIpcBuffer
    split <;> rfl
  have ht₁ : (k.modifyThread r fun rt => rt.modifyIpcBuffer copy).threads.get k.current =
      some th := by
    rw [modifyThread_threads, get_modify_of_ne _ _ hne, ht]
  have hr₁ : (k.modifyThread r fun rt => rt.modifyIpcBuffer copy).threads.get r =
      some (rt.modifyIpcBuffer copy) := by
    rw [modifyThread_threads, get_modify_self, hr]
    rfl
  have hch₁ : (!hasFlag header msgChannelPayload || (k.modifyThread r fun rt =>
      rt.modifyIpcBuffer copy).channelPayloadOk th (rt.modifyIpcBuffer copy)) = true := by
    have hch := hok.1
    unfold channelPayloadOk at hch ⊢
    rw [hproc]
    exact hch
  obtain ⟨rfl, hcur₂, ht₂, rt₂, hr₂, hsame₂⟩ := sendChannel_ok
    (k := k.modifyThread r fun rt => rt.modifyIpcBuffer copy) hne ht₁ hr₁ hch₁ hk₂
  rcases hrest with ⟨he, -⟩ | ⟨-, ⟨k₃, e₃⟩, hk₃, hrest⟩
  · exact absurd rfl he
  have he₃ : e₃ = .ok := by
    refine sendPage_ok (hcur₂ ▸ ht₂) hr₂ (fun hflag => ?_) hk₃
    have hpage := hok.2
    rw [hflag, Bool.not_true, Bool.false_or, pagePayloadOk, Bool.and_eq_true] at hpage
    rw [hsame₂.1, hsame₂.2, hsame.1, hsame.2]
    exact hpage.2
  rcases hrest with ⟨he, -⟩ | ⟨-, k₄, -, -, rfl⟩
  · exact absurd he₃ he
  · rfl

/-! ## The calls -/

/-- **No thread is lost**: every thread can be found. -/
def AllFindable (k : Kernel PT) : Prop := ∀ t, k.Findable t

theorem Quiet.allFindable (hs : Quiet k k') (h : k.AllFindable) : k'.AllFindable :=
  fun t => hs.findable (h t)

theorem threadSwitch_frame (h : k.threadSwitch = .ok k') :
    k'.channels = k.channels ∧ k'.threads = k.threads := by
  obtain ⟨th, -, rfl⟩ := threadSwitch_eq_ok.mp h
  split <;> exact ⟨rfl, rfl⟩

namespace AllFindable

variable (h : k.AllFindable)

include h

theorem threadSwitch (hk : k.threadSwitch = .ok k') : k'.AllFindable :=
  fun t => (h t).congr (threadSwitch_frame hk).1 (threadSwitch_frame hk).2

/-- The current thread registers with a channel that loses nobody. -/
theorem park {f : Channel → Channel} {g : Thread → Thread}
    (hc : k.channels.get c = some ch) (ht : k.threads.get k.current = some th)
    (hrec : ∀ t, ch.receiver = some t → (f ch).receiver = some t)
    (hqueue : ∀ t ∈ ch.queue, t ∈ (f ch).queue)
    (hrecv : ∀ d, (g th).Receives d → d = c ∧ (f ch).receiver = some k.current)
    (hsend : (g th).Sends → (g th).blockedOn = some c ∧ k.current ∈ (f ch).queue) :
    (k.park c f g).AllFindable := by
  have hget : (k.park c f g).channels.get c = some (f ch) := by
    rw [get_park_channel, if_pos rfl, hc]
    rfl
  intro t
  by_cases hcur : t = k.current
  · subst hcur
    intro th' ht' _
    rw [get_park_current ht] at ht'
    cases ht'
    refine ⟨fun d hd => ?_, fun hs => ?_⟩
    · obtain ⟨rfl, hr⟩ := hrecv d hd
      exact ⟨f ch, hget, hr⟩
    · obtain ⟨hon, hmem⟩ := hsend hs
      exact ⟨c, f ch, hon, hget, hmem⟩
  · refine .modifyThread_of_ne ((h t).modifyChannel fun ch' hc' => ?_) hcur
    rw [hc] at hc'
    cases hc'
    exact ⟨hrec t, hqueue t⟩

/-- The current thread waits to receive. -/
theorem waitAt {frame : Frame} (hc : k.channels.get c = some ch)
    (hnone : ch.receiver = none) (ht : k.threads.get k.current = some th)
    (hframe : frame = .recvWait c ∨ frame = .fastWait c) : (k.waitAt c frame).AllFindable := by
  refine h.park hc ht (fun t ht => ?_) (fun t ht => ht) (fun d hd => ⟨?_, rfl⟩) ?_
  · simp [hnone] at ht
  · rcases hframe with rfl | rfl <;> rcases hd with hd | hd <;> simp [blockedAt] at hd <;>
      exact hd.symm
  · rintro ⟨_, _, _, hs⟩
    rcases hframe with rfl | rfl <;> simp [blockedAt] at hs

/-- The first sender of a queue leaves it and is resumed. -/
theorem resumeSender (hc : k.channels.get c = some ch)
    (hk : k.resumeSender c ch.queue = .ok k') : k'.AllFindable := by
  cases hq : ch.queue with
  | nil =>
    rw [hq] at hk
    obtain rfl := pure_eq_ok.mp hk
    exact h
  | cons s rest =>
    rw [hq] at hk
    obtain ⟨k₁, hk₁, hres⟩ := bind_eq_ok.mp hk
    obtain ⟨-, rfl⟩ := updateThread_eq_ok.mp hk₁
    intro t
    refine findable_threadResume (fun hne => ?_) hres
    refine .modifyThread_of_ne ((h t).modifyChannel fun ch' hc' => ⟨id, fun hmem => ?_⟩) hne
    rw [hc] at hc'
    cases hc'
    rw [hq] at hmem
    exact (mem_cons.mp hmem).resolve_left hne

theorem receivePhase (hrun : k.Running) (hk : k.receivePhase c₀ = .ok k') :
    k'.AllFindable := by
  obtain ⟨e, rfl⟩ | ⟨recv, rc, k₁, hrc, hnone, ⟨th, ht⟩, hresume, hswitch⟩ := receivePhase_cases hk
  · exact (quiet_ipcReturn hrun e).allFindable h
  · have hparked := h.waitAt hrc hnone ht (.inl rfl)
    exact (hparked.resumeSender (get_waitAt hrc) hresume).threadSwitch hswitch

theorem afterSend {syscall : BitVec 32} (hrun : k.Running)
    (hk : k.afterSend c₀ syscall = .ok k') : k'.AllFindable := by
  obtain ⟨e, rfl⟩ | hk := afterSend_cases hk
  · exact (quiet_ipcReturn hrun e).allFindable h
  · exact h.receivePhase hrun hk

/-- **A send loses nobody** if what it delivers can be delivered. -/
theorem sendPhase {syscall : BitVec 32} (hsched : Scheduled k)
    (hidle : k.current ≠ k.idle) (hok : k.SendOk paging c₀ header)
    (hk : k.sendPhase paging c₀ syscall header = .ok k') : k'.AllFindable := by
  have hrun := hsched.running hidle
  obtain ⟨e, rfl⟩ | ⟨dst, d, hdest, hd, ⟨r, linked, k₁, e, hr, hdel, hrest⟩ | ⟨⟨th, ht⟩, hswitch⟩⟩ :=
    sendPhase_cases hk
  · exact (quiet_ipcReturn hrun e).allFindable h
  · obtain ⟨rt, hrt⟩ := exists_thread_of_deliver hdel
    obtain ⟨th, ht, hb⟩ := hrun
    have hne : r ≠ k.current := hsched.ne_current ⟨dst, d, hd, .inl hr⟩
    have hpayload : k.payloadOk paging header th rt = true := hok _ hdest r hr th ht rt hrt
    have he : e = .ok := deliver_ok (k := k.modifyChannel dst fun d => { d with receiver := none })
      hne ht hrt hpayload hdel
    obtain ⟨he', -⟩ | ⟨-, k₂, hquiet, hresume⟩ := deliver_cases hdel
    · exact absurd he he'
    obtain ⟨he', -⟩ | ⟨-, hafter⟩ := hrest
    · exact absurd he he'
    have hall : k₁.AllFindable := fun t =>
      findable_threadResume (fun hne => hquiet.findable ((h t).clear hd hr hne)) hresume
    refine hall.afterSend ?_ hafter
    have hrun₂ : k₂.Running := .quiet (k := k.modifyChannel dst fun d => { d with
      receiver := none }) ⟨th, ht, hb⟩ hquiet
    obtain ⟨th₂, ht₂, hb₂⟩ := hrun₂
    obtain ⟨thr, htr, ⟨-, rfl⟩ | ⟨-, rfl⟩⟩ := threadResume_eq_ok.mp hresume
    · refine ⟨th₂, ?_, hb₂⟩
      show (k₂.threads.modify r _).get k₂.current = some th₂
      rw [get_modify_of_ne _ _ (hquiet.current.1 ▸ hne), ht₂]
    · exact ⟨th₂, ht₂, hb₂⟩
  · refine .threadSwitch (h.park hd ht (fun t ht => ht)
      (fun t hmem => mem_append_left _ hmem) (fun x hx => ?_) fun _ => ⟨rfl, ?_⟩) hswitch
    · rcases hx with hx | hx <;> simp [blockedAt] at hx
    · exact mem_append_right _ (mem_singleton_self _)

theorem sysIpc {cid : ℤ} {flags : BitVec 32} (hsched : Scheduled k)
    (hidle : k.current ≠ k.idle) (hok : hasFlag flags ipcSend = true → k.IpcOk paging cid)
    (hk : k.sysIpc paging cid flags = .ok k') : k'.AllFindable := by
  have hrun := hsched.running hidle
  obtain ⟨e, rfl⟩ | ⟨c₀, hafter⟩ | ⟨c₀, ch, th, hfound, hch, hdes, ht, hflag, hsend⟩ :=
    sysIpc_cases hk
  · exact (quiet_ipcReturn hrun e).allFindable h
  · exact h.afterSend hrun hafter
  · have hsendOk := hok hflag (some c₀) (by rw [hfound]; rfl) c₀ rfl ch hch hdes th ht
    exact h.sendPhase hsched hidle hsendOk hsend

theorem fastpath {cid : ℤ} {recv linked dst : ChId}
    (htest : k.fastpathTest cid = .ok (some (recv, linked, dst, r)))
    (hk : k.fastpath recv linked dst r = .ok k') : k'.AllFindable := by
  obtain ⟨c₀, ch, l, th₀, rc, d, -, -, -, -, -, -, -, hrc, -, hnone, -, hd, -, hr, -⟩ :=
    fastpathTest_eq_ok htest
  obtain ⟨th, rt, k₃, ht, hrt, hcopy, rfl⟩ := fastpath_eq_ok hk
  have hdp : (k.waitAt recv (.fastWait recv)).channels.get dst = some d := by
    rw [Kernel.waitAt, get_park_channel, if_neg (ne_of_receiver hrc hnone hd hr), hd]
  have hparked := h.waitAt hrc hnone ht (.inr rfl)
  intro t
  refine .congr (k := k₃) ?_ rfl rfl
  refine Quiet.findable (quiet_copyMessage hcopy) ?_
  -- the receiver is taken from its channel and runs
  exact findable_unblock hrt ((hparked t).clear hdp hr)

theorem resumeFrame (hsched : Scheduled k) (hidle : k.current ≠ k.idle)
    (hok : k.ResumeOk paging) (hk : k.resumeFrame paging = .ok k') : k'.AllFindable := by
  have hrun := hsched.running hidle
  obtain ⟨th, rest, ht, ⟨e, rfl⟩ | ⟨c₀, syscall, header, hstack, habort, hsend⟩ |
    ⟨recv, k₁, hk₁, hk'⟩⟩ := resumeFrame_cases hk
  all_goals have hpop : Quiet k (k.popFrame rest) := quiet_modifyCurrent hrun fun _ hb => hb
  · exact Quiet.allFindable (hpop.trans (quiet_returnAbort (hrun.quiet hpop) e)) h
  · have hsendOk := hok th ht habort _ (by rw [hstack]; rfl) (c₀, header) rfl
    refine (hpop.allFindable h).sendPhase (hpop.scheduled hsched) hidle ?_ hsend
    -- the message is the same, and so is the receiver, which is not the current thread
    intro d hd r hr th' ht' rt hrt
    obtain ⟨dst, d⟩ := d
    have hd' : k.destination c₀ = some (dst, d) := hd
    obtain ⟨-, -, -, -, -, hdget, -⟩ := destination_eq_some.mp hd'
    have hne : r ≠ k.current := hsched.ne_current ⟨dst, d, hdget, .inl hr⟩
    have hrt' : k.threads.get r = some rt := by
      rw [← hrt, popFrame, modifyThread_threads, get_modify_of_ne _ _ (.symm hne)]
    have ht'' : some { th with kstack := rest } = some th' := by
      rw [← ht']
      simp [popFrame, ht]
    cases ht''
    exact hsendOk _ hd' r hr th ht rt hrt'
  · have hquiet := hpop.trans (quiet_takeNotification hk₁)
    rcases hk' with rfl | ⟨e, rfl⟩
    · exact Quiet.allFindable (hquiet.trans (quiet_ipcReturn (hrun.quiet hquiet) .ok)) h
    · exact Quiet.allFindable (hquiet.trans (quiet_returnAbort (hrun.quiet hquiet) e)) h

theorem threadDestroy (hk : k.threadDestroy r = .ok k') : k'.AllFindable := by
  obtain ⟨th, k₁, ht, -, -, hk₁, rfl⟩ := threadDestroy_eq_ok hk
  intro t
  by_cases htr : t = r
  · subst htr
    intro th' ht'
    simp [get_free] at ht'
  · have hleft : k₁.Findable t := by
      obtain rfl | ⟨c, rfl⟩ := leaveQueue_cases hk₁
      · exact h t
      · refine (h t).modifyChannel fun ch _ => ⟨id, fun hmem => ?_⟩
        exact (mem_erase_of_ne htr).mpr hmem
    refine hleft.of_keeps (fun th' ht' hb' => ⟨th', ?_, hb', rfl, rfl⟩)
      fun x chx hx _ => ⟨chx, hx, id, id⟩
    simpa [get_free, Ne.symm htr] using ht'

theorem serve {op : ServerOp PT} (hk : k.serve op = .ok k') : k'.AllFindable := by
  obtain hquiet | ⟨t, hk⟩ | ⟨p, user, kernel, pageBase, hk⟩ := serve_cases hk
  · exact hquiet.allFindable h
  · exact h.threadDestroy hk
  · intro t
    refine findable_threadResume (fun hne => ?_) hk
    refine (h t).of_keeps (fun th' ht' hb' => ⟨th', ?_, hb', rfl, rfl⟩)
      fun x chx hx _ => ⟨chx, hx, id, id⟩
    rwa [get_alloc, if_neg hne] at ht'

/-- **A step that delivers what it sends loses nobody.** -/
theorem step {fastpathOn : Bool} {a : Action PT} (hsched : Scheduled k)
    (hok : k.DeliversAll paging a) (hk : (system paging fastpathOn).step k a = some k') :
    k'.AllFindable := by
  obtain ⟨hen, hk⟩ := system_step hk
  cases a with
  | syscall arg0 arg1 syscall =>
    obtain hquiet | ⟨flags, hsend, hk⟩ | ⟨recv, linked, dst, r, htest, hk⟩ :=
      syscallHandler_cases hk
    · exact hquiet.allFindable h
    · exact h.sysIpc hsched hen.2 (fun hflag => hok (hsend hflag)) hk
    · exact h.fastpath htest hk
  | kernelIpc m cid syscall =>
    have hset : Quiet k (k.enterKernelIpc m) := quiet_enterKernelIpc (hsched.running hen.2)
    exact (hset.allFindable h).sysIpc (hset.scheduled hsched) hen.2 hok hk
  | resume => exact h.resumeFrame hsched (hsched.current_ne_idle hen) hok hk
  | preempt => exact h.threadSwitch hk
  | write t m pageBase =>
    obtain rfl := pure_eq_ok.mp hk
    exact (quiet_writeBuffer t m pageBase).allFindable h
  | serve op => exact h.serve hk

end AllFindable

theorem Boot.allFindable (h : Boot k) : k.AllFindable := by
  intro t th ht _
  have hstack := h.kstack ht
  refine ⟨fun c hc => ?_, fun hs => ?_⟩
  · rcases hc with hc | hc <;> simp [hstack] at hc
  · obtain ⟨_, _, _, hs⟩ := hs
    simp [hstack] at hs

/-- **No thread is lost while every message that finds its receiver can
be delivered.** A thread blocked in `sys_ipc` is then the receiver of the
channel it waits at or in its queue of senders, in every state reached. -/
theorem allFindable_of_deliversAll {fastpathOn : Bool} {k₀ : Kernel PT} (h₀ : Boot k₀)
    (h : (system paging fastpathOn).ReachUnder (fun k a => k.DeliversAll paging a) k₀ k) :
    k.AllFindable := by
  have hinv : Scheduled k ∧ k.AllFindable :=
    h.invariant (I := fun k => Scheduled k ∧ k.AllFindable)
      ⟨h₀.scheduled, h₀.allFindable⟩ fun hI hok hs =>
      ⟨hI.1.step hs, hI.2.step hI.1 hok hs⟩
  exact hinv.2

/-- A message without payloads. -/
def emptyMessage : Message where
  header := 0
  sender := 0
  notification := 0
  channel := 0
  page := 0
  data := []

/-- Page tables that map nothing. -/
def noPages : Paging Unit where
  resolve _ _ := 0
  link _ _ _ _ := ()
  unlink _ _ _ := ()

/-- One process with two threads that are ready to run, and the idle
thread. -/
def twoThreads : Kernel Unit where
  channels := Heap.empty
  threads := ⟨[some (freshThread 0 emptyMessage emptyMessage 0),
    some { freshThread 0 emptyMessage emptyMessage 0 with blocked := false },
    some { freshThread 0 emptyMessage emptyMessage 0 with blocked := false }]⟩
  processes := ⟨[some { channels := replicate 6 .null, channelList := [], pageTable := () }]⟩
  runqueue := [1, 2]
  current := 0
  idle := 0

theorem boot_twoThreads : Boot twoThreads where
  kstack {t th} ht := by
    match t, ht with
    | 0, ht | 1, ht | 2, ht => cases ht; rfl
    | _ + 3, ht => simp [twoThreads, Heap.get] at ht
  unregistered t := by
    rintro ⟨c, ch, hc, -⟩
    simp [twoThreads] at hc
  runqueue_nodup := by decide
  runqueue_ready {t} ht := by
    rcases mem_cons.mp ht with rfl | ht
    · exact ⟨_, rfl, rfl⟩
    · obtain rfl := mem_singleton.mp ht
      exact ⟨_, rfl, rfl⟩
  current := rfl
  idle := ⟨_, rfl, rfl⟩

/-- Thread 1 receives from a channel, thread 2 sends to it and then
receives from it itself. -/
theorem allFindable_of_deliversAll_twoThreads :
    ∃ k, (system noPages false).ReachUnder (fun k a => k.DeliversAll noPages a) twoThreads k ∧
      ∃ ch, k.channels.get 0 = some ch ∧ ch.receiver = some 2 := by
  obtain ⟨k, hreach, th, ht, hb, hstack⟩ : ∃ k,
      (system noPages false).ReachUnder (fun k a => k.DeliversAll noPages a) twoThreads k ∧
        ∃ th ∈ k.threads.get 2, th.blocked = true ∧ th.kstack.head? = some (.recvWait 0) :=
    Machine.exists_reachUnder [.preempt, .syscall 0 0 1, .syscall 1 0 0x200, .syscall 1 0 0x100,
      .syscall 1 0 0x200] (by decide +kernel)
  have hfind := allFindable_of_deliversAll boot_twoThreads hreach 2 th ht hb
  exact ⟨k, hreach, hfind.1 0 (.inl hstack)⟩

/-- **A send that fails loses its receiver.** Thread 1 waits to receive
from a channel, and thread 2 sends to it a message whose channel payload
names no channel: thread 1 stays blocked, and the channel no longer knows
it. -/
theorem not_allFindable_of_invalid_payload :
    ∃ k, Boot twoThreads ∧ (system noPages false).Reach twoThreads k ∧ ¬ k.AllFindable ∧
      1 ∉ k.runqueue ∧ k.current ≠ 1 := by
  obtain ⟨k, hreach, ⟨th, ht, hb, hstack⟩, ⟨ch, hch, hnone⟩, hrunq, hcur⟩ : ∃ k,
      (system noPages false).Reach twoThreads k ∧
        (∃ th ∈ k.threads.get 1, th.blocked = true ∧ th.kstack.head? = some (.recvWait 0)) ∧
        (∃ ch ∈ k.channels.get 0, ch.receiver = none) ∧ 1 ∉ k.runqueue ∧ k.current ≠ 1 :=
    Machine.exists_reachUnder [.preempt, .syscall 0 0 1, .syscall 1 0 0x200,
      .write 2 { emptyMessage with header := 0x1000, channel := 5 } 0, .syscall 1 0 0x100]
      (by decide +kernel)
  refine ⟨k, boot_twoThreads, hreach, fun hall => ?_, hrunq, hcur⟩
  obtain ⟨ch', hch', hr⟩ := (hall 1 th ht hb).1 0 (.inl hstack)
  rw [mem_def.1 hch] at hch'
  cases hch'
  simp [hnone] at hr

/-! ## One place to wait -/

end Archives.Resea.Kernel
