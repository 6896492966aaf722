import Archives.Resea.Calls
/-!
# Resea — who waits and who runs

A thread registered with a channel, as its receiver or as one of its
senders, is blocked in the call that registered it; the threads of the
run queue and the current thread are not blocked. This holds in every
state the system reaches, whatever is sent: a send that fails may leave
a thread blocked that is registered nowhere, but never the other way
round.
-/

namespace Archives.Resea.Kernel

open List Option Heap Quiet

variable {PT : Type} {k k' : Kernel PT} {c c₀ : ChId} {t r : ThId} {ch : Channel} {th : Thread}
  {syscall : BitVec 32} {paging : Paging PT} {cid : ℤ}

/-- The thread is registered with some channel. -/
def Registered (k : Kernel PT) (t : ThId) : Prop :=
  ∃ c ch, k.channels.get c = some ch ∧ (ch.receiver = some t ∨ t ∈ ch.queue)

theorem not_sends_of_receives (h : th.Receives c) : ¬ th.Sends := by
  rintro ⟨ch, syscall, header, hs⟩
  rcases h with h | h <;> simp [h] at hs

/-- **Registered threads wait, queued threads run.** -/
structure Queues (k : Kernel PT) : Prop where
  receiver : ∀ {c ch r th}, k.channels.get c = some ch → ch.receiver = some r →
    k.threads.get r = some th → th.blocked = true ∧ th.Receives c
  sender : ∀ {c ch t th}, k.channels.get c = some ch → t ∈ ch.queue →
    k.threads.get t = some th → th.blocked = true ∧ th.blockedOn = some c ∧ th.Sends
  queue_nodup : ∀ {c ch}, k.channels.get c = some ch → ch.queue.Nodup
  runqueue_nodup : k.runqueue.Nodup
  runqueue_ready : ∀ {t}, t ∈ k.runqueue → ∃ th, k.threads.get t = some th ∧ th.blocked = false
  current_notMem : k.current ∉ k.runqueue
  allocated : ∀ {t}, k.Registered t → t < k.threads.size
  idle : ∃ th, k.threads.get k.idle = some th ∧ th.blocked = true ∧ th.kstack = []

/-- **The scheduler's invariant**: moreover the current thread runs,
unless there is nothing to run. -/
structure Scheduled (k : Kernel PT) : Prop extends Queues k where
  current_ready : k.current ≠ k.idle →
    ∃ th, k.threads.get k.current = some th ∧ th.blocked = false

theorem Queues.blocked_of_registered (h : Queues k) (hr : k.Registered t)
    (ht : k.threads.get t = some th) : th.blocked = true := by
  obtain ⟨c, ch, hc, hrec | hsend⟩ := hr
  · exact (h.receiver hc hrec ht).1
  · exact (h.sender hc hsend ht).1

/-- The idle thread is registered nowhere. -/
theorem Queues.ne_idle (h : Queues k) (hreg : k.Registered t) : t ≠ k.idle := by
  rintro rfl
  obtain ⟨c, ch, hc, hr⟩ := hreg
  obtain ⟨th, ht, -, hstack⟩ := h.idle
  rcases hr with hrec | hsend
  · rcases (h.receiver hc hrec ht).2 with hhead | hhead <;> simp [hstack] at hhead
  · obtain ⟨-, -, ch', s, hd, hhead⟩ := h.sender hc hsend ht
    simp [hstack] at hhead

/-- The current thread is registered nowhere. -/
theorem Scheduled.ne_current (h : Scheduled k) (hreg : k.Registered t) : t ≠ k.current := by
  rintro rfl
  obtain ⟨th, ht, hb⟩ := h.current_ready (h.ne_idle hreg)
  simp [h.blocked_of_registered hreg ht] at hb

/-- A blocked thread is not in the run queue. -/
theorem Queues.notMem_runqueue (h : Queues k) (ht : k.threads.get t = some th)
    (hb : th.blocked = true) : t ∉ k.runqueue := by
  intro hmem
  obtain ⟨th', ht', hready⟩ := h.runqueue_ready hmem
  rw [ht] at ht'
  cases ht'
  simp [hb] at hready

/-! ## Changes that register nobody -/

/-- The channels of `k'` have no registrations that those of `k` do not
have. -/
def Fewer (k k' : Kernel PT) : Prop :=
  ∀ ⦃x chx⦄, k'.channels.get x = some chx → (chx.receiver = none ∧ chx.queue = []) ∨
    ∃ ch, k.channels.get x = some ch ∧ (chx.receiver = ch.receiver ∨ chx.receiver = none) ∧
      chx.queue.Sublist ch.queue

theorem fewer_of_channels (h : k'.channels = k.channels) : Fewer k k' :=
  fun _ chx hx => .inr ⟨chx, h ▸ hx, .inl rfl, .refl _⟩

variable {f : Channel → Channel}

theorem fewer_modifyChannel
    (hf : ∀ ch, k.channels.get c = some ch → ((f ch).receiver = ch.receiver ∨
      (f ch).receiver = none) ∧ (f ch).queue.Sublist ch.queue) : Fewer k (k.modifyChannel c f) := by
  intro x chx hx
  obtain ⟨ch, hc, rfl⟩ := get_modify_eq_some.1 hx
  refine .inr ⟨ch, hc, ?_⟩
  split
  · subst x
    exact hf ch hc
  · exact ⟨.inl rfl, .refl _⟩

theorem Fewer.registered (h : Fewer k k') (hr : k'.Registered t) : k.Registered t := by
  obtain ⟨x, chx, hx, hreg⟩ := hr
  obtain ⟨hrec, hq⟩ | ⟨ch, hc, hrec, hsub⟩ := h hx
  · simp [hrec, hq] at hreg
  · refine ⟨x, ch, hc, ?_⟩
    rcases hreg with hreg | hreg
    · rcases hrec with hrec | hrec
      · exact .inl (hrec ▸ hreg)
      · simp [hrec] at hreg
    · exact .inr (hsub.subset hreg)

/-- **Where nobody registers**, it is enough that the registered threads
still wait as they did, and that the run queue is in order. -/
theorem Queues.of_fewer (h : Queues k) (hfewer : Fewer k k')
    (hthread : ∀ {x thx}, k.Registered x → k'.threads.get x = some thx →
      ∃ th, k.threads.get x = some th ∧ thx.blocked = th.blocked ∧ thx.kstack = th.kstack ∧
        thx.blockedOn = th.blockedOn)
    (hsize : k.threads.size ≤ k'.threads.size) (hnodup : k'.runqueue.Nodup)
    (hready : ∀ {t}, t ∈ k'.runqueue → ∃ th, k'.threads.get t = some th ∧ th.blocked = false)
    (hcurrent : k'.current ∉ k'.runqueue)
    (hidle : ∃ th, k'.threads.get k'.idle = some th ∧ th.blocked = true ∧ th.kstack = []) :
    Queues k' := by
  refine ⟨fun {x chx r th} hx hr ht => ?_, fun {x chx t th} hx hmem ht => ?_,
    fun {x chx} hx => ?_, hnodup, hready, hcurrent,
    fun hreg => (h.allocated (hfewer.registered hreg)).trans_le hsize, hidle⟩
  · obtain ⟨th₀, ht₀, hb, hstack, -⟩ := hthread (hfewer.registered ⟨x, chx, hx, .inl hr⟩) ht
    obtain ⟨hrec, -⟩ | ⟨ch, hc, hrec | hrec, -⟩ := hfewer hx
    · simp [hrec] at hr
    · rw [hb, Thread.Receives, hstack]
      exact h.receiver hc (hrec ▸ hr) ht₀
    · simp [hrec] at hr
  · obtain ⟨th₀, ht₀, hb, hstack, hon⟩ := hthread (hfewer.registered ⟨x, chx, hx, .inr hmem⟩) ht
    obtain ⟨-, hq⟩ | ⟨ch, hc, -, hsub⟩ := hfewer hx
    · simp [hq] at hmem
    · rw [hb, hon, Thread.Sends, hstack]
      exact h.sender hc (hsub.subset hmem) ht₀
  · obtain ⟨-, hq⟩ | ⟨ch, hc, -, hsub⟩ := hfewer hx
    · simp [hq]
    · exact (h.queue_nodup hc).sublist hsub

theorem Queues.modifyChannel (h : Queues k)
    (hf : ∀ ch, k.channels.get c = some ch → ((f ch).receiver = ch.receiver ∨
      (f ch).receiver = none) ∧ (f ch).queue.Sublist ch.queue) : Queues (k.modifyChannel c f) :=
  h.of_fewer (fewer_modifyChannel hf) (fun _ ht => ⟨_, ht, rfl, rfl, rfl⟩) le_rfl
    h.runqueue_nodup h.runqueue_ready h.current_notMem h.idle

/-- A change of a thread that keeps whether and where it waits, or of a
thread that is registered nowhere. -/
theorem Queues.modifyThread {g : Thread → Thread} (h : Queues k)
    (hb : ∀ th, k.threads.get t = some th → (g th).blocked = th.blocked)
    (hg : (∀ th, (g th).kstack = th.kstack ∧ (g th).blockedOn = th.blockedOn) ∨
      (¬ k.Registered t ∧ t ≠ k.idle)) : Queues (k.modifyThread t g) := by
  refine h.of_fewer (fewer_of_channels rfl) (fun {x thx} hreg hx => ?_) (size_modify ..).ge
    h.runqueue_nodup (fun {x} hx => ?_) h.current_notMem ?_
  · obtain ⟨th, ht, rfl⟩ := get_modify_eq_some.1 hx
    refine ⟨th, ht, ?_⟩
    split
    · subst x
      exact ⟨hb th ht, hg.elim (fun hg => hg th) fun hg => absurd hreg hg.1⟩
    · exact ⟨rfl, rfl, rfl⟩
  · obtain ⟨th, ht, hready⟩ := h.runqueue_ready hx
    refine ⟨_, get_modify_eq_some.2 ⟨th, ht, rfl⟩, ?_⟩
    split
    · subst x
      exact (hb th ht).trans hready
    · exact hready
  · obtain ⟨th, ht, hblocked, hstack⟩ := h.idle
    refine ⟨_, get_modify_eq_some.2 ⟨th, ht, rfl⟩, ?_⟩
    split
    · rename_i hti
      obtain rfl : t = k.idle := hti
      rcases hg with hg | hg
      · exact ⟨(hb th ht).trans hblocked, (hg th).1.trans hstack⟩
      · exact absurd rfl hg.2
    · exact ⟨hblocked, hstack⟩

/-- A thread that is registered nowhere is unblocked. The run queue may
get it, and the current thread change. -/
theorem Queues.unblock {queue : List ThId} {cur : ThId} (h : Queues k) (hno : ¬ k.Registered r)
    (hidle : r ≠ k.idle) (ht : k.threads.get r = some th) (hnodup : queue.Nodup)
    (hqueue : ∀ x ∈ queue, x ≠ r → x ∈ k.runqueue) (hcur : cur ∉ queue) :
    Queues { k.modifyThread r (fun th => { th with blocked := false }) with
      runqueue := queue, current := cur } := by
  have hne : ∀ {x}, (x ≠ r) → (k.threads.modify r fun th => { th with blocked := false }).get x =
      k.threads.get x := fun hx => get_modify_of_ne _ _ (.symm hx)
  have hself : (k.threads.modify r fun th => { th with blocked := false }).get r =
      some { th with blocked := false } := by simp [ht]
  refine h.of_fewer (fewer_of_channels rfl)
    (fun {x thx} hreg hx => ⟨thx, (hne ?_).symm.trans hx, rfl, rfl, rfl⟩) (size_modify ..).ge
    hnodup (fun {x} hx => ?_) hcur ?_
  · rintro rfl
    exact hno hreg
  · by_cases hxr : x = r
    · subst hxr
      exact ⟨_, hself, rfl⟩
    · obtain ⟨th', ht', hready⟩ := h.runqueue_ready (hqueue x hx hxr)
      exact ⟨th', (hne hxr).trans ht', hready⟩
  · obtain ⟨th', ht', hblocked, hstack⟩ := h.idle
    exact ⟨th', (hne (.symm hidle)).trans ht', hblocked, hstack⟩

/-- A thread that is registered nowhere can be resumed. -/
theorem Queues.threadResume (h : Queues k) (hno : ¬ k.Registered r) (hidle : r ≠ k.idle)
    (hcur : r = k.current → ∀ th, k.threads.get r = some th → th.blocked = false)
    (hk : k.threadResume r = .ok k') : Queues k' := by
  obtain ⟨th, ht, ⟨hb, rfl⟩ | ⟨-, rfl⟩⟩ := threadResume_eq_ok.mp hk
  · have hrc : k.current ≠ r := by
      intro heq
      simp [hcur heq.symm th ht] at hb
    refine h.unblock hno hidle ht (.append h.runqueue_nodup (nodup_singleton r) ?_)
      (fun x hx hxr => ?_) ?_
    · exact disjoint_singleton.2 (h.notMem_runqueue ht hb)
    · simpa [hxr] using hx
    · simpa [hrc] using h.current_notMem
  · exact h

theorem Scheduled.threadResume (h : Scheduled k) (hno : ¬ k.Registered r) (hidle : r ≠ k.idle)
    (hk : k.threadResume r = .ok k') : Scheduled k' := by
  refine ⟨h.toQueues.threadResume hno hidle ?_ hk, ?_⟩
  · rintro rfl th ht
    obtain ⟨th', ht', hb⟩ := h.current_ready hidle
    rw [ht] at ht'
    cases ht'
    exact hb
  · obtain ⟨th, ht, ⟨hb, rfl⟩ | ⟨-, rfl⟩⟩ := threadResume_eq_ok.mp hk
    · intro hne
      obtain ⟨th', ht', hready⟩ := h.current_ready hne
      simp only [modifyThread_threads, modifyThread_current, get_modify]
      split
      · exact ⟨{ th' with blocked := false }, by rw [ht']; rfl, rfl⟩
      · exact ⟨th', ht', hready⟩
    · exact h.current_ready

/-- The receiver of a channel is registered nowhere else. -/
theorem Queues.not_registered_of_receiver (h : Queues k) (hc : k.channels.get c = some ch)
    (hr : ch.receiver = some r) (ht : k.threads.get r = some th) :
    ¬ (k.modifyChannel c fun ch => { ch with receiver := none }).Registered r := by
  have hrecv := (h.receiver hc hr ht).2
  rintro ⟨x, chx, hx, hreg⟩
  obtain ⟨ch₀, hc₀, rfl⟩ := get_modify_eq_some.1 hx
  rcases hreg with hreg | hreg
  · split at hreg
    · simp at hreg
    · have hrecv' := (h.receiver hc₀ hreg ht).2
      rcases hrecv with hh | hh <;> rcases hrecv' with hh' | hh' <;>
        simp_all
  · have hqueue : r ∈ ch₀.queue := by
      split at hreg <;> exact hreg
    exact not_sends_of_receives hrecv (h.sender hc₀ hqueue ht).2.2

/-- A channel that somebody is taken from keeps the invariant. -/
theorem Scheduled.clear (h : Scheduled k) :
    Scheduled (k.modifyChannel c fun ch => { ch with receiver := none }) :=
  ⟨h.toQueues.modifyChannel fun _ _ => ⟨.inr rfl, List.Sublist.refl _⟩, h.current_ready⟩

theorem QuietStep.fewer (hs : QuietStep k k') : Fewer k k' := by
  cases hs with
  | channel hf => exact fewer_modifyChannel fun ch _ => ⟨.inl (hf ch).1, by rw [(hf ch).2]⟩
  | alloc hr hq =>
    intro x chx hx
    simp only [get_alloc] at hx
    split at hx
    · cases hx
      exact .inl ⟨hr, hq⟩
    · exact .inr ⟨chx, hx, .inl rfl, .refl _⟩
  | processes | thread | ready => exact fewer_of_channels rfl
  | free =>
    intro x chx hx
    exact .inr ⟨chx, (get_free_eq_some.1 hx).2, .inl rfl, .refl _⟩
  | @wake c => exact fewer_modifyChannel (c := c) fun _ _ => ⟨.inr rfl, .refl _⟩

/-- **Quiet changes keep the scheduler's invariant.** -/
theorem QuietStep.scheduled (hs : QuietStep k k') (h : Scheduled k) : Scheduled k' := by
  have hready : k'.current ≠ k'.idle →
      ∃ th, k'.threads.get k'.current = some th ∧ th.blocked = false := by
    obtain ⟨hcur, hidle⟩ := Quiet.current (.single hs)
    rw [hcur, hidle]
    intro hne
    obtain ⟨th, ht, hb⟩ := h.current_ready hne
    exact hs.ready_of_ready ht hb
  refine ⟨?_, hready⟩
  have hfewer := hs.fewer
  cases hs with
  | channel | alloc | processes | free =>
    exact h.toQueues.of_fewer hfewer (fun _ ht => ⟨_, ht, rfl, rfl, rfl⟩) le_rfl
      h.runqueue_nodup h.runqueue_ready h.current_notMem h.idle
  | thread hg => exact h.toQueues.modifyThread (fun th _ => (hg th).1) (.inl fun th => (hg th).2)
  | @ready t g th ht hb hg =>
    refine h.toQueues.modifyThread (fun th' ht' => ?_) (.inr ⟨fun hreg => ?_, ?_⟩)
    · rw [ht] at ht'
      cases ht'
      exact hg.trans hb.symm
    · simp [h.blocked_of_registered hreg ht] at hb
    · rintro rfl
      obtain ⟨th', ht', hblocked, -⟩ := h.idle
      rw [ht] at ht'
      cases ht'
      simp [hb] at hblocked
  | @wake c ch r th hc hr ht =>
    -- the receiver is taken from the channel first and resumed then
    have hidle : r ≠ k.idle := h.ne_idle ⟨c, ch, hc, .inl hr⟩
    refine (h.clear.threadResume (h.not_registered_of_receiver hc hr ht) hidle
      (threadResume_eq_ok.mpr ⟨th, ht, .inl ⟨(h.receiver hc hr ht).1, ?_⟩⟩)).toQueues
    rw [if_pos (h.receiver hc hr ht).1]
    rfl

theorem Quiet.scheduled (hs : Quiet k k') (h : Scheduled k) : Scheduled k' := by
  induction hs with
  | refl => exact h
  | tail _ hs ih => exact hs.scheduled ih

/-! ## Waiting -/

/-- **Blocking** where the thread registers keeps registered threads
waiting. -/
theorem Scheduled.park {g : Thread → Thread} (h : Scheduled k)
    (hidle : k.current ≠ k.idle) (hc : k.channels.get c = some ch)
    (ht : k.threads.get k.current = some th) (hb : (g th).blocked = true)
    (hrec : (f ch).receiver = ch.receiver ∨ ((f ch).receiver = some k.current ∧ (g th).Receives c))
    (hqueue : ∀ t ∈ (f ch).queue, t ∈ ch.queue ∨
      (t = k.current ∧ (g th).blockedOn = some c ∧ (g th).Sends))
    (hnodup : (f ch).queue.Nodup) : Queues (k.park c f g) := by
  -- a thread registered before is not the current one, and has not changed
  have hold : ∀ {x chx t}, k.channels.get x = some chx → (chx.receiver = some t ∨ t ∈ chx.queue) →
      (k.park c f g).threads.get t = k.threads.get t := by
    intro x chx t hx hreg
    exact get_park_of_ne (h.ne_current ⟨x, chx, hx, hreg⟩)
  have hchannel : ∀ {x chx}, (k.park c f g).channels.get x = some chx →
      x = c ∧ chx = f ch ∨ k.channels.get x = some chx := by
    intro x chx hx
    rw [get_park_channel] at hx
    split at hx
    · subst x
      rw [hc] at hx
      cases hx
      exact .inl ⟨rfl, rfl⟩
    · exact .inr hx
  refine ⟨fun {x chx r thr} hx hr hthr => ?_, fun {x chx t tht} hx hmem htht => ?_,
    fun {x chx} hx => ?_, h.runqueue_nodup, fun {x} hx => ?_, h.current_notMem,
    fun {t} ⟨x, chx, hx, hreg⟩ => ?_, ?_⟩
  · rcases hchannel hx with ⟨rfl, rfl⟩ | hx
    · rcases hrec with hrec | ⟨hrec, hrecv⟩
      · rw [hrec] at hr
        exact h.receiver hc hr ((hold hc (.inl hr)).symm.trans hthr)
      · rw [hrec] at hr
        cases hr
        rw [get_park_current ht] at hthr
        cases hthr
        exact ⟨hb, hrecv⟩
    · exact h.receiver hx hr ((hold hx (.inl hr)).symm.trans hthr)
  · rcases hchannel hx with ⟨rfl, rfl⟩ | hx
    · rcases hqueue t hmem with hmem | ⟨rfl, hon, hsend⟩
      · exact h.sender hc hmem ((hold hc (.inr hmem)).symm.trans htht)
      · rw [get_park_current ht] at htht
        cases htht
        exact ⟨hb, hon, hsend⟩
    · exact h.sender hx hmem ((hold hx (.inr hmem)).symm.trans htht)
  · rcases hchannel hx with ⟨rfl, rfl⟩ | hx
    · exact hnodup
    · exact h.queue_nodup hx
  · have hne : x ≠ k.current := by
      rintro rfl
      exact h.current_notMem hx
    obtain ⟨thx, htx, hready⟩ := h.runqueue_ready hx
    exact ⟨thx, (get_park_of_ne hne).trans htx, hready⟩
  · have hcur := lt_size_of_get ht
    have hsize : (k.park c f g).threads.size = k.threads.size := size_modify ..
    rw [hsize]
    rcases hchannel hx with ⟨rfl, rfl⟩ | hx
    · rcases hreg with hreg | hreg
      · rcases hrec with hrec | ⟨hrec, -⟩
        · exact h.allocated ⟨_, ch, hc, .inl (hrec ▸ hreg)⟩
        · rw [hrec] at hreg
          cases hreg
          exact hcur
      · rcases hqueue t hreg with hmem | ⟨rfl, -⟩
        · exact h.allocated ⟨_, ch, hc, .inr hmem⟩
        · exact hcur
    · exact h.allocated ⟨x, chx, hx, hreg⟩
  · obtain ⟨thi, hti, hblocked, hstack⟩ := h.idle
    exact ⟨thi, (get_park_of_ne (.symm hidle)).trans hti, hblocked, hstack⟩

/-- **A switch** picks a thread that runs. -/
theorem Queues.threadSwitch (h : Queues k) (hk : k.threadSwitch = .ok k') : Scheduled k' := by
  obtain ⟨th, ht, rfl⟩ := threadSwitch_eq_ok.mp hk
  set queue := if th.blocked then k.runqueue else k.runqueue ++ [k.current] with hqueue
  have hnodup : queue.Nodup := by
    rw [hqueue]
    split
    · exact h.runqueue_nodup
    · refine List.Nodup.append h.runqueue_nodup (nodup_singleton _) ?_
      rintro x hx hxc
      obtain rfl := mem_singleton.mp hxc
      exact h.current_notMem hx
  have hready : ∀ {t}, t ∈ queue → ∃ th, k.threads.get t = some th ∧ th.blocked = false := by
    intro t hmem
    rw [hqueue] at hmem
    split at hmem
    · exact h.runqueue_ready hmem
    · rename_i hb
      rcases mem_append.mp hmem with hmem | hmem
      · exact h.runqueue_ready hmem
      · obtain rfl := mem_singleton.mp hmem
        exact ⟨th, ht, by simpa using hb⟩
  cases hq : queue with
  | nil =>
    refine ⟨⟨h.receiver, h.sender, h.queue_nodup, h.runqueue_nodup, h.runqueue_ready, ?_,
      h.allocated, h.idle⟩,
      fun hne => absurd rfl hne⟩
    obtain ⟨th', ht', hb', -⟩ := h.idle
    exact h.notMem_runqueue ht' hb'
  | cons next rest =>
    rw [hq] at hnodup hready
    obtain ⟨hnotMem, hrest⟩ := nodup_cons.mp hnodup
    exact ⟨⟨h.receiver, h.sender, h.queue_nodup, hrest, fun hx => hready (mem_cons_of_mem _ hx),
      hnotMem, h.allocated, h.idle⟩, fun _ => hready mem_cons_self⟩

/-- The first sender of a queue is registered nowhere else. -/
theorem Queues.not_registered_of_sender {s : ThId} {rest : List ThId} (h : Queues k)
    (hc : k.channels.get c = some ch) (hq : ch.queue = s :: rest) (ht : k.threads.get s = some th) :
    ¬ (k.modifyChannel c fun ch => { ch with queue := rest }).Registered s := by
  have hmem : s ∈ ch.queue := by rw [hq]; exact mem_cons_self
  obtain ⟨-, hon, hsend⟩ := h.sender hc hmem ht
  rintro ⟨x, chx, hx, hreg⟩
  obtain ⟨ch₀, hc₀, rfl⟩ := get_modify_eq_some.1 hx
  rcases hreg with hreg | hreg
  · have hrec : ch₀.receiver = some s := by
      split at hreg <;> exact hreg
    exact not_sends_of_receives (h.receiver hc₀ hrec ht).2 hsend
  · split at hreg
    · have := h.queue_nodup hc
      rw [hq] at this
      exact (nodup_cons.mp this).1 hreg
    · rename_i hne
      have hon' := (h.sender hc₀ hreg ht).2.1
      rw [hon] at hon'
      exact hne (Option.some.inj hon')

/-- Resuming the first sender of a channel. -/
theorem Queues.resumeSender (h : Queues k) (hc : k.channels.get c = some ch)
    (hcur : ∀ t ∈ ch.queue, t ≠ k.current) (hk : k.resumeSender c ch.queue = .ok k') :
    Queues k' := by
  cases hq : ch.queue with
  | nil =>
    rw [hq] at hk
    obtain rfl := pure_eq_ok.mp hk
    exact h
  | cons s rest =>
    rw [hq] at hk
    have hmem : s ∈ ch.queue := by rw [hq]; exact mem_cons_self
    obtain ⟨k₁, hk₁, hres⟩ := bind_eq_ok.mp hk
    obtain ⟨⟨th, ht⟩, rfl⟩ := updateThread_eq_ok.mp hk₁
    have hno := h.not_registered_of_sender hc hq ht
    have hidle : s ≠ k.idle := h.ne_idle ⟨c, ch, hc, .inr hmem⟩
    have hpop : Queues (k.modifyChannel c fun ch => { ch with queue := rest }) := by
      refine h.modifyChannel fun ch' hc' => ⟨.inl rfl, ?_⟩
      rw [hc] at hc'
      cases hc'
      rw [hq]
      exact sublist_cons_self s rest
    have hset := hpop.modifyThread (t := s) (g := fun th => { th with blockedOn := none })
      (fun _ _ => rfl) (.inr ⟨hno, hidle⟩)
    exact hset.threadResume hno hidle (fun heq => absurd heq (hcur s hmem)) hres

/-! ## The invariant along runs -/

theorem Scheduled.running (h : Scheduled k) (hidle : k.current ≠ k.idle) : k.Running :=
  h.current_ready hidle

theorem Scheduled.receivePhase (h : Scheduled k) (hidle : k.current ≠ k.idle)
    (hk : k.receivePhase c₀ = .ok k') : Scheduled k' := by
  obtain ⟨e, rfl⟩ | ⟨recv, rc, k₁, hrc, hnone, ⟨th, ht⟩, hresume, hswitch⟩ := receivePhase_cases hk
  · exact (quiet_ipcReturn (h.running hidle) e).scheduled h
  · have hnodup := h.queue_nodup hrc
    have hparked : Queues (k.waitAt recv (.recvWait recv)) :=
      h.park hidle hrc ht rfl (.inr ⟨rfl, .inl rfl⟩) (fun t ht => .inl ht) hnodup
    refine (hparked.resumeSender (get_waitAt hrc) (fun t hmem => ?_) hresume).threadSwitch hswitch
    exact h.ne_current ⟨recv, rc, hrc, .inr hmem⟩

theorem Scheduled.afterSend (h : Scheduled k) (hidle : k.current ≠ k.idle)
    (hk : k.afterSend c₀ syscall = .ok k') : Scheduled k' := by
  obtain ⟨e, rfl⟩ | hk := afterSend_cases hk
  · exact (quiet_ipcReturn (h.running hidle) e).scheduled h
  · exact h.receivePhase hidle hk

/-- Quiet changes register nobody. -/
theorem Quiet.not_registered (hs : Quiet k k') (h : ¬ k.Registered t) : ¬ k'.Registered t := by
  induction hs with
  | refl => exact h
  | tail _ hs ih => exact fun hreg => ih (hs.fewer.registered hreg)

theorem Scheduled.sendPhase {header : BitVec 32} (h : Scheduled k) (hidle : k.current ≠ k.idle)
    (hk : k.sendPhase paging c₀ syscall header = .ok k') : Scheduled k' := by
  obtain ⟨e, rfl⟩ | ⟨dst, d, -, hd, ⟨r, linked, k₁, e, hr, hdel, hrest⟩ | ⟨⟨th, ht⟩, hswitch⟩⟩ :=
    sendPhase_cases hk
  · exact (quiet_ipcReturn (h.running hidle) e).scheduled h
  · have hclear : Scheduled (k.modifyChannel dst fun d => { d with receiver := none }) := h.clear
    have hrun := hclear.running hidle
    rcases deliver_cases hdel with ⟨he, hquiet⟩ | ⟨he, k₂, hquiet, hresume⟩
    · rcases hrest with ⟨-, rfl⟩ | ⟨he', -⟩
      · exact scheduled (hquiet.trans (quiet_ipcReturn (hrun.quiet hquiet) e)) hclear
      · exact absurd he' he
    · rcases hrest with ⟨he', -⟩ | ⟨-, hafter⟩
      · exact absurd he he'
      · obtain ⟨thr, htr⟩ := exists_thread_of_deliver hdel
        have hno := hquiet.not_registered (h.not_registered_of_receiver hd hr htr)
        obtain ⟨hcur₂, hidle₂⟩ := hquiet.current
        have hridle : r ≠ k₂.idle := by
          rw [hidle₂]
          exact h.ne_idle ⟨dst, d, hd, .inl hr⟩
        have hsched := (hquiet.scheduled hclear).threadResume hno hridle hresume
        refine hsched.afterSend ?_ hafter
        obtain ⟨th, -, ⟨-, rfl⟩ | ⟨-, rfl⟩⟩ := threadResume_eq_ok.mp hresume
        · exact hcur₂ ▸ hidle₂ ▸ hidle
        · exact hcur₂ ▸ hidle₂ ▸ hidle
  · refine (h.park hidle hd ht rfl (.inl rfl) (fun t hmem => ?_) ?_).threadSwitch hswitch
    · rcases mem_append.mp hmem with hmem | hmem
      · exact .inl hmem
      · exact .inr ⟨mem_singleton.mp hmem, rfl, c₀, syscall, header, rfl⟩
    · refine List.Nodup.append (h.queue_nodup hd) (nodup_singleton _) ?_
      exact fun x hx hxc => h.ne_current ⟨dst, d, hd, .inr hx⟩ (mem_singleton.mp hxc)

theorem Scheduled.sysIpc (h : Scheduled k) (hidle : k.current ≠ k.idle)
    (hk : k.sysIpc paging cid syscall = .ok k') : Scheduled k' := by
  obtain ⟨e, rfl⟩ | ⟨c₀, hafter⟩ | ⟨c₀, ch, th, -, -, -, -, -, hsend⟩ := sysIpc_cases hk
  · exact (quiet_ipcReturn (h.running hidle) e).scheduled h
  · exact h.afterSend hidle hafter
  · exact h.sendPhase hidle hsend

/-! ### The fast path -/

/-- A blocked thread that is registered nowhere is switched to. -/
theorem Queues.switchTo (h : Queues k) (hno : ¬ k.Registered r) (hidle : r ≠ k.idle)
    (ht : k.threads.get r = some th) (hb : th.blocked = true) :
    Scheduled { k.modifyThread r (fun th => { th with blocked := false }) with current := r } := by
  have hrunq := h.notMem_runqueue ht hb
  refine ⟨h.unblock hno hidle ht h.runqueue_nodup (fun _ hx _ => hx) hrunq,
    fun _ => ⟨{ th with blocked := false }, ?_, rfl⟩⟩
  simp [ht]

theorem Scheduled.fastpath {recv linked dst : ChId} (h : Scheduled k) (hidle : k.current ≠ k.idle)
    (htest : k.fastpathTest cid = .ok (some (recv, linked, dst, r)))
    (hk : k.fastpath recv linked dst r = .ok k') : Scheduled k' := by
  obtain ⟨c₀, ch, l, th₀, rc, d, -, -, -, -, -, -, -, hrc, -, hnone, -, hd, -, hr, -⟩ :=
    fastpathTest_eq_ok htest
  obtain ⟨th, rt, k₃, ht, hrt, hcopy, rfl⟩ := fastpath_eq_ok hk
  set kp := k.waitAt recv (.fastWait recv) with hkp
  have hnodup := h.queue_nodup hrc
  have hparked : Queues kp :=
    h.park hidle hrc ht rfl (.inr ⟨rfl, .inr rfl⟩) (fun t ht => .inl ht) hnodup
  have hdp : kp.channels.get dst = some d := by
    rw [hkp, waitAt, get_park_channel, if_neg (ne_of_receiver hrc hnone hd hr), hd]
  simp only [copyMessage, bind_eq_ok, updateThread_eq_ok] at hcopy
  obtain ⟨th', -, l', -, -, rfl⟩ := hcopy
  have hclear : Queues (kp.modifyChannel dst fun d => { d with receiver := none }) :=
    hparked.modifyChannel fun _ _ => ⟨.inr rfl, List.Sublist.refl _⟩
  have hswitched := hclear.switchTo (hparked.not_registered_of_receiver hdp hr hrt)
    (h.ne_idle ⟨dst, d, hd, .inl hr⟩) hrt (hparked.receiver hdp hr hrt).1
  exact scheduled (quiet_modifyIpcBuffer (t := r)) hswitched

/-! ### The whole system -/

theorem Scheduled.resumeFrame (h : Scheduled k) (hidle : k.current ≠ k.idle)
    (hk : k.resumeFrame paging = .ok k') : Scheduled k' := by
  have hrun := h.running hidle
  obtain ⟨th, rest, ht, ⟨e, rfl⟩ | ⟨c₀, syscall, header, -, -, hsend⟩ | ⟨recv, k₁, hk₁, hk'⟩⟩ :=
    resumeFrame_cases hk
  all_goals have hpop : Quiet k (k.popFrame rest) := quiet_modifyCurrent hrun fun _ hb => hb
  · exact scheduled (hpop.trans (quiet_returnAbort (hrun.quiet hpop) e)) h
  · exact (hpop.scheduled h).sendPhase hidle hsend
  · have hquiet := hpop.trans (quiet_takeNotification hk₁)
    rcases hk' with rfl | ⟨e, rfl⟩
    · exact scheduled (hquiet.trans (quiet_ipcReturn (hrun.quiet hquiet) .ok)) h
    · exact scheduled (hquiet.trans (quiet_returnAbort (hrun.quiet hquiet) e)) h

theorem Scheduled.kernelIpc {m : Message} (h : Scheduled k) (hidle : k.current ≠ k.idle)
    (hk : k.kernelIpc paging m cid syscall = .ok k') : Scheduled k' := by
  have hset : Quiet k (k.enterKernelIpc m) := quiet_enterKernelIpc (h.running hidle)
  exact (hset.scheduled h).sysIpc hidle hk

theorem Scheduled.threadDestroy (h : Scheduled k) (hk : k.threadDestroy t = .ok k') :
    Scheduled k' := by
  obtain ⟨th, k₁, ht, hcur, hidle, hk₁, rfl⟩ := threadDestroy_eq_ok hk
  have hleft : Scheduled k₁ ∧ k₁.threads = k.threads ∧ k₁.current = k.current ∧
      k₁.idle = k.idle := by
    obtain rfl | ⟨c, rfl⟩ := leaveQueue_cases hk₁
    · exact ⟨h, rfl, rfl, rfl⟩
    · exact ⟨⟨h.toQueues.modifyChannel fun ch _ => ⟨.inl rfl, erase_sublist⟩,
        h.current_ready⟩, rfl, rfl, rfl⟩
  obtain ⟨h₁, hths, hcur₁, hidle₁⟩ := hleft
  -- what is left of the run queue does not name the thread
  have hrunq : ∀ {x}, x ∈ (if th.blocked then k₁.runqueue else k₁.runqueue.erase t) →
      x ∈ k₁.runqueue ∧ t ≠ x := by
    intro x hx
    split at hx
    · rename_i hb
      refine ⟨hx, ?_⟩
      rintro rfl
      exact h₁.notMem_runqueue (hths ▸ ht) hb hx
    · obtain ⟨hne, hmem⟩ := h₁.runqueue_nodup.mem_erase_iff.mp hx
      exact ⟨hmem, .symm hne⟩
  refine ⟨h₁.toQueues.of_fewer (fewer_of_channels rfl)
    (fun _ hs => ⟨_, (get_free_eq_some.1 hs).2, rfl, rfl, rfl⟩) (size_free ..).ge ?_ (fun hx => ?_)
    (fun hmem => h₁.current_notMem (hrunq hmem).1) ?_,
    fun hne => ?_⟩
  · show (if th.blocked then k₁.runqueue else k₁.runqueue.erase t).Nodup
    split
    · exact h₁.runqueue_nodup
    · exact h₁.runqueue_nodup.erase t
  · obtain ⟨hmem, hne⟩ := hrunq hx
    obtain ⟨thx, htx, hready⟩ := h₁.runqueue_ready hmem
    exact ⟨thx, get_free_eq_some.2 ⟨hne, htx⟩, hready⟩
  · obtain ⟨thi, hti, hrest⟩ := h₁.idle
    exact ⟨thi, get_free_eq_some.2 ⟨hidle₁ ▸ hidle, hti⟩, hrest⟩
  · obtain ⟨thc, htc, hready⟩ := h₁.current_ready hne
    exact ⟨thc, get_free_eq_some.2 ⟨hcur₁ ▸ hcur, htc⟩, hready⟩

/-- A new thread is registered nowhere and waits for nothing. -/
theorem Scheduled.allocThread (h : Scheduled k) (th : Thread) :
    Scheduled { k with threads := k.threads.alloc th } ∧
      ¬ ({ k with threads := k.threads.alloc th } : Kernel PT).Registered k.threads.size ∧
      k.threads.size ≠ k.idle := by
  have hold : ∀ {x thx}, (k.threads.alloc th).get x = some thx → x < k.threads.size →
      k.threads.get x = some thx := by
    intro x thx hx hlt
    rwa [get_alloc, if_neg hlt.ne] at hx
  obtain ⟨thi, hti, hblocked, hstack⟩ := h.idle
  refine ⟨⟨h.toQueues.of_fewer (fewer_of_channels rfl)
    (fun hreg hs => ⟨_, hold hs (h.allocated hreg), rfl, rfl, rfl⟩) (by simp) h.runqueue_nodup
    (fun hx => ?_) h.current_notMem ⟨thi, get_alloc_of_get hti, hblocked, hstack⟩, fun hne => ?_⟩,
    fun hreg => ?_, ?_⟩
  · obtain ⟨thx, htx, hready⟩ := h.runqueue_ready hx
    exact ⟨thx, get_alloc_of_get htx, hready⟩
  · obtain ⟨thc, htc, hready⟩ := h.current_ready hne
    exact ⟨thc, get_alloc_of_get htc, hready⟩
  · exact lt_irrefl _ (h.allocated hreg)
  · exact (lt_size_of_get hti).ne'

theorem Scheduled.serve {op : ServerOp PT} (h : Scheduled k) (hk : k.serve op = .ok k') :
    Scheduled k' := by
  obtain hquiet | ⟨t, hk⟩ | ⟨p, user, kernel, pageBase, hk⟩ := serve_cases hk
  · exact hquiet.scheduled h
  · exact h.threadDestroy hk
  · obtain ⟨halloc, hno, hidle⟩ := h.allocThread (freshThread p user kernel pageBase)
    exact halloc.threadResume hno hidle hk

theorem Scheduled.current_ne_idle (h : Scheduled k) (hmode : ¬ k.InUserMode) :
    k.current ≠ k.idle := by
  intro heq
  obtain ⟨th, ht, -, hstack⟩ := h.idle
  exact hmode ⟨th, heq ▸ ht, hstack⟩

/-- **Every step keeps the scheduler's invariant.** -/
theorem Scheduled.step {fastpathOn : Bool} {a : Action PT} (h : Scheduled k)
    (hk : (system paging fastpathOn).step k a = some k') : Scheduled k' := by
  obtain ⟨hen, hk⟩ := system_step hk
  cases a with
  | syscall arg0 arg1 syscall =>
    obtain hquiet | ⟨flags, -, hk⟩ | ⟨recv, linked, dst, r, htest, hk⟩ := syscallHandler_cases hk
    · exact hquiet.scheduled h
    · exact h.sysIpc hen.2 hk
    · exact h.fastpath hen.2 htest hk
  | kernelIpc m cid syscall => exact h.kernelIpc hen.2 hk
  | resume => exact h.resumeFrame (h.current_ne_idle hen) hk
  | preempt => exact h.toQueues.threadSwitch hk
  | write t m pageBase =>
    obtain rfl := pure_eq_ok.mp hk
    exact (quiet_writeBuffer t m pageBase).scheduled h
  | serve op => exact h.serve hk

/-- The system at boot: nobody waits at a channel, the threads that were
resumed are in the run queue, and the idle thread is current. -/
structure Boot (k : Kernel PT) : Prop where
  kstack : ∀ {t th}, k.threads.get t = some th → th.kstack = []
  unregistered : ∀ t, ¬ k.Registered t
  runqueue_nodup : k.runqueue.Nodup
  runqueue_ready : ∀ {t}, t ∈ k.runqueue → ∃ th, k.threads.get t = some th ∧ th.blocked = false
  current : k.current = k.idle
  idle : ∃ th, k.threads.get k.idle = some th ∧ th.blocked = true

theorem Boot.scheduled (h : Boot k) : Scheduled k := by
  obtain ⟨thi, hti, hblocked⟩ := h.idle
  refine ⟨⟨fun hx hr _ => absurd ⟨_, _, hx, .inl hr⟩ (h.unregistered _),
    fun hx hmem _ => absurd ⟨_, _, hx, .inr hmem⟩ (h.unregistered _), fun {c ch} hx => ?_,
    h.runqueue_nodup, h.runqueue_ready, fun hmem => ?_, fun hx => absurd hx (h.unregistered _),
    thi, hti, hblocked, h.kstack hti⟩, fun hne => absurd h.current hne⟩
  · have hempty : ch.queue = [] :=
      eq_nil_iff_forall_not_mem.mpr fun t ht => h.unregistered t ⟨c, ch, hx, .inr ht⟩
    simp [hempty]
  · rw [h.current] at hmem
    obtain ⟨th, ht, hready⟩ := h.runqueue_ready hmem
    rw [hti] at ht
    cases ht
    simp [hblocked] at hready

/-- **The scheduler's invariant holds in every state the system reaches.** -/
theorem scheduled_of_reach {fastpathOn : Bool} {k₀ : Kernel PT} (h₀ : Boot k₀)
    (h : (system paging fastpathOn).Reach k₀ k) : Scheduled k :=
  h.invariant h₀.scheduled fun hI _ hs => hI.step hs

end Archives.Resea.Kernel
