import Archives.Ftl.Invariant
/-!
# FTL — no blocked thread is lost, while re-polls succeed

A thread blocked on a poll is among its waiters until a notification
moves it to the run queue. There the scheduler polls for it again: if the
event was taken by another thread in the meantime, the scheduler drops
the thread, and it is in neither place. `allFindable_of_rePolls` shows
that this is the only way to lose a thread, over every system call and
interrupt.
-/

namespace Archives.Ftl.Kernel

variable {k k' : Kernel} {t p : Addr}

/-! ## The scheduler -/

/-- A poll with an event gives one. -/
theorem tryWait_of_hasEvent (h : hasEvent (k.polls p) = true) : ∃ ev, (k.tryWait p).1 = some ev := by
  have key : ∀ ids : List HandleId, (ids.any fun id => (k.polls p).objects.contains id) = true →
      ∃ e rest, popReady (k.polls p).objects ids = (some e, rest) := by
    intro ids
    induction ids with
    | nil => simp
    | cons id ids ih =>
      intro hany
      rcases hid : (k.polls p).objects[id]? with _ | object
      · rw [List.any_cons, Std.ExtTreeMap.contains_eq_isSome_getElem?, hid] at hany
        obtain ⟨e, rest, hpop⟩ := ih hany
        exact ⟨e, rest, by simp [popReady, hid, hpop]⟩
      · exact ⟨(id, object), ids, by simp [popReady, hid]⟩
  obtain ⟨⟨id, object⟩, rest, hpop⟩ := key _ h
  exact ⟨⟨id, object.ready⟩, by simp [tryWait, hpop]⟩

/-- The run queue may lose a thread that does not wait. -/
theorem Sound.dequeue {rest : List Addr} (h : Sound k) (hq : k.runqueue = t :: rest)
    (hs : ∀ p, (k.threads t).state ≠ .blocked p) : Sound { k with runqueue := rest } where
  live := h.live.of_eq rfl rfl rfl
  blocked := by
    intro u p hu
    obtain ⟨hp, hw | hr⟩ := h.blocked u p hu
    · exact ⟨hp, .inl hw⟩
    · rw [hq] at hr
      rcases List.mem_cons.1 hr with rfl | hr
      · exact absurd hu (hs p)
      · exact ⟨hp, .inr hr⟩

/-- A thread in the run queue may leave it when it goes on. -/
theorem Sound.resume {rest : List Addr} (h : Sound k) (hq : k.runqueue = t :: rest)
    (hn : Notifies { k with runqueue := rest } k') : Sound (k'.setState t .runnable) where
  live := h.live.of_eq hn.next hn.processes hn.channels
  blocked := by
    intro u p hu
    by_cases hut : u = t
    · subst hut
      simp at hu
    · rw [threads_setState_of_ne _ _ hut, hn.threads] at hu
      obtain ⟨hp, hw | hr⟩ := h.blocked u p hu
      · exact ⟨hn.next ▸ hp, hn.waiters p u hw⟩
      · rw [hq, List.mem_cons] at hr
        exact ⟨hn.next ▸ hp, .inr (hn.runqueue u (hr.resolve_left hut))⟩

/-- The kernel a scheduler run ends with. -/
def Scheduled.kernel : Scheduled → Kernel
  | .running k => k
  | .idling k => k

/-- The choice of the thread that goes on does not touch the invariant. -/
theorem Sound.setCurrent (h : Sound k) : Sound { k with current := t } :=
  ⟨h.live.of_eq rfl rfl rfl, h.blocked⟩

/-- **The scheduler loses no thread**, if the first one it looks at can
go on. By induction on the run queue: destroyed threads are passed over,
and the first other one ends the loop. -/
theorem Sound.pickNext {queue : List Addr} {r : Scheduled} (h : Sound k)
    (hq : k.runqueue = queue) (hok : k.nextCanRun queue = true) (hr : k.pickNext queue = .ok r) :
    Sound r.kernel := by
  induction queue generalizing k with
  | nil =>
    cases hr
    refine ⟨h.live.of_eq rfl rfl rfl, fun u p hu => ?_⟩
    have := h.blocked u p hu
    rwa [hq] at this
  | cons t rest ih =>
    unfold Kernel.pickNext at hr
    simp only at hr
    split at hr
    next hst =>
      cases hr
      exact (h.dequeue hq fun p hp => by simp [hst] at hp).setCurrent
    next p hst =>
      have hev : hasEvent (k.polls p) = true := by simpa [nextCanRun, hst] using hok
      obtain ⟨ev, hev⟩ := tryWait_of_hasEvent (k := { k with runqueue := rest }) hev
      have hn := notifies_tryWait { k with runqueue := rest } p
      split at hr
      next k' heq =>
        cases hr
        rw [heq] at hn
        exact (h.resume hq hn).setCurrent
      next k' heq => simp [heq] at hev
    next hst =>
      refine ih (h.dequeue hq fun p hp => by simp [hst] at hp) rfl ?_ hr
      have hmono : ∀ queue : List Addr,
          nextCanRun { k with runqueue := rest } queue = k.nextCanRun queue := by
        intro queue
        induction queue with
        | nil => rfl
        | cons u us ihu => simp only [nextCanRun, ihu]
      rw [hmono]
      simpa [nextCanRun, hst] using hok
    next => cases hr
    next => cases hr

theorem Sound.schedule {r : Scheduled} (h : Sound k)
    (hok : (k.threads k.current).state = .runnable ∨ k.nextCanRun k.runqueue = true)
    (hr : k.schedule = .ok r) : Sound r.kernel := by
  unfold Kernel.schedule at hr
  split at hr
  next =>
    cases hr
    exact h
  next hst => exact h.pickNext rfl (hok.resolve_left hst) hr

/-! ## Whole runs -/

/-- **One step.** A system call, an interrupt, or a scheduler run that
meets its condition. -/
theorem sound_step {x y : System} {a : Action} (h : Sound x.kernel) (hok : RePolls x a)
    (hs : system.step x a = some y) : Sound y.kernel := by
  obtain ⟨k, mode⟩ := x
  cases a with
  | syscall env call =>
    cases mode with
    | user =>
      simp only [system] at hs
      split at hs
      next r k' hrun =>
        cases hs
        have := keeps_handleSyscall env call h hrun
        cases r with
        | ok _ => exact this
        | error _ => exact this
      next => cases hs
    | idle => cases hs
    | trapped => cases hs
  | trap ready =>
    cases mode with
    | user => cases hs; exact h.fire
    | idle => cases hs; exact h.fire
    | trapped => cases hs
  | schedule =>
    cases mode with
    | user => cases hs
    | idle => cases hs
    | trapped =>
      simp only [system] at hs
      split at hs
      next k' hr =>
        cases hs
        exact h.schedule hok hr
      next k' hr =>
        cases hs
        exact h.schedule hok hr
      next => cases hs

theorem Boot.sound {s : System} (h : Boot s) : Sound s.kernel :=
  ⟨h.live, fun t p ht => absurd ht (h.unblocked t p)⟩

/-- **No blocked thread is lost while re-polls succeed.** From a start of
the system, along every interleaving of system calls and interrupts in
which the scheduler never picks a blocked thread whose poll has no event,
every thread blocked on a poll is among its waiters or in the run
queue. -/
theorem allFindable_of_rePolls {s s' : System} (hboot : Boot s)
    (hrun : system.ReachUnder RePolls s s') : AllFindable s'.kernel :=
  (hrun.invariant (I := fun x => Sound x.kernel) hboot.sound sound_step).allFindable

/-! ## Two threads and one event -/

/-- Two threads of one process, the first of them running. -/
def twoThreads : System where
  kernel :=
    { next := 4
      threads := fun _ => { process := 3, state := .runnable }
      processes := fun _ => HandleTable.new
      polls := fun _ => Poll.new
      channels := fun _ => Channel.new
      emitters := fun _ => Emitter.new 0
      runqueue := [2]
      current := 1 }
  mode := .user

/-- User memory full of zeros, and enough room in the kernel's. -/
def zeroMemory : Env where
  readBytes := fun _ len => .ok (Vector.replicate len 0)
  writeBytes := fun _ _ => .ok ()
  tryReserve := true

theorem boot_twoThreads : Boot twoThreads where
  live := ⟨by simp [twoThreads, HandleTable.new], by simp [twoThreads, Channel.new]⟩
  unblocked := by simp [twoThreads]

/-- A system call by the running thread, and the scheduler after it. -/
def callAndReturn (call : Syscall) : List Action := [.syscall zeroMemory call, .schedule]

/-- Thread 1 creates a poll (handle 1) and a channel pair (handles 2 and
3) and waits for the first end to become readable; thread 2 sends a
message from the other end. -/
def oneEvent : List Action :=
  [Syscall.pollCreate, .channelCreate, .pollAdd 1 2 2, .pollWait 1, .channelSend 3 0 0 0].flatMap
    callAndReturn

/-- With the event on its way to thread 1, the thread is still blocked,
and found. -/
theorem allFindable_of_rePolls_oneEvent :
    ∃ s, system.ReachUnder RePolls twoThreads s ∧ (s.kernel.threads 1).state = .blocked 4 ∧
      (1 ∈ (s.kernel.polls 4).waiters ∨ 1 ∈ s.kernel.runqueue) := by
  obtain ⟨s, hreach, hblocked⟩ : ∃ s, system.ReachUnder RePolls twoThreads s ∧
      (s.kernel.threads 1).state = .blocked 4 :=
    Machine.exists_reachUnder oneEvent (by decide +kernel)
  exact ⟨s, hreach, hblocked, allFindable_of_rePolls boot_twoThreads hreach 1 4 hblocked⟩

/-- **A failed re-poll loses a thread.** After the event, thread 2 waits
for the same poll twice: it gets the event meant for thread 1, and then
blocks. The scheduler polls for thread 1 in vain and drops it. -/
theorem not_allFindable_of_stolen_event :
    ∃ s, Boot twoThreads ∧ system.Reach twoThreads s ∧ ¬ AllFindable s.kernel := by
  obtain ⟨s, hreach, hblocked, hw, hq⟩ : ∃ s, system.Reach twoThreads s ∧
      (s.kernel.threads 1).state = .blocked 4 ∧
        1 ∉ (s.kernel.polls 4).waiters ∧ 1 ∉ s.kernel.runqueue :=
    Machine.exists_reachUnder
      (oneEvent ++ callAndReturn (.pollWait 1) ++ callAndReturn (.pollWait 1)) (by decide +kernel)
  exact ⟨s, boot_twoThreads, hreach, fun h => (h 1 4 hblocked).elim hw hq⟩

end Archives.Ftl.Kernel
