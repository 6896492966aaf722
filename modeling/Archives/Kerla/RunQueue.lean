import Archives.Common.Except
import Archives.Kerla.Model.Process
/-!
# Kerla — the run queue, the process table and the states

`Sound` relates the three: every id in the run queue is that of a
registered, runnable process, and every process that has not exited is
registered. It is kept by everything that changes a process or a queue:
a process that is blocked or exits (`Sound.stop`), one that is resumed
(`Sound.resume`), a context switch (`Sound.switch`). `resume` does not
check that the process has not exited, so the lemmas about it have to
ask for that.
-/

namespace Archives.Kerla.Kernel

open List Bool Function Option

variable {Z : Addr → Prop} {k k' : Kernel} {a b : Addr} {signal : Signal}

/-! ## One process -/

theorem modify_self (k : Kernel) (a : Addr) (f : Process → Process) :
    (k.modify a f).process a = f (k.process a) := update_self ..

theorem modify_of_ne (f : Process → Process) (h : b ≠ a) :
    (k.modify a f).process b = k.process b := update_of_ne h ..

theorem setState_process (k : Kernel) (a : Addr) (state : ProcessState) :
    (k.setState a state).process = (k.modify a fun p => { p with state := state }).process := by
  cases state <;> rfl

theorem setState_self (k : Kernel) (a : Addr) (state : ProcessState) :
    (k.setState a state).process a = { k.process a with state := state } := by
  rw [setState_process, modify_self]

theorem setState_of_ne {state : ProcessState} (h : b ≠ a) :
    (k.setState a state).process b = k.process b := by
  rw [setState_process, modify_of_ne _ h]

theorem resume_of_runnable (h : (k.process a).state = .runnable) : k.resume a = k := if_pos h

theorem resume_of_ne (h : (k.process a).state ≠ .runnable) :
    k.resume a = (k.setState a .runnable).enqueue (k.process a).pid := if_neg h

/-- Resuming a process makes no process exit. -/
theorem not_exited_resume (h : ¬ k.Exited b) : ¬ (k.resume a).Exited b := by
  by_cases hrun : (k.process a).state = .runnable
  · rwa [resume_of_runnable hrun]
  · rw [resume_of_ne hrun]
    by_cases hb : b = a
    · subst hb
      simp [Exited, enqueue, setState_self, ProcessState.isExited]
    · simpa only [Exited, enqueue, setState_of_ne hb] using h

/-! ## The invariant -/

/-- **The invariant.** The table names processes by their ids, and every
process that has not exited is in it, the idle thread apart. The
processes of `Z` have exited. -/
structure Sound (Z : Addr → Prop) (k : Kernel) : Prop where
  named : ∀ {pid a}, k.processes[pid]? = some a → a < k.size ∧ (k.process a).pid = pid
  registered : ∀ {a}, a ≠ k.idle → ¬ k.Exited a → k.processes[(k.process a).pid]? = some a
  queued : ∀ pid ∈ k.runQueue, ∃ a, k.processes[pid]? = some a ∧ (k.process a).state = .runnable
  idle : (k.process k.idle).state = .runnable ∧ (k.process k.idle).pid = 0 ∧
    (k.process k.idle).mode = .user
  /-- The id of the idle thread is not in the table. -/
  unregistered : k.processes[(0 : PId)]? = none
  /-- What was not created yet counts as exited. -/
  fresh : ∀ {a}, k.size ≤ a → k.Exited a
  older : ∀ {a parent}, (k.process a).parent = some parent → parent < a
  /-- A process does not exit while it waits for its children. -/
  joining : ∀ {a}, (.join, a) ∈ k.waiters → ¬ k.Exited a ∧
    ∃ pid nohang, (k.process a).mode = .sleeping (.wait4 pid nohang)
  exited : ∀ {a}, Z a → a < k.size ∧ k.Exited a

/-- Nothing but the processes, the table and the queues matters. -/
theorem Sound.congr (h : Sound Z k) (hsize : k'.size = k.size) (hprocess : k'.process = k.process)
    (htable : k'.processes = k.processes) (hqueue : k'.runQueue = k.runQueue)
    (hidle : k'.idle = k.idle) (hwaiters : k'.waiters = k.waiters) : Sound Z k' := by
  cases k'
  subst hsize hprocess htable hqueue hidle hwaiters
  exact ⟨h.named, h.registered, h.queued, h.idle, h.unregistered, h.fresh, h.older, h.joining,
    h.exited⟩

theorem Sound.runQueueSound (h : Sound Z k) : k.RunQueueSound := by
  intro pid hpid
  obtain ⟨a, ha, hrun⟩ := h.queued pid hpid
  exact ⟨a, ha, (h.named ha).2, hrun⟩

theorem Sound.lt_size (h : Sound Z k) (ha : ¬ k.Exited a) : a < k.size :=
  Nat.lt_of_not_le fun hle => ha (h.fresh hle)

theorem not_exited_of_runnable (h : (k.process a).state = .runnable) : ¬ k.Exited a := by
  simp [Exited, h, ProcessState.isExited]

theorem Sound.not_exited_idle (h : Sound Z k) : ¬ k.Exited k.idle :=
  not_exited_of_runnable h.idle.1

/-- A process with another id than 0 is not the idle thread. -/
theorem Sound.ne_idle (h : Sound Z k) (ha : (k.process a).pid ≠ 0) : a ≠ k.idle :=
  fun he => ha (he ▸ h.idle.2.1)

/-- **One process is changed**, and the run queue with it. -/
theorem Sound.change {f : Process → Process} (h : Sound Z k) (queue : List PId)
    (hpid : (f (k.process a)).pid = (k.process a).pid)
    (hparent : (f (k.process a)).parent = (k.process a).parent)
    (hexited : k.Exited a → (f (k.process a)).state.isExited = true) (hidle : a = k.idle →
      (f (k.process a)).state = .runnable ∧ (f (k.process a)).mode = .user)
    (hjoining : (.join, a) ∈ k.waiters → (f (k.process a)).state.isExited = false ∧
      ∃ pid nohang, (f (k.process a)).mode = .sleeping (.wait4 pid nohang))
    (hqueue : ∀ pid ∈ queue, ∃ b, k.processes[pid]? = some b ∧
      ((k.modify a f).process b).state = .runnable) :
    Sound Z { k.modify a f with runQueue := queue } := by
  have hself : (k.modify a f).process a = f (k.process a) := modify_self k a f
  have hne : ∀ {b}, b ≠ a → (k.modify a f).process b = k.process b := fun hb => modify_of_ne f hb
  have hstays : ∀ {b}, k.Exited b → ((k.modify a f).process b).state.isExited = true := by
    intro b hb
    by_cases hba : b = a
    · subst hba
      rw [hself]
      exact hexited hb
    · rwa [hne hba]
  have hpids : ∀ b, ((k.modify a f).process b).pid = (k.process b).pid := by
    intro b
    by_cases hba : b = a
    · rw [hba, hself, hpid]
    · rw [hne hba]
  refine ⟨?_, ?_, hqueue, ?_, h.unregistered, fun hb => hstays (h.fresh hb), ?_, ?_,
    fun hb => ⟨(h.exited hb).1, hstays (h.exited hb).2⟩⟩
  · intro pid b hb
    simp only [hpids]
    exact h.named hb
  · intro b hidle hb
    simp only [hpids]
    exact h.registered hidle fun hex => hb (hstays hex)
  · show (((k.modify a f).process k.idle).state = _ ∧ ((k.modify a f).process k.idle).pid = 0 ∧
      ((k.modify a f).process k.idle).mode = .user)
    rw [hpids]
    by_cases hia : k.idle = a
    · rw [hia, hself]
      exact ⟨(hidle hia.symm).1, hia ▸ h.idle.2.1, (hidle hia.symm).2⟩
    · rw [hne hia]
      exact h.idle
  · intro b parent hb
    by_cases hba : b = a
    · subst hba
      simp only [hself, hparent] at hb
      exact h.older hb
    · simp only [hne hba] at hb
      exact h.older hb
  · intro b hb
    by_cases hba : b = a
    · subst hba
      simp only [Exited, hself, not_eq_true]
      exact hjoining hb
    · simp only [Exited, hne hba]
      exact h.joining hb

/-- A process is changed, but not in what the invariant is about. -/
theorem Sound.modify {f : Process → Process} (h : Sound Z k)
    (hpid : (f (k.process a)).pid = (k.process a).pid)
    (hstate : (f (k.process a)).state = (k.process a).state)
    (hparent : (f (k.process a)).parent = (k.process a).parent)
    (hmode : (f (k.process a)).mode = (k.process a).mode ∨ a ≠ k.idle ∧ ((.join, a) ∈ k.waiters →
        ∃ pid nohang, (f (k.process a)).mode = .sleeping (.wait4 pid nohang))) :
    Sound Z (k.modify a f) := by
  refine h.change k.runQueue hpid hparent ?_ ?_ ?_ ?_
  · intro hex
    rwa [hstate]
  · rintro rfl
    refine ⟨hstate.trans h.idle.1, ?_⟩
    rcases hmode with hmode | ⟨hidle, -⟩
    · exact hmode.trans h.idle.2.2
    · exact absurd rfl hidle
  · intro hjoin
    have hold := h.joining hjoin
    rw [hstate]
    refine ⟨not_eq_true _ ▸ hold.1, ?_⟩
    rcases hmode with hmode | ⟨-, hnew⟩
    · rw [hmode]
      exact hold.2
    · exact hnew hjoin
  · intro pid hpid'
    obtain ⟨b, hb, hrun⟩ := h.queued pid hpid'
    refine ⟨b, hb, ?_⟩
    by_cases hba : b = a
    · subst hba
      rw [modify_self, hstate]
      exact hrun
    · rwa [modify_of_ne f hba]

/-! ## Queues and states -/

/-- **A process stops running**: it is blocked, or it exits. -/
theorem Sound.stop {state : ProcessState} (h : Sound Z k) (hstate : state ≠ .runnable)
    (hidle : a ≠ k.idle) (ha : ¬ k.Exited a)
    (hjoining : state.isExited = true → (.join, a) ∉ k.waiters) : Sound Z (k.setState a state) := by
  have heq : k.setState a state = { k.modify a fun p => { p with state := state } with
      runQueue := k.runQueue.filter (· ≠ (k.process a).pid) } := by
    cases state with
    | runnable => exact absurd rfl hstate
    | blockedSignalable => rfl
    | exitedWith status => rfl
  rw [heq]
  refine h.change _ rfl rfl (fun hex => absurd hex ha) (fun he => absurd he hidle) ?_ ?_
  · intro hjoin
    exact ⟨eq_false_iff.2 fun hex => hjoining hex hjoin, (h.joining hjoin).2⟩
  · intro pid hpid
    obtain ⟨hpid, hne⟩ := mem_filter.1 hpid
    obtain ⟨b, hb, hrun⟩ := h.queued pid hpid
    refine ⟨b, hb, ?_⟩
    rw [modify_of_ne]
    · exact hrun
    · rintro rfl
      simp [(h.named hb).2] at hne

/-- **Resuming** a process that has not exited. -/
theorem Sound.resume (h : Sound Z k) (ha : ¬ k.Exited a) : Sound Z (k.resume a) := by
  by_cases hrun : (k.process a).state = .runnable
  · rwa [resume_of_runnable hrun]
  rw [resume_of_ne hrun]
  have hidle : a ≠ k.idle := fun he => hrun (he ▸ h.idle.1)
  refine h.change (f := fun p => { p with state := .runnable })
    (k.runQueue ++ [(k.process a).pid]) rfl rfl (fun hex => absurd hex ha)
    (fun he => absurd he hidle) (fun hjoin => ⟨rfl, (h.joining hjoin).2⟩) ?_
  intro pid hpid
  rcases mem_append.1 hpid with hpid | hpid
  · obtain ⟨b, hb, hb'⟩ := h.queued pid hpid
    refine ⟨b, hb, ?_⟩
    by_cases hba : b = a
    · rw [hba, modify_self]
    · rwa [modify_of_ne _ hba]
  · rw [mem_singleton.1 hpid]
    exact ⟨a, h.registered hidle ha, by rw [modify_self]⟩

theorem Sound.sendSignal (h : Sound Z k) (ha : ¬ k.Exited a) : Sound Z (k.sendSignal a signal) := by
  refine .resume (h.modify rfl rfl rfl (.inl rfl)) ?_
  rwa [Exited, modify_self]

theorem not_exited_sendSignal (hb : ¬ k.Exited b) : ¬ (k.sendSignal a signal).Exited b := by
  refine not_exited_resume ?_
  by_cases hba : b = a
  · subst hba
    rwa [Exited, modify_self]
  · rwa [Exited, modify_of_ne _ hba]

/-- Resuming processes one by one. -/
theorem Sound.foldl_resume {l : List Addr} (h : Sound Z k) (hl : ∀ a ∈ l, ¬ k.Exited a) :
    Sound Z (l.foldl .resume k) := by
  induction l generalizing k with
  | nil => exact h
  | cons a l ih =>
    refine ih (h.resume (hl a mem_cons_self)) fun b hb => ?_
    exact not_exited_resume (hl b (mem_cons_of_mem _ hb))

/-- Fewer processes wait. -/
theorem Sound.filter_waiters (h : Sound Z k) (p : WaitQueue × Addr → Bool) :
    Sound Z { k with waiters := k.waiters.filter p } :=
  { h with joining := fun hb => h.joining (mem_filter.1 hb).1 }

theorem Sound.wakeAll {queue : WaitQueue} (h : Sound Z k)
    (hrun : ∀ a ∈ k.waiting queue, ¬ k.Exited a) : Sound Z (k.wakeAll queue) :=
  (h.foldl_resume hrun).filter_waiters _

/-- A process goes to the back of the run queue. -/
theorem Sound.enqueue {pid : PId} (h : Sound Z k) (ha : k.processes[pid]? = some a)
    (hrun : (k.process a).state = .runnable) : Sound Z (k.enqueue pid) := by
  refine { h with queued := ?_ }
  exact forall_mem_append.2 ⟨h.queued, forall_mem_singleton.2 ⟨a, ha, hrun⟩⟩

/-- **A context switch.** The next process can run. -/
theorem Sound.switch (h : Sound Z k) (hs : k.switch = .ok k') :
    Sound Z k' ∧ ¬ k'.Exited k'.current := by
  simp only [Kernel.switch] at hs
  generalize hq : (if (k.process k.current).pid ≠ 0 ∧ (k.process k.current).state = .runnable then
    k.enqueue (k.process k.current).pid else k) = q at hs
  have hsound : Sound Z q := by
    split at hq
    next hback =>
      subst hq
      exact h.enqueue (h.registered (h.ne_idle hback.1) (not_exited_of_runnable hback.2)) hback.2
    next =>
      subst hq
      exact h
  split at hs
  next =>
    cases hs
    exact ⟨hsound.congr rfl rfl rfl rfl rfl rfl, hsound.not_exited_idle⟩
  next pid rest hrest =>
    split at hs
    next => cases hs
    next a ha =>
      cases hs
      obtain ⟨b, hb, hrun⟩ := hsound.queued pid (by rw [hrest]; exact mem_cons_self)
      obtain rfl : a = b := some.inj (ha.symm.trans hb)
      refine ⟨?_, not_exited_of_runnable hrun⟩
      exact { hsound with
        queued := fun pid' hpid' => hsound.queued pid'
          (by rw [hrest]; exact mem_cons_of_mem _ hpid') }

/-! ## Exit -/

theorem resume_of_process_ne (h : b ≠ a) : (k.resume a).process b = k.process b := by
  by_cases hrun : (k.process a).state = .runnable
  · rw [resume_of_runnable hrun]
  · rw [resume_of_ne hrun]
    exact (setState_of_ne h : (k.setState a .runnable).process b = k.process b)

/-- Resuming touches the states and the run queue only. -/
theorem resume_frame (k : Kernel) (a : Addr) : (k.resume a).processes = k.processes ∧
    (k.resume a).waiters = k.waiters ∧ (k.resume a).current = k.current ∧
    (k.resume a).idle = k.idle ∧ (k.resume a).foreground = k.foreground ∧
    (k.resume a).group = k.group ∧ (k.resume a).processGroups = k.processGroups := by
  by_cases hrun : (k.process a).state = .runnable
  · rw [resume_of_runnable hrun]
    exact ⟨rfl, rfl, rfl, rfl, rfl, rfl, rfl⟩
  · rw [resume_of_ne hrun]
    exact ⟨rfl, rfl, rfl, rfl, rfl, rfl, rfl⟩

theorem sendSignal_of_ne (h : b ≠ a) : (k.sendSignal a signal).process b = k.process b :=
  (resume_of_process_ne h).trans (modify_of_ne _ h)

theorem mem_iterate_withChildren {children : Addr → List Addr} {l l' : List Addr}
    (h : ∀ a, a ∈ l ↔ a ∈ l') (n : Nat) (a : Addr) :
    a ∈ (withChildren children)^[n] l ↔ a ∈ (withChildren children)^[n] l' := by
  induction n generalizing l l' with
  | zero => exact h a
  | succ n ih =>
    refine ih fun b => ?_
    simp [withChildren, h]

/-- What can be upgraded depends on who holds what, not on the states. -/
theorem upgrades_congr (hsize : k'.size = k.size)
    (hchildren : ∀ a, (k'.process a).children = (k.process a).children)
    (hroots : ∀ a, a ∈ k'.roots ↔ a ∈ k.roots) (b : Addr) : k'.upgrades b = k.upgrades b := by
  have hfun : (fun a => (k'.process a).children) = fun a => (k.process a).children :=
    funext hchildren
  rw [upgrades, upgrades, held, held, hsize, hfun]
  exact decide_eq_decide.2 (mem_iterate_withChildren hroots _ _)

theorem upgrades_setState (k : Kernel) (a : Addr) (status : Int) (b : Addr) :
    (k.setState a (.exitedWith status)).upgrades b = k.upgrades b := by
  have hsize : (k.setState a (.exitedWith status)).size = k.size := rfl
  refine upgrades_congr hsize (fun c => ?_) (fun _ => .rfl) b
  by_cases hc : c = a
  · rw [hc, setState_self]
  · rw [setState_of_ne hc]

theorem Sound.notifyParent (h : Sound Z k)
    (hparent : ∀ parent ∈ (k.process a).parent, k.upgrades parent = true → ¬ k.Exited parent) :
    Sound Z (k.notifyParent a) := by
  rw [Kernel.notifyParent]
  split
  next parent hp =>
    split_ifs with hup
    · exact h.sendSignal (hparent parent hp hup)
    · exact h
  next => exact h

/-- The notification changes nothing about the process that exits. -/
theorem Sound.notifyParent_frame (h : Sound Z k) (a : Addr) :
    (k.notifyParent a).process a = k.process a ∧ (k.notifyParent a).processes = k.processes := by
  rw [Kernel.notifyParent]
  split
  next parent hp =>
    split_ifs with hup
    · exact ⟨sendSignal_of_ne (h.older hp).ne', (resume_frame _ _).1⟩
    · exact ⟨rfl, rfl⟩
  next => exact ⟨rfl, rfl⟩

/-- An exited process is taken out of the table. -/
theorem Sound.unregister {pid : PId} (h : Sound Z k) (ha : k.processes[pid]? = some a)
    (hex : k.Exited a) : Sound Z { k with processes := k.processes.erase pid } := by
  have herase : ∀ pid', (k.processes.erase pid)[pid']? =
      if pid = pid' then none else k.processes[pid']? := by
    intro pid'
    rw [Std.ExtTreeMap.getElem?_erase]
    simp
  refine { h with named := ?_, registered := ?_, queued := ?_, unregistered := ?_ }
  · intro pid' b hb
    simp only [herase] at hb
    split_ifs at hb
    exact h.named hb
  · intro b hidle hb
    have hb' := h.registered hidle hb
    simp only [herase]
    rw [if_neg]
    · exact hb'
    · rintro rfl
      obtain rfl : a = b := some.inj (ha.symm.trans hb')
      exact hb hex
  · intro pid' hpid'
    obtain ⟨b, hb, hrun⟩ := h.queued pid' hpid'
    refine ⟨b, ?_, hrun⟩
    simp only [herase]
    rw [if_neg]
    · exact hb
    · rintro rfl
      obtain rfl : a = b := some.inj (ha.symm.trans hb)
      exact not_exited_of_runnable hrun hex
  · simp [herase, h.unregistered]

/-- **An exit.** The parent is resumed only if it has not exited. -/
theorem Sound.exit {status : Int} (h : Sound Z k) (hrun : ¬ k.Exited k.current)
    (hidle : k.current ≠ k.idle) (hjoining : (.join, k.current) ∉ k.waiters)
    (hparent : k.ParentRuns) (hs : k.exit status = .ok k') :
    Sound Z k' ∧ ¬ k'.Exited k'.current := by
  simp only [Kernel.exit] at hs
  split_ifs at hs
  set me := k.current with hme
  have hstop : Sound Z (k.setState me (.exitedWith status)) :=
    h.stop (by simp) hidle hrun fun _ => hjoining
  have hex : (k.setState me (.exitedWith status)).Exited me := by
    rw [Exited, setState_self]
    rfl
  have hreg : (k.setState me (.exitedWith status)).processes[(k.process me).pid]? = some me :=
    h.registered hidle hrun
  have hnotified := hstop.notifyParent (a := me) (by
    intro parent hp hup
    rw [setState_self] at hp
    rw [upgrades_setState] at hup
    rw [Exited, setState_of_ne (h.older hp).ne]
    exact hparent parent hp hup)
  obtain ⟨hsame, htable⟩ := hstop.notifyParent_frame me
  rw [← htable] at hreg
  have hremoved := hnotified.unregister hreg (by rw [Exited, hsame]; exact hex)
  refine (hremoved.wakeAll ?_).switch hs
  intro a ha
  obtain ⟨⟨queue, b⟩, hb, rfl⟩ := mem_map.1 ha
  obtain ⟨hb, hq⟩ := mem_filter.1 hb
  obtain rfl : queue = .join := of_decide_eq_true hq
  exact (hremoved.joining hb).1

end Archives.Kerla.Kernel
