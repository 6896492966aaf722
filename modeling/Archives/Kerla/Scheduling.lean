import Archives.Kerla.RunQueue
/-!
# Kerla — whole runs of the process subsystem

Every id in the run queue is that of a registered, runnable process, and
an exited process stays exited, as long as no step resumes an exited
process. The kernel does not see to that itself: a process that exits
sends `SIGCHLD` to its parent even when the parent has exited, `^C`
reaches the exited members of the process group, too, and a process that
a page fault kills in the middle of a sleep stays in the wait queue.
-/

namespace Archives.Kerla.Kernel

open List Function Nat Option Kernel

variable {Z : Addr → Prop} {k k' : Kernel} {a b : Addr} {mode : Mode} {sleep : Sleep} {pid : PId}
  {pgid : PgId} {tty : Nat} {cooked : Bool}

/-! ## Sleeping -/

/-- The current process may leave a wait queue. -/
theorem Sound.leaveQueue (h : Sound Z k) (queue : WaitQueue) : Sound Z (k.leaveQueue queue) :=
  h.filter_waiters _

/-- Where the current process is, when it does not wait for its
children. -/
theorem Sound.setMode (h : Sound Z k) (hidle : k.current ≠ k.idle)
    (hjoining : (.join, k.current) ∉ k.waiters) : Sound Z (k.setMode mode) :=
  h.modify rfl rfl rfl (.inr ⟨hidle, fun hj => absurd hj hjoining⟩)

theorem not_exited_setMode (hb : ¬ k.Exited b) : ¬ (k.setMode mode).Exited b := by
  rw [Exited, setMode]
  by_cases hba : b = k.current
  · rw [hba, modify_self]
    rwa [hba] at hb
  · rwa [modify_of_ne _ hba]

/-- The start of a turn: the current process is blocked, and in the wait
queue. -/
def block (k : Kernel) (sleep : Sleep) : Kernel :=
  ((k.setMode (.sleeping sleep)).setState k.current .blockedSignalable).pushWaiter sleep.queue

theorem block_self (k : Kernel) (sleep : Sleep) :
    (k.block sleep).process k.current = { k.process k.current with
      mode := .sleeping sleep, state := .blockedSignalable } := by
  show ((k.setMode _).setState k.current .blockedSignalable).process k.current = _
  rw [setState_self, setMode, modify_self]

theorem block_of_ne (h : b ≠ k.current) : (k.block sleep).process b = k.process b := by
  show ((k.setMode _).setState k.current .blockedSignalable).process b = _
  rw [setState_of_ne h, setMode, modify_of_ne _ h]

theorem not_exited_block (k : Kernel) (sleep : Sleep) : ¬ (k.block sleep).Exited k.current := by
  rw [Exited, block_self]
  simp [ProcessState.isExited]

theorem Sound.block (h : Sound Z k) (hrun : ¬ k.Exited k.current) (hidle : k.current ≠ k.idle)
    (hjoining : (.join, k.current) ∈ k.waiters → ∃ pid nohang, sleep = .wait4 pid nohang) :
    Sound Z (k.block sleep) := by
  have hmode : Sound Z (k.setMode (.sleeping sleep)) := by
    refine h.modify rfl rfl rfl (.inr ⟨hidle, fun hj => ?_⟩)
    obtain ⟨pid, nohang, rfl⟩ := hjoining hj
    exact ⟨pid, nohang, rfl⟩
  have hblocked : Sound Z ((k.setMode (.sleeping sleep)).setState k.current .blockedSignalable) :=
    hmode.stop (by simp) hidle (not_exited_setMode hrun) (nofun)
  refine { hblocked with joining := ?_ }
  intro a ha
  rcases mem_append.1 ha with ha | ha
  · exact hblocked.joining ha
  · obtain ⟨hq, hcurrent⟩ := Prod.mk.inj (mem_singleton.1 ha)
    have hcurrent : a = k.current := hcurrent
    subst hcurrent
    cases sleep with
    | event queue => cases hq
    | wait4 pid nohang =>
      exact ⟨not_exited_block k _, pid, nohang, by rw [block_self k]⟩

/-- The parent runs, or not, whatever the process itself does. -/
theorem Sound.parentRuns_congr (h : Sound Z k) (hruns : k.ParentRuns)
    (hcurrent : k'.current = k.current) (hup : ∀ b, k'.upgrades b = k.upgrades b)
    (hparent : (k'.process k.current).parent = (k.process k.current).parent)
    (hne : ∀ b, b ≠ k.current → k'.process b = k.process b) : k'.ParentRuns := by
  intro parent hp hupg
  rw [hcurrent, hparent] at hp
  rw [hup] at hupg
  rw [Exited, hne parent (h.older hp).ne]
  exact hruns parent hp hupg

theorem Sound.parentRuns_block (h : Sound Z k) (hruns : k.ParentRuns) :
    (k.block sleep).ParentRuns := by
  refine h.parentRuns_congr hruns rfl (upgrades_congr rfl (fun a => ?_) (fun a => ?_))
    (by rw [block_self]) fun b hb => block_of_ne hb
  · by_cases ha : a = k.current
    · rw [ha, block_self]
    · rw [block_of_ne ha]
  · show a ∈ k.current :: k.idle ::
      (k.processes.values ++ (k.waiters ++ [(sleep.queue, k.current)]).map Prod.snd) ↔ _
    simp only [roots, mem_cons, mem_append, map_append, map_cons, map_nil, not_mem_nil, or_false]
    tauto

/-- What is known of the kernel while a system call of the current
process runs: it is not the idle thread, has not exited and does not wait
for its children. -/
structure InCall (Z : Addr → Prop) (k : Kernel) : Prop where
  sound : Sound Z k
  runs : ¬ k.Exited k.current
  notIdle : k.current ≠ k.idle
  notJoining : (.join, k.current) ∉ k.waiters

/-- What is known between two steps. -/
def Steady (Z : Addr → Prop) (k : Kernel) : Prop := Sound Z k ∧ ¬ k.Exited k.current

theorem InCall.steady (h : InCall Z k) : Steady Z k := ⟨h.sound, h.runs⟩

/-- A process is changed, but not in what matters here. -/
theorem InCall.modify {f : Process → Process} (h : InCall Z k)
    (hpid : (f (k.process a)).pid = (k.process a).pid)
    (hstate : (f (k.process a)).state = (k.process a).state)
    (hparent : (f (k.process a)).parent = (k.process a).parent)
    (hmode : (f (k.process a)).mode = (k.process a).mode) : InCall Z (k.modify a f) where
  sound := h.sound.modify hpid hstate hparent (.inl hmode)
  runs := by
    show ¬ ((k.modify a f).process k.current).state.isExited = true
    by_cases hc : k.current = a
    · rw [hc, modify_self, hstate, ← hc]
      exact h.runs
    · rw [modify_of_ne f hc]
      exact h.runs
  notIdle := h.notIdle
  notJoining := h.notJoining

/-- **Changes that are not about running**: of processes, but not of
their ids, their states, their parents and where they are; of process
groups and terminals; of the next id. -/
inductive Minor (k : Kernel) : Kernel → Prop
  | refl : Minor k k
  | modify {k' : Kernel} {a : Addr} {f : Process → Process} (h : Minor k k')
      (hf : ∀ p, (f p).pid = p.pid ∧ (f p).state = p.state ∧ (f p).parent = p.parent ∧
        (f p).mode = p.mode) : Minor k (k'.modify a f)
  | rest {k' : Kernel} (h : Minor k k') (groupSize : Nat) (group : Addr → ProcessGroup)
      (processGroups : Std.ExtTreeMap PgId Addr) (nextPid : Int)
      (foreground : Nat → Option Addr) :
      Minor k { k' with groupSize, group, processGroups, nextPid, foreground }

theorem InCall.of_minor (h : InCall Z k) (hm : Minor k k') : InCall Z k' := by
  induction hm with
  | refl => exact h
  | modify _ hf ih =>
    obtain ⟨hpid, hstate, hparent, hmode⟩ := hf _
    exact ih.modify hpid hstate hparent hmode
  | rest _ _ _ _ _ _ ih =>
    exact ⟨ih.sound.congr rfl rfl rfl rfl rfl rfl, ih.runs, ih.notIdle, ih.notJoining⟩

/-- The end of a call. -/
theorem InCall.setMode (h : InCall Z k) : Steady Z (k.setMode mode) :=
  ⟨h.sound.setMode h.notIdle h.notJoining, not_exited_setMode h.runs⟩

theorem InCall.exit {status : Int} (h : InCall Z k) (hparent : k.ParentRuns)
    (hs : k.exit status = .ok k') : Steady Z k' :=
  h.sound.exit h.runs h.notIdle h.notJoining hparent hs

/-- The process leaves the loop, and its wait queue. -/
theorem Sound.leave (h : Sound Z (k.block sleep)) (hidle : k.current ≠ k.idle)
    (hjoining : (.join, k.current) ∈ k.waiters → ∃ pid nohang, sleep = .wait4 pid nohang) :
    InCall Z (((k.block sleep).resume k.current).leaveQueue sleep.queue) := by
  obtain ⟨-, hwaiters, hcurrent, hidle', -⟩ := resume_frame (k.block sleep) k.current
  have hblocked := not_exited_block k sleep
  have hcurrent : ((k.block sleep).resume k.current).current = k.current := hcurrent
  refine ⟨(h.resume hblocked).leaveQueue _, ?_, ?_, ?_⟩
  · show ¬ ((k.block sleep).resume k.current).Exited ((k.block sleep).resume k.current).current
    rw [hcurrent]
    exact not_exited_resume hblocked
  · show ((k.block sleep).resume k.current).current ≠ ((k.block sleep).resume k.current).idle
    rw [hcurrent, hidle']
    exact hidle
  · intro hmem
    obtain ⟨hmem, hne⟩ := mem_filter.1 hmem
    have hne : (.join, k.current) ≠ (sleep.queue, k.current) := by
      rw [← hcurrent]
      exact of_decide_eq_true hne
    rw [hwaiters] at hmem
    rcases mem_append.1 hmem with hmem | hmem
    · have hmem : (.join, k.current) ∈ k.waiters := by
        rw [← hcurrent]
        exact hmem
      obtain ⟨pid, nohang, rfl⟩ := hjoining hmem
      exact hne rfl
    · have hq := (Prod.mk.inj (mem_singleton.1 hmem)).1
      exact hne (by rw [hq])

/-- **One turn of a sleep.** The process leaves the loop and its wait
queue, or the processor. Where it is killed by a page fault, it sleeps
for an event, and its parent has not exited. -/
theorem Sound.sleepSignalableUntil {α : Type} {check : Kernel → Except Panic (Check α)}
    {r : Option (Except Errno α)} (h : Sound Z k) (hrun : ¬ k.Exited k.current)
    (hidle : k.current ≠ k.idle)
    (hjoining : (.join, k.current) ∈ k.waiters → ∃ pid nohang, sleep = .wait4 pid nohang)
    (hfault : (k.process k.current).signals.isPending = false →
      check (k.block sleep) = .ok .fault → (∃ queue, sleep = .event queue) ∧ k.ParentRuns)
    (hs : k.sleepSignalableUntil sleep check = .ok (k', r)) :
    Steady Z k' ∧ (r.isSome = true → InCall Z k') := by
  have hblock : Sound Z (k.block sleep) := h.block hrun hidle hjoining
  have hleave := hblock.leave hidle hjoining
  rcases ite_eq_ok.1 hs with ⟨-, hs⟩ | ⟨hpending, hs⟩
  · cases hs
    exact ⟨hleave.steady, fun _ => hleave⟩
  · have hpending : ¬ ((k.block sleep).process k.current).signals.isPending = true := hpending
    obtain ⟨c, hc, hs⟩ := bind_eq_ok.1 hs
    cases c with
    | ready result =>
      cases hs
      exact ⟨hleave.steady, fun _ => hleave⟩
    | notYet =>
      obtain ⟨k₁, hk₁, hs⟩ := bind_eq_ok.1 hs
      cases hs
      exact ⟨hblock.switch hk₁, nofun⟩
    | fault =>
      obtain ⟨k₁, hk₁, hs⟩ := bind_eq_ok.1 hs
      cases hs
      rw [block_self] at hpending
      obtain ⟨⟨queue, rfl⟩, hparent⟩ := hfault (by simpa using hpending) hc
      refine ⟨hblock.exit (not_exited_block k _) hidle ?_ (h.parentRuns_block hparent) hk₁, nofun⟩
      intro hmem
      rcases mem_append.1 hmem with hmem | hmem
      · obtain ⟨pid, nohang, heq⟩ := hjoining hmem
        cases heq
      · cases (Prod.mk.inj (mem_singleton.1 hmem)).1

/-- The closure of `sys_wait4` touches no user memory. -/
theorem checkChildren_ne_fault (pid : PId) (nohang : Bool) (k : Kernel) :
    checkChildren pid nohang k ≠ .ok .fault := by
  intro h
  obtain ⟨found, -, h⟩ := bind_eq_ok.1 h
  cases found with
  | some found => cases h
  | none => cases nohang <;> cases h

theorem Sound.sysWait4 {nohang : Bool} (h : Sound Z k) (hrun : ¬ k.Exited k.current)
    (hidle : k.current ≠ k.idle) (hs : k.sysWait4 pid nohang = .ok k') : Steady Z k' := by
  obtain ⟨⟨k₁, r⟩, hk₁, hs⟩ := bind_eq_ok.1 hs
  obtain ⟨hsteady, hcall⟩ := h.sleepSignalableUntil hrun hidle (fun _ => ⟨pid, nohang, rfl⟩)
    (fun _ hc => absurd hc (checkChildren_ne_fault pid nohang _)) hk₁
  match r, hcall with
  | none, _ =>
    cases hs
    exact hsteady
  | some (.error e), hcall =>
    cases hs
    exact (hcall rfl).setMode
  | some (.ok (gotPid, status)), hcall =>
    cases hs
    exact ((hcall rfl).modify rfl rfl rfl rfl).setMode

theorem Sound.sysSleep {queue : EventQueue} {check : Check Unit} (h : Sound Z k)
    (hrun : ¬ k.Exited k.current) (hidle : k.current ≠ k.idle)
    (hjoining : (.join, k.current) ∉ k.waiters)
    (hfault : check = .fault → (k.process k.current).signals.isPending = false → k.ParentRuns)
    (hs : k.sysSleep queue check = .ok k') : Steady Z k' := by
  obtain ⟨⟨k₁, r⟩, hk₁, hs⟩ := bind_eq_ok.1 hs
  obtain ⟨hsteady, hcall⟩ := h.sleepSignalableUntil hrun hidle (fun hj => absurd hj hjoining)
    (fun hp hc => ⟨⟨queue, rfl⟩, hfault (by cases hc; rfl) hp⟩) hk₁
  match r, hcall with
  | none, _ =>
    cases hs
    exact hsteady
  | some _, hcall =>
    cases hs
    exact (hcall rfl).setMode

/-! ## Fork -/

/-- The id of a new process is not in use. -/
theorem allocPidLoop_ok {table : Std.ExtTreeMap PId Addr} {last : PId} {fuel : Nat} {n next : Int}
    (h : allocPidLoop table last fuel n = .ok (.ok pid, next)) : 1 < pid ∧ table[pid]? = none := by
  induction fuel generalizing n with
  | zero => cases h
  | succ fuel ih =>
    simp only [allocPidLoop] at h
    split_ifs at h with hle hused hlast
    · exact ih h
    · cases h
    · exact ih h
    · cases h
      refine ⟨Int.not_le.1 hle, ?_⟩
      simpa using hused

/-- **A new process** is registered and runnable. -/
theorem Sound.register {parent : Addr} (h : Sound Z k) (hparent : parent < k.size) (hpid : 1 < pid)
    (hfree : k.processes[pid]? = none) : Sound Z { k with
      size := k.size + 1
      process := update k.process k.size (k.forked parent pid)
      processes := k.processes.insert pid k.size
      runQueue := k.runQueue ++ [pid] } := by
  have hinsert : ∀ pid', (k.processes.insert pid k.size)[pid']? =
      if pid = pid' then some k.size else k.processes[pid']? := by
    intro pid'
    rw [Std.ExtTreeMap.getElem?_insert]
    simp
  have hnew : update k.process k.size (k.forked parent pid) k.size =
      k.forked parent pid := update_self ..
  have hold : ∀ {b}, b ≠ k.size → update k.process k.size (k.forked parent pid) b = k.process b :=
    fun hb => update_of_ne hb ..
  have hidle : k.idle ≠ k.size := (h.lt_size h.not_exited_idle).ne
  have hused : ∀ {pid' b}, k.processes[pid']? = some b → ¬ pid = pid' := by
    rintro _ _ hb rfl
    rw [hfree] at hb
    cases hb
  refine ⟨?_, ?_, ?_, ?_, ?_, ?_, ?_, ?_, ?_⟩
  · intro pid' b hb
    simp only [hinsert] at hb
    split_ifs at hb with hp
    · cases hb
      simp only [hnew]
      exact ⟨lt_succ_self _, hp⟩
    · obtain ⟨hlt, hb'⟩ := h.named hb
      simp only [hold hlt.ne]
      exact ⟨hlt.trans (lt_succ_self _), hb'⟩
  · intro b hbi hb
    simp only [hinsert]
    by_cases hbs : b = k.size
    · subst hbs
      rw [if_pos (by rw [hnew]; rfl)]
    · simp only [Exited, hold hbs] at hb ⊢
      have hb' := h.registered hbi hb
      rw [if_neg (hused hb'), hb']
  · intro pid' hpid'
    rcases mem_append.1 hpid' with hpid' | hpid'
    · obtain ⟨b, hb, hrun⟩ := h.queued pid' hpid'
      refine ⟨b, ?_, by simp only [hold (h.named hb).1.ne]; exact hrun⟩
      simp only [hinsert]
      rw [if_neg (hused hb), hb]
    · rw [mem_singleton.1 hpid']
      refine ⟨k.size, by simp only [hinsert, if_true], by simp only [hnew]; rfl⟩
  · simp only [hold hidle]
    exact h.idle
  · simp only [hinsert, h.unregistered]
    rw [if_neg fun h0 => absurd (h0 ▸ hpid) (by decide)]
  · intro b hb
    have hb : k.size + 1 ≤ b := hb
    simp only [Exited, hold (by omega : b ≠ k.size)]
    exact h.fresh (by omega)
  · intro b p hb
    by_cases hbs : b = k.size
    · subst hbs
      simp only [hnew] at hb
      cases hb
      exact hparent
    · simp only [hold hbs] at hb
      exact h.older hb
  · intro b hb
    have hb' := h.joining hb
    simp only [Exited, hold (h.lt_size hb'.1).ne]
    exact hb'
  · intro b hb
    obtain ⟨hlt, hex⟩ := h.exited hb
    simp only [Exited, hold hlt.ne]
    exact ⟨hlt.trans (lt_succ_self _), hex⟩

theorem InCall.fork {memory : Bool} {r : Except Errno PId} (h : InCall Z k)
    (hs : k.fork memory = .ok (r, k')) : InCall Z k' := by
  obtain ⟨⟨result, nextPid⟩, halloc, hs⟩ := bind_eq_ok.1 hs
  have hnext : InCall Z { k with nextPid := nextPid } := h.of_minor (.rest .refl _ _ _ _ _)
  match result, halloc with
  | .error e, _ =>
    cases hs
    exact hnext
  | .ok pid, halloc =>
    rcases ite_eq_ok.1 hs with ⟨-, hs⟩ | ⟨-, hs⟩
    · cases hs
      exact hnext
    rcases ite_eq_ok.1 hs with ⟨-, hs⟩ | ⟨-, hs⟩
    · cases hs
    obtain ⟨hpid, hfree⟩ := allocPidLoop_ok halloc
    have hlt := h.sound.lt_size h.runs
    have hregistered : InCall Z { k with
        size := k.size + 1
        process := update k.process k.size (k.forked k.current pid)
        processes := k.processes.insert pid k.size
        runQueue := k.runQueue ++ [pid] } := by
      refine ⟨h.sound.register hlt hpid hfree, ?_, h.notIdle, h.notJoining⟩
      simp only [Exited, update_of_ne hlt.ne]
      exact h.runs
    have hchildren := hregistered.modify (a := k.current)
      (f := fun p => { p with children := p.children ++ [k.size] }) rfl rfl rfl rfl
    cases hs
    exact hchildren.of_minor (.rest .refl _ _ _ _ _)

/-! ## Process groups -/

theorem minor_findOrCreateByPgid (k : Kernel) (pgid : PgId) :
    Minor k (k.findOrCreateByPgid pgid).2 := by
  rw [findOrCreateByPgid]
  split
  · exact .refl
  · exact .rest .refl _ _ _ _ _

theorem minor_removeMember {g : Addr} (h : Minor k k') : Minor k (k'.removeMember g a) := by
  rw [removeMember]
  split_ifs
  · exact .rest h _ _ _ _ _
  · exact .rest h _ _ _ _ _

theorem minor_joinGroup (hs : k.joinGroup a pgid = .ok k') : Minor k k' := by
  have hfound := minor_findOrCreateByPgid k pgid
  simp only [joinGroup] at hs
  rcases ite_eq_ok.1 hs with ⟨-, hs⟩ | ⟨-, hs⟩
  · cases hs
  rcases ite_eq_ok.1 hs with ⟨-, hs⟩ | ⟨-, hs⟩
  · cases hs
    exact hfound
  · cases hs
    refine .modify (.rest (minor_removeMember hfound) _ _ _ _ _) ?_
    exact fun _ => ⟨rfl, rfl, rfl, rfl⟩

theorem minor_sysSetpgid {r : Except Errno PgId} (hs : k.sysSetpgid pid pgid = .ok (r, k')) :
    Minor k k' := by
  simp only [sysSetpgid] at hs
  split at hs
  · cases hs
    exact .refl
  · obtain ⟨k₁, hk₁, hs⟩ := bind_eq_ok.1 hs
    cases hs
    exact minor_joinGroup hk₁

theorem minor_setForegroundProcessGroup : Minor k (k.setForegroundProcessGroup tty pgid).2 := by
  rw [setForegroundProcessGroup]
  split
  · exact .refl
  · exact .rest .refl _ _ _ _ _

theorem minor_sysRtSigaction {signum : Signal} {act : Disposition} {r : Except Errno Unit}
    (hs : k.sysRtSigaction signum act = .ok (r, k')) : Minor k k' := by
  rcases ite_eq_ok.1 hs with ⟨-, hs⟩ | ⟨-, hs⟩
  · cases hs
    exact .refl
  · obtain ⟨result, -, hs⟩ := bind_eq_ok.1 hs
    cases result with
    | error e =>
      cases hs
      exact .refl
    | ok signals =>
      cases hs
      exact .modify .refl fun _ => ⟨rfl, rfl, rfl, rfl⟩

/-! ## Terminals -/

/-- What signals and wake-ups leave as it is: they change the states, the
pending signals and the run queue, processes may leave a wait queue, and
no process exits. -/
structure Signalled (k k' : Kernel) : Prop where
  waiters : ∀ w ∈ k'.waiters, w ∈ k.waiters
  current : k'.current = k.current
  idle : k'.idle = k.idle
  foreground : k'.foreground = k.foreground
  group : k'.group = k.group
  processGroups : k'.processGroups = k.processGroups
  runs : ∀ {b}, ¬ k.Exited b → ¬ k'.Exited b

theorem Signalled.refl (k : Kernel) : Signalled k k :=
  ⟨fun _ => id, rfl, rfl, rfl, rfl, rfl, id⟩

theorem Signalled.trans {k₁ k₂ k₃ : Kernel} (h : Signalled k₁ k₂) (h' : Signalled k₂ k₃) :
    Signalled k₁ k₃ where
  waiters w hw := h.waiters w (h'.waiters w hw)
  current := h'.current.trans h.current
  idle := h'.idle.trans h.idle
  foreground := h'.foreground.trans h.foreground
  group := h'.group.trans h.group
  processGroups := h'.processGroups.trans h.processGroups
  runs hb := h'.runs (h.runs hb)

theorem signalled_resume (k : Kernel) (a : Addr) : Signalled k (k.resume a) := by
  obtain ⟨-, hwaiters, hcurrent, hidle, hforeground, hgroup, hgroups⟩ := resume_frame k a
  exact ⟨fun w hw => hwaiters ▸ hw, hcurrent, hidle, hforeground, hgroup, hgroups,
    not_exited_resume⟩

theorem signalled_sendSignal (k : Kernel) (a : Addr) (signal : Signal) :
    Signalled k (k.sendSignal a signal) := by
  obtain ⟨hwaiters, hcurrent, hidle, hforeground, hgroup, hgroups, -⟩ :=
    signalled_resume (k.modify a fun p => { p with signals := p.signals.signal signal }) a
  exact ⟨hwaiters, hcurrent, hidle, hforeground, hgroup, hgroups, not_exited_sendSignal⟩

theorem signalled_foldl_resume (k : Kernel) (l : List Addr) : Signalled k (l.foldl resume k) := by
  induction l generalizing k with
  | nil => exact .refl k
  | cons a l ih => exact (signalled_resume k a).trans (ih _)

theorem signalled_wakeAll (k : Kernel) (queue : WaitQueue) : Signalled k (k.wakeAll queue) := by
  obtain ⟨hwaiters, hcurrent, hidle, hforeground, hgroup, hgroups, hruns⟩ :=
    signalled_foldl_resume k (k.waiting queue)
  exact ⟨fun w hw => hwaiters w (mem_filter.1 hw).1, hcurrent, hidle, hforeground, hgroup,
    hgroups, hruns⟩

theorem Steady.of_signalled (h : Steady Z k) (hsound : Sound Z k') (hsig : Signalled k k') :
    Steady Z k' :=
  ⟨hsound, by rw [hsig.current]; exact hsig.runs h.2⟩

theorem InCall.of_signalled (h : InCall Z k) (hsound : Sound Z k') (hsig : Signalled k k') :
    InCall Z k' where
  sound := hsound
  runs := (h.steady.of_signalled hsound hsig).2
  notIdle := by
    rw [hsig.current, hsig.idle]
    exact h.notIdle
  notJoining hj := by
    rw [hsig.current] at hj
    exact h.notJoining (hsig.waiters _ hj)

theorem WaitersRun.of_signalled {queue : EventQueue} (h : k.WaitersRun queue)
    (hsig : Signalled k k') : k'.WaitersRun queue := by
  intro a ha
  obtain ⟨w, hw, rfl⟩ := mem_map.1 ha
  obtain ⟨hw, hq⟩ := mem_filter.1 hw
  exact hsig.runs (h _ (mem_map.2 ⟨w, mem_filter.2 ⟨hsig.waiters w hw, hq⟩, rfl⟩))

/-- Signals to processes that have not exited, one by one. -/
theorem Sound.signal_members {signal : Signal} {l : List Addr} (h : Sound Z k)
    (hl : ∀ a ∈ l, ¬ k.Exited a) (hs : l.foldlM (fun k a =>
      if Kernel.upgrades k a then .ok (Kernel.sendSignal k a signal) else .error .unwrapNone) k =
        Except.ok (ε := Panic) k') :
    Sound Z k' ∧ Signalled k k' := by
  induction l generalizing k with
  | nil =>
    cases hs
    exact ⟨h, .refl _⟩
  | cons a l ih =>
    obtain ⟨k₁, hk₁, hs⟩ := bind_eq_ok.1 hs
    rcases ite_eq_ok.1 hk₁ with ⟨-, hk₁⟩ | ⟨-, hk₁⟩
    · cases hk₁
      have hsent := signalled_sendSignal k a signal
      obtain ⟨hsound, hrest⟩ := ih (h.sendSignal (hl a mem_cons_self))
        (fun b hb => hsent.runs (hl b (mem_cons_of_mem _ hb))) hs
      exact ⟨hsound, hsent.trans hrest⟩
    · cases hk₁

/-- Whether the members of the foreground process group run is not
changed by signals. -/
theorem ForegroundRuns.of_signalled (h : k.ForegroundRuns tty) (hsig : Signalled k k') :
    k'.ForegroundRuns tty := by
  intro g hg hup a ha
  rw [hsig.foreground] at hg
  rw [groupUpgrades, hsig.group, hsig.processGroups] at hup
  rw [hsig.group] at ha
  exact hsig.runs (h g hg hup a ha)

theorem Sound.inputChar {c : Char} (h : Sound Z k)
    (hruns : c = '\x03' → cooked = true → k.ForegroundRuns tty)
    (hs : k.inputChar tty cooked c = .ok k') : Sound Z k' ∧ Signalled k k' := by
  rcases ite_eq_ok.1 hs with ⟨⟨hc, hcooked⟩, hs⟩ | ⟨-, hs⟩
  · split at hs
    next g hg =>
      rcases ite_eq_ok.1 hs with ⟨hup, hs⟩ | ⟨-, hs⟩
      · exact h.signal_members (hruns hc hcooked g hg hup) hs
      · cases hs
        exact ⟨h, .refl _⟩
    next =>
      cases hs
      exact ⟨h, .refl _⟩
  · cases hs
    exact ⟨h, .refl _⟩

/-- **Input to a terminal**, character by character. -/
theorem Sound.inputChars {chars : List Char} (h : Sound Z k)
    (hruns : interrupts cooked chars = true → k.ForegroundRuns tty)
    (hs : chars.foldlM (fun k c => Kernel.inputChar k tty cooked c) k = .ok k') :
    Sound Z k' ∧ Signalled k k' := by
  induction chars generalizing k with
  | nil =>
    cases hs
    exact ⟨h, .refl _⟩
  | cons c chars ih =>
    obtain ⟨k₁, hk₁, hs⟩ := bind_eq_ok.1 hs
    obtain ⟨hsound, hsig⟩ := h.inputChar (fun hc hcooked => hruns (by simp [interrupts, hc, hcooked]))
      hk₁
    obtain ⟨hsound', hsig'⟩ := ih hsound (fun hint => (hruns (by
      simp only [interrupts, Bool.and_eq_true, contains_cons, Bool.or_eq_true] at hint ⊢
      exact ⟨hint.1, Or.inr hint.2⟩)).of_signalled hsig) hs
    exact ⟨hsound', hsig.trans hsig'⟩

theorem Sound.ttyWrite {chars : List Char} (h : Sound Z k)
    (hruns : interrupts cooked chars = true → k.ForegroundRuns tty)
    (hwaiters : k.WaitersRun (.tty tty)) (hs : k.ttyWrite tty cooked chars = .ok k') :
    Sound Z k' ∧ Signalled k k' := by
  obtain ⟨k₁, hk₁, hs⟩ := bind_eq_ok.1 hs
  cases hs
  obtain ⟨hsound, hsig⟩ := h.inputChars hruns hk₁
  exact ⟨hsound.wakeAll (hwaiters.of_signalled hsig), hsig.trans (signalled_wakeAll _ _)⟩

/-! ## System calls -/

/-- A change to the current process that is not about its family. -/
theorem Sound.parentRuns_modify {f : Process → Process} (h : Sound Z k) (hruns : k.ParentRuns)
    (hparent : (f (k.process k.current)).parent = (k.process k.current).parent)
    (hchildren : (f (k.process k.current)).children = (k.process k.current).children) :
    (k.modify k.current f).ParentRuns := by
  have hsize : (k.modify k.current f).size = k.size := rfl
  refine h.parentRuns_congr hruns rfl (upgrades_congr hsize (fun a => ?_) (fun _ => .rfl))
    (by rw [modify_self, hparent]) fun b hb => modify_of_ne f hb
  by_cases ha : a = k.current
  · rw [ha, modify_self, hchildren]
  · rw [modify_of_ne f ha]

/-- A signal that terminates the process is delivered only where its
parent has not exited. -/
theorem InCall.tryDeliveringSignal (h : InCall Z k) (hparent : k.isTerminated = true → k.ParentRuns)
    (hs : k.tryDeliveringSignal = .ok k') : Steady Z k' := by
  simp only [Kernel.tryDeliveringSignal] at hs
  split at hs
  next =>
    cases hs
    exact h.setMode
  next signal action signals hpop =>
    have hpopped : InCall Z (k.modify k.current fun p => { p with signals := signals }) :=
      h.modify rfl rfl rfl rfl
    cases action with
    | ignore =>
      cases hs
      exact hpopped.setMode
    | terminate =>
      have hruns := hparent (by rw [isTerminated, hpop]; rfl)
      exact hpopped.exit (h.sound.parentRuns_modify hruns rfl rfl) hs
    | handler =>
      cases hs
      exact (hpopped.modify rfl rfl rfl rfl).setMode

theorem InCall.dispatch {call : Syscall} (h : InCall Z k) (hok : k.ResumesNoExited (.syscall call))
    (hs : k.dispatch call = .ok k') : Steady Z k' := by
  cases call with
  | fork memory =>
    obtain ⟨⟨r, k₁⟩, hk₁, hs⟩ := bind_eq_ok.1 hs
    cases hs
    exact (h.fork hk₁).setMode
  | exit status => exact h.exit hok hs
  | wait4 pid nohang => exact h.sound.sysWait4 h.runs h.notIdle hs
  | setpgid pid pgid =>
    obtain ⟨⟨r, k₁⟩, hk₁, hs⟩ := bind_eq_ok.1 hs
    cases hs
    exact (h.of_minor (minor_sysSetpgid hk₁)).setMode
  | tiocspgrp tty pgid =>
    cases hs
    exact (h.of_minor minor_setForegroundProcessGroup).setMode
  | rtSigaction signum act =>
    obtain ⟨⟨r, k₁⟩, hk₁, hs⟩ := bind_eq_ok.1 hs
    cases hs
    exact (h.of_minor (minor_sysRtSigaction hk₁)).setMode
  | rtSigreturn =>
    rcases ite_eq_ok.1 hs with ⟨-, hs⟩ | ⟨hsignaled, hs⟩
    · cases hs
      exact InCall.setMode (h.modify rfl rfl rfl rfl)
    · exact h.exit (hok (by simpa using hsignaled)) hs
  | execve =>
    cases hs
    exact InCall.setMode (h.modify rfl rfl rfl rfl)
  | sleep queue check =>
    refine h.sound.sysSleep h.runs h.notIdle h.notJoining ?_ hs
    rintro rfl
    exact hok
  | wake queue =>
    cases hs
    exact (h.of_signalled (h.sound.wakeAll hok) (signalled_wakeAll _ _)).setMode
  | ttyWrite tty cooked chars =>
    obtain ⟨k₁, hk₁, hs⟩ := bind_eq_ok.1 hs
    cases hs
    obtain ⟨hsound, hsig⟩ := h.sound.ttyWrite hok.1 hok.2 hk₁
    exact (h.of_signalled hsound hsig).setMode

/-! ## Whole runs -/

/-- Dropping objects that are not held touches the groups only. -/
theorem Steady.dropProcesses (h : Steady Z k) : Steady Z k.dropProcesses :=
  ⟨h.1.congr rfl rfl rfl rfl rfl rfl, h.2⟩

/-- In user mode and at the end of a system call the current process is
in no wait queue for children. -/
theorem Steady.not_joining (h : Steady Z k)
    (hmode : ∀ pid nohang, (k.process k.current).mode ≠ .sleeping (.wait4 pid nohang)) :
    (.join, k.current) ∉ k.waiters := by
  intro hj
  obtain ⟨-, pid, nohang, hm⟩ := h.1.joining hj
  exact hmode pid nohang hm

/-- Only the idle thread is always in user mode. -/
theorem Steady.ne_idle (h : Steady Z k) (hmode : (k.process k.current).mode ≠ .user) :
    k.current ≠ k.idle :=
  fun he => hmode (he ▸ h.1.idle.2.2)

theorem Steady.perform {action : Action} (h : Steady Z k) (hok : k.ResumesNoExited action)
    (hmode : (k.process k.current).mode = mode) (hs : k.perform mode action = some (.ok k')) :
    Steady Z k' := by
  have hcall : k.current ≠ k.idle →
      (∀ pid nohang, mode ≠ .sleeping (.wait4 pid nohang)) → InCall Z k := fun hidle hm =>
    ⟨h.1, h.2, hidle, h.not_joining fun pid nohang => hmode ▸ hm pid nohang⟩
  have hawake : mode ≠ .user → k.current ≠ k.idle := fun hm => h.ne_idle (hmode ▸ hm)
  unfold Kernel.perform at hs
  split at hs
  next call =>
    split_ifs at hs with hidle
    exact (hcall hidle (by simp)).dispatch hok (some.inj hs)
  next =>
    split_ifs at hs with hidle
    exact (hcall hidle (by simp)).exit hok (some.inj hs)
  next => exact h.1.switch (some.inj hs)
  next queue =>
    cases hs
    exact h.of_signalled (h.1.wakeAll hok) (signalled_wakeAll _ _)
  next tty cooked chars =>
    obtain ⟨hsound, hsig⟩ := h.1.ttyWrite hok.1 hok.2 (some.inj hs)
    exact h.of_signalled hsound hsig
  next pid nohang check =>
    exact h.1.sysWait4 h.2 (hawake (by simp)) (some.inj hs)
  next queue check =>
    refine h.1.sysSleep h.2 (hawake (by simp)) (hcall (hawake (by simp)) (by simp)).notJoining ?_
      (some.inj hs)
    rintro rfl
    exact hok
  next =>
    exact (hcall (hawake (by simp)) (by simp)).tryDeliveringSignal hok (some.inj hs)
  next => cases hs

/-- **One step** that resumes no exited process. -/
theorem Steady.step {action : Action} (h : Steady Z k) (hok : k.ResumesNoExited action)
    (hs : machine.step k action = some k') : Steady Z k' := by
  simp only [machine] at hs
  split at hs
  next k₁ hk₁ =>
    cases hs
    exact (h.perform hok rfl hk₁).dropProcesses
  next => cases hs

theorem getElem?_boot (pid : PId) : boot.processes[pid]? = if 1 = pid then some 1 else none := by
  rw [boot, Std.ExtTreeMap.getElem?_insert]
  simp only [Std.LawfulEqCmp.compare_eq_iff_eq, Std.ExtTreeMap.getElem?_empty]

theorem exited_boot (ha : 2 ≤ a) : boot.Exited a := by
  show (if a < 2 then ProcessState.runnable else .exitedWith 0).isExited = true
  rw [if_neg (not_lt.2 ha)]
  rfl

theorem steady_boot : Steady (fun _ => False) boot := by
  refine ⟨⟨?_, ?_, ?_, ⟨rfl, rfl, rfl⟩, ?_, ?_, ?_, ?_, False.elim⟩, by decide⟩
  · intro pid a ha
    rw [getElem?_boot] at ha
    split_ifs at ha with hpid
    cases ha
    exact ⟨by decide, hpid⟩
  · intro a hidle ha
    have hlt : a < 2 := Nat.lt_of_not_le fun hge => ha (exited_boot hge)
    obtain rfl : a = 1 := le_antisymm (le_of_lt_succ hlt) (one_le_iff_ne_zero.2 hidle)
    rfl
  · intro pid hpid
    obtain rfl : pid = 1 := mem_singleton.1 hpid
    exact ⟨1, by rw [getElem?_boot]; rfl, rfl⟩
  · rw [getElem?_boot]
    rfl
  · exact exited_boot
  · nofun
  · nofun

/-- Being steady, with the exited processes remembered. -/
theorem Steady.remember (h : Steady Z k) : Steady (fun a => a < k.size ∧ k.Exited a) k :=
  ⟨{ h.1 with exited := id }, h.2⟩

/-- **The run queue, as long as no exited process is resumed.** Along
every interleaving of forks, exits, waits, signals and context switches
in which no step resumes an exited process, every id in the run queue is
that of a registered, runnable process, and an exited process is never
runnable again. -/
theorem runQueueSound_of_resumesNoExited {s s' : Kernel}
    (hs : machine.ReachUnder ResumesNoExited boot s)
    (hs' : machine.ReachUnder ResumesNoExited s s') :
    s.RunQueueSound ∧ ∀ a < s.size, s.Exited a → s'.Exited a := by
  have hsteady : Steady (fun _ => False) s := hs.invariant steady_boot .step
  have hlater : Steady (fun a => a < s.size ∧ s.Exited a) s' :=
    hs'.invariant hsteady.remember .step
  exact ⟨hsteady.1.runQueueSound, fun a ha hex => (hlater.1.exited ⟨ha, hex⟩).2⟩

/-! ## An orphan -/

/-- The first process forks a process (2), which forks another (3) and
exits. -/
def orphaned : List Action :=
  [.preempt, .syscall (.fork true), .deliver, .preempt, .syscall (.fork true), .deliver,
    .syscall (.exit 0)]

/-- The orphan is in the run queue, and its parent stays exited. -/
theorem runQueueSound_orphaned :
    ∃ s s', machine.ReachUnder ResumesNoExited boot s ∧ machine.ReachUnder ResumesNoExited s s' ∧
      s.runQueue = [3] ∧ s.RunQueueSound ∧ s.Exited 2 ∧ s'.Exited 2 := by
  obtain ⟨s, hs, hqueue, hsize, hexited, hnext⟩ : ∃ s, machine.ReachUnder ResumesNoExited boot s ∧
      s.runQueue = [3] ∧ 2 < s.size ∧ s.Exited 2 ∧
        (machine.runUnder ResumesNoExited s [.preempt]).isSome :=
    Machine.exists_reachUnder orphaned (by decide +kernel)
  obtain ⟨s', hrun⟩ := isSome_iff_exists.1 hnext
  have hs' := Machine.reachUnder_of_runUnder hrun
  obtain ⟨hsound, hstays⟩ := runQueueSound_of_resumesNoExited hs hs'
  exact ⟨s, s', hs, hs', hqueue, hsound, hexited, hstays 2 hsize hexited⟩

/-- **The orphan exits.** Its parent has exited, but its object is still
there: the first process has not waited for it. The signal makes it
runnable, and its id is in the run queue, but not in the table. -/
theorem not_runQueueSound_of_orphan_exit :
    ∃ s s', machine.Reach boot s ∧ machine.Reach s s' ∧ 2 < s.size ∧ s.Exited 2 ∧
      ¬ s'.Exited 2 ∧ ¬ s'.RunQueueSound := by
  obtain ⟨s, hs, hsize, hexited, s', hrun, hrunnable, hqueue, htable⟩ : ∃ s, machine.Reach boot s ∧
      2 < s.size ∧ s.Exited 2 ∧ ∃ s' ∈ machine.run s [.preempt, .syscall (.exit 0)],
        ¬ s'.Exited 2 ∧ s'.runQueue = [2] ∧ s'.processes[(2 : PId)]? = none :=
    Machine.exists_reachUnder orphaned (by decide +kernel)
  refine ⟨s, s', hs, Machine.reach_of_run hrun, hsize, hexited, hrunnable, fun hsound => ?_⟩
  obtain ⟨a, ha, -⟩ := hsound 2 (by rw [hqueue]; exact mem_singleton_self _)
  rw [htable] at ha
  cases ha

/-! ## Process ids -/

/-- **An id names one process.** In whatever order processes fork, exit
and are waited for, those that have not exited have different ids, and
each of them but the idle thread is in the table under its own. -/
theorem pid_injective_of_resumesNoExited {s : Kernel}
    (hs : machine.ReachUnder ResumesNoExited boot s) (ha : ¬ s.Exited a) (hb : ¬ s.Exited b) :
    ((s.process a).pid = (s.process b).pid → a = b) ∧
      (a ≠ s.idle → s.processes[(s.process a).pid]? = some a) := by
  have h : Sound (fun _ => False) s := (hs.invariant steady_boot .step).1
  refine ⟨fun hpid => ?_, fun hidle => h.registered hidle ha⟩
  by_cases hai : a = s.idle <;> by_cases hbi : b = s.idle
  · rw [hai, hbi]
  · have hreg := h.registered hbi hb
    rw [← hpid, hai, h.idle.2.1, h.unregistered] at hreg
    cases hreg
  · have hreg := h.registered hai ha
    rw [hpid, hbi, h.idle.2.1, h.unregistered] at hreg
    cases hreg
  · have hreg := h.registered hai ha
    rw [hpid, h.registered hbi hb] at hreg
    exact (some.inj hreg).symm

/-- The first process and the orphan have different ids. -/
theorem pid_injective_orphaned : ∃ s, machine.ReachUnder ResumesNoExited boot s ∧
    (s.process 1).pid ≠ (s.process 3).pid := by
  obtain ⟨s, hs, h₁, h₃⟩ : ∃ s, machine.ReachUnder ResumesNoExited boot s ∧
      ¬ s.Exited 1 ∧ ¬ s.Exited 3 := Machine.exists_reachUnder orphaned (by decide +kernel)
  exact ⟨s, hs, fun hpid => absurd ((pid_injective_of_resumesNoExited hs h₁ h₃).1 hpid) (by decide)⟩

end Archives.Kerla.Kernel
