import Archives.Kerla.Scheduling
/-!
# Kerla — no sleeper is lost

A process that is blocked is in the wait queue it sleeps on
(`Suspended`): only a turn of `sleep_signalable_until` blocks a process,
and it puts it in the queue in the same step; whoever takes it out of the
queue makes it runnable first. So the next `wake_all` wakes it, and the
loop is never left with the process blocked or still in the queue.

Nearly everything else the kernel does blocks no process and takes no
blocked process out of a queue. `Eases` says so, and is what the lemmas
about single operations establish.
-/

namespace Archives.Kerla.Kernel

open List

/-- What happens next: a step of the kernel, or a `wake_all` or a signal
from anywhere. -/
inductive Turn
  | act (action : Action)
  | wakeAll (queue : WaitQueue)
  | signal (a : Addr) (signal : Signal)

/-- **The machine** with wake-ups and signals at any time. -/
def interleaving : Machine Kernel Turn where
  step
    | k, .act action => machine.step k action
    | k, .wakeAll queue => some (k.wakeAll queue)
    | k, .signal a signal => some (k.sendSignal a signal)

/-- **What a wait queue owes its sleepers**, in a state: a blocked process
is in the queue it sleeps on, and waking that queue makes it runnable; a
turn that leaves the loop leaves the process runnable and not in the
queue. -/
structure SleepersSafe (k : Kernel) : Prop where
  blocked : ∀ a, (k.process a).state = .blockedSignalable → ∃ sleep,
    (k.process a).mode = .sleeping sleep ∧ a ∈ k.waiting sleep.queue ∧
      ((k.wakeAll sleep.queue).process a).state = .runnable ∧
      (k.process a).pid ∈ (k.wakeAll sleep.queue).runQueue
  returns : ∀ {α : Type} (sleep : Sleep) (check : Kernel → Except Panic (Check α)) (k' : Kernel)
    (r : Except Errno α), k.sleepSignalableUntil sleep check = .ok (k', some r) →
      k'.current = k.current ∧ (k'.process k.current).state = .runnable ∧
        k.current ∉ k'.waiting sleep.queue

variable {k k' k'' : Kernel} {a : Addr} {pid : PId}

def Blocked (k : Kernel) (a : Addr) : Prop := (k.process a).state = .blockedSignalable

/-- **The invariant**: a blocked process is in the loop, and in the queue
it sleeps on. -/
def Suspended (k : Kernel) : Prop :=
  ∀ a, k.Blocked a → ∃ sleep, (k.process a).mode = .sleeping sleep ∧ (sleep.queue, a) ∈ k.waiters

/-! ## What blocks no process -/

/-- **Nothing is blocked that was not**, and what stays blocked stays
where it is. -/
structure Eases (k k' : Kernel) : Prop where
  current : k'.current = k.current
  blocked : ∀ {a}, k'.Blocked a → k.Blocked a
  mode : ∀ {a}, k'.Blocked a → (k'.process a).mode = (k.process a).mode
  waiters : ∀ {a queue}, k'.Blocked a → (queue, a) ∈ k.waiters → (queue, a) ∈ k'.waiters

theorem Eases.refl (k : Kernel) : Eases k k := ⟨rfl, id, fun _ => rfl, fun _ => id⟩

theorem Eases.trans (h₁ : Eases k k') (h₂ : Eases k' k'') : Eases k k'' where
  current := h₂.current.trans h₁.current
  blocked hb := h₁.blocked (h₂.blocked hb)
  mode hb := (h₂.mode hb).trans (h₁.mode (h₂.blocked hb))
  waiters hb hw := h₂.waiters hb (h₁.waiters (h₂.blocked hb) hw)

theorem Suspended.of_eases (h : Suspended k) (he : Eases k k') : Suspended k' := by
  intro a ha
  obtain ⟨sleep, hmode, hmem⟩ := h a (he.blocked ha)
  exact ⟨sleep, (he.mode ha).trans hmode, he.waiters ha hmem⟩

/-- The invariant looks at the processes and the wait queues only. -/
theorem Suspended.congr (h : Suspended k) (hprocess : k'.process = k.process)
    (hwaiters : k'.waiters = k.waiters) : Suspended k' := by
  intro a ha
  rw [Blocked, hprocess] at ha
  rw [hprocess, hwaiters]
  exact h a ha

/-- The same processes and wait queues. -/
theorem eases_of_eq (hcurrent : k'.current = k.current) (hprocess : k'.process = k.process)
    (hwaiters : k'.waiters = k.waiters) : Eases k k' := by
  refine ⟨hcurrent, fun hb => ?_, fun hb => ?_, fun _ hw => hwaiters ▸ hw⟩
  · rwa [Blocked, hprocess] at hb
  · rw [hprocess]

/-- One process is changed: it is not blocked then, or its state and
where it is are the same. -/
theorem eases_modify {f : Process → Process} (hf : (f (k.process a)).state = .blockedSignalable →
      (k.process a).state = .blockedSignalable ∧ (f (k.process a)).mode = (k.process a).mode) :
    Eases k (k.modify a f) := by
  refine ⟨rfl, fun {b} hb => ?_, fun {b} hb => ?_, fun _ hw => hw⟩
  all_goals
    by_cases hba : b = a
    · subst hba
      rw [Blocked, modify_self] at hb
      first
        | exact (hf hb).1
        | exact (modify_self k b f).symm ▸ (hf hb).2
    · first
        | rwa [Blocked, modify_of_ne f hba] at hb
        | rw [modify_of_ne f hba]

/-- The current process moves on, unless it is blocked. -/
theorem eases_setMode {mode : Mode} (h : ¬ k.Blocked k.current) : Eases k (k.setMode mode) :=
  eases_modify fun hb => absurd hb h

theorem eases_setState {state : ProcessState} (h : state ≠ .blockedSignalable) :
    Eases k (k.setState a state) := by
  have hmodify : Eases k (k.modify a fun p => { p with state := state }) :=
    eases_modify fun hb => absurd hb h
  cases state with
  | runnable => exact hmodify
  | blockedSignalable => exact absurd rfl h
  | exitedWith status => exact hmodify.trans (eases_of_eq rfl rfl rfl)

theorem eases_resume (k : Kernel) (a : Addr) : Eases k (k.resume a) := by
  by_cases hrun : (k.process a).state = .runnable
  · rw [resume_of_runnable hrun]
    exact .refl k
  · rw [resume_of_ne hrun]
    have hrunnable : Eases k (k.setState a .runnable) := eases_setState (by decide)
    exact hrunnable.trans (eases_of_eq rfl rfl rfl)

theorem eases_sendSignal (k : Kernel) (a : Addr) (signal : Signal) :
    Eases k (k.sendSignal a signal) :=
  (eases_modify fun hb => ⟨hb, rfl⟩).trans (eases_resume _ a)

/-! ## Waking -/

theorem resume_self (k : Kernel) (a : Addr) : ((k.resume a).process a).state = .runnable := by
  by_cases hrun : (k.process a).state = .runnable
  · rwa [resume_of_runnable hrun]
  · rw [resume_of_ne hrun]
    show ((k.setState a .runnable).process a).state = .runnable
    rw [setState_self]

/-- A runnable process stays so, and what is in the run queue stays
there. -/
theorem resume_of_already (k : Kernel) (a : Addr) {b : Addr}
    (h : (k.process b).state = .runnable) : ((k.resume a).process b).state = .runnable := by
  by_cases hba : b = a
  · subst hba
    exact resume_self k b
  · rwa [resume_of_process_ne hba]

theorem mem_runQueue_resume (k : Kernel) (a : Addr) (h : pid ∈ k.runQueue) :
    pid ∈ (k.resume a).runQueue := by
  by_cases hrun : (k.process a).state = .runnable
  · rwa [resume_of_runnable hrun]
  · rw [resume_of_ne hrun]
    exact mem_append_left _ h

theorem eases_foldl_resume (k : Kernel) (l : List Addr) : Eases k (l.foldl resume k) := by
  induction l generalizing k with
  | nil => exact .refl k
  | cons a l ih => exact (eases_resume k a).trans (ih _)

theorem foldl_resume_of_already (k : Kernel) (l : List Addr) {b : Addr}
    (h : (k.process b).state = .runnable) : ((l.foldl resume k).process b).state = .runnable := by
  induction l generalizing k with
  | nil => exact h
  | cons a l ih => exact ih _ (resume_of_already k a h)

theorem mem_runQueue_foldl_resume (k : Kernel) (l : List Addr) (h : pid ∈ k.runQueue) :
    pid ∈ (l.foldl resume k).runQueue := by
  induction l generalizing k with
  | nil => exact h
  | cons a l ih => exact ih _ (mem_runQueue_resume k a h)

/-- **Whoever is resumed along the way is runnable in the end**, and in
the run queue if it was not runnable before. -/
theorem foldl_resume_of_mem (k : Kernel) {l : List Addr} {b : Addr} (hb : b ∈ l) :
    ((l.foldl resume k).process b).state = .runnable ∧
      ((k.process b).state ≠ .runnable → (k.process b).pid ∈ (l.foldl resume k).runQueue) := by
  induction l generalizing k with
  | nil => cases hb
  | cons a l ih =>
    by_cases hba : b = a
    · subst hba
      refine ⟨foldl_resume_of_already _ l (resume_self k b), fun hrun => ?_⟩
      refine mem_runQueue_foldl_resume _ l ?_
      rw [resume_of_ne hrun]
      exact mem_append_right _ (mem_singleton.2 rfl)
    · obtain ⟨hrunnable, hqueue⟩ := ih (k.resume a) ((mem_cons.1 hb).resolve_left hba)
      refine ⟨hrunnable, fun hrun => ?_⟩
      rw [resume_of_process_ne hba] at hqueue
      exact hqueue hrun

theorem mem_waiting {queue : WaitQueue} : a ∈ k.waiting queue ↔ (queue, a) ∈ k.waiters := by
  rw [waiting, mem_map]
  constructor
  · rintro ⟨w, hw, rfl⟩
    obtain ⟨hw, hq⟩ := mem_filter.1 hw
    exact of_decide_eq_true hq ▸ hw
  · intro hw
    exact ⟨_, mem_filter.2 ⟨hw, decide_eq_true rfl⟩, rfl⟩

/-- **Waking a queue** blocks no process, and a process that is still
blocked was not in the queue. -/
theorem eases_wakeAll (k : Kernel) (queue : WaitQueue) : Eases k (k.wakeAll queue) := by
  have hfold := eases_foldl_resume k (k.waiting queue)
  refine ⟨hfold.current, hfold.blocked, hfold.mode, fun {a q} hb hw => ?_⟩
  refine mem_filter.2 ⟨hfold.waiters hb hw, decide_eq_true ?_⟩
  rintro rfl
  have hrunnable := (foldl_resume_of_mem k (mem_waiting.2 hw)).1
  cases hb.symm.trans hrunnable

/-! ## Switching and leaving -/

theorem switch_frame (hs : k.switch = .ok k') : k'.process = k.process ∧ k'.waiters = k.waiters := by
  simp only [Kernel.switch] at hs
  split at hs
  next =>
    cases hs
    constructor <;> split <;> rfl
  next =>
    split at hs
    next => cases hs
    next =>
      cases hs
      constructor <;> split <;> rfl

theorem Suspended.switch (h : Suspended k) (hs : k.switch = .ok k') : Suspended k' :=
  h.congr (switch_frame hs).1 (switch_frame hs).2

theorem eases_notifyParent (k : Kernel) (a : Addr) : Eases k (k.notifyParent a) := by
  rw [Kernel.notifyParent]
  split
  · split
    · exact eases_sendSignal k _ _
    · exact .refl k
  · exact .refl k

theorem Suspended.exit {status : Int} (h : Suspended k) (hs : k.exit status = .ok k') :
    Suspended k' := by
  simp only [Kernel.exit] at hs
  split at hs
  next => cases hs
  next =>
    have hexited : Eases k (k.setState k.current (.exitedWith status)) := eases_setState (by simp)
    refine .switch (.of_eases ?_ (eases_wakeAll _ .join)) hs
    exact (h.of_eases (hexited.trans (eases_notifyParent _ _))).congr rfl rfl

/-! ## A turn of the loop -/

/-- The start of a turn keeps the invariant: the process is in the queue
once it is blocked. -/
theorem Suspended.block (h : Suspended k) (sleep : Sleep) : Suspended (k.block sleep) := by
  intro a ha
  by_cases hcur : a = k.current
  · subst hcur
    rw [block_self]
    exact ⟨sleep, rfl, mem_append_right _ (mem_singleton.2 rfl)⟩
  · rw [Blocked, block_of_ne hcur] at ha
    obtain ⟨sleep', hmode, hmem⟩ := h a ha
    rw [block_of_ne hcur]
    exact ⟨sleep', hmode, mem_append_left _ hmem⟩

/-- The process made runnable and taken out of the queue it sleeps on. -/
def leave (k : Kernel) (sleep : Sleep) : Kernel :=
  ((k.block sleep).resume k.current).leaveQueue sleep.queue

theorem leave_frame (k : Kernel) (sleep : Sleep) : (k.leave sleep).current = k.current ∧
      ((k.leave sleep).process k.current).state = .runnable ∧
      k.current ∉ (k.leave sleep).waiting sleep.queue := by
  have hcurrent : ((k.block sleep).resume k.current).current = k.current :=
    (resume_frame (k.block sleep) k.current).2.2.1
  refine ⟨hcurrent, resume_self (k.block sleep) k.current, fun hmem => ?_⟩
  have hne := (mem_filter.1 (mem_waiting.1 hmem)).2
  rw [hcurrent] at hne
  exact of_decide_eq_true hne rfl

/-- Leaving the loop takes no blocked process out of the queue: the one
that leaves is runnable. -/
theorem Suspended.leave (h : Suspended k) (sleep : Sleep) : Suspended (k.leave sleep) := by
  have hresumed : Suspended ((k.block sleep).resume k.current) :=
    (h.block sleep).of_eases (eases_resume _ _)
  have hcurrent := (leave_frame k sleep).1
  intro a ha
  obtain ⟨sleep', hmode, hmem⟩ := hresumed a ha
  refine ⟨sleep', hmode, mem_filter.2 ⟨hmem, decide_eq_true fun heq => ?_⟩⟩
  have heq : a = k.current := (Prod.mk.inj heq).2.trans hcurrent
  subst heq
  cases ha.symm.trans (leave_frame k sleep).2.1

/-- **One turn of a sleep** keeps the invariant; if it leaves the loop,
it does so as `leave` says. -/
theorem Suspended.sleepSignalableUntil {α : Type} {sleep : Sleep}
    {check : Kernel → Except Panic (Check α)} {r : Option (Except Errno α)} (h : Suspended k)
    (hs : k.sleepSignalableUntil sleep check = .ok (k', r)) :
    Suspended k' ∧ (r.isSome = true → k' = k.leave sleep) := by
  have hblock := h.block sleep
  rcases ite_eq_ok.1 hs with ⟨-, hs⟩ | ⟨-, hs⟩
  · cases hs
    exact ⟨h.leave sleep, fun _ => rfl⟩
  · obtain ⟨c, -, hs⟩ := bind_eq_ok.1 hs
    cases c with
    | ready result =>
      cases hs
      exact ⟨h.leave sleep, fun _ => rfl⟩
    | notYet =>
      obtain ⟨k₁, hk₁, hs⟩ := bind_eq_ok.1 hs
      cases hs
      exact ⟨hblock.switch hk₁, nofun⟩
    | fault =>
      obtain ⟨k₁, hk₁, hs⟩ := bind_eq_ok.1 hs
      cases hs
      exact ⟨hblock.exit hk₁, nofun⟩

/-- A process that has left the loop goes to the end of its call. -/
theorem Suspended.setMode_leave {sleep : Sleep} (h : Suspended (k.leave sleep)) (mode : Mode) :
    Suspended ((k.leave sleep).setMode mode) := by
  refine h.of_eases (eases_setMode fun hb => ?_)
  obtain ⟨hcurrent, hrunnable, -⟩ := leave_frame k sleep
  rw [Blocked, hcurrent, hrunnable] at hb
  cases hb

theorem Suspended.sysWait4 {nohang : Bool} (h : Suspended k) (hs : k.sysWait4 pid nohang = .ok k') :
    Suspended k' := by
  obtain ⟨⟨k₁, r⟩, hk₁, hs⟩ := bind_eq_ok.1 hs
  obtain ⟨hsusp, hleft⟩ := h.sleepSignalableUntil hk₁
  match r with
  | none =>
    cases hs
    exact hsusp
  | some (.error e) =>
    cases hs
    obtain rfl := hleft rfl
    exact hsusp.setMode_leave _
  | some (.ok (gotPid, status)) =>
    cases hs
    obtain rfl := hleft rfl
    obtain ⟨hcurrent, hrunnable, -⟩ := leave_frame k (.wait4 pid nohang)
    have hevict : Eases (k.leave (.wait4 pid nohang)) ((k.leave (.wait4 pid nohang)).evict gotPid) :=
      eases_modify fun hb => ⟨hb, rfl⟩
    refine (hsusp.of_eases hevict).of_eases (eases_setMode fun hb => ?_)
    have hb := hevict.blocked hb
    rw [hevict.current, Blocked, hcurrent, hrunnable] at hb
    cases hb

theorem Suspended.sysSleep {queue : EventQueue} {check : Check Unit} (h : Suspended k)
    (hs : k.sysSleep queue check = .ok k') : Suspended k' := by
  obtain ⟨⟨k₁, r⟩, hk₁, hs⟩ := bind_eq_ok.1 hs
  obtain ⟨hsusp, hleft⟩ := h.sleepSignalableUntil hk₁
  cases r with
  | none =>
    cases hs
    exact hsusp
  | some r =>
    cases hs
    obtain rfl := hleft rfl
    exact hsusp.setMode_leave _

/-! ## The other system calls -/

/-- An update that eases, and then the end of the call. -/
theorem Suspended.returning (h : Suspended k) (hb : ¬ k.Blocked k.current) (he : Eases k k')
    (mode : Mode) : Suspended (k'.setMode mode) := by
  refine (h.of_eases he).of_eases (eases_setMode fun hb' => hb ?_)
  have hb' := he.blocked hb'
  rwa [he.current] at hb'

theorem eases_fork {memory : Bool} {r : Except Errno PId} (hs : k.fork memory = .ok (r, k')) :
    Eases k k' := by
  obtain ⟨⟨result, nextPid⟩, -, hs⟩ := bind_eq_ok.1 hs
  match result with
  | .error e =>
    cases hs
    exact eases_of_eq rfl rfl rfl
  | .ok pid =>
    rcases ite_eq_ok.1 hs with ⟨-, hs⟩ | ⟨-, hs⟩
    · cases hs
      exact eases_of_eq rfl rfl rfl
    rcases ite_eq_ok.1 hs with ⟨-, hs⟩ | ⟨-, hs⟩
    · cases hs
    cases hs
    -- the child is made runnable, the parent gets a child
    have hchild : Eases k (k.modify k.size fun _ => k.forked k.current pid) :=
      eases_modify nofun
    refine hchild.trans ?_
    refine (eases_modify (a := k.current) (f := fun p => { p with children := p.children ++ [k.size] })
      fun hb => ⟨hb, rfl⟩).trans ?_
    exact eases_of_eq rfl rfl rfl

theorem eases_of_minor (hm : Minor k k') : Eases k k' := by
  induction hm with
  | refl => exact .refl k
  | modify _ hf ih =>
    obtain ⟨-, hstate, -, hmode⟩ := hf _
    exact ih.trans (eases_modify fun hb => ⟨hstate ▸ hb, hmode⟩)
  | rest _ _ _ _ _ _ ih => exact ih.trans (eases_of_eq rfl rfl rfl)

/-- Steps that ease, one after the other. -/
theorem eases_foldlM {β : Type} {f : Kernel → β → Except Panic Kernel} {l : List β}
    (hf : ∀ {k k' : Kernel} {b : β}, f k b = .ok k' → Eases k k')
    (hs : l.foldlM f k = .ok k') : Eases k k' := by
  induction l generalizing k with
  | nil =>
    cases hs
    exact .refl _
  | cons b l ih =>
    obtain ⟨k₁, hk₁, hs⟩ := bind_eq_ok.1 hs
    exact (hf hk₁).trans (ih hs)

theorem eases_signalGroup {g : Addr} {signal : Signal} (hs : k.signalGroup g signal = .ok k') :
    Eases k k' := by
  refine eases_foldlM (fun {k k' a} hk => ?_) hs
  rcases ite_eq_ok.1 hk with ⟨-, hk⟩ | ⟨-, hk⟩
  · cases hk
    exact eases_sendSignal k a signal
  · cases hk

theorem eases_inputChar {tty : Nat} {cooked : Bool} {c : Char}
    (hs : k.inputChar tty cooked c = .ok k') : Eases k k' := by
  rcases ite_eq_ok.1 hs with ⟨-, hs⟩ | ⟨-, hs⟩
  · split at hs
    next g hg =>
      rcases ite_eq_ok.1 hs with ⟨-, hs⟩ | ⟨-, hs⟩
      · exact eases_signalGroup hs
      · cases hs
        exact .refl _
    next =>
      cases hs
      exact .refl _
  · cases hs
    exact .refl _

theorem eases_ttyWrite {tty : Nat} {cooked : Bool} {chars : List Char}
    (hs : k.ttyWrite tty cooked chars = .ok k') : Eases k k' := by
  obtain ⟨k₁, hk₁, hs⟩ := bind_eq_ok.1 hs
  cases hs
  exact (eases_foldlM eases_inputChar hk₁).trans (eases_wakeAll k₁ _)

theorem Suspended.tryDeliveringSignal (h : Suspended k) (hb : ¬ k.Blocked k.current)
    (hs : k.tryDeliveringSignal = .ok k') : Suspended k' := by
  simp only [Kernel.tryDeliveringSignal] at hs
  split at hs
  next =>
    cases hs
    exact h.of_eases (eases_setMode hb)
  next signal action signals hpop =>
    have hpopped : Eases k (k.modify k.current fun p => { p with signals := signals }) :=
      eases_modify fun hb => ⟨hb, rfl⟩
    cases action with
    | ignore =>
      cases hs
      exact h.returning hb hpopped .user
    | terminate => exact (h.of_eases hpopped).exit hs
    | handler =>
      cases hs
      exact h.returning hb (hpopped.trans (eases_modify fun hb => ⟨hb, rfl⟩)) .user

/-- **System calls** by a process that is not blocked. -/
theorem Suspended.dispatch {call : Syscall} (h : Suspended k) (hb : ¬ k.Blocked k.current)
    (hs : k.dispatch call = .ok k') : Suspended k' := by
  cases call with
  | fork memory =>
    obtain ⟨⟨r, k₁⟩, hk₁, hs⟩ := bind_eq_ok.1 hs
    cases hs
    exact h.returning hb (eases_fork hk₁) _
  | exit status => exact h.exit hs
  | wait4 pid nohang => exact h.sysWait4 hs
  | setpgid pid pgid =>
    obtain ⟨⟨r, k₁⟩, hk₁, hs⟩ := bind_eq_ok.1 hs
    cases hs
    exact h.returning hb (eases_of_minor (minor_sysSetpgid hk₁)) _
  | tiocspgrp tty pgid =>
    cases hs
    exact h.returning hb (eases_of_minor minor_setForegroundProcessGroup) _
  | rtSigaction signum act =>
    obtain ⟨⟨r, k₁⟩, hk₁, hs⟩ := bind_eq_ok.1 hs
    cases hs
    exact h.returning hb (eases_of_minor (minor_sysRtSigaction hk₁)) _
  | rtSigreturn =>
    rcases ite_eq_ok.1 hs with ⟨-, hs⟩ | ⟨-, hs⟩
    · cases hs
      exact h.returning hb (eases_modify fun hb => ⟨hb, rfl⟩) _
    · exact h.exit hs
  | execve =>
    cases hs
    exact h.returning hb (eases_modify fun hb => ⟨hb, rfl⟩) _
  | sleep queue check => exact h.sysSleep hs
  | wake queue =>
    cases hs
    exact h.returning hb (eases_wakeAll k _) _
  | ttyWrite tty cooked chars =>
    obtain ⟨k₁, hk₁, hs⟩ := bind_eq_ok.1 hs
    cases hs
    exact h.returning hb (eases_ttyWrite hk₁) _

/-! ## Whole runs -/

/-- Only a process in the loop is blocked. -/
theorem Suspended.not_blocked (h : Suspended k)
    (hmode : ∀ sleep, (k.process a).mode ≠ .sleeping sleep) : ¬ k.Blocked a := by
  intro hb
  obtain ⟨sleep, hm, -⟩ := h a hb
  exact hmode sleep hm

theorem Suspended.perform {mode : Mode} {action : Action} (h : Suspended k)
    (hmode : (k.process k.current).mode = mode)
    (hs : k.perform mode action = some (.ok k')) : Suspended k' := by
  have hawake : (∀ sleep, mode ≠ .sleeping sleep) → ¬ k.Blocked k.current := fun hm =>
    h.not_blocked fun sleep => hmode ▸ hm sleep
  unfold Kernel.perform at hs
  split at hs
  next call =>
    split_ifs at hs
    exact h.dispatch (hawake nofun) (Option.some.inj hs)
  next =>
    split_ifs at hs
    exact h.exit (Option.some.inj hs)
  next => exact h.switch (Option.some.inj hs)
  next queue =>
    cases hs
    exact h.of_eases (eases_wakeAll k _)
  next tty cooked chars => exact h.of_eases (eases_ttyWrite (Option.some.inj hs))
  next pid nohang check => exact h.sysWait4 (Option.some.inj hs)
  next queue check => exact h.sysSleep (Option.some.inj hs)
  next => exact h.tryDeliveringSignal (hawake nofun) (Option.some.inj hs)
  next => cases hs

theorem Suspended.step {turn : Turn} (h : Suspended k)
    (hs : interleaving.step k turn = some k') : Suspended k' := by
  cases turn with
  | act action =>
    simp only [interleaving, machine] at hs
    split at hs
    next k₁ hk₁ =>
      cases hs
      exact (h.perform rfl hk₁).congr rfl rfl
    next => cases hs
  | wakeAll queue =>
    cases hs
    exact h.of_eases (eases_wakeAll k queue)
  | signal a signal =>
    cases hs
    exact h.of_eases (eases_sendSignal k a signal)

theorem suspended_boot : Suspended boot := by
  intro a ha
  have hstate : (boot.process a).state = if a < 2 then .runnable else .exitedWith 0 := rfl
  rw [Blocked, hstate] at ha
  split at ha <;> cases ha

theorem Suspended.sleepersSafe (h : Suspended k) : SleepersSafe k where
  blocked := by
    intro a ha
    obtain ⟨sleep, hmode, hmem⟩ := h a ha
    have hwaiting := mem_waiting.2 hmem
    obtain ⟨hrunnable, hqueue⟩ := foldl_resume_of_mem k hwaiting
    exact ⟨sleep, hmode, hwaiting, hrunnable, hqueue (by rw [ha]; decide)⟩
  returns := by
    intro α sleep check k' r hs
    obtain rfl := (h.sleepSignalableUntil hs).2 rfl
    exact leave_frame k sleep

/-- **No sleeper is lost**, in every state that any interleaving of system
calls, interrupts, wake-ups and signals leads to. -/
theorem sleepersSafe_of_reach (h : interleaving.Reach boot k) : SleepersSafe k :=
  (h.invariant suspended_boot fun hk _ hs => hk.step hs).sleepersSafe

/-- The first process waits on a pipe. -/
theorem sleepersSafe_of_pipe : ∃ k, interleaving.Reach boot k ∧
      ((k.process 1).state = .blockedSignalable ∧ k.waiting (.event .pipe) = [1]) ∧
      SleepersSafe k := by
  obtain ⟨k, hk, ht⟩ : ∃ k, interleaving.Reach boot k ∧
      (k.process 1).state = .blockedSignalable ∧ k.waiting (.event .pipe) = [1] :=
    Machine.exists_reachUnder [.act .preempt, .act (.syscall (.sleep .pipe .notYet))]
      (by decide +kernel)
  exact ⟨k, hk, ht, sleepersSafe_of_reach hk⟩

end Archives.Kerla.Kernel
