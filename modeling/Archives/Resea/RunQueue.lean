import Archives.Common.Machine
import Archives.Common.Ring
/-!
# Resea — the links of the run queue

`thread_resume`, `thread_block`, `thread_switch` of `kernel/thread.c` and
the switch of `sys_ipc_fastpath`, on one processor, with the list of
`list.h` they work on. The queue is `Ring`, and its elements are the
runnable threads but the current one. A thread that is not runnable can
be the current one: the idle thread, and a thread between `thread_block`
and the switch that has to follow.
-/

namespace Archives.Resea.RunQueue

open Function

abbrev ThId := Nat

/-- What has links: the list itself, or the `runqueue_next` of a thread. -/
abbrev Node := Option ThId

structure Scheduler where
  runqueue : Links Node
  blocked : ThId → Bool
  current : ThId
  idle : ThId

inductive Op
  | threadResume (thread : ThId)
  | threadBlock (thread : ThId)
  | threadSwitch
  /-- The end of `sys_ipc_fastpath`. -/
  | fastpath (receiver : ThId)

namespace Scheduler

/-- After `thread_init`, in the first switch. -/
def boot (links : Links Node) (idle : ThId) : Scheduler where
  runqueue := links.init none
  blocked := fun _ => true
  current := idle
  idle := idle

variable (s : Scheduler)

def threadResume (thread : ThId) : Scheduler :=
  if s.blocked thread then
    { s with
      blocked := update s.blocked thread false
      runqueue := s.runqueue.pushBack none (some thread) }
  else s

def threadBlock (thread : ThId) : Scheduler :=
  { s with blocked := update s.blocked thread true }

/-- The first statement of `scheduler`. -/
def requeue : Links Node :=
  if s.blocked s.current then s.runqueue else s.runqueue.pushBack none (some s.current)

/-- `thread_switch`, with `scheduler`. -/
def threadSwitch : Scheduler :=
  match s.requeue.popFront none with
  | none => { s with runqueue := s.requeue, current := s.idle }
  | some (next, links) => { s with runqueue := links, current := next.getD s.idle }

/-- The switch of `sys_ipc_fastpath`, which passes by the queue. -/
def fastpath (receiver : ThId) : Scheduler :=
  { s with
    blocked := update (update s.blocked s.current true) receiver false
    current := receiver }

end Scheduler

def machine : Machine Scheduler Op where
  step s
    | .threadResume thread => some (s.threadResume thread)
    | .threadBlock thread => some (s.threadBlock thread)
    | .threadSwitch => some s.threadSwitch
    | .fastpath receiver => some (s.fastpath receiver)

variable (s : Scheduler)

/-- **Queued or current exactly when runnable**, on a well-formed list. -/
def Exact : Prop :=
  ∃ queue : List ThId, s.runqueue.Ring none (queue.map some) ∧
    ∀ t, t ∈ queue ∨ t = s.current ↔ s.blocked t = false

/-- The queue holds the threads that are runnable but not current, once
each, in a well-formed list. -/
def Queued (queue : List ThId) : Prop :=
  s.runqueue.Ring none (queue.map some) ∧ ∀ t, t ∈ queue ↔ s.blocked t = false ∧ t ≠ s.current

/-- The current thread is runnable, or the idle thread. -/
def Switched : Prop := s.blocked s.current = false ∨ s.current = s.idle

/-- **How the operations are used**: a thread blocks itself, and then is
not resumed before it is switched away; a message is handed to a thread
that waits for it. -/
def Orderly : Op → Prop
  | .threadResume thread => thread = s.current → s.blocked thread = false
  | .threadBlock thread => thread = s.current
  | .threadSwitch => True
  | .fastpath receiver => s.blocked receiver = true ∧ receiver ≠ s.current

variable {s : Scheduler} {queue : List ThId} {t : ThId} (h : Queued s queue)
include h

theorem Queued.threadResume (hok : Orderly s (.threadResume t)) :
    ∃ queue', Queued (s.threadResume t) queue' := by
  unfold Scheduler.threadResume
  split
  next hblocked =>
    have hnot : t ∉ queue := by simp [h.2 t, hblocked]
    refine ⟨queue ++ [t], h.1.pushBack_some hnot, fun x => ?_⟩
    have hne : t ≠ s.current := fun heq => by simp [hok heq] at hblocked
    by_cases hx : x = t
    · simp [hx, hne]
    · simp [hx, h.2 x]
  next => exact ⟨queue, h⟩

theorem Queued.threadBlock : Queued (s.threadBlock s.current) queue := by
  refine ⟨h.1, fun x => ?_⟩
  by_cases hx : x = s.current
  · simp [Scheduler.threadBlock, hx, h.2 s.current]
  · simp [Scheduler.threadBlock, hx, h.2 x]

/-- Once the current thread is put back, all runnable threads are queued. -/
theorem Queued.requeue :
    ∃ all : List ThId, s.requeue.Ring none (all.map some) ∧ ∀ x, x ∈ all ↔ s.blocked x = false := by
  unfold Scheduler.requeue
  split
  next hblocked =>
    refine ⟨queue, h.1, fun x => ?_⟩
    rw [h.2 x]
    exact and_iff_left_of_imp fun hx heq => by simp [heq, hblocked] at hx
  next hrunnable =>
    have hnot : s.current ∉ queue := fun hmem => ((h.2 _).mp hmem).2 rfl
    refine ⟨queue ++ [s.current], h.1.pushBack_some hnot, fun x => ?_⟩
    by_cases hx : x = s.current
    · simpa [hx] using hrunnable
    · simp [hx, h.2 x]

/-- **A switch takes the first of all runnable threads.** -/
theorem Queued.threadSwitch :
    (∃ queue', Queued s.threadSwitch queue') ∧ Switched s.threadSwitch := by
  obtain ⟨all, hring, hall⟩ := h.requeue
  unfold Scheduler.threadSwitch
  cases all with
  | nil =>
    rw [hring.popFront_nil]
    refine ⟨⟨[], hring, fun x => ?_⟩, .inr rfl⟩
    have hx := hall x
    exact ⟨fun hmem => absurd hmem List.not_mem_nil, fun hrun => hx.mpr hrun.1⟩
  | cons x xs =>
    obtain ⟨links, hpop, hlinks⟩ := hring.popFront
    rw [hpop]
    have hnot : x ∉ xs := by
      have hnodup := hring.nodup
      simp_all
    refine ⟨⟨xs, hlinks, fun y => ?_⟩, .inl ((hall x).mp List.mem_cons_self)⟩
    have hy := hall y
    by_cases hyx : y = x
    · simp [hyx, hnot]
    · simp [hyx, ← hy]

omit h

theorem Queued.fastpath {r : ThId} (h : Queued s queue) (hok : Orderly s (.fastpath r)) :
    Queued (s.fastpath r) queue := by
  obtain ⟨hblocked, hne⟩ := hok
  refine ⟨h.1, fun x => ?_⟩
  show x ∈ queue ↔ update (update s.blocked s.current true) r false x = false ∧ x ≠ r
  rw [h.2 x]
  by_cases hr : x = r
  · simp [hr, hblocked]
  · by_cases hc : x = s.current
    · simp [hc, Ne.symm hne]
    · simp [hr, hc]

/-- **What is done in order keeps the queue.** -/
theorem Queued.step {s' : Scheduler} {op : Op} (h : Queued s queue) (hok : Orderly s op)
    (hs : machine.step s op = some s') : ∃ queue', Queued s' queue' := by
  cases op with
  | threadResume thread =>
    cases hs
    exact h.threadResume hok
  | threadBlock thread =>
    cases hs
    obtain rfl : thread = s.current := hok
    exact ⟨queue, h.threadBlock⟩
  | threadSwitch =>
    cases hs
    exact h.threadSwitch.1
  | fastpath receiver =>
    cases hs
    exact ⟨queue, h.fastpath hok⟩

/-- **In every orderly run** the run queue is a well-formed list of the
runnable threads but the current one, each of them once, and a switch
leads to a runnable thread or the idle thread. -/
theorem sound_of_orderly {links : Links Node} {idle : ThId}
    (h : machine.ReachUnder Orderly (.boot links idle) s) :
    (∃ queue, Queued s queue) ∧ Switched s.threadSwitch := by
  have hboot : Queued (.boot links idle) [] :=
    ⟨Links.ring_init links none, fun t => by simp [Scheduler.boot]⟩
  obtain ⟨queue, hqueue⟩ := h.invariant (I := fun s => ∃ queue, Queued s queue) ⟨[], hboot⟩
    fun ⟨_, hx⟩ hok hs => hx.step hok hs
  exact ⟨⟨queue, hqueue⟩, hqueue.threadSwitch.2⟩

/-- A kernel with the idle thread 0, all links null. -/
def start : Scheduler := .boot ⟨fun _ => none, fun _ => none⟩ 0

instance (s : Scheduler) (op : Op) : Decidable (Orderly s op) := by
  cases op <;> unfold Orderly <;> infer_instance

/-- Two threads take turns, and hand a message over. -/
theorem sound_of_two_threads : ∃ s, machine.ReachUnder Orderly start s ∧ s.current = 2 ∧
    ∃ queue, Queued s queue := by
  obtain ⟨s, hs, hcurrent⟩ : ∃ s, machine.ReachUnder Orderly start s ∧ s.current = 2 :=
    Machine.exists_reachUnder [.threadResume 1, .threadSwitch, .threadBlock 1, .threadResume 2,
      .threadSwitch, .fastpath 1, .fastpath 2] (by decide +kernel)
  exact ⟨s, hs, hcurrent, (sound_of_orderly hs).1⟩

/-- **The idle thread runs without being runnable, and so does a thread
that has blocked itself; one that is resumed then is queued twice, and
the list no longer leads back to its head.** -/
theorem not_exact_of_block : ¬ Exact start ∧
    (∃ s ∈ machine.run start [.threadResume 1, .threadSwitch, .threadBlock 1], ¬ Exact s) ∧
    ∃ s ∈ machine.run start
      [.threadResume 1, .threadSwitch, .threadBlock 1, .threadResume 1, .threadSwitch],
      ∀ queue, ¬ s.runqueue.Ring none queue := by
  refine ⟨fun ⟨queue, _, hall⟩ => ?_, ⟨_, rfl, fun ⟨queue, _, hall⟩ => ?_⟩, ⟨_, rfl, ?_⟩⟩
  · exact absurd ((hall 0).mp (.inr rfl)) (by decide)
  · exact absurd ((hall 1).mp (.inr rfl)) (by decide)
  · rintro queue ⟨hlinked, hnodup⟩
    rcases queue with _ | ⟨a, _ | ⟨b, queue⟩⟩
    · exact absurd hlinked.1 (by decide)
    · obtain ⟨⟨rfl, -⟩, hback, -⟩ := hlinked
      exact absurd hback (by decide)
    · obtain ⟨⟨ha, -⟩, ⟨hb, -⟩, -⟩ := hlinked
      obtain rfl : a = some 1 := ha.symm
      obtain rfl : b = some 1 := hb.symm
      exact absurd hnodup (by simp)

end Archives.Resea.RunQueue
