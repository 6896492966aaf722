import Archives.Common.Machine
import Archives.Ftl.Basic
/-!
# FTL — the ready queue of a poll

A poll keeps, for each registered handle, the events that were not
reported yet, and a queue of the ids that have some. `Poll::remove`
takes the handle out of the table and leaves its id in the queue. That
does no harm while the id stays unregistered: `do_try_wait` skips it. But
when the id is registered again before, the old entry counts for the new
handle, and `try_wait` reports an event with no readiness.

`inQueue_iff_addsFresh` says that nothing else goes wrong: a step keeps
the queue exact precisely if it does not register an id that is still
queued.
-/

namespace Archives.Ftl.Kernel

open List Option Call BitVec Std.ExtTreeMap

/-! ## The operations and what they owe -/

/-- What happens to polls and emitters. -/
inductive PollAction
  | add (p : Addr) (id : HandleId) (handle : AnyHandle) (interests : Readiness)
  | update (p : Addr) (id : HandleId) (orMask andMask : Readiness)
  | remove (p : Addr) (id : HandleId)
  | set (e : Addr) (mask : Readiness)
  | clear (e : Addr) (mask : Readiness)
  | tryWait (p : Addr)

/-- Where a call leaves the kernel, unless it stops it. -/
def after {α : Type} (m : Sys α) (k : Kernel) : Option Kernel :=
  match m.run k with
  | .ok (_, k) => some k
  | .error _ => none

/-- **The machine** of all polls and emitters. -/
def polling : Machine Kernel PollAction where
  step
    | k, .add p id handle interests => after (pollAdd p id handle interests) k
    | k, .update p id orMask andMask => after (pollUpdate p id orMask andMask) k
    | k, .remove p id => after (pollRemove p id) k
    | k, .set e mask => some (k.emitterSet e mask)
    | k, .clear e mask => some (k.emitterClear e mask)
    | k, .tryWait p => some (k.tryWait p).2

/-- **The queue is exact**: a registered id is queued once if it has
events to report, and not at all otherwise. -/
def InQueue (poll : Poll) : Prop :=
  ∀ (id : HandleId) (object : PollObject), poll.objects[id]? = some object →
    poll.readyQueue.count id = if object.ready = 0 then 0 else 1

/-- **What `try_wait` owes its caller.** -/
structure WaitCorrect (k : Kernel) (p : Addr) : Prop where
  /-- No event without readiness is reported. -/
  nonempty : ∀ ev, (k.tryWait p).1 = some ev → ev.readiness ≠ 0
  /-- Something is reported if some id has events. -/
  reports : ∀ (id : HandleId) (object : PollObject), (k.polls p).objects[id]? = some object →
    object.ready ≠ 0 → (k.tryWait p).1 ≠ none
  /-- The events of an id are reported, all of them, or kept. -/
  remembers : ∀ (id : HandleId) (object : PollObject), (k.polls p).objects[id]? = some object →
    (k.tryWait p).1 = some { handleId := id, readiness := object.ready } ∨
      ∃ object', ((k.tryWait p).2.polls p).objects[id]? = some object' ∧
        object'.ready &&& object.ready = object.ready

/-- **No id is registered while it is queued**: `Poll::add` refuses the
handle, or the id is not left in the queue of the poll. -/
def AddsFresh (p : Addr) (k : Kernel) : PollAction → Prop
  | .add q id handle _ => q = p → handle.object.emitter = none ∨
      (k.polls p).objects.contains id = true ∨ id ∉ (k.polls p).readyQueue
  | _ => True

instance (p : Addr) (k : Kernel) (a : PollAction) : Decidable (AddsFresh p k a) := by
  cases a <;> unfold AddsFresh <;> infer_instance

/-! ## Notifications -/

variable {k k' : Kernel} {p q : Addr} {id : HandleId} {object : PollObject} {poll : Poll}
  {events : Readiness} {skipped rest : List HandleId} {handle : AnyHandle}

/-- What a poll is registered for and has not reported yet is still there
in the second state; what was added to it, too. -/
def Remembers (poll poll' : Poll) : Prop :=
  ∀ (id : HandleId) (object : PollObject), poll.objects[id]? = some object →
    ∃ object', poll'.objects[id]? = some object' ∧ object'.ready &&& object.ready = object.ready

/-- **Notifications of a poll**: they forget nothing and keep the queue
exact. -/
structure Keeps (poll poll' : Poll) : Prop where
  remembers : Remembers poll poll'
  inQueue : InQueue poll → InQueue poll'

theorem Keeps.refl (poll : Poll) : Keeps poll poll where
  remembers := fun _ object h => ⟨object, h, and_self⟩
  inQueue := id

theorem and_trans {a b c : Readiness} (hab : b &&& a = a) (hbc : c &&& b = b) : c &&& a = a := by
  rw [← hab, ← BitVec.and_assoc, hbc]

theorem or_and_left (a b : Readiness) : (a ||| b) &&& a = a := by
  grind

theorem Keeps.trans {p₁ p₂ p₃ : Poll} (h₁ : Keeps p₁ p₂) (h₂ : Keeps p₂ p₃) : Keeps p₁ p₃ where
  remembers := by
    intro id object h
    obtain ⟨o₂, ho₂, hr₂⟩ := h₁.remembers id object h
    obtain ⟨o₃, ho₃, hr₃⟩ := h₂.remembers id o₂ ho₂
    exact ⟨o₃, ho₃, and_trans hr₂ hr₃⟩
  inQueue := fun h => h₂.inQueue (h₁.inQueue h)

/-- What is under an id after a notification. -/
theorem getElem?_notified (id' : HandleId) : (notified poll id object events).objects[id']? =
      if id = id' then some { object with ready := object.ready ||| events }
      else poll.objects[id']? := by
  rw [notified, Std.ExtTreeMap.getElem?_insert]
  simp

theorem keeps_notified (hobj : poll.objects[id]? = some object) (he : events ≠ 0) :
    Keeps poll (notified poll id object events) where
  remembers := by
    intro id' object' h
    rw [getElem?_notified]
    split
    next heq =>
      subst heq
      cases hobj.symm.trans h
      exact ⟨_, rfl, or_and_left _ _⟩
    next => exact ⟨object', h, and_self⟩
  inQueue := by
    intro hq id' object' h
    rw [getElem?_notified] at h
    have hold := hq id object hobj
    split at h
    next heq =>
      subst heq
      cases h
      have hne : object.ready ||| events ≠ 0 := fun h => he (or_eq_zero_iff.1 h).2
      simp only [hne, if_false]
      by_cases hz : object.ready = 0
      · rw [if_pos hz] at hold
        simp only [notified, hz, if_true, count_append, hold, count_singleton_self]
      · rw [if_neg hz] at hold
        simp only [notified, hz, if_false, hold]
    next hne =>
      rw [← hq id' object' h, notified]
      split
      · rw [count_append, count_singleton]
        simp [hne]
      · rfl

theorem polls_notify (events : Readiness) (hobj : (k.polls q).objects[id]? = some object) :
    (k.notify q id events).polls = (k.setPoll q (notified (k.polls q) id object events)).polls := by
  simp only [notify, hobj]
  split <;> rfl

theorem keeps_notify (k : Kernel) (q : Addr) (id : HandleId) (he : events ≠ 0) (p : Addr) :
    Keeps (k.polls p) ((k.notify q id events).polls p) := by
  rcases hobj : (k.polls q).objects[id]? with _ | object
  · simp only [notify, hobj]
    exact .refl _
  · rw [polls_notify events hobj]
    by_cases hpq : p = q
    · subst hpq
      rw [polls_setPoll_self]
      exact keeps_notified hobj he
    · rw [polls_setPoll_of_ne _ _ hpq]
      exact .refl _

theorem emits_keeps (p : Addr) :
    Emits (fun _ => True) fun k k' => Keeps (k.polls p) (k'.polls p) where
  refl _ := .refl _
  trans := .trans
  and _ := id
  setEmitter _ := .refl _
  notify he _ := keeps_notify _ _ _ he p

/-! ## Waiting -/

/-- **The loop of `do_try_wait`** skips ids that are not registered. -/
theorem popReady_cases (objects : Std.ExtTreeMap HandleId PollObject) (queue : List HandleId) :
    (popReady objects queue = (none, []) ∧ ∀ id ∈ queue, objects[id]? = none) ∨
      ∃ skipped id object rest, popReady objects queue = (some (id, object), rest) ∧
        queue = skipped ++ id :: rest ∧ (∀ x ∈ skipped, objects[x]? = none) ∧
        objects[id]? = some object := by
  induction queue with
  | nil => exact .inl ⟨rfl, nofun⟩
  | cons id queue ih =>
    rcases hid : objects[id]? with _ | object
    · simp only [popReady, hid]
      refine ih.imp (fun ⟨h, hall⟩ => ⟨h, forall_mem_cons.2 ⟨hid, hall⟩⟩) ?_
      rintro ⟨skipped, id', object, rest, h, rfl, hskipped, hobj⟩
      exact ⟨id :: skipped, id', object, rest, h, rfl, forall_mem_cons.2 ⟨hid, hskipped⟩, hobj⟩
    · exact .inr ⟨[], id, object, queue, by simp only [popReady, hid], rfl, nofun, hid⟩

/-- A registered id counts as often in what is left, one less for the id
that was taken out. -/
theorem count_popped {objects : Std.ExtTreeMap HandleId PollObject}
    (hskipped : ∀ x ∈ skipped, objects[x]? = none) {x : HandleId} {object : PollObject}
    (hx : objects[x]? = some object) :
    (skipped ++ id :: rest).count x = rest.count x + if id = x then 1 else 0 := by
  have hnone : skipped.count x = 0 := by
    rw [count_eq_zero]
    intro hmem
    cases (hskipped x hmem).symm.trans hx
  rw [count_append, count_cons, hnone, Nat.zero_add]
  simp

/-- A poll that has reported the events of an id. -/
def reported (poll : Poll) (id : HandleId) (object : PollObject) (rest : List HandleId) : Poll :=
  { poll with objects := poll.objects.insert id { object with ready := 0 }, readyQueue := rest }

theorem getElem?_reported (id' : HandleId) : (reported poll id object rest).objects[id']? =
      if id = id' then some { object with ready := 0 } else poll.objects[id']? := by
  rw [reported, Std.ExtTreeMap.getElem?_insert]
  simp

/-- **What `try_wait` does**: it empties a queue with nothing to report,
or reports the first registered id in it. -/
theorem tryWait_cases (k : Kernel) (p : Addr) :
    ((k.tryWait p).1 = none ∧ (∀ id ∈ (k.polls p).readyQueue, (k.polls p).objects[id]? = none) ∧
        (k.tryWait p).2 = k.setPoll p { k.polls p with readyQueue := [] }) ∨
      ∃ skipped id object rest, (k.polls p).readyQueue = skipped ++ id :: rest ∧
        (∀ x ∈ skipped, (k.polls p).objects[x]? = none) ∧
        (k.polls p).objects[id]? = some object ∧
        (k.tryWait p).1 = some { handleId := id, readiness := object.ready } ∧
        (k.tryWait p).2 =
          (k.setPoll p (reported (k.polls p) id object rest)).clearEdge object.handle.object
            object.ready := by
  rcases popReady_cases (k.polls p).objects (k.polls p).readyQueue with
    ⟨h, hnone⟩ | ⟨skipped, id, object, rest, h, hq, hskipped, hobj⟩
  · refine .inl ⟨?_, hnone, ?_⟩ <;> simp only [tryWait, h]
  · refine .inr ⟨skipped, id, object, rest, hq, hskipped, hobj, ?_, ?_⟩
    · simp only [tryWait, h]
    · simp only [tryWait, h, reported]

/-- The first registered id in an exact queue has events, and is not
queued again. -/
theorem InQueue.first (h : InQueue poll) (hq : poll.readyQueue = skipped ++ id :: rest)
    (hskipped : ∀ x ∈ skipped, poll.objects[x]? = none) (hobj : poll.objects[id]? = some object) :
    object.ready ≠ 0 ∧ rest.count id = 0 := by
  have hcount := h id object hobj
  rw [hq, count_popped hskipped hobj, if_pos rfl] at hcount
  split at hcount
  next => omega
  next hne => exact ⟨hne, by omega⟩

theorem InQueue.reported (h : InQueue poll) (hq : poll.readyQueue = skipped ++ id :: rest)
    (hskipped : ∀ x ∈ skipped, poll.objects[x]? = none) (hobj : poll.objects[id]? = some object) :
    InQueue (reported poll id object rest) := by
  intro x object' hx
  rw [getElem?_reported] at hx
  split at hx
  next heq =>
    subst heq
    cases hx
    exact (h.first hq hskipped hobj).2
  next hne =>
    have hcount := h x object' hx
    rw [hq, count_popped hskipped hx, if_neg hne, Nat.add_zero] at hcount
    exact hcount

theorem InQueue.tryWait (h : InQueue (k.polls p)) (q : Addr) :
    InQueue ((k.tryWait q).2.polls p) := by
  rcases tryWait_cases k q with ⟨-, hnone, hk⟩ | ⟨skipped, id, object, rest, hq, hskip, hobj, -, hk⟩
  · rw [hk]
    by_cases hpq : p = q
    · subst hpq
      rw [polls_setPoll_self]
      intro id object hobj
      -- nothing registered was in the queue, so nothing has events
      have hcount := h id object hobj
      rw [count_eq_zero.2 fun hmem => nomatch (hnone id hmem).symm.trans hobj] at hcount
      exact hcount
    · rwa [polls_setPoll_of_ne _ _ hpq]
  · rw [hk]
    refine ((emits_keeps p).clearEdge _).inQueue ?_
    by_cases hpq : p = q
    · subst hpq
      rw [polls_setPoll_self]
      exact h.reported hq hskip hobj
    · rwa [polls_setPoll_of_ne _ _ hpq]

/-- **With an exact queue `try_wait` does its job.** -/
theorem InQueue.waitCorrect (h : InQueue (k.polls p)) : WaitCorrect k p := by
  rcases tryWait_cases k p with ⟨hev, hnone, hk⟩ |
    ⟨skipped, id, object, rest, hq, hskip, hobj, hev, hk⟩
  · have hidle : ∀ (id : HandleId) (object : PollObject),
        (k.polls p).objects[id]? = some object → object.ready = 0 := by
      intro id object hobj
      have hcount := h id object hobj
      rw [count_eq_zero.2 fun hmem => nomatch (hnone id hmem).symm.trans hobj] at hcount
      by_contra hne
      rw [if_neg hne] at hcount
      cases hcount
    refine ⟨fun ev h => ?_, fun id object hobj hne => ?_, fun id object hobj => .inr ?_⟩
    · cases hev.symm.trans h
    · exact absurd (hidle id object hobj) hne
    · rw [hk, polls_setPoll_self]
      exact ⟨object, hobj, and_self⟩
  · refine ⟨fun ev h' => ?_, fun _ _ _ _ h' => ?_, fun x object' hx => ?_⟩
    · cases hev.symm.trans h'
      exact (h.first hq hskip hobj).1
    · cases hev.symm.trans h'
    · by_cases hidx : id = x
      · subst hidx
        cases hobj.symm.trans hx
        exact .inl hev
      · refine .inr ?_
        rw [hk]
        refine ((emits_keeps p).clearEdge _).remembers x object' ?_
        rw [polls_setPoll_self, getElem?_reported, if_neg hidx, hx]

/-! ## Registering and removing -/

variable {r : Except ErrorCode Unit}

theorem after_eq_some {m : Sys Unit} (h : after m k = some k') : ∃ r, m.run k = .ok (r, k') := by
  simp only [after] at h
  split at h
  next r _ hrun => exact ⟨r, Option.some.inj h ▸ hrun⟩
  next => cases h

/-- A poll with a handle registered under a new id. -/
def registered (poll : Poll) (id : HandleId) (handle : AnyHandle) : Poll :=
  { poll with objects := poll.objects.insert id { handle := handle, ready := 0 } }

theorem getElem?_registered (id' : HandleId) : (registered poll id handle).objects[id']? =
      if id = id' then some { handle := handle, ready := 0 } else poll.objects[id']? := by
  rw [registered, Std.ExtTreeMap.getElem?_insert]
  simp

/-- **`Poll::add` refuses the handle, or registers it and tells the poll
what holds already.** -/
theorem pollAdd_cases {interests : Readiness}
    (h : (pollAdd q id handle interests).run k = .ok (r, k')) : (r ≠ .ok () ∧ k' = k ∧
        (handle.object.emitter = none ∨ (k.polls q).objects.contains id = true)) ∨
      r = .ok () ∧ ∃ e, handle.object.emitter = some e ∧ (k.polls q).objects.contains id = false ∧
        k' = (k.setPoll q (registered (k.polls q) id handle)).addListener e
          { poll := q, handleId := id, interests := interests } := by
  rcases he : handle.object.emitter with _ | e
  · simp only [pollAdd, run_bind, run_state, he, run_fail] at h
    cases h
    exact .inl ⟨nofun, rfl, .inl rfl⟩
  · by_cases hc : (k.polls q).objects.contains id = true
    · simp only [pollAdd, run_bind, run_state, he, hc, if_true, run_fail] at h
      cases h
      exact .inl ⟨nofun, rfl, .inr hc⟩
    · simp only [pollAdd, run_bind, run_state, he, hc, Bool.false_eq_true, if_false,
        run_update] at h
      cases h
      exact .inr ⟨rfl, e, rfl, Bool.not_eq_true _ ▸ hc, rfl⟩

/-- The poll after a registration. -/
theorem polls_addListener (k : Kernel) (e : Addr) (l : Listener) :
    (k.addListener e l).polls = (notifyListener (k.emitters e).latest k l).polls := rfl

/-- **A registration keeps the queue exact just if the id is not in it.** -/
theorem inQueue_registered_iff (h : InQueue (k.polls p)) (e : Addr) (interests : Readiness) :
    InQueue (((k.setPoll p (registered (k.polls p) id handle)).addListener e
      { poll := p, handleId := id, interests := interests }).polls p) ↔
      id ∉ (k.polls p).readyQueue := by
  set k₁ := k.setPoll p (registered (k.polls p) id handle) with hk₁
  have hpoll : k₁.polls p = registered (k.polls p) id handle := polls_setPoll_self _ _ _
  have hid : (k₁.polls p).objects[id]? = some { handle := handle, ready := 0 } := by
    rw [hpoll, getElem?_registered, if_pos rfl]
  rw [polls_addListener]
  constructor
  · -- a leftover entry is one too many, whether the new handle is queued or not
    intro hq hmem
    have hpos : 0 < (k.polls p).readyQueue.count id := count_pos_iff.2 hmem
    simp only [notifyListener] at hq
    split at hq
    next =>
      have hcount := hq id _ hid
      rw [if_pos rfl, hpoll] at hcount
      exact absurd hcount (Nat.ne_of_gt hpos)
    next he =>
      rw [polls_notify _ hid, polls_setPoll_self] at hq
      have hcount := hq id _ (by rw [getElem?_notified, if_pos rfl])
      simp only [notified, hpoll, registered, if_true, count_append, count_singleton_self] at hcount
      split at hcount <;> omega
  · intro hmem
    refine ((emits_keeps p).notifyListener _ fun _ => trivial).inQueue ?_
    rw [hpoll]
    intro x object hx
    rw [getElem?_registered] at hx
    split at hx
    next heq =>
      subst heq
      cases hx
      exact count_eq_zero.2 hmem
    next => exact h x object hx

theorem pollUpdate_cases {orMask andMask : Readiness}
    (h : (pollUpdate q id orMask andMask).run k = .ok (r, k')) :
    k' = k ∨ ∃ e, k' = k.updateListener e q orMask andMask := by
  rcases hobj : (k.polls q).objects[id]? with _ | object
  · simp only [pollUpdate, run_bind, run_state, hobj, run_fail] at h
    cases h
    exact .inl rfl
  · rcases he : object.handle.object.emitter with _ | e
    · simp only [pollUpdate, run_bind, run_state, hobj, he, run_stop, reduceCtorEq] at h
    · simp only [pollUpdate, run_bind, run_state, hobj, he, run_update] at h
      cases h
      exact .inr ⟨e, rfl⟩

theorem pollRemove_cases (h : (pollRemove q id).run k = .ok (r, k')) :
    (r ≠ .ok () ∧ k' = k) ∨ r = .ok () ∧ ∃ e, k' = (k.setPoll q
      { k.polls q with objects := (k.polls q).objects.erase id }).removeListener e q := by
  rcases hobj : (k.polls q).objects[id]? with _ | object
  · simp only [pollRemove, run_bind, run_state, hobj, run_fail] at h
    cases h
    exact .inl ⟨nofun, rfl⟩
  · rcases he : object.handle.object.emitter with _ | e
    · simp only [pollRemove, run_bind, run_state, hobj, he, run_update, run_stop, reduceCtorEq] at h
    · simp only [pollRemove, run_bind, run_state, hobj, he, run_update] at h
      cases h
      exact .inr ⟨rfl, e, rfl⟩

/-- What stays registered is queued as before. -/
theorem InQueue.erase (h : InQueue poll) :
    InQueue { poll with objects := poll.objects.erase id } := by
  intro x object hx
  rw [getElem?_erase] at hx
  split at hx
  next => cases hx
  next => exact h x object hx

/-! ## Runs -/

/-- **A step keeps the queue exact just if it registers no id that is
still queued.** -/
theorem InQueue.step_iff (h : InQueue (k.polls p)) {a : PollAction}
    (hs : polling.step k a = some k') : InQueue (k'.polls p) ↔ AddsFresh p k a := by
  cases a with
  | add q id handle interests =>
    obtain ⟨r, hrun⟩ := after_eq_some hs
    rcases pollAdd_cases hrun with ⟨-, rfl, hrefused⟩ | ⟨-, e, he, hc, rfl⟩
    · exact iff_of_true h fun hqp => hqp ▸ hrefused.imp_right .inl
    · by_cases hqp : q = p
      · subst hqp
        rw [inQueue_registered_iff h]
        simp [AddsFresh, he, hc]
      · refine iff_of_true ?_ fun heq => absurd heq hqp
        refine ((emits_keeps p).notifyListener _ fun _ => trivial).inQueue ?_
        rwa [polls_setPoll_of_ne _ _ (.symm hqp)]
  | update q id orMask andMask =>
    refine iff_of_true ?_ trivial
    obtain ⟨r, hrun⟩ := after_eq_some hs
    rcases pollUpdate_cases hrun with rfl | ⟨e, rfl⟩
    · exact h
    · exact ((emits_keeps p).updateListener q _ _).inQueue h
  | remove q id =>
    refine iff_of_true ?_ trivial
    obtain ⟨r, hrun⟩ := after_eq_some hs
    rcases pollRemove_cases hrun with ⟨-, rfl⟩ | ⟨-, e, rfl⟩
    · exact h
    · show InQueue ((k.setPoll q _).polls p)
      by_cases hpq : p = q
      · subst hpq
        rw [polls_setPoll_self]
        exact h.erase
      · rwa [polls_setPoll_of_ne _ _ hpq]
  | set e mask =>
    cases hs
    exact iff_of_true (((emits_keeps p).emitterSet id).inQueue h) trivial
  | clear e mask =>
    cases hs
    exact iff_of_true ((emits_keeps p).emitterClear.inQueue h) trivial
  | tryWait q =>
    cases hs
    exact iff_of_true (h.tryWait q) trivial

theorem inQueue_new : InQueue .new := by
  intro id object h
  cases (getElem?_empty (a := id)).symm.trans h

/-- **When the ready queue is exact**: from a new poll on, in every run
that registers no id while it is queued, the queue is exact and
`try_wait` does its job; and a next step keeps the queue exact just if it
registers no such id either. -/
theorem inQueue_iff_addsFresh {k₀ : Kernel} (hnew : k₀.polls p = .new)
    (h : polling.ReachUnder (AddsFresh p) k₀ k) : (InQueue (k.polls p) ∧ WaitCorrect k p) ∧
      ∀ a k', polling.step k a = some k' → (InQueue (k'.polls p) ↔ AddsFresh p k a) := by
  have hk : InQueue (k.polls p) :=
    h.invariant (I := fun k => InQueue (k.polls p)) (hnew ▸ inQueue_new)
      fun hx hok hs => (hx.step_iff hs).2 hok
  exact ⟨⟨hk, hk.waitCorrect⟩, fun a k' hs => hk.step_iff hs⟩

/-- A handle of a channel at address 1. -/
def channelHandle : AnyHandle where
  object := .channel 1
  rights := HandleRight.all

/-- A channel is registered and gets readable. -/
theorem inQueue_of_one_event : ∃ k, polling.ReachUnder (AddsFresh 0) bare k ∧
      (k.tryWait 0).1 = some { handleId := 5, readiness := Readiness.readable } ∧
      InQueue (k.polls 0) ∧ WaitCorrect k 0 := by
  obtain ⟨k, hk, hev⟩ : ∃ k, polling.ReachUnder (AddsFresh 0) bare k ∧
      (k.tryWait 0).1 = some { handleId := 5, readiness := .readable } :=
    Machine.exists_reachUnder [.add 0 5 channelHandle .readable, .set 1 .readable]
      (by decide +kernel)
  exact ⟨k, hk, hev, (inQueue_iff_addsFresh rfl hk).1⟩

/-- **An id registered again.** A channel gets readable, is removed and
registered again under the same id. The second `try_wait` after that
reports an event with no readiness. -/
theorem not_inQueue_of_added_again :
    ∃ k, polling.Reach bare k ∧ (k.tryWait 0).1 = some { handleId := 5, readiness := 0 } ∧
      ¬ InQueue (k.polls 0) ∧ ¬ WaitCorrect k 0 := by
  obtain ⟨k, hk, hev⟩ : ∃ k, polling.Reach bare k ∧
      (k.tryWait 0).1 = some { handleId := 5, readiness := 0 } :=
    Machine.exists_reachUnder [.add 0 5 channelHandle .readable, .set 1 .readable, .remove 0 5,
      .add 0 5 channelHandle .readable, .tryWait 0] (by decide +kernel)
  have hwrong : ¬ WaitCorrect k 0 := fun h => h.nonempty _ hev rfl
  exact ⟨k, hk, hev, fun h => hwrong h.waitCorrect, hwrong⟩

end Archives.Ftl.Kernel
