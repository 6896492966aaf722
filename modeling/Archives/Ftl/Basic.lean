import Archives.Ftl.Model.Channel
/-!
# FTL — what notifications change

Every event of an emitter ends in `Poll::notify` calls. `Notifies` says
once what any number of them can do: they touch polls, emitters and the
run queue only, and a waiter that is taken out of a poll is in the run
queue afterwards.
-/

namespace Archives.Ftl.Kernel

open List

variable {k k' k'' : Kernel}

/-- A kernel in which nothing has happened yet. -/
def bare : Kernel where
  next := 0
  threads := fun _ => { process := 0, state := .runnable }
  processes := fun _ => .new
  polls := fun _ => .new
  channels := fun _ => .new
  emitters := fun _ => .new 0
  runqueue := []
  current := 0

/-! ## Reading what was written -/

@[simp] theorem polls_setPoll_self (k : Kernel) (p : Addr) (poll : Poll) :
    (k.setPoll p poll).polls p = poll := by
  simp [setPoll]

theorem polls_setPoll_of_ne (k : Kernel) {p q : Addr} (poll : Poll) (h : q ≠ p) :
    (k.setPoll p poll).polls q = k.polls q := by
  simp [setPoll, h]

@[simp] theorem threads_setState_self (k : Kernel) (t : Addr) (s : ThreadState) :
    (k.setState t s).threads t = { k.threads t with state := s } := by
  simp [setState]

theorem threads_setState_of_ne (k : Kernel) {t u : Addr} (s : ThreadState) (h : u ≠ t) :
    (k.setState t s).threads u = k.threads u := by
  simp [setState, h]

@[simp] theorem processes_setTable_self (k : Kernel) (p : Addr) (table : HandleTable) :
    (k.setTable p table).processes p = table := by
  simp [setTable]

@[simp] theorem setTable_self (k : Kernel) (p : Addr) : k.setTable p (k.processes p) = k := by
  simp [setTable]

@[simp] theorem setTable_setTable (k : Kernel) (p : Addr) (t₁ t₂ : HandleTable) :
    (k.setTable p t₁).setTable p t₂ = k.setTable p t₂ := by
  simp [setTable]

/-! ## Notifications -/

/-- **What notifications can do.** -/
structure Notifies (k k' : Kernel) : Prop where
  next : k'.next = k.next
  threads : k'.threads = k.threads
  processes : k'.processes = k.processes
  channels : k'.channels = k.channels
  current : k'.current = k.current
  runqueue : ∀ t ∈ k.runqueue, t ∈ k'.runqueue
  waiters : ∀ p, ∀ t ∈ (k.polls p).waiters, t ∈ (k'.polls p).waiters ∨ t ∈ k'.runqueue

namespace Notifies

theorem refl (k : Kernel) : Notifies k k :=
  ⟨rfl, rfl, rfl, rfl, rfl, fun _ h => h, fun _ _ h => .inl h⟩

theorem trans (h₁ : Notifies k k') (h₂ : Notifies k' k'') : Notifies k k'' where
  next := h₂.next.trans h₁.next
  threads := h₂.threads.trans h₁.threads
  processes := h₂.processes.trans h₁.processes
  channels := h₂.channels.trans h₁.channels
  current := h₂.current.trans h₁.current
  runqueue := fun t h => h₂.runqueue t (h₁.runqueue t h)
  waiters := fun p t h => (h₁.waiters p t h).elim (h₂.waiters p t)
    fun h => .inr (h₂.runqueue t h)

end Notifies

/-- Writing an emitter is not seen by threads or polls. -/
theorem notifies_setEmitter (k : Kernel) (e : Addr) (em : Emitter) :
    Notifies k (k.setEmitter e em) :=
  ⟨rfl, rfl, rfl, rfl, rfl, fun _ h => h, fun _ _ h => .inl h⟩

/-- A poll may be written as long as it keeps its waiters. -/
theorem notifies_setPoll (k : Kernel) (p : Addr) {poll : Poll}
    (h : (k.polls p).waiters = poll.waiters) : Notifies k (k.setPoll p poll) := by
  refine ⟨rfl, rfl, rfl, rfl, rfl, fun _ ht => ht, fun q t ht => .inl ?_⟩
  by_cases hq : q = p
  · subst hq
    rw [polls_setPoll_self, ← h]
    exact ht
  · rwa [polls_setPoll_of_ne _ _ hq]

theorem notifies_unblock (k : Kernel) (t : Addr) : Notifies k (k.unblock t) :=
  ⟨rfl, rfl, rfl, rfl, rfl, fun _ h => mem_append_left _ h, fun _ _ h => Or.inl h⟩

theorem notifies_wakeReceiver (k : Kernel) (receivers : List Addr) :
    Notifies k (k.wakeReceiver receivers) := by
  cases receivers with
  | nil => exact .refl k
  | cons r _ => exact notifies_unblock k r

/-- A notification moves the first waiter to the run queue. -/
theorem notifies_notify (k : Kernel) (p : Addr) (id : HandleId) (events : Readiness) :
    Notifies k (k.notify p id events) := by
  rcases hobj : (k.polls p).objects[id]? with _ | object
  · simp only [notify, hobj]
    exact .refl k
  cases hw : (k.polls p).waiters with
  | nil =>
    simp only [notify, hobj, hw, head?_nil]
    exact notifies_setPoll k p (by simp [notified, hw])
  | cons w ws =>
    simp only [notify, hobj, hw, head?_cons]
    refine ⟨rfl, rfl, rfl, rfl, rfl, fun _ h => mem_append_left _ h, fun q t ht => ?_⟩
    by_cases hq : q = p
    · subst hq
      simp only [hw, mem_cons] at ht
      rcases ht with rfl | ht
      · exact Or.inr (mem_append_right _ (mem_singleton.2 rfl))
      · refine .inl ?_
        show t ∈ ((k.setPoll q _).polls q).waiters
        simpa [notified, hw] using ht
    · refine .inl ?_
      show t ∈ ((k.setPoll p _).polls q).waiters
      rwa [polls_setPoll_of_ne _ _ hq]

/-- Emitters are told of nothing. -/
theorem emitters_notify (k : Kernel) (p : Addr) (id : HandleId) (events : Readiness) :
    (k.notify p id events).emitters = k.emitters := by
  unfold notify
  split
  · rfl
  · simp only
    split <;> rfl

theorem emitters_notifyListener (latest : Readiness) (k : Kernel) (l : Listener) :
    (notifyListener latest k l).emitters = k.emitters := by
  unfold notifyListener
  split
  · rfl
  · exact emitters_notify k _ _ _

/-- What is ready at the emitters is of `G`. -/
def LatestIn (G : Readiness → Prop) (k : Kernel) : Prop := ∀ e, G (k.emitters e).latest

/-- **A relation that emitters keep to**: it is reflexive and transitive,
and emitters may be written and polls notified, with readiness of `G` if
there was no other. -/
structure Emits (G : Readiness → Prop) (R : Kernel → Kernel → Prop) : Prop where
  refl : ∀ k, R k k
  trans : ∀ {k k' k''}, R k k' → R k' k'' → R k k''
  and : ∀ a {b}, G b → G (a &&& b)
  setEmitter : ∀ {k e em}, (k.LatestIn G → G em.latest) → R k (k.setEmitter e em)
  notify : ∀ {k p id events}, events ≠ 0 → (k.LatestIn G → G events) → R k (k.notify p id events)

namespace Emits

variable {G : Readiness → Prop} {R : Kernel → Kernel → Prop} {e : Addr} {mask : Readiness}

section

variable (h : Emits G R)

include h

theorem notifyListener {latest : Readiness} (l : Listener) (hlatest : k.LatestIn G → G latest) :
    R k (notifyListener latest k l) := by
  unfold Kernel.notifyListener
  split
  next => exact h.refl k
  next hne => exact h.notify hne fun hk => h.and _ (hlatest hk)

/-- Any number of listeners. -/
theorem notifyAll : R k (k.notifyAll e) := by
  have hfold (ls : List Listener) : ∀ k' : Kernel, k'.emitters = k.emitters →
      R k' (ls.foldl (Kernel.notifyListener (k.emitters e).latest) k') := by
    induction ls with
    | nil => exact fun k' _ => h.refl k'
    | cons l ls ih =>
      intro k' hk'
      refine h.trans (h.notifyListener l fun hk => hk' ▸ hk e) (ih _ ?_)
      rw [emitters_notifyListener, hk']
  exact hfold _ k rfl

theorem emitterSet (hmask : ∀ {a}, G a → G (a ||| mask)) : R k (k.emitterSet e mask) :=
  h.trans (h.setEmitter fun hk => hmask (hk e)) h.notifyAll

theorem emitterClear : R k (k.emitterClear e mask) :=
  h.trans (h.setEmitter fun hk => BitVec.and_comm _ _ ▸ h.and _ (hk e)) h.notifyAll

theorem addListener (l : Listener) : R k (k.addListener e l) :=
  h.trans (h.notifyListener l fun hk => hk e) (h.setEmitter fun hk => hk e)

theorem updateListener (p : Addr) (orMask andMask : Readiness) :
    R k (k.updateListener e p orMask andMask) := by
  unfold Kernel.updateListener
  split
  · exact h.refl k
  · refine h.trans (h.setEmitter ?_) (h.notifyListener _ fun hk => hk e)
    exact fun hk => hk e

theorem clearEdge (object : Object) : R k (k.clearEdge object mask) := by
  unfold Kernel.clearEdge
  split
  · exact h.emitterClear
  · exact h.refl k

end

end Emits

theorem emits_notifies : Emits (fun _ => True) Notifies where
  refl := .refl
  trans := .trans
  and _ := id
  setEmitter _ := notifies_setEmitter _ _ _
  notify _ _ := notifies_notify _ _ _ _

theorem notifies_emitterSet (k : Kernel) (e : Addr) (mask : Readiness) :
    Notifies k (k.emitterSet e mask) := emits_notifies.emitterSet id

/-- Asking a poll for an event, whether it has one or not. -/
theorem notifies_tryWait (k : Kernel) (p : Addr) : Notifies k (k.tryWait p).2 := by
  unfold tryWait
  split
  · exact notifies_setPoll k p rfl
  · refine .trans ?_ (emits_notifies.clearEdge _)
    exact notifies_setPoll k p rfl

/-- After a message was put in the queue of the peer only notifications
follow. -/
theorem notifies_enqueue (k : Kernel) (peer : Addr) (entry : MessageEntry) :
    Notifies (k.setChannel peer { k.channels peer with
      queue := (k.channels peer).queue ++ [entry]
      receivers := (k.channels peer).receivers.tail }) (k.enqueue peer entry) := by
  refine (notifies_wakeReceiver _ (k.channels peer).receivers).trans ?_
  refine (notifies_emitterSet _ peer .readable).trans ?_
  simp only [enqueue]
  split
  · exact emits_notifies.emitterClear
  · exact .refl _

end Archives.Ftl.Kernel
