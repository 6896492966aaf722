import Archives.Common.Except
import Archives.Ftl.Basic
import Archives.Ftl.HandleTable
import Archives.Ftl.Model.System
/-!
# FTL — what every system call keeps

No handle dangles, and a thread that waits for a poll is among its
waiters or in the run queue. Every system call keeps both, from the one
fact about notifications and the rules of triples. The scheduler is not
here: it keeps the second only under a condition.
-/

namespace Archives.Ftl.Kernel

open List Nat Option HandleTable

variable {k k' : Kernel} {t p c n : Addr} {s : ThreadState} {id : HandleId} {h : AnyHandle}

/-! ## The invariant -/

/-- Every handle of the table points below `n`. -/
def TableLive (n : Addr) (table : HandleTable) : Prop :=
  ∀ (id : HandleId) (h : AnyHandle), table.handles[id]? = some h → h.object.addr < n

/-- **The invariant**: no handle dangles, and a blocked thread waits for
a poll that is there and can be found. -/
structure Sound (k : Kernel) : Prop where
  live : Live k
  blocked : ∀ t p, (k.threads t).state = .blocked p →
    p < k.next ∧ (t ∈ (k.polls p).waiters ∨ t ∈ k.runqueue)

theorem Sound.allFindable (h : Sound k) : AllFindable k := fun t p ht => (h.blocked t p ht).2

theorem Sound.table (h : Sound k) (p : Addr) : TableLive k.next (k.processes p) := h.live.tables p

/-- The handles do not dangle where tables and messages are the same. -/
theorem Live.of_eq (h : Live k) (hn : k'.next = k.next) (hp : k'.processes = k.processes)
    (hc : k'.channels = k.channels) : Live k' where
  tables := by rw [hp, hn]; exact h.tables
  messages := by rw [hc, hn]; exact h.messages

/-- Notifications keep it: a waiter that leaves its poll goes to the run
queue. -/
theorem Sound.of_notifies (h : Sound k) (hn : Notifies k k') : Sound k' where
  live := h.live.of_eq hn.next hn.processes hn.channels
  blocked := by
    intro t p ht
    rw [hn.threads] at ht
    obtain ⟨hp, hw | hr⟩ := h.blocked t p ht
    · exact ⟨hn.next ▸ hp, hn.waiters p t hw⟩
    · exact ⟨hn.next ▸ hp, .inr (hn.runqueue t hr)⟩

/-- A table may be replaced by one whose handles do not dangle. -/
theorem Sound.setTable {table : HandleTable} (h : Sound k) (ht : TableLive k.next table) :
    Sound (k.setTable p table) where
  live := by
    refine ⟨fun q id hd hq => ?_, h.live.messages⟩
    by_cases hqp : q = p
    · subst hqp
      rw [processes_setTable_self] at hq
      exact ht id hd hq
    · have : (k.setTable p table).processes q = k.processes q := by simp [Kernel.setTable, hqp]
      rw [this] at hq
      exact h.live.tables q id hd hq
  blocked := h.blocked

/-- A channel may be replaced by one whose messages do not dangle. -/
theorem Sound.setChannel {ch : Channel} (h : Sound k)
    (hc : ∀ entry ∈ ch.queue, ∀ hd ∈ entry.handles, hd.object.addr < k.next) :
    Sound (k.setChannel c ch) where
  live := by
    refine ⟨h.live.tables, fun q => ?_⟩
    by_cases hq : q = c
    · subst hq
      simpa [Kernel.setChannel] using hc
    · simpa [Kernel.setChannel, hq] using h.live.messages q
  blocked := h.blocked

/-- A thread may be given a state in which it does not wait. -/
theorem Sound.setState (h : Sound k) (hs : ∀ p, s ≠ .blocked p) : Sound (k.setState t s) where
  live := h.live.of_eq rfl rfl rfl
  blocked := by
    intro u p hu
    by_cases hut : u = t
    · subst hut
      rw [threads_setState_self] at hu
      exact absurd hu (hs p)
    · rw [threads_setState_of_ne _ _ hut] at hu
      exact h.blocked u p hu

/-- More addresses may be handed out. -/
theorem Sound.advance (h : Sound k) (hn : k.next ≤ n) : Sound { k with next := n } where
  live := ⟨fun q id hd hq => lt_of_lt_of_le (h.live.tables q id hd hq) hn,
    fun q e he hd hh => lt_of_lt_of_le (h.live.messages q e he hd hh) hn⟩
  blocked := fun u q hu => ⟨lt_of_lt_of_le (h.blocked u q hu).1 hn, (h.blocked u q hu).2⟩

theorem Sound.emitterSet (h : Sound k) (e : Addr) (mask : Readiness) :
    Sound (k.emitterSet e mask) :=
  h.of_notifies (notifies_emitterSet k e mask)

/-! ## Waiting -/

/-- Waiting blocks the thread only where it is put among the waiters. -/
theorem Sound.pollWait (h : Sound k) (hp : p < k.next) : Sound (k.pollWait p).2 := by
  have hn := notifies_tryWait k p
  have htry := h.of_notifies hn
  unfold Kernel.pollWait
  split
  next ev k' heq =>
    rw [heq] at htry
    exact htry
  next k' heq =>
    rw [heq] at htry hn
    refine ⟨htry.live.of_eq rfl rfl rfl, fun u q hu => ?_⟩
    by_cases hut : u = k'.current
    · subst hut
      simp only [setPoll, threads_setState_self, ThreadState.blocked.injEq] at hu
      subst hu
      refine ⟨?_, .inl ?_⟩
      · show p < k'.next
        rw [hn.next]
        exact hp
      · show k'.current ∈ ((k'.setPoll p _).polls p).waiters
        simp
    · replace hu : (k'.threads u).state = .blocked q := by
        simpa [Kernel.setState, setPoll, hut] using hu
      obtain ⟨hq, hw | hr⟩ := htry.blocked u q hu
      · refine ⟨hq, .inl ?_⟩
        show u ∈ ((k'.setPoll p _).polls q).waiters
        by_cases hqp : q = p
        · subst hqp
          simp [hw]
        · rwa [polls_setPoll_of_ne _ _ hqp]
      · exact ⟨hq, .inr hr⟩

/-! ## Handles in tables -/

theorem exists_of_get {cast : Object → Option Addr} {required : HandleRight} {table : HandleTable}
    {a : Addr} (h : table.get cast required id = .ok a) :
    ∃ hd, table.handles[id]? = some hd ∧ cast hd.object = some a := by
  rcases hid : table.handles[id]? with _ | hd
  · simp [HandleTable.get, HandleTable.getAny, hid, bind, Except.bind] at h
  simp only [HandleTable.get, HandleTable.getAny, hid, ok_bind] at h
  refine ⟨hd, rfl, ?_⟩
  split at h
  next => cases h
  next b hb =>
    split at h
    next =>
      cases h
      exact hb
    next => cases h

/-- The poll behind a handle was allocated. -/
theorem TableLive.poll_lt {a : Addr} {table : HandleTable} {required : HandleRight}
    (ht : TableLive n table) (h : table.get Object.asPoll required id = .ok a) : a < n := by
  obtain ⟨hd, hid, hcast⟩ := exists_of_get h
  have := ht id hd hid
  cases ho : hd.object with
  | poll q =>
    simp only [ho, Object.asPoll, some.injEq] at hcast
    simpa [ho, Object.addr, hcast] using this
  | _ => simp [ho, Object.asPoll] at hcast

theorem TableLive.insert {table : HandleTable} (ht : TableLive n table) (hh : h.object.addr < n) :
    TableLive n { table with handles := table.handles.insert id h } := by
  intro i hd hi
  rw [Std.ExtTreeMap.getElem?_insert] at hi
  split at hi
  · cases hi
    exact hh
  · exact ht i hd hi

theorem TableLive.erase {table : HandleTable} (ht : TableLive n table) :
    TableLive n { table with handles := table.handles.erase id } := by
  intro i hd hi
  rw [Std.ExtTreeMap.getElem?_erase] at hi
  split at hi
  · cases hi
  · exact ht i hd hi

theorem TableLive.insertLoop {fuel : Nat} {table table' : HandleTable} (ht : TableLive n table)
    (hh : h.object.addr < n) (hr : insertLoop h fuel table = some (id, table')) :
    TableLive n table' := by
  rw [insertLoop_eq] at hr
  obtain ⟨id, -, heq⟩ := map_eq_some_iff.1 hr
  cases heq
  exact .insert ht hh

theorem TableLive.insertTwoLoop {h₀ h₁ : AnyHandle} {fuel : Nat} {table table' : HandleTable}
    (ht : TableLive n table) (hh₀ : h₀.object.addr < n) (hh₁ : h₁.object.addr < n)
    (hr : insertTwoLoop h₀ h₁ fuel table = some (id, table')) : TableLive n table' := by
  rw [insertTwoLoop_eq] at hr
  obtain ⟨id, -, heq⟩ := map_eq_some_iff.1 hr
  cases heq
  exact .insert (.insert ht hh₀) hh₁

/-! ## System calls -/

/-- The invariant, with the addresses below `n` handed out. -/
def SoundAt (n : Addr) (k : Kernel) : Prop := Sound k ∧ k.next = n

theorem SoundAt.of_notifies (h : SoundAt n k) (hn : Notifies k k') : SoundAt n k' :=
  ⟨h.1.of_notifies hn, hn.next.trans h.2⟩

theorem SoundAt.setTable {table : HandleTable} (h : SoundAt n k) (ht : TableLive n table) :
    SoundAt n (k.setTable p table) := by
  obtain ⟨h, rfl⟩ := h
  exact ⟨h.setTable ht, rfl⟩

theorem SoundAt.setChannel {ch : Channel} (h : SoundAt n k)
    (hc : ∀ entry ∈ ch.queue, ∀ hd ∈ entry.handles, hd.object.addr < n) :
    SoundAt n (k.setChannel c ch) := by
  obtain ⟨h, rfl⟩ := h
  exact ⟨h.setChannel hc, rfl⟩

theorem SoundAt.table (h : SoundAt n k) (p : Addr) : TableLive n (k.processes p) :=
  h.2 ▸ h.1.table p

theorem SoundAt.messages (h : SoundAt n k) (c : Addr) :
    ∀ entry ∈ (k.channels c).queue, ∀ hd ∈ entry.handles, hd.object.addr < n :=
  h.2 ▸ h.1.live.messages c

open Call

variable {n : Addr} {α : Type} {env : Env} {handles : IsolationSlice} {m : Sys α} {a0 a1 a2 : Nat}

/-- Installing a handle that does not dangle. -/
theorem keeps_installHandle (hh : h.object.addr < n) : (installHandle p h).Keeps (SoundAt n) := by
  refine triple_state_bind fun k hk => ?_
  split
  next => exact triple_stop
  next => exact triple_fail fun s hs => hs ▸ hk
  next id table hins =>
    refine triple_update_pure fun s hs => ?_
    subst hs
    refine hk.setTable ?_
    simp only [HandleTable.insert] at hins
    split at hins
    · cases hins
    · split at hins
      next heq =>
        cases hins
        exact (hk.table p).insertLoop hh heq
      next => cases hins

theorem keeps_installHandles (i : Nat) (hs : List AnyHandle) (hhs : ∀ h ∈ hs, h.object.addr < n) :
    (installHandles env p handles i hs).Keeps (SoundAt n) := by
  induction hs generalizing i with
  | nil => exact triple_pure fun s hs => hs
  | cons h hs ih =>
    refine triple_bind (keeps_installHandle (hhs h mem_cons_self)) fun id => ?_
    refine triple_lift_bind (fun s hs => hs) fun _ _ => ?_
    exact ih (i + 1) fun h hh => hhs h (mem_cons_of_mem _ hh)

/-- The message taken from a queue does not dangle. -/
theorem triple_popMessage : (popMessage c).Triple (SoundAt n)
      (fun entry k => SoundAt n k ∧ ∀ hd ∈ entry.handles, hd.object.addr < n) (SoundAt n) := by
  refine triple_state_bind fun k hk => ?_
  split
  next =>
    exact triple_ite (fun _ => triple_fail fun s hs => hs ▸ hk)
      fun _ => triple_fail fun s hs => hs ▸ hk
  next entry queue hq =>
    have hmsg := hk.messages c
    rw [hq] at hmsg
    have hentry := hmsg entry mem_cons_self
    refine triple_update_bind (Q := SoundAt n) (fun s hs => ?_) ?_
    · subst hs
      exact hk.setChannel fun e he => hmsg e (mem_cons_of_mem _ he)
    · refine triple_ite (fun _ => ?_) fun _ => triple_pure fun s hs => ⟨hs, hentry⟩
      refine triple_update_bind (Q := SoundAt n) (fun s hs => ?_)
        (triple_pure fun s hs => ⟨hs, hentry⟩)
      exact hs.of_notifies emits_notifies.emitterClear

theorem keeps_tryRecv {msgbuffer : IsolationSlice} :
    (tryRecv env p c msgbuffer handles).Keeps (SoundAt n) := by
  refine triple_bind triple_popMessage fun entry => ?_
  refine triple_bind (Q := fun _ => SoundAt n) ?_ fun _ => ?_
  · intro s r t hs hr
    exact keeps_installHandles 0 entry.handles hs.2 hs.1 hr
  refine triple_ite (fun _ => ?_) fun _ => ?_
  · nofun
  refine triple_lift_bind (fun s hs => hs) fun _ _ => ?_
  refine triple_update_pure fun s hs => ?_
  exact hs.of_notifies (notifies_emitterSet s _ _)

/-- The first loop of a send changes nothing. -/
theorem keeps_checkHandles {table : HandleTable} (m i : Nat) (ids : List HandleId) :
    (checkHandles env table handles m i ids).Keeps (SoundAt n) := by
  induction m generalizing i ids with
  | zero => exact triple_pure fun s hs => hs
  | succ m ih =>
    refine triple_lift_bind (fun s hs => hs) fun id _ => ?_
    refine triple_bind (Q := fun _ => SoundAt n) ?_ fun ids => ?_
    · exact triple_ite (fun _ => triple_pure fun s hs => hs) fun _ => triple_stop
    · exact triple_ite (fun _ => triple_fail_bind fun s hs => hs) fun _ => ih (i + 1) ids

/-- The handles taken from a table do not dangle. -/
theorem triple_takeHandles (ids : List HandleId) (moved : List AnyHandle)
    (hmoved : ∀ h ∈ moved, h.object.addr < n) : (takeHandles p ids moved).Triple (SoundAt n)
      (fun hs k => SoundAt n k ∧ ∀ h ∈ hs, h.object.addr < n) (SoundAt n) := by
  induction ids generalizing moved with
  | nil => exact triple_pure fun s hs => ⟨hs, hmoved⟩
  | cons id ids ih =>
    refine triple_state_bind fun k hk => ?_
    split
    next => exact triple_stop
    next h table htake =>
      simp only [HandleTable.take] at htake
      split at htake
      next hd hid =>
        cases htake
        refine triple_update_bind (Q := SoundAt n) (fun s hs => ?_) ?_
        · subst hs
          exact hk.setTable (hk.table p).erase
        · have hmoved' : ∀ h' ∈ moved ++ [h], h'.object.addr < n :=
            forall_mem_append.2 ⟨hmoved, forall_mem_singleton.2 (hk.table p id h hid)⟩
          unfold tryPush
          split
          · exact triple_bind (Q := fun hs k => SoundAt n k ∧ hs = moved ++ [h])
              (triple_pure fun s hs => ⟨hs, rfl⟩)
              fun hs s r t hst hr => ih hs (hst.2 ▸ hmoved') hst.1 hr
          · exact triple_stop_bind
      next => cases htake

theorem keeps_channelSend {info : MessageInfo} {data : List UInt8} {hs : List AnyHandle}
    (hhs : ∀ h ∈ hs, h.object.addr < n) : (channelSend env c info data hs).Keeps (SoundAt n) := by
  refine triple_state_bind fun k hk => ?_
  split
  next => exact triple_fail fun s hs => hs ▸ hk
  next peer _ =>
    refine triple_ite (fun _ => triple_fail_bind fun s hs => hs ▸ hk) fun _ => ?_
    refine triple_ite (fun _ => triple_fail_bind fun s hs => hs ▸ hk) fun _ => ?_
    refine triple_update fun s hs => ?_
    subst hs
    refine .of_notifies (hk.setChannel fun e he => ?_) (notifies_enqueue s peer _)
    rcases mem_append.1 he with he | he
    · exact hk.messages peer e he
    · rw [mem_singleton.1 he]
      exact hhs

theorem keeps_sendFromUser {info : MessageInfo} {msgbuffer : IsolationSlice} :
    (sendFromUser env p c info msgbuffer handles).Keeps (SoundAt n) := by
  refine triple_ite (fun _ => triple_fail_bind fun s hs => hs) fun _ => ?_
  refine triple_lift_bind (fun s hs => hs) fun data _ => ?_
  refine triple_state_bind fun k hk => ?_
  refine .weaken (P := SoundAt n) ?_ (fun s hs => hs ▸ hk) (fun _ _ h => h) fun _ h => h
  refine triple_bind (keeps_checkHandles _ 0 []) fun ids => ?_
  refine triple_bind (triple_takeHandles ids [] (by simp)) fun moved => ?_
  exact fun s r t hs hr => keeps_channelSend hs.2 hs.1 hr

/-! ## Closing and leaving -/

theorem SoundAt.setState (h : SoundAt n k) (hs : ∀ p, s ≠ .blocked p) :
    SoundAt n (k.setState t s) :=
  ⟨h.1.setState hs, h.2⟩

theorem SoundAt.threadExit (h : SoundAt n k) : SoundAt n (k.threadExit t) :=
  (h.setState (by simp)).of_notifies (notifies_emitterSet _ _ _)

theorem SoundAt.threadClose (h : SoundAt n k) : SoundAt n (k.threadClose t) := by
  unfold Kernel.threadClose
  split
  · exact h
  · exact h
  · exact (h.setState (by simp)).of_notifies (notifies_emitterSet _ _ _)

theorem SoundAt.dropPeer (h : SoundAt n k) : SoundAt n (k.dropPeer c) :=
  h.setChannel (h.messages c)

theorem SoundAt.channelClose (h : SoundAt n k) : SoundAt n (k.channelClose c) := by
  unfold Kernel.channelClose
  split
  · exact h
  · simp only
    split
    · exact h.dropPeer
    · exact h.dropPeer.dropPeer.of_notifies (notifies_emitterSet _ _ _)

theorem SoundAt.closeObject (h : SoundAt n k) (o : Object) : SoundAt n (k.closeObject o) := by
  cases o with
  | thread t => exact h.threadClose
  | channel c => exact h.channelClose
  | _ => exact h

theorem SoundAt.closeAll (h : SoundAt n k) : SoundAt n (k.closeAll p) := by
  have hfold : ∀ (hs : List AnyHandle) {k : Kernel}, SoundAt n k →
      SoundAt n (hs.foldl (fun k h => k.closeObject h.object) k) := by
    intro hs
    induction hs with
    | nil => exact fun h => h
    | cons hd hs ih => exact fun h => ih (h.closeObject hd.object)
  refine (hfold _ h).setTable fun id hd hid => ?_
  simp at hid

/-! ## New objects -/

theorem Sound.newPoll (h : Sound k) :
    SoundAt (k.next + 1) { k.setPoll k.next Poll.new with next := k.next + 1 } := by
  refine ⟨⟨(h.advance (Nat.le_succ _)).live.of_eq rfl rfl rfl, fun u q hu => ?_⟩, rfl⟩
  obtain ⟨hq, hw⟩ := h.blocked u q hu
  refine ⟨Nat.lt_succ_of_lt hq, ?_⟩
  rwa [polls_setPoll_of_ne _ _ (Nat.ne_of_lt hq)]

theorem Sound.newEmitter (h : Sound k) (em : Emitter) :
    SoundAt (k.next + 1) { k.setEmitter k.next em with next := k.next + 1 } :=
  ⟨(h.of_notifies (notifies_setEmitter k k.next em)).advance (le_succ _), rfl⟩

theorem Sound.threadNew (h : Sound k) (process : Addr) :
    SoundAt (k.next + 1) (k.threadNew process) := by
  refine ⟨⟨(h.advance (le_succ _)).live.of_eq rfl rfl rfl, fun u q hu => ?_⟩, rfl⟩
  by_cases hun : u = k.next
  · subst hun
    simp [Kernel.threadNew, setEmitter] at hu
  · have hold : (k.threads u).state = .blocked q := by
      simpa [Kernel.threadNew, setEmitter, hun] using hu
    exact ⟨lt_succ_of_lt (h.blocked u q hold).1, (h.blocked u q hold).2⟩

theorem Sound.channelNew (h : Sound k) : SoundAt (k.next + 2) k.channelNew := by
  have h2 : SoundAt (k.next + 2) { k with next := k.next + 2 } :=
    ⟨h.advance (le_add_right _ 2), rfl⟩
  refine .of_notifies ?_ (notifies_setEmitter _ _ _)
  refine .of_notifies ?_ (notifies_setEmitter _ _ _)
  refine .setChannel (.setChannel h2 ?_) ?_
  · simp [Channel.new]
  · simp [Channel.new]

/-- What keeps the invariant at every number of addresses keeps it. -/
theorem keeps_sound (h : ∀ n, m.Keeps (SoundAt n)) : m.Keeps Sound := by
  intro s r t hs hr
  have := h s.next ⟨hs, rfl⟩ hr
  cases r with
  | ok a => exact this.1
  | error e => exact this.1

theorem keeps_sysInsert (hh : h.object.addr < n) :
    (sysInsert h).Triple (SoundAt n) (fun _ => Sound) Sound := by
  refine triple_state_bind fun k hk => ?_
  refine .weaken (P := SoundAt n) ?_ (fun s hs => hs ▸ hk) (fun _ _ h => h) fun _ h => h
  refine triple_bind (.weaken (keeps_installHandle hh) (fun _ h => h) (fun _ _ h => h)
    fun _ h => h.1) fun id => triple_pure fun s hs => hs.1

theorem keeps_sysPollCreate : sysPollCreate.Keeps Sound := by
  refine triple_state_bind fun k hk => ?_
  refine triple_update_bind (fun s hs => ?_) (keeps_sysInsert (lt_succ_self _))
  subst hs
  exact hk.newPoll

theorem keeps_sysCreate {refused : Option ErrorCode} {kind : Addr → Object} {rights : HandleRight}
    (hkind : ∀ a, (kind a).addr = a) : (sysCreate refused kind rights).Keeps Sound := by
  unfold sysCreate
  split
  next => exact triple_fail fun s hs => hs
  next =>
    refine triple_state_bind fun k hk => ?_
    refine triple_update_bind (fun s hs => ?_)
      (keeps_sysInsert (by rw [hkind]; exact lt_succ_self _))
    subst hs
    exact hk.newEmitter _

variable {I : Kernel → Prop}

/-- A call that checks an argument and looks a handle up then. -/
theorem keeps_lookup {β γ : Type} {r : Except ErrorCode β}
    {x : β → Kernel → Except ErrorCode γ} {f : β → Kernel → γ → Sys α}
    (h : ∀ b k c, I k → x b k = .ok c → (f b k c).Triple (· = k) (fun _ => I) I) :
    (.lift r >>= fun b => .state >>= fun k => .lift (x b k) >>= f b k : Sys α).Keeps I :=
  triple_lift_bind (fun _ hs => hs) fun b _ => triple_state_bind fun k hk =>
    triple_lift_bind (fun _ hs => hs ▸ hk) fun c hc => h b k c hk hc

theorem keeps_sysThreadSpawn : (sysThreadSpawn a0).Keeps Sound := by
  refine keeps_lookup fun _ k process hk _ => ?_
  refine triple_update_bind (Q := SoundAt (k.next + 1)) (fun s hs => ?_) ?_
  · subst hs
    exact hk.threadNew process
  · refine triple_bind (keeps_sysInsert (lt_succ_self _)) fun id => ?_
    refine triple_update_pure fun s hs => ?_
    exact hs.of_notifies (notifies_unblock s _)

theorem keeps_installTwo {h₀ h₁ : AnyHandle} (hh₀ : h₀.object.addr < n)
    (hh₁ : h₁.object.addr < n) : (installTwo p h₀ h₁).Keeps (SoundAt n) := by
  refine triple_state_bind fun k hk => ?_
  split
  next => exact triple_stop
  next id table hins =>
    refine triple_update_pure fun s hs => ?_
    subst hs
    refine hk.setTable ?_
    simp only [insertTwo] at hins
    split at hins
    next r heq =>
      cases hins
      exact (hk.table p).insertTwoLoop hh₀ hh₁ heq
    next => cases hins

theorem keeps_sysChannelCreate : sysChannelCreate.Keeps Sound := by
  refine triple_state_bind fun k hk => ?_
  refine triple_update_bind (Q := SoundAt (k.next + 2)) (fun s hs => ?_) ?_
  · subst hs
    exact hk.channelNew
  · refine triple_bind (.weaken (keeps_installTwo (n := k.next + 2) ?_ ?_) (fun _ h => h)
      (fun _ _ h => h.1) fun _ h => h.1) fun id => triple_pure fun s hs => hs
    · exact Nat.lt_add_of_pos_right (by decide)
    · exact lt_succ_self _

/-! ## The operations of polls -/

theorem keeps_pollAdd {handle : AnyHandle} {interests : Readiness} :
    (pollAdd p id handle interests).Keeps Sound := by
  refine triple_state_bind fun k hk => ?_
  split
  next => exact triple_fail fun s hs => hs ▸ hk
  next e _ =>
    refine triple_ite (fun _ => triple_fail_bind fun s hs => hs ▸ hk) fun _ => ?_
    refine triple_update_bind (Q := Sound) (fun s hs => ?_)
      (triple_update fun s hs => hs.of_notifies (emits_notifies.addListener _))
    subst hs
    exact hk.of_notifies (notifies_setPoll s p rfl)

theorem keeps_pollUpdate {orMask andMask : Readiness} :
    (pollUpdate p id orMask andMask).Keeps Sound := by
  refine triple_state_bind fun k hk => ?_
  split
  next => exact triple_fail fun s hs => hs ▸ hk
  next =>
    split
    next => exact triple_stop
    next => exact triple_update fun s hs =>
      (hs ▸ hk).of_notifies (emits_notifies.updateListener _ _ _)

theorem keeps_pollRemove : (pollRemove p id).Keeps Sound := by
  refine triple_state_bind fun k hk => ?_
  split
  next => exact triple_fail fun s hs => hs ▸ hk
  next =>
    refine triple_update_bind (Q := Sound) (fun s hs => ?_) ?_
    · subst hs
      exact hk.of_notifies (notifies_setPoll s p rfl)
    · split
      next => exact triple_stop
      next => exact triple_update fun s hs => hs.of_notifies (notifies_setEmitter s _ _)

theorem keeps_sysPollWait : (sysPollWait a0).Keeps Sound := by
  refine keeps_lookup fun pollId k poll hk hpoll => ?_
  refine triple_update_pure fun s hs => ?_
  subst hs
  exact hk.pollWait ((hk.table _).poll_lt hpoll)

/-! ## All of them -/

theorem keeps_sysHandleClose : (sysHandleClose a0).Keeps (SoundAt n) := by
  refine triple_state_bind fun k hk => ?_
  refine triple_lift_bind (fun s hs => hs ▸ hk) fun ⟨h, table⟩ htake => ?_
  simp only [HandleTable.take] at htake
  split at htake
  next hd hid =>
    cases htake
    refine triple_update_bind (Q := SoundAt n) (fun s hs => ?_) ?_
    · subst hs
      exact hk.setTable (hk.table _).erase
    · exact triple_update_pure fun s hs => hs.closeObject _
  next => cases htake

theorem keeps_sysThreadExit : sysThreadExit.Keeps (SoundAt n) :=
  triple_update_pure fun _ hs => hs.threadExit

theorem keeps_sysProcessExit : sysProcessExit.Keeps (SoundAt n) :=
  triple_update_bind (Q := SoundAt n) (fun _ hs => hs.closeAll) keeps_sysThreadExit

theorem keeps_sysRearm {cast : Object → Option Addr} : (sysRearm cast a0).Keeps (SoundAt n) := by
  refine keeps_lookup fun id k a hk _ => ?_
  refine triple_update_pure fun s hs => ?_
  exact (hs ▸ hk).of_notifies emits_notifies.emitterClear

/-- After a part that keeps the invariant, a result. -/
theorem keeps_bind_pure {β : Type} {f : α → β} (h : m.Keeps I) :
    (m >>= fun a => pure (f a)).Keeps I :=
  triple_bind h fun _ => triple_pure fun _ hs => hs

/-- A part that keeps the invariant, after the state was read. -/
theorem keeps_at (h : m.Keeps I) (hk : I k) : m.Triple (· = k) (fun _ => I) I :=
  h.weaken (fun _ hs => hs ▸ hk) (fun _ _ h => h) fun _ h => h

theorem keeps_sysChannelSend {a3 : Nat} : (sysChannelSend env a0 a1 a2 a3).Keeps (SoundAt n) :=
  keeps_lookup fun _ _ _ hk _ => keeps_at (keeps_bind_pure keeps_sendFromUser) hk

theorem keeps_sysChannelRecv : (sysChannelRecv env a0 a1 a2).Keeps (SoundAt n) :=
  keeps_lookup fun _ _ _ hk _ => keeps_at (keeps_bind_pure keeps_tryRecv) hk

theorem keeps_sysPollAdd : (sysPollAdd a0 a1 a2).Keeps Sound := by
  refine triple_lift_bind (fun s hs => hs) fun _ _ => keeps_lookup fun _ k _ hk _ => ?_
  refine triple_lift_bind (fun s hs => hs ▸ hk) fun handle _ => ?_
  exact keeps_at (keeps_bind_pure keeps_pollAdd) hk

theorem keeps_sysPollUpdate {a3 : Nat} : (sysPollUpdate a0 a1 a2 a3).Keeps Sound := by
  refine triple_lift_bind (fun s hs => hs) fun _ _ => keeps_lookup fun _ k _ hk _ => ?_
  exact keeps_at (keeps_bind_pure keeps_pollUpdate) hk

theorem keeps_sysPollRemove : (sysPollRemove a0 a1).Keeps Sound := by
  refine triple_lift_bind (fun s hs => hs) fun _ _ => keeps_lookup fun _ k _ hk _ => ?_
  exact keeps_at (keeps_bind_pure keeps_pollRemove) hk

/-- **Every system call keeps the invariant.** -/
theorem keeps_handleSyscall (env : Env) (call : Syscall) :
    (handleSyscall env call).Keeps Sound := by
  cases call with
  | handleClose a0 => exact keeps_bind_pure (keeps_sound fun _ => keeps_sysHandleClose)
  | processExit => exact keeps_bind_pure (keeps_sound fun _ => keeps_sysProcessExit)
  | threadSpawn a0 => exact keeps_bind_pure keeps_sysThreadSpawn
  | threadExit => exact keeps_bind_pure (keeps_sound fun _ => keeps_sysThreadExit)
  | channelCreate => exact keeps_bind_pure keeps_sysChannelCreate
  | channelSend a0 a1 a2 a3 => exact keeps_bind_pure (keeps_sound fun _ => keeps_sysChannelSend)
  | channelRecv a0 a1 a2 => exact keeps_bind_pure (keeps_sound fun _ => keeps_sysChannelRecv)
  | pollCreate => exact keeps_bind_pure keeps_sysPollCreate
  | pollAdd a0 a1 a2 => exact keeps_bind_pure keeps_sysPollAdd
  | pollUpdate a0 a1 a2 a3 => exact keeps_bind_pure keeps_sysPollUpdate
  | pollWait a0 => exact keeps_bind_pure keeps_sysPollWait
  | pollRemove a0 a1 => exact keeps_bind_pure keeps_sysPollRemove
  | timerCreate => exact keeps_bind_pure (keeps_sysCreate fun _ => rfl)
  | timerSet a0 => exact keeps_bind_pure (keeps_sound fun _ => keeps_sysRearm)
  | interruptAcquire refused => exact keeps_bind_pure (keeps_sysCreate fun _ => rfl)
  | interruptAcknowledge a0 => exact keeps_bind_pure (keeps_sound fun _ => keeps_sysRearm)
  | vmareaAlloc refused => exact keeps_bind_pure (keeps_sysCreate fun _ => rfl)

/-- The readiness interrupts bring keeps it. -/
theorem Sound.fire {ready : List Addr} (h : Sound k) : Sound (k.fire ready) := by
  induction ready generalizing k with
  | nil => exact h
  | cons e es ih => exact ih (h.emitterSet e _)

end Archives.Ftl.Kernel
