import Archives.Ftl.ChannelSend
import Archives.Ftl.HandleTable
import Archives.Ftl.Model.ChannelPair
/-!
# FTL — delivery and readiness of a pair of channels

Messages are neither reordered nor invented: at each end, what was taken
out followed by what is waiting is what was sent at the other end
(`Linked.conserved`). But `try_recv` takes a message out before it
installs the handles and writes the data, and does not put it back where
that fails; `delivers_of_dropsNone` says that no message is lost
otherwise. The readiness is another matter. A send that fills
the queue of the peer clears `WRITABLE` at the peer, not at the sender:
the sender goes on claiming that it can send, and the peer, which could
send, no longer claims it. `ready_iff_fillsNone` says that nothing else
goes wrong.

What a step can do to the two ends is said once, by `Effect`.
-/

namespace Archives.Ftl

open Call List Function Nat Option End Readiness

namespace Kernel

variable {k k' : Kernel} {c p : Addr} {env : Env} {rest : List MessageEntry}
  {handles msgbuffer : IsolationSlice}

/-! ## The readiness of emitters -/

theorem emitters_foldl_notifyListener (latest : Readiness) (ls : List Listener) (k : Kernel) :
    (ls.foldl (notifyListener latest) k).emitters = k.emitters := by
  induction ls generalizing k with
  | nil => rfl
  | cons l ls ih => rw [foldl_cons, ih, emitters_notifyListener]

/-- A change of readiness is one of the emitter, whoever is notified. -/
theorem latest_notifyAll (k : Kernel) (e : Addr) (new : Emitter) (a : Addr) :
    (((k.setEmitter e new).notifyAll e).emitters a).latest =
      if a = e then new.latest else (k.emitters a).latest := by
  rw [notifyAll, emitters_foldl_notifyListener]
  by_cases h : a = e
  · subst h
    simp [setEmitter]
  · simp [setEmitter, h]

theorem latest_emitterSet (k : Kernel) (e : Addr) (mask : Readiness) (a : Addr) :
    ((k.emitterSet e mask).emitters a).latest =
      if a = e then (k.emitters e).latest ||| mask else (k.emitters a).latest :=
  latest_notifyAll k e _ a

theorem latest_emitterClear (k : Kernel) (e : Addr) (mask : Readiness) (a : Addr) :
    ((k.emitterClear e mask).emitters a).latest =
      if a = e then (k.emitters e).latest &&& ~~~mask else (k.emitters a).latest :=
  latest_notifyAll k e _ a

/-! ## Sending -/

/-- What `Channel::send` leaves of the readiness of the peer. -/
def latestAfterSend (k : Kernel) (peer : Addr) : Readiness :=
  if (k.channels peer).queue.length + 1 = queueLenMax then
    ((k.emitters peer).latest ||| readable) &&& ~~~writable
  else (k.emitters peer).latest ||| readable

theorem emitters_wakeReceiver (k : Kernel) (receivers : List Addr) :
    (k.wakeReceiver receivers).emitters = k.emitters := by
  cases receivers <;> rfl

theorem channels_enqueue (k : Kernel) (peer : Addr) (entry : MessageEntry) :
    (k.enqueue peer entry).channels = update k.channels peer { k.channels peer with
        queue := (k.channels peer).queue ++ [entry]
        receivers := (k.channels peer).receivers.tail } :=
  (notifies_enqueue k peer entry).channels

theorem latest_enqueue (k : Kernel) (peer : Addr) (entry : MessageEntry) (a : Addr) :
    ((k.enqueue peer entry).emitters a).latest =
      if a = peer then latestAfterSend k peer else (k.emitters a).latest := by
  rw [enqueue, latestAfterSend, length_append, length_singleton]
  split
  · simp only [latest_emitterClear, latest_emitterSet, emitters_wakeReceiver, if_true]
    split
    · rfl
    · rfl
  · rw [latest_emitterSet, emitters_wakeReceiver]
    rfl

/-! ## Receiving -/

/-- What taking out a message leaves of the readiness of a channel, with
the messages that are left. -/
def latestAfterPop (k : Kernel) (c : Addr) (rest : List MessageEntry) : Readiness :=
  if rest.isEmpty then (k.emitters c).latest &&& ~~~readable else (k.emitters c).latest

/-- The state after a message was taken out of a queue. -/
def popped (k : Kernel) (c : Addr) (rest : List MessageEntry) : Kernel :=
  let k := k.setChannel c { k.channels c with queue := rest }
  if rest.isEmpty then k.emitterClear c readable else k

theorem run_popMessage_cons {entry : MessageEntry} (h : (k.channels c).queue = entry :: rest) :
    (popMessage c).run k = .ok (.ok entry, k.popped c rest) := by
  cases rest <;> simp [popMessage, run_bind, h, popped]

theorem run_popMessage_nil (h : (k.channels c).queue = []) : (popMessage c).run k =
      .ok (.error (if (k.channels c).peer.isSome then .empty else .noPeer), k) := by
  simp only [popMessage, run_bind, run_state, h]
  split <;> rfl

theorem channels_popped (k : Kernel) (c : Addr) (rest : List MessageEntry) :
    (k.popped c rest).channels = update k.channels c { k.channels c with queue := rest } := by
  rw [popped]
  split
  · exact (emits_notifies.emitterClear).channels
  · rfl

theorem latest_popped (k : Kernel) (c : Addr) (rest : List MessageEntry) (a : Addr) :
    ((k.popped c rest).emitters a).latest =
      if a = c then latestAfterPop k c rest else (k.emitters a).latest := by
  rw [popped, latestAfterPop]
  split
  · rw [latest_emitterClear]
    rfl
  · split
    next h => rw [h]; rfl
    next => rfl

/-- Channels and emitters are those of a given state. -/
def SameEnds (k₀ k : Kernel) : Prop := k.channels = k₀.channels ∧ k.emitters = k₀.emitters

/-- Installing handles touches tables only. -/
theorem keeps_installHandles_sameEnds (k₀ : Kernel) (i : Nat) (hs : List AnyHandle) :
    (installHandles env p handles i hs).Keeps (SameEnds k₀) := by
  induction hs generalizing i with
  | nil => exact triple_pure fun k hk => hk
  | cons h hs ih =>
    refine triple_bind (Q := fun _ => SameEnds k₀) ?_ fun id => ?_
    · refine triple_state_bind fun k hk => ?_
      split
      next => exact triple_stop
      next => exact triple_fail fun _ h => h ▸ hk
      next =>
        refine triple_update_pure ?_
        rintro _ rfl
        exact hk
    · exact triple_lift_bind (fun _ h => h) fun _ _ => ih (i + 1)

/-- What the channels and the readiness are after a receive that took a
message out: the channel was made writable if the receive got that far. -/
structure Received (k k' : Kernel) (c : Addr) (rest : List MessageEntry) : Prop where
  channels : k'.channels = (k.popped c rest).channels
  own : (k'.emitters c).latest = latestAfterPop k c rest ∨
    (k'.emitters c).latest = latestAfterPop k c rest ||| writable
  others : ∀ a, a ≠ c → (k'.emitters a).latest = (k.emitters a).latest

theorem SameEnds.received (h : SameEnds (k.popped c rest) k') : Received k k' c rest where
  channels := h.1
  own := by
    refine .inl ?_
    rw [h.2, latest_popped, if_pos rfl]
  others := by
    intro a ha
    rw [h.2, latest_popped, if_neg ha]

theorem SameEnds.received_emitterSet (h : SameEnds (k.popped c rest) k') :
    Received k (k'.emitterSet c .writable) c rest where
  channels := (notifies_emitterSet k' c .writable).channels.trans h.1
  own := by
    refine .inr ?_
    rw [latest_emitterSet, if_pos rfl, h.2, latest_popped, if_pos rfl]
  others := by
    intro a ha
    rw [latest_emitterSet, if_neg ha, h.2, latest_popped, if_neg ha]

/-- A receive that finds a message takes it out, whether it succeeds in
the end or not. -/
theorem triple_tryRecv {entry : MessageEntry} (hq : (k.channels c).queue = entry :: rest) :
    (tryRecv env p c msgbuffer handles).Triple (· = k) (fun _ k' => Received k k' c rest)
      (fun k' => Received k k' c rest) := by
  have hpop : (popMessage c).Triple (· = k) (fun _ => SameEnds (k.popped c rest))
      fun k' => Received k k' c rest := by
    rintro _ r k' rfl hr
    rw [run_popMessage_cons hq] at hr
    cases hr
    exact ⟨rfl, rfl⟩
  refine triple_bind hpop fun entry => ?_
  refine triple_bind (Q := fun _ => SameEnds (k.popped c rest)) ?_ fun _ => ?_
  · exact (keeps_installHandles_sameEnds _ 0 entry.handles).weaken (fun _ h => h)
      (fun _ _ h => h) fun _ h => h.received
  · refine triple_ite (fun _ => ?_) fun _ => ?_
    · exact triple_bind (Q := fun _ _ => False) triple_stop fun _ _ _ _ h => h.elim
    · refine triple_lift_bind (fun _ h => h.received) fun _ _ => ?_
      refine triple_bind (Q := fun _ k' => Received k k' c rest) ?_ fun _ =>
        triple_pure fun _ h => h
      exact triple_update fun _ h => h.received_emitterSet

/-- **A receive finds no message, or takes out the first one.** -/
theorem tryRecv_cases {r : Except ErrorCode MessageInfo}
    (h : (tryRecv env p c msgbuffer handles).run k = .ok (r, k')) :
    ((k.channels c).queue = [] ∧ k.taken c = [] ∧ k' = k) ∨
      ∃ entry rest, (k.channels c).queue = entry :: rest ∧ k.taken c = [entry] ∧
        Received k k' c rest := by
  rcases hq : (k.channels c).queue with _ | ⟨entry, rest⟩
  · rw [tryRecv, run_bind, run_popMessage_nil hq] at h
    cases h
    exact .inl ⟨rfl, by rw [taken, run_popMessage_nil hq], rfl⟩
  · refine .inr ⟨entry, rest, rfl, by rw [taken, run_popMessage_cons hq], ?_⟩
    have := triple_tryRecv hq rfl h
    cases r <;> exact this

/-- A handle is put into a table that has room for it. -/
theorem insert_of_room {t : HandleTable} {h : AnyHandle}
    {r : Except ErrorCode (HandleId × HandleTable)} (hroom : t.handles.size < numHandlesMax)
    (hr : t.insert h = .ok r) : ∃ id t', r = .ok (id, t') ∧
      t'.handles.size ≤ t.handles.size + 1 := by
  rw [HandleTable.insert, if_neg (not_le.2 hroom), HandleTable.insertLoop_eq] at hr
  cases hid : HandleTable.search t.Unused 1 HandleTable.insertRounds t.nextId with
  | none =>
    rw [hid] at hr
    cases hr
  | some id =>
    rw [hid] at hr
    cases hr
    exact ⟨id, _, rfl, Std.ExtTreeMap.size_insert_le⟩

/-- **With room for the handles and for their ids, no handle is lost.** -/
theorem triple_installHandles (i : Nat) (hs : List AnyHandle)
    (hids : ∀ j < i + hs.length, ∀ id : HandleId,
      handles.writeBytes env (j * 4) id.toBytes = .ok ()) :
    (installHandles env p handles i hs).Triple
      (fun k => (k.processes p).handles.size + hs.length ≤ numHandlesMax)
      (fun _ _ => True) fun _ => False := by
  induction hs generalizing i with
  | nil => exact triple_pure fun _ _ => trivial
  | cons h hs ih =>
    rw [length_cons] at hids
    refine triple_bind
      (Q := fun _ k => (k.processes p).handles.size + hs.length ≤ numHandlesMax) ?_ fun id => ?_
    · refine triple_state_bind fun k hk => ?_
      rw [length_cons] at hk
      split
      next => exact triple_stop
      next he => obtain ⟨_, _, hr, -⟩ := insert_of_room (by omega) he; cases hr
      next hr =>
        obtain ⟨id, t, heq, hsize⟩ := insert_of_room (by omega) hr
        cases heq
        refine triple_update_pure ?_
        rintro _ rfl
        simp only [setTable, update_self]
        omega
    · rw [hids i (by omega) id]
      exact ih (i + 1) fun j hj => hids j (by omega)

/-- **An accepted message is received**, if the receive ends. -/
theorem triple_tryRecv_of_accepts {entry : MessageEntry}
    (hq : (k.channels c).queue = entry :: rest) (h : Accepts env k p msgbuffer handles entry) :
    (tryRecv env p c msgbuffer handles).Triple (· = k) (fun _ _ => True) fun _ => False := by
  have hpop : (popMessage c).Triple (· = k)
      (fun e k' => k'.processes = k.processes ∧ e = entry) fun _ => False := by
    rintro _ r k' rfl hr
    rw [run_popMessage_cons hq] at hr
    cases hr
    refine ⟨?_, rfl⟩
    rw [popped]
    split
    · exact (emits_notifies.emitterClear).processes
    · rfl
  refine triple_bind hpop fun e => triple_of_fact ?_
  rintro rfl
  refine triple_bind (Q := fun _ _ => True) ?_ fun _ => triple_ite (fun _ => ?_) fun _ => ?_
  · refine (triple_installHandles 0 e.handles ?_).weaken (fun k' hk => ?_) (fun _ _ h => h)
      fun _ h => h
    · rw [Nat.zero_add]
      exact h.ids
    · rw [hk]
      exact h.room
  · exact triple_stop_bind
  · rw [h.data]
    exact triple_update_pure fun _ h => h

/-! ## Closing -/

theorem dropPeer_frame (k : Kernel) (c a : Addr) :
    ((k.dropPeer c).channels a).queue = (k.channels a).queue ∧
      ((k.dropPeer c).channels a).peer = if a = c then none else (k.channels a).peer := by
  by_cases h : a = c
  · subst h
    simp [dropPeer, setChannel]
  · simp [dropPeer, setChannel, h]

/-- **Closing a channel disconnects it and its peer**, and changes no
queue. -/
theorem channelClose_frame (k : Kernel) (c a : Addr) :
    ((k.channelClose c).channels a).queue = (k.channels a).queue ∧
      ((k.channelClose c).channels a).peer =
        if a = c ∨ (k.channels c).peer = some a then none else (k.channels a).peer := by
  rcases hpeer : (k.channels c).peer with _ | peer
  · simp only [channelClose, hpeer, true_and]
    split
    next h => rw [h.resolve_right (some_ne_none a).symm, hpeer]
    next => rfl
  · obtain ⟨hq, hp⟩ := dropPeer_frame k c a
    rcases hback : ((k.dropPeer c).channels peer).peer with _ | back
    · simp only [channelClose, hpeer, hback]
      refine ⟨hq, ?_⟩
      by_cases ha : some peer = some a
      · cases ha
        rw [hback, if_pos (.inr rfl)]
      · simp only [hp, ha, or_false]
    · simp only [channelClose, hpeer, hback, (notifies_emitterSet _ _ _).channels]
      obtain ⟨hq', hp'⟩ := dropPeer_frame (k.dropPeer c) peer a
      refine ⟨hq'.trans hq, ?_⟩
      by_cases ha : some peer = some a
      · cases ha
        rw [hp', if_pos rfl, if_pos (.inr rfl)]
      · have hne : a ≠ peer := fun h => ha (h ▸ rfl)
        simp [hp', if_neg hne, hp, ha]

end Kernel

namespace Pair

open Kernel

variable {ends : End → Addr} {s s' : Pair} {e : End}

/-! ## What a step does to the two ends -/

/-- **The effects of a step**, with the action that has them. -/
inductive Effect (ends : End → Addr) (s s' : Pair) : PairAction → Prop
  /-- Neither end is touched. -/
  | kept (a : PairAction) (alone : ∀ e, LeavesAlone s.kernel s'.kernel (ends e))
      (sent : s'.sent = s.sent) (removed : s'.removed = s.removed) : Effect ends s s' a
  /-- A message sent at an end is put in the queue of its peer. -/
  | sent (env : Env) (e : End) (entry : MessageEntry) (peer : Addr)
      (room : HasRoom env s.kernel (ends e) peer)
      (kernel : s'.kernel = s.kernel.enqueue peer entry)
      (sent : s'.sent = update s.sent e (s.sent e ++ [entry]))
      (removed : s'.removed = s.removed) : Effect ends s s' (.send env e entry)
  /-- A message is taken out of the queue of an end. -/
  | received (a : PairAction) (e : End) (entry : MessageEntry) (rest : List MessageEntry)
      (queue : s.queue ends e = entry :: rest)
      (kernel : Received s.kernel s'.kernel (ends e) rest) (sent : s'.sent = s.sent)
      (removed : s'.removed = update s.removed e (s.removed e ++ [entry])) :
      Effect ends s s' a
  /-- An end is closed. -/
  | closed (e : End) (kernel : s'.kernel = s.kernel.channelClose (ends e))
      (sent : s'.sent = s.sent) (removed : s'.removed = s.removed) : Effect ends s s' (.close e)

variable {a : PairAction}

theorem effect_of_step (h : (machine ends).step s a = some s') : Effect ends s s' a := by
  cases a with
  | send env e entry =>
    by_cases hroom : ∃ peer, HasRoom env s.kernel (ends e) peer
    · obtain ⟨peer, hroom⟩ := hroom
      simp only [machine, run_channelSend_of_hasRoom _ _ _ hroom] at h
      cases h
      exact .sent env e entry peer hroom rfl rfl rfl
    · obtain ⟨x, hx⟩ := run_channelSend_of_not_hasRoom entry.msginfo entry.data entry.handles
        (not_exists.1 hroom)
      simp only [machine, hx] at h
      cases h
      exact .kept _ (fun _ => ⟨rfl, rfl⟩) rfl rfl
  | tryRecv env p e msgbuffer handles =>
    simp only [machine] at h
    split at h
    next r k' hr =>
      cases h
      rcases tryRecv_cases hr with ⟨-, htaken, rfl⟩ | ⟨entry, rest, hq, htaken, hrec⟩
      · refine .kept _ (fun _ => ⟨rfl, rfl⟩) rfl ?_
        simp [htaken]
      · exact .received _ e entry rest hq hrec rfl (by simp only [htaken])
    next => cases h
  | close e =>
    cases h
    exact .closed e rfl rfl rfl
  | elsewhere k =>
    simp only [machine] at h
    split at h
    next hk =>
      cases h
      refine .kept _ (fun e => ?_) rfl rfl
      cases e
      exacts [hk.1, hk.2]
    next => cases h

/-! ## Delivery -/

/-- **The invariant of delivery.** -/
structure Linked (ends : End → Addr) (s : Pair) : Prop where
  /-- What was taken out and what is waiting is what was sent. -/
  conserved : ∀ e, s.sent e.other = s.removed e ++ s.queue ends e
  bounded : ∀ e, (s.queue ends e).length ≤ queueLenMax
  /-- The ends are connected with each other, or both are not. -/
  peers : (∀ e, s.peer ends e = some (ends e.other)) ∨ ∀ e, s.peer ends e = none

/-- A step that moves no message may at most disconnect the ends. -/
theorem Linked.congr (h : Linked ends s) (hq : ∀ e, s'.queue ends e = s.queue ends e)
    (hs : s'.sent = s.sent) (hr : s'.removed = s.removed)
    (hp : (∀ e, s'.peer ends e = s.peer ends e) ∨ ∀ e, s'.peer ends e = none) :
    Linked ends s' where
  conserved := by
    intro e
    rw [hs, hr, hq]
    exact h.conserved e
  bounded := by
    intro e
    rw [hq]
    exact h.bounded e
  peers := by
    rcases hp with hp | hp
    · exact h.peers.imp (fun h e => (hp e).trans (h e)) fun h e => (hp e).trans (h e)
    · exact .inr hp

variable {entry : MessageEntry} {rest : List MessageEntry}

/-- What changes the queue of a channel changes no peer. -/
theorem peer_of_update {c : Addr} {queue : List MessageEntry} {receivers : List Addr}
    (h : s'.kernel.channels = update s.kernel.channels c
      { s.kernel.channels c with queue := queue, receivers := receivers }) :
    s'.peer ends = s.peer ends := by
  funext f
  rw [peer, peer, h]
  by_cases hf : ends f = c
  · rw [hf, update_self]
  · rw [update_of_ne hf]

theorem peer_enqueue (hk : s'.kernel = s.kernel.enqueue (ends e.other) entry) :
    s'.peer ends = s.peer ends :=
  peer_of_update (hk ▸ channels_enqueue ..)

theorem peer_received (hk : Received s.kernel s'.kernel (ends e) rest) :
    s'.peer ends = s.peer ends :=
  peer_of_update (hk.channels.trans (channels_popped ..))

section Step

variable (hne : ends .left ≠ ends .right)
include hne

theorem ends_other_ne (e : End) : ends e.other ≠ ends e := by
  cases e
  exacts [hne.symm, hne]

/-- The queues after a send that reached the other end. -/
theorem queue_enqueue (hk : s'.kernel = s.kernel.enqueue (ends e.other) entry) :
    s'.queue ends e = s.queue ends e ∧ s'.queue ends e.other = s.queue ends e.other ++ [entry] := by
  have hother := ends_other_ne hne e
  constructor
  · rw [queue, hk, channels_enqueue, update_of_ne hother.symm]
    rfl
  · rw [queue, hk, channels_enqueue, update_self]
    rfl

/-- The queues after a message was taken out. -/
theorem queue_received (hk : Received s.kernel s'.kernel (ends e) rest) :
    s'.queue ends e = rest ∧ s'.queue ends e.other = s.queue ends e.other := by
  have hother := ends_other_ne hne e
  constructor
  · rw [queue, hk.channels, channels_popped, update_self]
  · rw [queue, hk.channels, channels_popped, update_of_ne hother]
    rfl

theorem Linked.enqueue (h : Linked ends s) (hroom : (s.queue ends e.other).length < queueLenMax)
    (hk : s'.kernel = s.kernel.enqueue (ends e.other) entry)
    (hs : s'.sent = update s.sent e (s.sent e ++ [entry])) (hr : s'.removed = s.removed) :
    Linked ends s' := by
  obtain ⟨hown, hother⟩ := queue_enqueue hne hk
  refine ⟨fun f => ?_, fun f => ?_, ?_⟩
  · rcases eq_or_eq_other e f with rfl | rfl
    · rw [hs, hr, hown, update_of_ne f.other_ne]
      exact h.conserved f
    · have hconserved := h.conserved e.other
      rw [other_other] at hconserved
      rw [hs, hr, hother, other_other, update_self, hconserved, append_assoc]
  · rcases eq_or_eq_other e f with rfl | rfl
    · rw [hown]
      exact h.bounded f
    · rw [hother, length_append]
      exact hroom
  · rw [peer_enqueue hk]
    exact h.peers

theorem Linked.received (h : Linked ends s)
    (hq : s.queue ends e = entry :: rest) (hk : Received s.kernel s'.kernel (ends e) rest)
    (hs : s'.sent = s.sent) (hr : s'.removed = update s.removed e (s.removed e ++ [entry])) :
    Linked ends s' := by
  obtain ⟨hown, hother⟩ := queue_received hne hk
  refine ⟨fun f => ?_, fun f => ?_, ?_⟩
  · rcases eq_or_eq_other e f with rfl | rfl
    · rw [hs, hr, hown, update_self, append_assoc, h.conserved, hq]
      rfl
    · rw [hs, hr, hother, update_of_ne e.other_ne]
      exact h.conserved e.other
  · rcases eq_or_eq_other e f with rfl | rfl
    · have hbounded := h.bounded f
      rw [hq, length_cons] at hbounded
      rw [hown]
      omega
    · rw [hother]
      exact h.bounded e.other
  · rw [peer_received hk]
    exact h.peers

/-- **Every step keeps the invariant of delivery.** -/
theorem Linked.step (h : Linked ends s)
    (hs : (machine ends).step s a = some s') : Linked ends s' := by
  cases effect_of_step hs with
  | kept _ hends hsent hremoved =>
    exact h.congr (fun e => by rw [queue, (hends e).1]; rfl) hsent hremoved
      (.inl fun e => by rw [peer, (hends e).1]; rfl)
  | sent env e entry peer hroom hk hsent hremoved =>
    rcases h.peers with hpeers | hpeers
    · obtain rfl : ends e.other = peer := some.inj ((hpeers e).symm.trans hroom.1)
      exact h.enqueue hne hroom.2.2 hk hsent hremoved
    · cases (hpeers e).symm.trans hroom.1
  | received _ e entry rest hq hk hsent hremoved => exact h.received hne hq hk hsent hremoved
  | closed e hk hsent hremoved =>
    have hframe := channelClose_frame s.kernel (ends e)
    refine h.congr (fun f => ?_) hsent hremoved (.inr fun f => ?_)
    · rw [queue, hk, (hframe (ends f)).1]
      rfl
    · rw [peer, hk, (hframe (ends f)).2]
      rcases h.peers with hpeers | hpeers
      · -- both ends are disconnected at once
        rw [if_pos]
        rcases eq_or_eq_other e f with rfl | rfl
        exacts [.inl rfl, .inr (hpeers e)]
      · rw [show (s.kernel.channels (ends f)).peer = none from hpeers f, ite_self]

end Step

variable (k : Kernel)

theorem newEnds_ne : newEnds k .left ≠ newEnds k .right :=
  Nat.ne_of_lt (lt_succ_self k.next)

/-- A new pair is connected and empty. -/
theorem channels_start (e : End) : (start k).kernel.channels (newEnds k e) =
      { Channel.new with peer := some (newEnds k e.other) } := by
  cases e <;> simp [start, channelNew, newEnds, setChannel, setEmitter, other]

theorem linked_start : Linked (newEnds k) (start k) where
  conserved := by
    intro e
    rw [queue, channels_start]
    rfl
  bounded := by
    intro e
    rw [queue, channels_start]
    exact zero_le _
  peers := by
    refine .inl fun e => ?_
    rw [peer, channels_start]

theorem linked_of_reach {s : Pair} (h : (machine (newEnds k)).Reach (start k) s) :
    Linked (newEnds k) s :=
  h.invariant (linked_start k) fun hs _ hstep => hs.step (newEnds_ne k) hstep

/-- **A step that drops no message delivers what it takes out.** -/
theorem delivered_step (h : s.delivered = s.removed) (hdrop : DropsNone ends s a)
    (hs : (machine ends).step s a = some s') : s'.delivered = s'.removed := by
  cases a with
  | send env e entry =>
    simp only [machine] at hs
    split at hs <;> cases hs <;> exact h
  | tryRecv env p e msgbuffer handles =>
    simp only [machine] at hs
    split at hs
    next r k' hr =>
      cases hs
      rcases tryRecv_cases hr with ⟨-, htaken, -⟩ | ⟨entry, rest, hq, -, -⟩
      · simp [htaken, h]
      · have haccepts := hdrop entry (by rw [queue, hq]; rfl)
        have hok := triple_tryRecv_of_accepts hq haccepts rfl hr
        cases r with
        | error x => exact hok.elim
        | ok _ => rw [h]; rfl
    next => cases hs
  | close e =>
    cases hs
    exact h
  | elsewhere k =>
    obtain ⟨-, heq⟩ := ite_none_right_eq_some.1 hs
    cases heq
    exact h

/-- **A pair of channels delivers**, in every state reached from its
creation, at both ends; and delivers everything before it tells a
receiver that there is no peer, where no receive fails after it took a
message out. -/
theorem delivers_of_dropsNone {s : Pair} (h : (machine (newEnds k)).Reach (start k) s) (e : End) :
    Delivers (newEnds k) s e ∧
      ((machine (newEnds k)).ReachUnder (DropsNone (newEnds k)) (start k) s →
        DeliversAll (newEnds k) s e) := by
  have hs := linked_of_reach k h
  refine ⟨⟨⟨_, (hs.conserved e).symm⟩, hs.bounded e, fun a ha => ?_, ?_⟩, ?_⟩
  · rcases hs.peers with hp | hp
    · exact some.inj (ha.symm.trans (hp e))
    · cases ha.symm.trans (hp e)
  · rcases hs.peers with hp | hp
    · have hback := hp e.other
      rw [other_other] at hback
      exact ⟨fun _ => hback, fun _ => hp e⟩
    · rw [hp e, hp e.other]
      exact ⟨nofun, nofun⟩
  · intro hdrops k' hrun
    have hempty : s.queue (newEnds k) e = [] := by
      rcases hq : s.queue (newEnds k) e with _ | ⟨entry, rest⟩
      · rfl
      · cases (run_popMessage_cons hq).symm.trans hrun
    have hdelivered : s.delivered = s.removed :=
      hdrops.invariant (I := fun s => s.delivered = s.removed) rfl delivered_step
    rw [hdelivered, hs.conserved e, hempty, append_nil]

/-! ## Readiness -/

variable (r : Readiness)

theorem readable_or : (r ||| .readable) &&& .readable ≠ 0 := by
  revert r
  decide +kernel

theorem readable_or_writable : (r ||| .writable) &&& .readable = r &&& .readable := by
  revert r
  decide +kernel

theorem writable_or : (r ||| .writable) &&& .writable ≠ 0 := by
  revert r
  decide +kernel

theorem writable_or_readable : (r ||| .readable) &&& .writable = r &&& .writable := by
  revert r
  decide +kernel

theorem readable_clear : (r &&& ~~~.readable) &&& .readable = 0 := by
  revert r
  decide +kernel

theorem writable_clear : (r &&& ~~~.writable) &&& .writable = 0 := by
  revert r
  decide +kernel

theorem writable_clear_readable : (r &&& ~~~.readable) &&& .writable = r &&& .writable := by
  revert r
  decide +kernel

/-- **The invariant of readiness** while no queue was ever full: both ends
are connected and writable. -/
structure Roomy (ends : End → Addr) (s : Pair) : Prop where
  peers : ∀ e, s.peer ends e = some (ends e.other)
  room : ∀ e, (s.queue ends e).length < queueLenMax
  readable : ∀ e, s.latest ends e &&& readable ≠ 0 ↔ s.queue ends e ≠ []
  writable : ∀ e, s.latest ends e &&& writable ≠ 0

theorem Roomy.ready (h : Roomy ends s) (e : End) : Ready ends s e where
  readable := h.readable e
  writable := ⟨fun _ => h.room e.other, fun _ => h.writable e⟩

theorem roomy_start : Roomy (newEnds k) (start k) := by
  have hlatest : ∀ e, (start k).latest (newEnds k) e = writable := by
    intro e
    cases e <;> simp [latest, start, channelNew, newEnds, setChannel, setEmitter, Emitter.new]
  have hqueue : ∀ e, (start k).queue (newEnds k) e = [] := by
    intro e
    rw [queue, channels_start]
    rfl
  refine ⟨fun e => ?_, fun e => ?_, fun e => ?_, fun e => ?_⟩
  · rw [peer, channels_start]
  · rw [hqueue]
    decide
  · rw [hqueue, hlatest]
    decide
  · rw [hlatest]
    decide

section Step

variable (hne : ends .left ≠ ends .right)
include hne

/-- The readiness after a send that reached the other end. -/
theorem latest_enqueue_ends (hk : s'.kernel = s.kernel.enqueue (ends e.other) entry) :
    s'.latest ends e = s.latest ends e ∧
      s'.latest ends e.other = latestAfterSend s.kernel (ends e.other) := by
  have hother := ends_other_ne hne e
  constructor
  · rw [latest, hk, latest_enqueue, if_neg hother.symm]
    rfl
  · rw [latest, hk, latest_enqueue, if_pos rfl]

theorem Roomy.enqueue (h : Roomy ends s) (hroom : (s.queue ends e.other).length + 1 < queueLenMax)
    (hk : s'.kernel = s.kernel.enqueue (ends e.other) entry) : Roomy ends s' := by
  obtain ⟨hown, hother⟩ := queue_enqueue hne hk
  obtain ⟨hlown, hlother⟩ := latest_enqueue_ends hne hk
  have hlen : (s.kernel.channels (ends e.other)).queue.length + 1 ≠ queueLenMax :=
    Nat.ne_of_lt hroom
  rw [latestAfterSend, if_neg hlen] at hlother
  refine ⟨fun f => ?_, fun f => ?_, fun f => ?_, fun f => ?_⟩
  · rw [peer_enqueue hk, h.peers]
  all_goals rcases eq_or_eq_other e f with rfl | rfl
  · rw [hown]
    exact h.room f
  · rw [hother, length_append]
    exact hroom
  · rw [hown, hlown]
    exact h.readable f
  · rw [hother, hlother]
    exact ⟨fun _ => append_ne_nil_of_right_ne_nil _ nofun, fun _ => readable_or _⟩
  · rw [hlown]
    exact h.writable f
  · rw [hlother, writable_or_readable]
    exact h.writable e.other

theorem Roomy.received (h : Roomy ends s)
    (hq : s.queue ends e = entry :: rest) (hk : Received s.kernel s'.kernel (ends e) rest) :
    Roomy ends s' := by
  obtain ⟨hown, hother⟩ := queue_received hne hk
  have hlother : s'.latest ends e.other = s.latest ends e.other :=
    hk.others _ (ends_other_ne hne e)
  have hreadable : s.latest ends e &&& .readable ≠ 0 := by
    rw [h.readable e, hq]
    exact nofun
  -- the bits are those left by the first block, or these with `WRITABLE`
  have hpop : latestAfterPop s.kernel (ends e) rest &&& .readable ≠ 0 ↔ rest ≠ [] := by
    rw [latestAfterPop]
    cases rest with
    | nil =>
      rw [if_pos isEmpty_nil, readable_clear]
      exact ⟨fun h => absurd rfl h, fun h => absurd rfl h⟩
    | cons x rest => exact ⟨nofun, fun _ => hreadable⟩
  have hpop' : latestAfterPop s.kernel (ends e) rest &&& .writable ≠ 0 := by
    rw [latestAfterPop]
    split
    · rw [writable_clear_readable]
      exact h.writable e
    · exact h.writable e
  refine ⟨fun f => ?_, fun f => ?_, fun f => ?_, fun f => ?_⟩
  · rw [peer_received hk, h.peers]
  all_goals rcases eq_or_eq_other e f with rfl | rfl
  · have hroom := h.room f
    rw [hq, length_cons] at hroom
    rw [hown]
    omega
  · rw [hother]
    exact h.room e.other
  · rw [hown, latest]
    rcases hk.own with hl | hl
    · rw [hl, hpop]
    · rw [hl, readable_or_writable, hpop]
  · rw [hother, hlother]
    exact h.readable e.other
  · rw [latest]
    rcases hk.own with hl | hl
    · rwa [hl]
    · rw [hl]
      exact writable_or _
  · rw [hlother]
    exact h.writable e.other

/-- **Every step that fills no queue keeps the invariant of readiness.** -/
theorem Roomy.step (h : Roomy ends s) (hopen : StaysOpen a)
    (hfill : FillsNone ends s a) (hs : (machine ends).step s a = some s') : Roomy ends s' := by
  cases effect_of_step hs with
  | kept _ hends _ _ =>
    have hq : ∀ e, s'.queue ends e = s.queue ends e := fun e => by rw [queue, (hends e).1]; rfl
    have hl : ∀ e, s'.latest ends e = s.latest ends e := fun e => (hends e).2
    refine ⟨fun e => ?_, fun e => ?_, fun e => ?_, fun e => ?_⟩
    · rw [peer, (hends e).1]
      exact h.peers e
    · rw [hq]
      exact h.room e
    · rw [hq, hl]
      exact h.readable e
    · rw [hl]
      exact h.writable e
  | sent env e entry peer hroom hk _ _ =>
    obtain rfl : ends e.other = peer := some.inj ((h.peers e).symm.trans hroom.1)
    exact h.enqueue hne (hfill _ hroom) hk
  | received _ e entry rest hq hk _ _ => exact h.received hne hq hk
  | closed e _ _ _ => exact hopen.elim

/-- **A send that fills the queue of the peer makes the peer claim that
it cannot send.** -/
theorem Roomy.not_ready_of_fills (h : Roomy ends s)
    (hfill : ¬ FillsNone ends s a) (hs : (machine ends).step s a = some s') :
    ∃ e, ¬ Ready ends s' e := by
  cases a with
  | send env e entry =>
    obtain ⟨peer, hroom, hfull⟩ : ∃ peer, HasRoom env s.kernel (ends e) peer ∧
        ¬ (s.kernel.channels peer).queue.length + 1 < queueLenMax := by
      simpa [FillsNone] using hfill
    obtain rfl : ends e.other = peer := some.inj ((h.peers e).symm.trans hroom.1)
    simp only [machine, run_channelSend_of_hasRoom _ _ _ hroom] at hs
    have hk : s'.kernel = s.kernel.enqueue (ends e.other) entry := by
      cases hs
      rfl
    have hlt := hroom.2.2
    have hlen : (s.kernel.channels (ends e.other)).queue.length + 1 = queueLenMax := by omega
    refine ⟨e.other, fun hready => ?_⟩
    obtain ⟨hown, -⟩ := queue_enqueue hne hk
    obtain ⟨-, hlatest⟩ := latest_enqueue_ends hne hk
    have hwritable := hready.writable
    rw [hlatest, latestAfterSend, if_pos hlen, writable_clear, other_other, hown] at hwritable
    exact hwritable.2 (h.room e) rfl
  | tryRecv => exact absurd trivial hfill
  | close => exact absurd trivial hfill
  | elsewhere => exact absurd trivial hfill

end Step

/-- **When the readiness of both ends tells the truth**: in every state
reached by sends and receives none of which fills a queue; and a next
step keeps it true exactly when it fills none either. -/
theorem ready_iff_fillsNone {s : Pair} (h : (machine (newEnds k)).ReachUnder
      (fun s a => StaysOpen a ∧ FillsNone (newEnds k) s a) (start k) s) :
    (∀ e, Ready (newEnds k) s e) ∧ ∀ a s', StaysOpen a → (machine (newEnds k)).step s a = some s' →
        ((∀ e, Ready (newEnds k) s' e) ↔ FillsNone (newEnds k) s a) := by
  have hs : Roomy (newEnds k) s :=
    h.invariant (roomy_start k) fun hs hok hstep => hs.step (newEnds_ne k) hok.1 hok.2 hstep
  refine ⟨hs.ready, fun a s' hopen hstep => ⟨fun hready => ?_, fun hfill => ?_⟩⟩
  · by_contra hfill
    obtain ⟨e, he⟩ := hs.not_ready_of_fills (newEnds_ne k) hfill hstep
    exact he (hready e)
  · exact (hs.step (newEnds_ne k) hopen hfill hstep).ready

/-! ## Runs -/

/-- User memory that can be read and written everywhere. -/
def plainEnv : Env where
  readBytes := fun _ len => .ok (Vector.replicate len 0)
  writeBytes := fun _ _ => .ok ()
  tryReserve := true

/-- A message without data and handles. -/
def emptyMessage : MessageEntry where
  msginfo := 0
  data := []
  handles := []

/-- A receive of the first process at an end, into a buffer at an
address. -/
def receiveAt (e : End) (ptr : Nat) : PairAction :=
  .tryRecv plainEnv 0 e ⟨ptr, messageDataLenMax⟩ ⟨0, 4 * messageNumHandlesMax⟩

/-- A message of one byte. -/
def byteMessage : MessageEntry where
  msginfo := 1
  data := [7]
  handles := []

/-- A message pending when the peer closes is delivered. -/
theorem delivers_after_close :
    ∃ s, (machine (newEnds bare)).ReachUnder (DropsNone (newEnds bare)) (start bare) s ∧
      (s.delivered .right = [byteMessage] ∧ s.peer (newEnds bare) .right = none) ∧
      Delivers (newEnds bare) s .right ∧ DeliversAll (newEnds bare) s .right := by
  obtain ⟨s, hs, ht⟩ : ∃ s,
      (machine (newEnds bare)).ReachUnder (DropsNone (newEnds bare)) (start bare) s ∧
        s.delivered .right = [byteMessage] ∧ s.peer (newEnds bare) .right = none := by
    refine ⟨_, .tail (a := receiveAt .right 0) (.tail (a := .close .left)
      (.tail (a := .send plainEnv .left byteMessage) .refl trivial rfl) trivial rfl)
      (fun entry hentry => ?_) rfl, rfl, rfl⟩
    cases hentry
    exact ⟨by decide, nofun, rfl⟩
  have hdelivers := delivers_of_dropsNone bare hs.reach .right
  exact ⟨s, hs, ht, hdelivers.1, hdelivers.2 hs⟩

/-- **A message that is lost.** The left end sends a byte and is closed.
The first receive at the right end fails, for its buffer ends beyond the
address space, and the second is told that there is no peer. -/
theorem not_deliversAll_of_failed_receive :
    ∃ s, (machine (newEnds bare)).Reach (start bare) s ∧ s.sent .left = [byteMessage] ∧
      s.delivered .right = [] ∧ ¬ DeliversAll (newEnds bare) s .right := by
  obtain ⟨s, hs, hsent, hdelivered, hqueue, hpeer⟩ : ∃ s,
      (machine (newEnds bare)).Reach (start bare) s ∧ s.sent .left = [byteMessage] ∧
        s.delivered .right = [] ∧ s.queue (newEnds bare) .right = [] ∧
        s.peer (newEnds bare) .right = none :=
    Machine.exists_reachUnder [.send plainEnv .left byteMessage, .close .left,
      receiveAt .right (usizeLimit - 1)] (by decide +kernel)
  refine ⟨s, hs, hsent, hdelivered, fun hall => ?_⟩
  have hrun := run_popMessage_nil hqueue
  rw [show (s.kernel.channels (newEnds bare .right)).peer = none from hpeer] at hrun
  have heq := hall _ hrun
  rw [hdelivered, other, hsent] at heq
  cases heq

/-- One message sent and not received yet. -/
theorem ready_of_one_message : ∃ s, (machine (newEnds bare)).ReachUnder
        (fun s a => StaysOpen a ∧ FillsNone (newEnds bare) s a) (start bare) s ∧
      s.queue (newEnds bare) .right = [emptyMessage] ∧ ∀ e, Ready (newEnds bare) s e := by
  obtain ⟨s, hs, ht⟩ : ∃ s, (machine (newEnds bare)).ReachUnder
      (fun s a => StaysOpen a ∧ FillsNone (newEnds bare) s a) (start bare) s ∧
        s.queue (newEnds bare) .right = [emptyMessage] :=
    Machine.exists_reachUnder [.send plainEnv .left emptyMessage] (by decide +kernel)
  exact ⟨s, hs, ht, (ready_iff_fillsNone bare hs).1⟩

/-- **A full queue.** After 32 messages from the left end, the left end is
writable though a send would be refused, and the right end is not though
a send would not. -/
theorem not_ready_of_full_queue :
    ∃ s, (machine (newEnds bare)).ReachUnder (fun _ a => StaysOpen a) (start bare) s ∧
      (∀ e, ¬ Ready (newEnds bare) s e) ∧ s.latest (newEnds bare) .left = writable ∧
      s.latest (newEnds bare) .right = readable ∧
      (s.queue (newEnds bare) .right).length = queueLenMax ∧ s.queue (newEnds bare) .left = [] := by
  obtain ⟨s, hs, hleft, hright, hlen, hnil⟩ : ∃ s,
      (machine (newEnds bare)).ReachUnder (fun _ a => StaysOpen a) (start bare) s ∧
        s.latest (newEnds bare) .left = .writable ∧ s.latest (newEnds bare) .right = .readable ∧
        (s.queue (newEnds bare) .right).length = queueLenMax ∧ s.queue (newEnds bare) .left = [] :=
    Machine.exists_reachUnder (.replicate 32 (.send plainEnv .left emptyMessage))
      (by decide +kernel)
  refine ⟨s, hs, fun e hready => ?_, hleft, hright, hlen, hnil⟩
  have hwritable := hready.writable
  cases e with
  | left =>
    rw [hleft, other, hlen] at hwritable
    exact absurd (hwritable.1 (by decide)) (Nat.lt_irrefl _)
  | right =>
    rw [hright, other, hnil] at hwritable
    exact hwritable.2 (by decide) (by decide)

end Pair

end Archives.Ftl
