import Archives.Common.Except
import Archives.Ftl.Basic
/-!
# FTL — sending a message is all or nothing, when it is

`sys_channel_send` checks the listed handles in one loop, takes them out
of the table in a second, and only then looks at the peer. A refusal
after the second loop loses the handles, and an id listed twice makes
the second loop panic. `sendAtomic_iff` says when neither happens.
-/

namespace Archives.Ftl.Kernel

open List Call Except

variable {env : Env} {k : Kernel} {p c : Addr} {ids : List HandleId}

/-! ## The first loop -/

theorem tryPush_of_lt {α : Type} {xs : List α} {x : α} (h : xs.length < messageNumHandlesMax) :
    tryPush xs x = pure (xs ++ [x]) := by
  simp [tryPush, h]

/-- The array is read when its first id and the others are. -/
theorem listedIds_succ {handles : IsolationSlice} {n i : Nat} :
    listedIds env handles (n + 1) i = .ok ids ↔ ∃ id, handles.readHandleId env (i * 4) = .ok id ∧
        ∃ rest, listedIds env handles n (i + 1) = .ok rest ∧ id :: rest = ids := by
  simp only [listedIds, bind_eq_ok, pure_eq_ok]

theorem length_listedIds {handles : IsolationSlice} {n i : Nat}
    (h : listedIds env handles n i = .ok ids) : ids.length = n := by
  induction n generalizing i ids with
  | zero =>
    simp only [listedIds, ok.injEq] at h
    simp [← h]
  | succ n ih =>
    obtain ⟨id, -, rest, hrest, rfl⟩ := listedIds_succ.1 h
    simp [ih hrest]

/-- **The first loop changes nothing.** It ends with the listed ids when
they can be read and name movable handles, and with an error if not. -/
theorem run_checkHandles (env : Env) (table : HandleTable) (handles : IsolationSlice)
    (k : Kernel) (n i : Nat) (ids : List HandleId) (h : ids.length + n ≤ messageNumHandlesMax) :
    ∃ r, (checkHandles env table handles n i ids).run k = .ok (r, k) ∧
      ∀ all, r = .ok all ↔ ∃ new, listedIds env handles n i = .ok new ∧
        (∀ id ∈ new, table.isMovable id = true) ∧ ids ++ new = all := by
  induction n generalizing i ids with
  | zero =>
    refine ⟨.ok ids, rfl, fun all => ?_⟩
    constructor
    · rintro ⟨rfl⟩
      exact ⟨[], rfl, by simp, by simp⟩
    · rintro ⟨new, hnew, -, rfl⟩
      simp only [listedIds, ok.injEq] at hnew
      simp [← hnew]
  | succ n ih =>
    rcases hid : handles.readHandleId env (i * 4) with e | id
    · refine ⟨.error e, by simp [checkHandles, run_bind, hid], fun all => ?_⟩
      simp [listedIds_succ, hid]
    have hpush : tryPush ids id = pure (ids ++ [id]) := tryPush_of_lt (by omega)
    by_cases hm : table.isMovable id = true
    · obtain ⟨r, hr, hall⟩ := ih (i + 1) (ids ++ [id]) (by simp; omega)
      refine ⟨r, by simp [checkHandles, run_bind, hid, hpush, hm, hr], fun all => ?_⟩
      rw [hall]
      constructor
      · rintro ⟨new, hnew, hmov, rfl⟩
        exact ⟨id :: new, listedIds_succ.2 ⟨id, hid, new, hnew, rfl⟩, by simpa [hm] using hmov,
          by simp⟩
      · rintro ⟨new, hnew, hmov, rfl⟩
        obtain ⟨id', hid', rest, hrest, rfl⟩ := listedIds_succ.1 hnew
        obtain rfl : id = id' := by simpa [hid] using hid'
        exact ⟨rest, hrest, fun id h => hmov id (mem_cons_of_mem _ h), by simp⟩
    · refine ⟨.error .handleNotMovable, by simp [checkHandles, run_bind, hid, hpush, hm],
        fun all => ?_⟩
      simp only [reduceCtorEq, false_iff, not_exists, not_and]
      intro new hnew hmov
      obtain ⟨id', hid', rest, -, rfl⟩ := listedIds_succ.1 hnew
      obtain rfl : id = id' := by simpa [hid] using hid'
      exact absurd (hmov id mem_cons_self) hm

/-! ## The second loop -/

/-- The table without the handles of some ids. -/
def eraseAll (table : HandleTable) (ids : List HandleId) : HandleTable :=
  { table with handles := ids.foldl (·.erase ·) table.handles }

@[simp] theorem eraseAll_nil (table : HandleTable) : eraseAll table [] = table := rfl

theorem getElem?_eraseAll (table : HandleTable) (ids : List HandleId) (id : HandleId) :
    (eraseAll table ids).handles[id]? = if id ∈ ids then none else table.handles[id]? := by
  unfold eraseAll
  induction ids generalizing table with
  | nil => simp
  | cons i ids ih =>
    have := ih { table with handles := table.handles.erase i }
    simp only [foldl_cons, mem_cons] at this ⊢
    rw [this, Std.ExtTreeMap.getElem?_erase]
    by_cases h : id ∈ ids
    · simp [h]
    · by_cases hi : id = i
      · simp [hi]
      · simp [h, hi, Ne.symm hi]

/-- One round of the second loop. -/
theorem run_takeHandles_cons {id : HandleId} {h : AnyHandle} {moved : List AnyHandle}
    (hid : (k.processes p).handles[id]? = some h) (hlen : moved.length < messageNumHandlesMax) :
    (takeHandles p (id :: ids) moved).run k =
      (takeHandles p ids (moved ++ [h])).run (k.setTable p (eraseAll (k.processes p) [id])) := by
  simp [takeHandles, run_bind, HandleTable.take, hid, tryPush_of_lt hlen, eraseAll]

/-- **The second loop takes what is listed**, when no id is listed
twice. -/
theorem run_takeHandles_of_nodup (p : Addr) (ids : List HandleId) (moved : List AnyHandle)
    (k : Kernel) (hmem : ∀ id ∈ ids, ∃ h, (k.processes p).handles[id]? = some h)
    (hnd : ids.Nodup) (hlen : moved.length + ids.length ≤ messageNumHandlesMax) :
    ∃ hs, (takeHandles p ids moved).run k =
        .ok (.ok (moved ++ hs), k.setTable p (eraseAll (k.processes p) ids)) ∧
      hs.map some = ids.map fun id => (k.processes p).handles[id]? := by
  induction ids generalizing moved k with
  | nil => exact ⟨[], by simp [takeHandles], rfl⟩
  | cons id ids ih =>
    obtain ⟨h, hid⟩ := hmem id mem_cons_self
    obtain ⟨hnot, hnd⟩ := nodup_cons.1 hnd
    simp only [length_cons] at hlen
    -- the other ids are still there after the first is gone
    have hrest : ∀ i ∈ ids, (eraseAll (k.processes p) [id]).handles[i]? =
        (k.processes p).handles[i]? := by
      intro i hi
      rw [getElem?_eraseAll, if_neg]
      rintro h
      exact hnot (mem_singleton.1 h ▸ hi)
    obtain ⟨hs, hrun, hhs⟩ := ih (moved ++ [h]) (k.setTable p (eraseAll (k.processes p) [id]))
      (fun i hi => by
        rw [processes_setTable_self, hrest i hi]
        exact hmem i (mem_cons_of_mem _ hi)) hnd (by simp; omega)
    refine ⟨h :: hs, ?_, ?_⟩
    · rw [run_takeHandles_cons hid (by omega), hrun]
      simp [eraseAll]
    · rw [map_cons, map_cons, hhs, hid, processes_setTable_self]
      exact congrArg _ (map_congr_left hrest)

/-- **An id listed twice panics**: the second time it is not in the
table any more. -/
theorem run_takeHandles_of_not_nodup (p : Addr) (ids : List HandleId) (moved : List AnyHandle)
    (k : Kernel) (hdup : ¬ ids.Nodup ∨ ∃ id ∈ ids, (k.processes p).handles[id]? = none)
    (hlen : moved.length + ids.length ≤ messageNumHandlesMax) :
    (takeHandles p ids moved).run k = .error .panic := by
  induction ids generalizing moved k with
  | nil => simp at hdup
  | cons id ids ih =>
    simp only [length_cons] at hlen
    rcases hid : (k.processes p).handles[id]? with _ | h
    · simp [takeHandles, run_bind, HandleTable.take, hid]
    rw [run_takeHandles_cons hid (by omega)]
    refine ih _ _ ?_ (by simp; omega)
    simp only [processes_setTable_self, getElem?_eraseAll, mem_singleton]
    by_cases hin : id ∈ ids
    · exact .inr ⟨id, hin, by simp⟩
    · rcases hdup with hdup | ⟨i, hi, hnone⟩
      · exact .inl fun hnd => hdup (nodup_cons.2 ⟨hin, hnd⟩)
      · rcases mem_cons.1 hi with rfl | hi
        · simp [hid] at hnone
        · exact .inr ⟨i, hi, by simp [hnone]⟩

/-! ## Queueing at the peer -/

/-- Queueing a message touches the queue of the peer and no handle
table. -/
theorem enqueue_frame (k : Kernel) (peer : Addr) (entry : MessageEntry) :
    (k.enqueue peer entry).processes = k.processes ∧
      ∀ q, ((k.enqueue peer entry).channels q).queue =
        if q = peer then (k.channels q).queue ++ [entry] else (k.channels q).queue := by
  have hn := notifies_enqueue k peer entry
  refine ⟨hn.processes, fun q => ?_⟩
  rw [hn.channels]
  by_cases hq : q = peer
  · subst hq
    simp [setChannel]
  · simp [setChannel, hq]

variable {data : List UInt8} {peer : Addr}

theorem run_channelSend_of_hasRoom (info : MessageInfo) (data : List UInt8)
    (hs : List AnyHandle) (h : HasRoom env k c peer) : (channelSend env c info data hs).run k =
      .ok (.ok (), k.enqueue peer { msginfo := info, data := data, handles := hs }) := by
  obtain ⟨hpeer, hres, hlen⟩ := h
  simp [channelSend, run_bind, hpeer, hres, Nat.not_le.2 hlen]

theorem run_channelSend_of_not_hasRoom (info : MessageInfo) (data : List UInt8)
    (hs : List AnyHandle) (h : ∀ peer, ¬ HasRoom env k c peer) :
    ∃ e, (channelSend env c info data hs).run k = .ok (.error e, k) := by
  rcases hpeer : (k.channels c).peer with _ | peer
  · exact ⟨.noPeer, by simp [channelSend, run_bind, hpeer]⟩
  by_cases hres : env.tryReserve = true
  · have hlen : queueLenMax ≤ (k.channels peer).queue.length := by
      by_contra hlt
      exact h peer ⟨hpeer, hres, by omega⟩
    exact ⟨.backpressure, by simp [channelSend, run_bind, hpeer, hres, hlen]⟩
  · exact ⟨.outOfMemory, by simp [channelSend, run_bind, hpeer, hres]⟩

/-! ## The whole call -/

theorem numHandles_le (m : MessageInfo) : m.numHandles ≤ messageNumHandlesMax := by
  have : m.numHandles ≤ 3 := by
    exact Nat.and_le_right
  exact Nat.le_trans this (by decide)

variable {a0 a1 a2 a3 : Nat}

theorem fromUsize_of_lt (h : a0 < 0x80000000) : HandleId.fromUsize a0 = .ok a0 := if_pos h

theorem fromUsize_of_not_lt (h : ¬ a0 < 0x80000000) :
    HandleId.fromUsize a0 = .error .invalidArgument := if_neg h

/-- A call that does not pass the checks fails and leaves the state as
it is. -/
theorem run_sysChannelSend_of_not_admitted (h : ∀ c ids, ¬ Admitted env k a0 a1 a2 a3 c ids) :
    ∃ e, (sysChannelSend env a0 a1 a2 a3).run k = .ok (.error e, k) := by
  by_cases ha0 : a0 < 0x80000000
  swap
  · exact ⟨.invalidArgument, by simp [sysChannelSend, run_bind, fromUsize_of_not_lt ha0]⟩
  have hid := fromUsize_of_lt ha0
  rcases hc : k.table.get Object.asChannel HandleRight.write a0 with e | c
  · exact ⟨e, by simp [sysChannelSend, run_bind, hid, hc]⟩
  by_cases hlen : (MessageInfo.fromRaw a1).dataLen ≤ messageDataLenMax
  swap
  · exact ⟨.tooLarge, by
      simp [sysChannelSend, sendFromUser, run_bind, hid, hc, Nat.lt_of_not_le hlen]⟩
  rcases hdata : messageData env a1 a2 with e | data
  · exact ⟨e, by
      simp only [messageData] at hdata
      simp [sysChannelSend, sendFromUser, run_bind, hid, hc, Nat.not_lt.2 hlen, hdata]⟩
  obtain ⟨r, hr, hall⟩ := run_checkHandles env (k.processes k.process)
    { ptr := a3, len := 4 * (MessageInfo.fromRaw a1).numHandles } k
    (MessageInfo.fromRaw a1).numHandles 0 [] (by simpa using numHandles_le _)
  rcases r with e | ids
  · exact ⟨e, by
      simp only [messageData] at hdata
      simp [sysChannelSend, sendFromUser, run_bind, hid, hc, Nat.not_lt.2 hlen, hdata, hr]⟩
  · obtain ⟨ids', hids, hmov, -⟩ := (hall ids).1 rfl
    exact absurd ⟨ha0, hc, hlen, ⟨data, hdata⟩, hids, hmov⟩ (h c ids')

section

variable (h : Admitted env k a0 a1 a2 a3 c ids)

include h

/-- A call that passes the checks goes on to take the handles, and then
to the peer. -/
theorem run_sysChannelSend_of_admitted (hdata : messageData env a1 a2 = .ok data) :
    (sysChannelSend env a0 a1 a2 a3).run k =
      ((takeHandles k.process ids [] >>= channelSend env c (.fromRaw a1) data) >>=
        fun _ => (pure 0 : Sys Nat)).run k := by
  obtain ⟨r, hr, hall⟩ := run_checkHandles env (k.processes k.process)
    { ptr := a3, len := 4 * (MessageInfo.fromRaw a1).numHandles } k
    (MessageInfo.fromRaw a1).numHandles 0 [] (by simpa using numHandles_le _)
  obtain rfl : r = .ok ids := (hall ids).2 ⟨ids, h.idsRead, h.movable, rfl⟩
  have hid := fromUsize_of_lt h.channelId
  simp only [messageData] at hdata
  simp [sysChannelSend, sendFromUser, run_bind, hid, h.channel, Nat.not_lt.2 h.dataLen, hdata, hr]

/-- The checks determine the channel and the ids. -/
theorem Admitted.unique {c' : Addr} {ids' : List HandleId} (h' : Admitted env k a0 a1 a2 a3 c' ids') :
    c' = c ∧ ids' = ids := by
  have hc := h.channel.symm.trans h'.channel
  have hids := h.idsRead.symm.trans h'.idsRead
  simp only [ok.injEq] at hc hids
  exact ⟨hc.symm, hids.symm⟩

omit h in
theorem exists_of_isMovable {table : HandleTable} {id : HandleId}
    (h : table.isMovable id = true) : ∃ handle, table.handles[id]? = some handle := by
  rcases hid : table.handles[id]? with _ | handle
  · simp [HandleTable.isMovable, hid] at h
  · exact ⟨handle, rfl⟩

theorem Admitted.present :
    ∀ id ∈ ids, ∃ handle, (k.processes k.process).handles[id]? = some handle :=
  fun id hid => exists_of_isMovable (h.movable id hid)

theorem Admitted.length_le : ([] : List AnyHandle).length + ids.length ≤ messageNumHandlesMax := by
  rw [length_listedIds h.idsRead]
  simpa using numHandles_le _

/-- Where an id is listed twice the call panics. -/
theorem run_sysChannelSend_of_not_nodup (hdup : ¬ ids.Nodup) :
    (sysChannelSend env a0 a1 a2 a3).run k = .error .panic := by
  obtain ⟨data, hdata⟩ := h.data
  rw [run_sysChannelSend_of_admitted h hdata]
  simp [run_bind, run_takeHandles_of_not_nodup _ _ _ _ (.inl hdup) h.length_le]

/-- Where no id is listed twice the call takes the handles out of the
table and goes to the peer with them. -/
theorem run_sysChannelSend_of_nodup (hnd : ids.Nodup) (hdata : messageData env a1 a2 = .ok data) :
    ∃ hs, (sysChannelSend env a0 a1 a2 a3).run k =
        (channelSend env c (.fromRaw a1) data hs >>= fun _ => pure 0).run
          (k.setTable k.process (eraseAll k.table ids)) ∧
      hs.map some = ids.map fun id => k.table.handles[id]? := by
  obtain ⟨hs, hrun, hhs⟩ := run_takeHandles_of_nodup k.process ids [] k h.present hnd h.length_le
  refine ⟨hs, ?_, hhs⟩
  rw [run_sysChannelSend_of_admitted h hdata]
  simp only [run_bind, hrun, nil_append]
  rfl

end

/-- Between the checks and a refusal by the peer nothing moved only if
no handle was listed. -/
theorem nothingMoved_eraseAll_iff
    (h : ∀ id ∈ ids, ∃ handle, (k.processes k.process).handles[id]? = some handle) :
    NothingMoved k (k.setTable k.process (eraseAll k.table ids)) ↔ ids = [] := by
  constructor
  · intro hsame
    refine eq_nil_iff_forall_not_mem.2 fun id hid => ?_
    obtain ⟨handle, hh⟩ := h id hid
    have hget := getElem?_eraseAll k.table ids id
    rw [← processes_setTable_self k k.process (eraseAll k.table ids), hsame.table,
      if_pos hid] at hget
    exact absurd (hh.symm.trans hget) (by simp)
  · rintro rfl
    exact ⟨by simp, fun q => rfl⟩

/-- **When `sys_channel_send` is all or nothing.** Exactly when a call
that passes its checks lists no handle, or lists no id twice and reaches
a connected peer with room for the message. -/
theorem sendAtomic_iff (env : Env) (k : Kernel) (a0 a1 a2 a3 : Nat) :
    SendAtomic env k a0 a1 a2 a3 ↔ SendSafe env k a0 a1 a2 a3 := by
  by_cases hadm : ∃ c ids, Admitted env k a0 a1 a2 a3 c ids
  swap
  · -- refused by a check: nothing has happened yet
    have hnot : ∀ c ids, ¬ Admitted env k a0 a1 a2 a3 c ids := fun c ids h => hadm ⟨c, ids, h⟩
    obtain ⟨e, he⟩ := run_sysChannelSend_of_not_admitted hnot
    simp only [SendAtomic, he]
    exact ⟨fun _ c ids h => absurd h (hnot c ids), fun _ => ⟨rfl, fun _ => rfl⟩⟩
  obtain ⟨c, ids, h⟩ := hadm
  have hsafe : SendSafe env k a0 a1 a2 a3 ↔ ids = [] ∨ ids.Nodup ∧ ∃ peer, HasRoom env k c peer := by
    refine ⟨fun hs => hs c ids h, fun hs c' ids' h' => ?_⟩
    obtain ⟨rfl, rfl⟩ := h.unique h'
    exact hs
  rw [hsafe]
  by_cases hnd : ids.Nodup
  swap
  · simp only [SendAtomic, run_sysChannelSend_of_not_nodup h hnd, hnd, false_and, or_false,
      false_iff]
    rintro rfl
    exact hnd nodup_nil
  obtain ⟨data, hdata⟩ := h.data
  obtain ⟨hs, hrun, hhs⟩ := run_sysChannelSend_of_nodup h hnd hdata
  by_cases hroom : ∃ peer, HasRoom env k c peer
  · obtain ⟨peer, hroom⟩ := hroom
    have hsent := run_channelSend_of_hasRoom (k := k.setTable k.process (eraseAll k.table ids))
      (.fromRaw a1) data hs hroom
    simp only [run_bind, hsent, run_pure] at hrun
    simp only [SendAtomic, hrun]
    refine iff_of_true ⟨c, ids, data, hs, h.channel, h.idsRead, hdata, ?_, hhs, ?_⟩
      (.inr ⟨hnd, peer, hroom⟩)
    · exact ⟨peer, hroom.1, (enqueue_frame _ peer _).2⟩
    · intro id
      rw [(enqueue_frame _ peer _).1, processes_setTable_self]
      exact getElem?_eraseAll k.table ids id
  · obtain ⟨e, he⟩ := run_channelSend_of_not_hasRoom
      (k := k.setTable k.process (eraseAll k.table ids)) (.fromRaw a1) data hs
      fun peer hp => hroom ⟨peer, hp⟩
    simp only [run_bind, he] at hrun
    simp only [SendAtomic, hrun, hroom, and_false, or_false]
    exact nothingMoved_eraseAll_iff h.present

/-! ## An id listed twice -/

/-- A process with two pairs of channels: handle 1 for one end of the
first, handle 2 for one end of the second. -/
def twoChannels : Kernel where
  next := 6
  threads := fun _ => { process := 1, state := .runnable }
  processes := fun _ =>
    { handles := (∅ : Std.ExtTreeMap HandleId AnyHandle).insert 1 ⟨.channel 2, HandleRight.all⟩
        |>.insert 2 ⟨.channel 4, HandleRight.all⟩
      nextId := 3 }
  polls := fun _ => Poll.new
  channels := fun c =>
    { Channel.new with peer := if c % 2 = 0 then some (c + 1) else some (c - 1) }
  emitters := fun _ => Emitter.new Readiness.writable
  runqueue := []
  current := 0

/-- User memory in which every word is 2. -/
def memoryOfTwos : Env where
  readBytes := fun _ len => .ok (Vector.ofFn fun i : Fin len => if i.val % 4 = 0 then 2 else 0)
  writeBytes := fun _ _ => .ok ()
  tryReserve := true

/-- Sending handle 2 twice over channel 1, which is connected and has
room, panics. -/
theorem not_sendAtomic_of_repeated_id :
    ¬ SendAtomic memoryOfTwos twoChannels 1 0x4000 0x1000 0x2000 := by
  have h : ((sysChannelSend memoryOfTwos 1 0x4000 0x1000 0x2000).run twoChannels).toBool = false := by
    decide +kernel
  intro hatomic
  unfold SendAtomic at hatomic
  cases hrun : (sysChannelSend memoryOfTwos 1 0x4000 0x1000 0x2000).run twoChannels with
  | error x => simp [hrun] at hatomic
  | ok r => simp [hrun, Except.toBool] at h

end Archives.Ftl.Kernel
