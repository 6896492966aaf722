import Archives.Common.Except
import Archives.Common.PartialMap
import Archives.Ftl.Model.EventLoop
import Mathlib.Tactic.IntervalCases
/-!
# FTL — readiness bits and events

Every readiness in the kernel is made of three bits (`Within`), since it
comes from what emitters were set to, and an id that a poll delivers is
one of the event loop's items; so `EventLoop::wait` gets what the kernel
delivered. It reports one event for it, and the kernel has cleared all
of it: the loop keeps up exactly if it is given one bit at a time
(`unreported_iff_deliversOne`).
-/

namespace Archives.Ftl

open Call BitVec Function List Nat Kernel PollEvent

/-! ## Three bits -/

namespace Readiness

/-- A readiness of no other bits than the three. -/
def Within (r : Readiness) : Prop := r &&& all = r

theorem within_zero : Within 0 := rfl

variable {r r' : Readiness}

theorem Within.or (h : Within r) (h' : Within r') : Within (r ||| r') := by
  unfold Within at *
  rw [BitVec.and_comm, BitVec.and_or_distrib_left, BitVec.and_comm, h, BitVec.and_comm, h']

theorem Within.and_left (h : Within r) (r' : Readiness) : Within (r' &&& r) := by
  unfold Within at *
  rw [BitVec.and_assoc, h]

theorem Within.lt (h : Within r) : r.toNat < 8 := by
  rw [← h, toNat_and]
  exact lt_succ_of_le and_le_right

/-- There are eight of them. -/
theorem Within.cases (h : Within r) : r = 0#8 ∨ r = 1#8 ∨ r = 2#8 ∨ r = 3#8 ∨ r = 4#8 ∨ r = 5#8 ∨
    r = 6#8 ∨ r = 7#8 := by
  have hlt := h.lt
  have hr : r = .ofNat 8 r.toNat := by simp
  rw [hr]
  generalize r.toNat = n at hlt
  interval_cases n <;> simp

end Readiness

open Readiness

/-- **What the kernel delivers is what the loop gets.** -/
theorem PollEvent.fromRaw_asRaw {ev : PollEvent} (hid : 0 < ev.handleId)
    (hmax : ev.handleId < numHandlesMax) (hready : Within ev.readiness) :
    fromRaw ev.asRaw = .ok ev := by
  obtain ⟨id, readiness⟩ := ev
  obtain ⟨n, rfl⟩ := Int.eq_ofNat_of_zero_le (Int.le_of_lt hid)
  have hn : n < 1024 := Int.ofNat_lt.1 hmax
  have hlt : readiness.toNat < 8 := hready.lt
  have hraw : asRaw ⟨(n : Int), readiness⟩ = n * 16 + readiness.toNat := by
    have hor := shiftLeft_add_eq_or_of_lt (i := 4) (b := readiness.toNat)
      (lt_trans hlt (by decide)) n
    rw [asRaw, Int.toNat_natCast, ← hor, Nat.shiftLeft_eq]
  have hshift : (n * 16 + readiness.toNat) >>> 4 = n := by
    omega
  have hmask : (n * 16 + readiness.toNat) &&& all.toNat = readiness.toNat := by
    rw [show all.toNat = 2 ^ 3 - 1 from rfl, and_two_pow_sub_one_eq_mod]
    omega
  have hid : HandleId.fromUsize n = .ok n := if_pos (by omega)
  rw [fromRaw, hraw, hshift, hid, ok_bind, hmask, ofNat_toNat, setWidth_eq]
  rfl

/-! ## What notifications tell a poll -/

namespace Kernel

/-- All emitters keep to the three bits. -/
def LatestWithin (k : Kernel) : Prop := ∀ e, Within (k.emitters e).latest

/-- **What is told to a poll**: emitters keep to the three bits, and so
do the objects; no object is added. -/
structure Tells (p : Addr) (k k' : Kernel) : Prop where
  latest : k.LatestWithin → k'.LatestWithin
  objects : ∀ (id : HandleId) (object' : PollObject), (k'.polls p).objects[id]? = some object' →
    ∃ object : PollObject, (k.polls p).objects[id]? = some object ∧
      (Within object.ready → Within object'.ready)

variable {p q e : Addr} {k k' k'' : Kernel} {id : HandleId}

theorem Tells.refl (p : Addr) (k : Kernel) : Tells p k k :=
  ⟨fun h => h, fun _ object h => ⟨object, h, fun h => h⟩⟩

theorem Tells.trans (h₁ : Tells p k k') (h₂ : Tells p k' k'') : Tells p k k'' where
  latest := fun h => h₂.latest (h₁.latest h)
  objects := by
    intro id object'' hobject''
    obtain ⟨object', hobject', hwithin'⟩ := h₂.objects id object'' hobject''
    obtain ⟨object, hobject, hwithin⟩ := h₁.objects id object' hobject'
    exact ⟨object, hobject, fun h => hwithin' (hwithin h)⟩

theorem tells_setPoll_of_ne (k : Kernel) (poll : Poll) (h : p ≠ q) :
    Tells p k (k.setPoll q poll) where
  latest := fun h => h
  objects := by
    intro id object hobject
    rw [polls_setPoll_of_ne _ _ h] at hobject
    exact ⟨object, hobject, fun h => h⟩

theorem tells_setEmitter {em : Emitter} (h : Within em.latest) : Tells p k (k.setEmitter e em) where
  latest := by
    intro hlatest e'
    by_cases heq : e' = e
    · subst heq
      simpa [setEmitter] using h
    · simpa [setEmitter, heq] using hlatest e'
  objects := fun _ object hobject => ⟨object, hobject, fun h => h⟩

theorem tells_notify (k : Kernel) (q : Addr) (id : HandleId) {events : Readiness}
    (h : Within events) : Tells p k (k.notify q id events) where
  latest := by
    intro hlatest e
    rw [emitters_notify]
    exact hlatest e
  objects := by
    intro id' object' hobject'
    rcases hobj : (k.polls q).objects[id]? with _ | object
    · simp only [notify, hobj] at hobject'
      exact ⟨object', hobject', fun h => h⟩
    · rw [polls_notify events hobj] at hobject'
      by_cases hpq : p = q
      · subst hpq
        rw [polls_setPoll_self, getElem?_notified] at hobject'
        split at hobject'
        next heq =>
          subst heq
          cases hobject'
          exact ⟨object, hobj, fun hwithin => hwithin.or h⟩
        next => exact ⟨object', hobject', fun h => h⟩
      · rw [polls_setPoll_of_ne _ _ hpq] at hobject'
        exact ⟨object', hobject', fun h => h⟩

/-- **Emitters tell a poll**, as long as they keep to the three bits. -/
theorem emits_tells (p : Addr) : Emits Within fun k k' => k.LatestWithin → Tells p k k' where
  refl k _ := .refl p k
  trans h₁ h₂ h := (h₁ h).trans (h₂ ((h₁ h).latest h))
  and a _ hb := hb.and_left a
  setEmitter hem h := tells_setEmitter (hem h)
  notify _ hevents h := tells_notify _ _ _ (hevents h)

/-- **What others do** is told to a poll. -/
theorem tells_polling {action : PollAction} (h : k.LatestWithin)
    (hforeign : EventLoop.foreign p action = true) (hstep : polling.step k action = some k') :
    Tells p k k' := by
  cases action with
  | add q id handle interests =>
    have hpq : p ≠ q := .symm (of_decide_eq_true hforeign)
    obtain ⟨r, hrun⟩ := after_eq_some hstep
    rcases pollAdd_cases hrun with ⟨-, rfl, -⟩ | ⟨-, e, -, -, rfl⟩
    · exact .refl p _
    · have hset : Tells p k (k.setPoll q (registered (k.polls q) id handle)) :=
        tells_setPoll_of_ne k _ hpq
      exact hset.trans ((emits_tells p).addListener _ (hset.latest h))
  | update q id orMask andMask =>
    obtain ⟨r, hrun⟩ := after_eq_some hstep
    rcases pollUpdate_cases hrun with rfl | ⟨e, rfl⟩
    · exact .refl p _
    · exact (emits_tells p).updateListener _ _ _ h
  | remove q id =>
    have hpq : p ≠ q := .symm (of_decide_eq_true hforeign)
    obtain ⟨r, hrun⟩ := after_eq_some hstep
    rcases pollRemove_cases hrun with ⟨-, rfl⟩ | ⟨-, e, rfl⟩
    · exact .refl p _
    · have hset : Tells p k
          (k.setPoll q { k.polls q with objects := (k.polls q).objects.erase id }) :=
        tells_setPoll_of_ne k _ hpq
      exact hset.trans (tells_setEmitter (hset.latest h _))
  | set e mask =>
    cases hstep
    have hmask : mask &&& .all = mask := of_decide_eq_true hforeign
    exact (emits_tells p).emitterSet (fun ha => ha.or hmask) h
  | clear e mask =>
    cases hstep
    exact (emits_tells p).emitterClear h
  | tryWait q =>
    have hpq : p ≠ q := .symm (of_decide_eq_true hforeign)
    cases hstep
    rcases tryWait_cases k q with ⟨-, -, hk⟩ | ⟨skipped, id, object, rest, -, -, -, -, hk⟩
    · rw [hk]
      exact tells_setPoll_of_ne k _ hpq
    · rw [hk]
      have hset : Tells p k (k.setPoll q (reported (k.polls q) id object rest)) :=
        tells_setPoll_of_ne k _ hpq
      exact hset.trans ((emits_tells p).clearEdge _ (hset.latest h))

end Kernel

/-! ## The loop and its poll -/

namespace EventLoop

variable {C : Type} {s s' : EventLoop C} {k' : Kernel} {id : HandleId}

/-- **The registered objects are the loop's items**, and hold no other
bits than the three. -/
structure Good (s : EventLoop C) : Prop where
  latest : s.kernel.LatestWithin
  objects : ∀ (id : HandleId) (object : PollObject),
    (s.kernel.polls s.poll).objects[id]? = some object →
      Within object.ready ∧ 0 < id ∧ id < numHandlesMax ∧ (s.items id).isSome

theorem Boot.good (h : s.Boot) : s.Good where
  latest := h.latest
  objects := by
    intro id object hobject
    rw [h.poll] at hobject
    simp [Poll.new] at hobject

/-- A change of the kernel that is told to the loop's poll. -/
theorem Good.tells (h : s.Good) {poll : Addr} {items : HandleId → Option (Item C)}
    {unreported : List (HandleId × Bit)} (hpoll : poll = s.poll) (hitems : items = s.items)
    (htells : Kernel.Tells s.poll s.kernel k') : Good ⟨k', poll, items, unreported⟩ where
  latest := htells.latest h.latest
  objects := by
    intro id object' hobject'
    subst hpoll hitems
    obtain ⟨object, hobject, hwithin⟩ := htells.objects id object' hobject'
    obtain ⟨hready, hid⟩ := h.objects id object hobject
    exact ⟨hwithin hready, hid⟩

/-- **What an operation other than `wait` keeps**: the objects stay the
items, and nothing is delivered. -/
theorem Good.add {object : ItemObject} {addr : Addr} {ctx : C} (h : s.Good)
    (hadd : s.add object id addr ctx = some s') : s'.Good ∧ s'.unreported = s.unreported := by
  rw [EventLoop.add] at hadd
  split at hadd
  next => cases hadd
  next hid =>
    split at hadd
    next k hrun =>
      cases hadd
      obtain ⟨hr, -⟩ | ⟨-, e, -, -, rfl⟩ := pollAdd_cases hrun
      · exact absurd rfl hr
      refine ⟨?_, rfl⟩
      -- the new object has no bits yet, and is told what holds afterwards
      have hregistered : Good { s with
          kernel := s.kernel.setPoll s.poll
            (registered (s.kernel.polls s.poll) id ⟨object.toObject addr, HandleRight.all⟩)
          items := Function.update s.items id (some ⟨ctx, object⟩) } := by
        refine ⟨h.latest, ?_⟩
        intro id' object' hobject'
        simp only [polls_setPoll_self, getElem?_registered] at hobject'
        split at hobject'
        next heq =>
          subst heq
          cases hobject'
          refine ⟨within_zero, ?_, ?_, ?_⟩
          · exact Int.not_lt.1 fun hlt => hid (.inl hlt)
          · exact Int.not_le.1 fun hle => hid (.inr hle)
          · simp [update_self]
        next hne =>
          obtain ⟨hready, hpos, hmax, hitem⟩ := h.objects id' object' hobject'
          refine ⟨hready, hpos, hmax, ?_⟩
          show (Function.update s.items id (some ⟨ctx, object⟩) id').isSome
          rw [update_of_ne (Ne.symm hne)]
          exact hitem
      exact hregistered.tells rfl rfl ((emits_tells _).addListener _ hregistered.latest)
    next k hrun =>
      cases hadd
      obtain ⟨-, rfl, -⟩ | ⟨hr, -⟩ := pollAdd_cases hrun
      · exact ⟨h, rfl⟩
      · cases hr
    next => cases hadd

theorem Good.remove (h : s.Good) (hremove : s.remove id = some s') :
    s'.Good ∧ s'.unreported = s.unreported := by
  rw [EventLoop.remove] at hremove
  split at hremove
  next k hrun =>
    cases hremove
    obtain ⟨hr, -⟩ | ⟨-, e, rfl⟩ := pollRemove_cases hrun
    · exact absurd rfl hr
    refine ⟨?_, rfl⟩
    have herased : Good { s with
        kernel := s.kernel.setPoll s.poll
          { s.kernel.polls s.poll with objects := (s.kernel.polls s.poll).objects.erase id }
        items := Function.update s.items id none } := by
      refine ⟨h.latest, ?_⟩
      intro id' object' hobject'
      simp only [polls_setPoll_self] at hobject'
      rw [Std.ExtTreeMap.getElem?_erase] at hobject'
      split at hobject'
      next => cases hobject'
      next hne =>
        have hne' : id' ≠ id := fun heq =>
          hne (Std.LawfulEqCmp.compare_eq_iff_eq.2 heq.symm)
        obtain ⟨hready, hpos, hmax, hitem⟩ := h.objects id' object' hobject'
        refine ⟨hready, hpos, hmax, ?_⟩
        show (Function.update s.items id none id').isSome
        rw [update_of_ne hne']
        exact hitem
    exact herased.tells rfl rfl (tells_setEmitter (herased.latest _))
  next k hrun =>
    cases hremove
    obtain ⟨-, rfl⟩ | ⟨hr, -⟩ := pollRemove_cases hrun
    · exact ⟨h, rfl⟩
    · cases hr
  next => cases hremove

theorem Good.update {orMask andMask : Readiness} (h : s.Good)
    (hupdate : s.update id orMask andMask = some s') : s'.Good ∧ s'.unreported = s.unreported := by
  rw [EventLoop.update, Option.map_eq_some_iff] at hupdate
  obtain ⟨k, hafter, rfl⟩ := hupdate
  refine ⟨?_, rfl⟩
  obtain ⟨r, hrun⟩ := after_eq_some hafter
  rcases pollUpdate_cases hrun with rfl | ⟨e, rfl⟩
  · exact h.tells rfl rfl (.refl _ _)
  · exact h.tells rfl rfl ((emits_tells _).updateListener _ _ _ h.latest)

/-! ## One event for what was delivered -/

/-- A report settles the account of what was delivered if it is of every
bit of it. -/
theorem filter_ne_eq_nil (id : HandleId) (delivered : List Bit) (report : HandleId × Bit) :
    (delivered.map fun bit => (id, bit)).filter (fun entry => entry ≠ report) = [] ↔
      ∀ bit ∈ delivered, report = (id, bit) := by
  rw [filter_eq_nil_iff, forall_mem_map]
  refine forall_congr' fun bit => imp_congr_right fun _ => ?_
  rw [decide_eq_true_eq, not_ne_iff]
  exact eq_comm

/-- Nothing is left of an event's account. -/
def Settles (id : HandleId) (readiness : Readiness) : Except LoopError Event → Prop
  | .ok event => ∀ b ∈ bits readiness, event.reports = (id, b)
  | .error _ => bits readiness = []

/-- **An event settles a single bit of its object**, and nothing but no
bit or such a bit. -/
theorem settles_event_iff (object : ItemObject) (id : HandleId) {readiness : Readiness}
    (h : Within readiness) : Settles id readiness (object.event id readiness) ↔
      readiness = 0 ∨ ∃ bit ∈ object.bits, readiness = bit.mask := by
  rcases h.cases with rfl | rfl | rfl | rfl | rfl | rfl | rfl | rfl <;> cases object <;>
    simp [Settles, ItemObject.event, ItemObject.bits, Event.reports, Readiness.contains,
      Readiness.bits, Bit.all, Bit.mask, Readiness.writable, Readiness.readable,
      Readiness.peerClosed]

theorem account_eq_nil_iff {ev : PollEvent} {item : Item C} (hs : s.unreported = [])
    (hraw : fromRaw ev.asRaw = .ok ev) (hitem : s.items ev.handleId = some item)
    (hready : Within ev.readiness) : s.account ev (s.eventOf ev.asRaw) = [] ↔
      ev.readiness = 0 ∨ ∃ bit ∈ item.object.bits, ev.readiness = bit.mask := by
  rw [← settles_event_iff item.object ev.handleId hready]
  rcases hevent : item.object.event ev.handleId ev.readiness with err | event
  · have hresult : s.eventOf ev.asRaw = .error err := by
      simp only [eventOf, hraw, hitem, hevent, Except.map]
    rw [hresult, account, hs]
    simp [map_eq_nil_iff, Settles]
  · have hresult : s.eventOf ev.asRaw = .ok (item.ctx, event) := by
      simp only [eventOf, hraw, hitem, hevent, Except.map]
    rw [hresult, account, hs]
    exact filter_ne_eq_nil _ _ _

/-- **`wait`**: the objects stay the items, and the account stays empty
exactly if one bit is delivered. -/
theorem Good.wait (h : s.Good) :
    s.wait.2.Good ∧ (s.unreported = [] → (s.wait.2.unreported = [] ↔ s.DeliversOne .wait)) := by
  rcases tryWait_cases s.kernel s.poll with
    ⟨hnone, -, hk⟩ | ⟨skipped, id, object, rest, -, -, hobj, hsome, hk⟩
  · have hwait : s.wait.2 = { s with
        kernel := s.kernel.setPoll s.poll { s.kernel.polls s.poll with readyQueue := [] } } := by
      rw [EventLoop.wait, ← hk]
      rcases htry : s.kernel.tryWait s.poll with ⟨ev, k⟩
      rw [htry] at hnone
      obtain rfl : ev = none := hnone
      rfl
    rw [hwait]
    refine ⟨⟨h.latest, ?_⟩, fun hs => iff_of_true hs ?_⟩
    · intro id object hobject
      simp only [polls_setPoll_self] at hobject
      exact h.objects id object hobject
    · intro ev item hev
      rw [hnone] at hev
      cases hev
  · obtain ⟨hready, hpos, hmax, hitem⟩ := h.objects id object hobj
    obtain ⟨item, hitem⟩ := Option.isSome_iff_exists.1 hitem
    have hwait : s.wait.2 = { s with
        kernel := (s.kernel.setPoll s.poll
          (reported (s.kernel.polls s.poll) id object rest)).clearEdge
            object.handle.object object.ready
        unreported := s.account ⟨id, object.ready⟩
          (s.eventOf (asRaw ⟨id, object.ready⟩)) } := by
      rw [EventLoop.wait, ← hk]
      rcases htry : s.kernel.tryWait s.poll with ⟨ev, k⟩
      rw [htry] at hsome
      obtain rfl : ev = some ⟨id, object.ready⟩ := hsome
      rfl
    rw [hwait]
    constructor
    · have hreported : Good { s with
          kernel := s.kernel.setPoll s.poll
            (reported (s.kernel.polls s.poll) id object rest) } := by
        refine ⟨h.latest, ?_⟩
        intro id' object' hobject'
        simp only [polls_setPoll_self, getElem?_reported] at hobject'
        split at hobject'
        next heq =>
          subst heq
          cases hobject'
          exact ⟨within_zero, (h.objects id object hobj).2⟩
        next => exact h.objects id' object' hobject'
      exact hreported.tells rfl rfl ((emits_tells _).clearEdge _ hreported.latest)
    · intro hs
      have hraw : fromRaw (asRaw ⟨id, object.ready⟩) =
          .ok ⟨id, object.ready⟩ := fromRaw_asRaw hpos hmax hready
      have haccount := account_eq_nil_iff hs hraw hitem hready
      rw [haccount]
      constructor
      · intro hone ev item' hev hitem'
        rw [hsome] at hev
        cases hev
        rw [hitem] at hitem'
        cases hitem'
        exact hone
      · intro hone
        exact hone _ item hsome hitem

/-- **Every step**: the objects stay the items, and the account stays
empty exactly if one bit is delivered. -/
theorem Good.step {op : Op C} (h : s.Good) (hstep : s.step op = some s') :
    s'.Good ∧ (s.unreported = [] → (s'.unreported = [] ↔ s.DeliversOne op)) := by
  have hquiet (hop : s'.Good ∧ s'.unreported = s.unreported) (htrue : s.DeliversOne op) :
      s'.Good ∧ (s.unreported = [] → (s'.unreported = [] ↔ s.DeliversOne op)) :=
    ⟨hop.1, fun hs => iff_of_true (hop.2.trans hs) htrue⟩
  cases op with
  | addChannel id addr ctx => exact hquiet (h.add hstep) trivial
  | addTimer id addr ctx => exact hquiet (h.add hstep) trivial
  | addInterrupt id addr ctx => exact hquiet (h.add hstep) trivial
  | addThread id addr ctx => exact hquiet (h.add hstep) trivial
  | remove id => exact hquiet (h.remove hstep) trivial
  | listen id interests => exact hquiet (h.update hstep) trivial
  | unlisten id interests => exact hquiet (h.update hstep) trivial
  | wait =>
    cases hstep
    exact h.wait
  | env action =>
    rw [EventLoop.step] at hstep
    split at hstep
    next hforeign =>
      obtain ⟨k, hk, rfl⟩ := Option.map_eq_some_iff.1 hstep
      exact hquiet ⟨h.tells rfl rfl (tells_polling h.latest hforeign hk), rfl⟩ trivial
    next => cases hstep

/-- **The loop keeps up exactly with one bit at a time**: in every run
that delivers single bits, every bit delivered has been reported, and
this stays so with one more step exactly if it delivers no more. -/
theorem unreported_iff_deliversOne {s₀ s : EventLoop C} (hboot : s₀.Boot)
    (h : (machine C).ReachUnder DeliversOne s₀ s) : s.unreported = [] ∧
      ∀ op s', s.step op = some s' → (s'.unreported = [] ↔ s.DeliversOne op) := by
  have hinv : s.Good ∧ s.unreported = [] :=
    h.invariant (I := fun s => s.Good ∧ s.unreported = []) ⟨hboot.good, hboot.unreported⟩
      fun hI hok hstep =>
        let hgood := hI.1.step hstep
        ⟨hgood.1, (hgood.2 hI.2).2 hok⟩
  refine ⟨hinv.2, ?_⟩
  intro op s' hstep
  exact (hinv.1.step hstep).2 hinv.2

/-! ## Two runs -/

/-- A new event loop with no contexts. -/
def fresh : EventLoop Unit where
  kernel := bare
  poll := 0
  items := fun _ => none
  unreported := []

theorem fresh_boot : fresh.Boot := ⟨rfl, rfl, rfl, fun _ => within_zero⟩

/-- A channel that gets readable: its bit is reported. -/
theorem reported_of_one_bit :
    ∃ s, (machine Unit).ReachUnder DeliversOne fresh s ∧ (s.kernel.tryWait 0).1 =
        some { handleId := 5, readiness := .readable } ∧
      s.unreported = [] ∧ (s.wait.2.unreported = [] ↔ s.DeliversOne .wait) := by
  let s₁ := (fresh.step (.addChannel 5 1 ())).get (by decide +kernel)
  let s₂ := (s₁.step (.env (.set 1 .readable))).get (by decide +kernel)
  have h₁ : (machine Unit).ReachUnder DeliversOne fresh s₁ :=
    .tail (a := .addChannel 5 1 ()) .refl trivial (Option.some_get _).symm
  have h₂ : (machine Unit).ReachUnder DeliversOne fresh s₂ :=
    .tail (a := .env (.set 1 readable)) h₁ trivial (Option.some_get _).symm
  have hmain := unreported_iff_deliversOne fresh_boot h₂
  exact ⟨s₂, h₂, by decide +kernel, hmain.1, hmain.2 .wait _ rfl⟩

/-- **A lost bit.** A channel gets a message and is closed before the
loop waits. The loop reports that it is readable; the next wait blocks,
and no event ever says that the peer is gone. -/
theorem unreported_of_two_bits : ∃ s, (machine Unit).Reach fresh s ∧
      s.wait.1.map (Except.toOption ·) = some (some ((), .channelReadable 5)) ∧
      s.wait.2.wait.1.isNone ∧ s.wait.2.wait.2.unreported = [(5, .peerClosed)] :=
  Machine.exists_reachUnder
    [.addChannel 5 1 (), .env (.set 1 .readable), .env (.set 1 .peerClosed)] (by decide +kernel)

end EventLoop

end Archives.Ftl
