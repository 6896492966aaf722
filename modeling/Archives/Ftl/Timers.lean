import Archives.Ftl.Model.Timers
import Mathlib.Data.List.Nodup
/-!
# FTL — the timers agree with `TIMERS` and with the hardware

Three things have to stay together: the state of each timer, the lists
under the deadlines, and the deadline the hardware is armed with.
`Listed` ties the first two; the removal, the push and the expiry of an
entry each keep it. For the third, the hardware may only be unarmed
while no timer is active, so `set_timer` may leave an earlier deadline
alone. The results are `agree_and_fire_due`.
-/

namespace Archives.Ftl.Timers

open List Function Nat Option SortedMap

variable {timers timers' : SortedMap Nat (List Addr)} {cells : Addr → Timer}
  {timer deadline now d : Nat} {ts ts' : Timers} {entries rest : List (Nat × List Addr)}
  {items : List Addr}

/-! ## Entries and states -/

/-- **The lists and the states agree.** -/
structure Listed (entries : List (Nat × List Addr)) (cells : Addr → Timer) : Prop where
  active : ∀ timer deadline, (cells timer).state = .active deadline →
    ∃ items, (deadline, items) ∈ entries ∧ items.count timer = 1
  elsewhere : ∀ timer deadline items, (deadline, items) ∈ entries →
    (cells timer).state ≠ .active deadline → timer ∉ items

/-- What taking a timer out leaves: lists without it, the others as often
as before. -/
structure Removed (timers timers' : SortedMap Nat (List Addr)) (timer : Addr) : Prop where
  gone : ∀ d items, (d, items) ∈ timers'.entries → timer ∉ items
  old : ∀ d items', (d, items') ∈ timers'.entries →
    ∃ items, (d, items) ∈ timers.entries ∧ ∀ u, u ≠ timer → items'.count u = items.count u
  kept : ∀ d items u, (d, items) ∈ timers.entries → u ≠ timer → u ∈ items →
    ∃ items', (d, items') ∈ timers'.entries ∧ items'.count u = items.count u

theorem count_filter_ne {u : Addr} (h : u ≠ timer) :
    (items.filter fun item => item ≠ timer).count u = items.count u :=
  count_filter (by simpa using h)

/-- **A timer is found where its state says**, so nothing is unwrapped in
vain. -/
theorem Listed.remove (hl : Listed timers.entries cells) (timer : Addr) :
    ∃ timers', remove timers timer (cells timer).state = .ok timers' ∧
      Removed timers timers' timer := by
  rcases hstate : (cells timer).state with _ | d
  · refine ⟨timers, rfl, ?_, fun d items h => ⟨items, h, fun _ _ => rfl⟩,
      fun d items u h _ _ => ⟨items, h, rfl⟩⟩
    intro d items h
    exact hl.elsewhere timer d items h (by simp [hstate])
  · obtain ⟨items, hitems, hcount⟩ := hl.active timer d hstate
    have hget : timers.get? d = some items := get?_eq_some.2 hitems
    simp only [Timers.remove, hget]
    -- elsewhere the timer was not
    have hother : ∀ d' items', d' ≠ d → (d', items') ∈ timers.entries → timer ∉ items' := by
      intro d' items' hne hmem
      refine hl.elsewhere timer d' items' hmem ?_
      rw [hstate]
      intro heq
      exact hne (TimerState.active.inj heq).symm
    by_cases hempty : items.filter (fun item => item ≠ timer) = []
    · rw [if_pos hempty]
      refine ⟨_, rfl, ?_, ?_, ?_⟩
      · intro d' items' hmem
        obtain ⟨hne, hmem⟩ := mem_erase.1 hmem
        exact hother d' items' hne hmem
      · intro d' items' hmem
        exact ⟨items', (mem_erase.1 hmem).2, fun _ _ => rfl⟩
      · intro d' items' u hmem hu hin
        refine ⟨items', mem_erase.2 ⟨?_, hmem⟩, rfl⟩
        rintro rfl
        obtain rfl := value_unique hitems hmem
        have hfilter : u ∈ items.filter fun item => item ≠ timer :=
          mem_filter.2 ⟨hin, by simpa using hu⟩
        rw [hempty] at hfilter
        cases hfilter
    · rw [if_neg hempty]
      refine ⟨_, rfl, ?_, ?_, ?_⟩
      · intro d' items' hmem
        rcases mem_insert.1 hmem with heq | ⟨hne, hmem⟩
        · cases heq
          simp
        · exact hother d' items' hne hmem
      · intro d' items' hmem
        rcases mem_insert.1 hmem with heq | ⟨-, hmem⟩
        · cases heq
          exact ⟨items, hitems, fun u hu => count_filter_ne hu⟩
        · exact ⟨items', hmem, fun _ _ => rfl⟩
      · intro d' items' u hmem hu hin
        by_cases hd : d' = d
        · subst hd
          obtain rfl := value_unique hitems hmem
          exact ⟨_, mem_insert.2 (.inl rfl), count_filter_ne hu⟩
        · exact ⟨items', mem_insert.2 (.inr ⟨hd, hmem⟩), rfl⟩

/-- The entries after a push: the list of the deadline grows, and the
others are as they were. -/
theorem mem_push : (d, items) ∈ (push timers deadline timer).entries ↔
      (d = deadline ∧ items = (timers.get? deadline).getD [] ++ [timer]) ∨
        (d ≠ deadline ∧ (d, items) ∈ timers.entries) := by
  rw [push, mem_insert, Prod.mk.injEq]

/-- **Setting a timer keeps the lists and the states in agreement.** -/
theorem Listed.push (hl : Listed timers.entries cells) (hr : Removed timers timers' timer)
    (deadline : Nat) (emitter : Readiness) : Listed (push timers' deadline timer).entries
      (update cells timer ⟨.active deadline, emitter⟩) := by
  -- what stood under the new deadline
  have hbefore : timer ∉ (timers'.get? deadline).getD [] := by
    rcases hget : timers'.get? deadline with _ | items
    · simp
    · simpa using hr.gone deadline items (get?_eq_some.1 hget)
  constructor
  · intro u d hstate
    by_cases hu : u = timer
    · subst hu
      simp only [update_self, TimerState.active.injEq] at hstate
      refine ⟨_, mem_push.2 (.inl ⟨hstate.symm, rfl⟩), ?_⟩
      rw [count_append, count_eq_zero_of_not_mem hbefore]
      simp
    · rw [update_of_ne hu] at hstate
      obtain ⟨items, hitems, hcount⟩ := hl.active u d hstate
      have hin : u ∈ items := count_pos_iff.1 (by omega)
      obtain ⟨items', hitems', hcount'⟩ := hr.kept d items u hitems hu hin
      by_cases hd : d = deadline
      · subst hd
        refine ⟨_, mem_push.2 (.inl ⟨rfl, rfl⟩), ?_⟩
        rw [get?_eq_some.2 hitems', getD_some, count_append, hcount', hcount,
          count_singleton, beq_eq_false_iff_ne.2 (.symm hu)]
        rfl
      · exact ⟨items', mem_push.2 (.inr ⟨hd, hitems'⟩), hcount'.trans hcount⟩
  · intro u d items hmem hstate
    -- a timer other than the new one stood nowhere else
    have hold : u ≠ timer → ∀ items', (d, items') ∈ timers'.entries → u ∉ items' := by
      intro hu items' hitems'
      rw [update_of_ne hu] at hstate
      obtain ⟨before, hbefore, hcount⟩ := hr.old d items' hitems'
      have hnot := hl.elsewhere u d before hbefore hstate
      rw [← count_eq_zero, hcount u hu, count_eq_zero]
      exact hnot
    rcases mem_push.1 hmem with ⟨rfl, rfl⟩ | ⟨hd, hmem⟩
    · have hu : u ≠ timer := by
        rintro rfl
        simp at hstate
      rcases hget : timers'.get? d with _ | items'
      · simpa using hu
      · have hnot := hold hu items' (get?_eq_some.1 hget)
        simp [hnot, hu]
    · by_cases hu : u = timer
      · exact hu ▸ hr.gone d items hmem
      · exact hold hu items hmem

/-! ## Expiry -/

/-- A timer after it was fired. -/
def afterFire (cell : Timer) : Timer := ⟨.inActive, cell.emitter ||| Readiness.readable⟩

/-- Active timers, each once, are fired one after the other. -/
theorem fireAll_of_active (hnodup : items.Nodup)
    (hactive : ∀ t ∈ items, (cells t).state ≠ .inActive) :
    ∃ cells', fireAll items cells = .ok cells' ∧
      ∀ t, cells' t = if t ∈ items then afterFire (cells t) else cells t := by
  induction items generalizing cells with
  | nil => exact ⟨cells, rfl, fun t => by simp⟩
  | cons timer rest ih =>
    obtain ⟨hnot, hrest⟩ := nodup_cons.1 hnodup
    have hfire : fire cells timer = .ok (update cells timer (afterFire (cells timer))) := by
      unfold fire
      rcases hstate : (cells timer).state with _ | d
      · exact absurd hstate (hactive timer mem_cons_self)
      · rfl
    have hstill : ∀ t ∈ rest,
        (update cells timer (afterFire (cells timer)) t).state ≠ .inActive := by
      intro t ht
      have hne : t ≠ timer := fun heq => hnot (heq ▸ ht)
      rw [update_of_ne hne]
      exact hactive t (mem_cons_of_mem _ ht)
    obtain ⟨cells', hall, hcells⟩ := ih hrest hstill
    refine ⟨cells', ?_, ?_⟩
    · simp only [fireAll, hfire, ok_bind]
      exact hall
    · intro t
      rw [hcells]
      by_cases ht : t = timer
      · subst ht
        simp [hnot]
      · simp [ht]

section Head

variable (hl : Listed ((d, items) :: rest) cells)
  (hsorted : ((d, items) :: rest).Pairwise fun a b => a.1 < b.1)

include hl hsorted

/-- A timer with the deadline of the first entry is in its list, once. -/
theorem Listed.count_head {t : Addr} (hstate : (cells t).state = .active d) :
    items.count t = 1 := by
  obtain ⟨items', hmem, hcount⟩ := hl.active t d hstate
  rcases mem_cons.1 hmem with heq | hmem
  · cases heq
    exact hcount
  · have hne := ne_key_of_mem hsorted hmem
    exact absurd rfl hne

/-- The timers of the first entry are those with its deadline. -/
theorem Listed.mem_head (t : Addr) : t ∈ items ↔ (cells t).state = .active d := by
  constructor
  · intro ht
    by_contra hne
    exact hl.elsewhere t d items mem_cons_self hne ht
  · intro hstate
    have hcount := hl.count_head hsorted hstate
    exact count_pos_iff.1 (by omega)

theorem Listed.nodup_head : items.Nodup := by
  rw [nodup_iff_count_le_one]
  intro t
  by_cases ht : t ∈ items
  · have hcount := hl.count_head hsorted ((hl.mem_head hsorted t).1 ht)
    omega
  · rw [count_eq_zero_of_not_mem ht]
    omega

/-- Without its first entry, and with the timers of that fired, the lists
and the states agree again. -/
theorem Listed.tail {cells' : Addr → Timer}
    (hcells : ∀ t, cells' t = if t ∈ items then afterFire (cells t) else cells t) :
    Listed rest cells' := by
  constructor
  · intro t d' hstate
    have hnot : t ∉ items := by
      intro ht
      rw [hcells, if_pos ht] at hstate
      cases hstate
    rw [hcells, if_neg hnot] at hstate
    obtain ⟨items', hmem, hcount⟩ := hl.active t d' hstate
    rcases mem_cons.1 hmem with heq | hmem
    · cases heq
      exact absurd ((hl.mem_head hsorted t).2 hstate) hnot
    · exact ⟨items', hmem, hcount⟩
  · intro t d' items' hmem hstate
    refine hl.elsewhere t d' items' (mem_cons_of_mem _ hmem) ?_
    intro hactive
    by_cases ht : t ∈ items
    · have hd := (hl.mem_head hsorted t).1 ht
      rw [hactive] at hd
      exact ne_key_of_mem hsorted hmem (TimerState.active.inj hd)
    · rw [hcells, if_neg ht] at hstate
      exact hstate hactive

end Head

/-- What expiry does, from the entries on: `new` are the timers it
fires. -/
structure Expires (now : Nat) (cells : Addr → Timer) (left : Expired) (new : List Addr) : Prop where
  listed : Listed left.entries left.cells
  once : new.Nodup
  due : ∀ t, t ∈ new ↔ ∃ d, (cells t).state = .active d ∧ d ≤ now
  cells : ∀ t, left.cells t = if t ∈ new then afterFire (cells t) else cells t
  later : ∀ e ∈ left.entries, now < e.1

/-- **Expiry fires exactly what is due.** By induction on the entries:
each one that is due is fired as a whole, and the first that is not ends
the loop, for all after it are later. -/
theorem fireEntries_expires (hl : Listed entries cells)
    (hsorted : entries.Pairwise fun a b => a.1 < b.1) (now : Nat) (fired : List Addr) :
    ∃ left new, fireEntries now entries cells fired = .ok left ∧ left.fired = fired ++ new ∧
      Expires now cells left new := by
  induction entries generalizing cells fired with
  | nil =>
    refine ⟨_, [], rfl, by simp, hl, nodup_nil, ?_, fun t => by simp, by simp⟩
    intro t
    simp only [not_mem_nil, false_iff]
    rintro ⟨d, hstate, -⟩
    obtain ⟨items, hmem, -⟩ := hl.active t d hstate
    cases hmem
  | cons e rest ih =>
    obtain ⟨d, items⟩ := e
    by_cases hd : now < d
    · refine ⟨_, [], if_pos hd, by simp, hl, nodup_nil, ?_, fun t => by simp, ?_⟩
      · intro t
        simp only [not_mem_nil, false_iff]
        rintro ⟨d', hstate, hle⟩
        obtain ⟨items', hmem, -⟩ := hl.active t d' hstate
        rcases mem_cons.1 hmem with heq | hmem
        · cases heq
          omega
        · have hlt : d < d' := rel_of_pairwise_cons hsorted hmem
          omega
      · intro e he
        rcases mem_cons.1 he with rfl | he
        · exact hd
        · have hlt : d < e.1 := rel_of_pairwise_cons hsorted he
          omega
    · have hactive : ∀ t ∈ items, (cells t).state ≠ .inActive := by
        intro t ht
        rw [(hl.mem_head hsorted t).1 ht]
        simp
      obtain ⟨cells', hall, hcells⟩ := fireAll_of_active (hl.nodup_head hsorted) hactive
      obtain ⟨left, new, hfire, hfired, hex⟩ :=
        ih (hl.tail hsorted hcells) hsorted.of_cons (fired ++ items)
      -- the timers of this entry are no longer active
      have hdisjoint : ∀ t, t ∈ items → t ∉ new := by
        intro t ht hnew
        obtain ⟨d', hstate, -⟩ := (hex.due t).1 hnew
        rw [hcells, if_pos ht] at hstate
        cases hstate
      refine ⟨left, items ++ new, ?_, ?_, hex.listed, ?_, ?_, ?_, hex.later⟩
      · simp only [fireEntries, if_neg hd, hall, ok_bind]
        exact hfire
      · rw [hfired, append_assoc]
      · refine nodup_append.2 ⟨hl.nodup_head hsorted, hex.once, ?_⟩
        intro t ht u hu heq
        exact hdisjoint t ht (heq ▸ hu)
      · intro t
        rw [mem_append, hex.due, hl.mem_head hsorted, hcells]
        constructor
        · rintro (hstate | ⟨d', hstate, hle⟩)
          · exact ⟨d, hstate, by omega⟩
          · split at hstate
            · cases hstate
            · exact ⟨d', hstate, hle⟩
        · rintro ⟨d', hstate, hle⟩
          by_cases ht : t ∈ items
          · exact .inl ((hl.mem_head hsorted t).1 ht)
          · exact .inr ⟨d', by rw [if_neg ht]; exact hstate, hle⟩
      · intro t
        rw [hex.cells, hcells]
        by_cases ht : t ∈ items
        · simp [ht, hdisjoint t ht]
        · simp [ht]

/-! ## The hardware -/

/-- What `set_timer` does: the hardware is armed no later than the tick
of the deadline, and no later than it was. -/
structure Arms (ts ts' : Timers) (deadline : Nat) : Prop where
  timers : ts'.timers = ts.timers
  cells : ts'.cells = ts.cells
  multiplier : ts'.multiplier = ts.multiplier
  current : ts'.current = some ts'.armed
  early : ts'.armed ≤ deadline / ts.multiplier
  earlier : ts.current ≠ none → ts'.armed ≤ ts.armed

theorem setTimer_arms (ts : Timers) (hm : ts.multiplier ≠ 0)
    (hcurrent : ∀ c, ts.current = some c → ts.armed = c) (deadline : Nat) :
    ∃ ts', ts.setTimer deadline = .ok ts' ∧ Arms ts ts' deadline := by
  unfold setTimer
  rw [if_neg hm]
  rcases hc : ts.current with _ | c
  · exact ⟨_, rfl, rfl, rfl, rfl, rfl, le_refl _, fun hne => absurd hc hne⟩
  · have harmed := hcurrent c hc
    simp only [any_some, decide_eq_true_eq]
    by_cases hle : c ≤ deadline / ts.multiplier
    · rw [if_pos hle]
      exact ⟨ts, rfl, rfl, rfl, rfl, by rw [hc, harmed], by omega, fun _ => le_refl _⟩
    · rw [if_neg hle]
      refine ⟨_, rfl, rfl, rfl, rfl, rfl, le_refl _, fun _ => ?_⟩
      simp only
      omega

/-! ## The invariant -/

/-- **What holds in every run.** While a timer is active, the hardware is
armed with the deadline that is on record. -/
structure Good (ts : Timers) : Prop where
  listed : Listed ts.timers.entries ts.cells
  armed : ∀ t d, (ts.cells t).state = .active d → ts.armed ≤ d / ts.multiplier
  idle : ts.current = none → ∀ t d, (ts.cells t).state ≠ .active d
  current : ∀ c, ts.current = some c → ts.armed = c

theorem Good.consistent (hg : ts.Good) : ts.Consistent :=
  ⟨hg.listed.active, hg.listed.elsewhere, hg.armed⟩

theorem good_boot (multiplier : Nat) : (boot multiplier).Good where
  listed := by
    constructor
    · nofun
    · nofun
  armed := nofun
  idle := nofun
  current := nofun

/-- **Setting a timer** does not panic, and the timers agree after it. -/
theorem Good.set (hg : ts.Good) (hm : ts.multiplier ≠ 0) (timer : Addr) (deadline : Nat) :
    ∃ ts', ts.set timer deadline = .ok ts' ∧ ts'.Good ∧ ts'.multiplier = ts.multiplier := by
  obtain ⟨timers', hremove, hremoved⟩ := hg.listed.remove timer
  have hlisted := hg.listed.push hremoved deadline ((ts.cells timer).emitter &&& ~~~ .readable)
  obtain ⟨ts', hset, harms⟩ := setTimer_arms { ts with
      timers := push timers' deadline timer
      cells := update ts.cells timer
        ⟨.active deadline, (ts.cells timer).emitter &&& ~~~ .readable⟩ }
    hm hg.current deadline
  refine ⟨ts', ?_, ⟨?_, ?_, ?_, ?_⟩, harms.multiplier⟩
  · simp only [Timers.set, hremove, ok_bind]
    exact hset
  · rw [harms.timers, harms.cells]
    exact hlisted
  · intro t d hstate
    rw [harms.cells] at hstate
    rw [harms.multiplier]
    by_cases ht : t = timer
    · subst ht
      simp only [update_self, TimerState.active.injEq] at hstate
      rw [← hstate]
      exact harms.early
    · simp only [update_of_ne ht] at hstate
      have hbusy : ts.current ≠ none := fun hnone => hg.idle hnone t d hstate
      exact le_trans (harms.earlier hbusy) (hg.armed t d hstate)
  · intro hnone
    rw [harms.current] at hnone
    cases hnone
  · intro c hc
    rw [harms.current] at hc
    exact some.inj hc

/-- Expiry of the timers as a whole, with the hardware unarmed. -/
theorem Good.fireExpiredTimers (hg : ts.Good) (now : Nat) :
    ∃ ts' fired, ts.acknowledgeTimer.fireExpiredTimers now =
        .ok (ts', fired, ts'.timers.entries.head?.map Prod.fst) ∧
      Listed ts'.timers.entries ts'.cells ∧ ts'.multiplier = ts.multiplier ∧
      ts'.current = none ∧ FiresDue ts ts' now fired := by
  obtain ⟨left, new, hfire, hfired, hex⟩ := fireEntries_expires hg.listed ts.timers.sorted now []
  rw [nil_append] at hfired
  refine ⟨{ ts.acknowledgeTimer with
    timers := ⟨left.entries, sorted_of_fireEntries ts.timers.sorted hfire⟩
    cells := left.cells }, new, ?_, hex.listed, rfl, rfl, hex.once, hex.due, hex.cells⟩
  unfold Timers.fireExpiredTimers
  split
  · rename_i stop hstop
    change fireEntries _ ts.timers.entries ts.cells [] = _ at hstop
    rw [hfire] at hstop
    cases hstop
  · rename_i left' hleft
    have hsame : left = left' := Except.ok.inj (hfire.symm.trans hleft)
    subst hsame
    rw [hfired]

/-- **An interrupt** does not panic, fires what is due, and the timers
agree after it. -/
theorem Good.interrupt (hg : ts.Good) (hm : ts.multiplier ≠ 0) {ticks : Nat}
    (hticks : ticks * ts.multiplier < 18446744073709551616) :
    ∃ ts' fired, ts.interrupt ticks = .ok (ts', fired) ∧ ts'.Good ∧
      ts'.multiplier = ts.multiplier ∧ FiresDue ts ts' (ticks * ts.multiplier) fired := by
  have hnow : ts.readMonotonicTime ticks = .ok (ticks * ts.multiplier) := by
    rw [readMonotonicTime, if_neg hm, if_neg (by omega)]
  obtain ⟨ts₁, fired, hexpired, hlisted, hmult, hcurrent, hdue⟩ :=
    hg.fireExpiredTimers (ticks * ts.multiplier)
  simp only [Timers.interrupt, hnow, ok_bind, hexpired]
  rcases hentries : ts₁.timers.entries with _ | ⟨⟨d, items⟩, rest⟩
  · -- nothing is left, and the hardware stays unarmed
    have hidle : ∀ t d, (ts₁.cells t).state ≠ .active d := by
      intro t d hstate
      obtain ⟨items, hmem, -⟩ := hlisted.active t d hstate
      rw [hentries] at hmem
      cases hmem
    refine ⟨_, fired, rfl, ⟨hlisted, ?_, fun _ => hidle, ?_⟩, hmult,
      hdue.once, hdue.due, hdue.cells⟩
    · exact fun t d hstate => absurd hstate (hidle t d)
    · intro c hc
      simp only [hcurrent] at hc
      cases hc
  · -- the next deadline is the least
    have hleast : ∀ d' items', (d', items') ∈ ts₁.timers.entries → d ≤ d' := by
      intro d' items' hmem
      have hsorted := ts₁.timers.sorted
      rw [hentries] at hmem hsorted
      rcases mem_cons.1 hmem with heq | hmem
      · cases heq
        exact le_refl _
      · exact le_of_lt (rel_of_pairwise_cons hsorted hmem)
    have hm₁ : ts₁.multiplier ≠ 0 := by rwa [hmult]
    have hc₁ : ∀ c, ts₁.current = some c → ts₁.armed = c := by
      intro c hc
      rw [hcurrent] at hc
      cases hc
    obtain ⟨ts', hset, harms⟩ := setTimer_arms ts₁ hm₁ hc₁ d
    simp only [List.head?_cons, map_some, elim_some, hset, ok_bind]
    have hcells : ∀ t, ts'.cells t = if t ∈ fired then afterFire (ts.cells t) else ts.cells t := by
      rw [harms.cells]
      exact hdue.cells
    refine ⟨_, fired, rfl, ⟨?_, ?_, ?_, ?_⟩, harms.multiplier.trans hmult,
      hdue.once, hdue.due, hcells⟩
    · simp only [harms.timers, harms.cells]
      exact hlisted
    · intro t d' hstate
      simp only [harms.cells] at hstate
      obtain ⟨items', hmem, -⟩ := hlisted.active t d' hstate
      simp only [harms.multiplier]
      exact Nat.le_trans harms.early (Nat.div_le_div_right (hleast d' items' hmem))
    · intro hnone
      simp only [harms.current] at hnone
      cases hnone
    · intro c hc
      simp only [harms.current] at hc
      exact some.inj hc

/-! ## Runs -/

theorem set_of_multiplier_zero (h : ts.multiplier = 0) (timer : Addr) (deadline : Nat) :
    (ts.set timer deadline).toOption = none := by
  unfold Timers.set
  cases remove ts.timers timer (ts.cells timer).state with
  | error stop => rfl
  | ok timers =>
    simp only [ok_bind, setTimer, if_pos h]
    rfl

/-- A tick that has no instant is a panic. -/
theorem interrupt_of_no_instant {ticks : Nat}
    (h : ts.multiplier = 0 ∨ 18446744073709551616 ≤ ticks * ts.multiplier) :
    (ts.interrupt ticks).toOption = none := by
  have hnow : ts.readMonotonicTime ticks = .error .panic := by
    unfold readMonotonicTime
    rcases h with hzero | hover
    · exact if_pos hzero
    · split
      · rfl
      · rfl
  simp only [Timers.interrupt, hnow]
  rfl

/-- **Every step keeps the invariant.** -/
theorem Good.step (hg : ts.Good) {op : Op} (h : ts.step op = some ts') :
    ts'.Good ∧ ts'.multiplier = ts.multiplier := by
  cases op with
  | set timer deadline =>
    simp only [Timers.step] at h
    by_cases hm : ts.multiplier = 0
    · rw [set_of_multiplier_zero hm] at h
      cases h
    · obtain ⟨ts₁, hset, hgood⟩ := hg.set hm timer deadline
      rw [hset] at h
      cases h
      exact hgood
  | interrupt ticks =>
    simp only [Timers.step] at h
    split at h
    · by_cases hm : ts.multiplier = 0 ∨ 18446744073709551616 ≤ ticks * ts.multiplier
      · rw [interrupt_of_no_instant hm] at h
        cases h
      · rw [not_or] at hm
        obtain ⟨ts₁, fired, hint, hgood, hmult, -⟩ := hg.interrupt hm.1 (not_le.1 hm.2)
        rw [hint] at h
        cases h
        exact ⟨hgood, hmult⟩
    · cases h

/-- **The timers agree, and interrupts fire what is due.** After any
calls of `Timer::set` and interrupts, an active timer is in `TIMERS`
once and under its deadline, no timer is anywhere else, and the hardware
is armed no later than the first deadline. With the frequency set, the
next call does not panic, and the next interrupt fires exactly the
timers that are due. -/
theorem agree_and_fire_due (multiplier : Nat) (ts : Timers)
    (h : machine.Reach (boot multiplier) ts) : ts.Consistent ∧ (0 < multiplier →
      (∀ timer deadline, ∃ ts', ts.set timer deadline = .ok ts') ∧
      ∀ ticks, ticks * multiplier < 18446744073709551616 →
        ∃ ts' fired, ts.interrupt ticks = .ok (ts', fired) ∧
          FiresDue ts ts' (ticks * multiplier) fired) := by
  have hinv : ts.Good ∧ ts.multiplier = multiplier := by
    refine h.invariant (I := fun ts => ts.Good ∧ ts.multiplier = multiplier)
      ⟨good_boot multiplier, rfl⟩ ?_
    intro x y op hx _ hs
    obtain ⟨hgood, hmult⟩ := hx.1.step hs
    exact ⟨hgood, hmult.trans hx.2⟩
  obtain ⟨hg, rfl⟩ := hinv
  refine ⟨hg.consistent, ?_⟩
  intro hm
  have hne : ts.multiplier ≠ 0 := ne_of_gt hm
  refine ⟨?_, ?_⟩
  · intro timer deadline
    obtain ⟨ts', hset, -⟩ := hg.set hne timer deadline
    exact ⟨ts', hset⟩
  · intro ticks hticks
    obtain ⟨ts', fired, hint, -, -, hdue⟩ := hg.interrupt hne hticks
    exact ⟨ts', fired, hint, hdue⟩

/-- Three timers, one of them set again to a later deadline, and an
interrupt at the first. -/
theorem agree_of_three_timers : ∃ ts, machine.Reach (boot 100) ts ∧
    ts.timers.entries = [(900, [1]), (2000, [3])] ∧ ts.current = some 9 ∧ ts.Consistent := by
  obtain ⟨ts, hreach, hentries, hcurrent⟩ : ∃ ts, machine.Reach (boot 100) ts ∧
      ts.timers.entries = [(900, [1]), (2000, [3])] ∧ ts.current = some 9 :=
    Machine.exists_reachUnder [.set 1 500, .set 2 500, .set 3 2000, .set 1 900, .interrupt 5]
      (by decide +kernel)
  exact ⟨ts, hreach, hentries, hcurrent, (agree_and_fire_due 100 ts hreach).1⟩

end Archives.Ftl.Timers
