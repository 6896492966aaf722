import Mathlib.Data.List.Pairwise
import Archives.Common.Except
import Archives.Ftl.Model.RangeMap
/-!
# FTL — what the range map keeps and what its search finds

Whatever is inserted in whatever order, the stored ranges are not empty
and pairwise disjoint, because `insert` tests every new range against
all of them. The search for a gap makes no such test: it walks the
entries as they were inserted. `searchFrom_spec` says what it finds
where that order is the order of the addresses.
-/

namespace Archives.Ftl

open List Option Range

variable {V : Type}

namespace RangeMap

variable {map map' : RangeMap V} {size : Nat} {within range : Range} {value : V} {op : Op V}

/-! ## Insertion -/

theorem overlapsWith_eq_false :
    map.overlapsWith range = false ↔ ∀ e ∈ map.entries, ¬ e.range.Meets range := by
  simp [overlapsWith, Range.Meets]

/-- **What a successful insertion was.** -/
theorem insert_eq_ok : map.insert range value = .ok map' ↔
    range.start < range.stop ∧ (∀ e ∈ map.entries, ¬ e.range.Meets range) ∧
      map' = ⟨map.entries ++ [⟨range, value⟩]⟩ := by
  rw [insert, ite_eq_ok, ite_eq_ok]
  simp only [reduceCtorEq, and_false, false_or, Bool.not_eq_true, overlapsWith_eq_false,
    Except.ok.injEq, Nat.not_le]
  exact ⟨fun ⟨hlt, hfree, heq⟩ => ⟨hlt, hfree, heq.symm⟩,
    fun ⟨hlt, hfree, heq⟩ => ⟨hlt, hfree, heq.symm⟩⟩

/-- An insertion keeps the entries non-empty and apart. -/
theorem WellFormed.insert (hm : map.WellFormed) (h : map.insert range value = .ok map') :
    map'.WellFormed := by
  obtain ⟨hlt, hfree, rfl⟩ := insert_eq_ok.mp h
  refine ⟨fun e he => ?_, pairwise_append.mpr ⟨hm.apart, pairwise_singleton _ _, ?_⟩⟩
  · rcases mem_append.mp he with hmem | hnew
    · exact hm.nonempty e hmem
    · rw [mem_singleton.mp hnew]
      exact hlt
  · intro e he e' he'
    rw [mem_singleton.mp he']
    exact apart_of_not_meets (hfree e he)

/-- What is placed was inserted. -/
theorem place_eq_ok {space : Option Range} (h : map.place value space = .ok (range, map')) :
    space = some range ∧ map.insert range value = .ok map' := by
  cases space with
  | none => simp [place] at h
  | some r =>
    obtain ⟨m, hm, hpure⟩ := bind_eq_ok.mp h
    obtain ⟨rfl, rfl⟩ := hpure
    exact ⟨rfl, hm⟩

/-- **What a call does**: nothing, or one insertion. -/
theorem perform_cases (h : map.perform op = some map') :
    map' = map ∨ ∃ range value, map.insert range value = .ok map' := by
  cases op with
  | insert range value =>
    simp only [RangeMap.perform, some.injEq] at h
    subst h
    cases hi : map.insert range value with
    | error v => exact .inl rfl
    | ok m => exact .inr ⟨range, value, hi⟩
  | insertAnywhere size within value =>
    simp only [RangeMap.perform, map_eq_some_iff] at h
    obtain ⟨result, hr, rfl⟩ := h
    cases result with
    | error v => exact .inl rfl
    | ok found =>
      obtain ⟨space, -, hplace⟩ := bind_eq_ok.mp (eq_ok_of_toOption hr)
      exact .inr ⟨_, value, (place_eq_ok (pure_eq_ok.mp hplace)).2⟩

/-- A call keeps the entries non-empty and apart. -/
theorem WellFormed.perform (hm : map.WellFormed) (h : map.perform op = some map') :
    map'.WellFormed := by
  rcases perform_cases h with rfl | ⟨range, value, hinsert⟩
  · exact hm
  · exact hm.insert hinsert

/-- A call keeps every entry. -/
theorem mem_of_perform (h : map.perform op = some map') : ∀ e ∈ map.entries, e ∈ map'.entries := by
  intro e he
  rcases perform_cases h with rfl | ⟨range, value, hinsert⟩
  · exact he
  · obtain ⟨-, -, rfl⟩ := insert_eq_ok.mp hinsert
    exact mem_append_left _ he

/-- Every map that calls lead to has non-empty entries, apart. -/
theorem wellFormed_of_reach (h : machine.Reach (new : RangeMap V) map) : map.WellFormed :=
  h.invariant ⟨by simp [new], by simp [new]⟩ fun hm _ hs => hm.perform hs

/-! ## The search -/

/-- The entries still ahead of the search: those that start inside the
bounds lie above `prevEnd`, each above the one before. -/
structure Ahead (within : Range) (prevEnd : Nat) (entries : List (RangeEntry V)) : Prop where
  above : ∀ e ∈ entries, within.contains e.range.start = true → prevEnd ≤ e.range.start
  ascending : (entries.filter fun e => within.contains e.range.start).Pairwise
    fun e e' => e.range.stop ≤ e'.range.start

/-- A range of the size, inside the bounds and above `prevEnd`. -/
structure Fits (size : Nat) (within : Range) (prevEnd : Nat) (r : Range) : Prop where
  length : r.stop = r.start + size
  above : prevEnd ≤ r.start
  inside : r.stop ≤ within.stop

/-- What the search should find among the entries that start inside the
bounds. -/
structure Finds (size : Nat) (within : Range) (prevEnd : Nat) (entries : List (RangeEntry V))
    (found : Option Range) : Prop where
  sound : ∀ r, found = some r → Fits size within prevEnd r ∧
    ∀ e ∈ entries, within.contains e.range.start = true → ¬ e.range.Meets r
  complete : found = none → ∀ r, Fits size within prevEnd r →
    ∃ e ∈ entries, within.contains e.range.start = true ∧ e.range.Meets r

variable {entry : RangeEntry V} {entries : List (RangeEntry V)} {prevEnd : Nat}
  {found : Option Range}

theorem Ahead.of_cons_outside (h : Ahead within prevEnd (entry :: entries))
    (hout : ¬ within.contains entry.range.start = true) : Ahead within prevEnd entries := by
  refine ⟨fun e he => h.above e (mem_cons_of_mem _ he), ?_⟩
  have hpair := h.ascending
  rwa [filter_cons, if_neg hout] at hpair

theorem Ahead.of_cons_inside (h : Ahead within prevEnd (entry :: entries))
    (hin : within.contains entry.range.start = true) : Ahead within entry.range.stop entries := by
  have hpair := h.ascending
  rw [filter_cons, if_pos hin, pairwise_cons] at hpair
  exact ⟨fun e he hc => hpair.1 e (mem_filter.mpr ⟨he, hc⟩), hpair.2⟩

/-- An entry that starts outside the bounds plays no part. -/
theorem Finds.cons_outside (h : Finds size within prevEnd entries found)
    (hout : ¬ within.contains entry.range.start = true) :
    Finds size within prevEnd (entry :: entries) found := by
  refine ⟨fun r hr => ⟨(h.sound r hr).1, fun e he hc => ?_⟩, fun hnone r hr => ?_⟩
  · rcases mem_cons.mp he with rfl | he
    · exact absurd hc hout
    · exact (h.sound r hr).2 e he hc
  · obtain ⟨e, he, hmeets⟩ := h.complete hnone r hr
    exact ⟨e, mem_cons_of_mem _ he, hmeets⟩

/-- Where the gap before an entry is too small, the search goes on
above the entry. -/
theorem Finds.cons_inside (h : Finds size within entry.range.stop entries found)
    (hin : within.contains entry.range.start = true) (hne : entry.range.start < entry.range.stop)
    (hge : prevEnd ≤ entry.range.start) (hsmall : entry.range.start < prevEnd + size) :
    Finds size within prevEnd (entry :: entries) found := by
  refine ⟨fun r hr => ?_, fun hnone r hr => ?_⟩
  · obtain ⟨hfits, hfree⟩ := h.sound r hr
    have habove := hfits.above
    refine ⟨⟨hfits.length, by omega, hfits.inside⟩, fun e he hc => ?_⟩
    rcases mem_cons.mp he with rfl | he
    · exact fun hmeets => by have := hmeets.2; omega
    · exact hfree e he hc
  · -- a range that starts below the end of the entry meets it
    rcases Nat.lt_or_ge r.start entry.range.stop with hlow | hhigh
    · have hlen := hr.length
      have habove := hr.above
      exact ⟨entry, mem_cons_self .., hin, by omega, hlow⟩
    · obtain ⟨e, he, hmeets⟩ := h.complete hnone r ⟨hr.length, hhigh, hr.inside⟩
      exact ⟨e, mem_cons_of_mem _ he, hmeets⟩

/-- The gap before the first entry, where it is large enough. -/
theorem Finds.here (h : Ahead within prevEnd (entry :: entries))
    (hin : within.contains entry.range.start = true) (hne : entry.range.start < entry.range.stop)
    (hroom : prevEnd + size ≤ entry.range.start) :
    Finds size within prevEnd (entry :: entries) (some ⟨prevEnd, prevEnd + size⟩) := by
  have hstop := (contains_eq_true.mp hin).2
  refine ⟨?_, by simp⟩
  rintro r ⟨⟩
  refine ⟨⟨rfl, Nat.le_refl _, by simp only; omega⟩, fun e he hc hmeets => ?_⟩
  have hlow : e.range.start < prevEnd + size := hmeets.1
  rcases mem_cons.mp he with rfl | he
  · omega
  · have := (h.of_cons_inside hin).above e he hc
    omega

/-- **What the search finds.** With the entries ahead in ascending order
it does not panic, and it finds a gap among them if there is one. -/
theorem searchFrom_spec (hne : ∀ e ∈ entries, e.range.start < e.range.stop)
    (h : Ahead within prevEnd entries) :
    ∃ found, searchFrom size within prevEnd entries = .ok found ∧
      Finds size within prevEnd entries found := by
  induction entries generalizing prevEnd with
  | nil =>
    rw [searchFrom]
    by_cases hroom : prevEnd ≤ within.stop ∧ size ≤ within.stop - prevEnd
    · rw [if_pos hroom]
      refine ⟨_, rfl, ?_, by simp⟩
      rintro r ⟨⟩
      exact ⟨⟨rfl, Nat.le_refl _, by simp only; omega⟩, by simp⟩
    · rw [if_neg hroom]
      refine ⟨_, rfl, by simp, fun _ r hr => ?_⟩
      obtain ⟨hlen, habove, hinside⟩ := hr
      exact absurd ⟨by omega, by omega⟩ hroom
  | cons entry rest ih =>
    have hrest : ∀ e ∈ rest, e.range.start < e.range.stop :=
      fun e he => hne e (mem_cons_of_mem _ he)
    have hentry := hne entry (mem_cons_self ..)
    rw [searchFrom]
    by_cases hin : within.contains entry.range.start = true
    · have hge := h.above entry (mem_cons_self ..) hin
      have hstop := (contains_eq_true.mp hin).2
      rw [if_neg (not_not_intro hin), if_neg (by omega)]
      rcases Nat.lt_or_ge entry.range.start (prevEnd + size) with hsmall | hroom
      · rw [if_neg (by omega)]
        obtain ⟨found, hfound, hspec⟩ := ih hrest (h.of_cons_inside hin)
        exact ⟨found, hfound, hspec.cons_inside hin hentry hge hsmall⟩
      · rw [if_pos (by omega)]
        exact ⟨_, rfl, .here h hin hentry hroom⟩
    · rw [if_pos hin]
      obtain ⟨found, hfound, hspec⟩ := ih hrest (h.of_cons_outside hin)
      exact ⟨found, hfound, hspec.cons_outside hin⟩

/-! ## Requests -/

/-- Entries in order all lie ahead at the start of the search. -/
theorem InOrder.ahead (hm : map.WellFormed) (ho : map.InOrder within) :
    Ahead within within.start map.entries := by
  refine ⟨fun e _ hc => (contains_eq_true.mp hc).1, ?_⟩
  have hboth := ho.ascending.and (hm.apart.filter fun e => within.contains e.range.start)
  refine hboth.imp_of_mem fun {e e'} _ he' h => ?_
  exact h.2.stop_le_start (hm.nonempty e' (mem_filter.mp he').1) h.1

/-- A range inside the bounds meets none of the entries that start
outside of them. -/
theorem InOrder.not_meets_outside (ho : map.InOrder within) {e : RangeEntry V}
    (he : e ∈ map.entries) (hout : ¬ within.contains e.range.start = true)
    (hr : Fits size within within.start range) : ¬ e.range.Meets range := by
  intro hmeets
  obtain ⟨hlow, hhigh⟩ : e.range.start < range.stop ∧ range.start < e.range.stop := hmeets
  have habove := hr.above
  have hinside := hr.inside
  rcases Nat.lt_or_ge e.range.start within.start with hlt | hge
  · have := ho.below e he hlt
    omega
  · exact hout (contains_eq_true.mpr ⟨hge, by omega⟩)

/-- **A request on entries in order is served.** -/
theorem serves_of_inOrder (hm : map.WellFormed) (ho : map.InOrder within) :
    map.Serves size within value := by
  rcases Nat.eq_zero_or_pos size with rfl | hpos
  · refine ⟨.error value, by simp [insertAnywhere, findSpace, place],
      by simp [Except.isOk, Except.toBool], by simp⟩
  obtain ⟨found, hfound, hspec⟩ := searchFrom_spec hm.nonempty (ho.ahead hm)
  have hcall : map.insertAnywhere size within value = .ok (map.place value found) := by
    rw [insertAnywhere, findSpace, if_neg (by omega), hfound]
    rfl
  refine ⟨_, hcall, ?_⟩
  cases found with
  | none =>
    refine ⟨⟨by simp [place, Except.isOk, Except.toBool], fun ⟨_, r, hgap⟩ => ?_⟩, by simp [place]⟩
    obtain ⟨e, he, -, hmeets⟩ := hspec.complete rfl r ⟨hgap.length, hgap.inside.1, hgap.inside.2⟩
    have hlen := hgap.length
    exact absurd hmeets ((hgap.free e he).not_meets (hm.nonempty e he) (by omega))
  | some r =>
    obtain ⟨hfits, hfree⟩ := hspec.sound r rfl
    have hnone : ∀ e ∈ map.entries, ¬ e.range.Meets r := by
      intro e he
      by_cases hin : within.contains e.range.start = true
      · exact hfree e he hin
      · exact ho.not_meets_outside he hin hfits
    have hgap : map.Gap size within r :=
      ⟨hfits.length, ⟨hfits.above, hfits.inside⟩, fun e he => apart_of_not_meets (hnone e he)⟩
    have hlen := hfits.length
    have hins : map.insert r value = .ok ⟨map.entries ++ [⟨r, value⟩]⟩ :=
      insert_eq_ok.mpr ⟨by omega, hnone, rfl⟩
    have hplace : map.place value (some r) = .ok (r, ⟨map.entries ++ [⟨r, value⟩]⟩) := by
      rw [place, hins]
      rfl
    rw [hplace]
    refine ⟨⟨fun _ => ⟨hpos, r, hgap⟩, fun _ => rfl⟩, ?_⟩
    rintro range map' ⟨⟩
    exact ⟨hgap, rfl⟩

/-- **The range map over its runs.** Wherever calls in any order lead,
the stored ranges are non-empty and pairwise disjoint, and a request
whose bounds see the entries in order is served. -/
theorem wellFormed_and_serves (h : machine.Reach (new : RangeMap V) map) :
    map.WellFormed ∧ ∀ size within value, map.InOrder within → map.Serves size within value :=
  ⟨wellFormed_of_reach h, fun _ _ _ ho => serves_of_inOrder (wellFormed_of_reach h) ho⟩

/-- Two areas at fixed addresses and one between them, placed by a
request. -/
theorem serves_between_two_areas : ∃ map : RangeMap Nat,
    machine.Reach (new : RangeMap Nat) map ∧ map.entries.length = 3 ∧ map.Serves 8 ⟨0, 60⟩ 4 := by
  obtain ⟨map, hreach, hmap⟩ : ∃ map : RangeMap Nat, machine.Reach new map ∧
      map = ⟨[⟨⟨0, 10⟩, 1⟩, ⟨⟨20, 30⟩, 2⟩, ⟨⟨30, 42⟩, 3⟩]⟩ :=
    Machine.exists_reachUnder
      [.insert ⟨0, 10⟩ 1, .insert ⟨20, 30⟩ 2, .insertAnywhere 12 ⟨0, 60⟩ 3] (by decide +kernel)
  refine ⟨map, hreach, by rw [hmap]; rfl, (wellFormed_and_serves hreach).2 _ _ _ ?_⟩
  rw [hmap]
  exact ⟨by decide, by decide⟩

/-- **A search that steps back.** With the area at 10 inserted before
the one at 0, a request for 12 addresses panics, though those from 20 on
are free. And a request that was placed at 0, after the area at 10, is
found free again: the next one fails, though 20 to 30 is free. -/
theorem not_serves_of_descending : ∃ map map' : RangeMap Nat,
    machine.Reach (new : RangeMap Nat) map ∧ machine.Reach (new : RangeMap Nat) map' ∧
      map.Gap 12 ⟨0, 40⟩ ⟨20, 32⟩ ∧ map.insertAnywhere 12 ⟨0, 40⟩ 3 = .error .panic ∧
      map'.Gap 5 ⟨0, 30⟩ ⟨20, 25⟩ ∧ map'.insertAnywhere 5 ⟨0, 30⟩ 3 = .ok (.error 3) := by
  have hrun : machine.run (new : RangeMap Nat) [.insert ⟨10, 20⟩ 1, .insert ⟨0, 5⟩ 2] =
      some ⟨[⟨⟨10, 20⟩, 1⟩, ⟨⟨0, 5⟩, 2⟩]⟩ := by
    decide +kernel
  have hrun' : machine.run (new : RangeMap Nat) [.insert ⟨10, 20⟩ 1, .insertAnywhere 10 ⟨0, 30⟩ 2] =
        some ⟨[⟨⟨10, 20⟩, 1⟩, ⟨⟨0, 10⟩, 2⟩]⟩ := by
    decide +kernel
  refine ⟨_, _, Machine.reach_of_run hrun, Machine.reach_of_run hrun',
    ⟨rfl, by decide, fun e he => ?_⟩, by decide +kernel,
    ⟨rfl, by decide, fun e he => ?_⟩, by decide +kernel⟩
  · refine apart_of_not_meets ?_
    simp only [mem_cons, not_mem_nil, or_false] at he
    rcases he with rfl | rfl <;> decide
  · refine apart_of_not_meets ?_
    simp only [mem_cons, not_mem_nil, or_false] at he
    rcases he with rfl | rfl <;> decide

/-- A key is looked up in the only entry that holds it. -/
theorem get_eq_some_iff (hm : map.WellFormed) {key : Nat} {e : RangeEntry V} :
    map.get key = some e ↔ e ∈ map.entries ∧ e.range.Holds key := by
  constructor
  · intro h
    have hkey := find?_some (p := fun e : RangeEntry V => e.range.contains key) h
    exact ⟨mem_of_find?_eq_some h, contains_eq_true.mp hkey⟩
  · rintro ⟨he, hkey⟩
    cases hfind : map.get key with
    | none => exact absurd (contains_eq_true.mpr hkey) (find?_eq_none.mp hfind e he)
    | some e' =>
      have hkey' := find?_some (p := fun e : RangeEntry V => e.range.contains key) hfind
      have hsymm : Std.Symm fun x y : RangeEntry V => x.range.Apart y.range := ⟨fun _ _ hd => hd.symm⟩
      by_contra hne
      exact hm.apart.forall he (mem_of_find?_eq_some hfind)
        (fun heq => hne (congrArg some heq.symm)) key hkey (contains_eq_true.mp hkey')

end RangeMap

/-! ## Address spaces -/

namespace VmSpace

variable {uaddrRange : Range} {space space' : VmSpace V} {uaddr len : Nat} {mapping : V}

/-- A call that maps an area is a call on the map of areas. -/
theorem exists_perform (h : (machine uaddrRange).step space (uaddr, len, mapping) = some space') :
    ∃ op, space.vmareas.perform op = some space'.vmareas := by
  simp only [machine, map_eq_some_iff] at h
  obtain ⟨result, hresult, rfl⟩ := h
  by_cases hzero : uaddr = 0
  · refine ⟨.insertAnywhere len uaddrRange mapping, ?_⟩
    rw [VmSpace.map, if_pos hzero, insertAnywhere] at hresult
    rw [RangeMap.perform]
    cases hcall : space.vmareas.insertAnywhere len uaddrRange mapping with
    | error x =>
      rw [hcall] at hresult
      cases hresult
    | ok answer =>
      rw [hcall] at hresult
      cases hresult
      cases answer <;> rfl
  · refine ⟨.insert ⟨uaddr, uaddr + len⟩ mapping, ?_⟩
    rw [VmSpace.map, if_neg hzero, insertAt] at hresult
    rw [RangeMap.perform]
    by_cases hover : 18446744073709551616 ≤ uaddr + len
    · rw [if_pos hover] at hresult
      cases hresult
    · rw [if_neg hover] at hresult
      cases hresult
      cases space.vmareas.insert ⟨uaddr, uaddr + len⟩ mapping <;> rfl

/-- **The areas of an address space are a range map in use**: what holds
of every map its calls lead to holds of them. -/
theorem reach_vmareas (h : (machine uaddrRange).Reach (⟨.new⟩ : VmSpace V) space) :
    RangeMap.machine.Reach (.new : RangeMap V) space.vmareas := by
  induction h with
  | refl => exact .refl
  | tail _ _ hs ih =>
    obtain ⟨op, hop⟩ := exists_perform hs
    exact ih.tail trivial hop

/-- **A mapping stays.** Whatever is mapped before it and after it, a
lookup at any of its addresses finds it. -/
theorem get_of_mapped {e : RangeEntry V} {key : Nat}
    (h : (machine uaddrRange).Reach (⟨.new⟩ : VmSpace V) space)
    (hlater : (machine uaddrRange).Reach space space') (he : e ∈ space.vmareas.entries)
    (hkey : e.range.Holds key) : space'.vmareas.get key = some e := by
  have hmem : e ∈ space'.vmareas.entries :=
    hlater.invariant (I := fun s => e ∈ s.vmareas.entries) he fun hx _ hs => by
      obtain ⟨op, hop⟩ := exists_perform hs
      exact RangeMap.mem_of_perform hop e hx
  have hwf := RangeMap.wellFormed_of_reach (reach_vmareas (h.trans hlater))
  exact (RangeMap.get_eq_some_iff hwf).2 ⟨hmem, hkey⟩

/-- The area at 16 is found after one was mapped below it. -/
theorem get_of_mapped_above : ∃ space : VmSpace Nat,
    (machine ⟨1, 64⟩).Reach ⟨.new⟩ space ∧ space.vmareas.get 20 = some ⟨⟨16, 32⟩, 1⟩ := by
  obtain ⟨s, hs, he, s', hs', -⟩ : ∃ s, (machine ⟨1, 64⟩).Reach (⟨.new⟩ : VmSpace Nat) s ∧
      ⟨⟨16, 32⟩, 1⟩ ∈ s.vmareas.entries ∧ ∃ s' ∈ (machine ⟨1, 64⟩).run s [(0, 8, 2)],
        s'.vmareas.entries.length = 2 :=
    Machine.exists_reachUnder [(16, 16, 1)] (by decide +kernel)
  have hs' := Machine.reach_of_run hs'
  exact ⟨s', hs.trans hs', get_of_mapped hs hs' he ⟨by decide, by decide⟩⟩

end VmSpace

end Archives.Ftl
