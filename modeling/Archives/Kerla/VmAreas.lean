import Archives.Common.Except
import Archives.Kerla.Model.Vm
/-!
# Kerla — when the memory areas of a process are apart

A new area is tested against every area there is, the heap among them.
The heap itself grows in place and is tested against the stack only. So
the areas of a process stay apart exactly as long as no `brk` moves the
end of the heap into a mapped area.
-/

namespace Archives.Kerla.Vm

open Call List Nat Option

variable {vm vm' : Vm} {start len newHeapEnd : Nat} {I : Vm → Prop}

/-- A vm with its areas apart and the heap below the stack. -/
structure Laid (vm : Vm) : Prop where
  apart : vm.Apart
  heap_le : vm.heapEnd ≤ vm.stackVma.start
  stack_le : vm.stackVma.start ≤ userStackTop

/-! ## New areas -/

/-- A range that passes the test of an area has no address of it. -/
theorem apart_of_not_overlaps {area : VmArea} (areaType : VmAreaType)
    (h : area.overlaps start len = false) :
    area.range.Apart (VmArea.mk start len areaType).range := by
  refine Range.apart_of_not_meets fun hmeets => ?_
  simp only [VmArea.overlaps, Bool.and_eq_false_iff, decide_eq_false_iff_not] at h
  obtain ⟨hlow, hhigh⟩ : area.start < start + len ∧ start < area.start + area.len := hmeets
  omega

/-- A new area that passed the tests leaves the areas apart. -/
theorem Laid.addArea (h : vm.Laid) (areaType : VmAreaType) (hfree : vm.isFree start len = true) :
    ({ vm with others := vm.others ++ [⟨start, len, areaType⟩] } : Vm).Laid := by
  refine ⟨?_, h.heap_le, h.stack_le⟩
  refine pairwise_append.mpr ⟨h.apart, pairwise_singleton _ _, fun area harea new hnew => ?_⟩
  rw [mem_singleton.mp hnew]
  refine apart_of_not_overlaps areaType ?_
  simpa using all_eq_true.mp hfree area harea

theorem triple_checkedAdd (a b : Nat) :
    (checkedAdd a b).Triple I (fun sum vm => I vm ∧ sum = a + b) I :=
  triple_ite (fun _ => triple_pure fun _ h => ⟨h, rfl⟩) fun _ => triple_stop

theorem keeps_checkedAdd (a b : Nat) : (checkedAdd a b).Keeps I :=
  (triple_checkedAdd a b).weaken (fun _ h => h) (fun _ _ h => h.1) fun _ h => h

/-- The test for free addresses gives what it computes. -/
theorem triple_isFreeVaddrRange :
    (isFreeVaddrRange start len).Triple I (fun free vm => I vm ∧ free = vm.isFree start len) I := by
  refine triple_bind (keeps_checkedAdd start len) fun _ => triple_state_bind fun vm hvm => ?_
  refine triple_pure fun s hs => ?_
  rw [hs]
  exact ⟨hvm, rfl⟩

theorem keeps_addVmArea (start len : Nat) (areaType : VmAreaType) :
    (addVmArea start len areaType).Keeps Laid := by
  refine triple_ite (fun _ => triple_fail fun _ h => h) fun _ => ?_
  refine triple_bind triple_isFreeVaddrRange fun free => triple_ite (fun _ => ?_) fun hfree => ?_
  · exact triple_fail fun _ h => h.1
  · exact triple_update fun vm h => h.1.addArea areaType (h.2 ▸ by simpa using hfree)

theorem keeps_allocVaddrRange (len : Nat) : (allocVaddrRange len).Keeps Laid := by
  refine triple_state_bind fun vm hvm => ?_
  refine (triple_bind (keeps_checkedAdd (I := Laid) _ _) fun next => ?_).weaken
    (fun s hs => hs ▸ hvm) (fun _ _ h => h) fun _ h => h
  refine triple_update_bind (Q := Laid) (fun s hs => ⟨hs.apart, hs.heap_le, hs.stack_le⟩) ?_
  exact triple_ite (fun _ => triple_fail fun _ h => h) fun _ => triple_pure fun _ h => h

theorem keeps_mmapAddr (addrHint : Option Nat) (len : Nat) (fixed : Bool) :
    (mmapAddr addrHint len fixed).Keeps Laid := by
  cases addrHint with
  | none => exact keeps_allocVaddrRange len
  | some hint =>
    refine triple_bind (triple_isFreeVaddrRange.weaken (fun _ h => h) (fun _ _ h => h.1) fun _ h => h)
      fun free => triple_ite (fun _ => triple_pure fun _ h => h) fun _ => ?_
    exact triple_ite (fun _ => triple_fail fun _ h => h) fun _ => keeps_allocVaddrRange len

theorem keeps_sysMmap (addrHint : Option Nat) (len : Nat) (anonymous fixed : Bool)
    (file : Except Errno Nat) (offset : Nat) :
    (sysMmap addrHint len anonymous fixed file offset).Keeps Laid := by
  refine triple_ite (fun _ => triple_fail fun _ h => h) fun _ => ?_
  refine triple_ite (fun _ => triple_fail fun _ h => h) fun _ => ?_
  refine triple_lift_bind (fun _ h => h) fun areaType _ => ?_
  refine triple_bind (keeps_mmapAddr addrHint len fixed) fun addr => ?_
  exact triple_bind (keeps_addVmArea addr len areaType) fun _ => triple_pure fun _ h => h

/-! ## The heap -/

def grown (vm : Vm) (newHeapEnd : Nat) : Vm :=
  { vm with
    heapVma := { vm.heapVma with
      len := vm.heapVma.len + alignUp (newHeapEnd - vm.heapEnd) pageSize } }

theorem others_grown (vm : Vm) (newHeapEnd : Nat) : (vm.grown newHeapEnd).others = vm.others := by
  simp only [grown]

theorem stackVma_grown (vm : Vm) (newHeapEnd : Nat) :
    (vm.grown newHeapEnd).stackVma = vm.stackVma := by
  simp only [grown]

theorem heapEnd_grown (vm : Vm) (newHeapEnd : Nat) :
    (vm.grown newHeapEnd).heapEnd = (vm.heapGain newHeapEnd).stop := by
  simp only [grown, heapEnd, heapGain, VmArea.range, Nat.add_assoc]

/-- **What a `brk` does.** It fails and changes nothing, or it grows the
heap, to below the stack. -/
theorem triple_expandHeapTo (vm : Vm) (newHeapEnd : Nat) : (expandHeapTo newHeapEnd).Triple (· = vm)
      (fun _ vm' => vm.heapEnd ≤ newHeapEnd ∧ (vm.heapGain newHeapEnd).stop < vm.stackVma.start ∧
        vm' = vm.grown newHeapEnd) (· = vm) := by
  refine triple_state_bind fun s hs => ?_
  subst hs
  refine triple_ite (fun _ => triple_fail fun _ h => h) fun hge => ?_
  refine triple_state_bind fun s hs => ?_
  subst hs
  refine triple_bind (triple_checkedAdd _ _) fun top => ?_
  refine triple_ite (fun _ => triple_fail fun _ h => h.1) fun hbelow => ?_
  refine triple_update fun t ht => ?_
  obtain ⟨heq, htop⟩ := ht
  rw [htop] at hbelow
  rw [heq]
  refine ⟨Nat.le_of_not_lt hge, ?_, rfl⟩
  exact Nat.lt_of_not_le hbelow

/-- A `brk` to above the end of the heap and below the stack goes
through. -/
theorem run_expandHeapTo (h : vm.Laid) (hge : vm.heapEnd ≤ newHeapEnd)
    (hbelow : (vm.heapGain newHeapEnd).stop < vm.stackVma.start) :
    (expandHeapTo newHeapEnd).run vm = .ok (.ok (), vm.grown newHeapEnd) := by
  have hfits : vm.heapEnd + alignUp (newHeapEnd - vm.heapEnd) pageSize < usizeLimit :=
    lt_trans hbelow (lt_of_le_of_lt h.stack_le (by decide))
  have hadd : ∀ s, (checkedAdd vm.heapEnd (alignUp (newHeapEnd - vm.heapEnd) pageSize)).run s =
      .ok (.ok (vm.heapEnd + alignUp (newHeapEnd - vm.heapEnd) pageSize), s) := by
    intro s
    rw [checkedAdd, if_pos hfits, run_pure]
  have hstack : ¬ vm.stackVma.start ≤ vm.heapEnd + alignUp (newHeapEnd - vm.heapEnd) pageSize :=
    not_le.mpr hbelow
  simp only [expandHeapTo, expandHeapBy, run_bind, run_state, if_neg (not_lt.mpr hge),
    hadd, if_neg hstack, run_update]
  rfl

/-- The heap grown holds the addresses it held and those it gained. -/
theorem holds_grown {a : Nat} : (vm.grown newHeapEnd).heapVma.range.Holds a ↔
    vm.heapVma.range.Holds a ∨ (vm.heapGain newHeapEnd).Holds a := by
  simp only [Range.Holds, VmArea.range, grown, heapGain, heapEnd]
  omega

/-- So it is apart from a range when both of these are. -/
theorem apart_grown {r : Range} : (vm.grown newHeapEnd).heapVma.range.Apart r ↔
    vm.heapVma.range.Apart r ∧ (vm.heapGain newHeapEnd).Apart r := by
  simp only [Range.Apart, holds_grown]
  exact ⟨fun h => ⟨fun a ha => h a (.inl ha), fun a ha => h a (.inr ha)⟩,
    fun h a ha => ha.elim (h.1 a) (h.2 a)⟩

/-- The heap grown, below the stack, is apart from the other areas
exactly when what it gained is. -/
theorem apart_grown_iff (h : vm.Laid) (hbelow : (vm.heapGain newHeapEnd).stop < vm.stackVma.start) :
    (vm.grown newHeapEnd).Apart ↔
      ∀ area ∈ vm.others, (vm.heapGain newHeapEnd).Apart area.range := by
  have hapart := h.apart
  simp only [Apart, vmAreas, pairwise_cons, forall_mem_cons] at hapart
  simp only [Apart, vmAreas, pairwise_cons, forall_mem_cons, others_grown, stackVma_grown]
  obtain ⟨⟨hstackheap, hstack⟩, hheap, hothers⟩ := hapart
  constructor
  · rintro ⟨-, hgrown, -⟩ area harea
    exact (apart_grown.mp (hgrown area harea)).2
  · intro hgain
    have hbelow' : (vm.heapGain newHeapEnd).Apart vm.stackVma.range :=
      Range.apart_of_not_meets fun hmeets => lt_irrefl _ (lt_trans hmeets.2 hbelow)
    exact ⟨⟨(apart_grown.mpr ⟨hstackheap.symm, hbelow'⟩).symm, hstack⟩,
      fun area harea => apart_grown.mpr ⟨hheap area harea, hgain area harea⟩, hothers⟩

/-! ## Runs -/

/-- The step of a call that ends. -/
theorem exists_run_of_step {op : Op} (h : machine.step vm op = some vm') :
    ∃ r, (perform op).run vm = .ok (r, vm') := by
  obtain ⟨⟨r, t⟩, hrun, rfl⟩ := map_eq_some_iff.mp h
  exact ⟨r, eq_ok_of_toOption hrun⟩

/-- The step of a `brk`: nothing, or the heap grown. -/
theorem step_brk (h : machine.step vm (.brk (some newHeapEnd)) = some vm') :
    vm' = vm ∨ vm.heapEnd ≤ newHeapEnd ∧ (vm.heapGain newHeapEnd).stop < vm.stackVma.start ∧
      vm' = vm.grown newHeapEnd := by
  obtain ⟨r, hrun⟩ := exists_run_of_step h
  have htriple : (perform (.brk (some newHeapEnd))).Triple (· = vm)
      (fun _ vm' => vm.heapEnd ≤ newHeapEnd ∧ (vm.heapGain newHeapEnd).stop < vm.stackVma.start ∧
        vm' = vm.grown newHeapEnd) (· = vm) := by
    refine triple_bind (triple_bind (triple_expandHeapTo vm newHeapEnd) fun _ => ?_)
      fun _ => triple_pure fun _ h => h
    exact triple_state_bind fun s hs => triple_pure fun t ht => ht ▸ hs
  have hend := htriple rfl hrun
  cases r with
  | ok _ => exact .inr hend
  | error _ => exact .inl hend

/-- The heap grown below the stack, where it has room, leaves the areas
apart. -/
theorem Laid.grown (h : vm.Laid) (hbelow : (vm.heapGain newHeapEnd).stop < vm.stackVma.start)
    (hapart : (vm.grown newHeapEnd).Apart) : (vm.grown newHeapEnd).Laid := by
  refine ⟨hapart, ?_, ?_⟩
  · rw [heapEnd_grown, stackVma_grown]
    exact le_of_lt hbelow
  · rw [stackVma_grown]
    exact h.stack_le

/-- **One call.** From areas apart it leads to areas apart where there is
room for the heap. -/
theorem Laid.step {op : Op} (h : vm.Laid) (hroom : vm.HeapRoom op)
    (hs : machine.step vm op = some vm') : vm'.Laid := by
  have hkeeps : (perform op).Keeps Laid → vm'.Laid := by
    intro hk
    obtain ⟨r, hrun⟩ := exists_run_of_step hs
    have hend := hk h hrun
    cases r with
    | ok _ => exact hend
    | error _ => exact hend
  cases op with
  | mmap addrHint len anonymous fixed file offset =>
    exact hkeeps (triple_bind (keeps_sysMmap ..) fun _ => triple_pure fun _ h => h)
  | segment start len areaType => exact hkeeps (keeps_addVmArea ..)
  | brk newHeapEnd =>
    cases newHeapEnd with
    | none =>
      rw [← some.inj hs]
      exact h
    | some newHeapEnd =>
      rcases step_brk hs with rfl | ⟨hge, hbelow, rfl⟩
      · exact h
      · exact h.grown hbelow ((apart_grown_iff h hbelow).mpr (hroom hge hbelow))

/-- And a call that leads to areas apart was made where there was
room. -/
theorem Laid.heapRoom {op : Op} (h : vm.Laid)
    (hs : ∀ vm', machine.step vm op = some vm' → vm'.Apart) : vm.HeapRoom op := by
  cases op with
  | mmap => trivial
  | segment => trivial
  | brk newHeapEnd =>
    cases newHeapEnd with
    | none => trivial
    | some newHeapEnd =>
      intro hge hbelow
      refine (apart_grown_iff h hbelow).mp (hs _ ?_)
      show (((expandHeapTo newHeapEnd >>= fun _ => _) >>= _).run vm).toOption.map Prod.snd = _
      simp only [run_bind, run_expandHeapTo h hge hbelow]
      rfl

theorem ApartAlong.apart {ops : List Op} (h : ApartAlong vm ops) : vm.Apart := by
  cases ops with
  | nil => exact h
  | cons op ops => exact h.1

/-- From areas apart, over every run. -/
theorem Laid.apartAlong_iff (h : vm.Laid) (ops : List Op) :
    ApartAlong vm ops ↔ RoomAlong vm ops := by
  induction ops generalizing vm with
  | nil => exact ⟨fun _ => trivial, fun _ => h.apart⟩
  | cons op ops ih =>
    constructor
    · rintro ⟨-, hrest⟩
      have hroom := h.heapRoom fun vm' hs => (hrest vm' hs).apart
      exact ⟨hroom, fun vm' hs => (ih (h.step hroom hs)).mp (hrest vm' hs)⟩
    · rintro ⟨hroom, hrest⟩
      exact ⟨h.apart, fun vm' hs => (ih (h.step hroom hs)).mpr (hrest vm' hs)⟩

/-- A new process has its areas apart: its heap is empty. -/
theorem laid_new {stackBottom heapBottom : Nat} (hheap : heapBottom ≤ stackBottom)
    (hstack : stackBottom ≤ userStackTop) : (new stackBottom heapBottom).Laid := by
  refine ⟨?_, hheap, hstack⟩
  refine pairwise_pair.mpr (Range.apart_of_not_meets fun hmeets => ?_)
  obtain ⟨hlow, hhigh⟩ : stackBottom < heapBottom + 0 ∧ heapBottom < _ := hmeets
  omega

/-- **The memory areas of a process over its runs.** From the start of a
process, whatever it maps and wherever its segments are, its areas are
pairwise disjoint in every state of a run if and only if no `brk` of the
run moves the end of the heap into a mapped area. -/
theorem apart_along_iff {stackBottom heapBottom : Nat} (hheap : heapBottom ≤ stackBottom)
    (hstack : stackBottom ≤ userStackTop) (ops : List Op) :
    ApartAlong (new stackBottom heapBottom) ops ↔ RoomAlong (new stackBottom heapBottom) ops :=
  (laid_new hheap hstack).apartAlong_iff ops

/-- A process maps two pages well above its heap, and then grows the
heap by one. -/
theorem apart_along_of_distant_mapping : ApartAlong (new 42949537792 4202496)
      [.mmap (some 8388608) 8192 true true (.error .ebadf) 0, .brk (some 4206592)] := by
  refine (apart_along_iff (by decide) (by decide) _).mpr
    ⟨trivial, fun vm hs => ⟨?_, fun _ _ => trivial⟩⟩
  have hvm : machine.step (new 42949537792 4202496)
      (.mmap (some 8388608) 8192 true true (.error .ebadf) 0) =
        some { new 42949537792 4202496 with others := [⟨8388608, 8192, .anonymous⟩] } := by
    decide +kernel
  rw [← some.inj (hvm.symm.trans hs)]
  intro _ _ area harea
  rw [mem_singleton.mp harea]
  exact Range.apart_of_not_meets (by decide +kernel)

/-- **A heap over a mapped area.** A process maps the page above the
first page of its heap, where nothing is, and then grows the heap by two
pages. -/
theorem not_apart_of_brk : ∃ vm, machine.Reach (new 42949537792 4202496) vm ∧
    vm.heapVma.contains 4206592 = true ∧ ∃ area ∈ vm.others, area.contains 4206592 = true :=
  Machine.exists_reachUnder
    [.mmap (some 4206592) 4096 true true (.error .ebadf) 0, .brk (some 4210688)]
    (by decide +kernel)

end Archives.Kerla.Vm
