import Archives.Ena.Marking
import Mathlib.Order.Interval.Finset.Fin
/-!
# ena — what a collection leaves

The sweep keeps the marked objects and clears their marks. Marking from
all roots marks exactly what can be reached as long as every module that
can be reached is registered: `mark` has no case for a module, so one
that is only on the stack, or only held by a variable, is freed in use.
-/

namespace Archives.Ena

open Marking List Object

variable {n : Nat} {D : Type}

namespace Vm

variable {vm : Vm n D} {k word : Nat} {m m' : Marks n} {i : Fin n} {words : List Nat}

/-! ## The sweep -/

theorem sweepSlot_objects (vm : Vm n D) (i j : Fin n) :
    (vm.sweepSlot i).objects j = if j = i ∧ i ∉ vm.marks then none else vm.objects j := by
  unfold sweepSlot
  by_cases hi : i ∈ vm.marks
  · simp [hi]
  · by_cases hj : j = i
    · subst hj
      cases h : vm.objects j <;> simp [hi, h]
    · cases h : vm.objects i <;> simp [hi, hj]

theorem sweepSlot_marks (vm : Vm n D) (i : Fin n) : (vm.sweepSlot i).marks = vm.marks.erase i := by
  unfold sweepSlot
  by_cases hi : i ∈ vm.marks
  · simp [hi]
  · rw [Finset.erase_eq_of_notMem hi]
    cases h : vm.objects i <;> simp [hi]

/-- The slot just freed is counted. -/
theorem sweepSlot_numFree (vm : Vm n D) (i : Fin n) (h : vm.numFree = vm.freeSlots.card) :
    (vm.sweepSlot i).numFree = (vm.sweepSlot i).freeSlots.card := by
  unfold sweepSlot
  by_cases hi : i ∈ vm.marks
  · simpa [hi, freeSlots] using h
  · cases hobj : vm.objects i with
    | none => simpa [hi] using h
    | some obj =>
      have hmem : i ∉ vm.freeSlots := by simp [freeSlots, hobj]
      have hfree : ({ vm with objects := Function.update vm.objects i none } : Vm n D).freeSlots =
          insert i vm.freeSlots := by
        ext j
        by_cases hj : j = i
        · simp [freeSlots, hj]
        · simp [freeSlots, hj]
      simp only [hi, if_false]
      rw [h, ← Finset.card_insert_of_notMem hmem, ← hfree]
      rfl

theorem foldl_sweepSlot_marks (l : List (Fin n)) :
    ∀ vm : Vm n D, i ∈ (l.foldl sweepSlot vm).marks ↔ i ∈ vm.marks ∧ i ∉ l := by
  induction l with
  | nil => simp
  | cons j l ih =>
    intro vm
    rw [foldl_cons, ih, sweepSlot_marks]
    simp only [Finset.mem_erase, mem_cons, not_or]
    tauto

theorem foldl_sweepSlot_objects {l : List (Fin n)} (hl : l.Nodup) :
    ∀ vm : Vm n D, (l.foldl sweepSlot vm).objects i =
      if i ∈ l ∧ i ∉ vm.marks then none else vm.objects i := by
  induction l with
  | nil => simp
  | cons j l ih =>
    intro vm
    obtain ⟨hj, hl⟩ := nodup_cons.1 hl
    rw [foldl_cons, ih hl, sweepSlot_objects, sweepSlot_marks]
    by_cases hij : i = j
    · subst hij
      simp [hj]
    · simp [hij]

theorem sweep_objects (vm : Vm n D) (i : Fin n) :
    vm.sweep.objects i = if i ∈ vm.marks then vm.objects i else none := by
  rw [sweep, foldl_sweepSlot_objects (nodup_finRange n)]
  by_cases hi : i ∈ vm.marks <;> simp [hi]

theorem sweep_marks (vm : Vm n D) : vm.sweep.marks = ∅ := by
  ext i
  simp [sweep, foldl_sweepSlot_marks]

theorem sweep_numFree (vm : Vm n D) (h : vm.numFree = vm.freeSlots.card) :
    vm.sweep.numFree = vm.sweep.freeSlots.card := by
  unfold sweep
  induction List.finRange n generalizing vm with
  | nil => exact h
  | cons i l ih => exact ih _ (sweepSlot_numFree vm i h)

/-! ## Words of the stack and the registers -/

/-- A word as a value: the slot whose address it is, if there is one. -/
def wordValue (vm : Vm n D) (word : Nat) : Value n :=
  if h : vm.valuePool ≤ word ∧ (word - vm.valuePool) % objectSize = 0 ∧
      (word - vm.valuePool) / objectSize < n then
    .object ⟨(word - vm.valuePool) / objectSize, h.2.2⟩
  else .immediate word

theorem wordValue_eq_object : vm.wordValue word = .object i ↔ word = vm.address i := by
  unfold wordValue address objectSize
  split
  · rename_i h
    simp only [Value.object.injEq, Fin.ext_iff]
    omega
  · rename_i h
    simp only [reduceCtorEq, false_iff]
    omega

/-- `try_mark` reads behind the pool, or does what `mark` does. -/
theorem tryMark_succ (vm : Vm n D) (k word : Nat) (m : Marks n) : vm.tryMark (k + 1) word m =
      if word = vm.poolEnd then .error .outOfPool
      else runTask vm.objects (k + 1) m (.value (vm.wordValue word)) := by
  unfold tryMark isInHeap markWord wordValue poolEnd runTask objectSize
  by_cases hend : word = vm.valuePool + n * 40
  · subst hend
    simp
  · by_cases hin : vm.valuePool ≤ word ∧ (word - vm.valuePool) % 40 = 0 ∧
        (word - vm.valuePool) / 40 < n
    · have hle : word ≤ vm.valuePool + n * 40 := by omega
      simp [hend, hin, hle]
    · have hout : ¬ (vm.valuePool ≤ word ∧ word ≤ vm.valuePool + n * 40 ∧
          (word - vm.valuePool) % 40 = 0) := by omega
      rw [if_neg (by simpa [and_assoc] using hout), if_neg hend, dif_neg hin]
      rfl

theorem tryMark_zero (h : vm.tryMark 0 word m = .ok m') : vm.tryMark 1 word m = .ok m' := by
  unfold tryMark at h ⊢
  split at h
  · unfold markWord at h
    split at h <;> cases h
  · rw [if_neg ‹_›]
    exact h

/-- A word that `try_mark` comes back from is not the end of the pool. -/
theorem tryMark_ok (h : vm.tryMark k word m = .ok m') :
    word ≠ vm.poolEnd ∧ ∃ j, runTask vm.objects j m (.value (vm.wordValue word)) = .ok m' := by
  obtain ⟨j, h⟩ : ∃ j, vm.tryMark (j + 1) word m = .ok m' := by
    cases k with
    | zero => exact ⟨0, tryMark_zero h⟩
    | succ k => exact ⟨k, h⟩
  rw [tryMark_succ] at h
  split at h
  · cases h
  · exact ⟨‹_›, j + 1, h⟩

/-- The calls `mark_regs` and `mark_stack` make. -/
def wordTasks (vm : Vm n D) (words : List Nat) : List (Task n) :=
  words.map fun word => .value (vm.wordValue word)

theorem foldlM_tryMark_returns (hend : vm.poolEnd ∉ words)
    (h : Fuel.Returns (fun k => runTasks vm.objects k (vm.wordTasks words) m) m') :
    Fuel.Returns (fun k => words.foldlM (fun m word => vm.tryMark k word m) m) m' := by
  refine Fuel.Returns.of_succ ?_
  obtain ⟨k, hk⟩ := h.succ
  refine ⟨k, fun j hj => ?_⟩
  have hrun := hk j hj
  simp only [wordTasks, runTasks_map] at hrun
  refine Fuel.foldlM_ok_of_imp (fun word hword m m' hm => ?_) hrun
  have hne : word ≠ vm.poolEnd := fun heq => hend (heq ▸ hword)
  rw [tryMark_succ, if_neg hne]
  exact hm

/-! ## The roots -/

/-- What the collector may mark: what can be reached, but modules only if
they are registered. -/
def Live (vm : Vm n D) (i : Fin n) : Prop := vm.Reachable i ∧ (vm.IsModule i → vm.Registered i)

theorem WellFormed.domain (hvm : vm.WellFormed) : Domain vm vm.Live where
  follows := fun _ _ hi hij => ⟨.edge hi.1 hij.1, fun h => absurd h hij.2⟩
  scopes := fun i obj hi => hvm.scopes i obj hi.1
  classes := fun i obj hi => hvm.classes i obj hi.1

/-- The calls `ena_gc` makes after the loop over the modules. -/
def rootTasks (vm : Vm n D) : List (Task n) :=
  vm.currentScope.toList.map Task.scope ++ vm.currentClass.toList.map Task.cls ++
    vm.builtinClasses.map Task.cls

theorem markRoots_eq (vm : Vm n D) (k : Nat) : vm.markRoots k = (do
      let m ← vm.markRegs k vm.marks let m ← vm.markStack k m let m ← vm.markModules k vm.modules m
      runTasks vm.objects k vm.rootTasks m) := by
  unfold markRoots rootTasks builtinClasses
  cases vm.currentScope <;> cases vm.currentClass <;> simp [markUnlessNull, runTask]

theorem WellFormed.rootTasks (hvm : vm.WellFormed) : ∀ t ∈ vm.rootTasks, t.In vm vm.Live := by
  have hcls : ∀ c, vm.IsRoot c → vm.IsClass c → Task.In vm vm.Live (.cls c) := fun c hr hc =>
    ⟨⟨.root hr, fun h => absurd h hc.inUse.2⟩, hc⟩
  intro t ht
  simp only [Vm.rootTasks, mem_append, mem_map, Option.mem_toList] at ht
  rcases ht with (⟨s, hs, rfl⟩ | ⟨c, hc, rfl⟩) | ⟨c, hc, rfl⟩
  · have hscope := hvm.currentScope s hs
    exact ⟨⟨.root (.currentScope hs), fun h => absurd h hscope.inUse.2⟩, hscope⟩
  · exact hcls c (.currentClass hc) (hvm.currentClass c hc)
  · exact hcls c (.builtin hc) (hvm.builtin c hc)

theorem wordValue_in (hword : word ∈ vm.words) :
    Task.In vm vm.Live (.value (vm.wordValue word)) := by
  intro i hi hu hn
  rw [wordValue_eq_object] at hi
  exact ⟨.root (.word (hi ▸ hword) hu), fun h => absurd h hn⟩

/-- The loop over the modules comes back only from a list that ends. -/
theorem grows_markModules (hvm : vm.WellFormed) {cur : Option (Fin n)}
    (hcur : ∀ i, OnChain vm.nextOf cur i → vm.Registered i) (h : vm.markModules k cur m = .ok m') :
    Ends vm.nextOf cur ∧ Grows (Follows vm) (Sound vm vm.Live) m m' ∧
      ∀ i, OnChain vm.nextOf cur i → i ∈ m' := by
  induction k generalizing cur m with
  | zero =>
    cases cur with
    | none =>
      cases h
      exact ⟨.null, .refl _, fun i hi => by cases hi⟩
    | some i => cases h
  | succ k ih =>
    cases cur with
    | none =>
      cases h
      exact ⟨.null, .refl _, fun i hi => by cases hi⟩
    | some i =>
      have hreg := hcur i (.head i)
      obtain ⟨next, scope, hobj⟩ := hvm.modules i hreg
      have hnext : vm.nextOf i = next := by simp [nextOf, hobj]
      have hlive : vm.Live i := ⟨.root (.module hreg), fun _ => hreg⟩
      have hts := hvm.domain.tasks hlive hobj
      rw [markModules] at h
      simp only [hobj] at h
      obtain ⟨m₁, h₁, h₂⟩ := bind_eq_ok.1 h
      obtain ⟨hg₁, hd₁⟩ := grows_runTask hvm.domain
        (hts (.scope scope) (by simp [mem_tasks, scopes])) h₁
      obtain ⟨hends, hg₂, hd₂⟩ := ih (fun j hj => hcur j (.tail (hnext ▸ hj))) h₂
      have hgrows := hg₁.trans hg₂
      have hdone : ∀ t ∈ (.module next scope : Object n D).tasks, t.Done vm m' := by
        intro t ht
        obtain rfl : t = .scope scope := by
          simpa [mem_tasks, values, classes, scopes] using ht
        exact hd₁.mono hg₂.subset
      refine ⟨.node (hnext ▸ hends), ?_, ?_⟩
      · exact hgrows.visit ⟨hlive, ends_of_done hobj hdone⟩ fun _ => mem_of_follows hobj hdone
      · intro j hj
        cases hj with
        | head => exact hgrows.mem
        | tail hj => exact hd₂ j (hnext ▸ hj)

/-- What holds once all roots have been marked. -/
structure RootsMarked (vm : Vm n D) (m : Marks n) : Prop where
  words : vm.poolEnd ∉ vm.words
  modules : Ends vm.nextOf vm.modules
  grows : Grows (Follows vm) (Sound vm vm.Live) ∅ m
  roots : ∀ i, vm.IsRoot i → ¬ vm.IsModule i → i ∈ m
  registered : ∀ i, vm.Registered i → i ∈ m

section

variable (hvm : vm.WellFormed)

include hvm

theorem grows_words (hwords : ∀ w ∈ words, w ∈ vm.words)
    (h : words.foldlM (fun m word => vm.tryMark k word m) m = .ok m') :
    Grows (Follows vm) (Sound vm vm.Live) m m' ∧
      ∀ w ∈ words, w ≠ vm.poolEnd ∧ Task.Done vm m' (.value (vm.wordValue w)) := by
  refine Grows.foldlM (fun w m => w ≠ vm.poolEnd ∧ Task.Done vm m (.value (vm.wordValue w)))
    (fun w m m' hd hm => ⟨hd.1, hd.2.mono hm⟩) ?_ h
  intro w hw m m' hrun
  obtain ⟨hend, j, hj⟩ := tryMark_ok hrun
  obtain ⟨hgrows, hdone⟩ := grows_runTask hvm.domain (wordValue_in (hwords w hw)) hj
  exact ⟨hgrows, hend, hdone⟩

/-- **The marking half that comes back has marked the roots.** -/
theorem rootsMarked_of_markRoots (h : vm.markRoots k = .ok m) : vm.RootsMarked m := by
  rw [markRoots_eq] at h
  obtain ⟨m₁, h₁, h⟩ := bind_eq_ok.1 h
  obtain ⟨m₂, h₂, h⟩ := bind_eq_ok.1 h
  obtain ⟨m₃, h₃, h₄⟩ := bind_eq_ok.1 h
  obtain ⟨hg₁, hd₁⟩ := grows_words hvm (fun w hw => by simp [words, hw]) h₁
  obtain ⟨hg₂, hd₂⟩ := grows_words hvm (fun w hw => by simp [words, hw]) h₂
  obtain ⟨hends, hg₃, hd₃⟩ := grows_markModules hvm (fun i hi => hi) h₃
  obtain ⟨hg₄, hd₄⟩ := grows_runTasks hvm.domain hvm.rootTasks h₄
  have hwords : ∀ w ∈ vm.words, w ≠ vm.poolEnd ∧ Task.Done vm m (.value (vm.wordValue w)) := by
    intro w hw
    rcases mem_append.1 hw with hw | hw
    · exact ⟨(hd₁ w hw).1, ((hd₁ w hw).2.mono hg₂.subset).mono (hg₃.trans hg₄).subset⟩
    · exact ⟨(hd₂ w hw).1, (hd₂ w hw).2.mono (hg₃.trans hg₄).subset⟩
  refine ⟨fun hw => (hwords _ hw).1 rfl, hends, ?_, ?_, fun i hi => hg₄.subset (hd₃ i hi)⟩
  · rw [hvm.marks] at hg₁
    exact ((hg₁.trans hg₂).trans hg₃).trans hg₄
  · intro i hi hn
    cases hi with
    | word hw hu => exact (hwords _ hw).2 i (wordValue_eq_object.2 rfl) hu hn
    | module hreg => exact absurd (hvm.modules i hreg) hn
    | currentScope hs => exact (hd₄ (.scope i) (by simp [Vm.rootTasks, hs])).1
    | currentClass hc => exact hd₄ (.cls i) (by simp [Vm.rootTasks, hc])
    | builtin hc => exact hd₄ (.cls i) (by simp [Vm.rootTasks, hc])

/-! ## Coming back from the roots -/

variable (hc : vm.Collectable)
include hc

theorem returns_runTasks {ts : List (Task n)} (hts : ∀ t ∈ ts, t.In vm vm.Live) (m : Marks n) :
    ∃ m', Fuel.Returns (fun k => runTasks vm.objects k ts m) m' := by
  obtain ⟨k, m', h⟩ := exists_runTasks hvm.domain (fun s hs => hc.parents s hs.1) hts m
  exact ⟨m', (stable_runTasks _ _ _).returns h⟩

theorem returns_words (hwords : ∀ w ∈ words, w ∈ vm.words) (m : Marks n) :
    ∃ m', Fuel.Returns (fun k => words.foldlM (fun m word => vm.tryMark k word m) m) m' := by
  have hts : ∀ t ∈ vm.wordTasks words, t.In vm vm.Live := by
    intro t ht
    obtain ⟨w, hw, rfl⟩ := mem_map.1 ht
    exact wordValue_in (hwords w hw)
  obtain ⟨m', h⟩ := returns_runTasks hvm hc hts m
  exact ⟨m', foldlM_tryMark_returns (fun hend => hc.words (hwords _ hend)) h⟩

theorem returns_markModules {cur : Option (Fin n)}
    (hcur : ∀ i, OnChain vm.nextOf cur i → vm.Registered i) (hends : Ends vm.nextOf cur)
    (m : Marks n) : ∃ m', Fuel.Returns (fun k => vm.markModules k cur m) m' := by
  induction hends generalizing m with
  | null => exact ⟨m, 0, fun j _ => by cases j <;> rfl⟩
  | @node i _ ih =>
    have hreg := hcur i (.head i)
    obtain ⟨next, scope, hobj⟩ := hvm.modules i hreg
    have hnext : vm.nextOf i = next := by simp [nextOf, hobj]
    have hts := hvm.domain.tasks ⟨.root (.module hreg), fun _ => hreg⟩ hobj
    obtain ⟨m₁, h₁⟩ := returns_runTasks hvm hc hts (insert i m)
    obtain ⟨m₂, h₂⟩ := ih (fun j hj => hcur j (.tail hj)) m₁
    refine ⟨m₂, Fuel.Returns.of_succ ?_⟩
    have hrun : Fuel.Returns (fun k => vm.markModule k i scope m) m₁ := by
      simpa [tasks, values, classes, scopes, runTask, markModule, markObject] using h₁
    simpa only [markModules, hobj, hnext] using hrun.bind h₂

theorem returns_markRoots : ∃ m, Fuel.Returns vm.markRoots m := by
  obtain ⟨m₁, k₁, h₁⟩ :=
    returns_words hvm hc (fun w hw => mem_append_left vm.stack hw) vm.marks
  obtain ⟨m₂, k₂, h₂⟩ := returns_words hvm hc (fun w hw => mem_append_right vm.regs hw) m₁
  obtain ⟨m₃, k₃, h₃⟩ := returns_markModules hvm hc (fun i hi => hi) hc.modules m₂
  obtain ⟨m₄, k₄, h₄⟩ := returns_runTasks hvm hc hvm.rootTasks m₃
  refine ⟨m₄, k₁ + k₂ + k₃ + k₄, fun j hj => ?_⟩
  rw [markRoots_eq]
  exact bind_eq_ok.2 ⟨m₁, h₁ j (by omega), bind_eq_ok.2 ⟨m₂, h₂ j (by omega),
    bind_eq_ok.2 ⟨m₃, h₃ j (by omega), h₄ j (by omega)⟩⟩⟩

omit hc

/-! ## The collection -/

omit hvm in
/-- If every module that can be reached is registered, what is marked is
what can be reached. -/
theorem RootsMarked.mem_iff (hm : vm.RootsMarked m) (hc : vm.Collectable) :
    i ∈ m ↔ vm.Reachable i := by
  constructor
  · intro hi
    exact (hm.grows.fresh i hi (by simp)).1.1
  · intro hi
    by_cases hmod : vm.IsModule i
    · exact hm.registered i (hc.registered i hi hmod)
    · induction hi with
      | root hr => exact hm.roots _ hr hmod
      | @edge j i hj hji ih =>
        have hjm : j ∈ m := by
          by_cases hjmod : vm.IsModule j
          · exact hm.registered j (hc.registered j hj hjmod)
          · exact ih hjmod
        exact hm.grows.closed j hjm (by simp) i ⟨hji, hmod⟩

omit hvm in
theorem enaGc_ok {vm' : Vm n D} (h : vm.enaGc k = .ok vm') :
    ∃ m, vm.markRoots k = .ok m ∧ vm' = { vm with marks := m }.sweep := by
  obtain ⟨m, hm, h⟩ := bind_eq_ok.1 h
  exact ⟨m, hm, (Except.ok.inj h).symm⟩

theorem collects_of_collectable (hc : vm.Collectable) : vm.Collects := by
  obtain ⟨m, k, hk⟩ := returns_markRoots hvm hc
  have hm := rootsMarked_of_markRoots hvm (hk k (Nat.le_refl k))
  refine ⟨{ vm with marks := m }.sweep,
    ⟨k, fun j hj => bind_eq_ok.2 ⟨m, hk j hj, rfl⟩⟩, ?_, ?_, ?_, ?_⟩
  · intro i hi
    rw [sweep_objects, if_pos ((hm.mem_iff hc).2 hi)]
  · intro i hi
    rw [sweep_objects, if_neg fun h => hi ((hm.mem_iff hc).1 h)]
  · exact sweep_marks _
  · exact sweep_numFree _ hvm.numFree

omit hvm in
theorem sound_of_kept (hm : vm.RootsMarked m) (hu : vm.InUse i)
    (hkept : ({ vm with marks := m } : Vm n D).sweep.objects i = vm.objects i) :
    Sound vm vm.Live i := by
  rw [sweep_objects] at hkept
  split at hkept
  · exact hm.grows.fresh i ‹_› (by simp)
  · exact absurd hkept.symm hu

theorem collectable_of_collects (h : vm.Collects) : vm.Collectable := by
  obtain ⟨vm', ⟨k, hk⟩, hvm'⟩ := h
  obtain ⟨m, hroots, rfl⟩ := enaGc_ok (hk k (Nat.le_refl k))
  have hm := rootsMarked_of_markRoots hvm hroots
  refine ⟨hm.words, hm.modules, ?_, ?_⟩
  · intro s hs hscope
    exact (sound_of_kept hm hscope.inUse.1 (hvm'.kept s hs)).2 hscope
  · intro i hi hmod
    have hu : vm.InUse i := by
      obtain ⟨next, scope, hobj⟩ := hmod
      simp [InUse, hobj]
    exact (sound_of_kept hm hu (hvm'.kept i hi)).1.2 hmod

end

/-- **The collector does its work exactly when** no word it finds is the
address behind the pool, the lists it walks end, and every module that can
be reached is registered. -/
theorem collects_iff_collectable (vm : Vm n D) (hvm : vm.WellFormed) :
    vm.Collects ↔ vm.Collectable :=
  ⟨collectable_of_collects hvm, collects_of_collectable hvm⟩

/-! ## A module in use that is freed -/

/-- The heap in which `ena_create_module` allocates the function `print`:
the four builtin classes, the scope and the module, whose addresses are
on the stack. Nothing else is in the pool. -/
def creatingModule (modules : Option (Fin 8192)) : Vm 8192 Unit where
  valuePool := 4096
  objects := fun i =>
    if i.val < 4 then some (.cls [])
    else if i.val = 4 then some (.scope [] none)
    else if i.val = 5 then some (.module none 4)
    else none
  marks := ∅
  numFree := 8186
  modules := modules
  currentScope := none
  currentClass := none
  intClass := 0
  stringClass := 1
  listClass := 2
  mapClass := 3
  regs := []
  stack := [4096 + 4 * 40, 4096 + 5 * 40]
  released := []

theorem creatingModule_objects {modules : Option (Fin 8192)} {i : Fin 8192} {obj : Object 8192 Unit}
    (h : (creatingModule modules).objects i = some obj) :
    (obj = .cls [] ∧ i.val < 4) ∨ (obj = .scope [] none ∧ i = 4) ∨ (obj = .module none 4 ∧ i = 5) := by
  simp only [creatingModule] at h
  split at h
  · exact .inl ⟨(Option.some.inj h).symm, ‹_›⟩
  · split at h
    · exact .inr (.inl ⟨(Option.some.inj h).symm, Fin.ext ‹_›⟩)
    · split at h
      · exact .inr (.inr ⟨(Option.some.inj h).symm, Fin.ext ‹_›⟩)
      · cases h

theorem creatingModule_freeSlots (modules : Option (Fin 8192)) :
    (creatingModule modules).freeSlots = Finset.Ici 6 := by
  ext i
  have hsix : (6 : Fin 8192).val = 6 := rfl
  rw [freeSlots, Finset.mem_filter_univ, Finset.mem_Ici, Fin.le_def, hsix]
  simp only [creatingModule]
  split_ifs <;> simp <;> omega

theorem creatingModule_wellFormed {modules : Option (Fin 8192)}
    (hmodules : ∀ i, (creatingModule modules).Registered i → i = 5) :
    (creatingModule modules).WellFormed where
  marks := rfl
  numFree := by rw [creatingModule_freeSlots, Fin.card_Ici]; rfl
  scopes := by
    intro i obj _ h s hs
    rcases creatingModule_objects h with ⟨rfl, _⟩ | ⟨rfl, _⟩ | ⟨rfl, _⟩
    · cases hs
    · cases hs
    · obtain rfl : s = 4 := by simpa [scopes] using hs
      exact ⟨[], none, rfl⟩
  classes := by
    intro i obj _ h c hc
    rcases creatingModule_objects h with ⟨rfl, _⟩ | ⟨rfl, _⟩ | ⟨rfl, _⟩ <;> cases hc
  modules := by
    intro i hi
    obtain rfl := hmodules i hi
    exact ⟨none, 4, rfl⟩
  currentScope := fun s hs => by cases hs
  currentClass := fun c hc => by cases hc
  builtin := by
    intro c hc
    refine ⟨[], if_pos ?_⟩
    simp only [builtinClasses, creatingModule, mem_cons, not_mem_nil, or_false] at hc
    rcases hc with rfl | rfl | rfl | rfl <;> decide

/-- The module just created is registered: the collection keeps it. -/
theorem collects_of_registered_module :
    (creatingModule (some 5)).WellFormed ∧ (creatingModule (some 5)).Collects := by
  have hnext : (creatingModule (some 5)).nextOf 5 = none := rfl
  have hreg : ∀ i, (creatingModule (some 5)).Registered i → i = 5 := by
    intro i hi
    cases hi with
    | head => rfl
    | tail hi =>
      cases hi
  have hvm := creatingModule_wellFormed hreg
  refine ⟨hvm, (collects_iff_collectable _ hvm).2 ⟨by decide, .node ?_, ?_, ?_⟩⟩
  · rw [hnext]
    exact .null
  · rintro s _ ⟨vars, parent, h⟩
    rcases creatingModule_objects h with ⟨h', _⟩ | ⟨_, rfl⟩ | ⟨h', _⟩
    · cases h'
    · exact .node .null
    · cases h'
  · rintro i _ ⟨next, scope, h⟩
    rcases creatingModule_objects h with ⟨h', _⟩ | ⟨h', _⟩ | ⟨_, rfl⟩
    · cases h'
    · cases h'
    · exact .head 5

/-- **A module that is not registered yet is freed while it is in use**,
although its address is on the stack. -/
theorem not_collects_of_new_module :
    (creatingModule none).WellFormed ∧ ¬ (creatingModule none).Collects := by
  have hreg : ∀ i, ¬ (creatingModule none).Registered i := fun i hi => by cases hi
  have hvm := creatingModule_wellFormed fun i hi => absurd hi (hreg i)
  refine ⟨hvm, fun hc => ?_⟩
  have hmod : (creatingModule none).IsModule 5 := ⟨none, 4, rfl⟩
  have hroot : (creatingModule none).IsRoot 5 := .word (by decide) nofun
  exact hreg 5 ((collectable_of_collects hvm hc).registered 5 (.root hroot) hmod)

end Vm

end Archives.Ena
