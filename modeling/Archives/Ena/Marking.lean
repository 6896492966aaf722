import Archives.Ena.Model.Gc
/-!
# ena — what marking marks

Every marking function does the same to its object: it sets the mark and
then calls `mark` for the values the object holds, `mark_class` for its
class and `mark_scope` for its scopes. `Task` is such a call and
`runTasks` a sequence of them; with that one induction on the fuel covers
the whole family. A call that comes back has marked what it was called
for, and whatever it has marked has its successors marked (`Grows`). A
call comes back if no chain of parents it meets is endless.
-/

namespace Archives.Ena

open Marking Finset Object

variable {n : Nat} {D : Type} {objects : Objects n D} {k : Nat} {m m' : Marks n} {i : Fin n}

/-- A call one marking function makes to another. -/
inductive Task (n : Nat)
  | value (v : Value n)
  | cls (i : Fin n)
  | scope (i : Fin n)

/-- Make the call. -/
def runTask (objects : Objects n D) (k : Nat) (m : Marks n) : Task n → Except Fault (Marks n)
  | .value v => mark objects k v m
  | .cls c => markClass objects k c m
  | .scope s => markScope objects k s m

/-- Make the calls one after the other. -/
def runTasks (objects : Objects n D) (k : Nat) (ts : List (Task n)) (m : Marks n) :
    Except Fault (Marks n) :=
  ts.foldlM (runTask objects k) m

/-- The calls made for an object. -/
def Object.tasks (obj : Object n D) : List (Task n) :=
  obj.values.map Task.value ++ obj.classes.map Task.cls ++ obj.scopes.map Task.scope

def Object.IsModule : Object n D → Prop
  | .module _ _ => True
  | _ => False

/-! ## The functions as sequences of calls -/

@[simp] theorem runTasks_nil : runTasks objects k [] m = .ok m := rfl

@[simp] theorem runTasks_cons (t : Task n) (ts : List (Task n)) :
    runTasks objects k (t :: ts) m = runTask objects k m t >>= fun m => runTasks objects k ts m := rfl

theorem runTasks_append (ts us : List (Task n)) : runTasks objects k (ts ++ us) m =
      runTasks objects k ts m >>= fun m => runTasks objects k us m := by
  simp [runTasks]

theorem runTasks_map {β : Type} (f : β → Task n) (l : List β) :
    runTasks objects k (l.map f) m = l.foldlM (fun m x => runTask objects k m (f x)) m := by
  simp [runTasks, List.foldlM_map]

theorem markClass_succ {methods : List (Ident × Value n)} (h : objects i = some (.cls methods)) :
    markClass objects (k + 1) i m =
      runTasks objects k (cls methods : Object n D).tasks (insert i m) := by
  simp [markClass, h, markHashWithValueValues, markObject, tasks, values,
    classes, scopes, runTasks_map, runTask]

theorem markScope_succ {vars : List (Ident × Value n)} {parent : Option (Fin n)}
    (h : objects i = some (.scope vars parent)) : markScope objects (k + 1) i m =
      runTasks objects k (scope vars parent : Object n D).tasks (insert i m) := by
  cases parent <;> simp [markScope, h, markHashWithValueValues, markObject, tasks, values,
      classes, scopes, runTasks_append, runTasks_map, runTask]

theorem mark_succ_succ {obj : Object n D} (hi : i ∉ m) (h : objects i = some obj)
    (hobj : ¬ obj.IsModule) :
    mark objects (k + 2) (.object i) m = runTasks objects k obj.tasks (insert i m) := by
  cases obj with
  | module next scope => exact absurd trivial hobj
  | scope vars parent => rw [mark, if_neg hi]; simp only [h]; exact markScope_succ h
  | cls methods => rw [mark, if_neg hi]; simp only [h]; exact markClass_succ h
  | func data scope =>
    cases scope <;> simp [mark, hi, h, markFunc, markObject, tasks, values, classes,
        scopes, runTask]
  | map entries =>
    simp [mark, hi, h, markMap, markHashWithValueKeys, markHashWithValueValues, markObject,
      tasks, values, classes, scopes, runTasks_append, runTasks_map,
      runTask]
  | _ =>
    simp [mark, hi, h, markInstance, markList, markObject, markUserdata, tasks,
      values, classes, scopes, runTasks_map, runTask]

/-- With fuel for one call only, `mark` comes back from an object without
references. -/
theorem tasks_of_mark_one {obj : Object n D} (hi : i ∉ m) (h : objects i = some obj)
    (hobj : ¬ obj.IsModule) (hm : mark objects 1 (.object i) m = .ok m') :
    obj.tasks = [] ∧ m' = insert i m := by
  cases obj with
  | module next scope => exact absurd trivial hobj
  | int | string | userdata =>
    simp only [mark, if_neg hi, h, Except.ok.injEq] at hm
    exact ⟨rfl, hm.symm⟩
  | _ => simp [mark, hi, h, markFunc, markScope, markClass, markInstance, markMap, markList] at hm

/-! ## Fuel -/

/-- What `mark` leaves alone: a word that is no address in the pool, an
object already marked, a free slot, and a module. -/
def Passed (objects : Objects n D) (m : Marks n) (v : Value n) : Prop :=
  ∀ i, v = .object i → i ∈ m ∨ objects i = none ∨ ∃ obj, objects i = some obj ∧ obj.IsModule

theorem mark_of_passed {v : Value n} (h : Passed objects m v) : mark objects (k + 1) v m = .ok m := by
  cases v with
  | immediate w => rfl
  | object i =>
    rcases h i rfl with hi | hi | ⟨obj, hi, hobj⟩
    · simp [mark, hi]
    · simp [mark, hi]
    · cases obj with
      | module next scope => simp [mark, hi]
      | _ => exact absurd hobj (by simp [Object.IsModule])

/-- The slot a call is about. -/
def Task.target : Task n → Option (Fin n)
  | .value (.immediate _) => none
  | .value (.object i) => some i
  | .cls i => some i
  | .scope i => some i

theorem exists_of_not_passed {v : Value n} (h : ¬ Passed objects m v) :
    ∃ i obj, v = .object i ∧ i ∉ m ∧ objects i = some obj ∧ ¬ obj.IsModule := by
  simp only [Passed, not_forall, not_or, not_exists, not_and] at h
  obtain ⟨i, rfl, hi, hnone, hmod⟩ := h
  obtain ⟨obj, hobj⟩ := Option.ne_none_iff_exists'.1 hnone
  exact ⟨i, obj, rfl, hi, hobj, hmod obj hobj⟩

theorem exists_of_markClass (h : markClass objects k i m = .ok m') :
    ∃ j methods, k = j + 1 ∧ objects i = some (.cls methods) := by
  cases k with
  | zero => simp [markClass] at h
  | succ j =>
    rw [markClass] at h
    split at h
    · exact ⟨j, _, rfl, ‹_›⟩
    · cases h

theorem exists_of_markScope (h : markScope objects k i m = .ok m') :
    ∃ j vars parent, k = j + 1 ∧ objects i = some (.scope vars parent) := by
  cases k with
  | zero => simp [markScope] at h
  | succ j =>
    rw [markScope] at h
    split at h
    · exact ⟨j, _, _, rfl, ‹_›⟩
    · exact ⟨j, _, _, rfl, ‹_›⟩
    · cases h

/-- **What a call does.** It has nothing to do, or it marks its object and
then makes the calls for it, with less fuel; and so with more fuel. -/
theorem runTask_ok {t : Task n} (h : runTask objects k m t = .ok m') :
    (∃ v, t = .value v ∧ Passed objects m v ∧ m' = m) ∨
      ∃ i obj j, t.target = some i ∧ objects i = some obj ∧ ¬ obj.IsModule ∧ j < k ∧
        runTasks objects j obj.tasks (insert i m) = .ok m' ∧
        (runTasks objects (j + 1) obj.tasks (insert i m) = .ok m' →
          runTask objects (k + 1) m t = .ok m') := by
  cases t with
  | value v =>
    by_cases hv : Passed objects m v
    · cases k with
      | zero => cases h
      | succ k =>
        rw [runTask, mark_of_passed hv] at h
        exact .inl ⟨v, rfl, hv, (Except.ok.inj h).symm⟩
    · obtain ⟨i, obj, rfl, hi, hobj, hmod⟩ := exists_of_not_passed hv
      match k, h with
      | 1, h =>
        obtain ⟨htasks, rfl⟩ := tasks_of_mark_one hi hobj hmod h
        refine .inr ⟨i, obj, 0, rfl, hobj, hmod, Nat.one_pos, by simp [htasks], fun _ => ?_⟩
        rw [runTask, mark_succ_succ hi hobj hmod, htasks, runTasks_nil]
      | k + 2, h =>
        rw [runTask, mark_succ_succ hi hobj hmod] at h
        refine .inr ⟨i, obj, k, rfl, hobj, hmod, by omega, h, ?_⟩
        rw [runTask, mark_succ_succ hi hobj hmod]
        exact id
  | cls c =>
    obtain ⟨j, methods, rfl, hc⟩ := exists_of_markClass h
    rw [runTask, markClass_succ hc] at h
    exact .inr ⟨c, _, j, rfl, hc, id, by omega, h, (markClass_succ hc).trans⟩
  | scope s =>
    obtain ⟨j, vars, parent, rfl, hs⟩ := exists_of_markScope h
    rw [runTask, markScope_succ hs] at h
    exact .inr ⟨s, _, j, rfl, hs, id, by omega, h, (markScope_succ hs).trans⟩

/-- More fuel does not change what a call does. -/
theorem stable_runTask (objects : Objects n D) (m : Marks n) (t : Task n) :
    Fuel.Stable fun k => runTask objects k m t := by
  intro k
  -- a call spends one or two units before it makes its own calls
  induction k using Nat.strong_induction_on generalizing m t with
  | h k ih =>
    intro m' h
    rcases runTask_ok h with ⟨v, rfl, hv, rfl⟩ | ⟨i, obj, j, -, -, -, hj, hrun, hmore⟩
    · exact mark_of_passed hv
    · exact hmore (Fuel.foldlM_ok_of_imp (fun t _ m m' => ih j hj m t m') hrun)

theorem stable_runTasks (objects : Objects n D) (ts : List (Task n)) (m : Marks n) :
    Fuel.Stable fun k => runTasks objects k ts m :=
  Fuel.Stable.foldlM (fun m t => stable_runTask objects m t) ts m

/-! ## What has been marked -/

section Traversal

variable {vm : Vm n D} {R : Fin n → Prop} {t : Task n} {obj : Object n D} {ts : List (Task n)}

/-- The references `mark` follows: those to anything but a module. -/
def Follows (vm : Vm n D) (i j : Fin n) : Prop := vm.Edge i j ∧ ¬ vm.IsModule j

/-- A set of objects the traversal does not leave, in which each pointer
to a scope or a class leads to one. -/
structure Domain (vm : Vm n D) (R : Fin n → Prop) : Prop where
  follows : ∀ i j, R i → Follows vm i j → R j
  scopes : ∀ i obj, R i → vm.objects i = some obj → ∀ s ∈ obj.scopes, vm.IsScope s
  classes : ∀ i obj, R i → vm.objects i = some obj → ∀ c ∈ obj.classes, vm.IsClass c

/-- The call stays within the set. -/
def Task.In (vm : Vm n D) (R : Fin n → Prop) : Task n → Prop
  | .value v => ∀ i, v = .object i → vm.InUse i → ¬ vm.IsModule i → R i
  | .cls c => R c ∧ vm.IsClass c
  | .scope s => R s ∧ vm.IsScope s

/-- The call has marked what it was made for; one for a scope has come to
the end of the parents. -/
def Task.Done (vm : Vm n D) (m : Marks n) : Task n → Prop
  | .value v => ∀ i, v = .object i → vm.InUse i → ¬ vm.IsModule i → i ∈ m
  | .cls c => c ∈ m
  | .scope s => s ∈ m ∧ Ends vm.parentOf (some s)

/-- What holds of every object the traversal marks. -/
def Sound (vm : Vm n D) (R : Fin n → Prop) (i : Fin n) : Prop :=
  R i ∧ (vm.IsScope i → Ends vm.parentOf (some i))

theorem Task.Done.mono (h : t.Done vm m) (hm : m ⊆ m') : t.Done vm m' := by
  cases t with
  | value v => exact fun i hv hu hn => hm (h i hv hu hn)
  | cls c => exact hm h
  | scope s => exact ⟨hm h.1, h.2⟩

theorem Vm.IsScope.inUse (h : vm.IsScope i) : vm.InUse i ∧ ¬ vm.IsModule i := by
  obtain ⟨vars, parent, h⟩ := h
  simp [Vm.InUse, Vm.IsModule, h]

theorem Vm.IsClass.inUse (h : vm.IsClass i) : vm.InUse i ∧ ¬ vm.IsModule i := by
  obtain ⟨methods, h⟩ := h
  simp [Vm.InUse, Vm.IsModule, h]

theorem Vm.isModule_iff (h : vm.objects i = some obj) : vm.IsModule i ↔ obj.IsModule := by
  cases obj <;> simp [Vm.IsModule, Object.IsModule, h]

theorem mem_tasks :
    t ∈ obj.tasks ↔ (∃ v ∈ obj.values, t = .value v) ∨ (∃ c ∈ obj.classes, t = .cls c) ∨
      ∃ s ∈ obj.scopes, t = .scope s := by
  simp only [tasks, List.mem_append, List.mem_map, or_assoc, eq_comm]

/-- The calls made for an object of the set stay within it. -/
theorem Domain.tasks (hR : Domain vm R) (hi : R i) (h : vm.objects i = some obj) :
    ∀ t ∈ obj.tasks, t.In vm R := by
  intro t ht
  rcases mem_tasks.1 ht with ⟨v, hv, rfl⟩ | ⟨c, hc, rfl⟩ | ⟨s, hs, rfl⟩
  · rintro j rfl hu hn
    exact hR.follows i j hi ⟨⟨obj, h, .inl hv, hu⟩, hn⟩
  · have hcls := hR.classes i obj hi h c hc
    exact ⟨hR.follows i c hi ⟨⟨obj, h, .inr (.inl hc), hcls.inUse.1⟩, hcls.inUse.2⟩, hcls⟩
  · have hscope := hR.scopes i obj hi h s hs
    exact ⟨hR.follows i s hi ⟨⟨obj, h, .inr (.inr hs), hscope.inUse.1⟩, hscope.inUse.2⟩, hscope⟩

/-- When the calls for an object are done, what it refers to is marked. -/
theorem mem_of_follows (h : vm.objects i = some obj) (hdone : ∀ t ∈ obj.tasks, t.Done vm m)
    {j : Fin n} (hj : Follows vm i j) : j ∈ m := by
  obtain ⟨⟨obj', h', hrefers, hu⟩, hn⟩ := hj
  obtain rfl : obj = obj' := Option.some.inj (h.symm.trans h')
  rcases hrefers with hv | hc | hs
  · exact hdone (.value (.object j)) (mem_tasks.2 (.inl ⟨_, hv, rfl⟩)) j rfl hu hn
  · exact hdone (.cls j) (mem_tasks.2 (.inr (.inl ⟨j, hc, rfl⟩)))
  · exact (hdone (.scope j) (mem_tasks.2 (.inr (.inr ⟨j, hs, rfl⟩)))).1

/-- When the calls for a scope are done, its parents have come to an end. -/
theorem ends_of_done (h : vm.objects i = some obj) (hdone : ∀ t ∈ obj.tasks, t.Done vm m)
    (hs : vm.IsScope i) : Ends vm.parentOf (some i) := by
  obtain ⟨vars, parent, hs⟩ := hs
  obtain rfl : obj = .scope vars parent := Option.some.inj (h.symm.trans hs)
  have hparent : vm.parentOf i = parent := by simp [Vm.parentOf, h]
  refine .node ?_
  rw [hparent]
  cases parent with
  | none => exact .null
  | some p =>
    exact (hdone (.scope p) (mem_tasks.2 (.inr (.inr ⟨p, by simp [scopes], rfl⟩)))).2

/-- **A call that comes back has done its work**, and left every object it
marked with its references marked. -/
theorem grows_runTask (hR : Domain vm R) (ht : t.In vm R) (h : runTask vm.objects k m t = .ok m') :
    Grows (Follows vm) (Sound vm R) m m' ∧ t.Done vm m' := by
  -- the calls for an object run on less fuel, so the induction covers them
  induction k using Nat.strong_induction_on generalizing m m' t with
  | h k ih =>
    rcases runTask_ok h with ⟨v, rfl, hv, rfl⟩ | ⟨i, obj, j, htarget, hobj, hmod, hj, hrun, -⟩
    · refine ⟨.refl _, ?_⟩
      rintro i rfl hu hn
      rcases hv i rfl with hi | hi | ⟨obj, hi, hmod⟩
      · exact hi
      · exact absurd hi hu
      · exact absurd ((Vm.isModule_iff hi).2 hmod) hn
    · have hu : vm.InUse i := by simp [Vm.InUse, hobj]
      have hn : ¬ vm.IsModule i := fun h => hmod ((Vm.isModule_iff hobj).1 h)
      have hi : R i := by
        cases t with
        | value v =>
          cases v with
          | immediate w => cases htarget
          | object i' => cases htarget; exact ht i rfl hu hn
        | cls c => cases htarget; exact ht.1
        | scope s => cases htarget; exact ht.1
      obtain ⟨hgrows, hdone⟩ := Grows.foldlM (fun t m => t.Done vm m)
        (fun t m m' => Task.Done.mono) (fun t ht' m m' => ih j hj (hR.tasks hi hobj t ht')) hrun
      have hends := ends_of_done hobj hdone
      refine ⟨hgrows.visit ⟨hi, hends⟩ fun _ => mem_of_follows hobj hdone, ?_⟩
      cases t with
      | value v =>
        rintro i' rfl _ _
        cases htarget
        exact hgrows.mem
      | cls c => cases htarget; exact hgrows.mem
      | scope s => cases htarget; exact ⟨hgrows.mem, hends ht.2⟩

theorem grows_runTasks (hR : Domain vm R) (hts : ∀ t ∈ ts, t.In vm R)
    (h : runTasks vm.objects k ts m = .ok m') :
    Grows (Follows vm) (Sound vm R) m m' ∧ ∀ t ∈ ts, t.Done vm m' :=
  Grows.foldlM (fun t m => t.Done vm m) (fun _ _ _ => Task.Done.mono)
    (fun t ht _ _ h => grows_runTask hR (hts t ht) h) h

/-! ## Coming back -/

variable {N : Nat}

/-- The call comes back from any marks that leave at most `N` objects. -/
def ReturnsWithin (vm : Vm n D) (N : Nat) (t : Task n) : Prop :=
  ∀ m : Marks n, mᶜ.card ≤ N → ∃ k m', runTask vm.objects k m t = .ok m'

theorem runTasks_returns (hR : Domain vm R) (hts : ∀ t ∈ ts, t.In vm R)
    (h : ∀ t ∈ ts, ReturnsWithin vm N t) (hm : mᶜ.card ≤ N) :
    ∃ k m', runTasks vm.objects k ts m = .ok m' := by
  induction ts generalizing m with
  | nil => exact ⟨0, m, rfl⟩
  | cons t ts ih =>
    obtain ⟨k₁, m₁, h₁⟩ := h t (by simp) m hm
    have hsub := (grows_runTask hR (hts t (by simp)) h₁).1.subset
    have hm₁ : m₁ᶜ.card ≤ N :=
      le_trans (card_le_card (compl_subset_compl.2 hsub)) hm
    obtain ⟨k₂, m₂, h₂⟩ := ih (fun t ht => hts t (by simp [ht])) (fun t ht => h t (by simp [ht])) hm₁
    refine ⟨k₁ + k₂, m₂, ?_⟩
    exact bind_eq_ok.2 ⟨m₁, (stable_runTask _ _ _).le h₁ (by omega),
      (stable_runTasks _ _ _).le h₂ (by omega)⟩

theorem compl_insert_card_le (m : Marks n) (i : Fin n) : (insert i m)ᶜ.card ≤ mᶜ.card :=
  card_le_card (compl_subset_compl.2 (subset_insert i m))

variable (hR : Domain vm R)
include hR

/-- If `mark` comes back, then so does `mark_class`. -/
theorem returnsWithin_cls
    (hvals : ∀ v, Task.In vm R (.value v) → ReturnsWithin vm N (.value v)) {c : Fin n}
    (hc : Task.In vm R (.cls c)) : ReturnsWithin vm N (.cls c) := by
  intro m hm
  obtain ⟨hRc, methods, hobj⟩ := hc
  have hts := hR.tasks hRc hobj
  have hret : ∀ t ∈ (.cls methods : Object n D).tasks, ReturnsWithin vm N t := by
    intro t ht
    obtain ⟨v, hv, rfl⟩ : ∃ v ∈ (.cls methods : Object n D).values, t = .value v := by
      simpa [mem_tasks, classes, scopes] using ht
    exact hvals v (hts _ ht)
  obtain ⟨k, m', h⟩ := runTasks_returns hR hts hret (le_trans (compl_insert_card_le m _) hm)
  exact ⟨k + 1, m', by rw [runTask, markClass_succ hobj, h]⟩

/-- If `mark` comes back, then so does `mark_scope` where the parents end. -/
theorem returnsWithin_scope
    (hvals : ∀ v, Task.In vm R (.value v) → ReturnsWithin vm N (.value v)) {s : Fin n}
    (hs : Task.In vm R (.scope s)) (hends : Ends vm.parentOf (some s)) :
    ReturnsWithin vm N (.scope s) := by
  generalize hchain : some s = chain at hends
  induction hends generalizing s with
  | null => cases hchain
  | @node a hends ih =>
    cases hchain
    intro m hm
    obtain ⟨hRs, vars, parent, hobj⟩ := hs
    have hts := hR.tasks hRs hobj
    have hret : ∀ t ∈ (.scope vars parent : Object n D).tasks, ReturnsWithin vm N t := by
      intro t ht
      rcases mem_tasks.1 ht with ⟨v, hv, rfl⟩ | ⟨c, hc, rfl⟩ | ⟨p, hp, rfl⟩
      · exact hvals v (hts _ ht)
      · simp [classes] at hc
      · refine ih (hts _ ht) ?_
        simpa [Vm.parentOf, hobj, scopes, eq_comm] using hp
    obtain ⟨k, m', h⟩ := runTasks_returns hR hts hret (le_trans (compl_insert_card_le m _) hm)
    exact ⟨k + 1, m', by rw [runTask, markScope_succ hobj, h]⟩

variable (hends : ∀ s, R s → vm.IsScope s → Ends vm.parentOf (some s))
include hends

/-- All calls come back if those of `mark` do. -/
theorem returnsWithin_of_values
    (hvals : ∀ v, Task.In vm R (.value v) → ReturnsWithin vm N (.value v)) (ht : t.In vm R) :
    ReturnsWithin vm N t := by
  cases t with
  | value v => exact hvals v ht
  | cls c => exact returnsWithin_cls hR hvals ht
  | scope s => exact returnsWithin_scope hR hvals ht (hends s ht.1 ht.2)

/-- **`mark` comes back**: each object it goes into is marked from then on,
and `mark_scope`, which looks at no mark, only follows parents. -/
theorem returnsWithin_value (N : Nat) :
    ∀ v, Task.In vm R (.value v) → ReturnsWithin vm N (.value v) := by
  induction N with
  | zero =>
    intro v _ m hm
    have hall : ∀ i, i ∈ m := by simpa [eq_univ_iff_forall] using hm
    exact ⟨1, m, mark_of_passed fun i _ => .inl (hall i)⟩
  | succ N ih =>
    intro v hv m hm
    by_cases hpass : Passed vm.objects m v
    · exact ⟨1, m, mark_of_passed hpass⟩
    · obtain ⟨i, obj, rfl, hi, hobj, hmod⟩ := exists_of_not_passed hpass
      have hRi : R i := hv i rfl (by simp [Vm.InUse, hobj]) fun h => hmod ((Vm.isModule_iff hobj).1 h)
      have hcard : (insert i m)ᶜ.card ≤ N := by
        rw [compl_insert, card_erase_of_mem (by simpa using hi)]
        omega
      obtain ⟨k, m', h⟩ := runTasks_returns hR (hR.tasks hRi hobj)
        (fun t ht => returnsWithin_of_values hR hends ih (hR.tasks hRi hobj t ht)) hcard
      exact ⟨k + 2, m', by rw [runTask, mark_succ_succ hi hobj hmod, h]⟩

/-- **Every sequence of calls comes back** where no chain of parents is
endless. -/
theorem exists_runTasks (hts : ∀ t ∈ ts, t.In vm R)
    (m : Marks n) : ∃ k m', runTasks vm.objects k ts m = .ok m' :=
  runTasks_returns hR hts (fun t ht => returnsWithin_of_values hR hends
    (returnsWithin_value hR hends mᶜ.card) (hts t ht)) le_rfl

end Traversal

end Archives.Ena
