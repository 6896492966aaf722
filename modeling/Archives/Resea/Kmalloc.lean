import Archives.Common.Machine
import Archives.Common.Ring
import Mathlib.Data.List.Range
/-!
# Resea — the arenas of kmalloc

`arena_init`, `kmalloc_from` and `kfree` of `kernel/memory.c`. A free
chunk begins with a header, and the headers are linked through the
memory of the objects they lie in, which are larger than a header in
both arenas of the kernel. `kmalloc_from` takes the last object of
the first chunk and moves the chunk to the end of the list. Whoever got
an object may write into it what they like.
-/

namespace Archives.Resea.Kmalloc

open List Option Function

/-- A `list_head`: that of the arena, or the one of a header. -/
abbrev Node := Option Nat

/-- `struct kmalloc_arena`, with the headers in its memory. -/
structure Arena where
  freeList : Links Node
  /-- `num_objects` of the header at an address. -/
  chunkLen : Nat → Nat
  objectSize : Nat
  numObjects : Nat

/-- `sizeof(struct free_list)`. -/
def freeListSize : Nat := 24

namespace Arena

variable (arena : Arena)

def addFreeList (addr numObjects : Nat) : Arena :=
  { arena with
    chunkLen := update arena.chunkLen addr numObjects
    freeList := arena.freeList.pushBack none (some addr) }

/-- `arena_init`, whatever the memory holds. Objects have room for a
header, as those of the kernel do; the headers of smaller ones would
overlap. -/
def init (links : Links Node) (lens : Nat → Nat) (addr arenaSize objectSize : Nat) : Option Arena :=
  if objectSize < arenaSize ∧ freeListSize < arenaSize ∧ freeListSize ≤ objectSize then
    let arena : Arena := ⟨links.init none, lens, objectSize, arenaSize / objectSize⟩
    some (arena.addFreeList addr (arenaSize / objectSize))
  else none

/-- `kmalloc_from`, with the object it returns; without a free chunk it
panics. -/
def kmallocFrom : Option (Nat × Arena) :=
  match arena.freeList.popFront none with
  | some (some addr, links) =>
    let len := arena.chunkLen addr - 1
    some (addr + len * arena.objectSize,
      { arena with
        chunkLen := update arena.chunkLen addr len
        freeList := if 0 < len then links.pushBack none (some addr) else links })
  | _ => none

def kfree (ptr : Nat) : Arena := arena.addFreeList ptr 1

/-- The owner of an object writes to where its header would be. -/
def write (ptr : Nat) (next prev : Node) (len : Nat) : Arena :=
  { arena with
    chunkLen := update arena.chunkLen ptr len
    freeList :=
      { next := update arena.freeList.next (some ptr) next
        prev := update arena.freeList.prev (some ptr) prev } }

/-- The first objects from an address on. -/
def objects (addr len : Nat) : List Nat :=
  (List.range len).map fun i => addr + i * arena.objectSize

end Arena

/-- An arena and the objects that were handed out. -/
structure State where
  arena : Arena
  outstanding : List Nat

inductive Action
  | kmalloc
  | kfree (ptr : Nat)
  | write (ptr : Nat) (next prev : Node) (len : Nat)

/-- **The machine.** Only outstanding objects are freed or written to. -/
def machine : Machine State Action where
  step s
    | .kmalloc => s.arena.kmallocFrom.map fun r => ⟨r.2, r.1 :: s.outstanding⟩
    | .kfree ptr =>
      if ptr ∈ s.outstanding then some ⟨s.arena.kfree ptr, s.outstanding.erase ptr⟩ else none
    | .write ptr next prev len =>
      if ptr ∈ s.outstanding then some { s with arena := s.arena.write ptr next prev len } else none

/-- **Free and outstanding objects are all objects of the arena, each
once**: the chunks of the free list and what was handed out. -/
structure Partition (base len : Nat) (s : State) (chunks : List Nat) : Prop where
  ring : s.arena.freeList.Ring none (chunks.map some)
  pos : ∀ a ∈ chunks, 0 < s.arena.chunkLen a
  all : (s.outstanding ++ chunks.flatMap fun a => s.arena.objects a (s.arena.chunkLen a)).Perm
    (s.arena.objects base len)
  size : 0 < s.arena.objectSize

variable {base len ptr : Nat} {s s' : State} {chunks : List Nat} {arena : Arena}

/-- Objects are at different addresses. -/
theorem Arena.nodup_objects (h : 0 < arena.objectSize) : (arena.objects base len).Nodup := by
  refine nodup_range.map fun i j hij => ?_
  exact Nat.eq_of_mul_eq_mul_right h (Nat.add_left_cancel hij)

theorem Arena.objects_succ (arena : Arena) (addr len : Nat) :
    arena.objects addr (len + 1) = arena.objects addr len ++ [addr + len * arena.objectSize] := by
  simp [objects, range_succ]

section

variable (h : Partition base len s chunks)

include h

/-- The header of a chunk is its first object. -/
theorem Partition.mem_objects {a : Nat} (ha : a ∈ chunks) :
    a ∈ s.arena.objects a (s.arena.chunkLen a) :=
  mem_map.mpr ⟨0, mem_range.mpr (h.pos a ha), by simp⟩

/-- An outstanding object is not in the free list. -/
theorem Partition.notMem (hptr : ptr ∈ s.outstanding) : ptr ∉ chunks := by
  intro hmem
  have hnodup := h.all.nodup_iff.mpr (Arena.nodup_objects h.size)
  exact disjoint_of_nodup_append hnodup hptr (mem_flatMap.mpr ⟨ptr, hmem, h.mem_objects hmem⟩)

omit h in
/-- What is free elsewhere does not depend on one header. -/
theorem flatMap_update {lens : Nat → Nat} {a n : Nat} (f : Nat → Nat → List Nat) (h : a ∉ chunks) :
    (chunks.flatMap fun b => f b (update lens a n b)) = chunks.flatMap fun b => f b (lens b) :=
  flatMap_congr fun b hb => by rw [update_of_ne (ne_of_mem_of_not_mem hb h)]

/-- **The chunk that is added has been outstanding.** -/
theorem Partition.kfree (hptr : ptr ∈ s.outstanding) :
    Partition base len ⟨s.arena.kfree ptr, s.outstanding.erase ptr⟩ (chunks ++ [ptr]) where
  ring := h.ring.pushBack_some (h.notMem hptr)
  pos a ha := by
    show 0 < update s.arena.chunkLen ptr 1 a
    by_cases heq : a = ptr
    · simp [heq]
    · simpa [heq] using h.pos a (by simpa [heq] using ha)
  all := by
    refine .trans ?_ h.all
    show List.Perm (_ ++ (chunks ++ [ptr]).flatMap fun a =>
      s.arena.objects a (update s.arena.chunkLen ptr 1 a)) _
    rw [flatMap_append, flatMap_update s.arena.objects (h.notMem hptr), flatMap_singleton,
      update_self]
    have hone : s.arena.objects ptr 1 = [ptr] := by simp [Arena.objects]
    rw [hone, ← append_assoc]
    exact (perm_append_singleton ptr _).trans ((perm_cons_erase hptr).symm.append_right _)
  size := h.size

/-- **What is written to an object does not reach the list.** -/
theorem Partition.write (hptr : ptr ∈ s.outstanding) (next prev : Node) (n : Nat) :
    Partition base len { s with arena := s.arena.write ptr next prev n } chunks where
  ring := by
    refine h.ring.congr fun x hx => ?_
    have hne : x ≠ some ptr := by
      rintro rfl
      exact h.notMem hptr (by simpa using hx)
    exact ⟨update_of_ne hne .., update_of_ne hne ..⟩
  pos a ha := by
    have hne : a ≠ ptr := fun heq => h.notMem hptr (heq ▸ ha)
    simpa [Arena.write, hne] using h.pos a ha
  all := by
    show List.Perm (_ ++ chunks.flatMap fun a =>
      s.arena.objects a (update s.arena.chunkLen ptr n a)) _
    rw [flatMap_update s.arena.objects (h.notMem hptr)]
    exact h.all
  size := h.size

/-- **The last object of the first chunk is handed out.** -/
theorem Partition.kmalloc (hs : s.arena.kmallocFrom = some (ptr, arena)) :
    ∃ chunks', Partition base len ⟨arena, ptr :: s.outstanding⟩ chunks' := by
  cases chunks with
  | nil =>
    have hpop := h.ring.popFront_nil
    simp [Arena.kmallocFrom, hpop] at hs
  | cons a chunks =>
    obtain ⟨links, hpop, hlinks⟩ := h.ring.popFront
    simp only [Arena.kmallocFrom, hpop, some.injEq, Prod.mk.injEq] at hs
    obtain ⟨rfl, rfl⟩ := hs
    obtain ⟨n, hn⟩ : ∃ n, s.arena.chunkLen a = n + 1 :=
      Nat.exists_eq_add_one.mpr (h.pos a mem_cons_self)
    have hnot : a ∉ chunks := by
      have hnodup := h.ring.nodup
      simp_all
    have hpos : ∀ b ∈ chunks, 0 < update s.arena.chunkLen a n b := fun b hb => by
      rw [update_of_ne (ne_of_mem_of_not_mem hb hnot)]
      exact h.pos b (mem_cons_of_mem a hb)
    have hall := h.all
    rw [flatMap_cons, hn, Arena.objects_succ,
      ← flatMap_update (n := n) s.arena.objects hnot] at hall
    rw [hn, Nat.add_sub_cancel]
    rcases Nat.eq_zero_or_pos n with rfl | hn
    · refine ⟨chunks, hlinks, hpos, .trans ?_ hall, h.size⟩
      exact perm_middle.symm
    · refine ⟨chunks ++ [a], ?_, fun b hb => ?_, .trans ?_ hall, h.size⟩
      · rw [if_pos hn]
        exact hlinks.pushBack_some hnot
      · rcases mem_append.mp hb with hb | hb
        · exact hpos b hb
        · simpa [mem_singleton.mp hb] using hn
      · rw [flatMap_append, flatMap_singleton, perm_iff_count]
        simp only [Arena.objects, update_self, count_append, count_cons, count_nil]
        omega

end

theorem Partition.step {action : Action} (h : ∃ chunks, Partition base len s chunks)
    (hs : machine.step s action = some s') : ∃ chunks, Partition base len s' chunks := by
  obtain ⟨chunks, h⟩ := h
  cases action with
  | kmalloc =>
    obtain ⟨⟨ptr, arena⟩, hmalloc, rfl⟩ := map_eq_some_iff.mp hs
    exact h.kmalloc hmalloc
  | kfree ptr =>
    obtain ⟨hptr, heq⟩ := ite_none_right_eq_some.mp hs
    cases heq
    exact ⟨_, h.kfree hptr⟩
  | write ptr next prev n =>
    obtain ⟨hptr, heq⟩ := ite_none_right_eq_some.mp hs
    cases heq
    exact ⟨_, h.write hptr next prev n⟩

theorem partition_init {links : Links Node} {lens : Nat → Nat} {size objectSize : Nat}
    (h : Arena.init links lens base size objectSize = some arena) :
    Partition base (size / objectSize) ⟨arena, []⟩ [base] := by
  obtain ⟨⟨hsize, -, hroom⟩, heq⟩ := ite_none_right_eq_some.mp h
  cases heq
  have hpos : 0 < objectSize := Nat.lt_of_lt_of_le (by decide) hroom
  refine ⟨(links.ring_init none).pushBack (by simp), fun a ha => ?_, ?_, hpos⟩
  · rw [mem_singleton.mp ha]
    show 0 < update lens base _ base
    rw [update_self]
    exact Nat.div_pos (Nat.le_of_lt hsize) hpos
  · show List.Perm ([] ++ ([base].flatMap fun a => _)) _
    rw [flatMap_singleton, nil_append]
    show List.Perm (Arena.objects _ base (update lens base _ base)) _
    rw [update_self]

/-- **Wherever allocating, freeing and writing lead**, free and outstanding
objects are all objects of the arena; and what is handed out is an object
of the arena that was not outstanding. -/
theorem partition_of_reach {arena : Arena} {links : Links Node} {lens : Nat → Nat}
    {size objectSize : Nat} (hinit : Arena.init links lens base size objectSize = some arena)
    (h : machine.Reach ⟨arena, []⟩ s) : (∃ chunks, Partition base (size / objectSize) s chunks) ∧
      ∀ ptr arena', s.arena.kmallocFrom = some (ptr, arena') →
        ptr ∈ s.arena.objects base (size / objectSize) ∧ ptr ∉ s.outstanding := by
  have hpart := h.invariant (I := fun s => ∃ chunks, Partition base (size / objectSize) s chunks)
    ⟨_, partition_init hinit⟩ fun hx _ hs => Partition.step hx hs
  refine ⟨hpart, fun ptr arena' hmalloc => ?_⟩
  obtain ⟨chunks, hchunks⟩ := hpart
  obtain ⟨chunks', hafter⟩ := hchunks.kmalloc hmalloc
  have hnodup := hafter.all.nodup_iff.mpr (Arena.nodup_objects hafter.size)
  have hsize : arena'.objectSize = s.arena.objectSize := by
    simp only [Arena.kmallocFrom] at hmalloc
    split at hmalloc
    · cases hmalloc
      rfl
    · cases hmalloc
  have hmem := hafter.all.subset (mem_append_left _ mem_cons_self)
  refine ⟨?_, fun hold => ?_⟩
  · simpa [Arena.objects, hsize] using hmem
  · simp [hold] at hnodup

def fourObjects : Option Arena :=
  Arena.init ⟨fun _ => none, fun _ => none⟩ (fun _ => 0) 4096 1024 256

/-- Some of them are handed out, given back and handed out again. -/
theorem partition_of_four_objects : ∃ arena s, fourObjects = some arena ∧
    machine.Reach ⟨arena, []⟩ s ∧ s.outstanding = [4864, 4608] ∧
    ∃ chunks, Partition 4096 4 s chunks := by
  obtain ⟨s, hs, hout⟩ : ∃ s, machine.Reach ⟨fourObjects.get rfl, []⟩ s ∧
      s.outstanding = [4864, 4608] :=
    Machine.exists_reachUnder [.kmalloc, .kmalloc, .kfree 4864, .kmalloc, .kmalloc, .kfree 4352]
      (by decide +kernel)
  exact ⟨_, s, (some_get _).symm, hs, hout, (partition_of_reach (some_get _).symm hs).1⟩

/-- **Objects run out exactly when all of them are outstanding**, however
freeing has broken up the chunks. -/
theorem kmallocFrom_eq_none_iff {links : Links Node} {lens : Nat → Nat} {size objectSize : Nat}
    (hinit : Arena.init links lens base size objectSize = some arena)
    (h : machine.Reach ⟨arena, []⟩ s) :
    s.arena.kmallocFrom = none ↔ s.outstanding.length = size / objectSize := by
  obtain ⟨chunks, hpart⟩ := h.invariant
    (I := fun s => ∃ chunks, Partition base (size / objectSize) s chunks)
    ⟨_, partition_init hinit⟩ fun hx _ hs => Partition.step hx hs
  have hlen := hpart.all.length_eq
  cases chunks with
  | nil => simpa [Arena.kmallocFrom, hpart.ring.popFront_nil, Arena.objects] using hlen
  | cons a chunks =>
    obtain ⟨links, hpop, -⟩ := hpart.ring.popFront
    have hpos := hpart.pos a mem_cons_self
    have hne : s.outstanding.length ≠ size / objectSize := by
      simp [Arena.objects] at hlen
      omega
    simp [Arena.kmallocFrom, hpop, hne]

/-- Four objects are outstanding, one of them for the second time. -/
theorem kmallocFrom_eq_none_of_four : ∃ s, machine.Reach ⟨fourObjects.get rfl, []⟩ s ∧
    s.arena.kmallocFrom = none := by
  obtain ⟨s, hs, hout⟩ : ∃ s, machine.Reach ⟨fourObjects.get rfl, []⟩ s ∧
      s.outstanding.length = 1024 / 256 :=
    Machine.exists_reachUnder [.kmalloc, .kmalloc, .kfree 4864, .kmalloc, .kmalloc, .kmalloc]
      (by decide +kernel)
  exact ⟨s, hs, (kmallocFrom_eq_none_iff (some_get _).symm hs).2 hout⟩

end Archives.Resea.Kmalloc
