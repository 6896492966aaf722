import Archives.Common.Except
import Archives.Common.RingWindow
import Archives.Ftl.Model.VirtQueue
import Mathlib.Data.List.Perm.Basic
import Mathlib.Data.List.Nodup
/-!
# FTL — chains in the virtqueue

A chain in flight is described by the list of its descriptors and the
list of its buffers (`Threaded`). As long as the free list and the
chains part the descriptors, a push writes into free ones only and
leaves the other chains alone, and `pop_used` reads a chain as it was
pushed. The heads on their way through the device are those of the
chains in flight, so neither ring is ever overfull, and the counts may
wrap around. The results are `partition_and_pops`.
-/

namespace Archives.Ftl.Virtio

open VirtQueue List Function Nat Option InFlight

/-! ## Chains in the table -/

/-- **A chain in the table**: each descriptor describes its buffer and
names the next. -/
def Threaded (table : Nat → VirtqDesc) : List Nat → List DescBuffer → Prop
  | [], [] => True
  | index :: indices, buffer :: buffers =>
    table index = describe buffer indices.head? ∧ Threaded table indices buffers
  | _, _ => False

variable {table table' : Nat → VirtqDesc} {indices : List Nat} {chain : List DescBuffer}

/-- A chain is where its descriptors are. -/
theorem Threaded.congr (h : Threaded table indices chain)
    (heq : ∀ i ∈ indices, table' i = table i) : Threaded table' indices chain := by
  fun_induction Threaded table indices chain with
  | case1 => trivial
  | case2 index rest buffer buffers ih =>
    refine ⟨?_, ih h.2 fun i hi => heq i (mem_cons_of_mem _ hi)⟩
    rw [heq index mem_cons_self]
    exact h.1
  | case3 => exact h.elim

theorem Threaded.length (h : Threaded table indices chain) : indices.length = chain.length := by
  fun_induction Threaded table indices chain with
  | case1 => rfl
  | case2 index rest buffer buffers ih => simp [ih h.2]
  | case3 => exact h.elim

/-- **A chain is written into distinct descriptors.** By induction on
the chain; what was written is not written again. -/
theorem writeChain_threaded (hlen : indices.length = chain.length) (hnodup : indices.Nodup)
    (hlt : ∀ i ∈ indices, i < virtqSize) (table : Nat → VirtqDesc) :
    ∃ table', writeChain indices chain table = .ok table' ∧ Threaded table' indices chain ∧
      ∀ i, i ∉ indices → table' i = table i := by
  induction indices generalizing chain table with
  | nil =>
    cases chain with
    | nil => exact ⟨table, rfl, trivial, fun _ _ => rfl⟩
    | cons buffer buffers => cases hlen
  | cons index rest ih =>
    cases chain with
    | nil => cases hlen
    | cons buffer buffers =>
      obtain ⟨hnot, hrest⟩ := nodup_cons.1 hnodup
      have hlen' : rest.length = buffers.length := succ.inj hlen
      have hindex : ¬ virtqSize ≤ index := not_le.2 (hlt index mem_cons_self)
      have hnext : (if buffers = [] then none else rest.head?) = rest.head? := by
        split
        · rename_i hnil
          rw [hnil, length_nil, length_eq_zero_iff] at hlen'
          rw [hlen']
          rfl
        · rfl
      obtain ⟨table', hwrite, hthreaded, hother⟩ := ih hlen' hrest
        (fun i hi => hlt i (mem_cons_of_mem _ hi))
        (update table index (describe buffer rest.head?))
      refine ⟨table', ?_, ⟨?_, hthreaded⟩, ?_⟩
      · simp only [writeChain, if_neg hindex, hnext]
        exact hwrite
      · rw [hother index hnot, update_self]
      · intro i hi
        obtain ⟨hne, hi⟩ := not_or.1 (mem_cons.not.1 hi)
        rw [hother i hi, update_of_ne hne]

@[simp] theorem hasNext_describe (buffer : DescBuffer) (next : Option Nat) :
    (describe buffer next).hasNext = next.isSome := by
  cases buffer <;> cases next <;>
    simp [describe, VirtqDesc.hasNext, virtqDescFNext, virtqDescFWrite]

@[simp] theorem next_describe (buffer : DescBuffer) (next : Option Nat) :
    (describe buffer next).next = next.getD 0 := by
  cases buffer <;> rfl

@[simp] theorem bufferOf_describe (buffer : DescBuffer) (next : Option Nat) :
    bufferOf (describe buffer next) = buffer := by
  cases buffer <;> cases next <;>
    simp [describe, bufferOf, VirtqDesc.isWritable, virtqDescFNext, virtqDescFWrite]

/-- **A chain is read as it was written**, and its descriptors are freed
in its order. By induction on the chain. -/
theorem readChain_threaded {index : Nat} {rest : List Nat}
    (h : Threaded table (index :: rest) chain) (hlt : ∀ i ∈ index :: rest, i < virtqSize)
    {fuel : Nat} (hfuel : rest.length < fuel) (before : List DescBuffer) (freeList : FreeList) :
    readChain table fuel index before freeList =
      .ok (before ++ chain, ⟨freeList.items ++ index :: rest⟩) := by
  induction chain generalizing index rest fuel before freeList with
  | nil => exact h.elim
  | cons buffer buffers ih =>
    obtain ⟨fuel, rfl⟩ := exists_eq_add_one_of_ne_zero (ne_of_gt (zero_lt_of_lt hfuel))
    have hindex : ¬ virtqSize ≤ index := not_le.2 (hlt index mem_cons_self)
    cases rest with
    | nil =>
      have hnil : buffers = [] := by
        have hlen := h.2.length
        simpa using hlen.symm
      subst hnil
      simp only [readChain, if_neg hindex, h.1, hasNext_describe, bufferOf_describe]
      rfl
    | cons next rest =>
      have hnext := ih h.2 (fun i hi => hlt i (mem_cons_of_mem _ hi))
        (lt_of_succ_lt_succ hfuel) (before ++ [buffer]) (freeList.push index)
      simp only [readChain, if_neg hindex, h.1, hasNext_describe, next_describe,
        bufferOf_describe, head?_cons, isSome_some, if_true, getD_some]
      rw [hnext]
      simp [FreeList.push]

/-! ## The invariant -/

namespace System

variable {sys sys' : System} {pending : List Nat}

/-- **What holds in every run**, with the heads that the device has not
yet read. -/
structure Good (sys : System) (pending : List Nat) : Prop where
  partition : sys.Partition
  threaded : ∀ c ∈ sys.inFlight, c.indices ≠ [] ∧ Threaded sys.queue.descTable c.indices c.chain
  lastAvail : sys.lastAvail < 65536
  availIndex : sys.queue.availIndex = (sys.lastAvail + pending.length) % 65536
  avail : Window virtqSize 65536 sys.queue.availRing sys.lastAvail pending
  lastUsed : sys.queue.lastUsedIndex < 65536
  usedIndex : sys.queue.usedIndex = (sys.queue.lastUsedIndex + sys.returned.length) % 65536
  used : Window virtqSize 65536 sys.queue.usedRing sys.queue.lastUsedIndex sys.returned
  heads : (pending ++ sys.held ++ sys.returned.map VirtqUsedElem.id).Perm
    (sys.inFlight.map head)

theorem good_boot : boot.Good [] where
  partition := by simp [Partition, boot, VirtQueue.new]
  threaded := fun c hc => by cases hc
  lastAvail := by decide
  availIndex := rfl
  avail := window_nil
  lastUsed := by decide
  usedIndex := rfl
  used := window_nil
  heads := List.Perm.refl _

/-- Chains have descriptors, so there are no more chains than those. -/
theorem length_le_flatMap {chains : List InFlight} (h : ∀ c ∈ chains, c.indices ≠ []) :
    chains.length ≤ (chains.flatMap InFlight.indices).length := by
  induction chains with
  | nil => simp
  | cons c rest ih =>
    have hc : 0 < c.indices.length := length_pos_iff.2 (h c mem_cons_self)
    have hrest := ih fun x hx => h x (mem_cons_of_mem _ hx)
    simp only [length_cons, flatMap_cons, length_append]
    omega

namespace Good

variable (hg : sys.Good pending)

include hg

theorem length_le :
    sys.queue.freeList.items.length + (sys.inFlight.flatMap InFlight.indices).length = 64 := by
  have hlen := hg.partition.length_eq
  rwa [length_append, length_range] at hlen

theorem heads_le :
    sys.queue.freeList.items.length + (pending.length + sys.held.length + sys.returned.length) ≤
      64 := by
  have hlen := hg.length_le
  have hchains := length_le_flatMap fun c hc => (hg.threaded c hc).1
  have hheads := hg.heads.length_eq
  simp only [length_append, length_map] at hheads
  omega

theorem nodup : (sys.queue.freeList.items ++ sys.inFlight.flatMap InFlight.indices).Nodup :=
  hg.partition.nodup_iff.2 nodup_range

theorem lt_of_mem {i : Nat}
    (h : i ∈ sys.queue.freeList.items ++ sys.inFlight.flatMap InFlight.indices) : i < virtqSize :=
  mem_range.1 (hg.partition.mem_iff.1 h)

/-! ## The calls of the driver -/

/-- A chain that was written into free descriptors is in flight. -/
theorem push {free indices : List Nat} {chain : List DescBuffer} {table : Nat → VirtqDesc}
    (hcut : free ++ indices = sys.queue.freeList.items) (hne : indices ≠ [])
    (hthreaded : Threaded table indices chain)
    (hother : ∀ i, i ∉ indices → table i = sys.queue.descTable i) : ({ sys with
      queue := { sys.queue with
        descTable := table
        availIndex := wrappingSucc sys.queue.availIndex
        availRing := update sys.queue.availRing (sys.queue.availIndex % virtqSize)
          (indices.headD 0)
        freeList := ⟨free⟩ }
      inFlight := ⟨indices, chain⟩ :: sys.inFlight } : System).Good
      (pending ++ [indices.headD 0]) := by
  have hroom : pending.length < virtqSize := by
    have hle := hg.heads_le
    have hpos := length_pos_iff.2 hne
    rw [← hcut, length_append] at hle
    simp only [virtqSize]
    omega
  refine ⟨?_, ?_, hg.lastAvail, ?_, ?_, hg.lastUsed, hg.usedIndex, hg.used, ?_⟩
  · have hpart := hg.partition
    unfold Partition at hpart ⊢
    simpa [← hcut] using hpart
  · intro c hc
    rcases mem_cons.1 hc with rfl | hc
    · exact ⟨hne, hthreaded⟩
    · obtain ⟨hcne, hcthreaded⟩ := hg.threaded c hc
      refine ⟨hcne, hcthreaded.congr ?_⟩
      -- a descriptor in flight is not free
      intro i hi
      refine hother i ?_
      intro hmem
      have hdisjoint := (nodup_append.1 hg.nodup).2.2
      have hfree : i ∈ sys.queue.freeList.items := by
        rw [← hcut]
        exact mem_append_right _ hmem
      exact hdisjoint i hfree i (mem_flatMap.2 ⟨c, hc, hi⟩) rfl
  · simp only [wrappingSucc, hg.availIndex, length_append, length_singleton]
    rw [Nat.mod_add_mod, Nat.add_assoc]
  · simp only [hg.availIndex]
    exact hg.avail.push (by decide) hroom
  · simp only [map_cons]
    have hmiddle : (pending ++ [indices.headD 0] ++ sys.held ++
        sys.returned.map VirtqUsedElem.id).Perm
        (indices.headD 0 :: (pending ++ sys.held ++ sys.returned.map VirtqUsedElem.id)) := by
      simp only [append_assoc, singleton_append]
      exact perm_middle
    exact hmiddle.trans (hg.heads.cons _)

/-- **A push**: with enough free descriptors the chain is in flight, and
without them nothing happens. -/
theorem pushAvail {chain : List DescBuffer} (hchain : chain ≠ []) :
    ∃ queue result pending', sys.queue.pushAvail chain = .ok (queue, result) ∧
      (result = .error .outOfDescriptors ↔ sys.queue.freeList.items.length < chain.length) ∧
      (∀ err, result = .error err → queue = sys.queue) ∧
      ({ sys with queue := queue, inFlight := sys.pushed chain result } : System).Good pending' := by
  unfold VirtQueue.pushAvail
  rw [if_neg hchain]
  by_cases hfew : sys.queue.freeList.items.length < chain.length
  · have hpop : sys.queue.freeList.pop chain.length = (sys.queue.freeList, none) := if_pos hfew
    simp only [hpop]
    exact ⟨sys.queue, _, pending, rfl, ⟨fun _ => hfew, fun _ => rfl⟩, fun _ _ => rfl, hg⟩
  · have hpop : sys.queue.freeList.pop chain.length =
        (⟨sys.queue.freeList.items.take (sys.queue.freeList.items.length - chain.length)⟩,
          some (sys.queue.freeList.items.drop
            (sys.queue.freeList.items.length - chain.length))) := if_neg hfew
    have hcut := take_append_drop (sys.queue.freeList.items.length - chain.length)
      sys.queue.freeList.items
    have hlen : (sys.queue.freeList.items.drop
        (sys.queue.freeList.items.length - chain.length)).length = chain.length := by
      rw [length_drop]
      omega
    have hsub : ∀ i ∈ sys.queue.freeList.items.drop
        (sys.queue.freeList.items.length - chain.length), i ∈ sys.queue.freeList.items :=
      fun i hi => mem_of_mem_drop hi
    have hnodup : (sys.queue.freeList.items.drop
        (sys.queue.freeList.items.length - chain.length)).Nodup :=
      (nodup_append.1 hg.nodup).1.sublist (drop_sublist _ _)
    obtain ⟨table, hwrite, hthreaded, hother⟩ := writeChain_threaded hlen hnodup
      (fun i hi => hg.lt_of_mem (mem_append_left _ (hsub i hi))) sys.queue.descTable
    have hne : sys.queue.freeList.items.drop
        (sys.queue.freeList.items.length - chain.length) ≠ [] := by
      rw [← length_pos_iff, hlen]
      exact length_pos_iff.2 hchain
    simp only [hpop, hwrite]
    refine ⟨_, _, _, rfl, ⟨?_, fun h => absurd h hfew⟩, ?_, hg.push hcut hne hthreaded hother⟩
    · nofun
    · nofun

/-- A chain in flight is read back whole. -/
theorem readChain {c : InFlight} (hc : c ∈ sys.inFlight) :
    readChain sys.queue.descTable virtqSize c.head [] sys.queue.freeList =
      .ok (c.chain, ⟨sys.queue.freeList.items ++ c.indices⟩) := by
  obtain ⟨hne, hthreaded⟩ := hg.threaded c hc
  have hlt : ∀ i ∈ c.indices, i < virtqSize := fun i hi =>
    hg.lt_of_mem (mem_append_right _ (mem_flatMap.2 ⟨c, hc, hi⟩))
  have hshort : c.indices.length ≤ 64 := by
    have hlen := hg.length_le
    have hsub : c.indices.length ≤ (sys.inFlight.flatMap InFlight.indices).length :=
      (sublist_flatten_of_mem (mem_map_of_mem hc)).length_le
    omega
  rcases hindices : c.indices with _ | ⟨index, rest⟩
  · exact absurd hindices hne
  · rw [hindices] at hthreaded hlt hshort
    have hfuel : rest.length < virtqSize := by
      simp only [length_cons, virtqSize] at hshort ⊢
      omega
    have hread := readChain_threaded hthreaded hlt hfuel [] sys.queue.freeList
    simpa [InFlight.head, hindices] using hread

/-- **A pop** returns the chain under the first head that was returned. -/
theorem popUsed : ∃ queue result, sys.queue.popUsed = .ok (queue, result) ∧
      (sys.returned = [] → result = none ∧ queue = sys.queue) ∧
      (∀ elem rest, sys.returned = elem :: rest → ∃ c ∈ sys.inFlight, c.head = elem.id ∧
        result = some ⟨c.chain, elem.len⟩ ∧
        queue.freeList.items = sys.queue.freeList.items ++ c.indices) ∧ ({ sys with
        queue := queue
        returned := if result.isSome then sys.returned.tail else sys.returned
        inFlight := if result.isSome then sys.without (sys.returned.headD ⟨0, 0⟩).id
          else sys.inFlight } : System).Good pending := by
  have hshort : sys.returned.length < 65536 := by
    have hle := hg.heads_le
    omega
  have hempty := add_length_mod_eq_iff hg.lastUsed hshort
  rw [← hg.usedIndex] at hempty
  unfold VirtQueue.popUsed
  rcases hreturned : sys.returned with _ | ⟨elem, rest⟩
  · have hsame := (hempty.2 hreturned).symm
    rw [if_pos hsame]
    refine ⟨_, _, rfl, fun _ => ⟨rfl, rfl⟩, fun _ _ h => (by cases h), ?_⟩
    simpa [← hreturned] using hg
  · have hne : sys.queue.lastUsedIndex ≠ sys.queue.usedIndex := by
      intro hsame
      rw [hempty.1 hsame.symm] at hreturned
      cases hreturned
    have hwindow := hg.used
    rw [hreturned] at hwindow
    have helem : sys.queue.usedRing (sys.queue.lastUsedIndex % virtqSize) = elem :=
      hwindow.head hg.lastUsed
    -- the head is that of a chain in flight
    have hmem : elem.id ∈ sys.inFlight.map head := by
      rw [← hg.heads.mem_iff, hreturned]
      simp
    obtain ⟨c₀, hc₀, hhead₀⟩ := mem_map.1 hmem
    obtain ⟨c, before, after, -, hhead, hsplit, herase⟩ :=
      exists_of_eraseP (p := fun c : InFlight => c.head = elem.id) hc₀
        (decide_eq_true hhead₀)
    have hhead : c.head = elem.id := of_decide_eq_true hhead
    have hc : c ∈ sys.inFlight := by
      rw [hsplit]
      simp
    have hread := hg.readChain hc
    rw [hhead] at hread
    rw [if_neg hne]
    simp only [helem, hread]
    refine ⟨_, _, rfl, fun h => (by cases h), ?_, ?_⟩
    · intro elem' rest' heq
      obtain ⟨rfl, rfl⟩ := cons.inj heq
      exact ⟨c, hc, hhead, rfl, rfl⟩
    · have hwithout : sys.without elem.id = before ++ after := herase
      simp only [isSome_some, if_true, headD_cons, tail_cons, hwithout]
      refine ⟨?_, ?_, hg.lastAvail, hg.availIndex, hg.avail, ?_, ?_, ?_, ?_⟩
      · have hpart := hg.partition
        unfold Partition at hpart ⊢
        rw [hsplit] at hpart
        refine List.Perm.trans ?_ hpart
        simp only [flatMap_append, flatMap_cons, append_assoc]
        refine List.Perm.append_left _ ?_
        simp only [← append_assoc]
        exact List.Perm.append_right _ perm_append_comm
      · intro x hx
        refine hg.threaded x ?_
        rw [hsplit]
        rcases mem_append.1 hx with hx | hx
        · exact mem_append_left _ hx
        · exact mem_append_right _ (mem_cons_of_mem _ hx)
      · exact mod_lt _ (by decide)
      · simp only [wrappingSucc, hg.usedIndex, hreturned, length_cons]
        rw [mod_add_mod]
        omega
      · exact hwindow.tail
      · have hheads := hg.heads
        rw [hreturned, hsplit] at hheads
        simp only [map_cons, map_append, hhead] at hheads ⊢
        exact (perm_middle.symm.trans (hheads.trans perm_middle)).cons_inv

/-! ## The device -/

/-- **A read** takes the oldest head of the available ring. -/
theorem read (hne : sys.lastAvail ≠ sys.queue.availIndex) : ∃ pending', ({ sys with
      lastAvail := wrappingSucc sys.lastAvail
      held := sys.held ++ [sys.queue.availRing (sys.lastAvail % virtqSize)] } : System).Good
      pending' := by
  have hshort : pending.length < 65536 := by
    have hle := hg.heads_le
    omega
  have hempty := add_length_mod_eq_iff hg.lastAvail hshort
  rw [← hg.availIndex] at hempty
  rcases pending with _ | ⟨head, rest⟩
  · exact absurd (hempty.2 rfl).symm hne
  · have hhead := hg.avail.head hg.lastAvail
    rw [hhead]
    refine ⟨rest, hg.partition, hg.threaded, mod_lt _ (by decide), ?_, hg.avail.tail,
      hg.lastUsed, hg.usedIndex, hg.used, ?_⟩
    · simp only [wrappingSucc, hg.availIndex, length_cons]
      rw [mod_add_mod]
      omega
    · refine List.Perm.trans ?_ hg.heads
      simp only [append_assoc, cons_append]
      exact (List.Perm.append_left rest perm_middle).trans perm_middle

/-- **A completion** puts a head that the device holds into the used
ring, where there is room for it. -/
theorem complete {head : Nat} (hmem : head ∈ sys.held) (len : Nat) : ({ sys with
      queue := { sys.queue with
        usedIndex := wrappingSucc sys.queue.usedIndex
        usedRing := update sys.queue.usedRing (sys.queue.usedIndex % virtqSize)
          ⟨head, len⟩ }
      held := sys.held.erase head
      returned := sys.returned ++ [⟨head, len⟩] } : System).Good pending := by
  have hroom : sys.returned.length < virtqSize := by
    have hle := hg.heads_le
    have hpos := length_pos_of_mem hmem
    simp only [virtqSize]
    omega
  refine ⟨hg.partition, hg.threaded, hg.lastAvail, hg.availIndex, hg.avail, hg.lastUsed, ?_, ?_, ?_⟩
  · simp only [wrappingSucc, hg.usedIndex, length_append, length_singleton]
    rw [Nat.mod_add_mod, Nat.add_assoc]
  · simp only [hg.usedIndex]
    exact hg.used.push (by decide) hroom
  · refine List.Perm.trans ?_ hg.heads
    simp only [map_append, map_cons, map_nil, append_assoc]
    refine List.Perm.append_left _ ?_
    -- the head moves from the ones held to the ones returned
    have herase := perm_cons_erase hmem
    have hback : (sys.held.erase head ++ (sys.returned.map VirtqUsedElem.id ++ [head])).Perm
        (head :: (sys.held.erase head ++ sys.returned.map VirtqUsedElem.id)) := by
      rw [← append_assoc]
      exact perm_append_singleton _ _
    exact hback.trans (herase.symm.append_right _)

/-! ## Runs -/

/-- **A step keeps the account.** -/
theorem step {op : Op} {sys' : System} (hstep : sys.step op = some sys') :
    ∃ pending', sys'.Good pending' := by
  cases op with
  | push chain =>
    by_cases hchain : chain = []
    · subst hchain
      cases hstep
    · obtain ⟨queue, result, pending', hpush, -, -, hgood⟩ := hg.pushAvail hchain
      simp only [System.step, hpush] at hstep
      cases hstep
      exact ⟨pending', hgood⟩
  | pop =>
    obtain ⟨queue, result, hpop, -, -, hgood⟩ := hg.popUsed
    simp only [System.step, hpop] at hstep
    cases hstep
    exact ⟨pending, hgood⟩
  | read =>
    simp only [System.step] at hstep
    split at hstep
    · cases hstep
    · rename_i hne
      cases hstep
      exact hg.read hne
  | complete head len =>
    simp only [System.step] at hstep
    split at hstep
    · rename_i hmem
      cases hstep
      exact ⟨pending, hg.complete hmem len⟩
    · cases hstep

end Good

/-- The account holds in every run. -/
theorem Good.of_reach {sys : System} (h : machine.Reach boot sys) : ∃ pending, sys.Good pending :=
  h.invariant (I := fun sys => ∃ pending, sys.Good pending) ⟨[], good_boot⟩
    fun ⟨_, hg⟩ _ hstep => hg.step hstep

/-- **The free list and the chains in flight always part the
descriptors.** However chains are pushed, read, returned and popped, a
pop gives the chain that was pushed under the head that the device
returned, and a push that fails leaves the queue as it was. -/
theorem partition_and_pops {sys : System} (h : machine.Reach boot sys) :
    sys.Partition ∧ sys.PopsPushed ∧ sys.PushesOrFails := by
  obtain ⟨pending, hg⟩ := Good.of_reach h
  refine ⟨hg.partition, ?_, ?_⟩
  · obtain ⟨queue, result, hpop, hnone, hsome, -⟩ := hg.popUsed
    exact ⟨queue, result, hpop, hnone, hsome⟩
  · intro chain hchain
    obtain ⟨queue, result, -, hpush, hfail, hsame, -⟩ := hg.pushAvail hchain
    exact ⟨queue, result, hpush, hfail, hsame⟩

/-- Two chains that come back in the other order: the second is popped,
the first is in flight. -/
theorem partition_of_two_chains : ∃ sys, machine.Reach boot sys ∧
    sys.inFlight = [⟨[62, 63], [.readOnlyFromDevice 4096 16, .writableFromDevice 8192 32]⟩] ∧
    sys.queue.freeList.items.length = 62 ∧ sys.returned = [⟨62, 8⟩] ∧
    sys.Partition ∧ sys.PopsPushed ∧ sys.PushesOrFails := by
  obtain ⟨sys, hreach, hflight, hfree, hreturned⟩ : ∃ sys, machine.Reach boot sys ∧
      sys.inFlight = [⟨[62, 63], [.readOnlyFromDevice 4096 16, .writableFromDevice 8192 32]⟩] ∧
        sys.queue.freeList.items.length = 62 ∧ sys.returned = [⟨62, 8⟩] :=
    Machine.exists_reachUnder [.push [.readOnlyFromDevice 4096 16, .writableFromDevice 8192 32],
      .push [.writableFromDevice 0 1, .writableFromDevice 1 2, .readOnlyFromDevice 2 3],
      .read, .read, .complete 59 6, .complete 62 8, .pop] (by decide +kernel)
  exact ⟨sys, hreach, hflight, hfree, hreturned, partition_and_pops hreach⟩

/-- **No descriptor is lost.** Whatever came and went, once the device
has read and returned every chain and the driver has popped it, all
descriptors are free. -/
theorem free_of_drained (h : machine.Reach boot sys)
    (hread : sys.lastAvail = sys.queue.availIndex) (hheld : sys.held = [])
    (hpopped : sys.returned = []) : sys.queue.freeList.items.Perm (List.range virtqSize) := by
  obtain ⟨pending, hg⟩ := Good.of_reach h
  have hle := hg.heads_le
  have hpending : pending = [] := by
    refine (add_length_mod_eq_iff hg.lastAvail (by omega)).1 ?_
    rw [← hg.availIndex, hread]
  have hheads := hg.heads
  rw [hpending, hheld, hpopped] at hheads
  have hnone : sys.inFlight = [] := map_eq_nil_iff.1 (nil_perm.1 hheads)
  simpa [Partition, hnone] using hg.partition

/-- A chain that came and went. -/
theorem free_of_drained_one : ∃ sys, machine.Reach boot sys ∧
    sys.queue.freeList.items.Perm (List.range 64) := by
  obtain ⟨sys, h, hread, hheld, hpopped⟩ : ∃ sys, machine.Reach boot sys ∧
      sys.lastAvail = sys.queue.availIndex ∧ sys.held = [] ∧ sys.returned = [] :=
    Machine.exists_reachUnder [.push [.writableFromDevice 0 8], .read, .complete 63 8, .pop]
      (by decide +kernel)
  exact ⟨sys, h, free_of_drained h hread hheld hpopped⟩

end System

end Archives.Ftl.Virtio
