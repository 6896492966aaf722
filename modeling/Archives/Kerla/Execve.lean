import Archives.Kerla.InitStack
import Archives.Kerla.Model.Execve
/-!
# Kerla — what a failed `execve` leaves

The new program is set up by calls on the kernel's memory alone, so an
error among them leaves the process as it was when they began. That is
after its files were closed: `sysExecve_cases` says in which states a call
can end, and the result about errors is read off it.
-/

namespace Archives.Kerla

open List Option Call Except Nat Prod

/-! ## Closing files -/

namespace OpenedFileTable

theorem closeCloexecFiles_eq_self {t : OpenedFileTable} :
    t.closeCloexecFiles = t ↔ Execve.NoCloexec t := by
  have hmap : t.closeCloexecFiles = t ↔
      (t.files.map fun slot => slot.filter fun file => !file.closeOnExec) = t.files := by
    constructor
    · exact fun h => congrArg OpenedFileTable.files h
    · intro h
      rw [closeCloexecFiles, h]
  have hslot : ∀ slot : Option LocalOpenedFile, (slot.filter fun file => !file.closeOnExec) = slot ↔
      ∀ file, slot = some file → file.closeOnExec = false := by
    intro slot
    cases slot with
    | none => simp
    | some file => cases hc : file.closeOnExec <;> simp [hc]
  rw [hmap]
  constructor
  · intro h slot hmem
    have := map_inj_left.1 (h.trans (map_id t.files).symm) slot hmem
    exact (hslot slot).1 this
  · intro h
    have := map_congr_left fun slot hmem => (hslot slot).2 (h slot hmem)
    exact this.trans (map_id t.files)

end OpenedFileTable

namespace Execve

variable {w : World} {s s' : State} {path : Path} {argvUaddr envpUaddr : Nat}
  {argv envp : List Bytes}

/-! ## The memory in use -/

section Frame

variable {k₀ : Memory}

/-- What a memory has in common with the one at the start: the bytes
that were in use, and no more free addresses. -/
structure Within (k₀ k : Memory) : Prop where
  used : ∀ a, ¬ k₀.Free a → k.mem a = k₀.mem a
  free : ∀ a, k.Free a → k₀.Free a

theorem Within.refl (k : Memory) : Within k k := ⟨fun _ _ => rfl, fun _ h => h⟩

/-- A run of addresses that were free at the start. -/
def FreeRun (k₀ : Memory) (start len : Nat) : Prop :=
  ∀ a, start ≤ a → a < start + len → k₀.Free a

/-- The pages a zone gives are its first free ones. -/
theorem allocFromZones_eq_some {order p : Nat} {zones zones' : List BumpAllocator}
    (h : allocFromZones order zones = some (p, zones')) :
    (∀ a, p ≤ a → a < p + pageSize * (1 <<< order) →
      ∃ zone ∈ zones, zone.current ≤ a ∧ a < zone.stop) ∧
    ∀ a, (∃ zone ∈ zones', zone.current ≤ a ∧ a < zone.stop) →
      ∃ zone ∈ zones, zone.current ≤ a ∧ a < zone.stop := by
  induction zones generalizing p zones' with
  | nil => cases h
  | cons zone zones ih =>
    rw [allocFromZones] at h
    cases hz : zone.allocPages order with
    | none =>
      rw [hz, elim_none] at h
      obtain ⟨⟨q, rest⟩, hrest, heq⟩ := map_eq_some_iff.1 h
      obtain ⟨rfl, rfl⟩ := mk.inj heq
      obtain ⟨hpages, hfree⟩ := ih hrest
      constructor
      · intro a hge hlt
        obtain ⟨z, hmem, hza⟩ := hpages a hge hlt
        exact ⟨z, mem_cons_of_mem zone hmem, hza⟩
      · rintro a ⟨z, hmem, hza⟩
        rcases mem_cons.1 hmem with rfl | hmem
        · exact ⟨z, mem_cons_self, hza⟩
        · obtain ⟨z', hmem', hza'⟩ := hfree a ⟨z, hmem, hza⟩
          exact ⟨z', mem_cons_of_mem zone hmem', hza'⟩
    | some r =>
      rw [hz, elim_some] at h
      obtain ⟨rfl, rfl⟩ := mk.inj (Option.some.inj h)
      rw [BumpAllocator.allocPages] at hz
      split at hz
      next => cases hz
      next hroom =>
        cases hz
        constructor
        · intro a hge hlt
          exact ⟨zone, mem_cons_self, hge, by omega⟩
        · rintro a ⟨z, hmem, hza⟩
          rcases mem_cons.1 hmem with rfl | hmem
          · refine ⟨zone, mem_cons_self, ?_, hza.2⟩
            have := hza.1
            simp only at this
            omega
          · exact ⟨z, mem_cons_of_mem zone hmem, hza⟩

theorem le_of_numPagesToOrder {n order : Nat} (h : numPagesToOrder n = some order) :
    n ≤ 1 <<< order :=
  of_decide_eq_true (find?_some (p := fun order => decide (n ≤ 1 <<< order)) h)

/-- **Allocated pages were free**, and nothing is written to them. -/
theorem allocPages_triple (n : Nat) :
    (allocPages n).Triple (Within k₀) (fun p k => Within k₀ k ∧ FreeRun k₀ p (n * pageSize))
      (Within k₀) := by
  refine triple_state_bind fun k hk => ?_
  cases horder : numPagesToOrder n with
  | none => exact triple_stop
  | some order =>
    rw [elim_some]
    cases hzones : allocFromZones order k.zones with
    | none => exact triple_fail fun k' hk' => hk' ▸ hk
    | some r =>
      obtain ⟨p, zones⟩ := r
      obtain ⟨hpages, hfree⟩ := allocFromZones_eq_some hzones
      have hle := le_of_numPagesToOrder horder
      refine triple_bind (triple_update fun k' hk' => ?_) fun _ => triple_pure fun k' hk' => hk'
      subst hk'
      refine ⟨⟨hk.used, fun a ha => hk.free a (hfree a ha)⟩, fun a hge hlt => hk.free a ?_⟩
      refine hpages a hge (lt_of_lt_of_le hlt ?_)
      rw [mul_comm n]
      exact Nat.add_le_add_left (Nat.mul_le_mul_left pageSize hle) p

/-- Bytes that are written to pages that were free. -/
theorem Within.write {k : Memory} {mem : Nat → UInt8} {start len : Nat} (h : Within k₀ k)
    (hrun : FreeRun k₀ start len) (hmem : ∀ a, a < start ∨ start + len ≤ a → mem a = k.mem a) :
    Within k₀ { k with mem := mem } := by
  refine ⟨fun a ha => ?_, h.free⟩
  refine (hmem a ?_).trans (h.used a ha)
  rcases lt_or_ge a start with hlt | hge
  · exact .inl hlt
  · rcases lt_or_ge a (start + len) with hlt' | hge'
    · exact absurd (hrun a hge hlt') ha
    · exact .inr hge'

theorem allocPages_keeps (n : Nat) : (allocPages n).Keeps (Within k₀) :=
  (allocPages_triple n).weaken (fun _ h => h) (fun _ _ h => h.1) fun _ h => h

theorem parse_keeps (page : Nat) : (Elf.parse page).Keeps (Within k₀) := by
  refine keeps_state_bind fun k => ?_
  refine keeps_ite (keeps_fail _) (keeps_ite (keeps_fail _) (keeps_ite (keeps_fail _) ?_))
  exact keeps_ite (keeps_stop _) (keeps_pure _)

theorem endOfImage_keeps (phdrs : List ProgramHeader) (last : Nat) :
    (endOfImage phdrs last).Keeps (Within k₀) := by
  induction phdrs generalizing last with
  | nil => exact keeps_pure last
  | cons phdr phdrs ih =>
    exact keeps_ite (keeps_ite (keeps_stop _) (ih _)) (ih _)

/-- An aligned length is a number of pages. -/
theorem alignUpToPage_triple (value : Nat) :
    (alignUpToPage value).Triple (Within k₀) (fun len k => Within k₀ k ∧ len % pageSize = 0)
      (Within k₀) := by
  refine triple_ite (fun _ => triple_stop) fun _ => triple_pure fun k hk => ⟨hk, ?_⟩
  simp only [alignUp, alignDown, pageSize]
  omega

/-- The stack is written into the pages it was given. -/
theorem initStack_keeps {base len : Nat} {h : len < userStackLen} {argv envp : List Bytes}
    {auxv : List Auxv} (hrun : FreeRun k₀ base len) :
    (initStack (stackRegion base len h) argv envp auxv).Keeps (Within k₀) := by
  refine triple_state_bind fun k hk => ?_
  refine triple_lift_bind (fun k' hk' => hk' ▸ hk) fun r hr => ?_
  refine triple_update_pure fun k' hk' => ?_
  subst hk'
  exact hk.write hrun fun a ha => InitStack.initUserStack_outside hr ha

theorem setupStack_keeps (heapBottom : Nat) (argv envp : List Bytes) (auxv : List Auxv) :
    (setupStack heapBottom argv envp auxv).Keeps (Within k₀) := by
  refine triple_bind (alignUpToPage_triple _) fun len => triple_of_fact fun hlen => ?_
  split
  · exact keeps_fail _
  · refine triple_bind (allocPages_triple _) fun pages => triple_of_fact fun hrun => ?_
    rw [Nat.div_mul_cancel (Nat.dvd_of_mod_eq_zero hlen)] at hrun
    exact keeps_bind (initStack_keeps hrun) fun _ => keeps_pure _

theorem traverse_keeps (vaddr : Nat) (levels : List Nat) (pt : UserPages) :
    (traverse vaddr levels pt).Keeps (Within k₀) := by
  induction levels generalizing pt with
  | nil => exact keeps_pure pt
  | cons level levels ih =>
    refine keeps_ite (ih pt) (keeps_bind ?_ fun _ => ih _)
    exact triple_expect (allocPages_keeps 1)

theorem mapUserPages_keeps (top paddr count : Nat) (is : List Nat) (pt : UserPages) :
    (mapUserPages top paddr count is pt).Keeps (Within k₀) := by
  induction is generalizing pt with
  | nil => exact keeps_pure pt
  | cons i is ih =>
    refine keeps_bind (keeps_bind (traverse_keeps _ _ _) fun _ => keeps_pure _) ih

theorem onVm_keeps (m : VmCall Unit) (vm : Vm) : (onVm m vm).Keeps (Within k₀) := by
  unfold onVm
  split
  · exact keeps_pure _
  · exact keeps_fail _
  · exact keeps_stop _

theorem registerSegments_keeps (executable : Nat) (phdrs : List ProgramHeader) (vm : Vm) :
    (registerSegments executable phdrs vm).Keeps (Within k₀) := by
  induction phdrs generalizing vm with
  | nil => exact keeps_pure vm
  | cons phdr phdrs ih =>
    refine keeps_ite (keeps_bind (keeps_lift _) fun start => ?_) (ih vm)
    exact keeps_bind (onVm_keeps _ vm) ih

theorem newSpace_keeps (heapBottom headerPage : Nat) (stack : UserStack) :
    (newSpace heapBottom headerPage stack).Keeps (Within k₀) := by
  refine keeps_ite (keeps_stop _) (keeps_bind (allocPages_keeps 1) fun pml4 => ?_)
  refine keeps_bind (mapUserPages_keeps _ _ _ _ _) fun pt => ?_
  exact keeps_bind (mapUserPages_keeps _ _ _ _ _) fun _ => keeps_pure _

theorem setupElf_keeps (executable headerPage : Nat) (argv envp : List Bytes) :
    (setupElf w executable headerPage argv envp).Keeps (Within k₀) := by
  refine keeps_bind (parse_keeps headerPage) fun elf => ?_
  refine keeps_bind (keeps_lift _) fun ip => ?_
  refine keeps_bind (endOfImage_keeps _ 0) fun last => ?_
  refine keeps_bind ((alignUpToPage_triple last).weaken (fun _ h => h) (fun _ _ h => h.1)
    fun _ h => h) fun heapBottom => ?_
  refine keeps_bind (setupStack_keeps heapBottom argv envp _) fun stack => ?_
  refine keeps_bind (newSpace_keeps heapBottom headerPage stack) fun space => ?_
  exact keeps_bind (registerSegments_keeps executable _ _) fun _ => keeps_pure _

/-- The file is read into the page that was allocated for it. -/
theorem readHeader_keeps (path : PathComponent) : (readHeader w path).Keeps (Within k₀) := by
  refine triple_bind (allocPages_triple 1) fun page => triple_of_fact fun hrun => ?_
  refine keeps_bind (keeps_lift _) fun executable => ?_
  refine keeps_bind (keeps_lift _) fun data => ?_
  refine keeps_bind (triple_update fun k hk => ?_) fun _ =>
    keeps_state_bind fun k => keeps_pure _
  refine hk.write hrun fun a ha => ?_
  have hlen : (data.take pageSize).length ≤ 1 * pageSize := by
    exact length_take_le _ _
  rcases ha with ha | ha
  · exact Cells.write_of_lt ha
  · exact Cells.write_of_ge (by omega)

theorem setupWith_keeps {envp : List Bytes}
    {run : Option (PathComponent → List Bytes → MemoryCall UserspaceEntry)}
    (hrun : ∀ f, run = some f → ∀ path argv, (f path argv).Keeps (Within k₀))
    (path : PathComponent) (argv : List Bytes) :
    (setupWith w envp run path argv).Keeps (Within k₀) := by
  refine keeps_bind (readHeader_keeps path) fun header => ?_
  cases hscript : (if isScript header.buf then run else none) with
  | none => exact setupElf_keeps _ _ argv envp
  | some f =>
    have hf : run = some f := by
      split at hscript
      · exact hscript
      · cases hscript
    refine keeps_ite (keeps_fail _) (keeps_bind (keeps_lift _) fun p => ?_)
    exact hrun f hf p _

/-- **Setting up a program writes to free pages only.** The interpreter
of a script is set up without a script. -/
theorem doSetupUserspace_keeps (envp : List Bytes) (handleShebang : Bool) (path : PathComponent)
    (argv : List Bytes) : (doSetupUserspace w envp handleShebang path argv).Keeps (Within k₀) := by
  refine setupWith_keeps (fun f hf => ?_) path argv
  split at hf
  · cases hf
    exact setupWith_keeps fun g hg => absurd hg (some_ne_none g).symm
  · cases hf

end Frame

/-! ## How a call ends -/

/-- **`Process::execve` closes files first.** Then it fails in what does
not concern the process, or the process is given its new program. -/
theorem execve_cases {executable : PathComponent} {r : Except ExecError Unit}
    (h : (execve w executable argv envp).run s = .ok (r, s')) : ∃ memory, Within s.memory memory ∧
      ((∃ e, r = .error e ∧ s' = { s.closeCloexec with memory := memory }) ∨
        ∃ entry, r = .ok () ∧ s' = .enter { s.closeCloexec with memory := memory } entry) := by
  have hkeeps : (doSetupUserspace w envp true executable argv).Keeps (Within s.memory) :=
    doSetupUserspace_keeps envp true executable argv
  rcases run_bind_eq_ok.1 h with ⟨e, he, -⟩ | ⟨_, t, ht, h⟩
  · cases he
  · cases ht
    rcases run_bind_eq_ok.1 h with ⟨e, he, rfl⟩ | ⟨entry, t, ht, h⟩
    · obtain ⟨memory, hm, rfl⟩ := run_zoom_eq_ok.1 he
      exact ⟨memory, hkeeps (.refl _) hm, .inl ⟨e, rfl, rfl⟩⟩
    · obtain ⟨memory, hm, rfl⟩ := run_zoom_eq_ok.1 ht
      cases h
      exact ⟨memory, hkeeps (.refl _) hm, .inr ⟨entry, rfl, rfl⟩⟩

/-- **What a call of `execve` can do.** It fails before the process is
touched; or it closes files and fails; or it replaces the program. What
was in use of the memory stays. -/
theorem sysExecve_cases {r : Except ExecError Nat}
    (h : (sysExecve w path argvUaddr envpUaddr).run s = .ok (r, s')) :
    (∃ e, prepare w path argvUaddr envpUaddr = .error e ∧ r = .error e ∧ s' = s) ∨
    ∃ args memory, prepare w path argvUaddr envpUaddr = .ok args ∧ Within s.memory memory ∧
      ((∃ e, r = .error e ∧ s' = { s.closeCloexec with memory := memory }) ∨
        ∃ entry, r = .ok 0 ∧ s' = .enter { s.closeCloexec with memory := memory } entry) := by
  rcases run_bind_eq_ok.1 h with ⟨e, he, rfl⟩ | ⟨args, t, ht, h⟩
  · obtain ⟨hprepare, rfl⟩ := mk.inj (ok.inj he)
    exact .inl ⟨e, hprepare, rfl, rfl⟩
  · obtain ⟨hprepare, rfl⟩ := mk.inj (ok.inj ht)
    rcases run_bind_eq_ok.1 h with ⟨e, he, rfl⟩ | ⟨_, t, ht, h⟩
    · obtain ⟨memory, hwithin, ⟨e', -, rfl⟩ | ⟨entry, hr, -⟩⟩ := execve_cases he
      · exact .inr ⟨args, memory, hprepare, hwithin, .inl ⟨e, rfl, rfl⟩⟩
      · cases hr
    · cases h
      obtain ⟨memory, hwithin, ⟨e', hr, -⟩ | ⟨entry, -, rfl⟩⟩ := execve_cases ht
      · cases hr
      · exact .inr ⟨args, memory, hprepare, hwithin, .inr ⟨entry, rfl, rfl⟩⟩

/-- A process whose files were closed is as it was when none had to be. -/
theorem unchanged_closeCloexec {memory : Memory} (hwithin : Within s.memory memory) :
    Unchanged s { s.closeCloexec with memory := memory } ↔ NoCloexec s.process.openedFiles := by
  rw [← OpenedFileTable.closeCloexecFiles_eq_self]
  exact ⟨fun h => h.openedFiles, fun h => ⟨h, rfl, rfl, hwithin.used, rfl⟩⟩

/-- **A failed `execve` leaves the process as it was exactly when no file
is closed on `execve`, or the failure is one of the path or of the
strings.** -/
theorem unchanged_iff {e : ExecError}
    (h : (sysExecve w path argvUaddr envpUaddr).run s = .ok (.error e, s')) :
    Unchanged s s' ↔ NoCloexec s.process.openedFiles ∨
      ∃ e', prepare w path argvUaddr envpUaddr = .error e' := by
  obtain ⟨e', hprepare, -, rfl⟩ |
    ⟨args, memory, hprepare, hwithin, ⟨e', -, rfl⟩ | ⟨entry, hr, -⟩⟩ := sysExecve_cases h
  · exact ⟨fun _ => .inr ⟨e', hprepare⟩, fun _ => ⟨rfl, rfl, rfl, fun _ _ => rfl, rfl⟩⟩
  · rw [unchanged_closeCloexec hwithin]
    constructor
    · exact .inl
    · rintro (hno | ⟨e'', he''⟩)
      · exact hno
      · rw [hprepare] at he''
        cases he''
  · cases hr

/-! ## The stack of the new program -/

/-- **The stack is always written.** The size that was checked is enough
for what `init_user_stack` pushes into pages that are aligned. -/
theorem initStack_ok {base len : Nat} {h : len < userStackLen} {auxv : List Auxv} (k : Memory)
    (hbase : base % usizeLen = 0) (hlen : len % usizeLen = 0)
    (hest : InitStack.estimateUserInitStackSize argv envp auxv ≤ len) :
    ∃ usp k', (initStack (stackRegion base len h) argv envp auxv).run k = .ok (.ok usp, k') := by
  have htop : (stackRegion base len h).top % usizeLen = 0 := by
    simp only [stackRegion, usizeLen] at hbase hlen ⊢
    omega
  have hroom : InitStack.estimateUserInitStackSize argv envp auxv ≤
      (stackRegion base len h).top - (stackRegion base len h).bottom := by
    simp only [stackRegion, Nat.add_sub_cancel_left]
    exact hest
  obtain ⟨usp, mem, hok⟩ := InitStack.initUserStack_ok _ argv envp auxv k.mem htop hroom
  refine ⟨usp, { k with mem := mem }, ?_⟩
  refine run_bind_eq_ok.2 (.inr ⟨k, k, rfl, run_bind_eq_ok.2 (.inr ?_)⟩)
  exact ⟨(usp, mem), k, congrArg (fun r => ok (r, k)) hok, rfl⟩

/-- **What the new program reads from its stack**: the arguments in
order, and the environment in the opposite order. -/
theorem read_initStack {base len usp : Nat} {h : len < userStackLen} {elf : Elf} {k k' : Memory}
    (hrun : (initStack (stackRegion base len h) argv envp (auxvOf w elf)).run k = .ok (.ok usp, k')) :
    Startup.read (stackRegion base len h) k'.mem usp = some ⟨argv.length,
      argv.map Startup.cstr, envp.reverse.map Startup.cstr, (auxvOf w elf).reverse⟩ := by
  rcases run_bind_eq_ok.1 hrun with ⟨e, he, -⟩ | ⟨_, t, ht, hrun⟩
  · cases he
  · cases ht
    rcases run_bind_eq_ok.1 hrun with ⟨e, -, hr⟩ | ⟨⟨usp', mem⟩, t, ht, hrun⟩
    · cases hr
    · obtain ⟨hok, rfl⟩ := mk.inj (ok.inj ht)
      cases hrun
      have hauxv : ∀ a ∈ (auxvOf w elf).dropLast, a.isRandom = false := by
        simp [auxvOf, Auxv.isRandom]
      exact Startup.read_initUserStack hauxv hok

/-! ## An executable that is none -/

/-- A root directory with the empty file `f`. -/
def emptyFile : World where
  rootFs := {
    lookup := fun _ name => if name = ['f'] then .ok (.fileLike 0) else .error .enoent
    inodeNo := fun _ => .ok 1
    linkedTo := fun _ => .error .enoent
    mountPoints := fun _ => none
    rootPath := .root [] (.directory 0)
    symlinkFollowLimit := defaultSymlinkFollowMax }
  cwd := .root [] (.directory 0)
  read := fun _ => .ok []
  random := ⟨replicate 16 0, rfl⟩
  user := fun _ => 0

/-- A process with one opened file, in the handler of a signal. -/
def oneFile (closeOnExec : Bool) : State where
  process := {
    openedFiles := { files := [some ⟨0, closeOnExec⟩], prevFd := 0 }
    vm := Vm.new 0x1000 0x2000
    pageTable := ⟨0x1000, [], []⟩
    signaledFrame := some ⟨0x1000, 0x2000, []⟩ }
  frame := ⟨0x3000, 0x4000, []⟩
  memory := { mem := fun _ => 0, zones := [⟨0x100000, 0x200000⟩] }

/-- **An error that closed a file.** -/
theorem not_unchanged_of_cloexec : ∃ s',
    (sysExecve emptyFile (Path.new ['/', 'f']) 0x1000 0x1000).run (oneFile true) =
        .ok (.error .enoexec, s') ∧
      s'.process.openedFiles.files = [none] ∧ ¬ Unchanged (oneFile true) s' := by
  have hrun : ((sysExecve emptyFile (.new ['/', 'f']) 0x1000 0x1000).run
      (oneFile true)).toOption.map (fun r => (r.1, r.2.process.openedFiles.files)) =
        some (.error .enoexec, [none]) := by decide +kernel
  obtain ⟨⟨r, s'⟩, hs', heq⟩ := map_eq_some_iff.1 hrun
  obtain ⟨rfl, hfiles⟩ := mk.inj heq
  refine ⟨s', eq_ok_of_toOption hs', hfiles, fun h => ?_⟩
  have hsame := congrArg OpenedFileTable.files h.1
  rw [hfiles] at hsame
  exact absurd hsame (by decide)

/-- A process whose file stays open fails without a change. -/
theorem unchanged_without_cloexec : ∃ s',
    (sysExecve emptyFile (Path.new ['/', 'f']) 0x1000 0x1000).run (oneFile false) =
        .ok (.error .enoexec, s') ∧ Unchanged (oneFile false) s' := by
  have hrun : ((sysExecve emptyFile (.new ['/', 'f']) 0x1000 0x1000).run
      (oneFile false)).toOption.map (fun r => r.1) = some (.error .enoexec) := by decide +kernel
  obtain ⟨⟨r, s'⟩, hs', rfl⟩ := map_eq_some_iff.1 hrun
  refine ⟨s', eq_ok_of_toOption hs', (unchanged_iff (eq_ok_of_toOption hs')).2 (.inl ?_)⟩
  intro slot hslot file hfile
  obtain rfl := mem_singleton.1 hslot
  cases hfile
  rfl

end Execve

end Archives.Kerla
