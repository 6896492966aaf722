import Archives.Kerla.Lookup
import Archives.Kerla.Model.Mounts
import Mathlib.Data.List.Find
/-!
# Kerla — which directories a mount captures

`mount_points` is keyed by the inode number of the directory alone, and
numbers are not unique: the root of every tmpfs is number 1, all tmpfs
directories are numbered from 2 on, and the numbers of an initramfs are
what its image says. A mount therefore captures every directory with the
number of the one it was called on. `resolves_iff_distinguished` says
that nothing else goes wrong, except that a mount on the root directory
is never entered.

The invariant of the runs (`WellFormed`) is that the table is the list of
the calls, read by number. Two lookups that agree on every entry agree on
every path (`doLookupPath_agree`), so the rest is about one entry.
-/

namespace Archives.Kerla

open Option Except Prod
open List (mem_cons mem_of_find?_eq_some mem_singleton)

namespace RootFs

open Archives.Kerla.Path

/-! ## Lookups that agree on entries agree on paths -/

/-- Two results are the same, and a component with a property. -/
def Agree (P : PathComponent → Prop) (x y : Except Errno PathComponent) : Prop :=
  x = y ∧ ∀ c, x = .ok c → P c

variable {P : PathComponent → Prop} {fs fs' : RootFs}

theorem agree_ok {c : PathComponent} (h : P c) : Agree P (.ok c) (.ok c) := by
  refine ⟨rfl, ?_⟩
  intro c' hc
  cases hc
  exact h

theorem agree_error (e : Errno) : Agree P (.error e) (.error e) := by
  refine ⟨rfl, ?_⟩
  nofun

theorem Agree.bind {x y : Except Errno PathComponent}
    {f g : PathComponent → Except Errno PathComponent} (h : Agree P x y)
    (hfg : ∀ c, P c → Agree P (f c) (g c)) : Agree P (x >>= f) (y >>= g) := by
  obtain ⟨rfl, hP⟩ := h
  cases x with
  | error e => exact agree_error e
  | ok c => exact hfg c (hP c rfl)

/-- What is in a component has no slash. -/
theorem not_slash_mem_of_mem_collect {n : Nat} {s name : Str} (h : name ∈ collect n s) :
    '/' ∉ name := by
  obtain ⟨t, -, rfl⟩ := exists_of_mem_collect h
  intro hmem
  have hne := List.mem_takeWhile_imp hmem
  simp at hne

/-- Following links alike and finding alike, two walks agree. By
induction on the components. -/
theorem walk_agree {absolute : Path → Bool} {followSymlink : Bool}
    {r r' : Option (PathComponent → Path → Except Errno PathComponent)}
    (hentry : ∀ parent name, P parent → '/' ∉ name → name ≠ dot →
      Agree P (fs.entry parent name) (fs'.entry parent name)) (hfollow : ∀ parent l, P parent →
      Agree P (follow fs absolute r parent l) (follow fs' absolute r' parent l))
    {names : List Str} (hnames : ∀ name ∈ names, '/' ∉ name) {parent : PathComponent}
    (hP : P parent) : Agree P (fs.walk absolute followSymlink r parent names)
      (fs'.walk absolute followSymlink r' parent names) := by
  induction names generalizing parent with
  | nil => exact agree_ok hP
  | cons name rest ih =>
    have hrest : ∀ x ∈ rest, '/' ∉ x := fun x hx => hnames x (List.mem_cons_of_mem _ hx)
    simp only [walk]
    by_cases hdot : name = dot
    · simp only [if_pos hdot]
      exact ih hrest hP
    · simp only [if_neg hdot]
      refine (hentry parent name hP (hnames name List.mem_cons_self) hdot).bind ?_
      intro comp hcomp
      split
      · -- an ancestor
        split
        · exact ih hrest hcomp
        · refine (hfollow parent _ hP).bind ?_
          intro dst hdst
          split
          · exact ih hrest hdst
          · exact agree_error _
        · exact agree_error _
      · split
        · exact hfollow parent _ hP
        · exact agree_ok hcomp

/-- **Two trees that agree on entries agree on paths.** By induction on
the number of links that may still be followed. -/
theorem doLookupPath_agree {absolute : Path → Bool} {followSymlink : Bool}
    (hlink : fs.linkedTo = fs'.linkedTo) (hroot : fs.rootPath = fs'.rootPath)
    (hProot : P fs.rootPath) (hentry : ∀ parent name, P parent → '/' ∉ name → name ≠ dot →
      Agree P (fs.entry parent name) (fs'.entry parent name))
    (limit : Nat) {lookupFrom : PathComponent} (hP : P lookupFrom) (path : Path) :
    Agree P (fs.doLookupPath absolute followSymlink limit lookupFrom path)
      (fs'.doLookupPath absolute followSymlink limit lookupFrom path) := by
  have hnames : ∀ name ∈ path.components, '/' ∉ name :=
    fun name h => not_slash_mem_of_mem_collect h
  induction limit generalizing lookupFrom path with
  | zero =>
    simp only [doLookupPath]
    split
    · exact agree_error _
    · exact walk_agree hentry (fun _ _ _ => agree_error _) hnames hP
  | succ limit ih =>
    simp only [doLookupPath]
    split
    · exact agree_error _
    · refine walk_agree hentry ?_ hnames hP
      intro parent l hparent
      simp only [follow, ← hlink, ← hroot]
      rcases fs.linkedTo l with e | target
      · exact agree_error e
      · refine ih ?_ _ fun name h => not_slash_mem_of_mem_collect h
        split
        · exact hProot
        · exact hparent

/-- What is mounted on a directory is where its entry leads. -/
theorem throughMount_of_lookupMountPoint {d : Nat} {r : Option Nat}
    (h : fs.lookupMountPoint d = .ok (r.map .ok)) :
    fs.throughMount (.directory d) = .ok (.directory (r.getD d)) := by
  unfold lookupMountPoint at h
  simp only [throughMount]
  rcases hno : fs.inodeNo d with e | no
  · rw [hno] at h
    cases h
  · rw [hno] at h
    have hpoint : fs.mountPoints no = r.map .ok := ok.inj h
    cases r with
    | none => simp only [ok_bind, hpoint, map_none]; rfl
    | some root => simp only [ok_bind, hpoint, map_some]; rfl

end RootFs

namespace Mounts

namespace FileSystems

open Archives.Kerla.RootFs

variable {st st' : FileSystems} {dir parent no : Nat} {name : Str} {cwds : Nat → Prop}

/-! ## The invariant -/

/-- The inode is not a directory, or one of the first `n`. -/
def Below (n : Nat) (inode : INode) : Prop := ∀ d, inode = .directory d → d < n

/-- The entries of directories lead to none but the first `n`. -/
def EntriesBelow (n : Nat) (dirs : List Dir) : Prop :=
  ∀ dir ∈ dirs, ∀ file ∈ dir.files, Below n file.2

/-- **What holds in every run.** Entries lead to directories that exist,
and the table is what the calls of `mount` make of it. -/
structure WellFormed (st : FileSystems) : Prop where
  entries : EntriesBelow st.dirs.length st.dirs
  mounts : ∀ m ∈ st.mounts, m.1 < st.dirs.length
  mountPoints : ∀ no, st.mountPoints no = (st.lastMount no).map snd

/-- **What a step other than a mount does.** Directories keep their
number, and nothing is mounted. -/
structure Extends (st st' : FileSystems) : Prop where
  dirs : ∀ (d : Nat) (dir : Dir), st.dirs[d]? = some dir →
    ∃ dir', st'.dirs[d]? = some dir' ∧ dir'.inodeNo = dir.inodeNo
  mounts : st'.mounts = st.mounts
  mountPoints : st'.mountPoints = st.mountPoints

variable (h : Extends st st')
include h

theorem Extends.number (hdir : dir < st.dirs.length) : st'.number dir = st.number dir := by
  have hget : st.dirs[dir]? = some st.dirs[dir] := List.getElem?_eq_getElem hdir
  obtain ⟨dir', hget', hno⟩ := h.dirs _ _ hget
  simp [FileSystems.number, hget, hget', hno]

theorem Extends.length_le : st.dirs.length ≤ st'.dirs.length := by
  by_contra hlt
  have hdir : st'.dirs.length < st.dirs.length := by omega
  obtain ⟨d', hget', -⟩ := h.dirs _ _ (List.getElem?_eq_getElem hdir)
  simp at hget'

/-- The calls of `mount` are read by number as before. -/
theorem Extends.lastMount (hst : st.WellFormed) (no : Nat) :
    st'.lastMount no = st.lastMount no := by
  unfold FileSystems.lastMount
  rw [h.mounts]
  refine List.find?_congr ?_
  intro m hm
  rw [h.number (hst.mounts m hm)]

omit h

/-- A step other than a mount keeps the invariant, if its entries are in
order. -/
theorem WellFormed.extends (hst : st.WellFormed) (h : Extends st st')
    (hentries : EntriesBelow st'.dirs.length st'.dirs) : st'.WellFormed where
  entries := hentries
  mounts := by
    intro m hm
    rw [h.mounts] at hm
    exact (hst.mounts m hm).trans_le h.length_le
  mountPoints := by
    intro no
    rw [h.mountPoints, h.lastMount hst no, hst.mountPoints no]

/-! ### Entries -/

theorem extends_insert (st : FileSystems) (parent : Nat) (name : Str) (inode : INode) :
    Extends st (st.insert parent name inode) where
  dirs := by
    intro d dir hget
    have hget' : (st.insert parent name inode).dirs[d]? =
        some (if parent = d then dir.insert name inode else dir) := by
      simp only [insert, List.getElem?_modify, hget]
      rfl
    split at hget'
    · exact ⟨_, hget', rfl⟩
    · exact ⟨_, hget', rfl⟩
  mounts := rfl
  mountPoints := rfl

/-- An entry of a directory after an insertion is the new one or an old
one. -/
theorem mem_files_insert {inode : INode} {dir : Dir} {file : Str × INode}
    (hdir : dir ∈ (st.insert parent name inode).dirs) (hfile : file ∈ dir.files) :
    file.2 = inode ∨ ∃ old ∈ st.dirs, file ∈ old.files := by
  obtain ⟨d, hget⟩ := List.mem_iff_getElem?.1 hdir
  simp only [insert, List.getElem?_modify] at hget
  obtain ⟨old, hold, rfl⟩ := map_eq_some_iff.1 hget
  have hmem := List.mem_of_getElem? hold
  split at hfile
  · rcases mem_cons.1 hfile with rfl | hfile
    · exact .inl rfl
    · exact .inr ⟨old, hmem, (List.mem_filter.1 hfile).1⟩
  · exact .inr ⟨old, hmem, hfile⟩

@[simp] theorem length_insert {inode : INode} :
    (st.insert parent name inode).dirs.length = st.dirs.length := by
  simp [insert]

theorem WellFormed.insert (hst : st.WellFormed) {inode : INode}
    (hinode : Below st.dirs.length inode) : (st.insert parent name inode).WellFormed := by
  refine hst.extends (extends_insert st parent name inode) ?_
  intro dir hdir file hfile
  rw [length_insert]
  rcases mem_files_insert hdir hfile with heq | ⟨old, hold, hmem⟩
  · exact heq ▸ hinode
  · exact hst.entries old hold file hmem

/-- Fields that the invariant does not read. -/
theorem WellFormed.counters (hst : st.WellFormed) (symlinks : List Str)
    (nextFile nextInodeNo : Nat) :
    WellFormed ⟨st.dirs, symlinks, nextFile, nextInodeNo, st.roots, st.mountPoints, st.mounts⟩ :=
  ⟨hst.entries, hst.mounts, hst.mountPoints⟩

/-- A new directory without entries, somewhere. -/
theorem extends_append (st : FileSystems) (dir : Dir) (roots : List Nat) :
    Extends st { st with dirs := st.dirs ++ [dir], roots := roots } where
  dirs := by
    intro d old hget
    have hlt : d < st.dirs.length := (getElem?_eq_some_iff.1 hget).1
    exact ⟨old, by simpa only [List.getElem?_append_left hlt] using hget, rfl⟩
  mounts := rfl
  mountPoints := rfl

theorem Below.mono {n k : Nat} {inode : INode} (h : Below n inode) (hle : n ≤ k) :
    Below k inode := fun d hd => (h d hd).trans_le hle

theorem EntriesBelow.append {dirs : List Dir} {n : Nat} {kind : Bool} (h : EntriesBelow n dirs) :
    EntriesBelow n (dirs ++ [⟨no, [], kind⟩]) := by
  intro dir hdir file hfile
  rcases List.mem_append.1 hdir with hmem | hmem
  · exact h dir hmem file hfile
  · rw [mem_singleton.1 hmem] at hfile
    cases hfile

/-! ### Steps and runs -/

/-- A new directory becomes an entry: it is there before the entry leads
to it. -/
theorem WellFormed.insertDir (hst : st.WellFormed) (no : Nat) (kind : Bool) :
    (st.insertDir parent name ⟨no, [], kind⟩).WellFormed := by
  have hext : Extends st (st.insertDir parent name ⟨no, [], kind⟩) := by
    have h₁ := extends_insert st parent name (.directory st.dirs.length)
    have h₂ := extends_append (st.insert parent name (.directory st.dirs.length)) ⟨no, [], kind⟩
      st.roots
    refine ⟨?_, rfl, rfl⟩
    intro d dir hget
    obtain ⟨dir₁, hget₁, hno₁⟩ := h₁.dirs d dir hget
    obtain ⟨dir₂, hget₂, hno₂⟩ := h₂.dirs d dir₁ hget₁
    exact ⟨dir₂, hget₂, hno₂.trans hno₁⟩
  refine hst.extends hext (.append ?_)
  have hlen : (st.insertDir parent name ⟨no, [], kind⟩).dirs.length = st.dirs.length + 1 := by
    simp [FileSystems.insertDir]
  intro dir hdir file hfile
  rcases mem_files_insert hdir hfile with heq | ⟨old, hold, hmem⟩
  · intro d hd
    rw [heq] at hd
    cases hd
    omega
  · exact (hst.entries old hold file hmem).mono (by omega)

theorem below_fileLike (n f : Nat) : Below n (.fileLike f) := nofun

theorem below_symlink (n l : Nat) : Below n (.symlink l) := nofun

theorem WellFormed.addEntry (hst : st.WellFormed) (entry : ImageEntry) :
    (st.addEntry dir name entry).WellFormed := by
  unfold FileSystems.addEntry
  split
  · exact (hst.insert (below_symlink _ _)).counters _ _ _
  · exact hst.insertDir _ _
  · exact (hst.insert (below_fileLike _ _)).counters _ _ _
  · exact hst

theorem WellFormed.readEntry (hst : st.WellFormed) {entry : ImageEntry}
    (h : st.readEntry entry = some st') : st'.WellFormed := by
  unfold FileSystems.readEntry at h
  split at h
  · cases h
  · obtain ⟨found, -, h⟩ := bind_eq_some_iff.1 h
    split at h
    · cases h
      exact hst
    · obtain ⟨name, -, rfl⟩ := map_eq_some_iff.1 h
      exact hst.addEntry entry

/-- By induction on the image. -/
theorem WellFormed.readEntries {image : List ImageEntry} (hst : st.WellFormed)
    (h : FileSystems.readEntries image st = some st') : st'.WellFormed := by
  induction image generalizing st with
  | nil => cases h
  | cons entry rest ih =>
    simp only [FileSystems.readEntries] at h
    split at h
    · cases h
      exact hst
    · obtain ⟨st₁, hst₁, hrest⟩ := bind_eq_some_iff.1 h
      exact ih (hst.readEntry hst₁) hrest

theorem wellFormed_empty : empty.WellFormed where
  entries := by
    intro dir hdir file hfile
    rw [mem_singleton.1 hdir] at hfile
    cases hfile
  mounts := nofun
  mountPoints := fun _ => rfl

variable (hst : st.WellFormed)
include hst

theorem WellFormed.newTmpFs : st.newTmpFs.WellFormed := by
  have hext : Extends st st.newTmpFs := extends_append st ⟨1, [], true⟩ _
  refine hst.extends hext (.append ?_)
  intro dir hdir file hfile
  exact (hst.entries dir hdir file hfile).mono hext.length_le

theorem WellFormed.link {linkTo : INode}
    (h : st.link parent name linkTo = some st') : st'.WellFormed := by
  cases linkTo with
  | fileLike f =>
    cases h
    exact hst.insert (below_fileLike _ _)
  | symlink l => cases h
  | directory d =>
    simp only [FileSystems.link] at h
    split at h
    · rename_i hd
      obtain ⟨_, hget, -⟩ := (any_eq_true _ _).1 hd
      cases h
      refine hst.insert ?_
      intro d' hd'
      cases hd'
      exact (getElem?_eq_some_iff.1 hget).1
    · cases h

/-- **A mount puts its call before the others**, in the table and in the
list. -/
theorem WellFormed.mount {root : Nat} (hdir : dir < st.dirs.length) :
    (st.mount dir root).WellFormed where
  entries := hst.entries
  mounts := List.forall_mem_cons.2 ⟨hdir, hst.mounts⟩
  mountPoints := by
    intro no
    have hold := hst.mountPoints no
    by_cases hno : st.number dir = some no
    · have hlast : (st.mount dir root).lastMount no = some (dir, root) :=
        List.find?_cons_of_pos (decide_eq_true hno)
      rw [hlast]
      exact if_pos hno
    · have hlast : (st.mount dir root).lastMount no = st.lastMount no :=
        List.find?_cons_of_neg fun heq => hno (of_decide_eq_true heq)
      rw [hlast, ← hold]
      exact if_neg hno

/-- **Every step keeps the invariant.** -/
theorem WellFormed.step {op : Op} (h : st.step op = some st') : st'.WellFormed := by
  cases op with
  | newTmpFs =>
    cases h
    exact hst.newTmpFs
  | createDir p n =>
    obtain ⟨d, -, rfl⟩ := map_eq_some_iff.1 h
    split
    · exact (hst.insertDir _ _).counters _ _ _
    · exact hst
  | createFile p n =>
    obtain ⟨d, -, rfl⟩ := map_eq_some_iff.1 h
    split
    · unfold FileSystems.createFile
      split
      · exact hst
      · exact (hst.insert (below_fileLike _ _)).counters _ _ _
    · exact hst
  | link p n linkTo =>
    obtain ⟨d, -, h⟩ := bind_eq_some_iff.1 h
    split at h
    · exact hst.link h
    · cases h
      exact hst
  | mount d root =>
    simp only [FileSystems.step] at h
    split at h
    · rename_i hd
      cases h
      exact hst.mount hd.1
    · cases h

omit hst in
/-- **Every run keeps it.** -/
theorem wellFormed_of_reach {image : List ImageEntry} {st₀ : FileSystems}
    (himage : initramFs image = some st₀) (h : machine.Reach st₀ st) : st.WellFormed := by
  have h₀ : st₀.WellFormed := wellFormed_empty.readEntries himage
  exact h.invariant h₀ fun hst _ hs => hst.step hs

/-! ## One entry -/

/-- What a lookup finds exists. -/
theorem WellFormed.lt_of_lookup {d : Nat}
    (h : st.lookup parent name = some (.directory d)) : d < st.dirs.length := by
  obtain ⟨p, hp, hfind⟩ := bind_eq_some_iff.1 h
  obtain ⟨file, hfile, heq⟩ := map_eq_some_iff.1 hfind
  exact hst.entries p (List.mem_of_getElem? hp) file (mem_of_find?_eq_some hfile) d heq

theorem Reached.lt_length (h : st.Reached dir cwds) : dir < st.dirs.length := by
  obtain ⟨parent, name, -, -, hlookup⟩ := h
  exact hst.lt_of_lookup hlookup

/-- The code reads the calls by number. -/
theorem WellFormed.lookupMountPoint (hno : st.number dir = some no) :
    st.rootFs.lookupMountPoint dir = .ok (((st.lastMount no).map snd).map .ok) := by
  have hinode : st.rootFs.inodeNo dir = .ok no := by
    simp [rootFs, hno]
  have hpoint : st.rootFs.mountPoints no = ((st.lastMount no).map snd).map .ok := by
    rw [← hst.mountPoints no]
    rfl
  simp only [RootFs.lookupMountPoint, hinode, Except.map, hpoint]

omit hst

/-- What is mounted on a directory was mounted by a call on its number. -/
theorem mountOn_eq_none (hno : st.number dir = some no) (h : st.lastMount no = none) :
    st.mountOn dir = none := by
  have hnone := List.find?_eq_none.1 h
  refine map_eq_none_iff.2 (List.find?_eq_none.2 ?_)
  intro m hm heq
  refine hnone m hm ?_
  rw [of_decide_eq_true heq]
  exact decide_eq_true hno

/-- **The lookup of a mount point is right where numbers tell directories
apart**, and only there. -/
theorem WellFormed.mountPoint_iff (hst : st.WellFormed) (hno : st.number dir = some no) :
    st.rootFs.lookupMountPoint dir = .ok ((st.mountOn dir).map .ok) ↔
      ∀ m, st.lastMount no = some m → st.mountOn dir = some m.2 := by
  have hinj : Function.Injective (.ok : Nat → Except Errno Nat) := fun _ _ h =>
    ok.inj h
  rw [hst.lookupMountPoint hno, ok.injEq, (map_injective hinj).eq_iff]
  rcases hlast : st.lastMount no with _ | m
  · simp [mountOn_eq_none hno hlast]
  · constructor
    · intro h m' hm'
      cases hm'
      exact h.symm
    · intro h
      exact (h m rfl).symm

theorem AlivePath.inode {comp : PathComponent} (h : st.AlivePath cwds comp) :
    st.AliveINode cwds comp.inode := by
  cases comp with
  | root _ _ => exact h
  | child _ _ _ => exact h.2

theorem AlivePath.parentDir {comp : PathComponent} (h : st.AlivePath cwds comp) :
    st.AlivePath cwds (comp.parentDir.getD st.rootFs.rootPath) := by
  cases comp with
  | root _ _ => exact .root
  | child _ _ _ => exact h.1

theorem lookup_rootFs {d : Nat} {inode : INode} :
    st.rootFs.lookup d name = .ok inode ↔ st.lookup d name = some inode := by
  rcases hlookup : st.lookup d name with _ | found
  · simp [rootFs, hlookup]
  · simp [rootFs, hlookup]

/-- **Entries agree** where the mount points of the directories reached
are right; and what they lead to is alive. -/
theorem entry_agree (hpoint : ∀ dir, st.Reached dir cwds →
      st.rootFs.lookupMountPoint dir = .ok ((st.mountOn dir).map .ok))
    (hroot : st.rootFs.rootPath = st.byIdentity.rootPath) (parent : PathComponent) (name : Str)
    (hparent : st.AlivePath cwds parent) (hslash : '/' ∉ name) (hdot : name ≠ Path.dot) :
    Agree (st.AlivePath cwds) (st.rootFs.entry parent name) (st.byIdentity.entry parent name) := by
  unfold RootFs.entry
  by_cases hdots : name = Path.dotDot
  · rw [if_pos hdots, if_pos hdots, ← hroot]
    exact agree_ok hparent.parentDir
  · rw [if_neg hdots, if_neg hdots]
    have hin := hparent.inode
    split
    · rename_i d hd
      rw [hd] at hin
      change Agree _ _ (st.rootFs.lookup d name >>= _)
      rcases hlookup : st.rootFs.lookup d name with e | found
      · exact agree_error e
      · cases found with
        | directory x =>
          have hx := lookup_rootFs.1 hlookup
          have hname : IsEntry name := ⟨hslash, hdot, hdots⟩
          have hthrough := throughMount_of_lookupMountPoint (hpoint x ⟨d, name, hin, hname, hx⟩)
          have hthrough' : st.byIdentity.throughMount (.directory x) =
              .ok (.directory ((st.mountOn x).getD x)) := throughMount_of_lookupMountPoint rfl
          simp only [ok_bind, hthrough, hthrough']
          exact agree_ok ⟨hparent, .entry hin hname hx⟩
        | symlink l => exact agree_ok ⟨hparent, trivial⟩
        | fileLike f => exact agree_ok ⟨hparent, trivial⟩
    · exact agree_error _

/-! ## Every path -/

theorem rootPath_iff : st.rootFs.rootPath = st.byIdentity.rootPath ↔
    ∀ m, st.mountOn 0 = some m → m = 0 := by
  have hiff : st.rootFs.rootPath = st.byIdentity.rootPath ↔ 0 = (st.mountOn 0).getD 0 := by
    simp [rootFs, byIdentity]
  rw [hiff]
  rcases st.mountOn 0 with _ | root
  · simp
  · simp [eq_comm]

/-- Where the directories are told apart, lookup resolves by identity. -/
theorem WellFormed.resolves (hst : st.WellFormed) (h : st.Distinguished cwds) :
    st.Resolves cwds := by
  have hpoint : ∀ dir, st.Reached dir cwds →
      st.rootFs.lookupMountPoint dir = .ok ((st.mountOn dir).map .ok) := by
    intro dir hdir
    have hlt := hdir.lt_length hst
    have hno : st.number dir = some st.dirs[dir].inodeNo := by
      simp [number, List.getElem?_eq_getElem hlt]
    exact (hst.mountPoint_iff hno).2 (h.numbers dir hdir _ hno)
  have hroot : st.rootFs.rootPath = st.byIdentity.rootPath := rootPath_iff.2 h.root
  refine ⟨hpoint, ?_⟩
  intro cwd hcwd path followSymlink
  unfold RootFs.lookupPath
  rw [← hroot]
  have hfrom : st.AlivePath cwds (if path.isAbsolute then st.rootFs.rootPath else cwd) := by
    split
    · exact .root
    · exact hcwd
  have hlink : st.rootFs.linkedTo = st.byIdentity.linkedTo := rfl
  exact (doLookupPath_agree hlink hroot .root (entry_agree hpoint hroot) _ hfrom path).1

/-- And only there: the mount points of the directories reached give the
numbers, the path `/` gives the root. -/
theorem WellFormed.distinguished (hst : st.WellFormed) (h : st.Resolves cwds) :
    st.Distinguished cwds where
  numbers := by
    intro dir hdir no hno
    exact (hst.mountPoint_iff hno).1 (h.mountPoint dir hdir)
  root := by
    have hcwd : st.AlivePath cwds st.rootFs.rootPath := .root
    have hslash := h.paths _ hcwd (.new ['/']) true
    exact rootPath_iff.1 (ok.inj hslash)

/-- **Lookup goes into what is mounted on the very directory reached, in
exactly the states where numbers tell directories apart.** For every
image, after everything that can happen to the file systems, and
whatever working directories there are. -/
theorem resolves_iff_distinguished (image : List ImageEntry) (st₀ st : FileSystems)
    (himage : initramFs image = some st₀) (h : machine.Reach st₀ st) (cwds : Nat → Prop) :
    st.Resolves cwds ↔ st.Distinguished cwds := by
  have hst := wellFormed_of_reach himage h
  exact ⟨hst.distinguished, hst.resolves⟩

/-- An image with the directory `dev` of some number. -/
def devImage (ino : Nat) : List ImageEntry :=
  [⟨['d', 'e', 'v'], .directory, ino, []⟩, ⟨trailer, .other, 0, []⟩]

/-- `DevFs::new`, which makes `pts`, and its mount on `dev`. -/
def mountDev : List Op := [.newTmpFs, .createDir 2 ['p', 't', 's'], .mount 1 2]

def devPts : Path := Path.new ['/', 'd', 'e', 'v', '/', 'p', 't', 's']

/-- The directories then. -/
def devDirs (ino : Nat) : List Dir :=
  [⟨2, [(['d', 'e', 'v'], .directory 1)], false⟩, ⟨ino, [], false⟩,
    ⟨1, [(['p', 't', 's'], .directory 3)], true⟩, ⟨2, [], true⟩]

/-- The directory `dev` has a number of its own: `/dev` is devfs, and
`/dev/pts` its directory. -/
theorem resolves_of_dev_five : ∃ st₀ st, initramFs (devImage 5) = some st₀ ∧
    machine.Reach st₀ st ∧ st.mounts = [(1, 2)] ∧ ∀ cwds, st.Resolves cwds := by
  have hrun : ((initramFs (devImage 5)).bind fun st₀ => machine.run st₀ mountDev).any
      (fun st => st.dirs = devDirs 5 ∧ st.mounts = [(1, 2)]) = true := by decide +kernel
  obtain ⟨st, hst, htest⟩ := (any_eq_true _ _).1 hrun
  obtain ⟨st₀, himage, hrun⟩ := bind_eq_some_iff.1 hst
  obtain ⟨hdirs, hmounts⟩ := of_decide_eq_true htest
  have hreach := Machine.reach_of_run hrun
  refine ⟨st₀, st, himage, hreach, hmounts, fun cwds => ?_⟩
  refine (resolves_iff_distinguished (devImage 5) st₀ st himage hreach cwds).2 ⟨?_, ?_⟩
  · intro dir hdir no hno m hm
    have hlt := hdir.lt_length (wellFormed_of_reach himage hreach)
    have hmem := mem_of_find?_eq_some hm
    rw [hmounts] at hmem
    obtain rfl := mem_singleton.1 hmem
    have hfive : no = 5 := by
      have hfound := List.find?_some hm
      have hone : st.number 1 = some no := of_decide_eq_true hfound
      simp [number, hdirs, devDirs] at hone
      exact hone.symm
    -- of the four directories only `dev` has the number 5
    rw [hdirs] at hlt
    have hone : dir = 1 := by
      simp only [number, hdirs, hfive] at hno
      have hcases : dir = 0 ∨ dir = 1 ∨ dir = 2 ∨ dir = 3 := by
        simp only [devDirs, List.length_cons, List.length_nil] at hlt
        omega
      rcases hcases with rfl | rfl | rfl | rfl <;> simp [devDirs] at hno ⊢
    simp [mountOn, hmounts, hone]
  · intro m hm
    simp [mountOn, hmounts] at hm

/-- **The mount on `dev` captures `pts`.** Both have the number 2: the
path `/dev/pts` leads to the root of devfs again. -/
theorem not_resolves_of_dev_two : ∃ st₀ st, initramFs (devImage 2) = some st₀ ∧
    machine.Reach st₀ st ∧ st.mounts = [(1, 2)] ∧
    (st.rootFs.lookupPath st.rootFs.rootPath devPts true).toOption.map PathComponent.inode =
      some (.directory 2) ∧
    (st.byIdentity.lookupPath st.rootFs.rootPath devPts true).toOption.map PathComponent.inode =
      some (.directory 3) ∧ ∀ cwds, ¬ st.Resolves cwds := by
  have hrun : ((initramFs (devImage 2)).bind fun st₀ => machine.run st₀ mountDev).any
      (fun st => st.mounts = [(1, 2)] ∧
        (st.rootFs.lookupPath st.rootFs.rootPath devPts true).toOption.map PathComponent.inode =
          some (.directory 2) ∧
        (st.byIdentity.lookupPath st.rootFs.rootPath devPts true).toOption.map
          PathComponent.inode = some (.directory 3)) = true := by
    decide +kernel
  obtain ⟨st, hst, htest⟩ := (any_eq_true _ _).1 hrun
  obtain ⟨st₀, himage, hrun⟩ := bind_eq_some_iff.1 hst
  obtain ⟨hmounts, hcode, hright⟩ := of_decide_eq_true htest
  refine ⟨st₀, st, himage, Machine.reach_of_run hrun, hmounts, hcode, hright, ?_⟩
  intro cwds h
  have hcwd : st.AlivePath cwds st.rootFs.rootPath := .root
  rw [h.paths _ hcwd devPts true, hright] at hcode
  cases hcode

end FileSystems

end Mounts

end Archives.Kerla
