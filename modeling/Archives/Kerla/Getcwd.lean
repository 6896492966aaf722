import Archives.Kerla.Lookup
/-!
# Kerla — the printed path leads back

`getcwd` prints the working directory by the names along its chain of
parents. The chain is made by lookups: every component in it is what its
name stands for in its parent, seen through the mounts, and every parent
is a directory (`Chain`). Neither `..`, nor a link, nor `chdir` leads out
of such chains, so the lookup of the printed path makes the same chain
again, component by component, and follows no link on the way. What is
found is not a link, so `lookup_file` and `lookup_dir` need no case for
one.
-/

namespace Archives.Kerla.RootFs

open Archives.Kerla.Path List

/-- **A chain of components**: each is its name looked up in its parent. -/
inductive Chain (fs : RootFs) : PathComponent → Prop
  | root : Chain fs fs.rootPath
  | child {parent : PathComponent} {d : Nat} {name : Str} {found inode : INode} :
      Chain fs parent → parent.inode = .directory d → fs.lookup d name = .ok found →
      fs.throughMount found = .ok inode → Chain fs (.child parent name inode)

def NotLink (c : PathComponent) : Prop := ∀ l, c.inode ≠ .symlink l

/-- The root as `RootFs::new` makes it. -/
def RootedAt (fs : RootFs) (r : Nat) : Prop := fs.rootPath = .root [] (.directory r)

/-- The names of entries: not empty, without a slash, not `.` or `..`. -/
def NamesValid (fs : RootFs) : Prop :=
  ∀ d name inode, fs.lookup d name = .ok inode →
    IsName name ∧ name ≠ dot ∧ name ≠ dotDot

variable {fs : RootFs} {r : Nat} {c parent : PathComponent} {names : List Str}
  {absolute : Path → Bool} {followSymlink : Bool}
  {resolve : Option (PathComponent → Path → Except Errno PathComponent)}

/-! ## Lookups make chains -/

theorem Chain.parentDir (hroot : fs.RootedAt r) (h : fs.Chain c) (hp : c.parentDir = some parent) :
    fs.Chain parent := by
  cases h with
  | root =>
    rw [hroot] at hp
    cases hp
  | child hparent =>
    cases hp
    exact hparent

/-- A name leads from a chain to a chain, the name `..` too. -/
theorem Chain.entry (hroot : fs.RootedAt r) (h : fs.Chain parent) {name : Str}
    (hentry : fs.entry parent name = .ok c) : fs.Chain c := by
  unfold RootFs.entry at hentry
  split at hentry
  · cases hentry
    cases hp : parent.parentDir with
    | none => exact .root
    | some p => exact h.parentDir hroot hp
  · split at hentry
    · rename_i d hd
      obtain ⟨found, hfound, hrest⟩ := bind_eq_ok.1 hentry
      obtain ⟨inode, hinode, hc⟩ := bind_eq_ok.1 hrest
      cases hc
      exact .child h hd hfound hinode
    · cases hentry

/-- What `lookup_path` returns when links are followed. -/
structure Resolved (fs : RootFs) (c : PathComponent) : Prop where
  chain : fs.Chain c
  notLink : NotLink c

section

variable (hroot : fs.RootedAt r)

include hroot

theorem resolved_root : fs.Resolved fs.rootPath := by
  refine ⟨.root, fun l hl => ?_⟩
  rw [hroot] at hl
  cases hl

omit hroot in
theorem Chain.resolved_of_directory (h : fs.Chain c) {d : Nat} (hd : c.inode = .directory d) :
    fs.Resolved c := by
  refine ⟨h, fun l hl => ?_⟩
  rw [hd] at hl
  cases hl

/-- Following a link from a resolved directory. -/
theorem Resolved.follow (h : fs.Resolved parent)
    (hresolve : ∀ f, resolve = some f → ∀ from' p c, fs.Resolved from' → f from' p = .ok c →
      fs.Resolved c) {l : Nat} (hfollow : follow fs absolute resolve parent l = .ok c) :
    fs.Resolved c := by
  cases resolve with
  | none => cases hfollow
  | some f =>
    obtain ⟨target, _, hrest⟩ := bind_eq_ok.1 hfollow
    refine hresolve f rfl _ _ c ?_ hrest
    split
    · exact resolved_root hroot
    · exact h

/-- **The walk along the components stays in chains.** By induction on
the components. -/
theorem Resolved.walk (h : fs.Resolved parent)
    (hresolve : ∀ f, resolve = some f → ∀ from' p c, fs.Resolved from' → f from' p = .ok c →
      fs.Resolved c) (hwalk : fs.walk absolute true resolve parent names = .ok c) :
    fs.Resolved c := by
  induction names generalizing parent with
  | nil =>
    cases hwalk
    exact h
  | cons name rest ih =>
    unfold walk at hwalk
    split at hwalk
    · exact ih h hwalk
    · obtain ⟨comp, hcomp, hrest⟩ := bind_eq_ok.1 hwalk
      have hchain := h.chain.entry hroot hcomp
      split at hrest
      · -- an ancestor
        split at hrest
        · rename_i d hd
          exact ih (hchain.resolved_of_directory hd) hrest
        · obtain ⟨dst, hdst, hrest⟩ := bind_eq_ok.1 hrest
          have hres := h.follow hroot hresolve hdst
          split at hrest
          · exact ih hres hrest
          · cases hrest
        · cases hrest
      · -- the last component
        split at hrest
        · exact h.follow hroot hresolve hrest
        · rename_i hnot
          cases hrest
          exact ⟨hchain, fun l hl => hnot l hl rfl⟩

/-- By induction on the number of links that may still be followed. -/
theorem Resolved.doLookupPath (h : fs.Resolved parent) {limit : Nat} {p : Path}
    (hlookup : fs.doLookupPath absolute true limit parent p = .ok c) : fs.Resolved c := by
  induction limit generalizing parent p c with
  | zero =>
    unfold doLookupPath at hlookup
    split at hlookup
    · cases hlookup
    · exact h.walk hroot (fun f hf => by cases hf) hlookup
  | succ limit ih =>
    unfold doLookupPath at hlookup
    split at hlookup
    · cases hlookup
    · refine h.walk hroot (fun f hf from' p c hfrom hc => ?_) hlookup
      cases hf
      exact ih hfrom hc

theorem Resolved.lookupPath {cwd : PathComponent} (h : fs.Resolved cwd) {p : Path}
    (hlookup : fs.lookupPath cwd p true = .ok c) : fs.Resolved c := by
  unfold RootFs.lookupPath at hlookup
  split at hlookup
  · exact (resolved_root hroot).doLookupPath hroot hlookup
  · exact h.doLookupPath hroot hlookup

/-- **The working directory is the end of a chain**, wherever `chdir`
has been. -/
theorem Cwd.resolved {cwd : PathComponent} (h : fs.Cwd cwd) : fs.Resolved cwd := by
  induction h with
  | root => exact resolved_root hroot
  | chdir _ hlookup ih => exact ih.lookupPath hroot hlookup

end

/-! ## The printed path -/

/-- The names along the chain, from the root. -/
def namesTo : PathComponent → List Str
  | .root _ _ => []
  | .child parent name _ => namesTo parent ++ [name]

theorem joined_append (xs ys : List Str) : joined (xs ++ ys) = joined xs ++ joined ys :=
  flatMap_append

section

variable (hroot : fs.RootedAt r)

include hroot

/-- The ancestors of a chain are printed with a slash before each name. -/
theorem Chain.withAncestors (h : fs.Chain c) (path : Str) :
    c.withAncestors path = joined (namesTo c ++ [path]) := by
  induction h generalizing path with
  | root =>
    rw [hroot]
    simp [PathComponent.withAncestors, namesTo, joined]
  | @child parent d name found inode _ _ _ _ ih =>
    rw [PathComponent.withAncestors, ih, namesTo, joined_append, joined_append, joined_append]
    simp [joined]

theorem Chain.isName (hnames : fs.NamesValid) (h : fs.Chain c) :
    ∀ name ∈ namesTo c, IsName name ∧ name ≠ dot ∧ name ≠ dotDot := by
  induction h with
  | root =>
    rw [hroot]
    nofun
  | child _ _ hfound _ ih =>
    exact forall_mem_append.2 ⟨ih, forall_mem_singleton.2 (hnames _ _ _ hfound)⟩

/-! ## The second lookup -/

omit hroot in
theorem entry_of_lookup {d : Nat} {name : Str} {found inode : INode} (hname : name ≠ dotDot)
    (hd : parent.inode = .directory d) (hfound : fs.lookup d name = .ok found)
    (hinode : fs.throughMount found = .ok inode) :
    fs.entry parent name = .ok (.child parent name inode) := by
  unfold entry
  rw [if_neg hname, hd]
  simp only [hfound, hinode, ok_bind, pure_eq_ok]

/-- **The walk along the names of a chain passes its components**, as long
as more is to come. By induction on the chain. -/
theorem Chain.walk_namesTo (hnames : fs.NamesValid) (h : fs.Chain c) {d : Nat}
    (hd : c.inode = .directory d) {rest : List Str} (hrest : rest ≠ []) :
    fs.walk absolute followSymlink resolve fs.rootPath (namesTo c ++ rest) =
      fs.walk absolute followSymlink resolve c rest := by
  induction h generalizing d rest with
  | root =>
    rw [hroot]
    rfl
  | @child parent d' name found inode _ hd' hfound hinode ih =>
    obtain ⟨_, hdot, hdotDot⟩ := hnames _ _ _ hfound
    have hentry := entry_of_lookup hdotDot hd' hfound hinode
    rw [namesTo, append_assoc, singleton_append, ih hd' (cons_ne_nil _ _),
      walk, if_neg hdot, hentry, ok_bind, if_pos hrest]
    simp only [hd]

/-- At the end of the names of a chain that is not a link, it is found. -/
theorem Resolved.walk_namesTo (hnames : fs.NamesValid) (h : fs.Resolved c) :
    fs.walk absolute followSymlink resolve fs.rootPath (namesTo c) = .ok c := by
  obtain ⟨hchain, hnot⟩ := h
  cases hchain with
  | root =>
    rw [hroot]
    rfl
  | @child parent d name found inode hparent hd hfound hinode =>
    obtain ⟨_, hdot, hdotDot⟩ := hnames _ _ _ hfound
    have hentry := entry_of_lookup hdotDot hd hfound hinode
    rw [namesTo, hparent.walk_namesTo hroot hnames hd (cons_ne_nil _ _), RootFs.walk,
      if_neg hdot, hentry, ok_bind, if_neg (fun h => h rfl)]
    split
    · rename_i l hl
      exact absurd hl (hnot l)
    · rfl

/-- The printed path is absolute, and its components are the names. -/
theorem Resolved.printed (hnames : fs.NamesValid) (h : fs.Resolved c) :
    (new c.resolveAbsolutePath).isAbsolute = true ∧ (new c.resolveAbsolutePath).isEmpty = false ∧
      (new c.resolveAbsolutePath).components = namesTo c := by
  have hname := h.chain.isName hroot hnames
  cases h.chain with
  | root =>
    rw [hroot]
    exact ⟨rfl, rfl, rfl⟩
  | @child parent d name found inode hparent =>
    have hprinted : (PathComponent.child parent name inode).resolveAbsolutePath =
        joined (namesTo (.child parent name inode)) := hparent.withAncestors hroot name
    obtain ⟨x, xs, hcons⟩ : ∃ x xs, namesTo (.child parent name inode) = x :: xs :=
      exists_cons_of_ne_nil (by simp [namesTo])
    rw [hprinted]
    rw [hcons] at hname ⊢
    have hisName : ∀ y ∈ x :: xs, IsName y := fun y hy => (hname y hy).1
    have hpath := new_joined x xs hisName
    have hcomps := components_joined x xs hisName
    refine ⟨?_, ?_, hcomps⟩
    · rw [isAbsolute, hcomps, hpath, Bool.and_eq_true, Bool.not_eq_true', any_eq_false]
      refine ⟨rfl, fun y hy => ?_⟩
      obtain ⟨hy, hdot, hdotDot⟩ := hname y hy
      simp [hdot, hdotDot, hy.ne_nil]
    · rw [Path.isEmpty, hpath]
      rfl

end

/-- **The printed path leads back.** What a lookup from a working
directory finds, following links, is found again under the path it
prints, whatever the working directory is then, and whether or not links
are followed. -/
theorem lookupPath_resolveAbsolutePath (hroot : fs.RootedAt r) (hnames : fs.NamesValid)
    {cwd : PathComponent} (hcwd : fs.Cwd cwd) {p : Path}
    (h : fs.lookupPath cwd p true = .ok c) (cwd' : PathComponent) (followSymlink : Bool) :
    fs.lookupPath cwd' (new c.resolveAbsolutePath) followSymlink = .ok c := by
  have hresolved := (hcwd.resolved hroot).lookupPath hroot h
  obtain ⟨habs, hne, hcomps⟩ := hresolved.printed hroot hnames
  unfold lookupPath
  rw [if_pos habs]
  obtain ⟨resolve, hwalk⟩ := fs.doLookupPath_of_not_isEmpty isAbsolute followSymlink
    fs.symlinkFollowLimit fs.rootPath hne
  rw [hwalk, hcomps]
  exact hresolved.walk_namesTo hroot hnames

/-- A tree with a directory `t` at the root on which another one is
mounted, with a link `l` in it to `../t`. -/
def mounted : RootFs where
  lookup d name :=
    if d = 0 ∧ name = ['t'] then .ok (.directory 1)
    else if d = 2 ∧ name = ['l'] then .ok (.symlink 0)
    else .error .enoent
  inodeNo d := .ok d
  linkedTo _ := .ok ['.', '.', '/', 't']
  mountPoints no := if no = 1 then some (.ok 2) else none
  rootPath := .root [] (.directory 0)
  symlinkFollowLimit := defaultSymlinkFollowMax

/-- **From the mounted directory through the link**, which leads back to
it, and by the path printed then. -/
theorem lookupPath_resolveAbsolutePath_mounted : ∃ cwd, mounted.Cwd cwd ∧
    mounted.lookupPath cwd (new ['l']) true = .ok cwd ∧
    mounted.lookupPath cwd (new cwd.resolveAbsolutePath) true = .ok cwd := by
  have hchdir : mounted.lookupPath mounted.rootPath (.new ['t']) true =
      .ok (.child mounted.rootPath ['t'] (.directory 2)) := by rfl
  have hlink : mounted.lookupPath (.child mounted.rootPath ['t'] (.directory 2)) (.new ['l'])
      true = .ok (.child mounted.rootPath ['t'] (.directory 2)) := by rfl
  have hnames : mounted.NamesValid := by
    intro d name inode h
    simp only [mounted] at h
    split at h
    next hd =>
      rw [hd.2]
      exact ⟨⟨by decide, by decide⟩, by decide, by decide⟩
    next =>
      split at h
      next hd =>
        rw [hd.2]
        exact ⟨⟨by decide, by decide⟩, by decide, by decide⟩
      next => cases h
  have hcwd : mounted.Cwd (.child mounted.rootPath ['t'] (.directory 2)) := .chdir .root hchdir
  have hroot : mounted.RootedAt 0 := rfl
  exact ⟨_, hcwd, hlink, lookupPath_resolveAbsolutePath hroot hnames hcwd hlink _ true⟩

/-! ## Files and directories -/

/-- `RootFs::lookup_inode` with the working directory `cwd`. -/
def lookupInode (fs : RootFs) (cwd : PathComponent) (path : Path) (followSymlink : Bool) :
    Except Errno INode :=
  (fs.lookupPath cwd path followSymlink).map (·.inode)

/-- How the lookup of a file or of a directory ends. -/
inductive TypedLookup
  | found (n : Nat)
  | failed (e : Errno)
  /-- `EISDIR`. -/
  | isDir
  /-- `unreachable!()`. -/
  | unreachable

def lookupFile (fs : RootFs) (cwd : PathComponent) (path : Path) : TypedLookup :=
  match fs.lookupInode cwd path true with
  | .error e => .failed e
  | .ok (.directory _) => .isDir
  | .ok (.fileLike f) => .found f
  | .ok (.symlink _) => .unreachable

def lookupDir (fs : RootFs) (cwd : PathComponent) (path : Path) : TypedLookup :=
  match fs.lookupInode cwd path true with
  | .error e => .failed e
  | .ok (.directory d) => .found d
  | .ok (.fileLike _) => .isDir
  | .ok (.symlink _) => .unreachable

/-- An iterator is at its end after one component for each character. -/
theorem collect_of_length_le {s : Str} {n m : Nat} (hn : s.length ≤ n) (hm : s.length ≤ m) :
    collect n s = collect m s := by
  induction n generalizing m s with
  | zero =>
    obtain rfl := length_eq_zero_iff.1 (Nat.le_zero.1 hn)
    cases m <;> rfl
  | succ n ih =>
    cases m with
    | zero =>
      obtain rfl := length_eq_zero_iff.1 (Nat.le_zero.1 hm)
      rfl
    | succ m =>
      have hshorter := length_dropWhile_le (· ≠ '/') s
      unfold collect Path.next
      by_cases hs : s.isEmpty = true
      · simp only [if_pos hs]
      · simp only [if_neg hs]
        refine congrArg _ (ih ?_ ?_) <;>
        · rw [length_drop]
          omega

/-- **A lookup that follows links ends, and not at a link**, whatever
the working directory: the components of a path are finitely many, each
link followed is one less to follow, and neither `lookup_file` nor
`lookup_dir` comes to its `unreachable!()`. -/
theorem lookup_ends (hroot : fs.RootedAt r) {cwd : PathComponent} (hcwd : fs.Cwd cwd)
    (path : Path) :
    (∀ s n, s = (if startsWithSlash path.path then path.path.drop 1 else path.path) →
      s.length ≤ n → collect n s = path.components) ∧
      (∀ l, fs.lookupInode cwd path true ≠ .ok (.symlink l)) ∧
      fs.lookupFile cwd path ≠ .unreachable ∧ fs.lookupDir cwd path ≠ .unreachable := by
  have hnot : ∀ l, fs.lookupInode cwd path true ≠ .ok (.symlink l) := by
    intro l hl
    unfold lookupInode at hl
    cases hlookup : fs.lookupPath cwd path true with
    | error e =>
      rw [hlookup] at hl
      cases hl
    | ok c =>
      rw [hlookup] at hl
      exact ((hcwd.resolved hroot).lookupPath hroot hlookup).notLink l (Except.ok.inj hl)
  refine ⟨?_, hnot, ?_⟩
  · rintro s n rfl hn
    exact collect_of_length_le hn le_rfl
  unfold lookupFile lookupDir
  rcases hinode : fs.lookupInode cwd path true with e | d | l | f
  · exact ⟨nofun, nofun⟩
  · exact ⟨nofun, nofun⟩
  · exact absurd hinode (hnot l)
  · exact ⟨nofun, nofun⟩

/-- Through the mount and the link, which leads to the directory it is
in. -/
theorem lookup_ends_mounted : mounted.lookupDir mounted.rootPath (new ['t', '/', 'l']) = .found 2 ∧
    mounted.lookupFile mounted.rootPath (new ['t', '/', 'l']) ≠ .unreachable := by
  have hroot : mounted.RootedAt 0 := rfl
  exact ⟨rfl, (lookup_ends hroot .root _).2.2.1⟩

end Archives.Kerla.RootFs
