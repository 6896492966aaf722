import Mathlib.Data.List.DropRight
/-!
# Kerla — paths and their resolution

`kernel/fs/{path,mount}.rs`: how a path is cut into components and
resolved, component by component, through mount points and symbolic
links. The file systems behind `dyn Directory` and `dyn Symlink` are
arbitrary: any directory may answer any name in any way.
-/

namespace Archives.Kerla

/-- `Errno`, the errors the modelled functions and file systems give. -/
inductive Errno
  | enoent | eloop | enotdir | ebadf | eacces | eio
  | eagain | eintr | esrch | enomem | einval | enfile | enosys
  deriving DecidableEq, Repr

abbrev Str := List Char

/-- `Path`: a string without trailing slashes, unless it is the root. -/
structure Path where
  path : Str
  trimmed : path = ['/'] ∨ path.getLast? ≠ some '/'
  deriving DecidableEq

namespace Path

variable (s : Str)

/-- `str::trim_end_matches('/')`. -/
def trimEnd : Str := s.rdropWhile (· == '/')

theorem getLast?_trimEnd : (trimEnd s).getLast? ≠ some '/' := by
  intro h
  by_cases hne : trimEnd s = []
  · simp [hne] at h
  · have hlast := List.rdropWhile_last_not (· == '/') s hne
    rw [List.getLast?_eq_some_getLast hne, Option.some.injEq] at h
    exact hlast (beq_iff_eq.2 h)

def new : Path :=
  if s = ['/'] then ⟨['/'], .inl rfl⟩ else ⟨trimEnd s, .inr (getLast?_trimEnd s)⟩

def isEmpty (p : Path) : Bool := p.path.isEmpty

/-- `str::starts_with('/')`. -/
def startsWithSlash : Bool := s.head? == some '/'

/-- `Components::next`: the characters up to the next slash, and what
follows it. -/
def next : Option (Str × Str) :=
  if s.isEmpty then none
  else some (s.takeWhile (· ≠ '/'), (s.dropWhile (· ≠ '/')).drop 1)

/-- The components an iterator yields, the first `n` at most. -/
def collect : Nat → Str → List Str
  | 0, _ => []
  | n + 1, s =>
    match next s with
    | none => []
    | some (name, rest) => name :: collect n rest

/-- `Path::components`. Every component takes a character at least. -/
def components (p : Path) : List Str :=
  let s := if startsWithSlash p.path then p.path.drop 1 else p.path
  collect s.length s

def dot : Str := ['.']

def dotDot : Str := ['.', '.']

/-- `Path::is_absolute`. It is false of a path with a component `.`,
`..` or the empty one, whatever its first character. -/
def isAbsolute (p : Path) : Bool :=
  startsWithSlash p.path &&
    !p.components.any fun comp => comp == dotDot || comp == dot || comp == []

end Path

/-- `INode`: an object of some file system. -/
inductive INode
  | directory (d : Nat)
  | symlink (l : Nat)
  | fileLike (f : Nat)
  deriving DecidableEq, Repr

/-- `PathComponent`: an inode with the way it was reached, up to a
component without `parent_dir`. -/
inductive PathComponent
  | root (name : Str) (inode : INode)
  | child (parentDir : PathComponent) (name : Str) (inode : INode)
  deriving DecidableEq

namespace PathComponent

def parentDir : PathComponent → Option PathComponent
  | root _ _ => none
  | child p _ _ => some p

def inode : PathComponent → INode
  | root _ i => i
  | child _ _ i => i

/-- The loop of `resolve_absolute_path`: the names of the ancestors, the
nearest first, are put before the path. -/
def withAncestors : PathComponent → Str → Str
  | root name _, path => name ++ '/' :: path
  | child parent name _, path => withAncestors parent (name ++ '/' :: path)

def resolveAbsolutePath : PathComponent → Str
  | root _ _ => ['/']
  | child parent name _ => withAncestors parent name

end PathComponent

/-- **The file trees**: what directories and links answer, what is
mounted where, and `RootFs` without its working directory. -/
structure RootFs where
  lookup : Nat → Str → Except Errno INode
  /-- `Directory::stat`, the inode number of it. -/
  inodeNo : Nat → Except Errno Nat
  linkedTo : Nat → Except Errno Str
  /-- `mount_points`: by inode number, the `root_dir()` of what is
  mounted. -/
  mountPoints : Nat → Option (Except Errno Nat)
  rootPath : PathComponent
  symlinkFollowLimit : Nat

def defaultSymlinkFollowMax : Nat := 8

namespace RootFs

/-- The inode a directory entry leads to: the root of what is mounted on
a directory in its place. -/
def throughMount (fs : RootFs) : INode → Except Errno INode
  | .directory d => do
    let no ← fs.inodeNo d
    match fs.mountPoints no with
    | some rootDir => do
      let root ← rootDir
      pure (.directory root)
    | none => pure (.directory d)
  | inode => pure inode

/-- The component a name other than `.` leads to. -/
def entry (fs : RootFs) (parent : PathComponent) (name : Str) : Except Errno PathComponent :=
  if name = Path.dotDot then pure (parent.parentDir.getD fs.rootPath)
  else
    match parent.inode with
    | .directory d => do
      let found ← fs.lookup d name
      let inode ← fs.throughMount found
      pure (.child parent name inode)
    | _ => .error .ebadf

section Resolution

-- The test that sends a path to the root, and how symbolic links are
-- resolved from a directory; none where no more links may be followed.
variable (fs : RootFs) (absolute : Path → Bool) (followSymlink : Bool)
  (resolve : Option (PathComponent → Path → Except Errno PathComponent))

/-- Follows a link found in the directory `parent`. -/
def follow (parent : PathComponent) (l : Nat) : Except Errno PathComponent :=
  match resolve with
  | none => .error .eloop
  | some resolve => do
    let linkedTo ← fs.linkedTo l
    let target := Path.new linkedTo
    resolve (if absolute target then fs.rootPath else parent) target

/-- The loop of `do_lookup_path` over the components. -/
def walk : PathComponent → List Str → Except Errno PathComponent
  | parent, [] => .ok parent
  | parent, name :: rest =>
    if name = Path.dot then walk parent rest
    else do
      let comp ← fs.entry parent name
      if rest ≠ [] then
        -- an ancestor: links are followed whatever the caller asked for
        match comp.inode with
        | .directory _ => walk comp rest
        | .symlink l => do
          let dst ← follow fs absolute resolve parent l
          match dst.inode with
          | .directory _ => walk dst rest
          | _ => .error .enotdir
        | .fileLike _ => .error .enotdir
      else
        match comp.inode, followSymlink with
        | .symlink l, true => follow fs absolute resolve parent l
        | _, _ => .ok comp

end Resolution

/-- `RootFs::do_lookup_path`, with the test that sends a path to the
root as a parameter. -/
def doLookupPath (fs : RootFs) (absolute : Path → Bool) (followSymlink : Bool) :
    Nat → PathComponent → Path → Except Errno PathComponent
  | 0, lookupFrom, path =>
    if path.isEmpty then .error .enoent
    else fs.walk absolute followSymlink none lookupFrom path.components
  | limit + 1, lookupFrom, path =>
    if path.isEmpty then .error .enoent
    else fs.walk absolute followSymlink (some (fs.doLookupPath absolute followSymlink limit))
      lookupFrom path.components

variable (fs : RootFs)

/-- `RootFs::lookup_path` with the working directory `cwd`. -/
def lookupPath (cwd : PathComponent) (path : Path) (followSymlink : Bool) :
    Except Errno PathComponent :=
  fs.doLookupPath Path.isAbsolute followSymlink fs.symlinkFollowLimit
    (if path.isAbsolute then fs.rootPath else cwd) path

/-- The working directories: the root, and where `RootFs::chdir` leads
from one of them. -/
inductive Cwd (fs : RootFs) : PathComponent → Prop
  | root : Cwd fs fs.rootPath
  | chdir {cwd cwd' : PathComponent} {path : Path} :
      Cwd fs cwd → fs.lookupPath cwd path true = .ok cwd' → Cwd fs cwd'

/-! ## What absolute paths should mean -/

/-- **Resolution from the root.** A path that starts with a slash, and
a link target that does, are resolved from the root. There is no working
directory in it. -/
def lookupFromRoot (path : Path) (followSymlink : Bool) : Except Errno PathComponent :=
  fs.doLookupPath (fun p => Path.startsWithSlash p.path) followSymlink fs.symlinkFollowLimit
    fs.rootPath path

/-- A string that is taken for absolute if it starts with a slash: none
of its components is `.`, `..` or empty. Slashes alone make the empty
path, which is an error from everywhere. -/
def Plain (s : Str) : Prop :=
  Path.startsWithSlash s = true → (Path.new s).isEmpty = true ∨ (Path.new s).isAbsolute = true

/-- The link targets of a tree, except `t`, are plain. -/
def PlainTargetsBut (t : Str) : Prop :=
  ∀ l s, fs.linkedTo l = .ok s → s = t ∨ Plain s

/-- Every link target of a tree is plain. -/
def PlainTargets : Prop := ∀ l s, fs.linkedTo l = .ok s → Plain s

/-- **A path respected.** In every tree with plain link targets the
lookup of the path does not depend on the working directory, and it is
the resolution from the root. -/
def PathRespected (s : Str) : Prop :=
  ∀ fs : RootFs, fs.PlainTargets → ∀ cwd, fs.Cwd cwd → ∀ followSymlink,
    (∀ cwd', fs.Cwd cwd' → fs.lookupPath cwd' (Path.new s) followSymlink =
      fs.lookupPath cwd (Path.new s) followSymlink) ∧
    fs.lookupPath cwd (Path.new s) followSymlink = fs.lookupFromRoot (Path.new s) followSymlink

/-- **A link target respected.** In every tree with this and plain link
targets, the lookup of a plain path that starts with a slash is the
resolution from the root. -/
def TargetRespected (t : Str) : Prop :=
  ∀ fs : RootFs, fs.PlainTargetsBut t → ∀ cwd, fs.Cwd cwd → ∀ followSymlink,
    ∀ s, Path.startsWithSlash s = true → Plain s →
      fs.lookupPath cwd (Path.new s) followSymlink = fs.lookupFromRoot (Path.new s) followSymlink

end RootFs

end Archives.Kerla
