import Archives.Common.Machine
import Archives.Kerla.Model.Path
/-!
# Kerla — file systems and mounts

`RootFs::mount`, the directories of `tmpfs.rs`, and the tree that
`initramfs.rs` makes from its image. Every directory is known by its
address (the `Arc`); its inode number is a field of it. The numbers of an
initramfs are those of its image, the root excepted; all tmpfs instances
take theirs from one counter, except that the root of each is number 1.
`devfs` is a tmpfs.

The bytes of the image are left out: an image is the list of its entries,
the trailer among them. Errors of calls leave the state as it is, so they
are not told apart.
-/

namespace Archives.Kerla

def RootFs.lookupMountPoint (fs : RootFs) (d : Nat) : Except Errno (Option (Except Errno Nat)) :=
  (fs.inodeNo d).map fs.mountPoints

namespace Mounts

/-- A directory of an initramfs, or of a tmpfs. -/
structure Dir where
  inodeNo : Nat
  files : List (Str × INode)
  isTmpFs : Bool
  deriving DecidableEq

def Dir.lookup (dir : Dir) (name : Str) : Option INode :=
  (dir.files.find? fun file => file.1 = name).map Prod.snd

def Dir.insert (dir : Dir) (name : Str) (inode : INode) : Dir :=
  { dir with files := (name, inode) :: dir.files.filter fun file => file.1 ≠ name }

/-- All file systems, and what is mounted. -/
structure FileSystems where
  dirs : List Dir
  symlinks : List Str
  nextFile : Nat
  nextInodeNo : Nat
  /-- `FileSystem::root_dir`, of each file system. -/
  roots : List Nat
  /-- `mount_points`: for a number the root of what is mounted. -/
  mountPoints : Nat → Option Nat
  /-- The calls of `mount`, the last one first: the directory that was
  passed, and the root of the file system. -/
  mounts : List (Nat × Nat)

namespace FileSystems

variable (st : FileSystems) (dir : Nat)

/-- The entry of a directory. -/
def lookup (name : Str) : Option INode :=
  st.dirs[dir]?.bind fun dir => dir.lookup name

/-- `stat().inode_no`. -/
def number : Option Nat := st.dirs[dir]?.map Dir.inodeNo

/-- Puts an entry into a directory. -/
def insert (name : Str) (inode : INode) : FileSystems :=
  { st with dirs := st.dirs.modify dir fun dir => dir.insert name inode }

variable (parent : Nat)

/-- A new directory, which becomes an entry of another. -/
def insertDir (name : Str) (dir : Dir) : FileSystems :=
  let st := st.insert parent name (.directory st.dirs.length)
  { st with dirs := st.dirs ++ [dir] }

/-! ## The initramfs -/

/-- The file types an image may have. -/
inductive FileKind
  | symlink | directory | regular | other
  deriving DecidableEq, Repr

structure ImageEntry where
  path : Str
  kind : FileKind
  ino : Nat
  data : Str

/-- The path of an entry: a dot before a slash at its start is cut off. -/
def ImageEntry.strippedPath (entry : ImageEntry) : Str :=
  if ['.', '/'].isPrefixOf entry.path then entry.path.drop 1 else entry.path

/-- The path that ends an image. -/
def trailer : Str := ['T', 'R', 'A', 'I', 'L', 'E', 'R', '!', '!', '!']

/-- Before the image is read: the root has the number 2. -/
def empty : FileSystems where
  dirs := [⟨2, [], false⟩]
  symlinks := []
  nextFile := 0
  nextInodeNo := 2
  roots := [0]
  mountPoints := fun _ => none
  mounts := []

/-- The directory an entry of the image belongs into, and its name. None
is a panic. -/
def findParent (st : FileSystems) : Nat → List Str → Option (Nat × Option Str)
  | dir, [] => some (dir, none)
  | dir, [name] => some (dir, some name)
  | dir, name :: rest =>
    match st.lookup dir name with
    | some (.directory d) => findParent st d rest
    | _ => none

/-- Puts an entry of the image into its directory. -/
def addEntry (name : Str) (entry : ImageEntry) : FileSystems :=
  match entry.kind with
  | .symlink =>
    { st.insert dir name (.symlink st.symlinks.length) with symlinks := st.symlinks ++ [entry.data] }
  | .directory => st.insertDir dir name ⟨entry.ino, [], false⟩
  | .regular => { st.insert dir name (.fileLike st.nextFile) with nextFile := st.nextFile + 1 }
  | .other => st

/-- The body of the loop of `InitramFs::new`. -/
def readEntry (entry : ImageEntry) : Option FileSystems :=
  if entry.strippedPath = [] then none
  else
    (st.findParent 0 (Path.new entry.strippedPath).components).bind fun found =>
      if entry.kind = .other then some st
      else found.2.map fun name => st.addEntry found.1 name entry

/-- The loop of `InitramFs::new`. An image without a trailer is a panic. -/
def readEntries : List ImageEntry → FileSystems → Option FileSystems
  | [], _ => none
  | entry :: rest, st =>
    if entry.strippedPath = trailer then some st
    else (st.readEntry entry).bind (readEntries rest)

/-- `InitramFs::new`, and the `RootFs` over it. -/
def initramFs (image : List ImageEntry) : Option FileSystems := readEntries image empty

/-! ## The tmpfs instances, and mounting -/

/-- What happens to the file systems. `Dir::add_dir` and
`Dir::create_dir` are the same, and `Dir::add_file` is a link. -/
inductive Op
  | newTmpFs
  | createDir (parent : Nat) (name : Str)
  | createFile (parent : Nat) (name : Str)
  | link (parent : Nat) (name : Str) (linkTo : INode)
  | mount (dir root : Nat)

def newTmpFs : FileSystems :=
  { st with dirs := st.dirs ++ [⟨1, [], true⟩], roots := st.dirs.length :: st.roots }

def createDir (name : Str) : FileSystems :=
  { st.insertDir parent name ⟨st.nextInodeNo, [], true⟩ with nextInodeNo := st.nextInodeNo + 1 }

def createFile (name : Str) : FileSystems :=
  if (st.lookup parent name).isSome then st
  else { st.insert parent name (.fileLike st.nextFile) with
    nextFile := st.nextFile + 1, nextInodeNo := st.nextInodeNo + 1 }

/-- `Dir::link`. None is a panic: there are no links to symbolic links,
nor to directories of another file system. -/
def link (name : Str) : INode → Option FileSystems
  | .fileLike f => some (st.insert parent name (.fileLike f))
  | .directory d =>
    if st.dirs[d]?.any Dir.isTmpFs then some (st.insert parent name (.directory d)) else none
  | .symlink _ => none

def mount (dir root : Nat) : FileSystems :=
  { st with
    mountPoints := fun no => if st.number dir = some no then some root else st.mountPoints no
    mounts := (dir, root) :: st.mounts }

/-- What an operation does. Directories of an initramfs are not written
(`EROFS`, `ENOSYS`), and only what exists is passed to a call. -/
def step : Op → Option FileSystems
  | .newTmpFs => some st.newTmpFs
  | .createDir parent name => st.dirs[parent]?.map fun dir =>
    if dir.isTmpFs then st.createDir parent name else st
  | .createFile parent name => st.dirs[parent]?.map fun dir =>
    if dir.isTmpFs then st.createFile parent name else st
  | .link parent name linkTo => st.dirs[parent]?.bind fun dir =>
    if dir.isTmpFs then st.link parent name linkTo else some st
  | .mount dir root =>
    if dir < st.dirs.length ∧ root ∈ st.roots then some (st.mount dir root) else none

/-- The file systems and what happens to them. -/
def machine : Machine FileSystems Op where
  step := step

/-! ## Lookup -/

/-- What path lookup sees of the file systems. -/
def rootFs : RootFs where
  lookup dir name := (st.lookup dir name).elim (.error .enoent) .ok
  inodeNo dir := (st.number dir).elim (.error .enoent) .ok
  linkedTo l := st.symlinks[l]?.elim (.error .enoent) .ok
  mountPoints no := (st.mountPoints no).map .ok
  rootPath := .root [] (.directory 0)
  symlinkFollowLimit := defaultSymlinkFollowMax

/-- The root of what was mounted on a directory, by the last call. -/
def mountOn : Option Nat :=
  (st.mounts.find? fun m => m.1 = dir).map Prod.snd

/-- **Lookup by identity.** Its mount points are the directories that
were passed to `mount`, the root directory like any other. -/
def byIdentity : RootFs :=
  { st.rootFs with
    inodeNo := .ok
    mountPoints := fun dir => (st.mountOn dir).map .ok
    rootPath := .root [] (.directory ((st.mountOn 0).getD 0)) }

/-- A component of a path that is looked up in a directory. -/
def IsEntry (name : Str) : Prop := '/' ∉ name ∧ name ≠ Path.dot ∧ name ≠ Path.dotDot

variable (cwds : Nat → Prop)

/-- **The directories lookup may stand in**: the root, those a working
directory still holds (`cwds`), and what their entries lead to, which is
what is mounted there. -/
inductive Alive : Nat → Prop
  | root : Alive 0
  | cwd {dir : Nat} : cwds dir → Alive dir
  | entry {parent dir : Nat} {name : Str} : Alive parent → IsEntry name →
      st.lookup parent name = some (.directory dir) → Alive ((st.mountOn dir).getD dir)

/-- A directory that a component of a path leads to. -/
def Reached : Prop :=
  ∃ parent name, st.Alive cwds parent ∧ IsEntry name ∧ st.lookup parent name = some (.directory dir)

/-- An inode lookup may stand in, if it is a directory. -/
def AliveINode : INode → Prop
  | .directory dir => st.Alive cwds dir
  | _ => True

/-- A component with directories all the way up that lookup may stand in. -/
def AlivePath : PathComponent → Prop
  | .root _ inode => st.AliveINode cwds inode
  | .child parent _ inode => AlivePath parent ∧ st.AliveINode cwds inode

/-- **Lookup goes into what is mounted on the directory it reached**, and
into nothing else; so every path, from every working directory, leads
where the identity of the directories sends it. -/
structure Resolves : Prop where
  mountPoint : ∀ dir, st.Reached dir cwds →
    st.rootFs.lookupMountPoint dir = .ok ((st.mountOn dir).map .ok)
  paths : ∀ cwd, st.AlivePath cwds cwd → ∀ path followSymlink,
    st.rootFs.lookupPath cwd path followSymlink = st.byIdentity.lookupPath cwd path followSymlink

/-- The last call of `mount` on a directory with a number. -/
def lastMount (no : Nat) : Option (Nat × Nat) :=
  st.mounts.find? fun m => st.number m.1 = some no

/-- **Numbers tell directories apart.** A directory that is reached and
has the number of one that was passed to `mount` was itself passed to it,
and what was mounted last under that number is mounted on it. On the root
directory nothing else is mounted. -/
structure Distinguished : Prop where
  numbers : ∀ dir, st.Reached dir cwds → ∀ no, st.number dir = some no →
    ∀ m, st.lastMount no = some m → st.mountOn dir = some m.2
  root : ∀ m, st.mountOn 0 = some m → m = 0

end FileSystems

end Mounts

end Archives.Kerla
