import Archives.Common.Call
import Archives.Common.Machine
import Archives.Kerla.Model.Path
/-!
# Kerla — the table of opened files

`kernel/fs/opened_file.rs` and the system calls `close`, `dup2` and
`fcntl`. A descriptor is an `i32` that comes from user space; as an index
it is cast to `usize`, which turns a negative one into a number far
beyond any table.

An `Arc<SpinLock<OpenedFile>>` is an address. The `open` hook of a file is
the environment of a call: it may refuse the file, or put another one in
its place.
-/

namespace Archives.Kerla

open Function

def fdMax : Int := 1024

/-- The cast of an `i32` to `usize`. -/
def asUsize (fd : Int) : Nat := (fd % 0x10000000000000000).toNat

structure OpenOptions where
  nonblock : Bool
  closeOnExec : Bool
  deriving DecidableEq, Repr

structure OpenedFile where
  path : PathComponent
  pos : Nat
  options : OpenOptions

/-- `LocalOpenedFile`: the address of the opened file, and a flag of the
descriptor. -/
structure LocalOpenedFile where
  openedFile : Nat
  closeOnExec : Bool
  deriving DecidableEq, Repr

structure OpenedFileTable where
  files : List (Option LocalOpenedFile)
  prevFd : Int
  deriving DecidableEq

def PathComponent.withInode : PathComponent → INode → PathComponent
  | .root name _, i => .root name i
  | .child parentDir name _, i => .child parentDir name i

namespace OpenedFileTable

/-- How a call does not return. -/
inductive Panic
  /-- `Vec::resize` to more than a vector can hold. -/
  | capacityOverflow
  /-- A loop that is never left. -/
  | hang
  deriving DecidableEq, Repr

def new : OpenedFileTable where
  files := []
  prevFd := 1

/-- The table, and the opened files. -/
structure State where
  table : OpenedFileTable
  /-- The next address the allocator hands out. -/
  next : Nat
  opened : Nat → OpenedFile

/-- The calls on a table. -/
abbrev Files := Call Panic State Errno

/-- `FileLike::open`, for each file: the one to use in its place, or an
error. -/
abbrev Hook := Nat → OpenOptions → Except Errno (Option Nat)

/-- The most entries a vector can have. -/
def isizeMax : Nat := 0x7fffffffffffffff

def allocFdLoop (t : OpenedFileTable) (gte : Int) : Nat → Int → Except Panic (Except Errno Int)
  | 0, _ => .error .hang
  | fuel + 1, i =>
    if i ≠ t.prevFd ∧ gte ≤ i then
      match t.files[asUsize i]? with
      | some (some _) => allocFdLoop t gte fuel (Int.tmod (i + 1) fdMax)
      | _ => .ok (.ok i)
    else .ok (.error .enfile)

/-- **`OpenedFileTable::alloc_fd`.** The loop passes each descriptor once
at most. -/
def allocFd (t : OpenedFileTable) : Option Int → Except Panic (Except Errno Int)
  | some gte => allocFdLoop t gte 1025 gte
  | none => allocFdLoop t 0 1025 (Int.tmod (t.prevFd + 1) fdMax)

def callAllocFd (gte : Option Int) : Files Int := do
  let s ← .state
  match s.table.allocFd gte with
  | .error x => .stop x
  | .ok r => .lift r

/-- Writes an entry of the table. -/
def setEntry (i : Nat) (entry : Option LocalOpenedFile) (s : State) : State :=
  { s with table := { s.table with files := s.table.files.set i entry } }

/-- `Vec::resize` to a greater length. -/
def resize (n : Nat) (s : State) : State :=
  let files := s.table.files ++ List.replicate (n - s.table.files.length) none
  { s with table := { s.table with files := files } }

/-- The first half of `open_with_fixed_fd`: the file gets the descriptor. -/
def reserve (fd : Int) (file : LocalOpenedFile) : Files Unit := do
  let s ← .state
  match s.table.files[asUsize fd]? with
  | some (some _) => .fail .ebadf
  | some none => .update (setEntry (asUsize fd) (some file))
  | none =>
    if fdMax ≤ fd then .fail .ebadf
    -- where the addition overflows, the entry is out of bounds right after
    else if isizeMax < asUsize fd + 1 then .stop .capacityOverflow
    else do
      .update (resize (asUsize fd + 1))
      .update (setEntry (asUsize fd) (some file))

variable (hook : Hook)

/-- The second half of `open_with_fixed_fd`: the hook of the file. -/
def callHook (a : Nat) (options : OpenOptions) : Files Unit := do
  let s ← .state
  match (s.opened a).path.inode with
  | .fileLike f =>
    match hook f options with
    | .error e => .fail e
    | .ok none => pure ()
    | .ok (some f') => .update fun s =>
        let file := { s.opened a with path := (s.opened a).path.withInode (.fileLike f') }
        { s with opened := update s.opened a file }
  | _ => pure ()

/-- **`OpenedFileTable::open_with_fixed_fd`.** -/
def openWithFixedFd (fd : Int) (a : Nat) (options : OpenOptions) : Files Unit := do
  reserve fd { openedFile := a, closeOnExec := options.closeOnExec }
  callHook hook a options

/-- One more opened file. -/
def addOpened (file : OpenedFile) (s : State) : State :=
  { s with next := s.next + 1, opened := update s.opened s.next file }

/-- `Arc::new` of an opened file. -/
def newOpened (file : OpenedFile) : Files Nat := do
  let s ← .state
  .update (addOpened file)
  pure s.next

def openFile (path : PathComponent) (options : OpenOptions) : Files Int := do
  let fd ← callAllocFd none
  let a ← newOpened { path := path, pos := 0, options := options }
  openWithFixedFd hook fd a options
  pure fd

/-- The file behind a descriptor. -/
def get (fd : Int) : Files Nat := do
  let s ← .state
  match s.table.files[asUsize fd]? with
  | some (some file) => pure file.openedFile
  | _ => .fail .ebadf

def dup (fd : Int) (gte : Option Int) (options : OpenOptions) : Files Int := do
  let a ← get fd
  let fd ← callAllocFd gte
  openWithFixedFd hook fd a options
  pure fd

def close (fd : Int) : Files Unit := do
  let s ← .state
  match s.table.files[asUsize fd]? with
  | some _ => .update (setEntry (asUsize fd) none)
  | none => .fail .ebadf

/-- The descriptor `new` is closed, if it is open. -/
def closeIfOpen (new : Int) : Files Unit := do
  let s ← .state
  match s.table.files[asUsize new]? with
  | some (some _) => close new
  | _ => pure ()

/-- **`OpenedFileTable::dup2`.** -/
def dup2 (old new : Int) (options : OpenOptions) : Files Unit := do
  let a ← get old
  closeIfOpen new
  openWithFixedFd hook new a options

def fSetFd : Int := 2

def fSetFl : Int := 4

def fDupFdCloexec : Int := 1030

/-- Changes the options of an opened file. -/
def setOptions (a : Nat) (f : OpenOptions → OpenOptions) : Files Unit :=
  .update fun s =>
    let file := { s.opened a with options := f (s.opened a).options }
    { s with opened := update s.opened a file }

def sysFcntl (fd cmd : Int) (arg : BitVec 64) : Files Int :=
  if cmd = fSetFd then do
    let a ← get fd
    setOptions a fun o => { o with closeOnExec := arg == 1 }
    pure 0
  else if cmd = fSetFl then do
    let a ← get fd
    -- `O_NONBLOCK`
    setOptions a fun o => { o with nonblock := o.nonblock || arg.getLsbD 11 }
    pure 0
  else if cmd = fDupFdCloexec then
    dup hook fd (some (arg.setWidth 32).toInt) { nonblock := false, closeOnExec := true }
  else .fail .enosys

/-! ## The machine -/

/-- The calls, with descriptors as they come from registers. -/
inductive FileCall
  | openFile (path : PathComponent) (options : OpenOptions)
  | openWithFixedFd (fd : BitVec 32) (file : OpenedFile) (options : OpenOptions)
  | dup (fd : BitVec 32) (gte : Option (BitVec 32)) (options : OpenOptions)
  | dup2 (old new : BitVec 32) (options : OpenOptions)
  | close (fd : BitVec 32)
  | fcntl (fd cmd : BitVec 32) (arg : BitVec 64)

/-- What a call does, and the number it returns. -/
def perform : FileCall → Files Int
  | .openFile path options => openFile hook path options
  | .openWithFixedFd fd file options => do
    let a ← newOpened file
    openWithFixedFd hook fd.toInt a options
    pure fd.toInt
  | .dup fd gte options => dup hook fd.toInt (gte.map BitVec.toInt) options
  | .dup2 old new options => do
    dup2 hook old.toInt new.toInt options
    pure new.toInt
  | .close fd => do
    close fd.toInt
    pure 0
  | .fcntl fd cmd arg => sysFcntl hook fd.toInt cmd.toInt arg

def machine : Machine State (Hook × FileCall) where
  step s a :=
    match (perform a.1 a.2).run s with
    | .ok (_, s) => some s
    | .error _ => none

/-! ## The table as a finite map -/

variable (s : State)

/-- What a descriptor stands for. -/
def State.lookup (i : Nat) : Option LocalOpenedFile := (s.table.files[i]?).join

namespace FileCall

/-- The call is a `dup` to a new descriptor. -/
def duplicates : FileCall → Bool
  | .dup .. => true
  | .fcntl _ cmd _ => cmd.toInt = fDupFdCloexec
  | _ => false

/-- The call returns a new descriptor. -/
def allocates : FileCall → Bool
  | .openFile .. => true
  | call => call.duplicates

/-- The descriptor a successful call returns or names; `r` is the number
it returns. -/
def names (r : Int) : FileCall → Option Int
  | .openFile .. | .dup .. => some r
  | .openWithFixedFd fd _ _ | .dup2 _ fd _ | .close fd => some fd.toInt
  | .fcntl _ cmd _ => if cmd.toInt = fDupFdCloexec then some r else none

end FileCall

/-- **A call behaves**: it does not panic; if it fails, the table is the
same; if it succeeds, only the entry changed that it returns or names, and
a new descriptor was unused and is in range. -/
def Behaves (hook : Hook) (call : FileCall) : Prop :=
  match (perform hook call).run s with
  | .error _ => False
  | .ok (.error _, s') => ∀ i, s'.lookup i = s.lookup i
  | .ok (.ok r, s') => (∀ i : Nat, call.names r ≠ some (i : Int) → s'.lookup i = s.lookup i) ∧
      (call.allocates = true → 0 ≤ r ∧ r < fdMax ∧ s.lookup r.toNat = none)

/-! ## When it does -/

/-- The hook lets an inode be opened; only files have one. -/
def Opens (options : OpenOptions) : INode → Prop
  | .fileLike f => ∃ r, hook f options = .ok r
  | _ => True

/-- The descriptors `alloc_fd` looks at from `i` on, `prev_fd` being 1. -/
def Ahead (gte i j : Int) : Prop :=
  gte ≤ i ∧ i ≠ 1 ∧ ((i ≤ j ∧ j < fdMax ∧ (1 < i ∨ j < 1)) ∨ (1 < i ∧ gte ≤ 0 ∧ j = 0))

/-- The descriptors `alloc_fd` looks at: those from `gte` on, but not
beyond 1 if it starts before; without `gte`, all but 1. -/
def Tried : Option Int → Int → Prop
  | some gte, j => Ahead gte gte j
  | none, j => Ahead 0 2 j

/-- No descriptor that `alloc_fd` looks at is unused. -/
def NoneFree (gte : Option Int) : Prop :=
  ∀ j, Tried gte j → s.lookup j.toNat ≠ none

/-- What is behind a descriptor. -/
def State.entry (fd : BitVec 32) : Option LocalOpenedFile := s.lookup (asUsize fd.toInt)

/-- A `dup` is safe: the descriptor is not open; or the lower bound is not
negative, and the hook is not reached or lets the file be opened. -/
def DupSafe (hook : Hook) (fd : BitVec 32) (gte : Option Int) (options : OpenOptions) : Prop :=
  ∀ file, s.entry fd = some file → (∀ g, gte = some g → 0 ≤ g) ∧
    (NoneFree s gte ∨ Opens hook options (s.opened file.openedFile).path.inode)

/-- **A call is safe**: no negative descriptor is to be given out, and a
file that gets a descriptor can be opened. -/
def Safe (hook : Hook) : FileCall → Prop
  | .openFile path options => NoneFree s none ∨ Opens hook options path.inode
  | .openWithFixedFd fd file options => 0 ≤ fd.toInt ∧
      (s.entry fd ≠ none ∨ fdMax ≤ fd.toInt ∨ Opens hook options file.path.inode)
  | .dup fd gte options => DupSafe s hook fd (gte.map BitVec.toInt) options
  | .dup2 old new options => ∀ file, s.entry old = some file → 0 ≤ new.toInt ∧
      (fdMax ≤ new.toInt ∨ Opens hook options (s.opened file.openedFile).path.inode ∨
        s.entry new = some { file with closeOnExec := options.closeOnExec })
  | .close _ => True
  | .fcntl fd cmd arg => cmd.toInt = fDupFdCloexec →
      DupSafe s hook fd (some (arg.setWidth 32).toInt) { nonblock := false, closeOnExec := true }

end OpenedFileTable

end Archives.Kerla
