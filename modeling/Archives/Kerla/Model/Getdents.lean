import Archives.Kerla.Model.Alignment
import Archives.Kerla.Model.Path
/-!
# Kerla — listing directories

`sys_getdents64` and `OpenedFile::readdir`. A directory answers an index
with its entry of that number, in an order that stays the same while the
directory does. The position of the opened directory is moved by every
`readdir`, whatever becomes of the entry.
-/

namespace Archives.Kerla

inductive FileType
  | directory | regular | link
  deriving DecidableEq, Repr

/-- `DirEntry`. The name is what its UTF-8 bytes are. -/
structure DirEntry where
  inodeNo : Nat
  fileType : FileType
  name : List UInt8
  deriving DecidableEq

namespace DirEntry

/-- The bytes of a record before its padding: `d_ino`, `d_off`,
`d_reclen`, `d_type`, and the name with its null character. -/
def recordLen (entry : DirEntry) : Nat := 8 * 2 + 2 + 1 + entry.name.length + 1

def reclen (entry : DirEntry) : Nat := alignUp entry.recordLen 8

end DirEntry

/-- `struct linux_dirent64`, as it is written to the user's buffer. -/
structure Dirent where
  ino : Nat
  off : Nat
  reclen : Nat
  fileType : FileType
  name : List UInt8
  deriving DecidableEq

/-- The record of an entry, after which `dir.pos()` is `dirPos`. -/
def DirEntry.record (entry : DirEntry) (dirPos : Nat) : Dirent :=
  ⟨entry.inodeNo, dirPos, entry.reclen % 65536, entry.fileType, entry.name⟩

def Dirent.entry (d : Dirent) : DirEntry := ⟨d.ino, d.fileType, d.name⟩

namespace Getdents

/-- The position of a writer after `size` bytes more, if there is room
for them. -/
def written (len pos size : Nat) : Nat := pos + min (len - pos) size

def skipUntilAlignment (len pos align : Nat) : Except Errno Nat :=
  if alignUp pos align - pos ≤ len - pos then .ok (alignUp pos align) else .error .einval

/-- The body of the loop: the fields of one record, from the position of
the writer on. It leaves the writer at the next record. -/
def writeDirent (len pos : Nat) (entry : DirEntry) : Except Errno Nat :=
  let ino := written len pos 8
  let off := written len ino 8
  let reclen := written len off 2
  let type := written len reclen 1
  let name := written len type entry.name.length
  let null := written len name 1
  skipUntilAlignment len null 8

/-- What a call leaves: the records, the bytes written and the position
of the opened directory. -/
structure Listing where
  records : List Dirent
  pos : Nat
  dirPos : Nat

/-- The loop of `sys_getdents64` on the entries from the directory's
position on. -/
def fill (len : Nat) : Nat → Nat → List DirEntry → Except Errno Listing
  -- readdir gave nothing, and moved the position
  | pos, dirPos, [] => .ok ⟨[], pos, dirPos + 1⟩
  | pos, dirPos, entry :: rest =>
    -- the entry was fetched, and the position moved past it
    if len < pos + entry.reclen then .ok ⟨[], pos, dirPos + 1⟩
    else do
      let pos' ← writeDirent len pos entry
      let listing ← fill len pos' (dirPos + 1) rest
      pure { listing with records := entry.record (dirPos + 1) :: listing.records }

/-- `sys_getdents64` on a directory, at a position. The value it returns
is the `pos` of the listing. -/
def getdents64 (entries : List DirEntry) (dirPos len : Nat) : Except Errno Listing :=
  fill len 0 dirPos (entries.drop dirPos)

/-- The records of a sequence of calls up to the first that returns 0,
if one does. Each call has a buffer of its own length. -/
def collect (entries : List DirEntry) : Nat → List Nat → Except Errno (Option (List Dirent))
  | _, [] => .ok none
  | dirPos, len :: lens => do
    let listing ← getdents64 entries dirPos len
    if listing.pos = 0 then pure (some [])
    else do
      let later ← collect entries listing.dirPos lens
      pure (later.map (listing.records ++ ·))

/-- The length of the records of all the entries together. -/
def totalLen : List DirEntry → Nat
  | [] => 0
  | entry :: rest => entry.reclen + totalLen rest

end Getdents

end Archives.Kerla
