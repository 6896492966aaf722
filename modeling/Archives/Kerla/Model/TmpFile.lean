import Archives.Kerla.Model.UserBuffer
/-!
# Kerla — files of tmpfs

`File` of `kernel/fs/tmpfs.rs` and the positions of the opened files on
it (`OpenedFile::read`, `OpenedFile::write`). A write first gives the
file the length at which the write ends, then copies the bytes.

Offsets are unbounded and the kernel's heap does not run out.
-/

namespace Archives.Kerla

/-- `tmpfs::File`. -/
structure TmpFile where
  data : List UInt8
  deriving DecidableEq

namespace TmpFile

/-- `Vec::resize(len, 0)`. -/
def resize (data : List UInt8) (len : Nat) : List UInt8 :=
  data.take len ++ List.replicate (len - data.length) 0

/-- `File::read`: what it writes to a buffer of `len` bytes. -/
def read (file : TmpFile) (offset len : Nat) : List UInt8 :=
  if file.data.length < offset then []
  else ((UserBufWriter.ofLen len).writeBytes (file.data.drop offset)).written

/-- `UserBufReader::read_bytes` into the data from `offset` on. -/
def copyTo (data : List UInt8) (offset : Nat) (bytes : List UInt8) : Nat × List UInt8 :=
  let copyLen := min bytes.length (data.length - offset)
  (copyLen, data.take offset ++ bytes.take copyLen ++ data.drop (offset + copyLen))

/-- `File::write`: how much was written. -/
def write (file : TmpFile) (offset : Nat) (bytes : List UInt8) : Nat × TmpFile :=
  let copied := copyTo (resize file.data (offset + bytes.length)) offset bytes
  (copied.1, ⟨copied.2⟩)

/-- **A write to a growable byte array.** The file is not shortened, the
bytes written are where they belong, every other byte it had is as it
was, and what it gained before the write is zero. -/
structure Writes (data : List UInt8) (offset : Nat) (bytes data' : List UInt8) : Prop where
  not_shorter : data.length ≤ data'.length
  inside : ∀ i, i < bytes.length → data'[offset + i]? = bytes[i]?
  outside : ∀ i, i < data.length → ¬ (offset ≤ i ∧ i < offset + bytes.length) → data'[i]? = data[i]?
  gap : ∀ i, data.length ≤ i → i < offset → i < data'.length → data'[i]? = some 0
  not_longer : data'.length ≤ max data.length (offset + bytes.length)

end TmpFile

/-- A file and the positions of the opened files on it. -/
structure SharedFile where
  file : TmpFile
  opened : List Nat
  deriving DecidableEq

inductive FileOp
  /-- `OpenedFile::new`: one more opened file, at any position. -/
  | openAt (pos : Nat)
  | read (i len : Nat)
  | write (i : Nat) (bytes : List UInt8)

/-- What a call gives. -/
inductive FileAnswer
  | opened
  | bytes (bs : List UInt8)
  | wrote (len : Nat)
  | notOpened
  deriving DecidableEq

namespace SharedFile

variable (s : SharedFile)

/-- `OpenedFile::read`, at the position of the opened file. -/
def readAt (i pos len : Nat) : FileAnswer × SharedFile :=
  let bs := s.file.read pos len
  (.bytes bs, { s with opened := s.opened.set i (pos + bs.length) })

/-- `OpenedFile::write`, at the position of the opened file. -/
def writeAt (i pos : Nat) (bytes : List UInt8) : FileAnswer × SharedFile :=
  let written := s.file.write pos bytes
  (.wrote written.1, ⟨written.2, s.opened.set i (pos + written.1)⟩)

/-- A call through one of the opened files. -/
def perform : FileOp → FileAnswer × SharedFile
  | .openAt pos => (.opened, { s with opened := s.opened ++ [pos] })
  | .read i len => s.opened[i]?.elim (.notOpened, s) fun pos => s.readAt i pos len
  | .write i bytes => s.opened[i]?.elim (.notOpened, s) fun pos => s.writeAt i pos bytes

/-- **A call on a growable byte array.** A read gives the bytes from its
position up to the length asked for or the end, and leaves the file; a
write writes. Each moves the position it was made at and no other. -/
def Behaves : FileOp → Prop
  | .openAt pos => (s.perform (.openAt pos)).2 = { s with opened := s.opened ++ [pos] }
  | .read i len => ∀ pos, s.opened[i]? = some pos →
    s.perform (.read i len) = (.bytes ((s.file.data.drop pos).take len),
      { s with opened := s.opened.set i (pos + ((s.file.data.drop pos).take len).length) })
  | .write i bytes => ∀ pos, s.opened[i]? = some pos →
    (s.perform (.write i bytes)).1 = .wrote bytes.length ∧
      (s.perform (.write i bytes)).2.opened = s.opened.set i (pos + bytes.length) ∧
      TmpFile.Writes s.file.data pos bytes (s.perform (.write i bytes)).2.file.data

/-- A write that ends at or past the end of the file. -/
def EndsPastEnd : FileOp → Prop
  | .write i bytes => ∀ pos, s.opened[i]? = some pos → s.file.data.length ≤ pos + bytes.length
  | _ => True

/-- A sequence of calls. -/
def run (ops : List FileOp) : SharedFile := ops.foldl (fun s op => (s.perform op).2) s

/-- A property of every call of a sequence, where it is made. -/
def Along (P : SharedFile → FileOp → Prop) : SharedFile → List FileOp → Prop
  | _, [] => True
  | s, op :: ops => P s op ∧ Along P (s.perform op).2 ops

end SharedFile

end Archives.Kerla
