import Archives.Common.Fuel
import Archives.Common.Ranges
import Archives.Kerla.Model.UserBuffer
/-!
# Kerla — ring buffers and pipes

`utils/ring_buffer.rs` and `kernel/pipe.rs`. A ring buffer has a read
and a write position, and a flag that tells the full buffer from the
empty one where the two are equal. A reader takes slices out of it until
it says that nothing is left.

No signal is pending while a reader or a writer runs, and locks are left
out: a pipe is used by one process at a time.
-/

namespace Archives.Kerla

/-- `RingBuffer<T, CAP>`. The cells that were never written hold
anything. -/
structure RingBuffer (T : Type) (CAP : Nat) where
  buf : Nat → T
  rp : Nat
  wp : Nat
  full : Bool
  rp_lt : rp < CAP
  wp_lt : wp < CAP
  rp_eq_wp : full = true → rp = wp

namespace RingBuffer

variable {T : Type} {CAP : Nat}

def new (hcap : 0 < CAP) (uninit : Nat → T) : RingBuffer T CAP where
  buf := uninit
  rp := 0
  wp := 0
  full := false
  rp_lt := hcap
  wp_lt := hcap
  rp_eq_wp := fun _ => rfl

variable (rb : RingBuffer T CAP)

def isWritable : Bool := !rb.full

def isReadable : Bool := rb.full || decide (rb.rp ≠ rb.wp)

/-- `slice_mut(dst).copy_from_slice(src)`, from the cell `at` on. -/
def copyTo (buf : Nat → T) (start : Nat) (src : List T) : Nat → T := fun i =>
  if start ≤ i then (src[i - start]?).getD (buf i) else buf i

def slice (range : Range) : List T :=
  (List.range' range.start (range.stop - range.start)).map rb.buf

/-- The buffer with `len` more cells written. -/
def advance (buf : Nat → T) (len : Nat) : RingBuffer T CAP where
  buf := buf
  rp := rb.rp
  wp := (rb.wp + len) % CAP
  full := decide ((rb.wp + len) % CAP = rb.rp)
  rp_lt := rb.rp_lt
  wp_lt := Nat.mod_lt _ (Nat.zero_lt_of_lt rb.wp_lt)
  rp_eq_wp := fun h => (of_decide_eq_true h).symm

/-- `RingBuffer::push_slice`: how much of the data was written. -/
def pushSlice (data : List T) : Nat × RingBuffer T CAP :=
  if rb.isWritable = false ∨ data = [] then (0, rb)
  else if rb.rp ≤ rb.wp then
    let src1 := data.take (CAP - rb.wp)
    let src2 := (data.drop src1.length).take rb.rp
    let len := src1.length + src2.length
    (len, rb.advance (copyTo (copyTo rb.buf rb.wp src1) 0 src2) len)
  else
    let src := data.take (rb.rp - rb.wp)
    (src.length, rb.advance (copyTo rb.buf rb.wp src) src.length)

/-- The cells `pop_slice` takes. -/
def popRange (len : Nat) : Range :=
  if rb.rp < rb.wp then ⟨rb.rp, min (rb.rp + len) rb.wp⟩
  -- the source starts this slice at the write position
  else ⟨rb.wp, min (rb.wp + len) CAP⟩

/-- The buffer after `pop_slice` took a slice. -/
def popped (len : Nat) : RingBuffer T CAP where
  buf := rb.buf
  rp := (rb.rp + ((rb.popRange len).stop - (rb.popRange len).start)) % CAP
  wp := rb.wp
  full := false
  rp_lt := Nat.mod_lt _ (Nat.zero_lt_of_lt rb.wp_lt)
  wp_lt := rb.wp_lt
  rp_eq_wp := fun h => absurd h Bool.false_ne_true

def popSlice (len : Nat) : Option (List T × RingBuffer T CAP) :=
  if rb.isReadable = false then none else some (rb.slice (rb.popRange len), rb.popped len)

/-- The number of cells a buffer holds. -/
def count : Nat :=
  if rb.full then CAP
  else if rb.rp ≤ rb.wp then rb.wp - rb.rp
  else CAP - rb.rp + rb.wp

end RingBuffer

def pipeSize : Nat := 4096

/-- `PipeInner`, the capacity a parameter. -/
structure Pipe (CAP : Nat) where
  buf : RingBuffer UInt8 CAP
  closedByReader : Bool
  closedByWriter : Bool

namespace Pipe

variable {CAP : Nat}

def new (hcap : 0 < CAP) (uninit : Nat → UInt8) : Pipe CAP := ⟨.new hcap uninit, false, false⟩

/-- How a call on a pipe ends: with a value, with an error, or in the
wait queue. -/
inductive Outcome (α : Type)
  | returns (a : α)
  | epipe
  | sleeps
  deriving DecidableEq, Repr

/-- The loop of `PipeWriter::write` over the bytes not yet read from the
user, 512 at a time. It reads a byte at least in each round, so as many
rounds as there are bytes are enough. -/
def fill : Nat → RingBuffer UInt8 CAP → List UInt8 → Nat → Nat × RingBuffer UInt8 CAP
  | 0, rb, _, writtenLen => (writtenLen, rb)
  | rounds + 1, rb, rest, writtenLen =>
    let tmp := rest.take 512
    if tmp = [] then (writtenLen, rb)
    else
      let pushed := rb.pushSlice tmp
      if pushed.1 = 0 then (writtenLen, pushed.2)
      else fill rounds pushed.2 (rest.drop 512) (writtenLen + pushed.1)

variable (pipe : Pipe CAP) (nonblock : Bool)

/-- `PipeWriter::write`, up to the point where it would sleep. -/
def write (bytes : List UInt8) : Outcome Nat × Pipe CAP :=
  if pipe.closedByReader then (.epipe, pipe)
  else
    let filled := fill bytes.length pipe.buf bytes 0
    let pipe' := { pipe with buf := filled.2 }
    if 0 < filled.1 then (.returns filled.1, pipe')
    else if nonblock then (.returns 0, pipe')
    else (.sleeps, pipe')

/-- The loop of `PipeReader::read`, left when the ring buffer has no
slice to give. -/
def drain : Nat → RingBuffer UInt8 CAP → UserBufWriter →
    Except Unit (RingBuffer UInt8 CAP × UserBufWriter)
  | 0, _, _ => .error ()
  | fuel + 1, rb, writer =>
    match rb.popSlice writer.remainingLen with
    | none => .ok (rb, writer)
    | some (src, rb') => drain fuel rb' (writer.writeBytes src)

/-- What `PipeReader::read` does after its loop: it returns the bytes in
the user's buffer, or would sleep. -/
def finish (left : RingBuffer UInt8 CAP × UserBufWriter) : Outcome (List UInt8) × Pipe CAP :=
  let pipe' := { pipe with buf := left.1 }
  if 0 < left.2.writtenLen then (.returns left.2.written, pipe')
  else if nonblock || pipe.closedByWriter then (.returns [], pipe')
  else (.sleeps, pipe')

/-- `PipeReader::read`, up to the point where it would sleep. -/
def read (fuel : Nat) (pipe : Pipe CAP) (nonblock : Bool) (length : Nat) :
    Except Unit (Outcome (List UInt8) × Pipe CAP) := do
  let left ← drain fuel pipe.buf (.ofLen length)
  pure (pipe.finish nonblock left)

/-- **A read as it should be**: it returns, with as many bytes as were
asked for, or all there are. -/
def Reads (length : Nat) : Prop :=
  ∃ bytes pipe', Fuel.Returns (fun fuel => pipe.read fuel nonblock length) (.returns bytes, pipe') ∧
    bytes.length = min length pipe.buf.count

/-- **When a read goes as it should.** There is room for all that the
pipe holds, and it lies in one piece, or exactly that much is asked for,
or there are no more cells than that from the write position to the end.
Or nothing is asked for, of a full pipe that would not make the reader
sleep. -/
def Drainable (length : Nat) : Prop :=
  (pipe.buf.count ≤ length ∧ (pipe.buf.rp < pipe.buf.wp ∨ length = pipe.buf.count ∨
    CAP - pipe.buf.wp ≤ pipe.buf.count)) ∨
  (length = 0 ∧ pipe.buf.full = true ∧ (nonblock || pipe.closedByWriter) = true)

end Pipe

end Archives.Kerla
