import Archives.Common.Call
import Archives.Common.LittleEndian
import Archives.Common.Overwrite
/-!
# Kazari — messages on the wire

`src/wl/wire.rs` with the byte reader and the byte writer of
`src/utils`. A message is a header of two words, the second one with its
length and its opcode, and its arguments; handles travel beside the
bytes. What a reader or writer has come to is at most the length of its
bytes, and carries the proof of that, so the slices that start there
exist. The slices that end where a length on the wire says may not.
-/

namespace Archives.Kazari

open Nat UInt32 LittleEndian

/-- How the program stops. -/
inductive Panic
  | overflow
  | outOfBounds
  | unimplemented
  | unreachable
  deriving DecidableEq, Repr

/-- `align_down`, for powers of two. -/
def alignDown (value align : Nat) : Nat := value - value % align

def alignUp (value align : Nat) : Nat := alignDown (value + align - 1) align

theorem le_alignUp {value align : Nat} (h : 0 < align) : value ≤ alignUp value align := by
  have hmod := mod_lt (value + align - 1) h
  unfold alignUp alignDown
  omega

/-! ## Reading -/

inductive BytesReaderError
  | tooShort
  deriving DecidableEq, Repr

structure BytesReader where
  bytes : List UInt8
  current : Nat
  current_le : current ≤ bytes.length

namespace BytesReader

def new (bytes : List UInt8) : BytesReader := ⟨bytes, 0, zero_le _⟩

variable (r : BytesReader)

def remaining : List UInt8 := r.bytes.drop r.current

def remainingLen : Nat := r.bytes.length - r.current

def skip (len : Nat) : Except BytesReaderError BytesReader :=
  if h : r.current + len > r.bytes.length then .error .tooShort
  else .ok ⟨r.bytes, r.current + len, Nat.not_lt.1 h⟩

def skipUntilAlignment (align : Nat) : Except BytesReaderError BytesReader :=
  if h : alignUp r.current align > r.bytes.length then .error .tooShort
  else .ok ⟨r.bytes, alignUp r.current align, Nat.not_lt.1 h⟩

def consumeLeU32 : Except BytesReaderError (UInt32 × BytesReader) :=
  if h : r.remainingLen < 4 then .error .tooShort
  else
    let value := ofNat (decode (r.remaining.take 4))
    .ok (value, ⟨r.bytes, r.current + 4, by unfold remainingLen at h; omega⟩)

def consumeLeI32 : Except BytesReaderError (Int32 × BytesReader) :=
  if h : r.remainingLen < 4 then .error .tooShort
  else
    let value := (ofNat (decode (r.remaining.take 4))).toInt32
    .ok (value, ⟨r.bytes, r.current + 4, by unfold remainingLen at h; omega⟩)

end BytesReader

/-! ## Writing -/

inductive BytesWriterError
  | tooShort
  | outOfBounds
  deriving DecidableEq, Repr

structure BytesWriter where
  bytes : List UInt8
  current : Nat
  current_le : current ≤ bytes.length

namespace BytesWriter

def new (bytes : List UInt8) : BytesWriter := ⟨bytes, 0, zero_le _⟩

variable (w : BytesWriter)

def remainingLen : Nat := w.bytes.length - w.current

/-- The bytes with some in the place of those that follow, and the writer
behind them. -/
def put (value : List UInt8) (h : w.current + value.length ≤ w.bytes.length) : BytesWriter where
  bytes := Overwrite.write w.bytes w.current value
  current := w.current + value.length
  current_le := by rw [Overwrite.length_write h]; exact h

def appendUntilAlignment (value : UInt8) (align : Nat) (hpos : 0 < align) :
    Except BytesWriterError BytesWriter :=
  if h : alignUp w.current align > w.bytes.length then .error .tooShort
  else .ok (w.put (List.replicate (alignUp w.current align - w.current) value) (by
    have hle : w.current ≤ alignUp w.current align := le_alignUp hpos
    rw [List.length_replicate]
    omega))

def appendBytes (value : List UInt8) : Except BytesWriterError BytesWriter :=
  if h : w.remainingLen < value.length then .error .tooShort
  else .ok (w.put value (by have := w.current_le; unfold remainingLen at h; omega))

def appendU8 (value : UInt8) : Except BytesWriterError BytesWriter :=
  if h : w.remainingLen < 1 then .error .tooShort
  else .ok (w.put [value] (by
    have := w.current_le
    unfold remainingLen at h
    rw [List.length_singleton]
    omega))

def appendLeU32 (value : UInt32) : Except BytesWriterError BytesWriter :=
  if h : w.remainingLen < 4 then .error .tooShort
  else .ok (w.put (encode 4 value.toNat) (by
    have := w.current_le
    unfold remainingLen at h
    rw [length_encode]
    omega))

def appendLeI32 (value : Int32) : Except BytesWriterError BytesWriter :=
  if h : w.remainingLen < 4 then .error .tooShort
  else .ok (w.put (encode 4 value.toUInt32.toNat) (by
    have := w.current_le
    unfold remainingLen at h
    rw [length_encode]
    omega))

def writeLeU32 (offset : Nat) (value : UInt32) : Except BytesWriterError BytesWriter :=
  if h : offset + 4 > w.bytes.length then .error .outOfBounds
  else .ok {
    bytes := Overwrite.write w.bytes offset (encode 4 value.toNat)
    current := w.current
    current_le := by
      rw [Overwrite.length_write (by rw [length_encode]; omega)]
      exact w.current_le }

end BytesWriter

/-! ## Messages -/

abbrev Opcode := UInt16

abbrev ObjectId := UInt32

abbrev NewId := UInt32

abbrev Handle := Int32

inductive PayloadType
  | uint
  | int
  | fixed
  | objectId
  | newId
  | handle
  | array
  | string
  deriving DecidableEq, Repr

/-- `Payload`. A fixed-point number is given by the bits of its float. -/
inductive Payload
  | uint (value : UInt32)
  | int (value : Int32)
  | fixed (bits : UInt32)
  | objectId (value : ObjectId)
  | newId (value : NewId)
  | handle (value : Handle)
  | array (value : List UInt8)
  | string (value : String)
  deriving DecidableEq

def Payload.type : Payload → PayloadType
  | uint _ => .uint
  | int _ => .int
  | fixed _ => .fixed
  | objectId _ => .objectId
  | newId _ => .newId
  | handle _ => .handle
  | array _ => .array
  | string _ => .string

inductive DeserializeError
  | readerError (err : BytesReaderError)
  | invalidLength
  | tooFewHandles
  | objectIsNull
  | unknownOpcode
  | unexpectedType
  | nonTerminatedString
  | utf8Error
  deriving DecidableEq, Repr

structure RawMessage where
  sender : ObjectId
  opcode : Opcode
  args : List Payload
  deriving DecidableEq

/-! ## Serializing -/

/-- What a message is serialized into: the buffer, and the handles. -/
structure Sink where
  writer : BytesWriter
  handles : List Handle

/-- A step of `serialize`. -/
abbrev Serialize := Call Panic Sink BytesWriterError

/-- A call of the writer. -/
def write (f : BytesWriter → Except BytesWriterError BytesWriter) : Serialize Unit := do
  let sink ← .state
  let writer ← .lift (f sink.writer)
  .update fun sink => { sink with writer := writer }

def asBytes (value : String) : List UInt8 := value.toByteArray.data.toList

/-- The arms of the loop of `serialize`. The length of a string is
increased as a machine word. -/
def serializeArg : Payload → Serialize Unit
  | .uint value => write (·.appendLeU32 value)
  | .int value => write (·.appendLeI32 value)
  | .fixed _ => .stop .unimplemented
  | .objectId value => write (·.appendLeU32 value)
  | .newId value => write (·.appendLeU32 value)
  | .handle value => .update fun sink => { sink with handles := sink.handles ++ [value] }
  | .array value => do
    write (·.appendLeU32 (ofNat value.length))
    write (·.appendBytes value)
    write (·.appendUntilAlignment 0 4 (succ_pos 3))
  | .string value => do
    let len := ofNat (asBytes value).length
    if len = 0xffffffff then .stop .overflow
    write (·.appendLeU32 (len + 1))
    write (·.appendBytes (asBytes value))
    write (·.appendU8 0)
    write (·.appendUntilAlignment 0 4 (succ_pos 3))

/-- The loop of `serialize`. -/
def serializeArgs : List Payload → Serialize Unit
  | [] => pure ()
  | arg :: args => do
    serializeArg arg
    serializeArgs args

/-- The word with the length and the opcode of a message. -/
def lengthWord (len : Nat) (opcode : Opcode) : UInt32 :=
  (ofNat len <<< 16) ||| opcode.toUInt32

def RawMessage.serialize (m : RawMessage) : Serialize Nat := do
  write (·.appendLeU32 m.sender)
  write (·.appendLeU32 0)
  let start ← .state
  serializeArgs m.args
  let sink ← .state
  let len := 8 + start.writer.remainingLen - sink.writer.remainingLen
  write (·.writeLeU32 4 (lengthWord len m.opcode))
  pure len

/-! ## Deserializing -/

/-- What a message is deserialized from: the bytes, and the handles. -/
structure Source where
  reader : BytesReader
  handles : List Handle

/-- A step of `deserialize`. -/
abbrev Deserialize := Call Panic Source DeserializeError

/-- A call of the reader that moves it. -/
def move (f : BytesReader → Except BytesReaderError BytesReader) : Deserialize Unit := do
  let source ← .state
  let reader ← .lift ((f source.reader).mapError .readerError)
  .update fun source => { source with reader := reader }

/-- A call of the reader that consumes a value. -/
def consume {α : Type} (f : BytesReader → Except BytesReaderError (α × BytesReader)) :
    Deserialize α := do
  let source ← .state
  let (value, reader) ← .lift ((f source.reader).mapError .readerError)
  .update fun source => { source with reader := reader }
  pure value

/-- The slice of what remains up to a length. -/
def remainingUpTo (len : Nat) : Deserialize (List UInt8) := do
  let source ← .state
  if source.reader.remaining.length < len then .stop .outOfBounds
  pure (source.reader.remaining.take len)

/-- `skip` where its result is dropped. -/
def skipUnchecked (len : Nat) : Deserialize Unit :=
  .update fun source =>
    match source.reader.skip len with
    | .ok reader => { source with reader := reader }
    | .error _ => source

/-- A skip, and another one up to the next word. -/
def skipPadded (len : Nat) : Deserialize Unit := do
  skipUnchecked len
  move (·.skipUntilAlignment 4)

def nextHandle : Deserialize Handle := do
  let source ← .state
  match source.handles with
  | [] => .fail .tooFewHandles
  | handle :: handles =>
    .update fun source => { source with handles := handles }
    pure handle

def fromUtf8 (bytes : List UInt8) : Except DeserializeError String :=
  match String.fromUTF8? bytes.toByteArray with
  | some value => .ok value
  | none => .error .utf8Error

/-- The arms of the loop of `deserialize`. -/
def deserializeArg : PayloadType → Deserialize Payload
  | .uint => do return .uint (← consume (·.consumeLeU32))
  | .int => do return .int (← consume (·.consumeLeI32))
  | .fixed => .stop .unimplemented
  | .objectId => do return .objectId (← consume (·.consumeLeU32))
  | .newId => do return .newId (← consume (·.consumeLeU32))
  | .handle => do return .handle (← nextHandle)
  | .array => do
    let arrayLen ← consume (·.consumeLeU32)
    let array ← remainingUpTo arrayLen.toNat
    skipPadded arrayLen.toNat
    return .array array
  | .string => do
    let strLen ← consume (·.consumeLeU32)
    if strLen.toNat < 1 then .fail .nonTerminatedString
    let bytes ← remainingUpTo (strLen.toNat - 1)
    let string ← .lift (fromUtf8 bytes)
    skipPadded strLen.toNat
    return .string string

/-- The loop of `deserialize`. -/
def deserializeArgs : List PayloadType → Deserialize (List Payload)
  | [] => pure []
  | argType :: argTypes => do
    let arg ← deserializeArg argType
    let args ← deserializeArgs argTypes
    return arg :: args

def deserializeHeader (buf : List UInt8) : Except DeserializeError (ObjectId × Opcode) := do
  let (sender, reader) ← (BytesReader.new buf).consumeLeU32.mapError .readerError
  let (word, _) ← reader.consumeLeU32.mapError .readerError
  let len := (word >>> 16).toNat
  let opcode := (word &&& 0xffff).toUInt16
  if len < 8 then .error .invalidLength
  return (sender, opcode)

def deserialize (buf : List UInt8) (argTypes : List PayloadType) (handles : List Handle) :
    Except Panic (Except DeserializeError RawMessage) :=
  match deserializeHeader buf with
  | .error err => .ok (.error err)
  | .ok (sender, opcode) =>
    match (BytesReader.new buf).skip 8 with
    | .error err => .ok (.error (.readerError err))
    | .ok reader =>
      match (deserializeArgs argTypes).run ⟨reader, handles⟩ with
      | .error panic => .error panic
      | .ok (.error err, _) => .ok (.error err)
      | .ok (.ok args, _) => .ok (.ok ⟨sender, opcode, args⟩)

end Archives.Kazari
