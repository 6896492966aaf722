import Archives.Common.Simulation
import Archives.Kazari.Model.Wire
/-!
# Kazari — reading back what was written

A message that is serialized leaves its encoding at the front of the
buffer (`serialize_spec`): the two words of the header, and the arguments
with their padding, each of them a whole number of words. Reading goes by
what is left of the bytes, whatever stood before (`parseArgs`), since
every argument starts at a word; and what is left begins with the
encoding of the next argument.
-/

namespace Archives.Kazari

open Call List Nat UInt32 BytesReader

/-! ## Encodings -/

/-- The bytes up to the next word. -/
def padding (len : Nat) : List UInt8 := replicate (alignUp len 4 - len) 0

def padded (bytes : List UInt8) : List UInt8 := bytes ++ padding bytes.length

def word (value : UInt32) : List UInt8 := LittleEndian.encode 4 value.toNat

/-- **The encoding of an argument**, at the start of a word. -/
def Payload.encoding : Payload → List UInt8
  | uint value | fixed value | objectId value | newId value => word value
  | int value => word value.toUInt32
  | handle _ => []
  | array value => word (ofNat value.length) ++ padded value
  | string value =>
    word (ofNat (asBytes value).length + 1) ++ padded (asBytes value ++ [0])

def Payload.handles : Payload → List Handle
  | handle value => [value]
  | _ => []

def encodingOf (args : List Payload) : List UInt8 := args.flatMap (·.encoding)

def handlesOf (args : List Payload) : List Handle := args.flatMap (·.handles)

def RawMessage.encoding (m : RawMessage) : List UInt8 :=
  word m.sender ++ word (lengthWord (8 + (encodingOf m.args).length) m.opcode) ++ encodingOf m.args

@[simp] theorem length_word (value : UInt32) : (word value).length = 4 :=
  LittleEndian.length_encode 4 _

theorem alignUp_four (len : Nat) : alignUp len 4 = (len + 3) / 4 * 4 := by
  unfold alignUp alignDown
  omega

@[simp] theorem length_padding (len : Nat) : (padding len).length = alignUp len 4 - len :=
  length_replicate

theorem length_padded (bytes : List UInt8) : (padded bytes).length = alignUp bytes.length 4 := by
  have hle : bytes.length ≤ alignUp bytes.length 4 := le_alignUp (by decide)
  rw [padded, length_append, length_padding]
  omega

/-- Every argument takes whole words. -/
theorem length_encoding_mod (arg : Payload) : arg.encoding.length % 4 = 0 := by
  have hpadded (bytes : List UInt8) : (padded bytes).length % 4 = 0 := by
    rw [length_padded, alignUp_four]
    omega
  cases arg with
  | array value =>
    have hvalue := hpadded value
    rw [Payload.encoding, length_append, length_word]
    omega
  | string value =>
    have hvalue := hpadded (asBytes value ++ [0])
    rw [Payload.encoding, length_append, length_word]
    omega
  | handle value => rfl
  | uint value | int value | fixed value | objectId value | newId value =>
    rw [Payload.encoding, length_word]

/-! ## What a call of the writer leaves -/

/-- The buffer filled from the front with some bytes, and the handles. -/
structure Filled (buf filled : List UInt8) (handles : List Handle) (s : Sink) : Prop where
  bytes : s.writer.bytes = filled ++ buf.drop filled.length
  le : filled.length ≤ buf.length
  current : s.writer.current = filled.length
  handles : s.handles = handles

variable {buf filled value : List UInt8} {handles : List Handle} {s : Sink} {w w' : BytesWriter}
  {len : Nat}

theorem Filled.length_bytes (h : Filled buf filled handles s) :
    s.writer.bytes.length = buf.length := by
  have hle := h.le
  rw [h.bytes, length_append, length_drop]
  omega

/-- **Appending fills more.** -/
theorem Filled.put (h : Filled buf filled handles s)
    (hfits : s.writer.current + value.length ≤ s.writer.bytes.length) :
    Filled buf (filled ++ value) handles { s with writer := s.writer.put value hfits } where
  bytes := by
    show Overwrite.write s.writer.bytes s.writer.current value = _
    rw [h.bytes, h.current, Overwrite.write_at_end, drop_drop, length_append]
  le := by
    rw [h.length_bytes, h.current] at hfits
    rw [length_append]
    exact hfits
  current := by
    show s.writer.current + value.length = _
    rw [h.current, length_append]
  handles := h.handles

/-- A call that appends some bytes, if it succeeds. -/
theorem triple_write {f : BytesWriter → Except BytesWriterError BytesWriter}
    (hf : ∀ w w' : BytesWriter, w.current = filled.length → f w = .ok w' →
      ∃ hfits : w.current + value.length ≤ w.bytes.length, w' = w.put value hfits) :
    (write f).Triple (Filled buf filled handles) (fun _ => Filled buf (filled ++ value) handles)
      (fun _ => True) := by
  refine triple_state_bind fun s hs => ?_
  refine triple_lift_bind (fun _ _ => trivial) fun w' hw' => ?_
  refine triple_update fun t ht => ?_
  subst ht
  obtain ⟨hfits, rfl⟩ := hf t.writer w' hs.current hw'
  exact hs.put hfits

/-- The functions that append compare the length of what is left. -/
theorem triple_append (value : List UInt8) {f : BytesWriter → Except BytesWriterError BytesWriter}
    {hfits : ∀ w : BytesWriter, ¬ w.remainingLen < len → w.current + value.length ≤ w.bytes.length}
    (hf : ∀ w, f w = if h : w.remainingLen < len then .error .tooShort
      else .ok (w.put value (hfits w h))) :
    (write f).Triple (Filled buf filled handles) (fun _ => Filled buf (filled ++ value) handles)
      (fun _ => True) := by
  refine triple_write fun w w' _ hw' => ?_
  rw [hf] at hw'
  split at hw'
  next => cases hw'
  next => exact ⟨_, (Except.ok.inj hw').symm⟩

/-- The padding of what was appended since the last word. -/
theorem triple_appendUntilAlignment {before bytes : List UInt8} (hword : before.length % 4 = 0) :
    (write (·.appendUntilAlignment 0 4 (by decide))).Triple (Filled buf (before ++ bytes) handles)
      (fun _ => Filled buf (before ++ padded bytes) handles) (fun _ => True) := by
  rw [padded, ← append_assoc]
  refine triple_write fun w w' hcurrent hw' => ?_
  have hpad : alignUp w.current 4 - w.current = alignUp bytes.length 4 - bytes.length := by
    rw [hcurrent, length_append, alignUp_four, alignUp_four]
    omega
  simp only [BytesWriter.appendUntilAlignment] at hw'
  split at hw'
  next => cases hw'
  next hroom =>
    have hle : w.current ≤ alignUp w.current 4 := le_alignUp (by decide)
    have hfits : w.current + (padding bytes.length).length ≤ w.bytes.length := by
      rw [length_padding, ← hpad]
      omega
    cases hw'
    refine ⟨hfits, ?_⟩
    simp only [hpad, padding]

/-! ## Serializing -/

/-- **An argument is appended.** -/
theorem triple_serializeArg (arg : Payload) (hword : filled.length % 4 = 0) :
    (serializeArg arg).Triple (Filled buf filled handles)
      (fun _ => Filled buf (filled ++ arg.encoding) (handles ++ arg.handles)) (fun _ => True) := by
  cases arg with
  | uint v | objectId v | newId v | int v =>
    simp only [Payload.handles, append_nil, serializeArg]
    exact triple_append _ fun _ => rfl
  | fixed v => exact triple_stop
  | handle v =>
    refine triple_update fun s hs => ?_
    rw [Payload.encoding, append_nil]
    exact ⟨hs.bytes, hs.le, hs.current, congrArg (· ++ [v]) hs.handles⟩
  | array bytes =>
    simp only [Payload.handles, append_nil, Payload.encoding]
    rw [← append_assoc]
    refine triple_bind (triple_append (word _) fun _ => rfl) fun _ => ?_
    refine triple_bind (triple_append bytes fun _ => rfl) fun _ => ?_
    refine triple_appendUntilAlignment ?_
    rw [length_append, length_word]
    omega
  | string value =>
    simp only [Payload.handles, append_nil, Payload.encoding, serializeArg]
    rw [← append_assoc]
    refine triple_ite (fun _ => triple_stop_bind) fun _ => ?_
    refine triple_bind (triple_append (word _) fun _ => rfl) fun _ => ?_
    refine triple_bind (triple_append (asBytes value) fun _ => rfl) fun _ => ?_
    refine triple_bind (triple_append [0] fun _ => rfl) fun _ => ?_
    rw [append_assoc _ (asBytes value)]
    refine triple_appendUntilAlignment ?_
    rw [length_append, length_word]
    omega

/-- **The arguments are appended**, one after the other. -/
theorem triple_serializeArgs (args : List Payload) (hword : filled.length % 4 = 0) :
    (serializeArgs args).Triple (Filled buf filled handles)
      (fun _ => Filled buf (filled ++ encodingOf args) (handles ++ handlesOf args))
      (fun _ => True) := by
  induction args generalizing filled handles with
  | nil =>
    rw [encodingOf, handlesOf, flatMap_nil, flatMap_nil, append_nil, append_nil]
    exact triple_pure fun _ hs => hs
  | cons arg args ih =>
    have hnext : (filled ++ arg.encoding).length % 4 = 0 := by
      have harg := length_encoding_mod arg
      rw [length_append]
      omega
    rw [encodingOf, handlesOf, flatMap_cons, flatMap_cons, ← append_assoc, ← append_assoc]
    exact triple_bind (triple_serializeArg arg hword) fun _ => ih hnext

theorem RawMessage.length_encoding (m : RawMessage) :
    m.encoding.length = 8 + (encodingOf m.args).length := by
  rw [encoding, length_append, length_append, length_word, length_word]

/-- The header gets its length last. -/
theorem Filled.writeLeU32 {sender old v : UInt32} {args : List UInt8}
    (h : Filled buf (word sender ++ word old ++ args) handles s)
    (hw : s.writer.writeLeU32 4 v = .ok w) :
    Filled buf (word sender ++ word v ++ args) handles { s with writer := w } := by
  have hlength : (word sender ++ word v ++ args).length =
      (word sender ++ word old ++ args).length := by
    simp
  simp only [BytesWriter.writeLeU32] at hw
  split at hw
  next => cases hw
  next =>
    cases hw
    refine ⟨?_, hlength ▸ h.le, h.current.trans hlength.symm, h.handles⟩
    have hinside : Overwrite.write (word sender ++ word old ++
          (args ++ buf.drop (word sender ++ word old ++ args).length)) (word sender).length (word v) =
        word sender ++ word v ++ (args ++ buf.drop (word sender ++ word old ++ args).length) :=
      Overwrite.write_inside ((length_word v).trans (length_word old).symm)
    rw [length_word] at hinside
    show Overwrite.write s.writer.bytes 4 (word v) = _
    rw [h.bytes, hlength, append_assoc _ args, hinside, append_assoc _ args]

/-- **Serializing leaves the encoding at the front of the buffer**, and
returns its length. -/
theorem serialize_spec (m : RawMessage) : m.serialize.Triple (Filled buf [] handles)
      (fun len s => len = m.encoding.length ∧
        Filled buf m.encoding (handles ++ handlesOf m.args) s) (fun _ => True) := by
  refine triple_bind (triple_append (word _) fun _ => rfl) fun _ => ?_
  refine triple_bind (triple_append (word _) fun _ => rfl) fun _ => ?_
  refine triple_state_bind fun start hstart => ?_
  have hargs : (serializeArgs m.args).Triple (Filled buf (word m.sender ++ word 0) handles)
      (fun _ => Filled buf (word m.sender ++ word 0 ++ encodingOf m.args)
        (handles ++ handlesOf m.args)) (fun _ => True) := triple_serializeArgs m.args (by simp)
  refine triple_bind (hargs.weaken (fun s hs => hs ▸ hstart) (fun _ _ h => h) fun _ h => h)
    fun _ => ?_
  refine triple_state_bind fun sink hsink => ?_
  -- what was appended since the header is what the writer has less left now
  have hlen : 8 + start.writer.remainingLen - sink.writer.remainingLen =
      8 + (encodingOf m.args).length := by
    have hle := hsink.le
    have hcurrent := hsink.current
    have hstart' := hstart.current
    simp only [nil_append, length_append, length_word] at hle hcurrent hstart'
    rw [BytesWriter.remainingLen, BytesWriter.remainingLen, hstart.length_bytes,
      hsink.length_bytes, hcurrent, hstart']
    omega
  rw [hlen]
  refine triple_bind (Q := fun _ => Filled buf m.encoding (handles ++ handlesOf m.args)) ?_
    fun _ => triple_pure fun s hs => ⟨m.length_encoding.symm, hs⟩
  refine triple_state_bind fun t ht => ?_
  obtain rfl := ht
  refine triple_lift_bind (fun _ _ => trivial) fun w hw => ?_
  refine triple_update fun t' ht' => ?_
  obtain rfl := ht'
  exact hsink.writeLeU32 hw

/-! ## Reading by what is left -/

structure Left where
  bytes : List UInt8
  handles : List Handle

/-- Reading from what is left, at the start of a word. -/
abbrev Parse := Call Panic Left DeserializeError

def firstWord (bytes : List UInt8) : UInt32 := ofNat (LittleEndian.decode (bytes.take 4))

def parseWord : Parse UInt32 := fun left =>
  if left.bytes.length < 4 then .ok (.error (.readerError .tooShort), left)
  else .ok (.ok (firstWord left.bytes), { left with bytes := left.bytes.drop 4 })

/-- A word is read as a signed number. -/
def parseInt : Parse Int32 := do return (← parseWord).toInt32

def parseHandle : Parse Handle := fun left =>
  match left.handles with
  | [] => .ok (.error .tooFewHandles, left)
  | handle :: handles => .ok (.ok handle, { left with handles := handles })

/-- Bytes are looked at. -/
def parseUpTo (len : Nat) : Parse (List UInt8) := fun left =>
  if left.bytes.length < len then .error .outOfBounds
  else .ok (.ok (left.bytes.take len), left)

/-- Bytes are left behind with their padding; or not at all, if there are
not so many. -/
def parsePadded (len : Nat) : Parse Unit := fun left =>
  if left.bytes.length < len then .ok (.ok (), left)
  else if left.bytes.length < alignUp len 4 then .ok (.error (.readerError .tooShort), left)
  else .ok (.ok (), { left with bytes := left.bytes.drop (alignUp len 4) })

theorem run_parseWord (left : Left) : parseWord.run left =
      if left.bytes.length < 4 then .ok (.error (.readerError .tooShort), left)
      else .ok (.ok (firstWord left.bytes), { left with bytes := left.bytes.drop 4 }) := rfl

theorem run_parseUpTo (len : Nat) (left : Left) : (parseUpTo len).run left =
      if left.bytes.length < len then .error .outOfBounds
      else .ok (.ok (left.bytes.take len), left) := rfl

theorem run_parsePadded (len : Nat) (left : Left) : (parsePadded len).run left =
      if left.bytes.length < len then .ok (.ok (), left)
      else if left.bytes.length < alignUp len 4 then .ok (.error (.readerError .tooShort), left)
      else .ok (.ok (), { left with bytes := left.bytes.drop (alignUp len 4) }) := rfl

/-- An argument is read. -/
def parseArg : PayloadType → Parse Payload
  | .uint => do return .uint (← parseWord)
  | .int => do return .int (← parseInt)
  | .fixed => .stop .unimplemented
  | .objectId => do return .objectId (← parseWord)
  | .newId => do return .newId (← parseWord)
  | .handle => do return .handle (← parseHandle)
  | .array => do
    let len ← parseWord
    let array ← parseUpTo len.toNat
    parsePadded len.toNat
    return .array array
  | .string => do
    let len ← parseWord
    if len.toNat < 1 then .fail .nonTerminatedString
    let bytes ← parseUpTo (len.toNat - 1)
    let string ← .lift (fromUtf8 bytes)
    parsePadded len.toNat
    return .string string

/-- Arguments are read. -/
def parseArgs : List PayloadType → Parse (List Payload)
  | [] => pure []
  | argType :: argTypes => do
    let arg ← parseArg argType
    let args ← parseArgs argTypes
    return arg :: args

/-- A source at the start of a word has this left. -/
structure AtWord (source : Source) (left : Left) : Prop where
  bytes : source.reader.remaining = left.bytes
  aligned : source.reader.current % 4 = 0
  handles : source.handles = left.handles

def SameError (err : DeserializeError) (_ : Source) (err' : DeserializeError) (_ : Left) : Prop :=
  err = err'

/-- **The reader reads what is left**: calls from sources at a word end
alike, and stop alike. -/
abbrev Reads {α : Type} (m : Deserialize α) (m' : Parse α) : Prop :=
  Simulates AtWord AtWord SameError (fun _ => False) m m'

/-- Calls that end alike from every source at a word. -/
theorem Reads.of_run {α : Type} {m : Deserialize α} {m' : Parse α}
    (h : ∀ source left, AtWord source left →
      Matches AtWord SameError (fun _ => False) (m.run source) (m'.run left)) : Reads m m' :=
  ⟨h, fun _ h => h.elim⟩

variable {source : Source} {left : Left} {reader : BytesReader}

theorem run_consume_ok {α : Type} {f : BytesReader → Except BytesReaderError (α × BytesReader)}
    {a : α} (h : f source.reader = .ok (a, reader)) :
    (consume f).run source = .ok (.ok a, { source with reader := reader }) := by
  simp [consume, run_bind, h, Except.mapError]

theorem run_consume_error {α : Type} {f : BytesReader → Except BytesReaderError (α × BytesReader)}
    {err : BytesReaderError} (h : f source.reader = .error err) :
    (consume f).run source = .ok (.error (.readerError err), source) := by
  simp [consume, run_bind, h, Except.mapError]

theorem run_move_ok {f : BytesReader → Except BytesReaderError BytesReader}
    (h : f source.reader = .ok reader) :
    (move f).run source = .ok (.ok (), { source with reader := reader }) := by
  simp [move, run_bind, h, Except.mapError]

theorem run_move_error {f : BytesReader → Except BytesReaderError BytesReader}
    {err : BytesReaderError} (h : f source.reader = .error err) :
    (move f).run source = .ok (.error (.readerError err), source) := by
  simp [move, run_bind, h, Except.mapError]

theorem AtWord.remainingLen (h : AtWord source left) :
    source.reader.remainingLen = left.bytes.length := by
  rw [← h.bytes, BytesReader.remaining, length_drop, BytesReader.remainingLen]

/-- The source behind some words. -/
theorem AtWord.advance (h : AtWord source left) {n : Nat} (hn : n % 4 = 0)
    (hle : source.reader.current + n ≤ source.reader.bytes.length) :
    AtWord { source with reader := ⟨source.reader.bytes, source.reader.current + n, hle⟩ }
      { left with bytes := left.bytes.drop n } where
  bytes := by
    show source.reader.bytes.drop (source.reader.current + n) = left.bytes.drop n
    rw [← h.bytes, remaining, drop_drop]
  aligned := by
    have haligned := h.aligned
    show (source.reader.current + n) % 4 = 0
    omega
  handles := h.handles

theorem consumeLeU32_of_lt {r : BytesReader} (h : r.remainingLen < 4) :
    r.consumeLeU32 = .error .tooShort := by
  rw [consumeLeU32, dif_pos h]

theorem consumeLeU32_of_le {r : BytesReader} (h : 4 ≤ r.remainingLen) :
    r.consumeLeU32 = .ok (firstWord r.remaining,
      ⟨r.bytes, r.current + 4, by unfold remainingLen at h; omega⟩) := by
  rw [consumeLeU32, dif_neg (Nat.not_lt.2 h)]
  rfl

theorem reads_consumeLeU32 : Reads (consume (·.consumeLeU32)) parseWord := by
  refine .of_run fun source left h => ?_
  have hlen := h.remainingLen
  by_cases hshort : left.bytes.length < 4
  · rw [run_consume_error (consumeLeU32_of_lt (by omega)), run_parseWord, if_pos hshort]
    exact .error rfl
  · rw [run_consume_ok (consumeLeU32_of_le (by omega)), run_parseWord, if_neg hshort, h.bytes]
    exact .value (h.advance rfl _)

/-- A signed number is the word, read as one. -/
theorem consume_consumeLeI32 :
    consume (·.consumeLeI32) = do return (← consume (·.consumeLeU32)).toInt32 := by
  funext source
  show (consume (·.consumeLeI32)).run source = run _ source
  by_cases hshort : source.reader.remainingLen < 4
  · have herror : source.reader.consumeLeI32 = .error .tooShort := dif_pos hshort
    rw [run_consume_error herror, run_bind, run_consume_error (consumeLeU32_of_lt hshort)]
  · have hok : source.reader.consumeLeI32 = .ok ((firstWord source.reader.remaining).toInt32, _) :=
      dif_neg hshort
    rw [run_consume_ok hok, run_bind, run_consume_ok (consumeLeU32_of_le (Nat.not_lt.1 hshort))]
    rfl

theorem reads_consumeLeI32 : Reads (consume (·.consumeLeI32)) parseInt := by
  rw [consume_consumeLeI32]
  exact reads_consumeLeU32.bind fun v => .pure v.toInt32

theorem reads_nextHandle : Reads nextHandle parseHandle := by
  refine .of_run fun source left h => ?_
  have hhandles := h.handles
  cases hleft : left.handles with
  | nil =>
    simp only [nextHandle, run_bind, run_state, hhandles]
    simp only [parseHandle, run, hleft]
    exact .error rfl
  | cons handle handles =>
    simp only [nextHandle, run_bind, run_state, hhandles]
    simp only [parseHandle, run, hleft]
    exact .value ⟨h.bytes, h.aligned, rfl⟩

theorem reads_remainingUpTo (len : Nat) : Reads (remainingUpTo len) (parseUpTo len) := by
  refine .of_run fun source left h => ?_
  by_cases hshort : left.bytes.length < len
  · simp only [remainingUpTo, run_bind, run_state, h.bytes, if_pos hshort, run_stop]
    rw [run_parseUpTo, if_pos hshort]
    exact .stop trivial
  · simp only [remainingUpTo, run_bind, run_state, h.bytes, if_neg hshort, run_pure]
    rw [run_parseUpTo, if_neg hshort]
    exact .value h

/-- **What is skipped is skipped with its padding**, since it began at a
word; a skip that fails leaves the reader at its word. -/
theorem reads_skipPadded (len : Nat) : Reads (skipPadded len) (parsePadded len) := by
  refine .of_run fun source left h => ?_
  have hlen := h.remainingLen
  have haligned := h.aligned
  have hle := source.reader.current_le
  unfold remainingLen at hlen
  by_cases hshort : left.bytes.length < len
  · have hskip : source.reader.skip len = .error .tooShort := by
      rw [skip, dif_pos (by omega)]
    have halign : alignUp source.reader.current 4 = source.reader.current := by
      rw [alignUp_four]
      omega
    have hmove : source.reader.skipUntilAlignment 4 = .ok source.reader := by
      rw [skipUntilAlignment, dif_neg (by omega)]
      simp only [halign]
    simp only [skipPadded, run_bind, skipUnchecked, run_update, hskip]
    rw [run_move_ok hmove]
    rw [run_parsePadded, if_pos hshort]
    exact .value h
  · have hskip : source.reader.skip len =
        .ok ⟨source.reader.bytes, source.reader.current + len, by omega⟩ := by
      rw [skip, dif_neg (by omega)]
    have halign : alignUp (source.reader.current + len) 4 =
        source.reader.current + alignUp len 4 := by
      rw [alignUp_four, alignUp_four]
      omega
    simp only [skipPadded, run_bind, skipUnchecked, run_update, hskip]
    by_cases hpad : left.bytes.length < alignUp len 4
    · have hmove : skipUntilAlignment
          ⟨source.reader.bytes, source.reader.current + len, by omega⟩ 4 = .error .tooShort := by
        rw [skipUntilAlignment, dif_pos (by simp only [halign]; omega)]
      rw [run_move_error hmove, run_parsePadded, if_neg hshort, if_pos hpad]
      exact .error rfl
    · have hmove : skipUntilAlignment
          ⟨source.reader.bytes, source.reader.current + len, by omega⟩ 4 =
            .ok ⟨source.reader.bytes, source.reader.current + alignUp len 4, by omega⟩ := by
        rw [skipUntilAlignment, dif_neg (by simp only [halign]; omega)]
        simp only [halign]
      rw [run_move_ok hmove, run_parsePadded, if_neg hshort, if_neg hpad]
      refine .value (h.advance ?_ _)
      rw [alignUp_four]
      omega

/-- **An argument is read from what is left.** -/
theorem reads_deserializeArg (argType : PayloadType) :
    Reads (deserializeArg argType) (parseArg argType) := by
  cases argType with
  | uint => exact reads_consumeLeU32.bind fun v => .pure (Payload.uint v)
  | objectId => exact reads_consumeLeU32.bind fun v => .pure (Payload.objectId v)
  | newId => exact reads_consumeLeU32.bind fun v => .pure (Payload.newId v)
  | int => exact reads_consumeLeI32.bind fun v => .pure (Payload.int v)
  | fixed => exact .stop _ _
  | handle => exact reads_nextHandle.bind fun v => .pure (Payload.handle v)
  | array =>
    refine reads_consumeLeU32.bind fun len => ?_
    refine (reads_remainingUpTo _).bind fun array => ?_
    exact (reads_skipPadded _).bind fun _ => .pure (Payload.array array)
  | string =>
    refine reads_consumeLeU32.bind fun len => ?_
    refine .ite (.bind (J := AtWord) (.fail fun _ _ _ => rfl) fun _ => ?_) ?_
    -- the `if` ends before the rest, which follows both of its branches
    all_goals
      refine (reads_remainingUpTo _).bind fun bytes => ?_
      refine (Simulates.lift fun _ _ _ _ => rfl).bind fun string => ?_
      exact (reads_skipPadded _).bind fun _ => .pure (Payload.string string)

/-- **The arguments are read from what is left.** -/
theorem reads_deserializeArgs (argTypes : List PayloadType) :
    Reads (deserializeArgs argTypes) (parseArgs argTypes) := by
  induction argTypes with
  | nil => exact .pure []
  | cons argType argTypes ih =>
    exact (reads_deserializeArg argType).bind fun arg => ih.bind fun args => .pure (arg :: args)

/-! ## The round trip -/

theorem firstWord_word (v : UInt32) (rest : List UInt8) : firstWord (word v ++ rest) = v := by
  have hlt : v.toNat < LittleEndian.limit 4 := v.toNat_lt
  rw [firstWord, take_left' (length_word v), word, LittleEndian.decode_encode hlt,
    UInt32.ofNat_toNat]

theorem run_parseWord_word (v : UInt32) (rest : List UInt8) (hs : List Handle) :
    parseWord.run ⟨word v ++ rest, hs⟩ = .ok (.ok v, ⟨rest, hs⟩) := by
  rw [run_parseWord, if_neg (by simp), firstWord_word]
  simp

theorem run_parseUpTo_append (bytes rest : List UInt8) (hs : List Handle) :
    (parseUpTo bytes.length).run ⟨bytes ++ rest, hs⟩ = .ok (.ok bytes, ⟨bytes ++ rest, hs⟩) := by
  rw [run_parseUpTo, if_neg (by simp)]
  simp only [take_left]

theorem run_parsePadded_padded (bytes rest : List UInt8) (hs : List Handle) :
    (parsePadded bytes.length).run ⟨padded bytes ++ rest, hs⟩ = .ok (.ok (), ⟨rest, hs⟩) := by
  have hle : bytes.length ≤ alignUp bytes.length 4 := le_alignUp (by decide)
  have hlen : (padded bytes ++ rest).length = alignUp bytes.length 4 + rest.length := by
    rw [length_append, length_padded]
  rw [run_parsePadded, if_neg (by simp only [hlen]; omega), if_neg (by simp only [hlen]; omega)]
  simp only [drop_left' (length_padded bytes)]

theorem fromUtf8_asBytes (value : String) : fromUtf8 (asBytes value) = .ok value := by
  have hbytes : (asBytes value).toByteArray = value.toByteArray := by
    apply ByteArray.ext
    rw [data_toByteArray, asBytes, Array.toArray_toList]
  have hsome : String.fromUTF8? value.toByteArray = some value := by
    rw [String.fromUTF8?, dif_pos value.isValidUTF8]
    rfl
  rw [fromUtf8, hbytes, hsome]

/-- **An argument is read back**, whatever follows it, if its length is
that of a word. -/
theorem run_parseArg_encoding {arg : Payload} (hfixed : arg.type ≠ .fixed)
    (hlen : arg.encoding.length < 4294967296) (rest : List UInt8) (hs : List Handle) :
    (parseArg arg.type).run ⟨arg.encoding ++ rest, arg.handles ++ hs⟩ =
      .ok (.ok arg, ⟨rest, hs⟩) := by
  cases arg with
  | uint v | objectId v | newId v =>
    simp only [Payload.type, parseArg, run_bind, Payload.encoding, Payload.handles, nil_append,
      run_parseWord_word, run_pure]
  | int v =>
    simp only [Payload.type, parseArg, parseInt, run_bind, Payload.encoding, Payload.handles,
      nil_append, run_parseWord_word, run_pure, Int32.toInt32_toUInt32]
  | fixed v => exact absurd rfl hfixed
  | handle v => rfl
  | array bytes =>
    have hword : (ofNat bytes.length).toNat = bytes.length := by
      rw [Payload.encoding, length_append, length_padded] at hlen
      have hle : bytes.length ≤ alignUp bytes.length 4 := le_alignUp (by decide)
      exact toNat_ofNat_of_lt' (show bytes.length < 4294967296 by omega)
    have hupTo := run_parseUpTo_append bytes (padding bytes.length ++ rest) hs
    rw [← append_assoc, ← padded] at hupTo
    simp [Payload.type, parseArg, run_bind, Payload.encoding, Payload.handles, nil_append,
      append_assoc, run_parseWord_word, hword, hupTo, run_parsePadded_padded]
  | string value =>
    have hlt : (asBytes value).length + 1 < 4294967296 := by
      rw [Payload.encoding, length_append, length_padded, length_append, length_singleton] at hlen
      have hle : (asBytes value).length + 1 ≤ alignUp ((asBytes value).length + 1) 4 :=
        le_alignUp (by decide)
      omega
    have hword : (ofNat (asBytes value).length + 1).toNat = (asBytes value).length + 1 := by
      rw [UInt32.toNat_add, UInt32.toNat_ofNat_of_lt' (show _ < 4294967296 by omega)]
      exact Nat.mod_eq_of_lt hlt
    have hupTo := run_parseUpTo_append (asBytes value)
      ([0] ++ padding (asBytes value ++ [0]).length ++ rest) hs
    rw [← append_assoc, ← append_assoc, ← padded] at hupTo
    have hpadded := run_parsePadded_padded (asBytes value ++ [0]) rest hs
    rw [length_append, length_singleton] at hpadded
    have hpositive : ¬ (asBytes value).length + 1 < 1 := by omega
    simp only [Payload.type, parseArg, run_bind, Payload.encoding, Payload.handles, nil_append,
      append_assoc (word _), run_parseWord_word, hword, if_neg hpositive, Nat.add_sub_cancel,
      hupTo, run_lift, fromUtf8_asBytes, hpadded, run_pure]

/-- **The arguments are read back**, whatever follows them. -/
theorem run_parseArgs_encodingOf {args : List Payload} (hfixed : ∀ arg ∈ args, arg.type ≠ .fixed)
    (hlen : (encodingOf args).length < 4294967296) (rest : List UInt8) (hs : List Handle) :
    (parseArgs (args.map Payload.type)).run ⟨encodingOf args ++ rest, handlesOf args ++ hs⟩ =
      .ok (.ok args, ⟨rest, hs⟩) := by
  induction args with
  | nil => rfl
  | cons arg args ih =>
    have hcons : encodingOf (arg :: args) = arg.encoding ++ encodingOf args := flatMap_cons
    have hhandles : handlesOf (arg :: args) = arg.handles ++ handlesOf args := flatMap_cons
    rw [hcons, length_append] at hlen
    have harg := run_parseArg_encoding (hfixed arg mem_cons_self) (by omega)
    have hargs := ih (fun a ha => hfixed a (mem_cons_of_mem _ ha)) (by omega)
    rw [hcons, hhandles, append_assoc, append_assoc, map_cons, parseArgs, run_bind, harg]
    simp [run_bind, hargs]

/-! ## Headers -/

/-- **What the header of a message says.** -/
theorem deserializeHeader_eq (buf : List UInt8) : deserializeHeader buf =
      if buf.length < 8 then .error (.readerError .tooShort)
      else if (firstWord (buf.drop 4) >>> 16).toNat < 8 then .error .invalidLength
      else .ok (firstWord buf, (firstWord (buf.drop 4) &&& 0xffff).toUInt16) := by
  by_cases hfirst : buf.length < 4
  · rw [deserializeHeader, consumeLeU32_of_lt (r := .new buf) hfirst, if_pos (by omega)]
    rfl
  have hfour : 0 + 4 ≤ buf.length := by omega
  rw [deserializeHeader, consumeLeU32_of_le (r := .new buf) (Nat.not_lt.1 hfirst)]
  show ((consumeLeU32 ⟨buf, 0 + 4, hfour⟩).mapError DeserializeError.readerError >>=
    fun x => if (x.1 >>> 16).toNat < 8 then .error .invalidLength
      else .ok (firstWord buf, (x.1 &&& 0xffff).toUInt16)) = _
  by_cases hsecond : buf.length < 8
  · have hlt : remainingLen ⟨buf, 0 + 4, hfour⟩ < 4 := by
      show buf.length - (0 + 4) < 4
      omega
    rw [consumeLeU32_of_lt hlt, if_pos hsecond]
    rfl
  · have hle : 4 ≤ remainingLen ⟨buf, 0 + 4, hfour⟩ := by
      show 4 ≤ buf.length - (0 + 4)
      omega
    rw [consumeLeU32_of_le hle, if_neg hsecond]
    rfl

/-- The length and the opcode share a word. -/
theorem lengthWord_toNat (h : len < 65536) (opcode : Opcode) :
    (lengthWord len opcode).toNat = len * 65536 + opcode.toNat := by
  have hopcode : opcode.toNat < 65536 := opcode.toNat_lt
  have hor := shiftLeft_add_eq_or_of_lt (i := 16) (b := opcode.toNat) hopcode len
  rw [lengthWord, UInt32.toNat_or, UInt32.toNat_shiftLeft, UInt16.toNat_toUInt32,
    UInt32.toNat_ofNat_of_lt' (show len < 4294967296 by omega)]
  have hshift : len <<< 16 = len * 65536 := shiftLeft_eq len 16
  have hsmall : len <<< 16 % 4294967296 = len <<< 16 := mod_eq_of_lt (by omega)
  show len <<< 16 % 4294967296 ||| opcode.toNat = _
  rw [hsmall, ← hor, hshift]

theorem lengthWord_shiftRight (h : len < 65536) (opcode : Opcode) :
    (lengthWord len opcode >>> 16).toNat = len := by
  have hopcode : opcode.toNat < 65536 := opcode.toNat_lt
  have hword := lengthWord_toNat h opcode
  show (lengthWord len opcode).toNat >>> 16 = len
  omega

theorem lengthWord_and (h : len < 65536) (opcode : Opcode) :
    (lengthWord len opcode &&& 0xffff).toUInt16 = opcode := by
  have hopcode : opcode.toNat < 65536 := opcode.toNat_lt
  have hword := lengthWord_toNat h opcode
  have hand : (lengthWord len opcode).toNat &&& 65535 = (lengthWord len opcode).toNat % 65536 :=
    and_two_pow_sub_one_eq_mod _ 16
  apply UInt16.toNat_inj.1
  show ((lengthWord len opcode).toNat &&& 65535) % 65536 = opcode.toNat
  omega

/-! ## Messages -/

/-- A buffer behind its header. -/
theorem atWord_skip {buf : List UInt8} (h : 8 ≤ buf.length) (handles : List Handle) :
    ∃ reader, (new buf).skip 8 = .ok reader ∧ AtWord ⟨reader, handles⟩ ⟨buf.drop 8, handles⟩ := by
  refine ⟨⟨buf, 0 + 8, h⟩, ?_, rfl, show (0 + 8) % 4 = 0 by decide, rfl⟩
  have hroom : ¬ (new buf).current + 8 > (new buf).bytes.length := by
    show ¬ 0 + 8 > buf.length
    omega
  rw [skip, dif_neg hroom]
  rfl

/-- **A message with a good header is read like what is left behind the
header**: it is decoded, refused or stops the program as that does. -/
theorem deserialize_matches {buf : List UInt8} {sender : ObjectId} {opcode : Opcode}
    (hheader : deserializeHeader buf = .ok (sender, opcode)) (argTypes : List PayloadType)
    (handles : List Handle) : ∃ r, Matches AtWord SameError (fun _ => False) r
        ((parseArgs argTypes).run ⟨buf.drop 8, handles⟩) ∧ deserialize buf argTypes handles =
        r.map fun r => r.1.map fun args => ⟨sender, opcode, args⟩ := by
  have hlen : 8 ≤ buf.length := by
    by_contra hlt
    rw [deserializeHeader_eq, if_pos (by omega)] at hheader
    cases hheader
  obtain ⟨reader, hskip, hword⟩ := atWord_skip hlen handles
  refine ⟨_, (reads_deserializeArgs argTypes).run _ _ hword, ?_⟩
  simp only [deserialize, hheader, hskip]
  rcases (deserializeArgs argTypes).run ⟨reader, handles⟩ with panic | ⟨err | args, source⟩
  · rfl
  · rfl
  · rfl

/-- **A message is read back from its encoding.** -/
theorem deserialize_encoding {m : RawMessage} (hfixed : ∀ arg ∈ m.args, arg.type ≠ .fixed)
    (hlen : m.encoding.length < 65536) :
    deserialize m.encoding (m.args.map Payload.type) (handlesOf m.args) = .ok (.ok m) := by
  have hargs : 8 + (encodingOf m.args).length < 65536 := m.length_encoding ▸ hlen
  have hfirst : firstWord m.encoding = m.sender := by
    rw [RawMessage.encoding, append_assoc, firstWord_word]
  have hsecond : firstWord (m.encoding.drop 4) =
      lengthWord (8 + (encodingOf m.args).length) m.opcode := by
    rw [RawMessage.encoding, append_assoc, drop_left' (length_word _), firstWord_word]
  have hdrop : m.encoding.drop 8 = encodingOf m.args := by
    rw [RawMessage.encoding, drop_left' (by simp)]
  have hheader : deserializeHeader m.encoding = .ok (m.sender, m.opcode) := by
    rw [deserializeHeader_eq, hfirst, hsecond, lengthWord_shiftRight hargs, lengthWord_and hargs,
      m.length_encoding, if_neg (by omega), if_neg (by omega)]
  have hparse := run_parseArgs_encodingOf hfixed (by omega) [] []
  rw [append_nil, append_nil] at hparse
  obtain ⟨r, hmatches, hdeserialize⟩ :=
    deserialize_matches hheader (m.args.map Payload.type) (handlesOf m.args)
  rw [hdrop, hparse] at hmatches
  cases hmatches with
  | value _ => exact hdeserialize
  | stop hlost => exact hlost.elim

/-- **The round trip.** A message without fixed-point arguments that is
serialized into a buffer of fewer than 65536 bytes is read back from the
bytes written and the handles emitted, and the length in its header is
the number of the bytes written. -/
theorem deserialize_serialize {m : RawMessage} {buf : List UInt8} {handles : List Handle}
    {len : Nat} {sink : Sink} (hfixed : ∀ arg ∈ m.args, arg.type ≠ .fixed)
    (hbuf : buf.length < 65536)
    (hserialize : m.serialize.run ⟨BytesWriter.new buf, handles⟩ = .ok (.ok len, sink)) :
    ∃ emitted, sink.handles = handles ++ emitted ∧
      deserialize (sink.writer.bytes.take len) (m.args.map Payload.type) emitted = .ok (.ok m) ∧
      (firstWord (sink.writer.bytes.drop 4) >>> 16).toNat = sink.writer.current ∧
      len = sink.writer.current := by
  have hempty : Filled buf [] handles ⟨.new buf, handles⟩ :=
    ⟨rfl, zero_le _, rfl, rfl⟩
  obtain ⟨rfl, hfilled⟩ := serialize_spec m hempty hserialize
  have hlen : m.encoding.length < 65536 := Nat.lt_of_le_of_lt hfilled.le hbuf
  have hsecond : firstWord (sink.writer.bytes.drop 4) =
      lengthWord (8 + (encodingOf m.args).length) m.opcode := by
    rw [hfilled.bytes, RawMessage.encoding, append_assoc, append_assoc,
      drop_left' (length_word _), firstWord_word]
  refine ⟨handlesOf m.args, hfilled.handles, ?_, ?_, hfilled.current.symm⟩
  · rw [hfilled.bytes, take_left]
    exact deserialize_encoding hfixed hlen
  · rw [hsecond, hfilled.current, m.length_encoding,
      lengthWord_shiftRight (m.length_encoding ▸ hlen)]

/-- A message with a string, a handle and an array. -/
def sampleMessage : RawMessage where
  sender := 1
  opcode := 2
  args := [.string "hi", .handle 7, .array [1, 2, 3]]

/-- Its round trip, through a buffer of forty bytes. -/
theorem deserialize_sampleMessage :
    ∃ len sink, sampleMessage.serialize.run ⟨BytesWriter.new (replicate 40 255), []⟩ =
        .ok (.ok len, sink) ∧ ∃ emitted, sink.handles = [] ++ emitted ∧
        deserialize (sink.writer.bytes.take len) (sampleMessage.args.map Payload.type) emitted =
          .ok (.ok sampleMessage) ∧
        (firstWord (sink.writer.bytes.drop 4) >>> 16).toNat = sink.writer.current ∧
        len = sink.writer.current := by
  have hends : ((sampleMessage.serialize.run ⟨.new (.replicate 40 255), []⟩).toOption.any
        fun r => r.1.toOption.isSome) = true := by decide +kernel
  rcases hrun : sampleMessage.serialize.run ⟨.new (.replicate 40 255), []⟩ with
    panic | ⟨err | len, sink⟩
  · rw [hrun] at hends
    cases hends
  · rw [hrun] at hends
    cases hends
  · exact ⟨len, sink, rfl, deserialize_serialize (by decide) (by decide) hrun⟩

end Archives.Kazari
