import Archives.Common.Except
import Archives.Kazari.Model.Request
import Archives.Kazari.Wire
/-!
# Kazari — which messages stop the server

A client chooses the opcode of a message, the lengths of its arrays and
strings and the numbers of its enumerations, and the server uses them as
they come: to index its tables, to slice what is left of the message, to
match the variants. `decodeRequest_ends_iff` says which messages are
decoded or refused; every other one stops the server.
-/

namespace Archives.Kazari

open Call List Interface PayloadType

/-! ## Lengths -/

/-- **The lengths on the wire fit**: the length before an array is at
most the number of bytes that follow, and the length before a string at
most one more, as far as the arguments are there. A string that lacks
only its last byte is not skipped. -/
def LengthsFit : List PayloadType → List UInt8 → List Handle → Prop
  | [], _, _ => True
  | .fixed :: _, _, _ => False
  | .handle :: types, bytes, handles => handles ≠ [] → LengthsFit types bytes handles.tail
  | .uint :: types, bytes, handles | .int :: types, bytes, handles
  | .objectId :: types, bytes, handles | .newId :: types, bytes, handles =>
    4 ≤ bytes.length → LengthsFit types (bytes.drop 4) handles
  | .array :: types, bytes, handles =>
    4 ≤ bytes.length →
      (firstWord bytes).toNat ≤ (bytes.drop 4).length ∧
        (alignUp (firstWord bytes).toNat 4 ≤ (bytes.drop 4).length →
          LengthsFit types ((bytes.drop 4).drop (alignUp (firstWord bytes).toNat 4)) handles)
  | .string :: types, bytes, handles =>
    4 ≤ bytes.length → 1 ≤ (firstWord bytes).toNat →
      (firstWord bytes).toNat ≤ (bytes.drop 4).length + 1 ∧
        ((fromUtf8 ((bytes.drop 4).take ((firstWord bytes).toNat - 1))).toOption.isSome →
          if (firstWord bytes).toNat ≤ (bytes.drop 4).length then
            alignUp (firstWord bytes).toNat 4 ≤ (bytes.drop 4).length →
              LengthsFit types ((bytes.drop 4).drop (alignUp (firstWord bytes).toNat 4)) handles
          else LengthsFit types (bytes.drop 4) handles)

variable {types : List PayloadType} {bytes : List UInt8} {handles : List Handle}
  {type : PayloadType} {left left' : Left} {args : List Payload}

/-- A word, if it is there. -/
theorem ends_parseWord_bind {α : Type} (f : UInt32 → Parse α) :
    (parseWord >>= f).Ends ⟨bytes, handles⟩ ↔
      (4 ≤ bytes.length → (f (firstWord bytes)).Ends ⟨bytes.drop 4, handles⟩) := by
  unfold Ends
  rw [run_bind, run_parseWord]
  by_cases hshort : bytes.length < 4
  · rw [if_pos hshort]
    exact iff_of_true ⟨_, rfl⟩ fun hle => absurd hle (Nat.not_le.2 hshort)
  · rw [if_neg hshort, forall_prop_of_true (Nat.not_lt.1 hshort)]

/-- Bytes have to be there to be looked at. -/
theorem ends_parseUpTo_bind {α : Type} (len : Nat) (f : List UInt8 → Parse α) :
    (parseUpTo len >>= f).Ends ⟨bytes, handles⟩ ↔
      len ≤ bytes.length ∧ (f (bytes.take len)).Ends ⟨bytes, handles⟩ := by
  unfold Ends
  rw [run_bind, run_parseUpTo]
  by_cases hlong : bytes.length < len
  · rw [if_pos hlong]
    refine iff_of_false ?_ fun h => absurd h.1 (Nat.not_le.2 hlong)
    rintro ⟨r, hr⟩
    cases hr
  · rw [if_neg hlong, and_iff_right (Nat.not_lt.1 hlong)]

/-- What is left behind bytes with their padding, if they are there. -/
theorem ends_parsePadded_bind {α : Type} (len : Nat) (f : Unit → Parse α) :
    (parsePadded len >>= f).Ends ⟨bytes, handles⟩ ↔ if len ≤ bytes.length then
        alignUp len 4 ≤ bytes.length → (f ()).Ends ⟨bytes.drop (alignUp len 4), handles⟩
      else (f ()).Ends ⟨bytes, handles⟩ := by
  unfold Ends
  rw [run_bind, run_parsePadded]
  by_cases hcut : bytes.length < len
  · rw [if_pos hcut, if_neg (Nat.not_le.2 hcut)]
  rw [if_neg hcut, if_pos (Nat.not_lt.1 hcut)]
  by_cases hpad : bytes.length < alignUp len 4
  · rw [if_pos hpad]
    exact iff_of_true ⟨_, rfl⟩ fun hle => absurd hle (Nat.not_le.2 hpad)
  · rw [if_neg hpad, forall_prop_of_true (Nat.not_lt.1 hpad)]

/-- Arguments are read if the first one is, and the others from there. -/
theorem ends_parseArgs_cons (type : PayloadType) (left : Left) :
    (parseArgs (type :: types)).Ends left ↔
      (parseArg type >>= fun _ => parseArgs types).Ends left :=
  ends_bind_congr fun _ _ => ends_bind_pure

/-- **Arguments are read or refused exactly if their lengths fit.** -/
theorem ends_parseArgs_iff :
    (parseArgs types).Ends ⟨bytes, handles⟩ ↔ LengthsFit types bytes handles := by
  induction types generalizing bytes handles with
  | nil => exact iff_of_true (ends_of_run (run_pure _ _)) trivial
  | cons type types ih =>
    rw [ends_parseArgs_cons]
    cases type with
    | uint | objectId | newId | int =>
      simp only [parseArg, parseInt, bind_bind, bind_of_pure, ends_parseWord_bind, ih, LengthsFit]
    | fixed => exact iff_of_false (not_ends_of_run (run_stop _ _)) fun h => h
    | handle =>
      cases handles with
      | nil => exact iff_of_true ⟨_, rfl⟩ fun h => absurd rfl h
      | cons handle handles =>
        rw [LengthsFit, forall_prop_of_true (cons_ne_nil handle handles)]
        exact ih
    | array =>
      simp only [parseArg, bind_bind, bind_of_pure, ends_parseWord_bind, ends_parseUpTo_bind,
        ends_parsePadded_bind, ih, LengthsFit]
      refine imp_congr_right fun _ => and_congr_right fun hle => ?_
      rw [if_pos hle]
    | string =>
      simp only [parseArg, bind_bind, ends_parseWord_bind, LengthsFit]
      refine imp_congr_right fun _ => ?_
      by_cases hzero : (firstWord bytes).toNat < 1
      · rw [if_pos hzero]
        exact iff_of_true ⟨_, rfl⟩ fun hle => absurd hle (Nat.not_le.2 hzero)
      · rw [if_neg hzero, forall_prop_of_true (Nat.not_lt.1 hzero)]
        simp only [bind_bind, bind_of_pure, ends_parseUpTo_bind, ends_lift_bind,
          ends_parsePadded_bind, ih]
        refine and_congr (by omega) ?_
        cases fromUtf8 ((bytes.drop 4).take ((firstWord bytes).toNat - 1)) <;> simp [Except.toOption]

/-! ## Words -/

/-- An argument of one word. -/
def PayloadType.ofWord : PayloadType → UInt32 → Payload
  | .int, v => .int v.toInt32
  | .objectId, v => .objectId v
  | .newId, v => .newId v
  | _, v => .uint v

/-- The types whose arguments are one word. -/
def PayloadType.isWord : PayloadType → Bool
  | .uint | .int | .objectId | .newId => true
  | _ => false

/-- Arguments of one word each. -/
def wordArgs : List PayloadType → List UInt8 → List Payload
  | [], _ => []
  | type :: types, bytes => type.ofWord (firstWord bytes) :: wordArgs types (bytes.drop 4)

theorem run_parseArg_word (hword : type.isWord = true) (left : Left) : (parseArg type).run left =
      if left.bytes.length < 4 then .ok (.error (.readerError .tooShort), left)
      else .ok (.ok (type.ofWord (firstWord left.bytes)),
        { left with bytes := left.bytes.drop 4 }) := by
  by_cases hshort : left.bytes.length < 4
  · cases type with
    | uint | int | objectId | newId =>
      simp only [parseArg, parseInt, run_bind, run_parseWord, if_pos hshort]
    | fixed | handle | array | string => cases hword
  · cases type with
    | uint | int | objectId | newId =>
      simp [parseArg, parseInt, run_bind, run_parseWord, if_neg hshort, ofWord]
    | fixed | handle | array | string => cases hword

/-- **Words are read** if there are as many as there are types, and
refused otherwise. -/
theorem run_parseArgs_words (hwords : ∀ type ∈ types, type.isWord = true) (bytes : List UInt8)
    (handles : List Handle) : ∃ left, (parseArgs types).run ⟨bytes, handles⟩ = .ok
      (if 4 * types.length ≤ bytes.length then .ok (wordArgs types bytes)
        else .error (.readerError .tooShort), left) := by
  induction types generalizing bytes with
  | nil => exact ⟨_, rfl⟩
  | cons type types ih =>
    obtain ⟨left, hleft⟩ := ih (fun t ht => hwords t (mem_cons_of_mem _ ht)) (bytes.drop 4)
    rw [parseArgs, run_bind, run_parseArg_word (hwords type mem_cons_self), length_cons]
    by_cases hshort : bytes.length < 4
    · rw [if_pos hshort, if_neg (by omega)]
      exact ⟨_, rfl⟩
    · rw [length_drop] at hleft
      simp only [if_neg hshort, run_bind, hleft]
      by_cases hlen : 4 * types.length ≤ bytes.length - 4
      · rw [if_pos hlen, if_pos (by omega)]
        exact ⟨_, rfl⟩
      · rw [if_neg hlen, if_neg (by omega)]
        exact ⟨_, rfl⟩

/-- There are as many arguments as types. -/
theorem length_parseArgs (hrun : (parseArgs types).run left = .ok (.ok args, left')) :
    args.length = types.length := by
  induction types generalizing left args with
  | nil =>
    cases hrun
    rfl
  | cons type types ih =>
    obtain ⟨err, -, herr⟩ | ⟨arg, left'', -, hrest⟩ := run_bind_eq_ok.1 hrun
    · cases herr
    · obtain ⟨err, -, herr⟩ | ⟨args', left''', hargs, hpure⟩ := run_bind_eq_ok.1 hrest
      · cases herr
      · cases hpure
        rw [length_cons, length_cons, ih hargs]

/-! ## Fields -/

/-- A field that stands for a variant. -/
def FieldKind.isVariant : FieldKind → Bool
  | .variant _ _ => true
  | _ => false

theorem FieldKind.read_ends {kind : FieldKind} (h : kind.isVariant = false) (arg : Payload) :
    ∃ r, kind.read arg = .ok r := by
  cases kind with
  | payload type => exact ⟨_, rfl⟩
  | variant type numbers => cases h
  | object => cases arg <;> exact ⟨_, rfl⟩
  | optionalObject => cases arg <;> exact ⟨_, rfl⟩

/-- **Fields without variants are read or refused**, if there are
arguments for them. -/
theorem readFields_ends {fields : List Field} {i : Nat} (hlen : i + fields.length ≤ args.length)
    (hplain : ∀ field ∈ fields, field.kind.isVariant = false) :
    ∃ r, readFields args i fields = .ok r := by
  induction fields generalizing i with
  | nil => exact ⟨_, rfl⟩
  | cons field fields ih =>
    rw [length_cons] at hlen
    have hi : i < args.length := by omega
    obtain ⟨r, hr⟩ := FieldKind.read_ends (hplain field mem_cons_self) args[i]
    obtain ⟨rest, hrest⟩ := ih (i := i + 1) (by omega) fun f hf =>
      hplain f (mem_cons_of_mem _ hf)
    simp only [readFields, getElem?_eq_getElem hi, hr, hrest]
    rcases r with err | value
    · exact ⟨_, rfl⟩
    · rcases rest with err | values
      · exact ⟨_, rfl⟩
      · exact ⟨_, rfl⟩

/-! ## Messages -/

/-- **The numbers that stand for variants are known**: the format of a
new buffer, the transform of a surface, and the edges of a resize, the
last one unless the seat before it is null. -/
structure KnownNumbers (interface : Interface) (opcode : Opcode) (message : List UInt8) :
    Prop where
  format : interface = .wlShmPool → opcode = 1 → 32 ≤ message.length →
    firstWord (message.drop 28) ∈ shmFormats
  transform : interface = .wlSurface → opcode = 8 → 12 ≤ message.length →
    firstWord (message.drop 8) ∈ outputTransforms
  edges : interface = .xdgToplevel → opcode = 7 → 20 ≤ message.length →
    firstWord (message.drop 8) ≠ 0 → firstWord (message.drop 16) ∈ resizeEdges

/-- The request of an interface at an index has a variant. -/
def hasVariant (interface : Interface) (i : Nat) : Bool :=
  (interface = .wlShmPool && i = 0) || (interface = .wlSurface && i = 7) ||
    (interface = .xdgToplevel && i = 6)

/-- The tables at an index: no more fields than arguments, and variants
in the three requests only. -/
def tablesFit (interface : Interface) (i : Nat) : Bool :=
  match interface.requests[i]?, interface.payloadTypes[i]? with
  | some shape, some types =>
    shape.fields.length ≤ types.length &&
      (hasVariant interface i || shape.fields.all fun field => !field.kind.isVariant)
  | _, _ => true

theorem tablesFit_eq_true (interface : Interface) (i : Nat) : tablesFit interface i = true := by
  by_cases hi : i < 14
  · have hall : ∀ i < 14, tablesFit interface i = true := by cases interface <;> decide
    exact hall i hi
  · have hnone : interface.requests[i]? = none := by
      refine getElem?_eq_none ?_
      cases interface <;> simp only [requests, length_cons, length_nil] <;> omega
    simp only [tablesFit, hnone]

variable {interface : Interface} {opcode : Opcode} {sender : ObjectId} {message : List UInt8}
  {args : List Payload} {left : Left}

/-- Requests without variants are read or refused. -/
theorem fromRaw_ends_of_plain (hzero : opcode ≠ 0)
    (htypes : interface.payloadTypes[opcode.toNat - 1]? = some types)
    (hlen : args.length = types.length) (hplain : hasVariant interface (opcode.toNat - 1) = false) :
    ∃ r, interface.fromRaw ⟨sender, opcode, args⟩ = .ok r := by
  have hfit := tablesFit_eq_true interface (opcode.toNat - 1)
  rw [fromRaw, atOpcode, if_neg hzero]
  rcases hshape : interface.requests[opcode.toNat - 1]? with _ | shape
  · exact ⟨_, rfl⟩
  · simp only [tablesFit, hshape, htypes, hplain, Bool.false_or, Bool.and_eq_true,
      decide_eq_true_eq, all_eq_true, Bool.not_eq_true'] at hfit
    have hfields : 0 + shape.fields.length ≤ args.length := by omega
    obtain ⟨r, hr⟩ := readFields_ends hfields hfit.2
    simp only [hr]
    rcases r with err | fields
    · exact ⟨_, rfl⟩
    · exact ⟨_, rfl⟩

theorem fromRaw_createBuffer (sender : ObjectId) (bytes : List UInt8) : (∃ r, wlShmPool.fromRaw
        ⟨sender, 1, wordArgs [.newId, .int, .int, .int, .int, .uint] bytes⟩ = .ok r) ↔
      firstWord (bytes.drop 20) ∈ shmFormats := by
  by_cases hknown : firstWord (bytes.drop 20) ∈ shmFormats <;>
    simp [fromRaw, atOpcode, requests, readFields, wordArgs,
      FieldKind.read, ofWord, Payload.type, Payload.number, hknown]

theorem fromRaw_setBufferTransform (sender : ObjectId) (bytes : List UInt8) :
    (∃ r, wlSurface.fromRaw ⟨sender, 8, wordArgs [.int] bytes⟩ = .ok r) ↔
      firstWord bytes ∈ outputTransforms := by
  by_cases hknown : firstWord bytes ∈ outputTransforms <;>
    simp [fromRaw, atOpcode, requests, readFields, wordArgs,
      FieldKind.read, ofWord, Payload.type, Payload.number, hknown]

/-- `Resize` with its seat and its edges. -/
theorem fromRaw_resize (sender : ObjectId) (bytes : List UInt8) : (∃ r, xdgToplevel.fromRaw
        ⟨sender, 7, wordArgs [.objectId, .uint, .uint] bytes⟩ = .ok r) ↔
      (firstWord bytes ≠ 0 → firstWord (bytes.drop 8) ∈ resizeEdges) := by
  by_cases hnull : firstWord bytes = 0
  · simp [fromRaw, atOpcode, requests, readFields, wordArgs, FieldKind.read, ofWord, hnull]
  · by_cases hknown : firstWord (bytes.drop 8) ∈ resizeEdges <;>
      simp [fromRaw, atOpcode, requests, readFields, wordArgs,
        FieldKind.read, ofWord, Payload.type, Payload.number, hnull, hknown]

/-- The three requests with variants. -/
theorem hasVariant_cases (hzero : opcode ≠ 0) (h : hasVariant interface (opcode.toNat - 1) = true) :
    (interface = .wlShmPool ∧ opcode = 1) ∨ (interface = .wlSurface ∧ opcode = 8) ∨
      (interface = .xdgToplevel ∧ opcode = 7) := by
  have hpos : opcode.toNat ≠ 0 := fun hnat => hzero (UInt16.toNat_inj.1 hnat)
  simp only [hasVariant, Bool.or_eq_true, Bool.and_eq_true, decide_eq_true_eq] at h
  rcases h with (⟨hi, hop⟩ | ⟨hi, hop⟩) | ⟨hi, hop⟩
  · exact .inl ⟨hi, UInt16.toNat_inj.1 (show opcode.toNat = 1 by omega)⟩
  · exact .inr (.inl ⟨hi, UInt16.toNat_inj.1 (show opcode.toNat = 8 by omega)⟩)
  · exact .inr (.inr ⟨hi, UInt16.toNat_inj.1 (show opcode.toNat = 7 by omega)⟩)

/-- Other requests have no numbers to be known. -/
theorem knownNumbers_of_plain (h : hasVariant interface (opcode.toNat - 1) = false) :
    KnownNumbers interface opcode message := by
  refine ⟨?_, ?_, ?_⟩
  · rintro rfl rfl
    cases h
  · rintro rfl rfl
    cases h
  · rintro rfl rfl
    cases h

/-- **Decoded arguments become a request** or are refused exactly if
their numbers are known. -/
theorem fromRaw_ends_iff (hzero : opcode ≠ 0)
    (htypes : interface.payloadTypes[opcode.toNat - 1]? = some types)
    (hrun : (parseArgs types).run ⟨message.drop 8, handles⟩ = .ok (.ok args, left)) :
    (∃ r, interface.fromRaw ⟨sender, opcode, args⟩ = .ok r) ↔
      KnownNumbers interface opcode message := by
  rcases hvariant : hasVariant interface (opcode.toNat - 1) with _ | _
  · exact iff_of_true (fromRaw_ends_of_plain hzero htypes (length_parseArgs hrun) hvariant)
      (knownNumbers_of_plain hvariant)
  · -- the arguments of the three are words, so they are what the message has there
    have hargs (hwords : ∀ type ∈ types, type.isWord = true) :
        4 * types.length ≤ message.length - 8 ∧ args = wordArgs types (message.drop 8) := by
      obtain ⟨left', hleft⟩ := run_parseArgs_words hwords (message.drop 8) handles
      rw [hleft, length_drop] at hrun
      split at hrun
      next hlen =>
        cases hrun
        exact ⟨hlen, rfl⟩
      next => cases hrun
    rcases hasVariant_cases hzero hvariant with ⟨rfl, rfl⟩ | ⟨rfl, rfl⟩ | ⟨rfl, rfl⟩
    · cases htypes
      obtain ⟨hlen, rfl⟩ := hargs (by decide)
      rw [fromRaw_createBuffer, drop_drop]
      constructor
      · intro hknown
        exact ⟨fun _ _ _ => hknown, fun h => (by cases h), fun h => (by cases h)⟩
      · intro hknown
        exact hknown.format rfl rfl (by simp only [length_cons, length_nil] at hlen; omega)
    · cases htypes
      obtain ⟨hlen, rfl⟩ := hargs (by decide)
      rw [fromRaw_setBufferTransform]
      constructor
      · intro hknown
        exact ⟨fun h => (by cases h), fun _ _ _ => hknown, fun h => (by cases h)⟩
      · intro hknown
        exact hknown.transform rfl rfl (by simp only [length_cons, length_nil] at hlen; omega)
    · cases htypes
      obtain ⟨hlen, rfl⟩ := hargs (by decide)
      rw [fromRaw_resize, drop_drop]
      constructor
      · intro hknown
        exact ⟨fun h => (by cases h), fun h => (by cases h), fun _ _ _ => hknown⟩
      · intro hknown
        exact hknown.edges rfl rfl (by simp only [length_cons, length_nil] at hlen; omega)

/-- Refused arguments have no numbers to be known: the three requests are
refused only if they are too short. -/
theorem knownNumbers_of_error {err : DeserializeError} (hzero : opcode ≠ 0)
    (htypes : interface.payloadTypes[opcode.toNat - 1]? = some types)
    (hrun : (parseArgs types).run ⟨message.drop 8, handles⟩ = .ok (.error err, left)) :
    KnownNumbers interface opcode message := by
  have hshort (hwords : ∀ type ∈ types, type.isWord = true) :
      ¬ 4 * types.length ≤ message.length - 8 := by
    intro hlen
    obtain ⟨left', hleft⟩ := run_parseArgs_words hwords (message.drop 8) handles
    rw [hleft, length_drop, if_pos hlen] at hrun
    cases hrun
  refine ⟨?_, ?_, ?_⟩
  · rintro rfl rfl hlen
    cases htypes
    exact absurd (show 4 * 6 ≤ message.length - 8 by omega) (hshort (by decide))
  · rintro rfl rfl hlen
    cases htypes
    exact absurd (show 4 * 1 ≤ message.length - 8 by omega) (hshort (by decide))
  · rintro rfl rfl hlen
    cases htypes
    exact absurd (show 4 * 3 ≤ message.length - 8 by omega) (hshort (by decide))

/-- **A message to an object of an interface is decoded or refused**
exactly if its opcode is one of the interface, its lengths fit and its
numbers are known. -/
theorem asReceivedRequest_ends_iff (hheader : deserializeHeader message = .ok (sender, opcode)) :
    (∃ r, interface.asReceivedRequest opcode message handles = .ok r) ↔
      opcode ≠ 0 ∧ ∃ types, interface.payloadTypes[opcode.toNat - 1]? = some types ∧
        LengthsFit types (message.drop 8) handles ∧ KnownNumbers interface opcode message := by
  by_cases hzero : opcode = 0
  · rw [asReceivedRequest, if_pos hzero]
    refine iff_of_false ?_ fun h => h.1 hzero
    rintro ⟨r, hr⟩
    cases hr
  rw [asReceivedRequest, if_neg hzero, and_iff_right hzero]
  rcases htypes : interface.payloadTypes[opcode.toNat - 1]? with _ | types
  · refine iff_of_false ?_ ?_
    · rintro ⟨r, hr⟩
      cases hr
    · rintro ⟨types, htypes', -⟩
      cases htypes'
  simp only [Option.some.injEq, exists_eq_left']
  rw [← ends_parseArgs_iff]
  obtain ⟨r, hmatches, hdeserialize⟩ := deserialize_matches hheader types handles
  simp only [hdeserialize]
  rcases hparse : (parseArgs types).run ⟨message.drop 8, handles⟩ with panic | ⟨err | args, left⟩
  · -- a panic of the reader
    rw [hparse] at hmatches
    cases hmatches with
    | stop hlost =>
      refine iff_of_false ?_ fun h => not_ends_of_run hparse h.1
      rintro ⟨r, hr⟩
      cases hr
  · rw [hparse] at hmatches
    cases hmatches with
    | error herror =>
      exact iff_of_true ⟨_, rfl⟩ ⟨ends_of_run hparse, knownNumbers_of_error hzero htypes hparse⟩
    | stop hlost => exact hlost.elim
  · rw [hparse] at hmatches
    cases hmatches with
    | value hword =>
      rw [and_iff_right (ends_of_run hparse)]
      exact fromRaw_ends_iff hzero htypes hparse
    | stop hlost => exact hlost.elim

/-- **A message that does not stop the server**: if it has a whole header
with a length of at least that, and is from a known client and to one of
its objects, then its opcode is one of the object's interface, the
lengths of its arguments fit, and the numbers of variants are known. -/
def SafeToDecode (clients : Clients) (client : ClientId) (message : List UInt8)
    (handles : List Handle) : Prop :=
  ∀ objects interface, 8 ≤ message.length → 8 ≤ (firstWord (message.drop 4) >>> 16).toNat →
    clients client = some objects → objects (firstWord message) = some interface →
      (firstWord (message.drop 4) &&& 0xffff).toUInt16 ≠ 0 ∧
        ∃ types, interface.payloadTypes[
            (firstWord (message.drop 4) &&& 0xffff).toUInt16.toNat - 1]? = some types ∧
          LengthsFit types (message.drop 8) handles ∧
            KnownNumbers interface (firstWord (message.drop 4) &&& 0xffff).toUInt16 message

/-- **Which messages are decoded or refused**: those that are safe to
decode, and no others; every other one stops the server. -/
theorem decodeRequest_ends_iff (clients : Clients) (client : ClientId) (message : List UInt8)
    (handles : List Handle) : (∃ r, decodeRequest clients client message handles = .ok r) ↔
      SafeToDecode clients client message handles := by
  rw [decodeRequest, SafeToDecode]
  by_cases hshort : message.length < 8
  · rw [deserializeHeader_eq, if_pos hshort]
    exact iff_of_true ⟨_, rfl⟩ fun _ _ hlen => absurd hlen (by omega)
  by_cases hlen : (firstWord (message.drop 4) >>> 16).toNat < 8
  · rw [deserializeHeader_eq, if_neg hshort, if_pos hlen]
    exact iff_of_true ⟨_, rfl⟩ fun _ _ _ hle => absurd hle (by omega)
  have hheader : deserializeHeader message =
      .ok (firstWord message, (firstWord (message.drop 4) &&& 0xffff).toUInt16) := by
    rw [deserializeHeader_eq, if_neg hshort, if_neg hlen]
  simp only [hheader]
  rcases clients client with _ | objects
  · refine iff_of_true ⟨_, rfl⟩ ?_
    intro objects interface _ _ hobjects
    cases hobjects
  simp only
  rcases hobject : objects (firstWord message) with _ | interface
  · refine iff_of_true ⟨_, rfl⟩ ?_
    intro objects' interface _ _ hobjects hinterface
    cases hobjects
    rw [hobject] at hinterface
    cases hinterface
  have hmap (r : Decoded Request) :
      (∃ r', r.map (·.mapError ServerError.messageDeserializeError) = .ok r') ↔ ∃ r', r = .ok r' := by
    cases r with
    | error panic => simp [Except.map]
    | ok r => simp [Except.map]
  simp only [hmap]
  rw [asReceivedRequest_ends_iff hheader]
  constructor
  · intro h objects' interface' _ _ hobjects hinterface
    cases hobjects
    rw [hobject] at hinterface
    cases hinterface
    exact h
  · intro h
    exact h objects interface (by omega) (by omega) rfl hobject

/-! ## Three messages -/

/-- A client with its display and a pool. -/
def oneClient : Clients := fun _ => some fun id =>
  if id = 1 then some .wlDisplay else if id = 2 then some .wlShmPool else none

/-- **Three messages that stop the server**: one to the display with
opcode 0, one to the display with a string of a hundred bytes that are
not there, and one that makes a buffer of a format no one knows. -/
theorem not_ends_of_three_messages :
    decodeRequest oneClient 0 [1, 0, 0, 0, 0, 0, 8, 0] [] = .error .overflow ∧
      decodeRequest oneClient 0
        [1, 0, 0, 0, 3, 0, 20, 0, 1, 0, 0, 0, 0, 0, 0, 0, 100, 0, 0, 0] [] = .error .outOfBounds ∧
      decodeRequest oneClient 0
        [2, 0, 0, 0, 1, 0, 32, 0, 3, 0, 0, 0, 0, 0, 0, 0, 1, 0, 0, 0, 1, 0, 0, 0, 4, 0, 0, 0,
          2, 0, 0, 0] [] = .error .unreachable := by
  refine ⟨?_, ?_, ?_⟩
  · exact eq_error_of_errorOf (by decide +kernel)
  · exact eq_error_of_errorOf (by decide +kernel)
  · exact eq_error_of_errorOf (by decide +kernel)

end Archives.Kazari
