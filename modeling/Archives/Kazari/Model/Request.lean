import Archives.Kazari.Model.Wire
/-!
# Kazari — requests of a client

`Server::process_message` up to the decoded request, with the interfaces
whose objects the server makes for its clients. The tables of
`src/wl/protocols/common` are generated: the types of the arguments by
opcode, the requests first and then the events, and for each request the
fields that its arguments become. A number of a request that stands for
a variant of an enumeration has to be one that the enumeration has.
-/

namespace Archives.Kazari

/-! ## Interfaces -/

/-- The interfaces of the objects a client can have. -/
inductive Interface
  | wlDisplay
  | wlRegistry
  | wlCallback
  | wlCompositor
  | wlShm
  | wlShmPool
  | wlBuffer
  | wlSurface
  | wlSeat
  | wlKeyboard
  | xdgWmBase
  | xdgSurface
  | xdgToplevel
  deriving DecidableEq, Repr

/-- The numbers of `wl_shm::Format`. -/
def shmFormats : List UInt32 :=
  [0, 1, 0x20203843, 0x38424752, 0x38524742, 0x32315258, 0x32314258, 0x32315852, 0x32315842,
    0x32315241, 0x32314241, 0x32314152, 0x32314142, 0x35315258, 0x35314258, 0x35315852, 0x35315842,
    0x35315241, 0x35314241, 0x35314152, 0x35314142, 0x36314752, 0x36314742, 0x34324752, 0x34324742,
    0x34324258, 0x34325852, 0x34325842, 0x34324241, 0x34324152, 0x34324142, 0x30335258, 0x30334258,
    0x30335852, 0x30335842, 0x30335241, 0x30334241, 0x30334152, 0x30334142, 0x56595559, 0x55595659,
    0x59565955, 0x59555956, 0x56555941, 0x3231564e, 0x3132564e, 0x3631564e, 0x3136564e, 0x39565559,
    0x39555659, 0x31315559, 0x31315659, 0x32315559, 0x32315659, 0x36315559, 0x36315659, 0x34325559,
    0x34325659, 0x20203852, 0x20363152, 0x38384752, 0x38385247, 0x32334752, 0x32335247, 0x48345258,
    0x48344258, 0x48345241, 0x48344241, 0x56555958, 0x34325556, 0x30335556, 0x30313259, 0x32313259,
    0x36313259, 0x30313459, 0x32313459, 0x36313459, 0x30335658, 0x36335658, 0x38345658, 0x304c3059,
    0x304c3058, 0x324c3059, 0x324c3058, 0x38305559, 0x30315559, 0x38415258, 0x38414258, 0x38415852,
    0x38415842, 0x38413852, 0x38413842, 0x38413552, 0x38413542, 0x3432564e, 0x3234564e, 0x30313250,
    0x30313050, 0x32313050, 0x36313050, 0x30314241, 0x3531564e, 0x30313451, 0x31303451]

/-- The numbers of `wl_output::Transform`. -/
def outputTransforms : List UInt32 := [0, 1, 2, 3, 4, 5, 6, 7]

/-- The numbers of `xdg_toplevel::ResizeEdge`. -/
def resizeEdges : List UInt32 := [0, 1, 2, 4, 5, 6, 8, 9, 10]

/-- How a field is made of an argument: `from_payload!`, also into an
enumeration, `from_object_payload!` and `from_optional_object_payload!`. -/
inductive FieldKind
  | payload (type : PayloadType)
  | variant (type : PayloadType) (numbers : List UInt32)
  | object
  | optionalObject

structure Field where
  name : String
  kind : FieldKind

structure RequestShape where
  name : String
  fields : List Field

namespace Interface

def payloadTypes : Interface → List (List PayloadType)
  | wlDisplay => [[.newId], [.newId], [.objectId, .uint, .string], [.uint]]
  | wlRegistry => [[.uint, .newId], [.uint, .string, .uint], [.uint]]
  | wlCallback => [[.uint]]
  | wlCompositor => [[.newId], [.newId]]
  | wlShm => [[.newId, .handle, .int], [.uint]]
  | wlShmPool => [[.newId, .int, .int, .int, .int, .uint], [], [.int]]
  | wlBuffer => [[], []]
  | wlSurface =>
    [[], [.objectId, .int, .int], [.int, .int, .int, .int], [.newId], [.objectId], [.objectId], [],
      [.int], [.int], [.int, .int, .int, .int], [.objectId], [.objectId]]
  | wlSeat => [[.newId], [.newId], [.newId], [], [.uint], [.string]]
  | wlKeyboard =>
    [[], [.uint, .handle, .uint], [.uint, .objectId, .array], [.uint, .objectId],
      [.uint, .uint, .uint, .uint], [.uint, .uint, .uint, .uint, .uint], [.int, .int]]
  | xdgWmBase => [[], [.newId], [.newId, .objectId], [.uint], [.uint]]
  | xdgSurface =>
    [[], [.newId], [.newId, .objectId, .objectId], [.int, .int, .int, .int], [.uint], [.uint]]
  | xdgToplevel =>
    [[], [.objectId], [.string], [.string], [.objectId, .uint, .int, .int], [.objectId, .uint],
      [.objectId, .uint, .uint], [.int, .int], [.int, .int], [], [], [.objectId], [], [],
      [.int, .int, .array], []]

/-- The requests, from opcode 1 on. -/
def requests : Interface → List RequestShape
  | wlDisplay =>
    [⟨"Sync", [⟨"callback", .payload .newId⟩]⟩,
      ⟨"GetRegistry", [⟨"registry", .payload .newId⟩]⟩]
  | wlRegistry => [⟨"Bind", [⟨"name", .payload .uint⟩, ⟨"id", .payload .newId⟩]⟩]
  | wlCallback => []
  | wlCompositor =>
    [⟨"CreateSurface", [⟨"id", .payload .newId⟩]⟩, ⟨"CreateRegion", [⟨"id", .payload .newId⟩]⟩]
  | wlShm =>
    [⟨"CreatePool", [⟨"id", .payload .newId⟩, ⟨"fd", .payload .handle⟩, ⟨"size", .payload .int⟩]⟩]
  | wlShmPool =>
    [⟨"CreateBuffer", [⟨"id", .payload .newId⟩, ⟨"offset", .payload .int⟩,
        ⟨"width", .payload .int⟩, ⟨"height", .payload .int⟩, ⟨"stride", .payload .int⟩,
        ⟨"format", .variant .uint shmFormats⟩]⟩,
      ⟨"Destroy", []⟩,
      ⟨"Resize", [⟨"size", .payload .int⟩]⟩]
  | wlBuffer => [⟨"Destroy", []⟩]
  | wlSurface =>
    [⟨"Destroy", []⟩,
      ⟨"Attach", [⟨"buffer", .optionalObject⟩, ⟨"x", .payload .int⟩, ⟨"y", .payload .int⟩]⟩,
      ⟨"Damage", [⟨"x", .payload .int⟩, ⟨"y", .payload .int⟩, ⟨"width", .payload .int⟩,
        ⟨"height", .payload .int⟩]⟩,
      ⟨"Frame", [⟨"callback", .payload .newId⟩]⟩,
      ⟨"SetOpaqueRegion", [⟨"region", .optionalObject⟩]⟩,
      ⟨"SetInputRegion", [⟨"region", .optionalObject⟩]⟩,
      ⟨"Commit", []⟩,
      ⟨"SetBufferTransform", [⟨"transform", .variant .int outputTransforms⟩]⟩,
      ⟨"SetBufferScale", [⟨"scale", .payload .int⟩]⟩,
      ⟨"DamageBuffer", [⟨"x", .payload .int⟩, ⟨"y", .payload .int⟩, ⟨"width", .payload .int⟩,
        ⟨"height", .payload .int⟩]⟩]
  | wlSeat =>
    [⟨"GetPointer", [⟨"id", .payload .newId⟩]⟩, ⟨"GetKeyboard", [⟨"id", .payload .newId⟩]⟩,
      ⟨"GetTouch", [⟨"id", .payload .newId⟩]⟩, ⟨"Release", []⟩]
  | wlKeyboard => [⟨"Release", []⟩]
  | xdgWmBase =>
    [⟨"Destroy", []⟩,
      ⟨"CreatePositioner", [⟨"id", .payload .newId⟩]⟩,
      ⟨"GetXdgSurface", [⟨"id", .payload .newId⟩, ⟨"surface", .object⟩]⟩,
      ⟨"Pong", [⟨"serial", .payload .uint⟩]⟩]
  | xdgSurface =>
    [⟨"Destroy", []⟩,
      ⟨"GetToplevel", [⟨"id", .payload .newId⟩]⟩,
      ⟨"GetPopup", [⟨"id", .payload .newId⟩, ⟨"parent", .optionalObject⟩,
        ⟨"positioner", .object⟩]⟩,
      ⟨"SetWindowGeometry", [⟨"x", .payload .int⟩, ⟨"y", .payload .int⟩, ⟨"width", .payload .int⟩,
        ⟨"height", .payload .int⟩]⟩,
      ⟨"AckConfigure", [⟨"serial", .payload .uint⟩]⟩]
  | xdgToplevel =>
    [⟨"Destroy", []⟩,
      ⟨"SetParent", [⟨"parent", .optionalObject⟩]⟩,
      ⟨"SetTitle", [⟨"title", .payload .string⟩]⟩,
      ⟨"SetAppId", [⟨"app_id", .payload .string⟩]⟩,
      ⟨"ShowWindowMenu", [⟨"seat", .object⟩, ⟨"serial", .payload .uint⟩, ⟨"x", .payload .int⟩,
        ⟨"y", .payload .int⟩]⟩,
      ⟨"Move", [⟨"seat", .object⟩, ⟨"serial", .payload .uint⟩]⟩,
      ⟨"Resize", [⟨"seat", .object⟩, ⟨"serial", .payload .uint⟩,
        ⟨"edges", .variant .uint resizeEdges⟩]⟩,
      ⟨"SetMaxSize", [⟨"width", .payload .int⟩, ⟨"height", .payload .int⟩]⟩,
      ⟨"SetMinSize", [⟨"width", .payload .int⟩, ⟨"height", .payload .int⟩]⟩,
      ⟨"SetMaximized", []⟩,
      ⟨"UnsetMaximized", []⟩,
      ⟨"SetFullscreen", [⟨"output", .optionalObject⟩]⟩,
      ⟨"UnsetFullscreen", []⟩,
      ⟨"SetMinimized", []⟩]

/-- The entry of a table for an opcode. -/
def atOpcode {α : Type} (table : List α) (opcode : Opcode) : Option α :=
  if opcode = 0 then none else table[opcode.toNat - 1]?

end Interface

/-! ## Decoding -/

/-- What a field is. -/
inductive Value
  | payload (value : Payload)
  | variant (number : UInt32)
  | object (id : Option ObjectId)
  deriving DecidableEq

structure Request where
  interface : Interface
  name : String
  fields : List (String × Value)
  deriving DecidableEq

/-- What decoding ends with. -/
abbrev Decoded (α : Type) := Except Panic (Except DeserializeError α)

/-- The number of an argument of one word. -/
def Payload.number : Payload → UInt32
  | uint value | objectId value | newId value => value
  | int value => value.toUInt32
  | _ => 0

/-- A field from its argument. -/
def FieldKind.read : FieldKind → Payload → Decoded Value
  | .payload type, arg =>
    .ok (if arg.type = type then .ok (.payload arg) else .error .unexpectedType)
  | .variant type numbers, arg =>
    if arg.type = type then
      if arg.number ∈ numbers then .ok (.ok (.variant arg.number)) else .error .unreachable
    else .ok (.error .unexpectedType)
  | .object, .objectId id =>
    .ok (if id = 0 then .error .objectIsNull else .ok (.object (some id)))
  | .object, _ => .ok (.error .unexpectedType)
  | .optionalObject, .objectId id => .ok (.ok (.object (if id = 0 then none else some id)))
  | .optionalObject, _ => .ok (.error .unexpectedType)

/-- The fields of a request, from the argument with index `i` on. -/
def readFields (args : List Payload) : Nat → List Field → Decoded (List (String × Value))
  | _, [] => .ok (.ok [])
  | i, field :: fields =>
    match args[i]? with
    | none => .error .outOfBounds
    | some arg =>
      match field.kind.read arg with
      | .error panic => .error panic
      | .ok (.error err) => .ok (.error err)
      | .ok (.ok value) =>
        match readFields args (i + 1) fields with
        | .error panic => .error panic
        | .ok (.error err) => .ok (.error err)
        | .ok (.ok values) => .ok (.ok ((field.name, value) :: values))

namespace Interface

def fromRaw (interface : Interface) (m : RawMessage) : Decoded Request :=
  match atOpcode interface.requests m.opcode with
  | none => .ok (.error .unknownOpcode)
  | some shape =>
    match readFields m.args 0 shape.fields with
    | .error panic => .error panic
    | .ok (.error err) => .ok (.error err)
    | .ok (.ok fields) => .ok (.ok ⟨interface, shape.name, fields⟩)

def asReceivedRequest (interface : Interface) (opcode : Opcode) (message : List UInt8)
    (handles : List Handle) : Decoded Request :=
  if opcode = 0 then .error .overflow
  else
    match interface.payloadTypes[opcode.toNat - 1]? with
    | none => .error .outOfBounds
    | some types =>
      match deserialize message types handles with
      | .error panic => .error panic
      | .ok (.error err) => .ok (.error err)
      | .ok (.ok raw) => interface.fromRaw raw

end Interface

abbrev ClientId := Int32

/-- `ServerError`, as far as the decoding of a request ends with it. -/
inductive ServerError
  | clientNotFound
  | messageDeserializeError (err : DeserializeError)
  | unknownObjectId (id : ObjectId)
  deriving DecidableEq, Repr

/-- The clients of a server, with the interfaces of their objects. -/
abbrev Clients := ClientId → Option (ObjectId → Option Interface)

/-- `process_message`, up to the decoded request. -/
def decodeRequest (clients : Clients) (client : ClientId) (message : List UInt8)
    (handles : List Handle) : Except Panic (Except ServerError Request) :=
  match deserializeHeader message with
  | .error err => .ok (.error (.messageDeserializeError err))
  | .ok (id, opcode) =>
    match clients client with
    | none => .ok (.error .clientNotFound)
    | some objects =>
      match objects id with
      | none => .ok (.error (.unknownObjectId id))
      | some interface =>
        (interface.asReceivedRequest opcode message handles).map
          (·.mapError .messageDeserializeError)

end Archives.Kazari
