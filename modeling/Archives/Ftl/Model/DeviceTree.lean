import Archives.Common.BigEndian
import Archives.Common.Except
import Archives.Ftl.Model.Kernel
/-!
# FTL — the device tree parser

The parser of `libs/rust/dtb_parser`: a node iterator and a property
iterator over the words of the structure block. A `BE<u32>` is its four
bytes in memory. An index beyond a slice, an `unwrap` of an error and a
`push` to a full `ArrayVec` end the program; `NodeIter::next` moves on in
every round of its loop, so it always returns.

The format is given by its trees: `Level` is a list of sibling nodes with
everything below them and with the places where `FDT_NOP` tokens stand,
and `Level.encode` its words. A `Blob` is a whole tree with its strings
block.
-/

namespace Archives.Ftl.DeviceTree

open BigEndian

def fdtBeginNode : Nat := 1
def fdtEndNode : Nat := 2
def fdtProp : Nat := 3
def fdtNop : Nat := 4
def fdtEnd : Nat := 9

/-- `Error`, as far as the iterators and `Node::reg` return it. -/
inductive Error
  | unknownToken (token : Nat)
  | nodeNameOutOfBounds
  | propOutOfBounds
  | valueSizeNotAligned
  | valueSizeMismatch
  | missingParent
  deriving DecidableEq, Repr

def alignUp (value align : Nat) : Nat := (value + align - 1) / align * align

/-- A byte string literal. -/
def ascii (s : String) : List UInt8 := s.toList.map fun c => UInt8.ofNat c.toNat

/-- `Dtb`: the structure block and the strings block. -/
structure Dtb where
  structs : List Word
  strings : List UInt8

/-- `structs[index].get()`. -/
def Dtb.word (dtb : Dtb) (index : Nat) : Except Stop Nat :=
  match dtb.structs[index]? with
  | some w => .ok w.get
  | none => .error .panic

/-- The bytes of the structure block from a word on. -/
def Dtb.bytesFrom (dtb : Dtb) (index : Nat) : List UInt8 :=
  (dtb.structs.drop index).flatMap Word.bytes

/-! ## Properties -/

/-- `Prop`. -/
structure Property where
  name : List UInt8
  value : List UInt8
  deriving DecidableEq, Repr

variable (prop : Property)

def Property.asU32Array : Except Error (List Nat) :=
  if prop.value.length % 4 ≠ 0 then .error .valueSizeNotAligned
  else .ok ((words prop.value).map Word.get)

def Property.asU32 : Except Error Nat :=
  if prop.value.length ≠ 4 then .error .valueSizeMismatch
  else .ok (number prop.value)

/-- `PropIter::next`, with the index after it. -/
def PropIter.next (dtb : Dtb) (index : Nat) : Except Stop (Option (Property × Nat)) :=
  if dtb.structs.length ≤ index + 1 then .ok none
  else do
    let token ← dtb.word index
    if token ≠ fdtProp then return none
    let len ← dtb.word (index + 1)
    let nameoff ← dtb.word (index + 2)
    -- strings[nameoff..]
    if dtb.strings.length < nameoff then throw .panic
    let name := (dtb.strings.drop nameoff).takeWhile (· ≠ 0)
    let structRestBytes := dtb.bytesFrom (index + 3)
    -- struct_rest_bytes[..len]
    if structRestBytes.length < len then throw .panic
    return some (⟨name, structRestBytes.take len⟩, index + 3 + alignUp len 4 / 4)

/-- A loop over a `PropIter`, with at most `fuel` calls. -/
def PropIter.collect (dtb : Dtb) : Nat → Nat → Except Stop (List Property)
  | 0, _ => .error .hang
  | fuel + 1, index => do
    match ← PropIter.next dtb index with
    | none => return []
    | some (prop, index) => return prop :: (← collect dtb fuel index)

/-- All properties from an index on. -/
def Dtb.props (dtb : Dtb) (index : Nat) : Except Stop (List Property) :=
  PropIter.collect dtb (dtb.structs.length + 1) index

/-! ## Nodes -/

inductive Parent
  | bus (addressCells sizeCells : Nat) (isReservedMemory : Bool)
  | none
  deriving DecidableEq, Repr

/-- The cells of a bus. -/
def Parent.cells : Parent → Option (Nat × Nat)
  | .bus addressCells sizeCells _ => some (addressCells, sizeCells)
  | .none => Option.none

def findParentBus (parents : List Parent) : Except Error (Nat × Nat) :=
  match parents.reverse.findSome? Parent.cells with
  | some cells => .ok cells
  | none => .error .missingParent

structure Node where
  parents : List Parent
  name : List UInt8
  propsIndex : Nat
  deriving DecidableEq, Repr

/-- `Node::props`, all of them. -/
def Node.props (node : Node) (dtb : Dtb) : Except Stop (List Property) := dtb.props node.propsIndex

structure Reg where
  addr : BitVec 64
  size : BitVec 64
  deriving DecidableEq, Repr

/-- One of the loops of `Node::reg`: so many cells are read into a
number, with the cells that are left. -/
def readCells : Nat → List Nat → BitVec 64 → Except Stop (BitVec 64 × List Nat)
  | 0, cells, acc => .ok (acc, cells)
  -- u32_array[index]
  | _ + 1, [], _ => .error .panic
  | n + 1, cell :: cells, acc => readCells n cells (BitVec.ofNat 64 cell ||| acc <<< 32)

/-- What `Node::reg` does with the property and the cells. -/
def decodeReg (addressCells sizeCells : Nat) : Except Stop (Except Error (Option Reg)) :=
  match prop.asU32Array with
  | .error err => .ok (.error err)
  | .ok u32Array =>
    -- address_cells + size_cells
    if 4294967296 ≤ addressCells + sizeCells then .error .panic
    else if u32Array.length ≠ addressCells + sizeCells then .ok (.error .valueSizeMismatch)
    else do
      let (addr, rest) ← readCells addressCells u32Array 0
      let (size, _) ← readCells sizeCells rest 0
      return .ok (some ⟨addr, size⟩)

def Node.reg (node : Node) (dtb : Dtb) : Except Stop (Except Error (Option Reg)) := do
  match (← node.props dtb).find? fun prop => prop.name = ascii "reg" with
  | none => return .ok none
  | some prop =>
    match findParentBus node.parents with
    | .error err => return .error err
    | .ok (addressCells, sizeCells) => decodeReg prop addressCells sizeCells

structure NodeIter where
  parents : List Parent
  index : Nat
  deriving DecidableEq, Repr

/-- The capacity of `parents`. -/
def maxParents : Nat := 8

/-- The loop over a node's name: the length of the string that starts in
the first word. -/
def nameLength : List Word → Nat → Option Nat
  | [], _ => none
  | chars :: rest, nameLen =>
    let before := (chars.bytes.takeWhile (· ≠ 0)).length
    if before < 4 then some (nameLen + before) else nameLength rest (nameLen + before)

/-- The loop over a node's properties: the last `#address-cells` and the
last `#size-cells`. -/
def findCells : List Property → Option Nat × Option Nat → Except Stop (Option Nat × Option Nat)
  | [], cells => .ok cells
  | prop :: props, cells =>
    if prop.name = ascii "#address-cells" then
      match prop.asU32 with
      | .ok n => findCells props (some n, cells.2)
      -- unwrap
      | .error _ => .error .panic
    else if prop.name = ascii "#size-cells" then
      match prop.asU32 with
      | .ok n => findCells props (cells.1, some n)
      | .error _ => .error .panic
    else findCells props cells

/-- What a node is to its children. -/
def parentOf (name : List UInt8) : Option Nat × Option Nat → Parent
  | (some addressCells, some sizeCells) =>
    .bus addressCells sizeCells (name = ascii "reserved-memory")
  | _ => .none

/-- The arm of `NodeIter::next` for `FDT_BEGIN_NODE`. -/
def NodeIter.beginNode (dtb : Dtb) (iter : NodeIter) :
    Except Stop (Option (Except Error Node) × NodeIter) :=
  let nameIndex := iter.index + 1
  match nameLength (dtb.structs.drop nameIndex) 0 with
  | none => .ok (some (.error .nodeNameOutOfBounds), { iter with index := dtb.structs.length })
  | some nameLen => do
    let index := nameIndex + alignUp (nameLen + 1) 4 / 4
    let name := (dtb.bytesFrom nameIndex).take nameLen
    let cells ← findCells (← dtb.props index) (none, none)
    -- ArrayVec::push
    if maxParents ≤ iter.parents.length then throw .panic
    let parents := iter.parents ++ [parentOf name cells]
    return (some (.ok ⟨parents, name, index⟩), ⟨parents, index⟩)

def NodeIter.next (dtb : Dtb) (iter : NodeIter) :
    Except Stop (Option (Except Error Node) × NodeIter) :=
  if hin : iter.index < dtb.structs.length then
    let token := dtb.structs[iter.index].get
    if token = fdtBeginNode then iter.beginNode dtb
    else if token = fdtEndNode then next dtb ⟨iter.parents.dropLast, iter.index + 1⟩
    else if token = fdtProp then
      if hprop : dtb.structs.length ≤ iter.index + 2 then .ok (some (.error .propOutOfBounds), iter)
      else
        let len := dtb.structs[iter.index + 1].get
        next dtb ⟨iter.parents, iter.index + (3 + alignUp len 4 / 4)⟩
    else if token = fdtNop then next dtb ⟨iter.parents, iter.index + 1⟩
    else if token = fdtEnd then .ok (none, iter)
    else .ok (some (.error (.unknownToken token)), iter)
  else .ok (none, iter)
termination_by dtb.structs.length - iter.index
decreasing_by all_goals omega

/-- A loop over a `NodeIter` that gives up at an error, with at most
`fuel` calls. -/
def NodeIter.collect (dtb : Dtb) : Nat → NodeIter → Except Stop (List (Except Error Node))
  | 0, _ => .error .hang
  | fuel + 1, iter => do
    match ← iter.next dtb with
    | (none, _) => return []
    | (some (.error err), _) => return [.error err]
    | (some (.ok node), iter) => return .ok node :: (← collect dtb fuel iter)

/-- `Dtb::nodes`, all of them. -/
def Dtb.nodes (dtb : Dtb) : Except Stop (List (Except Error Node)) :=
  NodeIter.collect dtb (dtb.structs.length + 1) ⟨[], 0⟩

/-! ## The format -/

/-- A property in the structure block: the `FDT_NOP` tokens in front of
it and the offset of its name in the strings block. -/
structure Entry where
  nops : Nat
  nameoff : Nat
  property : Property
  deriving DecidableEq, Repr

/-- So many `FDT_NOP` tokens. -/
def nopWords (n : Nat) : List Word := List.replicate n (.ofNat fdtNop)

/-- The words of a property. -/
def Entry.encode (entry : Entry) : List Word :=
  nopWords entry.nops ++ .ofNat fdtProp :: .ofNat entry.property.value.length ::
    .ofNat entry.nameoff :: pad entry.property.value

/-- A property as the format has it: its length and the offset of its
name fit their fields, and the name is a string of the strings block. -/
structure Entry.Legal (strings : List UInt8) (entry : Entry) : Prop where
  length : entry.property.value.length < 4294967296
  offset : entry.nameoff < 4294967296
  noZero : (0 : UInt8) ∉ entry.property.name
  isName : entry.property.name ++ [0] <+: strings.drop entry.nameoff

/-- **Sibling nodes**, each with the `FDT_NOP` tokens in front of it, its
name, its properties, its children, and the `FDT_NOP` tokens in front of
its end. -/
inductive Level
  | nil
  | node (nops : Nat) (name : List UInt8) (entries : List Entry) (children : Level)
      (endNops : Nat) (next : Level)

namespace Level

/-- The words of nodes and everything below them. -/
def encode : Level → List Word
  | nil => []
  | node nops name entries children endNops next =>
    nopWords nops ++ .ofNat fdtBeginNode :: pad (name ++ [0]) ++ entries.flatMap Entry.encode ++
      children.encode ++ nopWords endNops ++ .ofNat fdtEndNode :: next.encode

/-- The nodes are as the format has them. -/
def Legal (strings : List UInt8) : Level → Prop
  | nil => True
  | node _ name entries children _ next =>
    (0 : UInt8) ∉ name ∧ (∀ entry ∈ entries, entry.Legal strings) ∧
      children.Legal strings ∧ next.Legal strings

/-- The nodes in document order, with their names and properties. -/
def document : Level → List (List UInt8 × List Property)
  | nil => []
  | node _ name entries children _ next =>
    (name, entries.map Entry.property) :: (children.document ++ next.document)

end Level

/-- A property that the node iterator reads itself. -/
def Property.IsCells : Prop :=
  prop.name = ascii "#address-cells" ∨ prop.name = ascii "#size-cells"
deriving Decidable

/-- The properties that the iterator gives: those in front of the first
`FDT_NOP`. -/
def visible (entries : List Entry) : List Property :=
  (entries.takeWhile fun entry => entry.nops = 0).map Entry.property

/-- **What the parser gets right**: no more than eight nodes are nested
(`depth` of them are already open), no `FDT_NOP` stands in front of a
property, and a property that gives a number of cells is a single word. -/
def Level.Readable : Level → Nat → Prop
  | .nil, _ => True
  | .node _ _ entries children _ next, depth =>
    depth < maxParents ∧
      (∀ entry ∈ entries, entry.nops = 0 ∧
        (entry.property.IsCells → entry.property.value.length = 4)) ∧
      children.Readable (depth + 1) ∧ next.Readable depth

/-- **A flattened device tree**: the root, the `FDT_NOP` tokens between it
and `FDT_END`, and the strings block. -/
structure Blob where
  nops : Nat
  name : List UInt8
  entries : List Entry
  children : Level
  endNops : Nat
  trailing : Nat
  strings : List UInt8
  legal : (Level.node nops name entries children endNops .nil).Legal strings

namespace Blob

def level (blob : Blob) : Level :=
  .node blob.nops blob.name blob.entries blob.children blob.endNops .nil

/-- What the parser is given. -/
def dtb (blob : Blob) : Dtb where
  structs := blob.level.encode ++ (nopWords blob.trailing ++ [.ofNat fdtEnd])
  strings := blob.strings

/-- **The tree is enumerated**: the iterator gives the nodes of the
document in their order, under their names, and then ends; and of each
node the property iterator gives the properties. -/
def Enumerates (blob : Blob) : Prop :=
  ∃ nodes : List Node, blob.dtb.nodes = .ok (nodes.map .ok) ∧
    List.Forall₂ (fun node shown => node.name = shown.1 ∧ node.props blob.dtb = .ok shown.2)
      nodes blob.level.document

end Blob

/-! ## Cells and `reg` -/

/-- The number in the last property of a name that is a single word. -/
def cellOf (name : List UInt8) (props : List Property) : Option Nat :=
  props.reverse.findSome? fun prop =>
    if prop.name = name ∧ prop.value.length = 4 then some (number prop.value) else none

/-- The cells that properties define for the children of their node, if
they define both. -/
def cellsOf (props : List Property) : Option (Nat × Nat) :=
  match cellOf (ascii "#address-cells") props, cellOf (ascii "#size-cells") props with
  | some addressCells, some sizeCells => some (addressCells, sizeCells)
  | _, _ => none

/-- The cells of the innermost node that defines them. -/
def nearestCells (path : List (List Property)) : Option (Nat × Nat) :=
  path.reverse.findSome? cellsOf

/-- Where a node stands: the properties of its proper ancestors, the root
first, and its own. -/
structure Place where
  ancestors : List (List Entry)
  entries : List Entry

/-- The places of the nodes in document order, below the given ancestors. -/
def Level.places : Level → List (List Entry) → List Place
  | .nil, _ => []
  | .node _ _ entries children _ next, ancestors =>
    ⟨ancestors, entries⟩ :: (children.places (ancestors ++ [entries]) ++ next.places ancestors)

namespace Place

/-- The first `reg` property. -/
def regProp (place : Place) : Option Property :=
  (place.entries.map Entry.property).find? fun prop => prop.name = ascii "reg"

/-- The cells of the nearest proper ancestor that defines them. -/
def cells (place : Place) : Option (Nat × Nat) :=
  nearestCells (place.ancestors.map (List.map Entry.property))

/-- The cells of the nearest of the node and its ancestors that defines
them in front of the first `FDT_NOP` among its properties. -/
def cellsSeen (place : Place) : Option (Nat × Nat) :=
  nearestCells ((place.ancestors ++ [place.entries]).map visible)

end Place

/-- **What a `reg` property stands for**: the address in the first cells
and the size in the others, as far as they fit into 64 bits. -/
def expectedReg (cells : Option (Nat × Nat)) (value : List UInt8) : Except Error (Option Reg) :=
  match cells with
  | none => .error .missingParent
  | some (addressCells, sizeCells) =>
    if value.length % 4 ≠ 0 then .error .valueSizeNotAligned
    else if value.length ≠ 4 * (addressCells + sizeCells) then .error .valueSizeMismatch
    else .ok (some ⟨BitVec.ofNat 64 (number (value.take (4 * addressCells))),
      BitVec.ofNat 64 (number (value.drop (4 * addressCells)))⟩)

/-- **A `reg` property is decoded with the cells of the nearest proper
ancestor that defines them**: those are the cells that the node takes, and
the result is the one they give. -/
def Node.DecodesReg (dtb : Dtb) (node : Node) (place : Place) : Prop :=
  ∀ prop, place.regProp = some prop →
    (findParentBus node.parents).toOption = place.cells ∧
      node.reg dtb = .ok (expectedReg place.cells prop.value)

/-- The nodes of the document are enumerated, and every `reg` property is
decoded. -/
def Blob.DecodesRegs (blob : Blob) : Prop :=
  ∃ nodes : List Node, blob.dtb.nodes = .ok (nodes.map .ok) ∧
    List.Forall₂ (Node.DecodesReg blob.dtb) nodes (blob.level.places [])

/-- The parser gets through a tree: no more than eight nodes are nested,
and a property that gives a number of cells is a single word unless it
stands behind an `FDT_NOP`. -/
def Level.Opens : Level → Nat → Prop
  | .nil, _ => True
  | .node _ _ entries children _ next, depth =>
    depth < maxParents ∧
      (∀ prop ∈ visible entries, prop.IsCells → prop.value.length = 4) ∧
      children.Opens (depth + 1) ∧ next.Opens depth

/-- **What `Node::reg` gets right**: the `reg` property stands in front of
the first `FDT_NOP`; neither the node itself nor an `FDT_NOP` makes a
difference to the cells; and their sum is a `u32`, or is not asked for. -/
structure Place.Decodable (place : Place) (prop : Property) : Prop where
  isSeen : (visible place.entries).find? (fun prop => prop.name = ascii "reg") = some prop
  cells : place.cellsSeen = place.cells
  sum : ∀ addressCells sizeCells, place.cells = some (addressCells, sizeCells) →
    prop.value.length % 4 = 0 → addressCells + sizeCells < 4294967296

end Archives.Ftl.DeviceTree
