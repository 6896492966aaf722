import Archives.Common.Machine
import Archives.Common.Ranges
import Archives.Ftl.Model.Kernel
/-!
# FTL — the map from address ranges to values

`libs/rust/ftl_utils/src/range_map.rs` and the part of
`kernel/src/vmspace.rs` that is built on it. The map keeps its entries
in the order they were inserted. A gap for `insert_anywhere` is searched
for in that order, from the end of one entry to the start of the next.

The keys are machine words, as `usize` and `UAddr` are. A subtraction
below zero is a panic; the additions of the search stay below the end of
the bounds.
-/

namespace Archives.Ftl

variable {V : Type}

structure RangeEntry (V : Type) where
  range : Range
  value : V
  deriving DecidableEq

structure RangeMap (V : Type) where
  entries : List (RangeEntry V)
  deriving DecidableEq

namespace RangeMap

def new : RangeMap V := ⟨[]⟩

variable (map : RangeMap V)

def overlapsWith (range : Range) : Bool :=
  map.entries.any fun e => decide (e.range.start < range.stop) && decide (range.start < e.range.stop)

/-- `RangeMap::insert`: the map with the new entry, or the value handed
back. -/
def insert (range : Range) (value : V) : Except V (RangeMap V) :=
  if range.stop ≤ range.start then .error value
  else if map.overlapsWith range then .error value
  else .ok ⟨map.entries ++ [⟨range, value⟩]⟩

/-- The loop of `find_space` and what follows it. `prevEnd` is where the
entry before stops, the start of the bounds at first. -/
def searchFrom (size : Nat) (within : Range) : Nat → List (RangeEntry V) → Except Stop (Option Range)
  | prevEnd, [] =>
    if prevEnd ≤ within.stop ∧ size ≤ within.stop - prevEnd then .ok (some ⟨prevEnd, prevEnd + size⟩)
    else .ok none
  | prevEnd, entry :: rest =>
    if ¬ within.contains entry.range.start then searchFrom size within prevEnd rest
    -- start - prev_end
    else if entry.range.start < prevEnd then .error .panic
    else if size ≤ entry.range.start - prevEnd ∧ prevEnd + size ≤ within.stop then
      .ok (some ⟨prevEnd, prevEnd + size⟩)
    else searchFrom size within entry.range.stop rest

def findSpace (size : Nat) (within : Range) : Except Stop (Option Range) :=
  if size = 0 then .ok none else searchFrom size within within.start map.entries

/-- What is done with the space found: the range and the map with the
new entry, or the value handed back. -/
def place (value : V) : Option Range → Except V (Range × RangeMap V)
  | some space => do
    let map' ← map.insert space value
    pure (space, map')
  | none => .error value

def insertAnywhere (size : Nat) (within : Range) (value : V) :
    Except Stop (Except V (Range × RangeMap V)) := do
  let space ← map.findSpace size within
  pure (map.place value space)

def get (key : Nat) : Option (RangeEntry V) :=
  map.entries.find? fun e => e.range.contains key

/-! ## Runs of calls -/

/-- The calls that change a map. -/
inductive Op (V : Type)
  | insert (range : Range) (value : V)
  | insertAnywhere (size : Nat) (within : Range) (value : V)

/-- The map after a call; no map after a panic. A call that fails leaves
the map as it is. -/
def perform : Op V → Option (RangeMap V)
  | .insert range value => some ((map.insert range value).toOption.getD map)
  | .insertAnywhere size within value =>
    (map.insertAnywhere size within value).toOption.map fun result =>
      (result.toOption.map Prod.snd).getD map

/-- A map and its calls, in any order. -/
def machine : Machine (RangeMap V) (Op V) := ⟨perform⟩

/-! ## What the map should do -/

/-- **The entries of a map**: no range is empty and no two have an
address in common. -/
structure WellFormed (map : RangeMap V) : Prop where
  nonempty : ∀ e ∈ map.entries, e.range.start < e.range.stop
  apart : map.entries.Pairwise fun e e' => e.range.Apart e'.range

/-- **A free gap**: a range of the size asked for, inside the bounds,
without an address of any entry. -/
structure Gap (map : RangeMap V) (size : Nat) (within range : Range) : Prop where
  length : range.stop = range.start + size
  inside : within.start ≤ range.start ∧ range.stop ≤ within.stop
  free : ∀ e ∈ map.entries, e.range.Apart range

/-- **A request served.** The call ends; it succeeds exactly when the
size is positive and there is a free gap of it, and then the range it
returns and adds to the map is one. -/
def Serves (size : Nat) (within : Range) (value : V) : Prop :=
  ∃ result, map.insertAnywhere size within value = .ok result ∧
    (result.isOk = true ↔ 0 < size ∧ ∃ range, map.Gap size within range) ∧
    ∀ range map', result = .ok (range, map') →
      map.Gap size within range ∧ map'.entries = map.entries ++ [⟨range, value⟩]

/-- **Entries in order, as seen from the bounds.** Those that start
inside the bounds were inserted in ascending order, and none that starts
below the bounds reaches into them. -/
structure InOrder (map : RangeMap V) (within : Range) : Prop where
  ascending : (map.entries.filter fun e => within.contains e.range.start).Pairwise
    fun e e' => e.range.start ≤ e'.range.start
  below : ∀ e ∈ map.entries, e.range.start < within.start → e.range.stop ≤ within.start

end RangeMap

/-! ## Address spaces -/

/-- `VmSpace`, as far as its areas go. -/
structure VmSpace (V : Type) where
  vmareas : RangeMap V

namespace VmSpace

def insertAt (space : VmSpace V) (range : Range) (mapping : V) : Except ErrorCode (VmSpace V) :=
  ((space.vmareas.insert range mapping).mapError fun _ => ErrorCode.outOfSpace).map VmSpace.mk

/-- `VmSpace::insert_anywhere`, with the bounds `UADDR_RANGE` of the
architecture. -/
def insertAnywhere (uaddrRange : Range) (space : VmSpace V) (len : Nat) (mapping : V) :
    Except Stop (Except ErrorCode (Range × VmSpace V)) :=
  (space.vmareas.insertAnywhere len uaddrRange mapping).map fun result =>
    (result.mapError fun _ => ErrorCode.outOfSpace).map fun found => (found.1, ⟨found.2⟩)

/-- The mapping part of `sys_vmspace_map`: the address it returns. -/
def map (uaddrRange : Range) (space : VmSpace V) (uaddr len : Nat) (mapping : V) :
    Except Stop (Except ErrorCode (Nat × VmSpace V)) :=
  if uaddr = 0 then
    (space.insertAnywhere uaddrRange len mapping).map fun result =>
      result.map fun found => (found.1.start, found.2)
  -- uaddr.add(len)
  else if 18446744073709551616 ≤ uaddr + len then .error .panic
  else .ok ((space.insertAt ⟨uaddr, uaddr + len⟩ mapping).map fun space' => (uaddr, space'))

/-- An address space and the calls that map areas. A call that fails
leaves it as it is; none follows a panic. -/
def machine (uaddrRange : Range) : Machine (VmSpace V) (Nat × Nat × V) where
  step space := fun (uaddr, len, mapping) =>
    (space.map uaddrRange uaddr len mapping).toOption.map fun result =>
      (result.toOption.map Prod.snd).getD space

end VmSpace

end Archives.Ftl
