import Archives.Common.Fuel
import Archives.Common.Marking
import Mathlib.Data.Finset.Card
import Mathlib.Data.Fintype.Basic
/-!
# ena — the value pool and its garbage collector

`gc.c` and `gc.h`. All objects of the interpreter live in one pool of
`ENA_MAX_NUM_VALUES` slots, `n` here. A slot's header holds the type of
its object and the mark bit; a header of zero is a free slot. The model
keeps the two parts of the header apart: `objects` gives the object in a
slot, if there is one, and `marks` the slots with the mark bit set.

The marking functions call each other without a bound, so each takes fuel
for the depth of its calls. A hash table is the list of its entries in
the order `ena_hash_foreach_value` visits them. What the collector never
looks at in an object, such as the number of an integer or the code of a
function, is one value of the type `D`.
-/

namespace Archives.Ena

open Prod

abbrev Ident := Nat

/-- `ena_value_t`, as an object holds it: the address of a slot, or a word
that is no address in the pool (a small integer, `null`, `true`, `false`,
undefined). -/
inductive Value (n : Nat)
  | immediate (word : Nat)
  | object (slot : Fin n)
  deriving DecidableEq

/-- `struct ena_object`: one constructor for each type an object in the
pool can have. -/
inductive Object (n : Nat) (D : Type)
  | int (data : D)
  | string (data : D)
  | func (data : D) (scope : Option (Fin n))
  | scope (vars : List (Ident × Value n)) (parent : Option (Fin n))
  | cls (methods : List (Ident × Value n))
  | instanceOf (cls props : Fin n)
  | map (entries : List (Value n × Value n))
  | list (elems : List (Value n))
  | module (next : Option (Fin n)) (scope : Fin n)
  | userdata (data : D)
  deriving DecidableEq

/-- The objects of the pool, by slot. -/
abbrev Objects (n : Nat) (D : Type) := Fin n → Option (Object n D)

/-- The slots with `OBJECT_FLAG_MARKED` set. -/
abbrev Marks (n : Nat) := Finset (Fin n)

/-- How the collector can fail to come back: the calls nest deeper than
the fuel allows, a pointer leads to an object of another type than the
code takes it for, or memory behind the pool is read. -/
inductive Fault
  | outOfFuel
  | typeConfusion
  | outOfPool
  deriving DecidableEq

variable {n : Nat} {D : Type}

/-! ## Marking -/

def markObject (i : Fin n) (m : Marks n) : Marks n := insert i m

def markHashWithValueValues {κ : Type} (mark : Value n → Marks n → Except Fault (Marks n))
    (table : List (κ × Value n)) (m : Marks n) : Except Fault (Marks n) :=
  table.foldlM (fun m entry => mark entry.2 m) m

def markHashWithValueKeys {κ : Type} (mark : Value n → Marks n → Except Fault (Marks n))
    (table : List (Value n × κ)) (m : Marks n) : Except Fault (Marks n) :=
  table.foldlM (fun m entry => mark entry.1 m) m

def markUserdata (userdata : Fin n) (m : Marks n) : Marks n := markObject userdata m

mutual

/-- `mark`: the switch has no case for `ENA_T_MODULE`. -/
def mark (objects : Objects n D) : Nat → Value n → Marks n → Except Fault (Marks n)
  | 0, _, _ => .error .outOfFuel
  | _ + 1, .immediate _, m => .ok m
  | k + 1, .object i, m =>
    if i ∈ m then .ok m
    else
      match objects i with
      | some (.int _) => .ok (markObject i m)
      | some (.string _) => .ok (markObject i m)
      | some (.func _ _) => markFunc objects k i m
      | some (.scope _ _) => markScope objects k i m
      | some (.cls _) => markClass objects k i m
      | some (.instanceOf _ _) => markInstance objects k i m
      | some (.map _) => markMap objects k i m
      | some (.list _) => markList objects k i m
      | some (.userdata _) => .ok (markUserdata i m)
      | some (.module _ _) => .ok m
      | none => .ok m

def markFunc (objects : Objects n D) : Nat → Fin n → Marks n → Except Fault (Marks n)
  | 0, _, _ => .error .outOfFuel
  | k + 1, func, m =>
    match objects func with
    | some (.func _ (some scope)) => markScope objects k scope (markObject func m)
    | some (.func _ none) => .ok (markObject func m)
    | _ => .error .typeConfusion

def markClass (objects : Objects n D) : Nat → Fin n → Marks n → Except Fault (Marks n)
  | 0, _, _ => .error .outOfFuel
  | k + 1, cls, m =>
    match objects cls with
    | some (.cls methods) => markHashWithValueValues (mark objects k) methods (markObject cls m)
    | _ => .error .typeConfusion

def markList (objects : Objects n D) : Nat → Fin n → Marks n → Except Fault (Marks n)
  | 0, _, _ => .error .outOfFuel
  | k + 1, list, m =>
    match objects list with
    | some (.list elems) => elems.foldlM (fun m elem => mark objects k elem m) (markObject list m)
    | _ => .error .typeConfusion

def markMap (objects : Objects n D) : Nat → Fin n → Marks n → Except Fault (Marks n)
  | 0, _, _ => .error .outOfFuel
  | k + 1, map, m =>
    match objects map with
    | some (.map entries) => do
      let m ← markHashWithValueKeys (mark objects k) entries (markObject map m)
      markHashWithValueValues (mark objects k) entries m
    | _ => .error .typeConfusion

/-- `mark_scope`: unlike `mark`, it does not look at the mark bit first. -/
def markScope (objects : Objects n D) : Nat → Fin n → Marks n → Except Fault (Marks n)
  | 0, _, _ => .error .outOfFuel
  | k + 1, scope, m =>
    match objects scope with
    | some (.scope vars (some parent)) => do
      let m ← markHashWithValueValues (mark objects k) vars (markObject scope m)
      markScope objects k parent m
    | some (.scope vars none) =>
      markHashWithValueValues (mark objects k) vars (markObject scope m)
    | _ => .error .typeConfusion

def markInstance (objects : Objects n D) : Nat → Fin n → Marks n → Except Fault (Marks n)
  | 0, _, _ => .error .outOfFuel
  | k + 1, inst, m =>
    match objects inst with
    | some (.instanceOf cls props) => do
      let m ← markClass objects k cls (markObject inst m)
      markScope objects k props m
    | _ => .error .typeConfusion

end

/-! ## The collector -/

/-- `sizeof(struct ena_object)`. -/
def objectSize : Nat := 40

/-- What `destroy` gives back besides the slot: the hash table of the
object, or the data of a userdata object, through its `free`. -/
inductive Release (n : Nat) (D : Type)
  | table (owner : Fin n)
  | userdata (data : D)
  deriving DecidableEq

/-- The part of `struct ena_vm` the collector works on, with the words
`arch_load_regs` finds in the registers and those between the stack
pointer and `stack_end`. -/
structure Vm (n : Nat) (D : Type) where
  valuePool : Nat
  objects : Objects n D
  marks : Marks n
  numFree : Nat
  modules : Option (Fin n)
  currentScope : Option (Fin n)
  currentClass : Option (Fin n)
  intClass : Fin n
  stringClass : Fin n
  listClass : Fin n
  mapClass : Fin n
  regs : List Nat
  stack : List Nat
  released : List (Release n D)

namespace Vm

variable (vm : Vm n D)

/-- `ena_is_in_heap`: the address just behind the pool passes as well. -/
def isInHeap (word : Nat) : Bool :=
  vm.valuePool ≤ word && word ≤ vm.valuePool + n * objectSize

variable (fuel : Nat)

/-- `mark`, on a word that is the address of a slot or of the end of the
pool; in the second case it reads a header that is not there. -/
def markWord (word : Nat) (m : Marks n) : Except Fault (Marks n) :=
  if h : (word - vm.valuePool) / objectSize < n then
    mark vm.objects fuel (.object ⟨(word - vm.valuePool) / objectSize, h⟩) m
  else .error .outOfPool

def tryMark (word : Nat) (m : Marks n) : Except Fault (Marks n) :=
  if vm.isInHeap word && (word - vm.valuePool) % objectSize == 0 then vm.markWord fuel word m
  else .ok m

def markRegs (m : Marks n) : Except Fault (Marks n) :=
  vm.regs.foldlM (fun m word => vm.tryMark fuel word m) m

def markStack (m : Marks n) : Except Fault (Marks n) :=
  vm.stack.foldlM (fun m word => vm.tryMark fuel word m) m

def markModule (module scope : Fin n) (m : Marks n) : Except Fault (Marks n) :=
  markScope vm.objects fuel scope (markObject module m)

/-- The loop of `ena_gc` over the registered modules. -/
def markModules (vm : Vm n D) : Nat → Option (Fin n) → Marks n → Except Fault (Marks n)
  | _, none, m => .ok m
  | 0, some _, _ => .error .outOfFuel
  | k + 1, some i, m =>
    match vm.objects i with
    | some (.module next scope) => do
      let m ← vm.markModule k i scope m
      vm.markModules k next m
    | _ => .error .typeConfusion

/-- A call `ena_gc` makes only when the pointer is not null. -/
def markUnlessNull (call : Fin n → Marks n → Except Fault (Marks n)) (pointer : Option (Fin n))
    (m : Marks n) : Except Fault (Marks n) :=
  pointer.elim (.ok m) fun i => call i m

/-- The marking half of `ena_gc`. -/
def markRoots : Except Fault (Marks n) := do
  let m ← vm.markRegs fuel vm.marks
  let m ← vm.markStack fuel m
  let m ← vm.markModules fuel vm.modules m
  let m ← markUnlessNull (markScope vm.objects fuel) vm.currentScope m
  let m ← markUnlessNull (markClass vm.objects fuel) vm.currentClass m
  let m ← markClass vm.objects fuel vm.intClass m
  let m ← markClass vm.objects fuel vm.stringClass m
  let m ← markClass vm.objects fuel vm.listClass m
  markClass vm.objects fuel vm.mapClass m

def destroy (i : Fin n) : Object n D → List (Release n D)
  | .scope _ _ => [.table i]
  | .cls _ => [.table i]
  | .map _ => [.table i]
  | .userdata data => [.userdata data]
  | _ => []

/-- The body of the loop in `sweep`. A free slot has neither a type nor a
mark; one with only the mark loses it again. -/
def sweepSlot (i : Fin n) : Vm n D :=
  if i ∈ vm.marks then { vm with marks := vm.marks.erase i }
  else
    match vm.objects i with
    | some obj =>
      { vm with
        objects := Function.update vm.objects i none
        numFree := vm.numFree + 1
        released := vm.released ++ destroy i obj }
    | none => vm

def sweep : Vm n D := (List.finRange n).foldl sweepSlot vm

def enaGc : Except Fault (Vm n D) := do
  let m ← vm.markRoots fuel
  return { vm with marks := m }.sweep

end Vm

/-! ## What may be collected

What an object refers to, what can be reached, and what a collection is
for. None of this is in the code. -/

namespace Object

/-- The values an object holds: list elements, map keys and values, scope
variables, methods. -/
def values : Object n D → List (Value n)
  | .scope vars _ => vars.map snd
  | .cls methods => methods.map snd
  | .map entries => entries.map fst ++ entries.map snd
  | .list elems => elems
  | _ => []

/-- The classes an object points to. -/
def classes : Object n D → List (Fin n)
  | .instanceOf c _ => [c]
  | _ => []

/-- The scopes an object points to: the scope of a function or a module,
the parent of a scope, the properties of an instance. -/
def scopes : Object n D → List (Fin n)
  | .func _ s => s.toList
  | .scope _ parent => parent.toList
  | .instanceOf _ props => [props]
  | .module _ s => [s]
  | _ => []

/-- The slots an object refers to. -/
def Refers (obj : Object n D) (j : Fin n) : Prop :=
  .object j ∈ obj.values ∨ j ∈ obj.classes ∨ j ∈ obj.scopes

end Object

namespace Vm

variable (vm : Vm n D) (i : Fin n)

/-- The slot holds an object. -/
def InUse : Prop := vm.objects i ≠ none

def IsScope : Prop := ∃ vars parent, vm.objects i = some (.scope vars parent)

def IsClass : Prop := ∃ methods, vm.objects i = some (.cls methods)

def IsModule : Prop := ∃ next scope, vm.objects i = some (.module next scope)

def freeSlots : Finset (Fin n) := Finset.univ.filter fun i => (vm.objects i).isNone

def address : Nat := vm.valuePool + i * objectSize

/-- The address just behind the pool. -/
def poolEnd : Nat := vm.valuePool + n * objectSize

/-- The words on the stack and in the registers. -/
def words : List Nat := vm.regs ++ vm.stack

def nextOf : Option (Fin n) :=
  match vm.objects i with
  | some (.module next _) => next
  | _ => none

def parentOf : Option (Fin n) :=
  match vm.objects i with
  | some (.scope _ parent) => parent
  | _ => none

/-- The module is on the list `vm->modules`. -/
def Registered : Prop := Marking.OnChain vm.nextOf vm.modules i

/-- The classes the interpreter itself needs. -/
def builtinClasses : List (Fin n) :=
  [vm.intClass, vm.stringClass, vm.listClass, vm.mapClass]

/-- **The roots.** -/
inductive IsRoot (vm : Vm n D) : Fin n → Prop
  | word {i : Fin n} : vm.address i ∈ vm.words → vm.InUse i → IsRoot vm i
  | module {i : Fin n} : vm.Registered i → IsRoot vm i
  | currentScope {i : Fin n} : vm.currentScope = some i → IsRoot vm i
  | currentClass {i : Fin n} : vm.currentClass = some i → IsRoot vm i
  | builtin {i : Fin n} : i ∈ vm.builtinClasses → IsRoot vm i

def Edge (i j : Fin n) : Prop := ∃ obj, vm.objects i = some obj ∧ obj.Refers j ∧ vm.InUse j

/-- **The object can be reached from a root.** -/
inductive Reachable (vm : Vm n D) : Fin n → Prop
  | root {i : Fin n} : vm.IsRoot i → Reachable vm i
  | edge {i j : Fin n} : Reachable vm i → vm.Edge i j → Reachable vm j

/-- **A heap as the interpreter leaves it between collections**: no mark
is set, `num_free` counts the free slots, and each pointer the code takes
for a scope, a class or a module leads to one. Only what can be reached
is asked about. -/
structure WellFormed (vm : Vm n D) : Prop where
  marks : vm.marks = ∅
  numFree : vm.numFree = vm.freeSlots.card
  scopes : ∀ i obj, vm.Reachable i → vm.objects i = some obj → ∀ s ∈ obj.scopes, vm.IsScope s
  classes : ∀ i obj, vm.Reachable i → vm.objects i = some obj → ∀ c ∈ obj.classes, vm.IsClass c
  modules : ∀ i, vm.Registered i → vm.IsModule i
  currentScope : ∀ s, vm.currentScope = some s → vm.IsScope s
  currentClass : ∀ c, vm.currentClass = some c → vm.IsClass c
  builtin : ∀ c ∈ vm.builtinClasses, vm.IsClass c

/-- What a collection leaves: the objects that can be reached, as they
were, and no other; no mark; and the count of the free slots. -/
structure Collected (vm vm' : Vm n D) : Prop where
  kept : ∀ i, vm.Reachable i → vm'.objects i = vm.objects i
  freed : ∀ i, ¬ vm.Reachable i → vm'.objects i = none
  marks : vm'.marks = ∅
  numFree : vm'.numFree = vm'.freeSlots.card

/-- **The collector does its work**: it comes back, and leaves what can be
reached. -/
def Collects : Prop := ∃ vm', Fuel.Returns vm.enaGc vm' ∧ vm.Collected vm'

/-- When it does: no word on the stack or in the registers is the address
behind the pool, the list of modules and the parents of each scope that
can be reached come to an end, and each module that can be reached is on
the list. -/
structure Collectable (vm : Vm n D) : Prop where
  words : vm.poolEnd ∉ vm.words
  modules : Marking.Ends vm.nextOf vm.modules
  parents : ∀ s, vm.Reachable s → vm.IsScope s → Marking.Ends vm.parentOf (some s)
  registered : ∀ i, vm.Reachable i → vm.IsModule i → vm.Registered i

end Vm

end Archives.Ena
