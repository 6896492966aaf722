import Archives.Common.Cells
import Archives.Common.Except
import Archives.Common.LittleEndian
import Archives.Kerla.Model.Vm
/-!
# Kerla — the initial user stack

`kernel/process/init_stack.rs`. The kernel writes the arguments, the
environment and the auxiliary vector of a new program downwards into
pages of its own, which are then mapped below the top of the user stack.
The program reads them upwards from its stack pointer, as the System V
ABI lays them out: that reading is `Startup.read`.

Strings are lists of bytes. Kernel memory is a function from addresses
to bytes, the pages of the stack among them.
-/

namespace Archives.Kerla

open UInt64

/-- The errors of the functions `execve` calls: those of the file
systems, and its own. -/
inductive ExecError
  | errno (errno : Errno)
  | e2big
  | enoexec
  | efault
  deriving DecidableEq, Repr

abbrev Bytes := List UInt8

/-- The size of a `usize`. -/
def usizeLen : Nat := 8

inductive Auxv
  | null
  | phdr (uaddr : UInt64)
  | phent (value : UInt64)
  | phnum (value : UInt64)
  | pagesz (value : UInt64)
  | random (values : { bytes : Bytes // bytes.length = 16 })
  deriving DecidableEq

namespace Auxv

def isRandom : Auxv → Bool
  | random _ => true
  | _ => false

/-- The data of an entry that stands in another place of the stack. -/
def data : Auxv → Bytes
  | random values => values
  | _ => []

/-- The type and the value of an entry. -/
def entry (dataPtr : Nat) : Auxv → Nat × Nat
  | null => (0, 0)
  | phdr uaddr => (3, uaddr.toNat)
  | phent value => (4, value.toNat)
  | phnum value => (5, value.toNat)
  | pagesz value => (6, value.toNat)
  | random _ => (25, dataPtr)

end Auxv

/-- The pages of a new stack, in the kernel and as the program will see
them: the user's addresses reach down from `userTop` as far as the pages
do. -/
structure StackRegion where
  userTop : Nat
  top : Nat
  bottom : Nat
  bottom_le : bottom ≤ top
  room : top - bottom ≤ userTop
  userTop_lt : userTop < usizeLimit

/-- A stack that is being written: the stack pointer and the memory. -/
structure InitStack where
  sp : Nat
  mem : Nat → UInt8

namespace InitStack

variable (r : StackRegion)

/-- The closure `kernel_sp_to_user_sp`. -/
def kernelSpToUserSp (sp : Nat) : Nat := r.userTop - (r.top - sp)

def pushBytesToStack (buf : Bytes) (s : InitStack) : Except ExecError InitStack :=
  if s.sp < r.bottom + buf.length then .error .e2big
  else .ok ⟨s.sp - buf.length, Cells.write s.mem (s.sp - buf.length) buf⟩

def pushUsizeToStack (value : Nat) (s : InitStack) : Except ExecError InitStack :=
  pushBytesToStack r (LittleEndian.encode usizeLen value) s

def pushAuxDataToStack (auxv : Auxv) (s : InitStack) : Except ExecError InitStack :=
  if auxv.isRandom then pushBytesToStack r auxv.data s else .ok s

/-- `push_auxv_entry_to_stack`. The pointer is used by the entry that
has data only. -/
def pushAuxvEntryToStack (auxv : Auxv) (dataPtr : Nat) (s : InitStack) :
    Except ExecError InitStack := do
  let s ← pushUsizeToStack r (auxv.entry dataPtr).2 s
  pushUsizeToStack r (auxv.entry dataPtr).1 s

/-- The loop that writes the data of the auxiliary vector. -/
def pushAuxData (r : StackRegion) : List Auxv → InitStack → Except ExecError (List Nat × InitStack)
  | [], s => .ok ([], s)
  | auxv :: rest, s => do
    let s ← pushAuxDataToStack r auxv s
    let (ptrs, s') ← pushAuxData r rest s
    pure (kernelSpToUserSp r s.sp :: ptrs, s')

/-- The loops that write the strings of the environment and of the
arguments. -/
def pushStrings (r : StackRegion) : List Bytes → InitStack → Except ExecError (List Nat × InitStack)
  | [], s => .ok ([], s)
  | str :: rest, s => do
    let s ← pushBytesToStack r [0] s
    let s ← pushBytesToStack r str s
    let (ptrs, s') ← pushStrings r rest s
    pure (kernelSpToUserSp r s.sp :: ptrs, s')

/-- The loop that pushes the entries of the auxiliary vector. -/
def pushAuxvEntries (r : StackRegion) : List (Auxv × Nat) → InitStack → Except ExecError InitStack
  | [], s => .ok s
  | (auxv, ptr) :: rest, s => do
    let s ← pushAuxvEntryToStack r auxv ptr s
    pushAuxvEntries r rest s

/-- The loops that push pointers. -/
def pushPtrs (r : StackRegion) : List Nat → InitStack → Except ExecError InitStack
  | [], s => .ok s
  | ptr :: rest, s => do
    let s ← pushUsizeToStack r ptr s
    pushPtrs r rest s

/-- The first half of `init_user_stack`: the data and the strings, with
the pointers to them. -/
def pushTables (argv envp : List Bytes) (auxv : List Auxv) (s : InitStack) :
    Except ExecError ((List Nat × List Nat × List Nat) × InitStack) := do
  let (auxvPtrs, s) ← pushAuxData r auxv.reverse s
  let (envpPtrs, s) ← pushStrings r envp s
  let (argvPtrs, s) ← pushStrings r argv.reverse s
  pure ((argvPtrs, envpPtrs, auxvPtrs), s)

/-- The second half of `init_user_stack`: the vectors and the number of
the arguments. -/
def pushVectors (argc : Nat) (argvPtrs envpPtrs auxvPtrs : List Nat)
    (auxv : List Auxv) (s : InitStack) : Except ExecError InitStack := do
  -- the length of the string table could be unaligned
  let s ← pushAuxvEntryToStack r .null 0 { s with sp := alignDown s.sp usizeLen }
  let s ← pushAuxvEntries r (auxv.zip auxvPtrs) s
  let s ← pushUsizeToStack r 0 s
  let s ← pushPtrs r envpPtrs s
  let s ← pushUsizeToStack r 0 s
  let s ← pushPtrs r argvPtrs s
  pushUsizeToStack r argc s

/-- `init_user_stack`: the user's stack pointer, and the memory after
it. -/
def initUserStack (argv envp : List Bytes) (auxv : List Auxv)
    (mem : Nat → UInt8) : Except ExecError (Nat × (Nat → UInt8)) := do
  let (ptrs, s) ← pushTables r argv envp auxv ⟨r.top, mem⟩
  let s ← pushVectors r argv.length ptrs.1 ptrs.2.1 ptrs.2.2 auxv s
  pure (kernelSpToUserSp r s.sp, s.mem)

/-- The length of a string table: every string with its NUL. -/
def tableLen (strs : List Bytes) : Nat := strs.foldl (fun l str => l + str.length + 1) 0

def estimateUserInitStackSize (argv envp : List Bytes) (auxv : List Auxv) : Nat :=
  let strLen := alignUp (tableLen argv + tableLen envp) usizeLen
  let auxDataLen := auxv.foldl (fun l aux => l + if aux.isRandom then 16 else 0) 0
  let ptrsLen := (2 * (1 + auxv.length) + argv.length + 1 + envp.length + 1 + 1) * usizeLen
  strLen + auxDataLen + ptrsLen

end InitStack

/-- What a program finds on its stack. -/
structure Startup where
  argc : Nat
  argv : List Bytes
  envp : List Bytes
  auxv : List Auxv
  deriving DecidableEq

namespace Startup

/-- The user's memory from an address to the top of the stack; nothing
can be read from an address below its pages. -/
def userBytes (r : StackRegion) (mem : Nat → UInt8) (uaddr : Nat) : Bytes :=
  if r.userTop - uaddr ≤ r.top - r.bottom then
    Cells.slice mem (r.top - (r.userTop - uaddr)) (r.userTop - uaddr)
  else []

/-- A string that ends with a NUL. -/
def readCStr : Bytes → Option Bytes
  | [] => none
  | b :: bytes => if b = 0 then some [] else (readCStr bytes).map (b :: ·)

/-- A vector of pointers that ends with a NULL, and what follows it. -/
def readVector : List Nat → Option (List Nat × List Nat)
  | [] => none
  | w :: words =>
    if w = 0 then some ([], words) else (readVector words).map fun v => (w :: v.1, v.2)

/-- The types and values of an auxiliary vector, which ends with an
`AT_NULL`. -/
def readAuxEntries : List Nat → Option (List (Nat × Nat))
  | type :: value :: words =>
    if type = 0 then some [] else (readAuxEntries words).map ((type, value) :: ·)
  | _ => none

/-- An entry of the auxiliary vector. `AT_RANDOM` points to 16 bytes. -/
def readAuxv (bytes : Nat → Bytes) : Nat × Nat → Option Auxv
  | (3, value) => some (.phdr (ofNat value))
  | (4, value) => some (.phent (ofNat value))
  | (5, value) => some (.phnum (ofNat value))
  | (6, value) => some (.pagesz (ofNat value))
  | (25, value) =>
    if h : ((bytes value).take 16).length = 16 then some (.random ⟨(bytes value).take 16, h⟩)
    else none
  | _ => none

/-- The vectors that follow the number of arguments. -/
def readVectors (bytes : Nat → Bytes) (argc : Nat) (words : List Nat) : Option Startup := do
  let argv ← readVector words
  let envp ← readVector argv.2
  let entries ← readAuxEntries envp.2
  let args ← argv.1.mapM fun ptr => readCStr (bytes ptr)
  let envs ← envp.1.mapM fun ptr => readCStr (bytes ptr)
  let auxv ← entries.mapM (readAuxv bytes)
  pure ⟨argc, args, envs, auxv⟩

/-- **What a program reads from its stack pointer on**: `argc`, the
argument pointers and a NULL, the environment pointers and a NULL, the
auxiliary vector. -/
def read (r : StackRegion) (mem : Nat → UInt8) (usp : Nat) : Option Startup :=
  let bytes := userBytes r mem usp
  match LittleEndian.decodeAll usizeLen (bytes.length / usizeLen) bytes with
  | [] => none
  | argc :: words => readVectors (userBytes r mem) argc words

/-- The program finds the arguments and the environment in the given
order, and the given entries of the auxiliary vector in some order. -/
def Finds (r : StackRegion) (mem : Nat → UInt8) (usp : Nat) (argv envp : List Bytes)
    (auxv : List Auxv) : Prop :=
  ∃ startup, read r mem usp = some startup ∧ startup.argc = argv.length ∧
    startup.argv = argv ∧ startup.envp = envp ∧ startup.auxv.Perm auxv

/-- **When it does**: no string contains a NUL, no entry is the one that
ends the vector, and the environment is the same read backwards. -/
def Symmetric (argv envp : List Bytes) (auxv : List Auxv) : Prop :=
  (∀ str ∈ argv, 0 ∉ str) ∧ (∀ str ∈ envp, 0 ∉ str) ∧ Auxv.null ∉ auxv ∧ envp.reverse = envp

end Startup

end Archives.Kerla
