import Archives.Kerla.Model.InitStack
import Archives.Kerla.Model.OpenedFile
import Archives.Kerla.Model.PageFault
/-!
# Kerla — replacing the program of a process

`sys_execve` and `Process::execve`: the executable is looked up, its first
page is read, a script names the interpreter to load in its place, and a
new memory space with a new stack is made from the ELF image. Only then is
the process changed; its files that are closed on `execve` are closed
before.

Physical memory is a function from addresses to bytes, and the page
allocator the list of its zones. Of a new page table the model keeps which
tables and pages it has. The user's memory is readable throughout, and the
kernel is built with overflow checks.
-/

namespace Archives.Kerla

open UInt64 Call

def OpenedFileTable.closeCloexecFiles (t : OpenedFileTable) : OpenedFileTable :=
  { t with files := t.files.map fun slot => slot.filter fun file => !file.closeOnExec }

/-! ## The page allocator -/

/-- `BumpAllocator`, a zone of the page allocator. -/
structure BumpAllocator where
  current : Nat
  stop : Nat
  deriving DecidableEq, Repr

def BumpAllocator.allocPages (order : Nat) (zone : BumpAllocator) : Option (Nat × BumpAllocator) :=
  let len := pageSize * (1 <<< order)
  if zone.stop ≤ zone.current + len then none
  else some (zone.current, { zone with current := zone.current + len })

/-- `num_pages_to_order`; none is its `unreachable!()`. -/
def numPagesToOrder (numPages : Nat) : Option Nat :=
  (List.range 16).find? fun order => decide (numPages ≤ 1 <<< order)

/-- The loop of `alloc_pages` over the zones. -/
def allocFromZones (order : Nat) : List BumpAllocator → Option (Nat × List BumpAllocator)
  | [] => none
  | zone :: zones =>
    (zone.allocPages order).elim ((allocFromZones order zones).map fun r => (r.1, zone :: r.2))
      fun r => some (r.1, r.2 :: zones)

namespace Execve

/-- How the kernel stops in `execve`. -/
inductive Stop
  | unreachable
  | indexOutOfBounds
  | unwrap
  | overflow
  /-- No page is left for a page table. -/
  | noPageTable
  deriving DecidableEq, Repr

/-- What is not of the process: physical memory, and its free part. -/
structure Memory where
  mem : Nat → UInt8
  zones : List BumpAllocator

/-- Calls that leave the process alone. -/
abbrev MemoryCall := Call Stop Memory ExecError

/-- `alloc_pages`. The pages are not cleared. -/
def allocPages (numPages : Nat) : MemoryCall Nat := do
  let k ← state
  (numPagesToOrder numPages).elim (stop .unreachable) fun order =>
    (allocFromZones order k.zones).elim (fail (.errno .enomem)) fun r => do
      update fun k => { k with zones := r.2 }
      pure r.1

/-- What a call of `execve` finds outside the process and the memory of
the kernel. -/
structure World where
  rootFs : RootFs
  cwd : PathComponent
  /-- `FileLike::read` from the beginning of a file. -/
  read : Nat → Except Errno Bytes
  /-- `read_secure_random`. -/
  random : { bytes : Bytes // bytes.length = 16 }
  /-- The memory of the user. -/
  user : Nat → UInt8

def fromUtf8 (bytes : Bytes) : Option Str := (String.fromUTF8? ⟨bytes.toArray⟩).map String.toList

def asBytes (s : Str) : Bytes := s.flatMap String.utf8EncodeChar

/-- `UserVAddr::new_nonnull`, with its error. -/
def newNonnull (addr : Nat) : Except ExecError Nat :=
  (userVAddrNewNonnull addr).elim (.error .efault) .ok

/-! ## ELF -/

/-- `ProgramHeader`, the fields that are read. -/
structure ProgramHeader where
  pType : Nat
  pOffset : Nat
  pVaddr : Nat
  pFilesz : Nat
  pMemsz : Nat
  deriving DecidableEq, Repr

def ptLoad : Nat := 1

/-- `size_of::<ProgramHeader>()`. -/
def programHeaderLen : Nat := 56

structure Elf where
  eEntry : Nat
  ePhoff : Nat
  programHeaders : List ProgramHeader
  deriving DecidableEq, Repr

/-- A number in memory. -/
def field (mem : Nat → UInt8) (addr width : Nat) : Nat :=
  LittleEndian.decode (Cells.slice mem addr width)

/-- A program header in memory. -/
def programHeaderAt (mem : Nat → UInt8) (addr : Nat) : ProgramHeader where
  pType := field mem addr 4
  pOffset := field mem (addr + 8) 8
  pVaddr := field mem (addr + 16) 8
  pFilesz := field mem (addr + 32) 8
  pMemsz := field mem (addr + 40) 8

/-- `from_raw_parts`: the headers may reach beyond the page. -/
def programHeadersAt (mem : Nat → UInt8) (addr count : Nat) : List ProgramHeader :=
  (List.range count).map fun i => programHeaderAt mem (addr + i * programHeaderLen)

def elfMag : Bytes := [0x7f, 0x45, 0x4c, 0x46]

def emX86_64 : Nat := 62

def etExec : Nat := 2

/-- `Elf::parse`, of the page at an address. -/
def Elf.parse (page : Nat) : MemoryCall Elf := do
  let k ← state
  if Cells.slice k.mem page 4 ≠ elfMag then fail .enoexec
  else if field k.mem (page + 18) 2 ≠ emX86_64 then fail .enoexec
  else if field k.mem (page + 16) 2 ≠ etExec then fail .enoexec
  else
    let ePhoff := field k.mem (page + 32) 8
    if pageSize ≤ ePhoff then stop .indexOutOfBounds
    else pure ⟨field k.mem (page + 24) 8, ePhoff,
      programHeadersAt k.mem (page + ePhoff) (field k.mem (page + 56) 2)⟩

/-- The loop that finds the end of the image. -/
def endOfImage : List ProgramHeader → Nat → MemoryCall Nat
  | [], last => pure last
  | phdr :: rest, last =>
    if phdr.pType = ptLoad then
      if usizeLimit ≤ phdr.pVaddr + phdr.pMemsz then stop .overflow
      else endOfImage rest (max last (phdr.pVaddr + phdr.pMemsz))
    else endOfImage rest last

/-- `align_up` to pages. -/
def alignUpToPage (value : Nat) : MemoryCall Nat :=
  if usizeLimit ≤ value + pageSize then stop .overflow else pure (alignUp value pageSize)

/-! ## The stack -/

def userStackLen : Nat := 131072

/-- `init_stack_top`: the page above holds the file header. -/
def initStackTop : Nat := userStackTop - pageSize

def userStackBottom : Nat := initStackTop - userStackLen

variable (w : World)

/-- The auxiliary vector of a program. -/
def auxvOf (elf : Elf) : List Auxv :=
  [.phdr (ofNat (initStackTop + elf.ePhoff)),
    .phnum (ofNat elf.programHeaders.length),
    .phent (ofNat programHeaderLen),
    .pagesz (ofNat pageSize),
    .random w.random]

/-- The pages of the initial stack, where they will be mapped. -/
def stackRegion (base len : Nat) (h : len < userStackLen) : StackRegion where
  userTop := initStackTop
  top := base + len
  bottom := base
  bottom_le := Nat.le_add_right base len
  room := by
    rw [Nat.add_sub_cancel_left]
    exact Nat.le_trans (Nat.le_of_lt h) (by decide)
  userTop_lt := by decide

/-- `init_user_stack`, on the memory of the kernel. -/
def initStack (r : StackRegion) (argv envp : List Bytes) (auxv : List Auxv) : MemoryCall Nat := do
  let k ← state
  let r ← lift (InitStack.initUserStack r argv envp auxv k.mem)
  update fun k => { k with mem := r.2 }
  pure r.1

/-- The pages of a stack and its pointer. -/
structure UserStack where
  pages : Nat
  len : Nat
  userSp : Nat

/-- The part of `do_setup_userspace` that sets up the stack. -/
def setupStack (heapBottom : Nat) (argv envp : List Bytes) (auxv : List Auxv) :
    MemoryCall UserStack := do
  let len ← alignUpToPage (InitStack.estimateUserInitStackSize argv envp auxv)
  if h : userStackBottom ≤ heapBottom ∨ userStackLen ≤ len then fail .e2big
  else do
    let pages ← allocPages (len / pageSize)
    let userSp ← initStack (stackRegion pages len (by omega)) argv envp auxv
    pure ⟨pages, len, userSp⟩

/-! ## The memory space -/

/-- A new `PageTable`: the tables it has, by their level and the upper
bits of their addresses, and the pages that are mapped. -/
structure UserPages where
  pml4 : Nat
  tables : List (Nat × Nat)
  pages : List (Nat × Nat)
  deriving DecidableEq

/-- `traverse`, which allocates the tables that are missing. -/
def traverse (vaddr : Nat) : List Nat → UserPages → MemoryCall UserPages
  | [], pt => pure pt
  | level :: rest, pt =>
    let table := (level, vaddr >>> ((level - 1) * 9 + 12))
    if table ∈ pt.tables then traverse vaddr rest pt
    else do
      let _ ← (allocPages 1).expect .noPageTable
      traverse vaddr rest { pt with tables := table :: pt.tables }

def mapUserPage (vaddr paddr : Nat) (pt : UserPages) : MemoryCall UserPages := do
  let pt ← traverse vaddr [4, 3, 2] pt
  pure { pt with pages := (vaddr, paddr) :: pt.pages }

/-- The loops that map pages below an address. -/
def mapUserPages (top paddr count : Nat) : List Nat → UserPages → MemoryCall UserPages
  | [], pt => pure pt
  | i :: rest, pt => do
    let pt ← mapUserPage (top - (count - i) * pageSize) (paddr + i * pageSize) pt
    mapUserPages top paddr count rest pt

/-- The type of the area of a segment. -/
def areaType (executable : Nat) (phdr : ProgramHeader) : VmAreaType :=
  if 0 < phdr.pFilesz then .file executable phdr.pOffset phdr.pFilesz else .anonymous

/-- A call on the areas of a space that is being made. -/
def onVm (m : VmCall Unit) (vm : Vm) : MemoryCall Vm :=
  match m.run vm with
  | .ok (.ok _, vm) => pure vm
  | .ok (.error e, _) => fail (.errno e)
  | .error .overflow => stop .overflow

/-- The loop that registers the program headers. -/
def registerSegments (executable : Nat) : List ProgramHeader → Vm → MemoryCall Vm
  | [], vm => pure vm
  | phdr :: rest, vm =>
    if phdr.pType = ptLoad then do
      let start ← lift (newNonnull phdr.pVaddr)
      let vm ← onVm (Vm.addVmArea start phdr.pMemsz (areaType executable phdr)) vm
      registerSegments executable rest vm
    else registerSegments executable rest vm

structure UserspaceEntry where
  vm : Vm
  pageTable : UserPages
  ip : Nat
  userSp : Nat

/-- `Vm::new` and the mapping of the pages that are filled. -/
def newSpace (heapBottom headerPage : Nat) (stack : UserStack) : MemoryCall (Vm × UserPages) :=
  if heapBottom = 0 then stop .unwrap
  else do
    let pml4 ← allocPages 1
    let pt ← mapUserPages userStackTop headerPage 1 [0] ⟨pml4, [], []⟩
    let count := stack.len / pageSize
    let pt ← mapUserPages initStackTop stack.pages count (List.range count) pt
    pure (Vm.new userStackBottom heapBottom, pt)

/-- `do_setup_userspace` from the ELF header on. -/
def setupElf (executable headerPage : Nat) (argv envp : List Bytes) :
    MemoryCall UserspaceEntry := do
  let elf ← Elf.parse headerPage
  let ip ← lift (newNonnull elf.eEntry)
  let last ← endOfImage elf.programHeaders 0
  let heapBottom ← alignUpToPage last
  let stack ← setupStack heapBottom argv envp (auxvOf w elf)
  let space ← newSpace heapBottom headerPage stack
  let vm ← registerSegments executable elf.programHeaders space.1
  pure ⟨vm, space.2, ip, stack.userSp⟩

/-! ## Scripts -/

def asFile : INode → Except ExecError Nat
  | .fileLike f => .ok f
  | _ => .error (.errno .ebadf)

/-- The first page of an executable, as it is read into memory. -/
structure Header where
  executable : Nat
  page : Nat
  buf : Bytes

/-- `do_setup_userspace` up to the reading of the file. What the file
does not fill is what the page held. -/
def readHeader (path : PathComponent) : MemoryCall Header := do
  let page ← allocPages 1
  let executable ← lift (asFile path.inode)
  let data ← lift ((w.read executable).mapError .errno)
  update fun k => { k with mem := Cells.write k.mem page (data.take pageSize) }
  let k ← state
  pure ⟨executable, page, Cells.slice k.mem page pageSize⟩

/-- The page starts with `#!` and contains a newline. -/
def isScript (buf : Bytes) : Bool := buf.take 2 == [0x23, 0x21] && buf.contains 0x0a

/-- The words of the first line of a script. -/
def interpreter (buf : Bytes) : List Bytes :=
  ((buf.takeWhile (· ≠ 0x0a)).drop 2).splitOnP (· == 0x20)

def lookupInterpreter (name : Bytes) : Except ExecError PathComponent :=
  (fromUtf8 name).elim (.error (.errno .einval)) fun s =>
    (w.rootFs.lookupPath w.cwd (Path.new s) true).mapError .errno

/-- `do_setup_userspace`, where scripts are run by `run`, if at all. -/
def setupWith (envp : List Bytes)
    (run : Option (PathComponent → List Bytes → MemoryCall UserspaceEntry)) (path : PathComponent)
    (argv : List Bytes) : MemoryCall UserspaceEntry := do
  let header ← readHeader w path
  (if isScript header.buf then run else none).elim
    (setupElf w header.executable header.page argv envp) fun run => do
      let words := interpreter header.buf
      if words.isEmpty then fail (.errno .einval)
      else do
        let shebangPath ← lift (lookupInterpreter w (words.headD []))
        run shebangPath (words ++ [asBytes path.resolveAbsolutePath])

/-- **`do_setup_userspace`.** The interpreter of a script is not itself
taken for a script. -/
def doSetupUserspace (envp : List Bytes) (handleShebang : Bool) :
    PathComponent → List Bytes → MemoryCall UserspaceEntry :=
  setupWith w envp (if handleShebang then some (setupWith w envp none) else none)

/-! ## The process -/

structure SyscallFrame where
  rip : Nat
  rsp : Nat
  others : List Nat
  deriving DecidableEq, Repr

/-- The fields of `Process` that `execve` replaces. -/
structure Caller where
  openedFiles : OpenedFileTable
  vm : Vm
  pageTable : UserPages
  signaledFrame : Option SyscallFrame

/-- The process, the frame of its system call, and the kernel's memory. -/
structure State where
  process : Caller
  frame : SyscallFrame
  memory : Memory

/-- What is left when the files of a process are closed. -/
def State.closeCloexec (s : State) : State :=
  { s with process := { s.process with openedFiles := s.process.openedFiles.closeCloexecFiles } }

/-- The process with its new program. -/
def State.enter (s : State) (entry : UserspaceEntry) : State :=
  { s with
    process := { s.process with
      signaledFrame := none, vm := entry.vm, pageTable := entry.pageTable }
    frame := { s.frame with rip := entry.ip, rsp := entry.userSp } }

def execve (path : PathComponent) (argv envp : List Bytes) : Call Stop State ExecError Unit := do
  update State.closeCloexec
  let entry ← (doSetupUserspace w envp true path argv).zoom State.memory
    fun memory s => { s with memory := memory }
  update fun s => s.enter entry

/-! ## The system call -/

/-- `ARG_MAX` and `ENV_MAX`. -/
def argMax : Nat := 512

/-- `ARG_LEN_MAX` and `ENV_LEN_MAX`. -/
def argLenMax : Nat := 4096

def userVAddrNew (addr : Nat) : Except ExecError (Option Nat) :=
  if kernelBaseAddr ≤ addr then .error .efault
  else .ok (if addr = 0 then none else some addr)

/-- `UserVAddr::read::<usize>`. -/
def readUsize (ptr : Nat) : Except ExecError Nat :=
  if Vm.accessOk ptr usizeLen then .ok (field w.user ptr usizeLen) else .error .efault

/-- `UserCStr::new`: the bytes up to a NUL, `maxLen` at most, if they are
UTF-8. -/
def userCStr (uaddr maxLen : Nat) : Except ExecError Bytes :=
  if Vm.accessOk uaddr maxLen then
    let bytes := (Cells.slice w.user uaddr maxLen).takeWhile (· ≠ 0)
    (fromUtf8 bytes).elim (.error (.errno .einval)) fun _ => .ok bytes
  else .error .efault

/-- The loops of `sys_execve` over the pointers of `argv` and `envp`. -/
def readStrings (w : World) : Nat → Nat → Except ExecError (List Bytes)
  | 0, _ => .ok []
  | n + 1, ptr => do
    let value ← readUsize w ptr
    let strPtr ← userVAddrNew value
    strPtr.elim (.ok []) fun uaddr => do
      let str ← userCStr w uaddr argLenMax
      let rest ← readStrings w n (ptr + usizeLen)
      pure (str :: rest)

/-- What `sys_execve` calls `Process::execve` with. -/
structure Args where
  executable : PathComponent
  argv : List Bytes
  envp : List Bytes

/-- `sys_execve` before it calls `Process::execve`. -/
def prepare (path : Path) (argvUaddr envpUaddr : Nat) : Except ExecError Args := do
  let executable ← (w.rootFs.lookupPath w.cwd path true).mapError .errno
  let argv ← readStrings w argMax argvUaddr
  let envp ← readStrings w argMax envpUaddr
  pure ⟨executable, argv, envp⟩

def sysExecve (path : Path) (argvUaddr envpUaddr : Nat) : Call Stop State ExecError Nat := do
  let args ← lift (prepare w path argvUaddr envpUaddr)
  execve w args.executable args.argv args.envp
  pure 0

/-! ## What a failed call leaves -/

/-- An address the allocator may still hand out. -/
def Memory.Free (k : Memory) (a : Nat) : Prop :=
  ∃ zone ∈ k.zones, zone.current ≤ a ∧ a < zone.stop

/-- **The process is as it was**: its files, its memory space with what
the pages in use hold, and its saved frame. -/
structure Unchanged (s s' : State) : Prop where
  openedFiles : s'.process.openedFiles = s.process.openedFiles
  vm : s'.process.vm = s.process.vm
  pageTable : s'.process.pageTable = s.process.pageTable
  pages : ∀ a, ¬ s.memory.Free a → s'.memory.mem a = s.memory.mem a
  signaledFrame : s'.process.signaledFrame = s.process.signaledFrame

/-- No file of the process is closed on `execve`. -/
def NoCloexec (t : OpenedFileTable) : Prop :=
  ∀ slot ∈ t.files, ∀ file, slot = some file → file.closeOnExec = false

end Execve

end Archives.Kerla
