import OsProjects.Lib.Layout
import OsProjects.Lib.Program
import OsProjects.Lib.SizeT
import OsProjects.VirtualMemory.System

/-! # The allocator of `malloc_2.cpp`

The functions of `malloc_2.cpp` over a byte memory, in which a `MallocMetadata` header
occupies `sizeofMetadata` bytes in front of its payload.  An access to an unmapped page stops
with `fault`, and a loop that visits more than `2 ^ 64` nodes with `loop`.  The state records,
besides the variables of the program, what `sbrk` has returned so far. -/

namespace OsProjects.Malloc2

/-! ### Data -/

/-- `SIZE_LIMIT` -/
def sizeLimit : ℕ := 100000000

/-- `sizeof(MallocMetadata)` on x86-64. -/
def sizeofMetadata : ℕ := 32

/-- The fields of `MallocMetadata`. -/
inductive Field where
  | size
  | isFree
  | next
  | prev
deriving DecidableEq, Repr

/-- Where a field lies in the header. -/
def Field.offset : Field → ℕ
  | size => 0
  | isFree => 8
  | next => 16
  | prev => 24

/-- How many bytes a field has; the rest of the header is padding. -/
def Field.width : Field → ℕ
  | isFree => 1
  | _ => 8

/-- `MallocMetadata` -/
def metadata : Layout Field where
  size := sizeofMetadata
  offset := Field.offset
  width := Field.width
  fits f := by cases f <;> decide
  disjoint f g := by cases f <;> cases g <;> decide

/-- `MemoryList` -/
structure MemoryList where
  head : ℕ := 0
  numFreeBlocks : ℕ := 0
  numFreeBytes : ℕ := 0
  numAllocatedBlocks : ℕ := 0
  numAllocatedBytes : ℕ := 0
  numMetaDataBytes : ℕ := 0
deriving DecidableEq, Repr

/-- The system, the global `Heap`, and the addresses that `sbrk` has returned. -/
structure State where
  sys : System
  heap : MemoryList
  obtained : List ℕ

/-- The state with another memory. -/
def State.setMem (s : State) (m : Memory) : State := { s with sys := { s.sys with mem := m } }

/-- The state after an assignment to fields of `Heap`. -/
def State.mapHeap (s : State) (f : MemoryList → MemoryList) : State := { s with heap := f s.heap }

/-- Why a call does not return. -/
inductive Stop where
  | fault
  | loop
deriving DecidableEq, Repr

/-- Programs of the allocator. -/
abbrev M := Prog Stop State

/-- Rounds after which a loop over the list has met a cycle. -/
def rounds : ℕ := 2 ^ 64

/-! ### Accesses -/

/-- `p->f` -/
def get (f : Field) (p : ℕ) : M ℕ := fun s =>
  if s.sys.mem.accessible (p + f.offset) f.width then .ok (metadata.get s.sys.mem f p, s)
  else .error .fault

/-- `p->f = v` -/
def set (f : Field) (p v : ℕ) : M Unit := fun s =>
  if s.sys.mem.accessible (p + f.offset) f.width then
    .ok ((), s.setMem (metadata.set s.sys.mem f p v))
  else .error .fault

/-- `memmove` -/
def memmove (dst src n : ℕ) : M Unit := fun s =>
  if s.sys.mem.accessible src n && s.sys.mem.accessible dst n then
    .ok ((), s.setMem (s.sys.mem.copy dst src n))
  else .error .fault

/-- `memset` -/
def memset (dst n : ℕ) (b : UInt8) : M Unit := fun s =>
  if s.sys.mem.accessible dst n then .ok ((), s.setMem (s.sys.mem.fill dst n b))
  else .error .fault

/-- The global `Heap`. -/
def getHeap : M MemoryList := Prog.gets State.heap

/-- An assignment to fields of the global `Heap`. -/
def setHeap (f : MemoryList → MemoryList) : M Unit := Prog.modify fun s => s.mapHeap f

def sbrk (increment : ℕ) : M ℕ := fun s =>
  let r := s.sys.sbrk increment
  .ok (r.1, { s with
    sys := r.2
    obtained := if r.1 = failed then s.obtained else s.obtained ++ [r.1] })

/-! ### The functions -/

def newAllocAdjustment (size : ℕ) : M Unit :=
  setHeap fun h => { h with
    numAllocatedBlocks := add64 h.numAllocatedBlocks 1
    numAllocatedBytes := add64 h.numAllocatedBytes size
    numMetaDataBytes := add64 h.numMetaDataBytes sizeofMetadata }

def firstAllocation (size : ℕ) : M ℕ := do
  let metaDataAddress ← sbrk (add64 size sizeofMetadata)
  if metaDataAddress = failed then pure 0
  else
    setHeap fun h => { h with head := metaDataAddress }
    set .isFree metaDataAddress 0
    set .next metaDataAddress 0
    set .prev metaDataAddress 0
    set .size metaDataAddress size
    newAllocAdjustment size
    pure (add64 metaDataAddress sizeofMetadata)

/-- How the loop of `smalloc` ends: at a block that fits, or with the last block in `prev`. -/
inductive Search where
  | found (ptr : ℕ)
  | last (prev : ℕ)
deriving DecidableEq, Repr

/-- The loop of `smalloc` from `ptr` on. -/
def search (size : ℕ) : ℕ → ℕ → M Search
  | 0, _ => Prog.stop .loop
  | fuel + 1, ptr => do
    let ptrFree ← get .isFree ptr
    let fits ← (if ptrFree ≠ 0 then do return decide (size ≤ (← get .size ptr)) else pure false)
    if fits then pure (.found ptr)
    else
      let next ← get .next ptr
      if next ≠ 0 then search size fuel next else pure (.last ptr)

/-- `smalloc` with a block of the list. -/
def reuse (ptr : ℕ) : M ℕ := do
  set .isFree ptr 0
  let size ← get .size ptr
  setHeap fun h => { h with
    numFreeBlocks := sub64 h.numFreeBlocks 1
    numFreeBytes := sub64 h.numFreeBytes size }
  pure (add64 ptr sizeofMetadata)

/-- `smalloc` with a new block behind the last one. -/
def append (size prev : ℕ) : M ℕ := do
  let newAllocation ← sbrk (add64 size sizeofMetadata)
  if newAllocation = failed then pure 0
  else
    set .isFree newAllocation 0
    set .size newAllocation size
    set .next newAllocation 0
    set .prev newAllocation prev
    set .next prev newAllocation
    newAllocAdjustment size
    pure (add64 newAllocation sizeofMetadata)

def smalloc (size : ℕ) : M ℕ := do
  if size = 0 ∨ sizeLimit < size then pure 0
  else if (← getHeap).head = 0 then firstAllocation size
  else
    match ← search size rounds (← getHeap).head with
    | .found ptr => reuse ptr
    | .last prev => append size prev

def scalloc (num size : ℕ) : M ℕ := do
  let address ← smalloc (num * size % 2 ^ 64)
  if address = 0 then pure 0
  else
    memset address (num * size % 2 ^ 64) 0
    pure address

def sfree (p : ℕ) : M Unit := do
  if p = 0 then pure ()
  else
    let block := sub64 p sizeofMetadata
    if (← get .isFree block) = 0 then
      set .isFree block 1
      let size ← get .size block
      setHeap fun h => { h with
        numFreeBlocks := add64 h.numFreeBlocks 1
        numFreeBytes := add64 h.numFreeBytes size }
    else pure ()

def srealloc (oldp size : ℕ) : M ℕ := do
  if oldp = 0 then smalloc size
  else
    let old := sub64 oldp sizeofMetadata
    if size ≤ (← get .size old) then pure oldp
    else
      let newp ← smalloc size
      if newp = 0 then pure 0
      else
        memmove newp oldp (← get .size old)
        sfree oldp
        pure newp

end OsProjects.Malloc2
