import OsProjects.Lib.Program
import OsProjects.Lib.SizeT
import OsProjects.VirtualMemory.System

/-! # The allocator of `malloc_3.cpp`

The functions of `malloc_3.cpp` over a byte memory.  A `MallocMetadata` header occupies
`sizeofMetadata` bytes in front of its payload, so a header that is written into a payload
changes its bytes.  Pointers are addresses, `size_t` arithmetic is modulo `2 ^ 64`, and the
`(int)` casts of `split` wrap to 32 bits.  An access to an unmapped page (`NULL` among
them) stops with `fault`, a wrong cookie with `exit`, and a loop that visits more than
`2 ^ 64` nodes with `loop`: it has met a cycle. -/

namespace OsProjects.Malloc3

/-! ### Constants and data -/

/-- `SIZE_LIMIT` -/
def sizeLimit : ℕ := 100000000

/-- `SPLIT_THRESHOLD` -/
def splitThreshold : ℕ := 128

/-- `MMAP_THRESHOLD` -/
def mmapThreshold : ℕ := 128 * 1024

/-- `sizeof(MallocMetadata)` on x86-64. -/
def sizeofMetadata : ℕ := 40

/-- The fields of `MallocMetadata`. -/
inductive Field where
  | cookie
  | size
  | isFree
  | next
  | prev
deriving DecidableEq, Repr

/-- Where a field lies in the header. -/
def Field.offset : Field → ℕ
  | cookie => 0
  | size => 8
  | isFree => 16
  | next => 24
  | prev => 32

/-- How many bytes a field has; the rest of the header is padding. -/
def Field.width : Field → ℕ
  | cookie => 4
  | isFree => 1
  | _ => 8

/-- `MemoryList` -/
structure MemoryList where
  head : ℕ := 0
  firsthead : ℕ := 0
  wilderness : ℕ := 0
  mmhead : ℕ := 0
  numFreeBlocks : ℕ := 0
  numFreeBytes : ℕ := 0
  numAllocatedBlocks : ℕ := 0
  numAllocatedBytes : ℕ := 0
  numMetaDataBytes : ℕ := 0
deriving DecidableEq, Repr

/-- The system, the global `Heap` and the constant `MAIN_COOKIE`. -/
structure State where
  sys : System
  heap : MemoryList
  mainCookie : UInt32

/-- The state with another memory. -/
def State.setMem (s : State) (m : Memory) : State := { s with sys := { s.sys with mem := m } }

/-- The state after an assignment to fields of `Heap`. -/
def State.mapHeap (s : State) (f : MemoryList → MemoryList) : State :=
  { s with heap := f s.heap }

/-- Why a call does not return. -/
inductive Stop where
  | fault
  | exit (code : ℕ)
  | loop
deriving DecidableEq, Repr

/-- Programs of the allocator. -/
abbrev M := Prog Stop State

/-- Rounds after which a loop over the list has met a cycle. -/
def rounds : ℕ := 2 ^ 64

/-- `(int)` of a `size_t`, and of any 32-bit sum. -/
def toInt (x : ℤ) : ℤ := x.bmod (2 ^ 32)

/-! ### Memory accesses -/

/-- The field `f` of the header at `p`. -/
def getField (m : Memory) (f : Field) (p : ℕ) : ℕ := m.read (p + f.offset) f.width

/-- The memory after the field `f` of the header at `p` was set to `v`. -/
def setField (m : Memory) (f : Field) (p v : ℕ) : Memory := m.write (p + f.offset) f.width v

/-- `p->f` -/
def get (f : Field) (p : ℕ) : M ℕ := fun s =>
  if s.sys.mem.accessible (p + f.offset) f.width then .ok (getField s.sys.mem f p, s)
  else .error .fault

/-- `p->f = v` -/
def set (f : Field) (p v : ℕ) : M Unit := fun s =>
  if s.sys.mem.accessible (p + f.offset) f.width then
    .ok ((), s.setMem (setField s.sys.mem f p v))
  else .error .fault

/-- `p->is_free` as a `bool`. -/
def getFree (p : ℕ) : M Bool := do
  return (← get .isFree p) != 0

/-- `p->is_free = b` -/
def setFree (p : ℕ) (b : Bool) : M Unit := set .isFree p b.toNat

/-- `memmove` -/
def memmove (dst src n : ℕ) : M Unit := fun s =>
  if s.sys.mem.accessible src n && s.sys.mem.accessible dst n then
    .ok ((), s.setMem (s.sys.mem.copy dst src n))
  else .error .fault

/-- `memset` -/
def memset (dst n : ℕ) (b : UInt8) : M Unit := fun s =>
  if s.sys.mem.accessible dst n then
    .ok ((), s.setMem (s.sys.mem.fill dst n b))
  else .error .fault

/-- The global `Heap`. -/
def getHeap : M MemoryList := Prog.gets State.heap

/-- An assignment to fields of the global `Heap`. -/
def setHeap (f : MemoryList → MemoryList) : M Unit :=
  Prog.modify fun s => s.mapHeap f

def sbrk (increment : ℕ) : M ℕ := fun s =>
  .ok ((s.sys.sbrk increment).1, { s with sys := (s.sys.sbrk increment).2 })

def mmap (len : ℕ) : M ℕ := fun s =>
  .ok ((s.sys.mmap len).1, { s with sys := (s.sys.mmap len).2 })

def munmap (a len : ℕ) : M Unit := Prog.modify fun s => { s with sys := s.sys.munmap a len }

/-! ### Bookkeeping -/

def validateCookie (alloc : ℕ) : M Unit := do
  if alloc ≠ 0 then
    let cookie ← get .cookie alloc
    let main ← Prog.gets fun s => s.mainCookie.toNat
    if cookie ≠ main then Prog.stop (.exit 0xdeadbeef) else pure ()
  else pure ()

def newAllocAdjustment (size : ℕ) : M Unit :=
  setHeap fun h => { h with
    numAllocatedBlocks := add64 h.numAllocatedBlocks 1
    numAllocatedBytes := add64 h.numAllocatedBytes size
    numMetaDataBytes := add64 h.numMetaDataBytes sizeofMetadata }

def firstAllocation (size : ℕ) : M ℕ := do
  let metaDataAddress ← sbrk (add64 size sizeofMetadata)
  if metaDataAddress = failed then pure 0
  else
    setHeap fun h => { h with head := metaDataAddress }
    set .cookie metaDataAddress (← Prog.gets fun s => s.mainCookie.toNat)
    setFree metaDataAddress false
    set .next metaDataAddress 0
    set .prev metaDataAddress 0
    set .size metaDataAddress size
    setHeap fun h => { h with wilderness := metaDataAddress, firsthead := metaDataAddress }
    newAllocAdjustment size
    pure (add64 metaDataAddress sizeofMetadata)

/-- `is_free = true` with its two counters (in `sfree` and in five branches of `srealloc`). -/
def markFree (block : ℕ) : M Unit := do
  setFree block true
  let size ← get .size block
  setHeap fun h => { h with
    numFreeBlocks := add64 h.numFreeBlocks 1
    numFreeBytes := add64 h.numFreeBytes size }

/-- `is_free = false` with its two counters. -/
def markUsed (block : ℕ) : M Unit := do
  setFree block false
  let size ← get .size block
  setHeap fun h => { h with
    numFreeBlocks := sub64 h.numFreeBlocks 1
    numFreeBytes := sub64 h.numFreeBytes size }

/-! ### The list in size order -/

/-- `newAlloc` goes between `ptr` and its successor. -/
def insertBetween (newAlloc ptr : ℕ) : M Unit := do
  let next ← get .next ptr
  set .next newAlloc next
  set .prev newAlloc ptr
  set .next ptr newAlloc
  set .prev next newAlloc

/-- `newAlloc` goes in front of `ptr`, which may be the head. -/
def insertBefore (newAlloc ptr : ℕ) : M Unit := do
  if ptr = (← getHeap).head then
    setHeap fun h => { h with head := newAlloc }
    set .next newAlloc ptr
    set .prev newAlloc 0
    set .prev ptr newAlloc
  else
    let prev ← get .prev ptr
    set .next newAlloc ptr
    set .prev newAlloc prev
    set .prev ptr newAlloc
    set .next prev newAlloc

/-- `newAlloc` goes behind the last node `ptr`. -/
def insertLast (newAlloc ptr : ℕ) : M Unit := do
  set .next ptr newAlloc
  set .prev newAlloc ptr
  set .next newAlloc 0

/-- Behind the loop of `HeapListInsert`: `ptr` is the last node. -/
def heapListInsertTail (newAlloc ptr : ℕ) : M Unit := do
  let ptrSize ← get .size ptr
  let newSize ← get .size newAlloc
  if ptrSize ≤ newSize then
    if ptrSize = newSize then
      if ptr < newAlloc then insertLast newAlloc ptr else insertBefore newAlloc ptr
    else insertLast newAlloc ptr
  else
    -- the source assumes, in a commented-out assertion, that `ptr` is the head here
    set .prev ptr newAlloc
    set .next newAlloc ptr
    set .prev newAlloc 0
    setHeap fun h => { h with head := newAlloc }

/-- The loop of `HeapListInsert` from `ptr` on. -/
def heapListInsertLoop (newAlloc : ℕ) : ℕ → ℕ → M Unit
  | 0, _ => Prog.stop .loop
  | fuel + 1, ptr => do
    let next ← get .next ptr
    if next ≠ 0 then
      validateCookie newAlloc
      let newSize ← get .size newAlloc
      let ptrSize ← get .size ptr
      let fits ← (if ptrSize ≤ newSize then do return decide (newSize < (← get .size next))
        else pure false)
      if fits then
        if newSize = ptrSize then
          if ptr < newAlloc then insertBetween newAlloc ptr else insertBefore newAlloc ptr
        else insertBetween newAlloc ptr
      else
        validateCookie next
        heapListInsertLoop newAlloc fuel next
    else heapListInsertTail newAlloc ptr

def heapListInsert (newAlloc : ℕ) : M Unit := do
  let ptr := (← getHeap).head
  if ptr ≠ 0 then
    validateCookie ptr
    heapListInsertLoop newAlloc rounds ptr
  else
    setHeap fun h => { h with head := newAlloc }
    set .next newAlloc 0
    set .prev newAlloc 0

def heapListRemove (block : ℕ) : M Unit := do
  validateCookie block
  validateCookie (← getHeap).head
  if block = (← getHeap).head then
    let next ← get .next block
    setHeap fun h => { h with head := next }
    if next ≠ 0 then set .prev next 0 else pure ()
  else
    let next ← get .next block
    (if next ≠ 0 then do
      set .prev next (← get .prev block)
      validateCookie (← get .next block)
    else pure ())
    let prev ← get .prev block
    validateCookie prev
    set .next prev (← get .next block)

/-! ### Splitting and merging -/

/-- The test of `split`, with its `int` arithmetic. -/
@[irreducible] def canSplit (size newSize : ℕ) : Bool :=
  (splitThreshold : ℤ) ≤ toInt (toInt (toInt size - toInt newSize) - sizeofMetadata)

def split (request newSize : ℕ) : M Unit := do
  validateCookie request
  let size ← get .size request
  if canSplit size newSize then
    let newBlock := add64 (add64 request newSize) sizeofMetadata
    setHeap fun h => { h with
      wilderness := if request = h.wilderness then newBlock else h.wilderness }
    set .cookie newBlock (← Prog.gets fun s => s.mainCookie.toNat)
    setFree newBlock true
    set .size newBlock (sub64 (sub64 (← get .size request) newSize) sizeofMetadata)
    let requestFree ← getFree request
    let newBlockSize ← get .size newBlock
    setHeap fun h =>
      if requestFree = false then { h with
        numFreeBlocks := add64 h.numFreeBlocks 1
        numFreeBytes := add64 h.numFreeBytes newBlockSize }
      else { h with numFreeBytes := sub64 h.numFreeBytes (add64 newSize sizeofMetadata) }
    setFree request false
    set .size request newSize
    setHeap fun h => { h with
      numAllocatedBlocks := add64 h.numAllocatedBlocks 1
      numAllocatedBytes := sub64 h.numAllocatedBytes sizeofMetadata
      numMetaDataBytes := add64 h.numMetaDataBytes sizeofMetadata }
    heapListRemove request
    heapListInsert request
    heapListInsert newBlock
  else if ← getFree request then markUsed request
  else pure ()

/-- The `else` branch of `smerge`: the free block `next` is absorbed by the free block `ptr`
in front of it. -/
def absorb (ptr next : ℕ) : M Unit := do
  set .size ptr (add64 (← get .size ptr) (add64 (← get .size next) sizeofMetadata))
  setHeap fun h => { h with
    numFreeBlocks := sub64 h.numFreeBlocks 1
    numFreeBytes := add64 h.numFreeBytes sizeofMetadata
    numAllocatedBlocks := sub64 h.numAllocatedBlocks 1
    numAllocatedBytes := add64 h.numAllocatedBytes sizeofMetadata
    numMetaDataBytes := sub64 h.numMetaDataBytes sizeofMetadata }
  heapListRemove ptr
  heapListRemove next
  heapListInsert ptr

/-- `smerge`; the first argument bounds the depth of the recursion. -/
def smerge (limit : ℕ) : ℕ → ℕ → M Unit
  | 0, _ => Prog.stop .loop
  | fuel + 1, ptr => do
    if ptr = limit then pure ()
    else
      validateCookie ptr
      let next := add64 (add64 ptr (← get .size ptr)) sizeofMetadata
      if next = limit then pure ()
      else
        validateCookie next
        let ptrFree ← getFree ptr
        let nextFree ← getFree next
        if ptrFree = false ∨ nextFree = false then smerge limit fuel next
        else
          absorb ptr next
          if next = (← getHeap).wilderness then setHeap fun h => { h with wilderness := ptr }
          else smerge limit fuel ptr

def merge : M Unit := do
  let limit ← sbrk 0
  let ptr := (← getHeap).firsthead
  if ptr = 0 ∨ limit = failed then pure () else smerge limit rounds ptr

/-! ### `smalloc`, `scalloc` and `sfree` -/

/-- The last node of the list from `ptr` on (the loop of the `mmap` branch of `smalloc`). -/
def mmLast : ℕ → ℕ → M ℕ
  | 0, _ => Prog.stop .loop
  | fuel + 1, ptr => do
    let next ← get .next ptr
    if next ≠ 0 then
      validateCookie ptr
      mmLast fuel next
    else pure ptr

/-- `newAlloc` goes behind the last node of the `mmap` list. -/
def mmAppend (newAlloc : ℕ) : M Unit := do
  let mmhead := (← getHeap).mmhead
  if mmhead = 0 then
    setHeap fun h => { h with mmhead := newAlloc }
    validateCookie newAlloc
  else
    let ptr ← mmLast rounds mmhead
    set .next ptr newAlloc
    set .prev newAlloc ptr

/-- The `mmap` branch of `smalloc`. -/
def smallocMmap (size : ℕ) : M ℕ := do
  let newAlloc ← mmap (add64 size sizeofMetadata)
  if newAlloc = failed then pure 0
  else
    set .cookie newAlloc (← Prog.gets fun s => s.mainCookie.toNat)
    setFree newAlloc false
    set .size newAlloc size
    set .next newAlloc 0
    set .prev newAlloc 0
    newAllocAdjustment size
    mmAppend newAlloc
    pure (add64 newAlloc sizeofMetadata)

/-- The search of `smalloc`: the first free block of at least `size` bytes from `ptr` on. -/
def search (size : ℕ) : ℕ → ℕ → M (Option ℕ)
  | 0, _ => Prog.stop .loop
  | fuel + 1, ptr => do
    validateCookie ptr
    let ptrFree ← getFree ptr
    let fits ← (if ptrFree = true then do return decide (size ≤ (← get .size ptr)) else pure false)
    if fits then pure (some ptr)
    else
      let next ← get .next ptr
      if next ≠ 0 then search size fuel next else pure none

/-- `smalloc` when no block of the list fits and the wilderness is free. -/
def growFreeWilderness (size : ℕ) : M ℕ := do
  let wilderness := (← getHeap).wilderness
  validateCookie wilderness
  let used ← get .size wilderness
  let needed := sub64 size used
  let bonus ← sbrk needed
  if bonus = failed then pure 0
  else
    heapListRemove wilderness
    setFree wilderness false
    set .size wilderness (add64 (← get .size wilderness) needed)
    heapListInsert wilderness
    setHeap fun h => { h with
      numFreeBlocks := sub64 h.numFreeBlocks 1
      numFreeBytes := sub64 h.numFreeBytes used
      numAllocatedBytes := add64 h.numAllocatedBytes needed }
    pure (add64 wilderness sizeofMetadata)

/-- `smalloc` when a new block is needed behind the wilderness. -/
def appendBlock (size : ℕ) : M ℕ := do
  let newAlloc ← sbrk (add64 size sizeofMetadata)
  if newAlloc = failed then pure 0
  else
    setHeap fun h => { h with wilderness := newAlloc }
    set .cookie newAlloc (← Prog.gets fun s => s.mainCookie.toNat)
    setFree newAlloc false
    set .size newAlloc size
    newAllocAdjustment size
    heapListInsert newAlloc
    pure (add64 newAlloc sizeofMetadata)

def smalloc (size : ℕ) : M ℕ := do
  if size = 0 ∨ sizeLimit < size then pure 0
  else if mmapThreshold ≤ size then smallocMmap size
  else if (← getHeap).head = 0 then firstAllocation size
  else
    match ← search size rounds (← getHeap).head with
    | some ptr =>
      split ptr size
      pure (add64 ptr sizeofMetadata)
    | none =>
      validateCookie (← getHeap).wilderness
      if ← getFree (← getHeap).wilderness then growFreeWilderness size
      else appendBlock size

def scalloc (num size : ℕ) : M ℕ := do
  let address ← smalloc ((num * size) % 2 ^ 64)
  if address = 0 then pure 0
  else
    memset address ((num * size) % 2 ^ 64) 0
    pure address

/-- The block leaves the `mmap` list. -/
def mmUnlink (block : ℕ) : M Unit := do
  if block = (← getHeap).mmhead then
    let next ← get .next block
    setHeap fun h => { h with mmhead := next }
    if next ≠ 0 then
      validateCookie next
      set .prev next 0
    else pure ()
  else
    set .next (← get .prev block) (← get .next block)
    validateCookie (← get .prev block)
    let next ← get .next block
    if next ≠ 0 then set .prev next (← get .prev block) else pure ()

/-- The `mmap` branch of `sfree`. -/
def sfreeMmap (block : ℕ) : M Unit := do
  mmUnlink block
  let size ← get .size block
  setHeap fun h => { h with
    numAllocatedBlocks := sub64 h.numAllocatedBlocks 1
    numAllocatedBytes := sub64 h.numAllocatedBytes size
    numMetaDataBytes := sub64 h.numMetaDataBytes sizeofMetadata }
  munmap block (add64 size sizeofMetadata)

def sfree (p : ℕ) : M Unit := do
  if p = 0 then pure ()
  else
    let block := sub64 p sizeofMetadata
    validateCookie block
    if mmapThreshold ≤ (← get .size block) then sfreeMmap block
    else if (← getFree block) = false then
      markFree block
      merge
    else pure ()

/-! ### `srealloc` -/

def mmapsrealloc (oldp size : ℕ) : M ℕ := do
  let old := sub64 oldp sizeofMetadata
  validateCookie old
  if (← get .size old) = size then pure oldp
  else
    let address ← smalloc size
    if address = 0 then pure 0
    else
      let oldSize ← get .size old
      memmove address oldp (if oldSize < size then oldSize else size)
      sfree oldp
      pure address

/-- The search of `srealloc` for the block in front of `old` in address order. -/
def prevLoop (old : ℕ) : ℕ → ℕ → M ℕ
  | 0, _ => Prog.stop .loop
  | fuel + 1, prev => do
    let behind := add64 (add64 prev (← get .size prev)) sizeofMetadata
    if behind = old then pure prev else prevLoop old fuel behind

/-- `is_free` of a neighbour is saved and set to `false` while the heap is merged. -/
def mergeWithout (neighbour : ℕ) : M Unit := do
  if neighbour ≠ 0 then
    let state ← getFree neighbour
    setFree neighbour false
    merge
    setFree neighbour state
  else merge

/-- The wilderness grows by `needed` bytes that `sbrk` has just returned. -/
def growWilderness (needed : ℕ) : M Unit := do
  let wilderness := (← getHeap).wilderness
  heapListRemove wilderness
  set .size wilderness (add64 (← get .size wilderness) needed)
  heapListInsert wilderness
  setHeap fun h => { h with numAllocatedBytes := add64 h.numAllocatedBytes needed }

/-- `size - Heap.wilderness->size` -/
def wildernessNeeds (size : ℕ) : M ℕ := do
  return sub64 size (← get .size (← getHeap).wilderness)

/-- Case b: merge with the lower neighbour. -/
def reallocLower (old prev next oldp size : ℕ) : M ℕ := do
  markFree old
  mergeWithout next
  split prev size
  merge
  let address := add64 prev sizeofMetadata
  memmove address oldp (← get .size old)
  pure address

/-- Case b when `old` is the wilderness and even the merged block is too small. -/
def reallocLowerGrow (old prev oldp size : ℕ) : M ℕ := do
  markFree old
  merge
  split prev size
  let needed ← wildernessNeeds size
  let bonus ← sbrk needed
  if bonus = failed then pure 0
  else
    let address := add64 prev sizeofMetadata
    memmove address oldp (← get .size old)
    growWilderness needed
    pure address

/-- Case c: enlarge the wilderness in place. -/
def reallocGrow (size : ℕ) : M ℕ := do
  let needed ← wildernessNeeds size
  let bonus ← sbrk needed
  if bonus = failed then pure 0
  else
    let address := add64 (← getHeap).wilderness sizeofMetadata
    growWilderness needed
    pure address

/-- Case d: merge with the upper neighbour. -/
def reallocUpper (old prev size : ℕ) : M ℕ := do
  markFree old
  mergeWithout prev
  split old size
  pure (add64 old sizeofMetadata)

/-- Case e: merge all three blocks. -/
def reallocBoth (old prev oldp size : ℕ) : M ℕ := do
  markFree old
  merge
  split prev size
  let address := add64 prev sizeofMetadata
  memmove address oldp (← get .size old)
  pure address

/-- Case f.i: merge all three blocks and enlarge them, the upper one being the wilderness. -/
def reallocBothGrow (old prev oldp size : ℕ) : M ℕ := do
  markFree old
  merge
  markUsed prev
  let address := add64 prev sizeofMetadata
  memmove address oldp (← get .size old)
  let needed ← wildernessNeeds size
  let bonus ← sbrk needed
  if bonus = failed then pure 0
  else
    growWilderness needed
    pure address

/-- Case f.ii: merge with the upper neighbour, the wilderness, and enlarge it. -/
def reallocUpperGrow (old size : ℕ) : M ℕ := do
  markFree old
  merge
  markUsed old
  let address := add64 old sizeofMetadata
  let needed ← wildernessNeeds size
  let bonus ← sbrk needed
  if bonus = failed then pure 0
  else
    growWilderness needed
    pure address

/-- Cases g and h: move to another block. -/
def reallocMove (old oldp size : ℕ) : M ℕ := do
  let newp ← smalloc size
  if newp = 0 then pure 0
  else
    memmove newp oldp (← get .size old)
    sfree oldp
    pure newp

/-- `srealloc` once the neighbours in address order are known: `prev` is `NULL` if the block
`isFirst`, and `next` is `NULL` if it `isWild`. -/
def reallocNeighbours (old prev next : ℕ) (isFirst isWild : Bool) (oldp size : ℕ) : M ℕ := do
  let oldSize ← get .size old
  let prevFree ← (if isFirst then pure false else getFree prev)
  let prevSize ← (if prevFree then get .size prev else pure 0)
  if prevFree = true ∧ size ≤ add64 (add64 oldSize prevSize) sizeofMetadata then
    reallocLower old prev next oldp size
  else if prevFree = true ∧ isWild = true then reallocLowerGrow old prev oldp size
  else if isWild then reallocGrow size
  else
    let nextFree ← getFree next
    let nextSize ← (if nextFree then get .size next else pure 0)
    if nextFree = true ∧ size ≤ add64 (add64 oldSize nextSize) sizeofMetadata then
      reallocUpper old prev size
    else if nextFree = true ∧ prevFree = true ∧
        size ≤ add64 (add64 (add64 prevSize oldSize) nextSize) (2 * sizeofMetadata) then
      reallocBoth old prev oldp size
    else if next = (← getHeap).wilderness ∧ nextFree = true then
      if prevFree then reallocBothGrow old prev oldp size else reallocUpperGrow old size
    else reallocMove old oldp size

def srealloc (oldp size : ℕ) : M ℕ := do
  if oldp = 0 then smalloc size
  else if size = 0 ∨ sizeLimit < size then pure 0
  else
    let old := sub64 oldp sizeofMetadata
    validateCookie old
    let oldSize ← get .size old
    if mmapThreshold ≤ oldSize then mmapsrealloc oldp size
    else if size ≤ oldSize then
      split old size
      pure oldp
    else
      let heap ← getHeap
      let isWild := decide (old = heap.wilderness)
      let next := if isWild then 0 else add64 (add64 old oldSize) sizeofMetadata
      validateCookie next
      let isFirst := decide (old = heap.firsthead)
      let prev ← (if isFirst then pure 0 else prevLoop old rounds heap.firsthead)
      validateCookie prev
      reallocNeighbours old prev next isFirst isWild oldp size

end OsProjects.Malloc3
