import Wine.Lib.Keyed
import Wine.Lib.Storing

/-!
# The heap of ntdll

A heap is a list of sub-heaps. From the end of its header on, a sub-heap is cut into arenas, each of
which starts with its size and its magic number; the size of an arena has two flags in its low bits,
and the word before an arena whose predecessor is free points to this predecessor. The free arenas
of all sub-heaps are on one circular list, in the order of their size classes, with a head before each
class. Addresses and sizes are 32 bit wide; a sum is reduced where it can exceed them.

The records of the sub-heaps and the links of the free list stand beside the memory; what is stored
in arenas, in headers and data alike, is in it.
-/

namespace Wine.Heaps
open Wine.Lib Reading

/-- One more than the greatest `SIZE_T`. -/
def sizeLimit : ℕ := 0x100000000

def arenaInuseSize : ℕ := 8
def arenaFreeSize : ℕ := 16
def arenaInuseMagic : ℕ := 0x455355
def arenaFreeMagic : ℕ := 0x45455246
def heapMinDataSize : ℕ := 16
def heapMinShrinkSize : ℕ := 32
def commitMask : ℕ := 0xffff
def heapDefSize : ℕ := 0x110000

/-- The sizes of the structures `HEAP` and `SUBHEAP`, and the place of `freeList` in a `HEAP`. -/
def heapSize : ℕ := 240
def subheapSize : ℕ := 24
def freeListOffset : ℕ := 56

def heapFreeListSizes : List ℕ :=
  [0x10, 0x20, 0x30, 0x40, 0x60, 0x80, 0x100, 0x200, 0x400, 0x1000, 0xffffffff]

def heapNbFreeLists : ℕ := heapFreeListSizes.length

/-- `ROUND_SIZE` -/
def roundSize (size : ℕ) : ℕ := (size + 7) % sizeLimit / 8 * 8

/-- The next multiple of the commit granularity. -/
def roundCommit (size : ℕ) : ℕ := (size + commitMask) % sizeLimit / 0x10000 * 0x10000

/-- What is committed of a new sub-heap, for a wish. -/
def roundedCommitSize (size : ℕ) : ℕ := if roundCommit size = 0 then 0x10000 else roundCommit size

structure SubHeap where
  base : ℕ
  size : ℕ
  commitSize : ℕ
  headerSize : ℕ
  deriving DecidableEq, Repr

def SubHeap.first (s : SubHeap) : ℕ := s.base + s.headerSize

def SubHeap.limit (s : SubHeap) : ℕ := s.base + s.size

/-- How much of the sub-heap is committed for an arena at `p` with `dataSize` bytes of data and a
free arena behind it. -/
def SubHeap.commitEnd (s : SubHeap) (p dataSize : ℕ) : ℕ :=
  min (roundCommit ((p + arenaInuseSize + dataSize + arenaFreeSize - s.base) % sizeLimit)) s.size

structure HeapFlags where
  growable : Bool
  generateExceptions : Bool
  zeroMemory : Bool
  reallocInPlaceOnly : Bool
  shared : Bool
  deriving DecidableEq, Repr

/-- The flags of a call that `RtlAllocateHeap` and `RtlReAllocateHeap` look at. -/
structure CallFlags where
  generateExceptions : Bool
  zeroMemory : Bool
  reallocInPlaceOnly : Bool
  deriving DecidableEq, Repr

structure Heap where
  address : ℕ
  subheaps : List SubHeap
  freeList : List ℕ
  flags : HeapFlags
  mem : Memory

/-- How the virtual memory calls end: committing in a sub-heap, reserving a new one and committing
its start, and decommitting. -/
structure Outcomes where
  commit : Bool
  reserve : Option ℕ
  commitNew : Bool
  decommit : Bool
  deriving DecidableEq, Repr

/-! ### Words of the memory -/

def word (m : Memory) (a : ℕ) : ℕ := load m a 4

def setWord (m : Memory) (a v : ℕ) : Memory := store m a (littleEndian 4 v)

/-- The magic number of an in-use arena and the unused bytes share a word. -/
def setInuseMagic (m : Memory) (p : ℕ) : Memory := store m (p + 4) (littleEndian 3 arenaInuseMagic)

def setUnusedBytes (m : Memory) (p n : ℕ) : Memory := store m (p + 7) (littleEndian 1 n)

/-- The bytes from `a` on are cleared. -/
def clearBlock (m : Memory) (a n : ℕ) : Memory := fun i => if a ≤ i ∧ i < a + n then 0 else m i

def memcpy (m : Memory) (dst src n : ℕ) : Memory := store m dst (bytesAt m src n)

/-- `x & ARENA_SIZE_MASK` -/
def sizeOf (x : ℕ) : ℕ := x / 4 * 4

/-- `x & ARENA_FLAG_FREE` -/
def IsFree (x : ℕ) : Prop := x % 2 = 1

/-- `x & ARENA_FLAG_PREV_FREE` -/
def IsPrevFree (x : ℕ) : Prop := x / 2 % 2 = 1

instance (x : ℕ) : Decidable (IsFree x) := inferInstanceAs (Decidable (_ = _))
instance (x : ℕ) : Decidable (IsPrevFree x) := inferInstanceAs (Decidable (_ = _))

/-- `x | ARENA_FLAG_FREE`, `x & ~ARENA_FLAG_FREE`, and the same for the other flag. -/
def setFree (x : ℕ) : ℕ := x / 2 * 2 + 1
def clearFree (x : ℕ) : ℕ := x / 2 * 2
def setPrevFree (x : ℕ) : ℕ := x / 4 * 4 + 2 + x % 2
def clearPrevFree (x : ℕ) : ℕ := x / 4 * 4 + x % 2

/-! ### The free list -/

/-- The place in `HEAP_freeListSizes` for a whole block, arena header included. -/
def getFreelistIndex (size : ℕ) : ℕ :=
  (heapFreeListSizes.take (heapNbFreeLists - 1)).findIdx
    fun n => (size + sizeLimit - arenaFreeSize) % sizeLimit ≤ n

namespace Heap

variable (h : Heap)

/-- The address of `freeList[i]`. -/
def freeListHead (i : ℕ) : ℕ := h.address + freeListOffset + arenaFreeSize * i

def listRemove (p : ℕ) : Heap := { h with freeList := h.freeList.erase p }

def insertFreeBlock (p : ℕ) (last : Bool) : Heap :=
  let i := getFreelistIndex (word h.mem p + arenaFreeSize)
  { h with
    freeList :=
      if last then addBefore (h.freeListHead ((i + 1) % heapNbFreeLists)) p h.freeList
      else addAfter (h.freeListHead i) p h.freeList
    mem := setWord h.mem p (setFree (word h.mem p)) }

def findSubHeap (ptr : ℕ) : Option SubHeap :=
  h.subheaps.find? fun s => s.base ≤ ptr ∧ ptr < s.limit

/-- What a pointer to the sub-heap points to now. -/
def current (s : SubHeap) : SubHeap := (h.subheaps.find? fun t => t.base = s.base).getD s

def setCommitSize (s : SubHeap) (size : ℕ) : Heap :=
  { h with subheaps := h.subheaps.map fun t =>
      if t.base = s.base then { t with commitSize := size } else t }

/-- `HEAP_Commit`; nothing is returned when the memory cannot be committed. -/
def commit (e : Outcomes) (s : SubHeap) (p dataSize : ℕ) : Option (SubHeap × Heap) :=
  let size := s.commitEnd p dataSize
  if size ≤ s.commitSize then some (s, h)
  else if e.commit then some ({ s with commitSize := size }, h.setCommitSize s size)
  else none

/-- `HEAP_Decommit`. What is decommitted reads as zero when it is committed again. -/
def decommit (e : Outcomes) (s : SubHeap) (ptr : ℕ) : Heap :=
  let size := roundCommit (ptr - s.base) + commitMask + 1
  if s.commitSize ≤ size then h
  else if e.decommit then
    { h.setCommitSize s size with mem := clearBlock h.mem (s.base + size) (s.commitSize - size) }
  else h

/-- The end of `HEAP_CreateFreeBlock`: the next block is told, and the new one inserted. -/
def closeFreeBlock (s : SubHeap) (p size : ℕ) : Heap :=
  if s.limit ≤ p + size then
    { h with mem := setWord h.mem p (size - arenaFreeSize) }.insertFreeBlock p true
  else
    let m := setWord h.mem (p + size) (setPrevFree (word h.mem (p + size)))
    let m := setWord m (p + size - 4) p
    { h with mem := setWord m p (size - arenaFreeSize) }.insertFreeBlock p false

/-- `HEAP_CreateFreeBlock`; `size` counts the new arena. -/
def createFreeBlock (s : SubHeap) (p size : ℕ) : Heap :=
  let h := { h with mem := setWord h.mem (p + 4) arenaFreeMagic }
  if p + size < s.limit ∧ IsFree (word h.mem (p + size)) then
    (h.listRemove (p + size)).closeFreeBlock s p
      (size + (sizeOf (word h.mem (p + size)) + arenaFreeSize))
  else h.closeFreeBlock s p size

/-- `HEAP_MakeInUseBlockFree` from the creation of the free block on. -/
def freeArena (e : Outcomes) (s : SubHeap) (q size : ℕ) : Heap :=
  let h := h.createFreeBlock s q size
  if q + (sizeOf (word h.mem q) + arenaFreeSize) < s.limit then h
  else if q = s.first ∧ s.base ≠ h.address then
    { h.listRemove q with subheaps := h.subheaps.eraseP fun t => t.base = s.base }
  else if h.flags.shared then h
  else h.decommit e s (q + arenaFreeSize)

/-- `HEAP_MakeInUseBlockFree` -/
def makeInUseBlockFree (e : Outcomes) (s : SubHeap) (p : ℕ) : Heap :=
  let size := sizeOf (word h.mem p) + arenaInuseSize
  if IsPrevFree (word h.mem p) then
    let q := word h.mem (p - 4)
    (h.listRemove q).freeArena e s q (size + (sizeOf (word h.mem q) + arenaFreeSize))
  else h.freeArena e s p size

/-- `HEAP_ShrinkBlock`. For a `size` close to the limit the test wraps, and the free arena would be
put before the block itself, over the header of the sub-heap: nothing is returned there. -/
def shrinkBlock (s : SubHeap) (p size : ℕ) : Option Heap :=
  let data := sizeOf (word h.mem p)
  if (size + heapMinShrinkSize) % sizeLimit ≤ data then
    if data < size then none
    else
      let h := h.createFreeBlock s (p + arenaInuseSize + size) (data - size)
      some { h with mem := setWord h.mem p (size + word h.mem p % 4) }
  else
    let next := p + arenaInuseSize + data
    if next < s.limit then
      some { h with mem := setWord h.mem next (clearPrevFree (word h.mem next)) }
    else some h

/-- A new sub-heap behind the primary one, in memory that reads as zero. -/
def linkSubHeap (s : SubHeap) : Heap :=
  { h with
    subheaps := h.subheaps.take 1 ++ s :: h.subheaps.drop 1
    mem := clearBlock h.mem s.base s.size }

/-- `HEAP_CreateSubHeap` and `HEAP_InitSubHeap` for a heap that exists. -/
def createSubHeap (e : Outcomes) (commitSize totalSize : ℕ) : Option (SubHeap × Heap) :=
  let commitSize := roundedCommitSize commitSize
  let totalSize := max (roundCommit totalSize) commitSize
  match e.reserve with
  | none => none
  | some address =>
    if e.commitNew then
      let s : SubHeap :=
        ⟨address, totalSize, if h.flags.shared then totalSize else commitSize, subheapSize⟩
      some (s, (h.linkSubHeap s).createFreeBlock s s.first (totalSize - subheapSize))
    else none

/-- The walk of `HEAP_FindFreeBlock` through the free list. -/
def searchFreeList (size : ℕ) : Option ℕ :=
  (nodesAfter (h.freeListHead (getFreelistIndex ((size + arenaInuseSize) % sizeLimit)))
    h.freeList).find? fun p => size ≤ sizeOf (word h.mem p) + arenaFreeSize - arenaInuseSize

/-- `HEAP_FindFreeBlock` -/
def findFreeBlock (e : Outcomes) (size : ℕ) : Option (SubHeap × ℕ × Heap) :=
  match h.searchFreeList size with
  | some p =>
    match h.findSubHeap p with
    | none => none
    | some s => (h.commit e s p size).map fun r => (r.1, p, r.2)
  | none =>
    if h.flags.growable then
      let size := (size + subheapSize + arenaInuseSize + arenaFreeSize) % sizeLimit
      (h.createSubHeap e size (max heapDefSize size)).map fun r => (r.1, r.1.base + subheapSize, r.2)
    else none

end Heap

/-! ### New heaps -/

/-- Writing the heads of the free lists, each the header of a free arena without data. -/
def initHeads (m : Memory) (a : ℕ) : ℕ → Memory
  | 0 => m
  | n + 1 =>
    setWord (setWord (initHeads m a n) (a + arenaFreeSize * n) 1) (a + arenaFreeSize * n + 4)
      arenaFreeMagic

/-- A heap with its heads and no block. -/
def newHeap (s : SubHeap) (flags : HeapFlags) (m : Memory) : Heap where
  address := s.base
  subheaps := [s]
  freeList := (List.range heapNbFreeLists).map fun i => s.base + freeListOffset + arenaFreeSize * i
  flags := flags
  mem := initHeads m (s.base + freeListOffset) heapNbFreeLists

/-- `HEAP_InitSubHeap` for the first sub-heap of a new heap. -/
def initHeap (address totalSize commitSize : ℕ) (flags : HeapFlags) (m : Memory) : Heap :=
  let s : SubHeap :=
    ⟨address, totalSize, if flags.shared then totalSize else commitSize, heapSize⟩
  (newHeap s flags m).createFreeBlock s s.first (totalSize - heapSize)

/-- `RtlCreateHeap`, in a memory in which the pages that it gets read as `m`. -/
def rtlCreateHeap (e : Outcomes) (flags : HeapFlags) (addr totalSize commitSize : ℕ) (m : Memory) :
    Option Heap :=
  let flags := if totalSize = 0 then { flags with growable := true } else flags
  let totalSize := if totalSize = 0 then heapDefSize else totalSize
  let commitSize := roundedCommitSize commitSize
  let totalSize := max (roundCommit totalSize) commitSize
  match if addr = 0 then e.reserve else some addr with
  | none => none
  | some address =>
    if e.commitNew then some (initHeap address totalSize commitSize flags m) else none

/-! ### The calls -/

namespace Heap

variable (h : Heap)

def isValidArenaPtr (ptr : ℕ) : Bool :=
  match h.findSubHeap ptr with
  | none => false
  | some s => s.first ≤ ptr ∨ s.base = h.address ∧
      ptr ∈ (List.range heapNbFreeLists).map h.freeListHead

/-- `HEAP_ValidateInUseArena`, after the tests of its callers that `p` is behind the header. -/
def ValidateInUseArena (s : SubHeap) (p : ℕ) : Prop :=
  s.first ≤ p ∧ p % 8 = 0 ∧ load h.mem (p + 4) 3 = arenaInuseMagic ∧ ¬ IsFree (word h.mem p) ∧
    p + arenaInuseSize + sizeOf (word h.mem p) ≤ s.limit ∧
    (p + arenaInuseSize + sizeOf (word h.mem p) < s.limit →
      ¬ IsPrevFree (word h.mem (p + arenaInuseSize + sizeOf (word h.mem p)))) ∧
    (IsPrevFree (word h.mem p) →
      h.isValidArenaPtr (word h.mem (p - 4)) ∧ IsFree (word h.mem (word h.mem (p - 4))) ∧
        word h.mem (word h.mem (p - 4) + 4) = arenaFreeMagic ∧
        word h.mem (p - 4) + arenaFreeSize + sizeOf (word h.mem (word h.mem (p - 4))) = p)

instance (s : SubHeap) (p : ℕ) : Decidable (h.ValidateInUseArena s p) :=
  inferInstanceAs (Decidable (_ ∧ _))

/-- The sub-heap of a block that a caller names, when the block is valid. -/
def blockSubHeap (p : ℕ) : Option SubHeap :=
  (h.findSubHeap p).filter fun s => h.ValidateInUseArena s p

/-- A free arena is taken from the list and becomes an in-use one. -/
def buildInUse (p : ℕ) : Heap :=
  let m := setWord h.mem p (clearFree (word h.mem p) + arenaFreeSize - arenaInuseSize)
  { h.listRemove p with mem := setInuseMagic m p }

end Heap

/-- What a call answers. `wild`: the code has written over a header of its own. -/
inductive Answer where
  | null
  | raised
  | wild
  | block (ptr : ℕ)
  deriving DecidableEq, Repr

def noMemory (generateExceptions : Bool) : Answer := if generateExceptions then .raised else .null

/-- The size that is asked for, rounded up. -/
def roundedSize (size : ℕ) : ℕ := max (roundSize size) heapMinDataSize

namespace Heap

variable (h : Heap)

/-- `HEAP_IsRealArena` for a block -/
def isRealBlock (ptr : ℕ) : Bool :=
  match h.findSubHeap ptr with
  | none => false
  | some s => s.first + arenaInuseSize ≤ ptr ∧ h.ValidateInUseArena s (ptr - arenaInuseSize)

def rtlSizeHeap (ptr : ℕ) : ℕ :=
  if h.isRealBlock ptr then
    let p := ptr - arenaInuseSize
    (sizeOf (word h.mem p) + sizeLimit - load h.mem (p + 7) 1) % sizeLimit
  else sizeLimit - 1

def rtlAllocateHeap (e : Outcomes) (flags : CallFlags) (size : ℕ) : Answer × Heap :=
  match h.findFreeBlock e (roundedSize size) with
  | none => (noMemory (flags.generateExceptions || h.flags.generateExceptions), h)
  | some (s, p, h) =>
    match (h.buildInUse p).shrinkBlock s p (roundedSize size) with
    | none => (.wild, h)
    | some h =>
      let data := sizeOf (word h.mem p)
      let m := setUnusedBytes h.mem p (data + sizeLimit - size)
      let m := if flags.zeroMemory || h.flags.zeroMemory then clearBlock m (p + arenaInuseSize) data
        else m
      (.block (p + arenaInuseSize), { h with mem := m })

def rtlFreeHeap (e : Outcomes) (ptr : ℕ) : Bool × Heap :=
  if ptr = 0 then (true, h)
  else
    match h.blockSubHeap (ptr - arenaInuseSize) with
    | none => (false, h)
    | some s => (true, h.makeInUseBlockFree e s (ptr - arenaInuseSize))

/-- The end of `RtlReAllocateHeap`: the arena at `p` is what the block has become. -/
def finishReAlloc (zero : Bool) (oldSize size p : ℕ) : Answer × Heap :=
  let data := sizeOf (word h.mem p)
  let m := setUnusedBytes h.mem p (data + sizeLimit - size)
  let m :=
    if oldSize < roundedSize size ∧ zero then
      clearBlock m (p + arenaInuseSize + oldSize) (data - oldSize)
    else m
  (.block (p + arenaInuseSize), { h with mem := m })

/-- The next block is free, and large enough together with this one. -/
def GrowsInPlace (s : SubHeap) (p size : ℕ) : Prop :=
  let oldSize := sizeOf (word h.mem p)
  let next := p + arenaInuseSize + oldSize
  next < s.limit ∧ IsFree (word h.mem next) ∧
    size ≤ (oldSize + sizeOf (word h.mem next) + arenaFreeSize) % sizeLimit

instance (s : SubHeap) (p size : ℕ) : Decidable (h.GrowsInPlace s p size) :=
  inferInstanceAs (Decidable (_ ∧ _))

/-- The next block is taken from the list and counted into this one. -/
def takeNext (p : ℕ) : Heap :=
  let next := p + arenaInuseSize + sizeOf (word h.mem p)
  { h.listRemove next with
    mem := setWord h.mem p (word h.mem p + (sizeOf (word h.mem next) + arenaFreeSize)) }

/-- "Do it the hard way": a new block is built, and the old one copied and freed. -/
def moveBlock (e : Outcomes) (flags : CallFlags) (s : SubHeap) (p size : ℕ) : Answer × Heap :=
  let fail := noMemory (flags.generateExceptions || h.flags.generateExceptions)
  let oldSize := sizeOf (word h.mem p)
  if flags.reallocInPlaceOnly || h.flags.reallocInPlaceOnly then (fail, h)
  else
    match h.findFreeBlock e (roundedSize size) with
    | none => (fail, h)
    | some (newSubheap, q, h) =>
      match (h.buildInUse q).shrinkBlock newSubheap q (roundedSize size) with
      | none => (.wild, h)
      | some h =>
        let h := { h with
          mem := memcpy h.mem (q + arenaInuseSize) (p + arenaInuseSize) oldSize }
        (h.makeInUseBlockFree e (h.current s) p).finishReAlloc
          (flags.zeroMemory || h.flags.zeroMemory) oldSize size q

def rtlReAllocateHeap (e : Outcomes) (flags : CallFlags) (ptr size : ℕ) : Answer × Heap :=
  let p := ptr - arenaInuseSize
  let zero := flags.zeroMemory || h.flags.zeroMemory
  if ptr = 0 then (.null, h)
  else
    match h.blockSubHeap p with
    | none => (.null, h)
    | some s =>
      let oldSize := sizeOf (word h.mem p)
      if oldSize < roundedSize size then
        if h.GrowsInPlace s p (roundedSize size) then
          let h := h.takeNext p
          match h.commit e s p (roundedSize size) with
          | none => (noMemory (flags.generateExceptions || h.flags.generateExceptions), h)
          | some (s, h) =>
            match h.shrinkBlock s p (roundedSize size) with
            | none => (.wild, h)
            | some h => h.finishReAlloc zero oldSize size p
        else h.moveBlock e flags s p size
      else
        match h.shrinkBlock s p (roundedSize size) with
        | none => (.wild, h)
        | some h => h.finishReAlloc zero oldSize size p

end Heap

end Wine.Heaps
